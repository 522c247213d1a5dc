import Mathlib
import ZPlane.Proofs.Parsing.Forward
import ZPlane.Proofs.Parsing.Numeral

/-!
# Tokens and lexemes

Each size function of the lexer measures a language, so its token takes the longest text of that
language, and fails where there is none.  A lexeme goes on to the next character that is no blank.
-/

namespace ZPlane

namespace Text

/-- The text from the first character on that is no blank. -/
def skip (cs : List Char) : List Char := cs.dropWhile isBlank

theorem skip_suffix (cs : List Char) : skip cs <:+ cs := List.dropWhile_suffix _

/-- Skipping leaves no more than there was. -/
theorem length_skip_le (cs : List Char) : (skip cs).length ≤ cs.length := (skip_suffix cs).length_le

/-- Nothing is skipped before a character that is no blank. -/
theorem skip_cons_of_not_isBlank {c : Char} (hc : isBlank c = false) (cs : List Char) :
    skip (c :: cs) = c :: cs := List.dropWhile_cons_of_neg (by simp [hc])

/-- Blanks in front are skipped. -/
theorem skip_append_of_isBlank {bs : List Char} (hbs : ∀ c ∈ bs, isBlank c = true)
    (cs : List Char) : skip (bs ++ cs) = skip cs := List.dropWhile_append_of_pos hbs

/-- What is left begins with no blank. -/
theorem isBlank_of_skip {c : Char} {cs r : List Char} (h : skip cs = c :: r) :
    isBlank c = false := by
  have := List.head?_dropWhile_not isBlank cs
  rw [← skip, h] at this
  exact this

/-- Blanks are skipped alike when the text ends early. -/
theorem exists_skip_cut {cs p s : List Char} (h : skip cs = p ++ s) :
    ∃ cs', cs = cs' ++ s ∧ skip cs' = p := by
  refine ⟨cs.takeWhile isBlank ++ p, ?_, ?_⟩
  · rw [List.append_assoc, ← h]
    exact (List.takeWhile_append_dropWhile ..).symm
  · rw [skip_append_of_isBlank fun _ hc ↦ List.mem_takeWhile_imp hc]
    cases p with
    | nil => rfl
    | cons c p => exact skip_cons_of_not_isBlank (isBlank_of_skip h) p

/-- `r` is what `cs` has behind a character that is no blank. -/
def Leaves (cs r : List Char) : Prop := ∃ w d, isBlank d = false ∧ cs = w ++ d :: r

namespace Leaves

variable {cs cs' m r : List Char}

/-- More text in front is left too. -/
theorem of_suffix (h : Leaves cs r) (hs : cs <:+ cs') : Leaves cs' r := by
  obtain ⟨w, d, hd, rfl⟩ := h
  obtain ⟨v, rfl⟩ := hs
  exact ⟨v ++ w, d, hd, by rw [List.append_assoc]⟩

theorem suffix (h : Leaves cs r) : r <:+ cs := by
  obtain ⟨w, d, -, rfl⟩ := h
  exact ⟨w ++ [d], by simp⟩

/-- What is left of the rest is left of the text. -/
theorem trans (h : Leaves cs m) (h' : Leaves m r) : Leaves cs r := h'.of_suffix h.suffix

/-- Blanks in front are left with what is behind them. -/
theorem of_skip (h : Leaves (skip cs) r) : Leaves cs r := h.of_suffix (skip_suffix cs)

/-- The first character behind the blanks is left. -/
theorem of_skip_eq {d : Char} (h : skip cs = d :: r) : Leaves cs r :=
  of_skip ⟨[], d, isBlank_of_skip h, h⟩

theorem length_lt (h : Leaves cs r) : r.length < cs.length := by
  obtain ⟨w, d, -, rfl⟩ := h
  rw [List.length_append, List.length_cons]
  omega

/-- Even fewer characters are left behind the blanks. -/
theorem length_skip_lt (h : Leaves cs r) : (skip r).length < cs.length :=
  lt_of_le_of_lt (length_skip_le r) h.length_lt

end Leaves

end Text

namespace Parsing

open Text (skip)

/-! ### The languages of the tokens -/

/-- The language of identifiers. -/
def IsName (t : List Char) : Prop := t ≠ [] ∧ ∀ c ∈ t, isWord c = true

/-- The measure of names is that of their language. -/
theorem measures_name : Measures identifierLength? IsName := by
  refine measures_of (fun cs n h ↦ ?_) ?_
  · simp only [identifierLength?] at h
    split at h
    · cases h
    · rename_i hne
      cases h
      exact ⟨cs.takeWhile isWord, ⟨fun h₀ ↦ hne (congrArg List.length h₀),
        fun _ hc ↦ List.mem_takeWhile_imp hc⟩, List.takeWhile_prefix _, rfl⟩
  · rintro cs t ⟨hne, ht⟩ hp
    have hrun := length_le_runLength ht hp
    have hpos := List.length_pos_of_ne_nil hne
    exact ⟨_, if_neg (by omega), hrun⟩

/-- One of a few characters is measured. -/
theorem measures_oneOf (chars : String) :
    Measures (oneOfLength? chars) fun t ↦ ∃ c ∈ chars.toList, t = [c] := by
  refine measures_of (fun cs n h ↦ ?_) ?_
  · cases cs with
    | nil => cases h
    | cons c cs =>
        simp only [oneOfLength?] at h
        split at h
        · cases h
          exact ⟨[c], ⟨c, ‹_›, rfl⟩, ⟨cs, rfl⟩, rfl⟩
        · cases h
  · rintro _ _ ⟨c, hc, rfl⟩ ⟨cs, rfl⟩
    exact ⟨1, if_pos hc, le_rfl⟩

/-- A literal is measured where it is there. -/
theorem measures_literal (s : List Char) :
    Measures (fun cs ↦ if s.isPrefixOf cs then some s.length else none) (· = s) := by
  refine measures_of (fun cs n h ↦ ?_) ?_
  · simp only [List.isPrefixOf_iff_prefix] at h
    split at h
    · cases h
      exact ⟨s, rfl, ‹_›, rfl⟩
    · cases h
  · rintro cs _ rfl hp
    exact ⟨_, if_pos (List.isPrefixOf_iff_prefix.mpr hp), le_rfl⟩

namespace Parser

variable {ρ : Type} {V : ρ → Type} {call : (r : ρ) → Cursor → Outcome (V r)}
variable {α : Type} {a : α} {c c' m : Cursor} {cs r : List Char}

/-- Within the text, the parser takes the longest text of `L`, and fails where there is none. -/
structure Takes (call : (r : ρ) → Cursor → Outcome (V r)) (p : Parser V String)
    (L : List Char → Prop) : Prop where
  reads : ∀ {c cs t r}, c.rest = .chars cs → Longest L cs t r →
    ∃ c', Reads call p c c' (String.ofList t) ∧ c'.rest = .chars r
  rejects : ∀ {c cs}, c.rest = .chars cs → (∀ t r, ¬ Longest L cs t r) → Rejects call p c

section Tokens

variable {p : Parser V String} {L : List Char → Prop}

/-- A token takes the longest text that its size function measures. -/
theorem takes_token {name : String} {size : List Char → Option Nat} (hm : Measures size L) :
    Takes call (token name size) L where
  reads {c cs t r} hc h := by
    have hsize := (hm cs t.length).mpr ⟨t, r, h, rfl⟩
    have happ := h.append
    refine ⟨_, reads_token.mpr ⟨cs, _, hc, hsize, rfl, ?_⟩, ?_⟩
    · rw [happ, List.take_left]
    · rw [happ, List.drop_left]
  rejects {c cs} hc h := by
    refine (rejects_token hc).mpr ?_
    cases hsize : size cs with
    | none => rfl
    | some n =>
        obtain ⟨t, r, ht, -⟩ := (hm cs n).mp hsize
        exact absurd ht (h t r)

/-- A label makes no difference to what is taken. -/
theorem Takes.label {name : String} (hp : Takes call p L) : Takes call (p.label name) L where
  reads hc h := by
    obtain ⟨c', hread, hc'⟩ := hp.reads hc h
    exact ⟨c', reads_label.mpr hread, hc'⟩
  rejects hc h := rejects_label.mpr (hp.rejects hc h)

/-- What is read is the longest text of the language. -/
theorem Takes.longest (hp : Takes call p L) {s : String} (hc : c.rest = .chars cs)
    (h : Reads call p c c' s) :
    ∃ t r, Longest L cs t r ∧ s = String.ofList t ∧ c'.rest = .chars r := by
  by_cases hex : ∃ t r, Longest L cs t r
  · obtain ⟨t, r, ht⟩ := hex
    obtain ⟨d, hd, hr⟩ := hp.reads hc ht
    obtain ⟨rfl, rfl⟩ := h.unique hd
    exact ⟨t, r, ht, rfl, hr⟩
  · exact absurd (hp.rejects hc fun t r ht ↦ hex ⟨t, r, ht⟩) h.not_rejects

end Tokens

/-! ### Lexemes -/

variable (call) in
/-- Blanks are read everywhere in a text, as far as they go. -/
theorem exists_reads_blanks (hc : c.rest = .chars cs) :
    ∃ c', Reads call (blanks : Parser V Unit) c c' () ∧ c'.rest = .chars (skip cs) := by
  refine ⟨_, reads_map.mpr ⟨_, reads_token.mpr ⟨cs, _, hc, rfl, rfl, rfl⟩, rfl⟩, ?_⟩
  exact congrArg Remainder.chars drop_runLength

/-- Behind the blanks there is none. -/
theorem Reads.blanks {u : Unit} (hc : c.rest = .chars cs)
    (h : Reads call (blanks : Parser V Unit) c c' u) : c'.rest = .chars (skip cs) := by
  obtain ⟨d, hd, hrest⟩ := exists_reads_blanks call hc
  obtain ⟨rfl, -⟩ := h.unique hd
  exact hrest

section Lexemes

variable {p : Parser V α}

/-- A token is read with the blanks behind it. -/
theorem Reads.lexeme (h : Reads call p.lexeme c c' a) :
    ∃ m, Reads call p c m a ∧ ∀ r, m.rest = .chars r → c'.rest = .chars (skip r) := by
  obtain ⟨m, _, hp, hblanks⟩ := reads_first.mp h
  exact ⟨m, hp, fun r hm ↦ hblanks.blanks hm⟩

/-- The blanks behind a token are always read. -/
theorem reads_lexeme (h : Reads call p c m a) (hm : m.rest = .chars r) :
    ∃ c', Reads call p.lexeme c c' a ∧ c'.rest = .chars (skip r) := by
  obtain ⟨c', hblanks, hc'⟩ := exists_reads_blanks call hm
  exact ⟨c', reads_first.mpr ⟨m, (), h, hblanks⟩, hc'⟩

end Lexemes

/-! A token of which only what `f` knows is read. -/

section Readings

variable {p : Parser V String} {L : List Char → Prop} {what : String} {f : String → Option α}
  (hp : Takes call p L) (hc : c.rest = .chars cs)
include hp hc

/-- A name that is read is a longest one, and it is known. -/
theorem Takes.known (h : Reads call ((p.filterMap f).label what).lexeme c c' a) :
    ∃ t r, Longest L cs t r ∧ f (String.ofList t) = some a ∧ c'.rest = .chars (skip r) := by
  obtain ⟨m, hread, hskip⟩ := h.lexeme
  obtain ⟨s, htoken, hf⟩ := reads_filterMap.mp (reads_label.mp hread)
  obtain ⟨t, r, ht, rfl, hr⟩ := hp.longest hc htoken
  exact ⟨t, r, ht, hf, hskip r hr⟩

/-- A longest name that is known is read. -/
theorem Takes.reads_known {t : List Char} (ht : Longest L cs t r)
    (hf : f (String.ofList t) = some a) :
    ∃ c', Reads call ((p.filterMap f).label what).lexeme c c' a ∧ c'.rest = .chars (skip r) := by
  obtain ⟨m, htoken, hr⟩ := hp.reads hc ht
  exact reads_lexeme (reads_label.mpr (reads_filterMap.mpr ⟨_, htoken, hf⟩)) hr

/-- A name is rejected if no longest one is known. -/
theorem Takes.rejects_unknown (h : ∀ t r, Longest L cs t r → f (String.ofList t) = none) :
    Rejects call ((p.filterMap f).label what).lexeme c := by
  refine rejects_first_of_left (rejects_label.mpr (rejects_filterMap.mpr ?_))
  by_cases hex : ∃ t r, Longest L cs t r
  · obtain ⟨t, r, ht⟩ := hex
    obtain ⟨m, htoken, -⟩ := hp.reads hc ht
    exact .inr ⟨m, _, htoken, h t r ht⟩
  · exact .inl (hp.rejects hc fun t r ht ↦ hex ⟨t, r, ht⟩)

end Readings

section Symbols

variable {s : String}

/-- A symbol that is read is there, and the blanks behind it are skipped. -/
theorem Reads.symbol {v : String} (hc : c.rest = .chars cs)
    (h : Reads call (symbol s : Parser V String) c c' v) :
    ∃ r, cs = s.toList ++ r ∧ c'.rest = .chars (skip r) := by
  obtain ⟨m, htoken, hskip⟩ := h.lexeme
  obtain ⟨_, r, ⟨happ, rfl, -⟩, -, hr⟩ :=
    (takes_token (measures_literal s.toList)).longest hc htoken
  exact ⟨r, happ, hskip r hr⟩

/-- A symbol that is there is read. -/
theorem reads_symbol (hc : c.rest = .chars (s.toList ++ r)) :
    ∃ c' v, Reads call (symbol s : Parser V String) c c' v ∧ c'.rest = .chars (skip r) := by
  have ht : Longest (· = s.toList) (s.toList ++ r) s.toList r := ⟨rfl, rfl, fun _ h _ ↦ h ▸ le_rfl⟩
  obtain ⟨m, htoken, hr⟩ := (takes_token (measures_literal s.toList)).reads hc ht
  obtain ⟨c', hread, hc'⟩ := reads_lexeme htoken hr
  exact ⟨c', _, hread, hc'⟩

/-- A symbol that is not there is rejected. -/
theorem rejects_symbol (hc : c.rest = .chars cs) (h : ¬ s.toList <+: cs) :
    Rejects call (symbol s : Parser V String) c := by
  refine rejects_first_of_left ((takes_token (measures_literal s.toList)).rejects hc ?_)
  rintro t rest ⟨rfl, rfl, -⟩
  exact h (List.prefix_append _ _)

end Symbols

section Numbers

/-- The value that is read is that of the longest number. -/
theorem Reads.number {x : Binary64} (hc : c.rest = .chars cs)
    (h : Reads call (number : Parser V Binary64).lexeme c c' x) :
    ∃ (n : Numeral) (r : List Char),
      Longest IsNumeral cs n.text r ∧ x = n.value ∧ c'.rest = .chars (skip r) := by
  obtain ⟨t, r, ht, hx, hc'⟩ := (takes_token measures_numeral).known hc h
  obtain ⟨n, rfl⟩ := ht.mem
  rw [String.toList_ofList, readNumber?_text] at hx
  exact ⟨n, r, ht, (Option.some.inj hx).symm, hc'⟩

/-- The longest number is read. -/
theorem reads_number {n : Numeral} (hc : c.rest = .chars cs)
    (hn : Longest IsNumeral cs n.text r) :
    ∃ c', Reads call (number : Parser V Binary64).lexeme c c' n.value ∧
      c'.rest = .chars (skip r) := by
  refine (takes_token measures_numeral).reads_known hc hn ?_
  rw [String.toList_ofList, readNumber?_text]
  rfl

/-- What begins with no number is rejected. -/
theorem rejects_number (hc : c.rest = .chars cs) (h : ∀ t r, ¬ Longest IsNumeral cs t r) :
    Rejects call (number : Parser V Binary64).lexeme c :=
  (takes_token measures_numeral).rejects_unknown hc fun t r ht ↦ absurd ht (h t r)

end Numbers

end Parser

end Parsing

end ZPlane
