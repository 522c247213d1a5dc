import Mathlib
import ZPlane.Proofs.Parsing.Boundary
import ZPlane.Proofs.Parsing.Pattern
import ZPlane.Proofs.Parsing.Slice

/-!
# The parser of numbers

The parser of numbers succeeds where a digit stands, and takes the longest number there.  A point
behind the digits is part of it, and the letter of an exponent is not unless a digit follows, behind
a sign or without one.  Its token is what the pattern of numbers matches, of which a decimal is
always read.
-/

namespace ZPlane

namespace Parsing

open Text (byteLength)

section Longest

variable {r rest : List Char} {n : Numeral}

/-- A text begins with a number just if it begins with a digit. -/
theorem exists_longest_iff :
    (∃ t rest, Longest IsNumeral r t rest) ↔ ∃ d ∈ r.head?, d.isDigit = true := by
  constructor
  · rintro ⟨_, rest, happ, ⟨n, rfl⟩, -⟩
    obtain ⟨c, t, hc, hdigit⟩ := n.exists_first
    exact ⟨c, by rw [happ, hc]; rfl, hdigit⟩
  · rintro ⟨d, hd, hdigit⟩
    obtain ⟨ds, rfl⟩ := List.head?_eq_some_iff.mp hd
    let n : Numeral := ⟨[d], none, none, by simpa using hdigit, by simp, by simp⟩
    have hprefix : n.text <+: d :: ds := ⟨ds, rfl⟩
    obtain ⟨k, hk, -⟩ := n.length_text_le hprefix
    obtain ⟨t, rest, h, -⟩ := (measures_numeral _ k).mp hk
    exact ⟨t, rest, h⟩

/-- A point behind the digits is taken, with or without digits behind it. -/
theorem point_prefix (h : Longest IsNumeral r n.text rest) {ds s : List Char} (hne : ds ≠ [])
    (hds : ∀ d ∈ ds, d.isDigit = true) (hr : r = ds ++ '.' :: s) : ds ++ ['.'] <+: n.text := by
  let m : Numeral := ⟨ds, some [], none, hds, hne, by simp⟩
  have hm : m.text = ds ++ ['.'] := rfl
  have hprefix : m.text <+: r := ⟨s, by rw [hm, hr, List.append_assoc]; rfl⟩
  have hlength := h.longest m.text ⟨m, rfl⟩ hprefix
  exact hm ▸ List.prefix_of_prefix_length_le hprefix ⟨rest, h.append.symm⟩ hlength

/-- The letter begins the exponent, if there is one. -/
theorem exists_exponent_of_mem {u v : List Char} (h : n.text = u ++ 'e' :: v) :
    ∃ e : Exponent, v = e.sign ++ e.digits := by
  have hmantissa : 'e' ∉ n.whole ++ n.fractionText := fun he ↦ by
    rcases n.mem_mantissa he with he | he <;> exact absurd he (by decide)
  rw [Numeral.text, ← List.append_assoc] at h
  rcases n.exponentText_eq_nil_or with hnil | ⟨e, he⟩
  · rw [hnil, List.append_nil] at h
    exact absurd (h ▸ by simp) hmantissa
  · have hbehind : 'e' ∉ e.sign ++ e.digits := by
      have hsign := e.sign_mem
      simp only [List.mem_cons, List.not_mem_nil, or_false] at hsign
      rw [List.mem_append, not_or]
      refine ⟨?_, fun hd ↦ absurd (e.digits_isDigit _ hd) (by decide)⟩
      rcases hsign with hsign | hsign | hsign <;> rw [hsign] <;> decide
    rw [he, Exponent.text] at h
    obtain ⟨-, -, hv⟩ := (List.append_cons_inj_of_notMem hmantissa hbehind).mp h
    exact ⟨e, hv.symm⟩

/-- Behind a number, the letter of an exponent is left where no digit follows, nor a sign and a
digit. -/
theorem letter_left (h : Longest IsNumeral r n.text rest) {m : Numeral} {s : List Char}
    (hr : r = m.text ++ 'e' :: s)
    (hs : ∀ sign ∈ [[], ['+'], ['-']], ∀ d : Char, sign ++ [d] <+: s → d.isDigit = false) :
    n.text = m.text ∧ rest = 'e' :: s := by
  have hprefix : m.text <+: n.text := List.prefix_of_prefix_length_le ⟨_, hr.symm⟩
    ⟨rest, h.append.symm⟩ (h.longest m.text ⟨m, rfl⟩ ⟨_, hr.symm⟩)
  obtain ⟨v, hv⟩ := hprefix
  have hrest : v ++ rest = 'e' :: s := by
    have happ := h.append
    rw [hr, ← hv, List.append_assoc] at happ
    exact (List.append_cancel_left happ).symm
  cases v with
  | nil => exact ⟨by rw [← hv, List.append_nil], hrest⟩
  | cons c v =>
      obtain ⟨rfl, hs'⟩ := List.cons.inj hrest
      obtain ⟨e, rfl⟩ := exists_exponent_of_mem hv.symm
      obtain ⟨d, ds, hd⟩ := List.exists_cons_of_ne_nil e.digits_ne_nil
      have hfalse := hs e.sign e.sign_mem d ⟨ds ++ rest, by rw [← hs', hd]; simp⟩
      have htrue := e.digits_isDigit d (hd ▸ List.mem_cons_self)
      exact absurd htrue (by simp [hfalse])

end Longest

namespace Parser

variable {ρ : Type} {V : ρ → Type} {call : (r : ρ) → Cursor → Outcome (V r)}

/-- What the pattern of numbers matches. -/
def numberToken : Parser V String := pattern Pattern.numberText Pattern.number.matchLength?

/-- The parser of numbers is that of the pattern, with what is matched converted. -/
theorem number_eq : (number : Parser V Binary64) = (numberToken.filterMap fun s ↦
    (readNumber? s.toList).map Decimal.toBinary64).label "number" := by
  rw [numberToken, funext Pattern.matchLength?_number]
  rfl

/-- The pattern takes the longest number. -/
theorem takes_numberToken : Takes call (numberToken : Parser V String) IsNumeral := by
  rw [numberToken, funext Pattern.matchLength?_number]
  exact takes_token measures_numeral

/-- Of what the pattern matches, at any place of any text, a decimal is read. -/
theorem exists_readNumber? {c c' : Cursor} {s : String}
    (h : Reads call (numberToken : Parser V String) c c' s) :
    ∃ n : Numeral, s = String.ofList n.text ∧ readNumber? s.toList = some n.decimal := by
  obtain ⟨cs, _, hc, -⟩ := reads_token.mp h
  obtain ⟨_, rest, ⟨-, ⟨n, rfl⟩, -⟩, rfl, -⟩ := takes_numberToken.longest hc h
  exact ⟨n, rfl, by rw [String.toList_ofList, readNumber?_text]⟩

variable {w r rest : List Char} {c' : Cursor} {x : Binary64}

/-- What is taken is the text of the number, and the place behind it is reached. -/
theorem reads_numberToken {n : Numeral} (h : Longest IsNumeral r n.text rest) :
    Reads call (numberToken : Parser V String) (.ofText (w ++ r) (byteLength w))
      (.ofText (w ++ r) (byteLength (w ++ n.text))) (String.ofList n.text) := by
  have hsize : Pattern.number.matchLength? r = some n.text.length := by
    rw [Pattern.matchLength?_number]
    exact (measures_numeral r _).mpr ⟨n.text, rest, h, rfl⟩
  refine reads_token.mpr ⟨r, n.text.length, after_byteLength w r, hsize, ?_, ?_⟩
  · rw [h.append, List.take_left, List.drop_left, ← List.append_assoc, Cursor.ofText,
      Cursor.ofText, after_byteLength, Text.byteLength_append]
  · rw [h.append, List.take_left]

/-- The longest number is taken, with its value. -/
theorem reads_number_of_longest {n : Numeral} (h : Longest IsNumeral r n.text rest) :
    Reads call (number : Parser V Binary64) (.ofText (w ++ r) (byteLength w))
      (.ofText (w ++ r) (byteLength (w ++ n.text))) n.value := by
  rw [number_eq]
  refine reads_label.mpr (reads_filterMap.mpr ⟨_, reads_numberToken h, ?_⟩)
  rw [String.toList_ofList, readNumber?_text]
  rfl

/-- A value that is read is that of the longest number. -/
theorem exists_of_reads_number
    (h : Reads call (number : Parser V Binary64) (.ofText (w ++ r) (byteLength w)) c' x) :
    ∃ (n : Numeral) (rest : List Char), Longest IsNumeral r n.text rest ∧
      c' = .ofText (w ++ r) (byteLength (w ++ n.text)) ∧ x = n.value := by
  have hread := h
  rw [number_eq] at hread
  obtain ⟨s, htoken, -⟩ := reads_filterMap.mp (reads_label.mp hread)
  obtain ⟨_, rest, ht, -, -⟩ := takes_numberToken.longest (after_byteLength w r) htoken
  obtain ⟨n, rfl⟩ := ht.mem
  obtain ⟨hplace, hvalue⟩ := h.unique (reads_number_of_longest ht)
  exact ⟨n, rest, ht, hplace, hvalue⟩

/-- Where no digit stands, a number is expected. -/
theorem run_number_of_not_digit (h : ¬ ∃ d ∈ r.head?, d.isDigit = true) :
    (number : Parser V Binary64).run call (.ofText (w ++ r) (byteLength w)) =
      .failure (.expected (byteLength w) "number") := by
  have hsize : numberLength? r = none := by
    rw [← exists_longest_iff] at h
    rw [Option.eq_none_iff_forall_ne_some]
    intro k hk
    obtain ⟨t, rest, ht, -⟩ := (measures_numeral r k).mp hk
    exact h ⟨t, rest, ht⟩
  have hchars : (Cursor.ofText (w ++ r) (byteLength w)).chars? = some r := by
    rw [Cursor.chars?, Cursor.ofText, after_byteLength]
  rw [number, run_label, run_filterMap, pattern, run_token, takeToken, hchars]
  simp only [hsize]
  rfl

/-- At a character boundary with `r` behind it, a number is read exactly where a digit stands, and a
number is expected elsewhere.  The longest one is taken, with a point behind its digits and without
the letter of an exponent that has no digit.  Of what its pattern matches a decimal is always read,
so that no match is rejected. -/
theorem number_takes_longest (call : (r : ρ) → Cursor → Outcome (V r)) (w r : List Char) :
    (Pattern.ofText? Pattern.numberText = some Pattern.number ∧
      (number : Parser V Binary64) = (numberToken.filterMap fun s ↦
        (readNumber? s.toList).map Decimal.toBinary64).label "number") ∧
    ((∃ c' x, Reads call number (.ofText (w ++ r) (byteLength w)) c' x) ↔
      ∃ d ∈ r.head?, d.isDigit = true) ∧
    ((¬ ∃ d ∈ r.head?, d.isDigit = true) →
      (number : Parser V Binary64).run call (.ofText (w ++ r) (byteLength w)) =
        .failure (.expected (byteLength w) "number")) ∧
    (∀ c' x, Reads call number (.ofText (w ++ r) (byteLength w)) c' x →
      ∃ (n : Numeral) (rest : List Char), Longest IsNumeral r n.text rest ∧
      c' = .ofText (w ++ r) (byteLength (w ++ n.text)) ∧ x = n.value ∧
      (∀ ds s : List Char, ds ≠ [] → (∀ d ∈ ds, d.isDigit = true) → r = ds ++ '.' :: s →
        ds ++ ['.'] <+: n.text) ∧
      ∀ (m : Numeral) (s : List Char), r = m.text ++ 'e' :: s →
        (∀ sign ∈ [[], ['+'], ['-']], ∀ d : Char, sign ++ [d] <+: s → d.isDigit = false) →
        n.text = m.text ∧ rest = 'e' :: s) ∧
    ∀ p c' s h, (numberToken : Parser V String).run call p = .success c' s h →
      ∃ d, readNumber? s.toList = some d := by
  refine ⟨⟨Pattern.ofText?_number, number_eq⟩, ⟨?_, ?_⟩, run_number_of_not_digit, ?_, ?_⟩
  · rintro ⟨c', x, h⟩
    obtain ⟨n, rest, ht, -⟩ := exists_of_reads_number h
    exact exists_longest_iff.mp ⟨_, rest, ht⟩
  · intro hdigit
    obtain ⟨_, rest, ht⟩ := exists_longest_iff.mpr hdigit
    obtain ⟨n, rfl⟩ := ht.mem
    exact ⟨_, _, reads_number_of_longest ht⟩
  · intro c' x h
    obtain ⟨n, rest, ht, hplace, hvalue⟩ := exists_of_reads_number h
    exact ⟨n, rest, ht, hplace, hvalue, fun ds s ↦ point_prefix ht, fun m s ↦ letter_left ht⟩
  · intro p c' s h hrun
    obtain ⟨n, -, hread⟩ := exists_readNumber? ⟨h, hrun⟩
    exact ⟨_, hread⟩

end Parser

end Parsing

end ZPlane
