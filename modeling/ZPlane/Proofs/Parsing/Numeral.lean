import Mathlib
import ZPlane.Parsing.Lexeme

/-!
# The longest number that a text begins with

A token is the longest text of a language that the remaining text begins with (`Longest`).  The
language of numbers is that of `Numeral`, which is written down without the lexer: `numberLength?`
measures it (`measures_numeral`), and `readNumber?` gives what a number denotes.
-/

namespace ZPlane

namespace Parsing

/-! ### Longest texts of a language -/

/-- `token` is the longest text of `L` that `cs` begins with, and `rest` comes after it. -/
structure Longest (L : List Char → Prop) (cs token rest : List Char) : Prop where
  append : cs = token ++ rest
  mem : L token
  longest : ∀ t, L t → t <+: cs → t.length ≤ token.length

/-- What a size function says is the length of the longest text of `L`. -/
def Measures (size : List Char → Option Nat) (L : List Char → Prop) : Prop :=
  ∀ cs n, size cs = some n ↔ ∃ token rest, Longest L cs token rest ∧ token.length = n

/-- It suffices that what is taken is a text of `L`, and that no text of `L` is longer. -/
theorem measures_of {size : List Char → Option Nat} {L : List Char → Prop}
    (hmem : ∀ cs n, size cs = some n → ∃ t, L t ∧ t <+: cs ∧ t.length = n)
    (hmax : ∀ cs t, L t → t <+: cs → ∃ n, size cs = some n ∧ t.length ≤ n) : Measures size L := by
  intro cs n
  constructor
  · intro h
    obtain ⟨token, htoken, ⟨rest, hrest⟩, hn⟩ := hmem cs n h
    refine ⟨token, rest, ⟨hrest.symm, htoken, fun t ht hp ↦ ?_⟩, hn⟩
    obtain ⟨k, hk, hle⟩ := hmax cs t ht hp
    rw [h, Option.some.injEq] at hk
    omega
  · rintro ⟨token, rest, ⟨rfl, htoken, hlongest⟩, rfl⟩
    obtain ⟨k, hk, hle⟩ := hmax _ token htoken (List.prefix_append token rest)
    obtain ⟨t, ht, hp, hlen⟩ := hmem _ k hk
    have := hlongest t ht hp
    rw [hk, Option.some.injEq]
    omega

namespace Longest

variable {L : List Char → Prop} {cs token rest : List Char}

/-- Text beyond the token may be cut off. -/
theorem exists_cut {s : List Char} (h : Longest L cs token (rest ++ s)) :
    ∃ cs', cs = cs' ++ s ∧ Longest L cs' token rest := by
  obtain ⟨rfl, hmem, hlongest⟩ := h
  rw [← List.append_assoc] at hlongest ⊢
  exact ⟨token ++ rest, rfl, rfl, hmem, fun t ht hp ↦
    hlongest t ht (hp.trans (List.prefix_append _ _))⟩

/-- A text begins with at most one longest token. -/
theorem unique {token' rest' : List Char} (h : Longest L cs token rest)
    (h' : Longest L cs token' rest') : token = token' ∧ rest = rest' := by
  have hlen : token.length = token'.length := le_antisymm
    (h'.longest token h.mem ⟨rest, h.append.symm⟩) (h.longest token' h'.mem ⟨rest', h'.append.symm⟩)
  exact List.append_inj (h.append.symm.trans h'.append) hlen

end Longest

/-! ### Runs of characters -/

section Runs

variable {p : Char → Bool} {cs token : List Char}

/-- Characters of the class at the beginning are part of the run. -/
theorem length_le_runLength (ht : ∀ c ∈ token, p c = true) (hp : token <+: cs) :
    token.length ≤ runLength p cs := by
  induction token generalizing cs with
  | nil => exact Nat.zero_le _
  | cons c token ih =>
      obtain ⟨rest, rfl⟩ := hp
      have hc := ht c List.mem_cons_self
      have hrun := ih (fun d hd ↦ ht d (List.mem_cons_of_mem c hd)) (List.prefix_append token rest)
      rw [List.cons_append, runLength, List.takeWhile_cons_of_pos hc]
      exact Nat.succ_le_succ hrun

/-- Characters of a run with another character after them are the whole run. -/
theorem length_eq_runLength (ht : ∀ c ∈ token, p c = true) {d : Char} (hd : p d = false)
    (hp : token ++ [d] <+: cs) : token.length = runLength p cs := by
  obtain ⟨rest, rfl⟩ := hp
  simp [runLength, List.takeWhile_append_of_pos ht, hd]

/-- A run is left behind by dropping what is of the class. -/
theorem drop_runLength : cs.drop (runLength p cs) = cs.dropWhile p := by
  have h : (cs.takeWhile p ++ cs.dropWhile p).drop (runLength p cs) = cs.dropWhile p :=
    List.drop_left
  rwa [List.takeWhile_append_dropWhile] at h

end Runs

/-! ### Numbers -/

/-- The exponent of a number: a letter, a sign where there is one, and digits. -/
structure Exponent where
  sign : List Char
  digits : List Char
  sign_mem : sign ∈ [[], ['+'], ['-']]
  digits_isDigit : ∀ c ∈ digits, c.isDigit = true
  digits_ne_nil : digits ≠ []

namespace Exponent

def text (e : Exponent) : List Char := 'e' :: (e.sign ++ e.digits)

def value (e : Exponent) : Int :=
  if e.sign = ['-'] then -(ofDigits e.digits : Int) else ofDigits e.digits

end Exponent

/-- The written form of a number: digits, a point with digits or none after it, an exponent. -/
structure Numeral where
  whole : List Char
  fraction : Option (List Char)
  exponent : Option Exponent
  whole_isDigit : ∀ c ∈ whole, c.isDigit = true
  whole_ne_nil : whole ≠ []
  fraction_isDigit : ∀ ds ∈ fraction, ∀ c ∈ ds, c.isDigit = true

namespace Numeral

def fractionText (n : Numeral) : List Char := n.fraction.elim [] ('.' :: ·)

def exponentText (n : Numeral) : List Char := n.exponent.elim [] Exponent.text

def text (n : Numeral) : List Char := n.whole ++ (n.fractionText ++ n.exponentText)

def decimal (n : Numeral) : Decimal :=
  .ofParts false n.whole (n.fraction.getD []) (n.exponent.elim 0 Exponent.value)

/-- The nearest binary64. -/
def value (n : Numeral) : Binary64 := n.decimal.toBinary64

end Numeral

/-- The language of numbers. -/
def IsNumeral (t : List Char) : Prop := ∃ n : Numeral, n.text = t

section Numbers

variable {cs : List Char}

theorem signLength_cons_of_not {c : Char} (hc : ¬ (c = '+' ∨ c = '-')) :
    signLength (c :: cs) = 0 := by
  unfold signLength
  split
  · rename_i heq
    exact absurd (.inl (List.cons.inj heq).1) hc
  · rename_i heq
    exact absurd (.inr (List.cons.inj heq).1) hc
  · rfl

/-- A digit is no sign. -/
theorem signLength_of_digit {c : Char} (hc : c.isDigit = true) : signLength (c :: cs) = 0 := by
  refine signLength_cons_of_not ?_
  rintro (rfl | rfl) <;> exact absurd hc (by decide)

/-- A sign is one character, or it is missing. -/
theorem take_signLength (cs : List Char) :
    cs.take (signLength cs) ∈ [[], ['+'], ['-']] ∧
      (cs.take (signLength cs)).length = signLength cs := by
  unfold signLength
  split <;> simp

/-- An exponent is taken whole, and with all digits that follow. -/
theorem Exponent.length_le_exponentLength (e : Exponent) (h : e.text <+: cs) :
    e.text.length ≤ exponentLength cs := by
  obtain ⟨rest, rfl⟩ := h
  obtain ⟨sign, digits, hs, hd, hne⟩ := e
  have hrun : digits.length ≤ runLength Char.isDigit (digits ++ rest) :=
    length_le_runLength hd (List.prefix_append _ _)
  have hpos := List.length_pos_of_ne_nil hne
  have hsign : signLength (sign ++ (digits ++ rest)) = sign.length := by
    simp only [List.mem_cons, List.not_mem_nil, or_false] at hs
    rcases hs with rfl | rfl | rfl
    · obtain ⟨d, ds, rfl⟩ := List.exists_cons_of_ne_nil hne
      exact signLength_of_digit (hd d List.mem_cons_self)
    · rfl
    · rfl
  simp only [text, List.cons_append, List.append_assoc, exponentLength, hsign, List.drop_left]
  rw [if_neg (by omega), List.length_cons, List.length_append]
  omega

/-- What is measured as an exponent is one, or nothing. -/
theorem exists_exponent (cs : List Char) :
    ∃ e : Option Exponent, e.elim [] Exponent.text <+: cs ∧
      (e.elim [] Exponent.text).length = exponentLength cs := by
  unfold exponentLength
  split
  · rename_i r
    obtain ⟨hmem, hlen⟩ := take_signLength r
    by_cases hrun : runLength Char.isDigit (r.drop (signLength r)) = 0
    · exact ⟨none, List.nil_prefix, (if_pos hrun).symm⟩
    · refine ⟨some ⟨r.take (signLength r), (r.drop (signLength r)).takeWhile Char.isDigit, hmem,
        fun _ hc ↦ List.mem_takeWhile_imp hc, fun h₀ ↦ hrun (congrArg List.length h₀)⟩, ?_, ?_⟩
      · conv_rhs => rw [← List.take_append_drop (signLength r) r]
        rw [Option.elim, Exponent.text, List.prefix_cons_inj, List.prefix_append_right_inj]
        exact List.takeWhile_prefix _
      · simp only [Option.elim, Exponent.text, List.length_cons, List.length_append, hlen,
          if_neg hrun]
        simp only [runLength]
        omega
  · exact ⟨none, List.nil_prefix, rfl⟩

/-- What is measured as a fraction is one, or nothing. -/
theorem exists_fraction (cs : List Char) :
    ∃ f : Option (List Char), (∀ ds ∈ f, ∀ c ∈ ds, c.isDigit = true) ∧
      f.elim [] ('.' :: ·) <+: cs ∧ (f.elim [] ('.' :: ·)).length = fractionLength cs := by
  unfold fractionLength
  split
  · rename_i r
    refine ⟨some (r.takeWhile Char.isDigit), ?_, ?_, ?_⟩
    · rintro _ ⟨⟩ c hc
      exact List.mem_takeWhile_imp hc
    · exact List.prefix_cons_inj _ |>.mpr (List.takeWhile_prefix _)
    · simp only [Option.elim, List.length_cons, runLength]
      omega
  · exact ⟨none, by simp, List.nil_prefix, rfl⟩

/-- Prefixes of a text and of its rest make a prefix together. -/
theorem append_prefix_of_drop {as bs : List Char} (ha : as <+: cs) (hb : bs <+: cs.drop as.length) :
    as ++ bs <+: cs := by
  obtain ⟨rest, rfl⟩ := ha
  rw [List.drop_left] at hb
  exact (List.prefix_append_right_inj as).mpr hb

namespace Numeral

variable (n : Numeral)

/-- The exponent of a number is missing or written out. -/
theorem exponentText_eq_nil_or : n.exponentText = [] ∨ ∃ e : Exponent, n.exponentText = e.text := by
  cases h : n.exponent with
  | none => exact .inl (by rw [exponentText, h]; rfl)
  | some e => exact .inr ⟨e, by rw [exponentText, h]; rfl⟩

/-- The fraction of a number is missing or a point with digits. -/
theorem fractionText_eq_nil_or : n.fractionText = [] ∨
    ∃ ds, n.fractionText = '.' :: ds ∧ ∀ c ∈ ds, c.isDigit = true := by
  cases h : n.fraction with
  | none => exact .inl (by rw [fractionText, h]; rfl)
  | some ds => exact .inr ⟨ds, by rw [fractionText, h]; rfl, n.fraction_isDigit ds h⟩

/-- An exponent that the text begins with is measured in full. -/
theorem length_exponentText_le (h : n.exponentText <+: cs) :
    n.exponentText.length ≤ exponentLength cs := by
  rcases n.exponentText_eq_nil_or with h₀ | ⟨e, he⟩
  · simp [h₀]
  · rw [he] at h ⊢
    exact e.length_le_exponentLength h

/-- The fraction and the exponent are within those taken. -/
theorem length_tail_le (h : n.fractionText ++ n.exponentText <+: cs) :
    n.fractionText.length + n.exponentText.length ≤
      fractionLength cs + exponentLength (cs.drop (fractionLength cs)) := by
  rcases n.fractionText_eq_nil_or with hnil | ⟨ds, hcons, hds⟩
  · rw [hnil, List.nil_append] at h
    rw [hnil, List.length_nil, Nat.zero_add]
    rcases n.exponentText_eq_nil_or with h₀ | ⟨e, he⟩
    · simp [h₀]
    · have hzero : fractionLength cs = 0 := by
        obtain ⟨rest, rfl⟩ := h
        rw [he]
        rfl
      rw [hzero, List.drop_zero, Nat.zero_add]
      exact n.length_exponentText_le h
  · rw [hcons] at h ⊢
    obtain ⟨rest, rfl⟩ := h
    simp only [List.cons_append, fractionLength, List.append_assoc, List.length_cons]
    rcases n.exponentText_eq_nil_or with h₀ | ⟨e, he⟩
    · have hrun : ds.length ≤ runLength Char.isDigit (ds ++ (n.exponentText ++ rest)) :=
        length_le_runLength hds (List.prefix_append _ _)
      rw [h₀, List.length_nil] at *
      omega
    · have hrun : ds.length = runLength Char.isDigit (ds ++ (n.exponentText ++ rest)) := by
        refine length_eq_runLength (d := 'e') hds rfl ?_
        rw [he, Exponent.text]
        simp
      rw [← hrun, Nat.add_comm 1, List.drop_succ_cons, List.drop_left]
      have := n.length_exponentText_le (List.prefix_append n.exponentText rest)
      omega

/-- A fraction or an exponent does not begin with a digit. -/
theorem tail_eq_nil_or : n.fractionText ++ n.exponentText = [] ∨
    ∃ d ds, n.fractionText ++ n.exponentText = d :: ds ∧ d.isDigit = false := by
  rcases n.fractionText_eq_nil_or with hnil | ⟨ds, hcons, -⟩
  · rw [hnil, List.nil_append]
    rcases n.exponentText_eq_nil_or with h₀ | ⟨e, he⟩
    · exact .inl h₀
    · exact .inr ⟨'e', _, he, rfl⟩
  · exact .inr ⟨'.', _, by rw [hcons, List.cons_append], rfl⟩

/-- A number that the text begins with is measured, and in full. -/
theorem length_text_le (h : n.text <+: cs) :
    ∃ k, numberLength? cs = some k ∧ n.text.length ≤ k := by
  obtain ⟨rest, rfl⟩ := h
  rw [text, List.append_assoc]
  generalize hcs : n.whole ++ (n.fractionText ++ n.exponentText ++ rest) = cs
  have hpos := List.length_pos_of_ne_nil n.whole_ne_nil
  have hrun : n.whole.length ≤ runLength Char.isDigit cs :=
    length_le_runLength n.whole_isDigit ⟨_, hcs⟩
  rw [numberLength?, if_neg (by omega)]
  refine ⟨_, rfl, ?_⟩
  rw [List.length_append, List.length_append]
  rcases n.tail_eq_nil_or with h₀ | ⟨d, ds, hd, hdigit⟩
  · have := congrArg List.length h₀
    rw [List.length_append, List.length_nil] at this
    omega
  · have hexact : n.whole.length = runLength Char.isDigit cs :=
      length_eq_runLength n.whole_isDigit hdigit ⟨ds ++ rest, by rw [← hcs, hd]; simp⟩
    have hdrop : cs.drop (runLength Char.isDigit cs) =
        n.fractionText ++ n.exponentText ++ rest := by
      rw [← hexact, ← hcs, List.drop_left]
    have hp : n.fractionText ++ n.exponentText <+: cs.drop (runLength Char.isDigit cs) := by
      rw [hdrop]
      exact List.prefix_append _ _
    have htail := n.length_tail_le hp
    rw [List.drop_drop] at htail
    omega

end Numeral

/-- What is taken for a number is one. -/
theorem exists_numeral {k : Nat} (h : numberLength? cs = some k) :
    ∃ n : Numeral, n.text <+: cs ∧ n.text.length = k := by
  rw [numberLength?] at h
  split at h
  · cases h
  · rename_i hwhole
    cases h
    obtain ⟨f, hf, hfp, hfl⟩ := exists_fraction (cs.drop (runLength Char.isDigit cs))
    obtain ⟨e, hep, hel⟩ := exists_exponent (cs.drop (runLength Char.isDigit cs +
      fractionLength (cs.drop (runLength Char.isDigit cs))))
    refine ⟨⟨cs.takeWhile Char.isDigit, f, e, fun _ hc ↦ List.mem_takeWhile_imp hc,
      fun h₀ ↦ hwhole (congrArg List.length h₀), hf⟩, ?_, ?_⟩
    · refine append_prefix_of_drop (List.takeWhile_prefix _) (append_prefix_of_drop hfp ?_)
      rw [List.drop_drop]
      exact hfl ▸ hep
    · simp only [Numeral.text, Numeral.fractionText, Numeral.exponentText, List.length_append, hfl,
        hel]
      simp only [runLength]
      omega

/-- The measure of numbers is that of their language. -/
theorem measures_numeral : Measures numberLength? IsNumeral := by
  refine measures_of (fun cs k h ↦ ?_) ?_
  · obtain ⟨n, hn, hk⟩ := exists_numeral h
    exact ⟨n.text, ⟨n, rfl⟩, hn, hk⟩
  · rintro cs _ ⟨n, rfl⟩ hp
    exact n.length_text_le hp

/-- The exponent is read from its own text. -/
theorem readExponent?_text (e : Exponent) : readExponent? (e.sign ++ e.digits) = some e.value := by
  obtain ⟨sign, digits, hs, hd, hne⟩ := e
  have hall : (digits.isEmpty || !digits.all Char.isDigit) = false := by
    simp [hne, List.all_eq_true.mpr hd]
  simp only [List.mem_cons, List.not_mem_nil, or_false] at hs
  rcases hs with rfl | rfl | rfl
  · obtain ⟨d, ds, rfl⟩ := List.exists_cons_of_ne_nil hne
    have hdigit := hd d List.mem_cons_self
    have hplus : d ≠ '+' := fun h ↦ absurd (h ▸ hdigit) (by decide)
    have hminus : d ≠ '-' := fun h ↦ absurd (h ▸ hdigit) (by decide)
    simpa [readExponent?, hplus, hminus, hdigit, Exponent.value] using
      fun c hc ↦ hd c (List.mem_cons_of_mem d hc)
  · simp [readExponent?, hall, Exponent.value]
  · simp [readExponent?, hall, Exponent.value]

/-- Digits are split off in front of what is no digit. -/
theorem span_digits {ds tail : List Char} (hd : ∀ c ∈ ds, c.isDigit = true)
    (ht : ∀ d ∈ tail.head?, d.isDigit = false) :
    (ds ++ tail).takeWhile Char.isDigit = ds ∧ (ds ++ tail).dropWhile Char.isDigit = tail := by
  rw [List.takeWhile_append_of_pos hd, List.dropWhile_append_of_pos hd]
  cases tail with
  | nil => simp
  | cons d tail => simp [ht d rfl]

/-- What is read from a number is the decimal that it denotes. -/
theorem readNumber?_text (n : Numeral) : readNumber? n.text = some n.decimal := by
  obtain ⟨whole, fraction, exponent, hw, hne, hf⟩ := n
  have hwhole (tail : List Char) (ht : ∀ d ∈ tail.head?, d.isDigit = false) := span_digits hw ht
  cases fraction with
  | none =>
      cases exponent with
      | none =>
          obtain ⟨h₁, h₂⟩ := hwhole [] (by simp)
          simp only [Numeral.text, Numeral.fractionText, Numeral.exponentText, Option.elim,
            List.append_nil] at h₁ h₂ ⊢
          simp [readNumber?, h₁, h₂, hne, Numeral.decimal]
      | some e =>
          obtain ⟨h₁, h₂⟩ := hwhole ('e' :: (e.sign ++ e.digits)) (by simp)
          simp only [Numeral.text, Numeral.fractionText, Numeral.exponentText, Option.elim,
            List.nil_append, Exponent.text, readNumber?, h₁, h₂]
          simp [hne, readExponent?_text, Numeral.decimal]
  | some ds =>
      have hdigits (tail : List Char) (ht : ∀ d ∈ tail.head?, d.isDigit = false) :=
        span_digits (hf ds rfl) ht
      cases exponent with
      | none =>
          obtain ⟨h₁, h₂⟩ := hwhole ('.' :: ds) (by simp)
          obtain ⟨h₃, h₄⟩ := hdigits [] (by simp)
          simp only [Numeral.text, Numeral.fractionText, Numeral.exponentText, Option.elim,
            List.append_nil] at h₃ h₄ ⊢
          simp [readNumber?, h₁, h₂, h₃, h₄, hne, Numeral.decimal]
      | some e =>
          obtain ⟨h₁, h₂⟩ := hwhole ('.' :: (ds ++ 'e' :: (e.sign ++ e.digits))) (by simp)
          obtain ⟨h₃, h₄⟩ := hdigits ('e' :: (e.sign ++ e.digits)) (by simp)
          simp only [Numeral.text, Numeral.fractionText, Numeral.exponentText, Option.elim,
            List.cons_append, Exponent.text, readNumber?, h₁, h₂, h₃, h₄]
          simp [hne, readExponent?_text, Numeral.decimal]

end Numbers

end Parsing

end ZPlane
