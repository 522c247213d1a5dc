import Mathlib
import ZPlane.Storage.Json
import ZPlane.Proofs.Number.Digits

/-!
# Numbers in JSON

A tidy numeral is read as the number that it denotes, if no number goes on behind it
(`readNumber?_text`).  Numbers are written as tidy numerals, so whole numbers are read back as
integers (`readNumber?_digits`) and finite binary64 numbers bit for bit (`readNumber?_writeReal`).
-/

namespace ZPlane

namespace Storage

namespace Json

open Parsing (Numeral Exponent span_digits)

/-- No number goes on with the text. -/
def EndsNumber (cs : List Char) : Prop :=
  ∀ c ∈ cs.head?, c.isDigit = false ∧ c ≠ '.' ∧ c ≠ 'e' ∧ c ≠ 'E'

/-! ### The parts of a numeral -/

section Parts

variable {n : Numeral} {tail : List Char}

/-- The digits of a tidy numeral are read up to the next character. -/
theorem readWhole?_whole (hn : n.IsTidy) (ht : ∀ c ∈ tail.head?, c.isDigit = false) :
    readWhole? (n.whole ++ tail) = some (n.whole, tail) := by
  obtain ⟨htake, hdrop⟩ := span_digits n.whole_isDigit ht
  rcases hn.whole with hzero | hhead
  · rw [hzero]
    rfl
  · unfold readWhole?
    split
    case h_1 cs hcs =>
      obtain ⟨c, ds, hwhole⟩ := List.exists_cons_of_ne_nil n.whole_ne_nil
      rw [hwhole, List.cons_append] at hcs
      exact absurd (List.cons.inj hcs).1 (hhead c (hwhole ▸ rfl))
    case h_2 => simp [htake, hdrop, n.whole_ne_nil]

/-- The digits behind the point are read, if there are any. -/
theorem readFraction?_fractionText (hn : n.IsTidy)
    (ht : ∀ c ∈ tail.head?, c.isDigit = false ∧ c ≠ '.') :
    readFraction? (n.fractionText ++ tail) = some (n.fraction.getD [], tail) := by
  rw [Numeral.fractionText]
  cases hfraction : n.fraction with
  | none =>
      unfold readFraction?
      split
      case h_1 cs hcs =>
        have htail : tail = '.' :: cs := hcs
        exact absurd rfl (ht '.' (htail ▸ rfl)).2
      case h_2 => rfl
  | some ds =>
      obtain ⟨htake, hdrop⟩ :=
        span_digits (n.fraction_isDigit ds hfraction) fun c hc ↦ (ht c hc).1
      have hne := hn.fraction ds hfraction
      simp [readFraction?, htake, hdrop, hne]

/-- The exponent is read, if there is one. -/
theorem readExponent?_exponentText (n : Numeral) (ht : EndsNumber tail) :
    readExponent? (n.exponentText ++ tail) = some (n.exponent.map Exponent.value, tail) := by
  rw [Numeral.exponentText]
  cases n.exponent with
  | none =>
      cases tail with
      | nil => rfl
      | cons c cs =>
          obtain ⟨-, -, hlower, hupper⟩ := ht c rfl
          simp [readExponent?, hlower, hupper]
  | some e =>
      obtain ⟨sign, digits, hsign, hd, hne⟩ := e
      obtain ⟨htake, hdrop⟩ := span_digits hd fun c hc ↦ (ht c hc).1
      simp only [List.mem_cons, List.not_mem_nil, or_false] at hsign
      rcases hsign with rfl | rfl | rfl
      · obtain ⟨d, ds, rfl⟩ := List.exists_cons_of_ne_nil hne
        have hdigit := hd d List.mem_cons_self
        have hminus : d ≠ '-' := fun h ↦ absurd (h ▸ hdigit) (by decide)
        have hplus : d ≠ '+' := fun h ↦ absurd (h ▸ hdigit) (by decide)
        rw [List.cons_append] at htake hdrop
        simp [readExponent?, Exponent.text, Exponent.value, hminus, hplus, htake, hdrop]
      · simp [readExponent?, Exponent.text, Exponent.value, htake, hdrop, hne]
      · simp [readExponent?, Exponent.text, Exponent.value, htake, hdrop, hne]

end Parts

/-! ### Numerals -/

/-- What a numeral with a sign stands for. -/
def numberOf (negative : Bool) (n : Numeral) : Datum :=
  if n.fraction.isNone ∧ n.exponent.isNone then ofWhole negative (ofDigits n.whole)
  else .real (Decimal.toBinary64 { n.decimal with negative := negative })

section Numerals

variable {n : Numeral} {rest : List Char}

/-- Neither a digit nor a point follows the fraction of a numeral. -/
theorem head?_exponentText (n : Numeral) (hrest : EndsNumber rest) :
    ∀ c ∈ (n.exponentText ++ rest).head?, c.isDigit = false ∧ c ≠ '.' := by
  rw [Numeral.exponentText]
  cases n.exponent with
  | none => exact fun c hc ↦ ⟨(hrest c hc).1, (hrest c hc).2.1⟩
  | some e =>
      rintro _ ⟨⟩
      decide

/-- No digit follows the whole part of a numeral. -/
theorem head?_fractionText (n : Numeral) (hrest : EndsNumber rest) :
    ∀ c ∈ (n.fractionText ++ (n.exponentText ++ rest)).head?, c.isDigit = false := by
  rw [Numeral.fractionText]
  cases n.fraction with
  | none => exact fun c hc ↦ (head?_exponentText n hrest c hc).1
  | some ds =>
      rintro _ ⟨⟩
      decide

/-- Behind a sign, the parts of a number are read one after another. -/
theorem readNumber?_sign (negative : Bool) {cs : List Char} (hcs : ∀ c ∈ cs.head?, c ≠ '-') :
    readNumber? ((if negative then ['-'] else []) ++ cs) = (do
      let (whole, cs) ← readWhole? cs
      let (fraction, cs) ← readFraction? cs
      let (exponent, cs) ← readExponent? cs
      some (finite (if fraction.isEmpty ∧ exponent.isNone then ofWhole negative (ofDigits whole)
        else .real (Decimal.ofParts negative whole fraction (exponent.getD 0)).toBinary64),
          cs)) := by
  cases negative with
  | true => rfl
  | false =>
      cases cs with
      | nil => rfl
      | cons c cs =>
          simp only [readNumber?, Bool.false_eq_true, if_false, List.nil_append]
          split
          case h_1 heq => exact absurd (List.cons.inj heq).1 (hcs c rfl)
          case h_2 => rfl

/-- A tidy numeral is read as what it stands for, unless that is infinite. -/
theorem readNumber?_text (negative : Bool) (hn : n.IsTidy) (hrest : EndsNumber rest) :
    readNumber? ((if negative then ['-'] else []) ++ (n.text ++ rest)) =
      some (finite (numberOf negative n), rest) := by
  have hhead : ∀ c ∈ (n.whole ++ (n.fractionText ++ (n.exponentText ++ rest))).head?, c ≠ '-' := by
    obtain ⟨d, ds, hwhole⟩ := List.exists_cons_of_ne_nil n.whole_ne_nil
    rw [hwhole]
    rintro _ ⟨⟩ rfl
    exact absurd (n.whole_isDigit '-' (hwhole ▸ List.mem_cons_self)) (by decide)
  have hempty : (n.fraction.getD []).isEmpty = n.fraction.isNone := by
    cases h : n.fraction with
    | none => rfl
    | some ds => simpa using hn.fraction ds h
  have hexponent : (n.exponent.map Exponent.value).getD 0 = n.exponent.elim 0 Exponent.value := by
    cases n.exponent with
    | none | some _ => rfl
  rw [Numeral.text, List.append_assoc, List.append_assoc, readNumber?_sign negative hhead,
    readWhole?_whole hn (head?_fractionText n hrest)]
  simp only [Option.bind_eq_bind, Option.bind_some,
    readFraction?_fractionText hn (head?_exponentText n hrest),
    readExponent?_exponentText n hrest, hempty, hexponent, Option.isNone_map]
  rfl

theorem isDigit_of_mem_none :
    ∀ ds ∈ (none : Option (List Char)), ∀ c ∈ ds, c.isDigit = true := by
  rintro _ ⟨⟩

/-- The numeral of a whole number. -/
def whole (k : ℕ) : Numeral where
  whole := digits k
  fraction := none
  exponent := none
  whole_isDigit _ := isDigit_of_mem_digits
  whole_ne_nil := digits_ne_nil k
  fraction_isDigit := isDigit_of_mem_none

/-- A whole number that fits a word is read back from its digits. -/
theorem readNumber?_digits {k : ℕ} (hk : k < UInt64.size) (hrest : EndsNumber rest) :
    readNumber? (digits k ++ rest) = some (.integer k, rest) := by
  have hread := readNumber?_text (n := whole k) false ⟨digits_eq_or k, by simp [whole]⟩ hrest
  have htext : (whole k).text = digits k := List.append_nil _
  have hvalue : ofDigits (whole k).whole = k := ofDigits_digits k
  have hnumber : numberOf false (whole k) = .integer k := by
    rw [numberOf, if_pos ⟨rfl, rfl⟩, hvalue, ofWhole, if_neg Bool.false_ne_true, if_pos hk]
  rw [htext, hnumber] at hread
  exact hread

/-! ### Finite numbers -/

/-- The exponent as it is written behind a mantissa. -/
def exponentOf (e : ℤ) : Exponent where
  sign := if 0 ≤ e then ['+'] else ['-']
  digits := digits e.natAbs
  sign_mem := by split <;> simp
  digits_isDigit _ := isDigit_of_mem_digits
  digits_ne_nil := digits_ne_nil _

theorem text_exponentOf (e : ℤ) : (exponentOf e).text = writeExponent e := by
  show 'e' :: ((if 0 ≤ e then ['+'] else ['-']) ++ digits e.natAbs) = _
  rw [writeExponent]
  split
  case isTrue | isFalse => rfl

theorem value_exponentOf (e : ℤ) : (exponentOf e).value = e := by
  have hdigits : ofDigits (exponentOf e).digits = e.natAbs := ofDigits_digits _
  have hsign : (exponentOf e).sign = if 0 ≤ e then ['+'] else ['-'] := rfl
  rw [Exponent.value, hdigits, hsign]
  by_cases he : 0 ≤ e
  · rw [if_pos he, if_neg (by decide), Int.natAbs_of_nonneg he]
  · rw [if_neg he, if_pos rfl, Int.ofNat_natAbs_of_nonpos (by omega), neg_neg]

/-- A numeral of the sign and the size of a decimal that reads back as a number. -/
theorem numberOf_of_size {n : Numeral} {d : Decimal} {x : Binary64}
    (hn : n.fraction ≠ none ∨ n.exponent ≠ none) (hsize : n.decimal.size = d.size)
    (hx : d.toBinary64 = x) : numberOf d.negative n = .real x := by
  have hwhole : ¬ (n.fraction.isNone = true ∧ n.exponent.isNone = true) := by
    simpa [Option.isNone_iff_eq_none, or_iff_not_imp_left] using hn
  rw [numberOf, if_neg hwhole, ← hx]
  exact congrArg Datum.real (Decimal.toBinary64_congr rfl hsize)

/-- A zero is written as a numeral for it, with its sign. -/
theorem exists_numeral_zero {x : Binary64} (hrank : x.rank = 0) :
    ∃ n : Numeral, n.IsTidy ∧ "0.0".toList = n.text ∧ numberOf x.isNegative n = .real x := by
  have hzero : Decimal.toBinary64 ⟨x.isNegative, 0, 0⟩ = x := by
    rw [Decimal.toBinary64, if_pos rfl, ← hrank, Binary64.ofRank_rank]
  have hsize : (Numeral.pointed 0 1).decimal.size = Decimal.size ⟨x.isNegative, 0, 0⟩ := by
    rw [Numeral.decimal_pointed one_pos, Decimal.size, Decimal.size, Nat.cast_zero, zero_mul,
      zero_mul]
  exact ⟨.pointed 0 1, Numeral.isTidy_pointed one_pos 0, by decide,
    numberOf_of_size (.inl (Option.some_ne_none _)) hsize hzero⟩

/-- A decimal is written as a numeral for the number nearest to it. -/
theorem exists_numeral_shortest {x : Binary64} {d : Decimal} (hd : d.toBinary64 = x) :
    ∃ n : Numeral, n.IsTidy ∧
      (if isPlain d.lead then d.plain else d.mantissa ++ writeExponent d.lead) = n.text ∧
      numberOf d.negative n = .real x := by
  by_cases hplain : isPlain d.lead = true
  · obtain ⟨n, hn, htext, hfraction, hsize⟩ := d.exists_numeral_plain
    refine ⟨n, hn, ?_, numberOf_of_size (.inl hfraction) hsize hd⟩
    rw [if_pos hplain, htext]
  · have hexponent : d.lead - (digits d.coefficient).length + 1 = d.exponent := by
      rw [Decimal.lead]
      ring
    have hsize : (Numeral.scientific d.coefficient (exponentOf d.lead)).decimal.size = d.size := by
      rw [Numeral.decimal_scientific, value_exponentOf, hexponent, Decimal.size, Decimal.size]
    refine ⟨.scientific d.coefficient (exponentOf d.lead), Numeral.isTidy_scientific _ _, ?_,
      numberOf_of_size (.inr (Option.some_ne_none _)) hsize hd⟩
    rw [if_neg hplain, Numeral.text_scientific, text_exponentOf]

/-- A finite number is written as a numeral that is not whole and that denotes the number. -/
theorem exists_numeral_writeReal {x : Binary64} (hx : x.isFinite = true) :
    ∃ n : Numeral, n.IsTidy ∧ writeReal x = x.signText ++ n.text ∧
      numberOf x.isNegative n = .real x := by
  have hfinite : ¬ x.isFinite = false := by simp [hx]
  rw [writeReal, if_neg hfinite]
  by_cases hrank : x.rank = 0
  · obtain ⟨n, hn, htext, hnumber⟩ := exists_numeral_zero hrank
    refine ⟨n, hn, ?_, hnumber⟩
    rw [if_pos hrank, htext]
  · obtain ⟨n, hn, htext, hnumber⟩ := exists_numeral_shortest (Binary64.toBinary64_shortest hx)
    rw [Binary64.negative_shortest hx] at hnumber
    refine ⟨n, hn, ?_, hnumber⟩
    rw [if_neg hrank, ← htext]

/-- Finite numbers are read back bit for bit. -/
theorem readNumber?_writeReal {x : Binary64} (hx : x.isFinite = true) (hrest : EndsNumber rest) :
    readNumber? (writeReal x ++ rest) = some (.real x, rest) := by
  obtain ⟨n, hn, htext, hnumber⟩ := exists_numeral_writeReal hx
  have hread := readNumber?_text x.isNegative hn hrest
  have hfinite : finite (.real x) = .real x := if_pos hx
  rw [hnumber, hfinite] at hread
  rw [htext, Binary64.signText, List.append_assoc]
  exact hread

end Numerals

end Json

end Storage

end ZPlane
