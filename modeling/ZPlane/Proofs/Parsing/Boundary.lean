import Mathlib
import ZPlane.Proofs.Parsing.Token

/-!
# The ends of tokens

No token begins or ends with a blank.  A token with a character behind it that cannot go on with it
is the longest one (`Numeral.longest_text`, `IsName.longest`): for a number that is every character
that is neither of a word nor the point, since a sign belongs to a number only behind the letter of
its exponent, and no number ends with that letter.
-/

namespace ZPlane

namespace Parsing

open Text (isBlank Leaves)

/-! ### Characters -/

/-- Digits are word characters. -/
theorem isWord_of_isDigit {c : Char} (hc : c.isDigit = true) : isWord c = true := by
  simp [isWord, Char.isAlphanum, hc]

/-- Word characters are between `0` and `z`. -/
theorem toNat_of_isWord {c : Char} (hc : isWord c = true) : 48 ≤ c.toNat ∧ c.toNat ≤ 122 := by
  simp only [isWord, Char.isAlphanum, Char.isAlpha, Char.isUpper, Char.isLower, Char.isDigit,
    UInt32.le_iff_toNat_le, Bool.or_eq_true, Bool.and_eq_true, decide_eq_true_eq] at hc
  rcases hc with ((⟨h₁, h₂⟩ | ⟨h₁, h₂⟩) | ⟨h₁, h₂⟩) | rfl
  · exact ⟨le_trans (by decide) h₁, le_trans h₂ (by decide)⟩
  · exact ⟨le_trans (by decide) h₁, le_trans h₂ (by decide)⟩
  · exact ⟨le_trans (by decide) h₁, le_trans h₂ (by decide)⟩
  · decide

/-- A word character is no blank. -/
theorem isBlank_of_isWord {c : Char} (hc : isWord c = true) : isBlank c = false := by
  obtain ⟨h₁, h₂⟩ := toNat_of_isWord hc
  simp only [isBlank, Text.blankRanges, List.any_cons, List.any_nil, Bool.or_eq_false_iff,
    Bool.and_eq_false_iff, decide_eq_false_iff_not, and_true]
  omega

/-! ### Numbers and names -/

/-- What is not empty ends with one of its characters. -/
theorem exists_append_last {cs : List Char} (h : cs ≠ []) : ∃ w d, cs = w ++ [d] ∧ d ∈ cs := by
  exact ⟨cs.dropLast, cs.getLast h, (List.dropLast_append_getLast h).symm, List.getLast_mem h⟩

/-- Behind its letter and its sign, an exponent has digits only. -/
theorem Exponent.isDigit_or_of_text_eq (e : Exponent) {u v : List Char} {d : Char}
    (h : e.text = u ++ d :: v) : d = 'e' ∨ u = ['e'] ∨ d.isDigit = true := by
  obtain ⟨sign, digits, hs, hd, hne⟩ := e
  simp only [Exponent.text] at h
  cases u with
  | nil => exact .inl (List.cons.inj h).1.symm
  | cons c u =>
      obtain ⟨rfl, htail⟩ := List.cons.inj h
      have hdigit {w : List Char} (hw : digits = w ++ d :: v) : d.isDigit = true :=
        hd d (by simp [hw])
      simp only [List.mem_cons, List.not_mem_nil, or_false] at hs
      rcases hs with rfl | rfl | rfl
      · exact .inr (.inr (hdigit htail))
      · cases u with
        | nil => exact .inr (.inl rfl)
        | cons _ u => exact .inr (.inr (hdigit (List.cons.inj htail).2))
      · cases u with
        | nil => exact .inr (.inl rfl)
        | cons _ u => exact .inr (.inr (hdigit (List.cons.inj htail).2))

namespace Numeral

variable (n : Numeral)

/-- A number begins with a digit. -/
theorem exists_first : ∃ c t, n.text = c :: t ∧ c.isDigit = true := by
  obtain ⟨c, t, h⟩ := List.exists_cons_of_ne_nil n.whole_ne_nil
  exact ⟨c, _, by rw [text, h, List.cons_append], n.whole_isDigit c (h ▸ List.mem_cons_self)⟩

/-- A number ends with a digit or the point. -/
theorem exists_last : ∃ w d, n.text = w ++ [d] ∧ (d.isDigit = true ∨ d = '.') := by
  rcases n.exponentText_eq_nil_or with h₀ | ⟨e, he⟩
  · rcases n.fractionText_eq_nil_or with hnil | ⟨ds, hcons, hds⟩
    · obtain ⟨w, d, hw, hd⟩ := exists_append_last n.whole_ne_nil
      exact ⟨w, d, by rw [text, h₀, hnil, hw]; simp, .inl (n.whole_isDigit d hd)⟩
    · rcases eq_or_ne ds [] with rfl | hne
      · exact ⟨n.whole, '.', by rw [text, h₀, hcons]; rfl, .inr rfl⟩
      · obtain ⟨w, d, hw, hd⟩ := exists_append_last hne
        exact ⟨n.whole ++ '.' :: w, d, by rw [text, h₀, hcons, hw]; simp, .inl (hds d hd)⟩
  · obtain ⟨w, d, hw, hd⟩ := exists_append_last e.digits_ne_nil
    refine ⟨n.whole ++ (n.fractionText ++ 'e' :: (e.sign ++ w)), d, ?_, ?_⟩
    · rw [text, he, Exponent.text, hw]
      simp
    · exact .inl (e.digits_isDigit d hd)

/-- A mantissa is of digits and points. -/
theorem mem_mantissa {c : Char} (hc : c ∈ n.whole ++ n.fractionText) :
    c.isDigit = true ∨ c = '.' := by
  rcases List.mem_append.mp hc with hc | hc
  · exact .inl (n.whole_isDigit c hc)
  · rcases n.fractionText_eq_nil_or with hnil | ⟨ds, hcons, hds⟩
    · rw [hnil] at hc
      cases hc
    · rw [hcons] at hc
      rcases List.mem_cons.mp hc with rfl | hc
      · exact .inr rfl
      · exact .inl (hds c hc)

/-- A number is of digits and a few marks. -/
theorem isDigit_or_of_mem_text {c : Char} (hc : c ∈ n.text) :
    c.isDigit = true ∨ c ∈ ['.', 'e', '+', '-'] := by
  rw [text, ← List.append_assoc, List.mem_append] at hc
  rcases hc with hc | hc
  · rcases n.mem_mantissa hc with hdigit | rfl
    · exact .inl hdigit
    · exact .inr (by simp)
  · rcases n.exponentText_eq_nil_or with hnil | ⟨e, he⟩
    · rw [hnil] at hc
      cases hc
    · rw [he, Exponent.text, List.mem_cons, List.mem_append] at hc
      have hsign := e.sign_mem
      simp only [List.mem_cons, List.not_mem_nil, or_false] at hsign
      rcases hc with rfl | hc | hc
      · exact .inr (by simp)
      · rcases hsign with h | h | h <;> simp_all
      · exact .inl (e.digits_isDigit c hc)

/-- Apart from word characters and the point there is a sign at most, behind the letter of the
exponent. -/
theorem isWord_or_of_text_eq {u v : List Char} {d : Char} (h : n.text = u ++ d :: v) :
    isWord d = true ∨ d = '.' ∨ ∃ w, u = w ++ ['e'] := by
  have hmantissa (hd : d ∈ n.whole ++ n.fractionText) : isWord d = true ∨ d = '.' :=
    (n.mem_mantissa hd).imp_left isWord_of_isDigit
  rw [text, ← List.append_assoc] at h
  rcases List.append_eq_append_iff.mp h with ⟨b, rfl, hb⟩ | ⟨b, hu, hb⟩
  · rcases n.exponentText_eq_nil_or with h₀ | ⟨e, he⟩
    · simp [h₀] at hb
    · rw [he] at hb
      rcases e.isDigit_or_of_text_eq hb with rfl | rfl | hd
      · exact .inl rfl
      · exact .inr (.inr ⟨_, rfl⟩)
      · exact .inl (isWord_of_isDigit hd)
  · cases b with
    | nil =>
        rcases n.exponentText_eq_nil_or with h₀ | ⟨e, he⟩
        · simp [h₀] at hb
        · rw [he, Exponent.text, List.nil_append] at hb
          obtain ⟨rfl, -⟩ := List.cons.inj hb
          exact .inl rfl
    | cons c b =>
        obtain ⟨rfl, -⟩ := List.cons.inj hb
        exact (hmantissa (by rw [hu]; simp)).imp_right .inl

/-- A number is not longer with a character behind it that is neither of a word nor the point. -/
theorem longest_text {r : List Char} (hr : ∀ d ∈ r.head?, isWord d = false ∧ d ≠ '.') :
    Longest IsNumeral (n.text ++ r) n.text r := by
  refine ⟨rfl, ⟨n, rfl⟩, ?_⟩
  rintro _ ⟨n', rfl⟩ hp
  by_contra! hlt
  obtain ⟨v, hv⟩ := List.prefix_of_prefix_length_le (List.prefix_append _ r) hp hlt.le
  cases v with
  | nil =>
      rw [← hv, List.append_nil] at hlt
      exact lt_irrefl _ hlt
  | cons d v =>
      rw [← hv, List.prefix_append_right_inj] at hp
      obtain ⟨hd, hpoint⟩ := hr d (by obtain ⟨w, rfl⟩ := hp; rfl)
      rcases n'.isWord_or_of_text_eq hv.symm with hword | rfl | ⟨w, hw⟩
      · exact absurd hword (by simp [hd])
      · exact hpoint rfl
      · obtain ⟨u, e, hu, he⟩ := n.exists_last
        rw [hu] at hw
        obtain ⟨-, heq⟩ := List.append_inj' hw rfl
        obtain ⟨rfl, -⟩ := List.cons.inj heq
        simp at he

end Numeral

/-- A name is a longest one if no word character comes behind it. -/
theorem IsName.longest {t r : List Char} (ht : IsName t) (hr : ∀ d ∈ r.head?, isWord d = false) :
    Longest IsName (t ++ r) t r := by
  refine ⟨rfl, ht, fun t' ht' hp ↦ ?_⟩
  have hrun : runLength isWord (t ++ r) = t.length := by
    cases r with
    | nil => simp [runLength, List.takeWhile_eq_self_iff.mpr ht.2]
    | cons d r => exact (length_eq_runLength ht.2 (hr d rfl) ⟨r, by simp⟩).symm
  exact hrun ▸ length_le_runLength ht'.2 hp

/-- A name begins with a word character. -/
theorem IsName.exists_first {t : List Char} (ht : IsName t) :
    ∃ c u, t = c :: u ∧ isWord c = true := by
  obtain ⟨c, u, rfl⟩ := List.exists_cons_of_ne_nil ht.1
  exact ⟨c, u, rfl, ht.2 c List.mem_cons_self⟩

namespace Longest

variable {cs t r : List Char} {n : Numeral}

/-- A name ends with a character that is no blank. -/
theorem leaves_of_name (h : Longest IsName cs t r) : Leaves cs r := by
  obtain ⟨w, d, rfl, hd⟩ := exists_append_last h.mem.1
  exact ⟨w, d, isBlank_of_isWord (h.mem.2 d hd), by rw [h.append]; simp⟩

/-- A number ends with a character that is no blank. -/
theorem leaves_of_numeral (h : Longest IsNumeral cs n.text r) : Leaves cs r := by
  obtain ⟨w, d, hw, hd⟩ := n.exists_last
  refine ⟨w, d, ?_, by rw [h.append, hw]; simp⟩
  rcases hd with hd | rfl
  · exact isBlank_of_isWord (isWord_of_isDigit hd)
  · rfl

end Longest

end Parsing

end ZPlane
