import Mathlib
import ZPlane.Proofs.Calculator.Derivation

/-!
# Text behind a phrase

A phrase stays one, up to the same end, when text is put behind all that follows it, as long as the
text does not go on with the last token (`Apart`).  With `Derives.exists_cut` any text behind a
phrase may be taken for any other.
-/

namespace ZPlane

namespace Text

variable {r s t : List Char} {c : Char}

/-- Text behind what is left is left too. -/
theorem skip_append_of_eq_cons (h : skip r = c :: t) (s : List Char) :
    skip (r ++ s) = c :: (t ++ s) := by
  have hne : (r.dropWhile isBlank).isEmpty = false := by
    rw [← skip, h]
    rfl
  rw [skip, List.dropWhile_append, hne, if_neg Bool.false_ne_true, ← skip, h, List.cons_append]

/-- The blanks that are skipped and what is left make up the text. -/
theorem takeWhile_append_skip (r : List Char) : r.takeWhile isBlank ++ skip r = r :=
  List.takeWhile_append_dropWhile ..

/-- Blanks that end the first text are skipped with those that begin the second. -/
theorem skip_append (r s : List Char) : skip (r ++ s) = skip (skip r ++ s) := by
  have hblank : ∀ c ∈ r.takeWhile isBlank, isBlank c = true := fun _ hc ↦ List.mem_takeWhile_imp hc
  conv_lhs => rw [← takeWhile_append_skip r, List.append_assoc]
  exact skip_append_of_isBlank hblank _

end Text

namespace Parsing

/-- No token in front of the text goes on with it. -/
def Apart (s : List Char) : Prop :=
  ∀ c ∈ s.head?, isWord c = false ∧ c ≠ '.' ∧ c ≠ '+' ∧ c ≠ '-'

/-- The empty text goes on with no token. -/
theorem apart_nil : Apart [] := by
  rintro c ⟨⟩

/-- Text that begins with another character goes on with no token. -/
theorem apart_cons {c : Char} (h : isWord c = false ∧ c ≠ '.' ∧ c ≠ '+' ∧ c ≠ '-')
    (s : List Char) : Apart (c :: s) := by
  rintro _ ⟨⟩
  exact h

/-- Texts that go on with no token do not do so together. -/
theorem Apart.append {s t : List Char} (hs : Apart s) (ht : Apart t) : Apart (s ++ t) := by
  cases s with
  | nil => exact ht
  | cons c s => exact apart_cons (hs c rfl) _

/-! ### Tokens -/

/-- A number is made of word characters, points and signs. -/
theorem Numeral.mem_text (n : Numeral) {c : Char} (hc : c ∈ n.text) :
    isWord c = true ∨ c = '.' ∨ c = '+' ∨ c = '-' := by
  rcases n.isDigit_or_of_mem_text hc with hdigit | hmem
  · exact .inl (isWord_of_isDigit hdigit)
  · simp only [List.mem_cons, List.not_mem_nil, or_false] at hmem
    rcases hmem with rfl | rfl | rfl | rfl
    · exact .inr (.inl rfl)
    · exact .inl rfl
    · exact .inr (.inr (.inl rfl))
    · exact .inr (.inr (.inr rfl))

namespace Longest

variable {L : List Char → Prop} {cs t r s : List Char}

/-- A token is not longer with text behind all that follows it, if none goes on so far. -/
theorem append_of (h : Longest L cs t r) (hs : ∀ d ∈ s.head?, ∀ u, L u → d ∉ u) :
    Longest L (cs ++ s) t (r ++ s) := by
  refine ⟨by rw [h.append, List.append_assoc], h.mem, ?_⟩
  rintro u hu ⟨v, hv⟩
  -- A text of the language either ends in `cs` or has the first character behind it.
  rcases List.append_eq_append_iff.mp hv with ⟨w, rfl, -⟩ | ⟨w, rfl, hw⟩
  · exact h.longest u hu (List.prefix_append u w)
  · cases w with
    | nil => exact h.longest _ hu (by rw [List.append_nil])
    | cons d w =>
        have hd : d ∈ s.head? := by
          rw [hw]
          rfl
        exact absurd (List.mem_append_right cs List.mem_cons_self) (hs d hd _ hu)

/-- A number is not longer with a character behind it that no number has. -/
theorem of_numeral (n : Numeral)
    (hr : ∀ d ∈ r.head?, d.isDigit = false ∧ d ∉ ['.', 'e', '+', '-']) :
    Longest IsNumeral (n.text ++ r) n.text r := by
  have hend : Longest IsNumeral (n.text ++ []) n.text [] := n.longest_text (by rintro _ ⟨⟩)
  rw [List.append_nil] at hend
  refine hend.append_of ?_
  rintro d hd _ ⟨n', rfl⟩ hmem
  obtain ⟨hdigit, hother⟩ := hr d hd
  rcases n'.isDigit_or_of_mem_text hmem with h | h
  · rw [hdigit] at h
    cases h
  · exact hother h

/-- A longest name stays one if what follows it is apart. -/
theorem append_name (h : Longest IsName cs t r) (hs : Apart s) :
    Longest IsName (cs ++ s) t (r ++ s) := by
  refine h.append_of fun d hd u hu hmem ↦ ?_
  have := (hs d hd).1
  rw [hu.2 d hmem] at this
  cases this

/-- A longest number stays one if what follows it is apart. -/
theorem append_numeral (h : Longest IsNumeral cs t r) (hs : Apart s) :
    Longest IsNumeral (cs ++ s) t (r ++ s) := by
  refine h.append_of ?_
  rintro d hd _ ⟨n, rfl⟩ hmem
  obtain ⟨hword, hpoint, hplus, hminus⟩ := hs d hd
  rcases n.mem_text hmem with h | h | h | h
  · rw [hword] at h
    cases h
  · exact hpoint h
  · exact hplus h
  · exact hminus h

/-- Behind a name, the text from some place on may be taken for any other. -/
theorem replace_name {w x : List Char} (h : Longest IsName cs t r) (hr : Text.skip r = w ++ x)
    (hs : Apart s) : ∃ u r', cs = u ++ x ∧ Longest IsName (u ++ s) t r' ∧
      Text.skip r' = Text.skip (w ++ s) := by
  obtain ⟨r, rfl, rfl⟩ := Text.exists_skip_cut hr
  obtain ⟨cs, rfl, hcut⟩ := h.exists_cut
  exact ⟨cs, r ++ s, rfl, hcut.append_name hs, Text.skip_append r s⟩

end Longest

end Parsing

namespace Calculator

open Parsing
open Text (skip)

variable {L : Level} {cs r s : List Char} {e : Expr}

/-! ### Symbols -/

theorem apart_open (s : List Char) : Apart ('(' :: s) := apart_cons (by decide) s

theorem apart_close (s : List Char) : Apart (')' :: s) := apart_cons (by decide) s

theorem apart_comma (s : List Char) : Apart (',' :: s) := apart_cons (by decide) s

/-- No blank comes before a symbol. -/
theorem skip_symbol (f : BinaryFn) (r : List Char) :
    skip (f.symbol.toList ++ r) = f.symbol.toList ++ r := by
  cases f <;> exact Text.skip_cons_of_not_isBlank rfl r

/-! ### Phrases -/

/-- Blanks in front of a phrase are skipped as before. -/
theorem Derives.skip_append (h : Derives L (skip r) cs e) (s : List Char) :
    skip (r ++ s) = skip r ++ s := by
  obtain ⟨c, t, hc, -⟩ := h.begins
  rw [Text.skip_append_of_eq_cons hc, hc, List.cons_append]

/-- A phrase does not depend on text behind all that follows it. -/
theorem Derives.append (h : Derives L cs r e) (hs : Apart s) :
    Derives L (cs ++ s) (r ++ s) e := by
  induction h with
  | number hn => exact .number (hn.append_numeral hs)
  | constant hk => exact .constant (hk.append_name hs)
  | call hf hk hopen ha hclose ih =>
      refine .call (hf.append_name hs) hk (Text.skip_append_of_eq_cons hopen s) ?_
        (Text.skip_append_of_eq_cons hclose s)
      rwa [ha.skip_append]
  | call₂ hf hk hopen ha hcomma hb hclose iha ihb =>
      refine .call₂ (hf.append_name hs) hk (Text.skip_append_of_eq_cons hopen s) ?_
        (Text.skip_append_of_eq_cons hcomma s) ?_ (Text.skip_append_of_eq_cons hclose s)
      · rwa [ha.skip_append]
      · rwa [hb.skip_append]
  | parenthesised ha hclose ih =>
      rw [List.cons_append]
      refine .parenthesised ?_ (Text.skip_append_of_eq_cons hclose s)
      rwa [ha.skip_append]
  | juxtaposed _ hb iha ihb =>
      refine .juxtaposed iha ?_
      rwa [hb.skip_append]
  | signed hf ha ih =>
      rw [List.append_assoc]
      refine .signed hf ?_
      rwa [ha.skip_append]
  | @operated _ r₁ r₂ _ f _ _ _ hop hb iha ihb =>
      obtain ⟨d, hd, -⟩ := f.exists_symbol
      have hop' : skip (r₁ ++ s) = f.symbol.toList ++ (r₂ ++ s) := by
        rw [hd] at hop ⊢
        exact Text.skip_append_of_eq_cons hop s
      refine .operated iha hop' ?_
      rwa [hb.skip_append]
  | tighter _ ih => exact .tighter ih

/-- Behind a phrase, the text from some place on may be taken for any other. -/
theorem Derives.replace {w x : List Char} (h : Derives L cs r e) (hr : skip r = w ++ x)
    (hs : Apart s) : ∃ u r', cs = u ++ x ∧ Derives L (u ++ s) r' e ∧ skip r' = skip (w ++ s) := by
  obtain ⟨r, rfl, rfl⟩ := Text.exists_skip_cut hr
  obtain ⟨cs, rfl, hcut⟩ := h.exists_cut
  exact ⟨cs, r ++ s, rfl, hcut.append hs, Text.skip_append r s⟩

end Calculator

end ZPlane
