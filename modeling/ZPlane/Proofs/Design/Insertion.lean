import Mathlib
import ZPlane.Proofs.Design.Refusal
import ZPlane.Proofs.Design.Session

/-!
# Roots that are rejected

A text that is no expression stands in a design as a root at zero.  Such a root is its own conjugate
and vanishes, so no factor is made of it, and a design says the same filter however many of them are
inserted (`InsertsRejected`).
-/

namespace ZPlane

open Calculator

namespace Response

/-! ### Roots that vanish -/

/-- The roots that factors are made of, in their order. -/
def proper (roots : List (Complex Binary64)) : List (Complex Binary64) :=
  (roots.flatMap Complex.conjugates).filter fun r ↦ !r.isZero

theorem proper_append (as bs : List (Complex Binary64)) :
    proper (as ++ bs) = proper as ++ proper bs := by
  rw [proper, List.flatMap_append, List.filter_append, proper, proper]

/-- A root that vanishes adds no factor. -/
theorem proper_cons_of_isZero {z : Complex Binary64} (h : z.isZero = true)
    (roots : List (Complex Binary64)) : proper (z :: roots) = proper roots := by
  have hnone : (z.conjugates.filter fun r ↦ !r.isZero) = [] := by
    apply List.eq_nil_of_length_eq_zero
    rw [length_conjugates, factorCount, if_pos (isZero_iff.mp h)]
  rw [proper, List.flatMap_cons, List.filter_append, hnone, List.nil_append, proper]

/-- Roots with the same factors have the same polynomial. -/
theorem characteristic_congr {as bs : List (Complex Binary64)} (h : proper as = proper bs) :
    characteristic as = characteristic bs := by
  unfold proper at h
  unfold characteristic Polynomial.ofRoots
  rw [h]

/-- Where a root vanishes does not matter, and what the others are does not either. -/
theorem characteristic_insert {z : Complex Binary64} (h : z.isZero = true)
    (as bs : List (Complex Binary64)) :
    characteristic (as ++ z :: bs) = characteristic (as ++ bs) := by
  apply characteristic_congr
  rw [proper_append, proper_cons_of_isZero h, proper_append]

/-- Zeros and poles matter by their polynomials only. -/
theorem ofRoots_congr {table : Array Binary64} {zeros zeros' poles poles' : List (Complex Binary64)}
    (hzeros : characteristic zeros = characteristic zeros')
    (hpoles : characteristic poles = characteristic poles') (gain : Complex Binary64) (size : ℕ)
    (nyquist : Binary64) :
    ofRoots table zeros poles gain size nyquist =
      ofRoots table zeros' poles' gain size nyquist := by
  rw [ofRoots, hzeros, hpoles, ofRoots]

end Response

/-- The root of a rejected text vanishes. -/
theorem Root.isZero_parse_of_error {text : String} {e : Parsing.ParseError}
    (h : calculate text = .error e) : (Root.parse text).value.isZero = true := by
  have hvalue : (Root.parse text).value = 0 := by rw [Root.parse_of_error h]
  rw [hvalue]
  decide +kernel

namespace Design

variable {d d' : Design Binary64}

/-- The second design has one root more, somewhere among its zeros or poles, with a text that is no
expression. -/
inductive InsertsRejected (d : Design Binary64) : Design Binary64 → Prop
  | mk {kind as bs text e} (hrejected : calculate text = .error e)
      (hroots : d.roots kind = as ++ bs) :
      InsertsRejected d (d.modifyRoots kind fun _ ↦ as ++ .parse text :: bs)

/-- The designs have the same filter, whatever sines the transform uses. -/
structure SameFilter (d d' : Design Binary64) : Prop where
  numerator : d'.numerator = d.numerator
  denominator : d'.denominator = d.denominator
  response : ∀ table, d'.response table = d.response table

/-- Designs with the same options and polynomials have the same filter. -/
theorem sameFilter_of_characteristic (hoptions : d'.options = d.options)
    (h : ∀ kind, Response.characteristic (d'.values kind) =
      Response.characteristic (d.values kind)) : d.SameFilter d' := by
  constructor
  · exact h .zero
  · exact h .pole
  · intro table
    simp only [Design.response, hoptions, Response.ofRoots_congr (h .zero) (h .pole)]

theorem SameFilter.refl (d : Design Binary64) : d.SameFilter d := ⟨rfl, rfl, fun _ ↦ rfl⟩

theorem SameFilter.trans {d₁ d₂ d₃ : Design Binary64} (h : d₁.SameFilter d₂)
    (h' : d₂.SameFilter d₃) : d₁.SameFilter d₃ where
  numerator := h'.numerator.trans h.numerator
  denominator := h'.denominator.trans h.denominator
  response table := (h'.response table).trans (h.response table)

/-- One root with a rejected text leaves the filter as it is. -/
theorem InsertsRejected.sameFilter (h : d.InsertsRejected d') : d.SameFilter d' := by
  obtain ⟨hrejected, hroots⟩ := h
  rename_i kind as bs text e
  apply sameFilter_of_characteristic
  · exact d.modifyRoots_options kind _
  · intro k
    rw [values, values, roots_modifyRoots]
    split
    · rename_i hk
      rw [hk, hroots, List.map_append, List.map_cons, List.map_append]
      exact Response.characteristic_insert (Root.isZero_parse_of_error hrejected) _ _
    · rfl

/-- However many rejected roots are inserted, and wherever, the filter is the same. -/
theorem sameFilter_of_insertions (h : Relation.ReflTransGen InsertsRejected d d') :
    d'.numerator = d.numerator ∧ d'.denominator = d.denominator ∧
      ∀ table, d'.response table = d.response table := by
  suffices d.SameFilter d' from ⟨this.numerator, this.denominator, this.response⟩
  induction h with
  | refl => exact SameFilter.refl d
  | tail _ hstep ih => exact ih.trans hstep.sameFilter

/-- One of the zeros is not finite. -/
def twoZeros : Design Binary64 := ofRoots [.parse "1", .parse "1 / 0"] [.parse "i / 2"]

/-- With a rejected root between the zeros. -/
def threeZeros : Design Binary64 :=
  ofRoots [.parse "1", .parse "1 +", .parse "1 / 0"] [.parse "i / 2"]

/-- And with a rejected one in front of the pole. -/
def twoPoles : Design Binary64 :=
  ofRoots [.parse "1", .parse "1 +", .parse "1 / 0"] [.parse "", .parse "i / 2"]

/-- A rejected root among the zeros and another among the poles. -/
theorem sameFilter_of_insertions_two :
    Relation.ReflTransGen InsertsRejected twoZeros twoPoles ∧
      twoPoles.numerator = twoZeros.numerator ∧ twoPoles.denominator = twoZeros.denominator ∧
      ∀ table, twoPoles.response table = twoZeros.response table := by
  have hsum : calculate "1 +" =
      .error ⟨3, ["sign", "number", "constant", "function", "\"(\""]⟩ := by decide +kernel
  have hempty : calculate "" =
      .error ⟨0, ["sign", "number", "constant", "function", "\"(\""]⟩ := by decide +kernel
  have hzeros : twoZeros.roots .zero = [.parse "1"] ++ [.parse "1 / 0"] := rfl
  have hpoles : threeZeros.roots .pole = [] ++ [.parse "i / 2"] := rfl
  have hfirst : twoZeros.InsertsRejected threeZeros := .mk hsum hzeros
  have hsecond : threeZeros.InsertsRejected twoPoles := .mk hempty hpoles
  have hinsertions := (Relation.ReflTransGen.single hfirst).tail hsecond
  exact ⟨hinsertions, sameFilter_of_insertions hinsertions⟩

end Design

end ZPlane
