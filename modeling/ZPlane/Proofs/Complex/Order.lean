import Mathlib
import ZPlane.Polynomial.Solver
import ZPlane.Proofs.Number.Differences
import ZPlane.Proofs.Sorting.Order

/-!
# The order of roots

A comparison of finite numbers with a tolerance is turned around with its arguments
(`compare_swap`), but it need not be transitive: numbers may be less than one another in a circle.
Where it is transitive on a list of roots, sorting succeeds, and it finds the same order up to what
compares as equal, in whatever order the roots are given (`sort?_canonical`).

Three numbers with real parts that are closer than the tolerance are enough to break this.  Sorting
few numbers still succeeds, but what it finds depends on the given order and need not be an order
(`sort?_of_circle`), and the merges of a longer list may contradict one another.
-/

open scoped List

namespace ZPlane

/-! ### Signs within a tolerance -/

section Sign

variable {ε d e : Binary64}

/-- Numbers that are no NaNs are ordered by position. -/
theorem Binary64.le_iff_position {x y : Binary64} (hx : x.isNaN = false) (hy : y.isNaN = false) :
    x ≤ y ↔ x.position ≤ y.position :=
  ⟨fun h ↦ h.2.2, fun h ↦ ⟨hx, hy, h⟩⟩

namespace Complex

/-- The sign of a difference is found by position, and within the tolerance there is none. -/
theorem signWithin_eq (hε : ε.isNaN = false) (hd : d.isNaN = false) :
    signWithin ε d =
      if d.position ≤ -ε.position then .lt else if ε.position ≤ d.position then .gt else .eq := by
  have hneg : (-ε).isNaN = false := (Binary64.isNaN_neg ε).trans hε
  simp only [signWithin, Binary64.le_iff_position hd hneg, Binary64.le_iff_position hε hd,
    Binary64.position_neg]

/-- Opposite differences have opposite signs, as a positive tolerance separates them. -/
theorem signWithin_swap (hε : ε.isNaN = false) (hpos : 0 < ε.position) (hd : d.isNaN = false)
    (he : e.isNaN = false) (hopposite : e.position = -d.position) :
    signWithin ε e = (signWithin ε d).swap := by
  rw [signWithin_eq hε hd, signWithin_eq hε he, hopposite]
  rcases le_or_gt d.position (-ε.position) with hlt | hlt
  · rw [if_neg (by omega), if_pos (by omega), if_pos hlt]
    rfl
  · rcases le_or_gt ε.position d.position with hgt | hgt
    · rw [if_pos (by omega), if_neg (by omega), if_pos hgt]
      rfl
    · rw [if_neg (by omega), if_neg (by omega), if_neg (by omega), if_neg (by omega)]
      rfl

end Complex

end Sign

namespace Complex

variable {z w : Complex Binary64} {zs : List (Complex Binary64)}

/-! ### The comparison -/

theorem isFinite_iff : z.isFinite = true ↔ z.re.isFinite = true ∧ z.im.isFinite = true :=
  Bool.and_eq_true_iff

/-- The comparison of finite numbers the other way round is the opposite one. -/
theorem compare_swap (hz : z.isFinite = true) (hw : w.isFinite = true) :
    w.compare z = (z.compare w).swap := by
  have hε : (Scalar.tolerance : Binary64).isNaN = false := by decide +kernel
  have hpos : 0 < (Scalar.tolerance : Binary64).position := by decide +kernel
  obtain ⟨hzre, hzim⟩ := isFinite_iff.mp hz
  obtain ⟨hwre, hwim⟩ := isFinite_iff.mp hw
  rw [compare, compare, compareWithin, compareWithin, Ordering.swap_then]
  refine congrArg₂ Ordering.then ?_ ?_
  · exact signWithin_swap hε hpos (Binary64.isNaN_sub hzre hwre) (Binary64.isNaN_sub hwre hzre)
      (Binary64.position_sub_swap hzre hwre)
  · exact signWithin_swap hε hpos (Binary64.isNaN_sub hzim hwim) (Binary64.isNaN_sub hwim hzim)
      (Binary64.position_sub_swap hzim hwim)

/-- No number of the list is greater than another through a third but not by itself. -/
def TransitiveOn (zs : List (Complex Binary64)) : Prop :=
  ∀ a ∈ zs, ∀ b ∈ zs, ∀ c ∈ zs, a.compare b ≠ .gt → b.compare c ≠ .gt → a.compare c ≠ .gt

instance (zs : List (Complex Binary64)) : Decidable (TransitiveOn zs) :=
  inferInstanceAs (Decidable (∀ a ∈ zs, ∀ b ∈ zs, ∀ c ∈ zs, _))

/-- A number is not less than another exactly if the other is not greater than it. -/
theorem isLT_eq_false_iff (hz : z.isFinite = true) (hw : w.isFinite = true) :
    (w.compare z).isLT = false ↔ z.compare w ≠ .gt := by
  rw [compare_swap hz hw]
  cases z.compare w with
  | lt => decide
  | eq => decide
  | gt => decide

/-- The comparison of finite numbers is consistent where it is transitive. -/
theorem consistent_compare (hfinite : ∀ z ∈ zs, z.isFinite = true) (htrans : TransitiveOn zs) :
    Sorting.Consistent (fun z w ↦ (z.compare w).isLT) zs where
  asymm a ha b hb hab := by
    rw [isLT_eq_false_iff (hfinite a ha) (hfinite b hb)]
    intro hgt
    rw [hgt] at hab
    cases hab
  trans a ha b hb c hc hba hcb := by
    rw [isLT_eq_false_iff (hfinite _ ‹_›) (hfinite _ ‹_›)] at hba hcb ⊢
    exact htrans a ha b hb c hc hba hcb

/-! ### Sorted roots -/

/-- Where the comparison is transitive the sorted list has no number before a lesser one, and it
does not depend on the order in which the numbers are given, up to what compares as equal. -/
theorem sort?_canonical (hfinite : ∀ z ∈ zs, z.isFinite = true) (htrans : TransitiveOn zs) :
    ∃ out, Solver.sort? zs = some out ∧ out ~ zs ∧ (out.Pairwise fun z w ↦ z.compare w ≠ .gt) ∧
      ∀ zs', zs' ~ zs → ∃ out', Solver.sort? zs' = some out' ∧
        List.Forall₂ (fun z w ↦ z.compare w = .eq) out out' := by
  have hconsistent := consistent_compare hfinite htrans
  obtain ⟨out, hout, hperm, hordered⟩ := Sorting.exists_sort? hconsistent
  refine ⟨out, hout, hperm, hordered.imp_of_mem fun hz hw hle ↦ ?_, fun zs' hzs' ↦ ?_⟩
  · exact (isLT_eq_false_iff (hfinite _ (hperm.subset hz)) (hfinite _ (hperm.subset hw))).mp hle
  · obtain ⟨out', hout', -, -⟩ := Sorting.exists_sort? (hconsistent.mono hzs'.subset)
    obtain ⟨hlength, hagree⟩ :=
      List.forall₂_iff_zip.mp (Sorting.sort?_agree hconsistent hzs' hout hout')
    refine ⟨out', hout', List.forall₂_iff_zip.mpr ⟨hlength, fun {z w} hzw ↦ ?_⟩⟩
    obtain ⟨hlt, hgt⟩ := hagree hzw
    obtain ⟨hz, hw⟩ := List.of_mem_zip hzw
    have hz := hfinite z (hperm.subset hz)
    have hw := hfinite w (hzs'.subset ((Sorting.sort?_perm _ hout').subset hw))
    rw [isLT_eq_false_iff hz hw] at hgt
    cases hzw : z.compare w with
    | lt => rw [hzw] at hlt; cases hlt
    | eq => rfl
    | gt => exact absurd hzw hgt

/-- The real parts of the last two are within the tolerance, so their imaginary parts decide. -/
theorem sort?_canonical_three :
    let zs : List (Complex Binary64) := [⟨1, 0⟩, ⟨0, 1⟩, ⟨5e-10, -1⟩]
    let out : List (Complex Binary64) := [⟨5e-10, -1⟩, ⟨0, 1⟩, ⟨1, 0⟩]
    (∀ z ∈ zs, z.isFinite = true) ∧ TransitiveOn zs ∧ Solver.sort? zs = some out ∧
      ∀ zs', zs' ~ zs → ∃ out', Solver.sort? zs' = some out' ∧
        List.Forall₂ (fun z w ↦ z.compare w = .eq) out out' := by
  have hfinite : ∀ z ∈ ([⟨1, 0⟩, ⟨0, 1⟩, ⟨5e-10, -1⟩] : List (Complex Binary64)),
      z.isFinite = true := by
    decide +kernel
  have htrans : TransitiveOn [⟨1, 0⟩, ⟨0, 1⟩, ⟨5e-10, -1⟩] := by
    decide +kernel
  have hsort : Solver.sort? ([⟨1, 0⟩, ⟨0, 1⟩, ⟨5e-10, -1⟩] : List (Complex Binary64)) =
      some [⟨5e-10, -1⟩, ⟨0, 1⟩, ⟨1, 0⟩] := by
    decide +kernel
  obtain ⟨out, hout, -, -, hagree⟩ := sort?_canonical hfinite htrans
  cases hsort.symm.trans hout
  exact ⟨hfinite, htrans, hsort, hagree⟩

/-- The real parts of `b` and its neighbours are within the tolerance, while those of `a` and `c` are
not: `a` compares as equal to `b`, `b` as greater than `c`, and `c` as greater than `a`. -/
theorem sort?_of_circle :
    let a : Complex Binary64 := ⟨0, 0⟩
    let b : Complex Binary64 := ⟨6e-10, 0⟩
    let c : Complex Binary64 := ⟨12e-10, -1⟩
    (∀ z ∈ [a, b, c], z.isFinite = true) ∧
      Solver.sort? [b, a, c] = some [b, a, c] ∧ b.compare c = .gt ∧
      Solver.sort? [a, b, c] = some [a, c, b] ∧ a.compare c ≠ .eq := by
  decide +kernel

/-- More than twenty roots may have no sorted list: here eighteen real numbers come before three that
are less than one another in a circle. -/
example :
    let zs : List (Complex Binary64) :=
      (List.range 18).map (fun k ↦ ⟨(k + 1 : ℕ), 0⟩) ++ [⟨0, 1⟩, ⟨12e-10, -1⟩, ⟨6e-10, 0⟩]
    (∀ z ∈ zs, z.isFinite = true) ∧ Solver.sort? zs = none := by
  decide +kernel

end Complex

end ZPlane
