import Mathlib
import ZPlane.Proofs.Polynomial.Extraction
import ZPlane.Proofs.Sorting.Order

/-!
# How a search for all roots ends

A search returns, for each root, the outcome of the first trial to converge, and the next search
begins where the draws of that trial end (`Finds`).  It gives up where all trials for one root fail
(`Exhausts`).  There is no other way for it to end, whatever the scalars are: of a polynomial that is
not zero it finds as many roots as its degree, all of them finite, or it does not converge
(`findRoots_outcome`).  The roots that are found can be sorted if they are few or if their comparison
is consistent.
-/

open scoped List

namespace ZPlane

namespace Solver

variable {α : Type} [Zero α] [One α] [Add α] [Sub α] [Mul α] [Div α] [NatCast α]
  [LT α] [DecidableLT α] [Scalar α] {s : Solver α} {p : Polynomial (Complex α)} {draws : ℕ → α}
  {trials i j k : ℕ} {r r' : Complex α} {rs : List (Complex α)}

/-! ### Trials -/

/-- The trial that starts from the four draws after the `k`th ends with a root. -/
def Converges (s : Solver α) (p : Polynomial (Complex α)) (draws : ℕ → α) (k : ℕ)
    (r : Complex α) : Prop :=
  ∃ iterations, s.trial passLimit p (trialPoint draws k) = .converged r iterations

/-- A trial ends with one root at most. -/
theorem Converges.unique (h : s.Converges p draws k r) (h' : s.Converges p draws k r') : r = r' := by
  obtain ⟨n, hn⟩ := h
  obtain ⟨n', hn'⟩ := h'
  cases hn.symm.trans hn'
  rfl

theorem Converges.isFinite (h : s.Converges p draws k r) : r.isFinite = true := by
  obtain ⟨n, hn⟩ := h
  obtain ⟨-, -, hfinite, -⟩ := exists_step_of_iterate hn
  exact hfinite

/-! ### One root -/

/-- Of the trials after the `k`th draw, `i` fail and the next one converges. -/
structure FirstConverges (s : Solver α) (p : Polynomial (Complex α)) (draws : ℕ → α)
    (trials k i : ℕ) (r : Complex α) : Prop where
  lt : i < trials
  converges : s.Converges p draws (k + 4 * i) r
  earlier : ∀ j < i, ∀ r', ¬ s.Converges p draws (k + 4 * j) r'

/-- None of the trials after the `k`th draw converges. -/
def AllFail (s : Solver α) (p : Polynomial (Complex α)) (draws : ℕ → α) (trials k : ℕ) : Prop :=
  ∀ i < trials, ∀ r, ¬ s.Converges p draws (k + 4 * i) r

theorem FirstConverges.not_allFail (h : s.FirstConverges p draws trials k i r) :
    ¬ s.AllFail p draws trials k :=
  fun hfail ↦ hfail i h.lt r h.converges

/-- There is one first trial to converge at most. -/
theorem FirstConverges.unique (h : s.FirstConverges p draws trials k i r)
    (h' : s.FirstConverges p draws trials k j r') : i = j ∧ r = r' := by
  obtain rfl : i = j := by
    rcases lt_trichotomy i j with hij | hij | hij
    · exact absurd h.converges (h'.earlier i hij r)
    · exact hij
    · exact absurd h'.converges (h.earlier j hij r')
  exact ⟨rfl, h.converges.unique h'.converges⟩

/-- A trial that fails stands before the others, which start four draws later. -/
theorem FirstConverges.succ (h : s.FirstConverges p draws trials (k + 4) i r)
    (hfail : ∀ r', ¬ s.Converges p draws k r') :
    s.FirstConverges p draws (trials + 1) k (i + 1) r where
  lt := Nat.succ_lt_succ h.lt
  converges := by
    have hdraw : k + 4 * (i + 1) = k + 4 + 4 * i := by ring
    exact hdraw ▸ h.converges
  earlier j hj := by
    cases j with
    | zero => exact hfail
    | succ j =>
        have hdraw : k + 4 * (j + 1) = k + 4 + 4 * j := by ring
        exact hdraw ▸ h.earlier j (Nat.lt_of_succ_lt_succ hj)

/-- All trials fail if the first does and the others do. -/
theorem AllFail.succ (h : s.AllFail p draws trials (k + 4))
    (hfail : ∀ r', ¬ s.Converges p draws k r') : s.AllFail p draws (trials + 1) k := by
  intro i hi
  cases i with
  | zero => exact hfail
  | succ i =>
      have hdraw : k + 4 * (i + 1) = k + 4 + 4 * i := by ring
      exact hdraw ▸ h i (Nat.lt_of_succ_lt_succ hi)

/-- The search gives the root of the first trial that converges, or all trials fail. -/
theorem firstRoot_cases (s : Solver α) (p : Polynomial (Complex α)) (draws : ℕ → α)
    (trials k : ℕ) :
    (∃ i r, s.FirstConverges p draws trials k i r ∧
      s.firstRoot p draws trials k = some (r, k + 4 * (i + 1))) ∨
    s.AllFail p draws trials k ∧ s.firstRoot p draws trials k = none := by
  induction trials generalizing k with
  | zero => exact .inr ⟨fun i hi ↦ absurd hi (Nat.not_lt_zero i), rfl⟩
  | succ trials ih =>
      rw [firstRoot]
      split
      · rename_i r n hn
        exact .inl ⟨0, r, ⟨Nat.succ_pos trials, ⟨n, hn⟩, fun j hj ↦ absurd hj (Nat.not_lt_zero j)⟩,
          rfl⟩
      · rename_i hother
        have hfail : ∀ r', ¬ s.Converges p draws k r' := fun r' hr' ↦ hr'.elim (hother r')
        rcases ih (k + 4) with ⟨i, r, hfirst, hfound⟩ | ⟨hall, hnone⟩
        · have hdraw : k + 4 * (i + 1 + 1) = k + 4 + 4 * (i + 1) := by ring
          exact .inl ⟨i + 1, r, hfirst.succ hfail, hdraw ▸ hfound⟩
        · exact .inr ⟨hall.succ hfail, hnone⟩

/-- A polynomial with more than one coefficient is not constant. -/
theorem findRoot_cases (s : Solver α) (draws : ℕ → α) (k : ℕ) (hp : 1 < p.coeffs.length) :
    (∃ i r, s.FirstConverges p draws s.maxTrials k i r ∧
      s.findRoot p draws k = .ok (r, k + 4 * (i + 1))) ∨
    s.AllFail p draws s.maxTrials k ∧
      s.findRoot p draws k = .error (.nonConvergence s.maxTrials) := by
  have hdegree : p.degree ≠ 0 := (Nat.sub_pos_of_lt hp).ne'
  rw [findRoot, if_neg hdegree]
  rcases s.firstRoot_cases p draws s.maxTrials k with ⟨i, r, hfirst, hfound⟩ | ⟨hall, hnone⟩
  · exact .inl ⟨i, r, hfirst, by rw [hfound]⟩
  · exact .inr ⟨hall, by rw [hnone]⟩

/-! ### All roots -/

/-- The roots that are found one after another, each by the first trial to converge from where the
draws stand, and each divided out before the next. -/
inductive Finds (s : Solver α) (draws : ℕ → α) :
    Polynomial (Complex α) → (k : ℕ) → List (Complex α) → Prop
  | constant {p : Polynomial (Complex α)} {k : ℕ} (hp : p.coeffs.length ≤ 1) : Finds s draws p k []
  | root {p : Polynomial (Complex α)} {k i : ℕ} {r : Complex α} {rs : List (Complex α)}
      (hp : 1 < p.coeffs.length) (hfirst : s.FirstConverges p draws s.maxTrials k i r)
      (hrest : Finds s draws (p.deflate r) (k + 4 * (i + 1)) rs) : Finds s draws p k (r :: rs)

/-- After some roots are found, all trials for the next one fail. -/
inductive Exhausts (s : Solver α) (draws : ℕ → α) : Polynomial (Complex α) → (k : ℕ) → Prop
  | here {p : Polynomial (Complex α)} {k : ℕ} (hp : 1 < p.coeffs.length)
      (hall : s.AllFail p draws s.maxTrials k) : Exhausts s draws p k
  | later {p : Polynomial (Complex α)} {k i : ℕ} {r : Complex α} (hp : 1 < p.coeffs.length)
      (hfirst : s.FirstConverges p draws s.maxTrials k i r)
      (hrest : Exhausts s draws (p.deflate r) (k + 4 * (i + 1))) : Exhausts s draws p k

namespace Finds

/-- A search that finds all roots does not run out of trials. -/
theorem not_exhausts (h : s.Finds draws p k rs) : ¬ s.Exhausts draws p k := by
  induction h with
  | constant hp =>
      intro hexhausts
      cases hexhausts with
      | here hp' => exact absurd hp hp'.not_ge
      | later hp' => exact absurd hp hp'.not_ge
  | root hp hfirst hrest ih =>
      intro hexhausts
      cases hexhausts with
      | here _ hall => exact hfirst.not_allFail hall
      | later _ hfirst' hrest' =>
          obtain ⟨rfl, rfl⟩ := hfirst.unique hfirst'
          exact ih hrest'

theorem length_eq (h : s.Finds draws p k rs) : rs.length = p.degree := by
  induction h with
  | constant hp => exact (Nat.sub_eq_zero_of_le hp).symm
  | root hp hfirst hrest ih =>
      rw [List.length_cons, ih, Polynomial.degree, Polynomial.degree, Polynomial.length_deflate]
      exact Nat.sub_add_cancel (Nat.le_sub_one_of_lt hp)

theorem isFinite (h : s.Finds draws p k rs) : ∀ r ∈ rs, r.isFinite = true := by
  induction h with
  | constant hp => exact fun r hr ↦ absurd hr List.not_mem_nil
  | root hp hfirst hrest ih => exact List.forall_mem_cons.mpr ⟨hfirst.converges.isFinite, ih⟩

end Finds

/-- The extraction finds all roots, or fails for want of trials. -/
theorem extract_cases (s : Solver α) (draws : ℕ → α) {n : ℕ} (k : ℕ)
    (hn : p.coeffs.length = n + 1) :
    (∃ rs, s.Finds draws p k rs ∧ s.extract draws n p k = .ok rs) ∨
    s.Exhausts draws p k ∧ s.extract draws n p k = .error (.nonConvergence s.maxTrials) := by
  induction n generalizing p k with
  | zero => exact .inl ⟨[], .constant hn.le, rfl⟩
  | succ n ih =>
      have hp : 1 < p.coeffs.length := by omega
      rw [extract]
      rcases s.findRoot_cases draws k hp with ⟨i, r, hfirst, hfound⟩ | ⟨hall, herror⟩
      · have hrest : (p.deflate r).coeffs.length = n + 1 := by
          rw [Polynomial.length_deflate, hn, Nat.add_sub_cancel]
        rw [hfound]
        dsimp only
        rcases ih (k + 4 * (i + 1)) hrest with ⟨rs, hfinds, hrs⟩ | ⟨hexhausts, herror⟩
        · exact .inl ⟨r :: rs, .root hp hfirst hfinds, by rw [hrs]⟩
        · exact .inr ⟨.later hp hfirst hexhausts, by rw [herror]⟩
      · exact .inr ⟨.here hp hall, by rw [herror]⟩

variable [Neg α] [LE α] [DecidableLE α]

/-- The search finds all roots of the trimmed polynomial and sorts them, or fails for want of
trials. -/
theorem findRoots_of_trim? (s : Solver α) (draws : ℕ → α) {q : Polynomial (Complex α)}
    (h : p.trim? Complex.isOrigin = some q) :
    (∃ rs, s.Finds draws q 0 rs ∧ s.findRoots p draws = .ok (sort? rs)) ∨
    s.Exhausts draws q 0 ∧ s.findRoots p draws = .error (.nonConvergence s.maxTrials) := by
  rw [findRoots, h]
  dsimp only
  rcases s.extract_cases draws 0 (Polynomial.length_of_trim? h) with ⟨rs, hfinds, hrs⟩ | ⟨hexhausts, herror⟩
  · exact .inl ⟨rs, hfinds, by rw [hrs]⟩
  · exact .inr ⟨hexhausts, by rw [herror]⟩

/-- The input is refused exactly if all coefficients are zero. -/
theorem findRoots_eq_invalidInput_iff (s : Solver α) (p : Polynomial (Complex α)) (draws : ℕ → α) :
    (∃ reason, s.findRoots p draws = .error (.invalidInput reason)) ↔
      ∀ c ∈ p.coeffs, c.isOrigin = true := by
  cases htrim : p.trim? Complex.isOrigin with
  | none =>
      refine iff_of_true ⟨_, by rw [findRoots, htrim]; rfl⟩ ?_
      exact Polynomial.trim?_eq_none_iff.mp htrim
  | some q =>
      refine iff_of_false ?_ fun hzero ↦ ?_
      · rintro ⟨reason, hreason⟩
        rcases s.findRoots_of_trim? draws htrim with ⟨rs, -, hrs⟩ | ⟨-, herror⟩
        · cases hrs.symm.trans hreason
        · cases herror.symm.trans hreason
      · rw [Polynomial.trim?_eq_none_iff.mpr hzero] at htrim
        cases htrim

/-- A search fails at once if and only if no coefficient is different from zero.  Otherwise it does
not converge if and only if all trials for some root fail, and else it finds as many finite roots as
the degree, by the first trials to converge.  They are sorted if there are at most twenty of them, or
if they can be told apart consistently. -/
theorem findRoots_outcome (s : Solver α) (p : Polynomial (Complex α)) (draws : ℕ → α) :
    ((∃ reason, s.findRoots p draws = .error (.invalidInput reason)) ↔
      ∀ c ∈ p.coeffs, c.isOrigin = true) ∧
    ∀ q, p.trim? Complex.isOrigin = some q →
      (s.findRoots p draws = .error (.nonConvergence s.maxTrials) ↔ s.Exhausts draws q 0) ∧
      (¬ s.Exhausts draws q 0 → ∃ rs, s.Finds draws q 0 rs ∧ s.findRoots p draws = .ok (sort? rs) ∧
        rs.length = q.degree ∧ (∀ r ∈ rs, r.isFinite = true) ∧
        (q.degree ≤ 20 ∨ Sorting.Consistent (fun z w ↦ (z.compare w).isLT) rs →
          ∃ roots, s.findRoots p draws = .ok (some roots) ∧ roots ~ rs)) := by
  refine ⟨s.findRoots_eq_invalidInput_iff p draws, fun q hq ↦ ?_⟩
  rcases s.findRoots_of_trim? draws hq with ⟨rs, hfinds, hrs⟩ | ⟨hexhausts, herror⟩
  · refine ⟨iff_of_false ?_ hfinds.not_exhausts, fun _ ↦ ⟨rs, hfinds, hrs, hfinds.length_eq,
      hfinds.isFinite, fun hsort ↦ ?_⟩⟩
    · intro herror
      cases hrs.symm.trans herror
    · have hroots : ∃ roots, sort? rs = some roots := by
        rcases hsort with hfew | hconsistent
        · exact Sorting.exists_sort?_of_length_le _ (hfinds.length_eq.trans_le hfew)
        · obtain ⟨roots, hroots, -⟩ := Sorting.exists_sort? hconsistent
          exact ⟨roots, hroots⟩
      obtain ⟨roots, hroots⟩ := hroots
      exact ⟨roots, by rw [hrs, hroots], Sorting.sort?_perm _ hroots⟩
  · exact ⟨iff_of_true herror hexhausts, fun hnot ↦ absurd hexhausts hnot⟩

end Solver

end ZPlane
