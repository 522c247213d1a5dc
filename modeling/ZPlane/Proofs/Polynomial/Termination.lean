import Mathlib
import ZPlane.Proofs.Number.Exact
import ZPlane.Proofs.Polynomial.Trial

/-!
# Trials end

A trial takes a number of steps in any case.  After them it goes on only while each step is shorter
than a fixed part of the one before, so the steps shrink geometrically, and before long one of them
is shorter than the tolerance: the trial ends, whatever the polynomial and the starting point are
(`trial_terminates`).  Before that it may leave the numbers or stop to shrink, which ends it too.
-/

namespace ZPlane

namespace Solver

/-! ### Enough passes -/

section Passes

variable {α : Type} [Zero α] [One α] [Add α] [Sub α] [Mul α] [Div α] [NatCast α]
  [LT α] [DecidableLT α] [Scalar α] {s : Solver α} {p : Polynomial (Complex α)}
  {n : ℕ} {x : Complex α} {previous : Option α} {shrinking : Bool}

/-- The iteration ends after finitely many passes. -/
def Ends (s : Solver α) (p : Polynomial (Complex α)) (n : ℕ) (x : Complex α)
    (previous : Option α) (shrinking : Bool) : Prop :=
  ∃ fuel, s.iterate p fuel n x previous shrinking ≠ .unfinished

/-- An iteration that does not shrink ends behind the least number of passes. -/
theorem ends_of_stalled (p : Polynomial (Complex α)) (x : Complex α) (previous : Option α)
    (hn : s.minIterations ≤ n) : s.Ends p n x previous false := by
  have hstop : ¬ (n < s.minIterations ∨ false = true) := by simpa using hn
  exact ⟨1, fun h ↦ by cases (iterate_of_stalled hstop 0).symm.trans h⟩

/-- An iteration ends if it does after each step that is not accepted. -/
theorem ends_of_step (h : ∀ y, y.isFinite = true → ¬ (x - y).norm < s.tolerance →
      s.Ends p (n + 1) y (some (x - y).norm) (s.shrinks previous (x - y).norm)) :
    s.Ends p n x previous shrinking := by
  rcases s.pass_cases p n x previous shrinking with habandoned | ⟨y, -, hfinite, hpass⟩
  · exact ⟨1, fun h ↦ by cases (habandoned 0).symm.trans h⟩
  · rcases hpass with ⟨-, hconverged⟩ | ⟨hlong, hstep⟩
    · exact ⟨1, fun h ↦ by cases (hconverged 0).symm.trans h⟩
    · obtain ⟨fuel, hfuel⟩ := h y hfinite hlong
      exact ⟨fuel + 1, by rwa [hstep]⟩

end Passes

/-! ### Exact steps -/

section Exact

variable {s : Solver Exact} {p : Polynomial (Complex Exact)} {x : Complex Exact} {n : ℕ}
  {length step : Exact} {shrinking : Bool} {tolerance ratio : ℝ}

/-- Where steps shrink, both lengths are numbers and their ratio is below the limit. -/
theorem exists_of_shrinks (h : s.shrinks (some length) step = true) :
    ∃ l' l r, step = .number l' ∧ length = .number l ∧ s.stallRatio = .number r ∧ l ≠ 0 ∧
      l' / l < r :=
  Exact.exists_of_div_lt (of_decide_eq_true h)

/-- Steps shrink if each is shorter than the one before by the ratio. -/
theorem lt_of_shrinks (hlength : 0 < length) (h : s.shrinks (some length) step = true) :
    step < s.stallRatio * length := by
  obtain ⟨l', l, r, rfl, rfl, hr, -, hlt⟩ := exists_of_shrinks h
  have hl : 0 < l := Exact.number_lt_number.mp hlength
  rw [hr]
  exact Exact.number_lt_number.mpr ((div_lt_iff₀ hl).mp hlt)

/-- The settings are a positive tolerance and a ratio below one. -/
structure Settled (s : Solver Exact) (tolerance ratio : ℝ) : Prop where
  tolerance_eq : s.tolerance = .number tolerance
  ratio_eq : s.stallRatio = .number ratio
  pos : 0 < tolerance
  lt_one : ratio < 1

namespace Settled

/-- What is not accepted is at least as long as the tolerance. -/
theorem le_of_not_lt (h : s.Settled tolerance ratio) {l : ℝ}
    (hlong : ¬ .number l < s.tolerance) : tolerance ≤ l := by
  rwa [h.tolerance_eq, Exact.number_lt_number, not_lt] at hlong

/-- After the minimum a step ends the iteration unless it reduces the length by the ratio. -/
theorem ends_of_reduced (h : s.Settled tolerance ratio) (hn : s.minIterations ≤ n)
    (hlength : ∀ l, length = .number l → 0 < l)
    (hreduced : ∀ y l l', length = .number l → tolerance ≤ l' → l' < ratio * l →
      s.Ends p (n + 1) y (some (.number l')) true) :
    s.Ends p n x (some length) shrinking := by
  refine ends_of_step fun y _ hlong ↦ ?_
  cases hshrinks : s.shrinks (some length) (x - y).norm with
  | false => exact ends_of_stalled p y _ (Nat.le_succ_of_le hn)
  | true =>
      obtain ⟨l', l, r, hl', hl, hr, -, hlt⟩ := exists_of_shrinks hshrinks
      cases hr.symm.trans h.ratio_eq
      rw [hl'] at hlong ⊢
      exact hreduced y l l' hl (h.le_of_not_lt hlong) ((div_lt_iff₀ (hlength l hl)).mp hlt)

/-- The length is reduced at most `m` times before it would be shorter than the tolerance. -/
theorem ends_of_pow_le (h : s.Settled tolerance ratio) (hn : s.minIterations ≤ n) {l : ℝ}
    (hl : 0 < l) {m : ℕ} (hshort : l * ratio ^ m ≤ tolerance) :
    s.Ends p n x (some (.number l)) shrinking := by
  induction m generalizing n x l shrinking with
  | zero =>
      refine h.ends_of_reduced hn (fun l' hl' ↦ Exact.number.inj hl' ▸ hl)
        fun y l₁ l' hl₁ hle hlt ↦ ?_
      cases hl₁
      -- A length within the tolerance cannot be reduced to one that is not accepted.
      rw [pow_zero, mul_one] at hshort
      have hless : ratio * l < l := mul_lt_of_lt_one_left hl h.lt_one
      exact absurd (hshort.trans hle) (hlt.trans hless).not_ge
  | succ m ih =>
      refine h.ends_of_reduced hn (fun l' hl' ↦ Exact.number.inj hl' ▸ hl)
        fun y l₁ l' hl₁ hle hlt ↦ ?_
      cases hl₁
      have hl' : 0 < l' := h.pos.trans_le hle
      -- A step that is reduced and has a length shows that the ratio is positive.
      have hratio : 0 < ratio := (mul_pos_iff_of_pos_right hl).mp (hl'.trans hlt)
      refine ih (Nat.le_succ_of_le hn) hl' ?_
      calc l' * ratio ^ m ≤ ratio * l * ratio ^ m := by gcongr
        _ = l * ratio ^ (m + 1) := by ring
        _ ≤ tolerance := hshort

/-- Whatever the ratio is, some power of it is small enough. -/
theorem exists_pow_le (h : s.Settled tolerance ratio) {l : ℝ} (hl : 0 < l) :
    ∃ m, l * ratio ^ m ≤ tolerance := by
  rcases lt_or_ge ratio 0 with hneg | hnonneg
  · refine ⟨1, ?_⟩
    rw [pow_one]
    exact ((mul_neg_of_pos_of_neg hl hneg).trans h.pos).le
  · obtain ⟨m, hm⟩ := exists_pow_lt_of_lt_one (div_pos h.pos hl) h.lt_one
    refine ⟨m, ?_⟩
    rw [mul_comm]
    exact ((lt_div_iff₀ hl).mp hm).le

/-- An iteration past the least number of passes ends, for its steps shrink below the tolerance. -/
theorem ends_after_minimum (h : s.Settled tolerance ratio) (hn : s.minIterations ≤ n)
    (hlength : ∀ l, length = .number l → 0 < l) : s.Ends p n x (some length) shrinking := by
  cases length with
  | undefined => exact h.ends_of_reduced hn hlength fun y l l' hl ↦ (by cases hl)
  | number l =>
      obtain ⟨m, hm⟩ := h.exists_pow_le (hlength l rfl)
      exact h.ends_of_pow_le hn (hlength l rfl) hm

/-- The steps before the minimum come to an end as well. -/
theorem ends_of_step_before (h : s.Settled tolerance ratio)
    (hlength : ∀ l, length = .number l → 0 < l) {k : ℕ} (hn : s.minIterations ≤ n + k) :
    s.Ends p n x (some length) shrinking := by
  induction k generalizing n x length shrinking with
  | zero => exact h.ends_after_minimum hn hlength
  | succ k ih =>
      refine ends_of_step fun y _ hlong ↦ ih (fun l hl ↦ ?_) (by omega)
      rw [hl] at hlong
      exact h.pos.trans_le (h.le_of_not_lt hlong)

end Settled

/-- With a positive tolerance and a ratio below one every trial ends.  After the minimum it is given
up unless each step is shorter than the one before by the ratio, and finitely many passes are enough
for it to be given up or to find a root. -/
theorem trial_terminates (s : Solver Exact) (p : Polynomial (Complex Exact)) (x : Complex Exact)
    (htolerance : 0 < s.tolerance) (hratio : s.stallRatio < 1) :
    (∀ fuel n y length step, s.minIterations ≤ n → 0 < length → ¬ step < s.stallRatio * length →
      s.iterate p (fuel + 1) n y (some step) (s.shrinks (some length) step) = .abandoned) ∧
    ∃ limit t, (t = .abandoned ∨ ∃ r n, t = .converged r n) ∧
      ∀ fuel, limit ≤ fuel → s.trial fuel p x = t := by
  obtain ⟨tolerance, htolerance, hpos⟩ := Exact.exists_of_zero_lt htolerance
  obtain ⟨ratio, hratio, hone⟩ := Exact.exists_of_lt_one hratio
  have hsettled : s.Settled tolerance ratio := ⟨htolerance, hratio, hpos, hone⟩
  refine ⟨fun fuel n y length step hn hlength hlong ↦ ?_, ?_⟩
  · rw [iterate, if_neg]
    rintro (hbefore | hshrinks)
    · exact hn.not_gt hbefore
    · exact hlong (lt_of_shrinks hlength hshrinks)
  · have hends : s.Ends p 0 x none (decide (1 < s.stallRatio)) :=
      ends_of_step fun y _ hlong ↦ hsettled.ends_of_step_before (fun l hl ↦ by
        rw [hl] at hlong
        exact hpos.trans_le (hsettled.le_of_not_lt hlong)) (Nat.le_add_left _ _)
    obtain ⟨limit, hlimit⟩ := hends
    refine ⟨limit, s.trial limit p x, ?_, fun fuel hfuel ↦ iterate_eq_of_le hlimit hfuel⟩
    cases htrial : s.trial limit p x with
    | converged r n => exact .inr ⟨r, n, rfl⟩
    | abandoned => exact .inl rfl
    | unfinished => exact absurd htrial hlimit

/-- The standard settings, for a polynomial without real roots and a starting point on the axis. -/
theorem trial_terminates_standard :
    let s : Solver Exact := ⟨.number 1e-10, 100, 10, .number 0.95⟩
    let p : Polynomial (Complex Exact) := ⟨[1, 0, 1]⟩
    0 < s.tolerance ∧ s.stallRatio < 1 ∧
      ∃ limit t, (t = .abandoned ∨ ∃ r n, t = .converged r n) ∧
        ∀ fuel, limit ≤ fuel → s.trial fuel p ⟨1, 0⟩ = t := by
  intro s p
  have htolerance : 0 < s.tolerance := Exact.number_lt_number.mpr (by norm_num)
  have hratio : s.stallRatio < 1 := Exact.number_lt_number.mpr (by norm_num)
  exact ⟨htolerance, hratio, (trial_terminates s p ⟨1, 0⟩ htolerance hratio).2⟩

end Exact

end Solver

end ZPlane
