import Mathlib
import ZPlane.Polynomial.Solver

/-!
# Passes of a trial

A pass of the iteration gives the trial up, accepts the Halley step, or goes on from it
(`pass_cases`, with a lemma for each that says when).  So what a trial finds is finite and a short
step away from an iterate (`exists_step_of_iterate`), and more fuel does not change how a trial ends
(`iterate_eq_of_le`).
-/

namespace ZPlane

namespace Solver

variable {α : Type} [Zero α] [One α] [Add α] [Sub α] [Mul α] [Div α] [NatCast α]
  [LT α] [DecidableLT α] [Scalar α] {s : Solver α} {p : Polynomial (Complex α)}
  {fuel fuel' n m : ℕ} {x r : Complex α} {previous : Option α} {shrinking : Bool}

/-- The iteration is given up if it does not shrink and has run the least number of passes. -/
theorem iterate_of_stalled (h : ¬ (n < s.minIterations ∨ shrinking = true)) (fuel : ℕ) :
    s.iterate p (fuel + 1) n x previous shrinking = .abandoned := by
  rw [iterate, if_neg h]

/-- The iteration converges at a finite point that a short step leads to. -/
theorem iterate_of_short (hgo : n < s.minIterations ∨ shrinking = true)
    (hfinite : (p.halleyStep x).isFinite = true)
    (hshort : (x - p.halleyStep x).norm < s.tolerance) (fuel : ℕ) :
    s.iterate p (fuel + 1) n x previous shrinking = .converged (p.halleyStep x) (n + 1) := by
  rw [iterate, if_pos hgo]
  dsimp only
  rw [if_pos hfinite, if_pos hshort]

/-- The iteration goes on from a finite point that a long step leads to. -/
theorem iterate_of_long (hgo : n < s.minIterations ∨ shrinking = true)
    (hfinite : (p.halleyStep x).isFinite = true)
    (hlong : ¬ (x - p.halleyStep x).norm < s.tolerance) (fuel : ℕ) :
    s.iterate p (fuel + 1) n x previous shrinking =
      s.iterate p fuel (n + 1) (p.halleyStep x) (some (x - p.halleyStep x).norm)
        (s.shrinks previous (x - p.halleyStep x).norm) := by
  rw [iterate, if_pos hgo]
  dsimp only
  rw [if_pos hfinite, if_neg hlong]

/-- A pass gives up, converges or leads on, whatever passes are left. -/
theorem pass_cases (s : Solver α) (p : Polynomial (Complex α)) (n : ℕ) (x : Complex α)
    (previous : Option α) (shrinking : Bool) :
    (∀ fuel, s.iterate p (fuel + 1) n x previous shrinking = .abandoned) ∨
    ∃ y, p.halleyStep x = y ∧ y.isFinite = true ∧
      ((x - y).norm < s.tolerance ∧
          (∀ fuel, s.iterate p (fuel + 1) n x previous shrinking = .converged y (n + 1)) ∨
        ¬ (x - y).norm < s.tolerance ∧
          ∀ fuel, s.iterate p (fuel + 1) n x previous shrinking =
            s.iterate p fuel (n + 1) y (some (x - y).norm) (s.shrinks previous (x - y).norm)) := by
  by_cases hgo : n < s.minIterations ∨ shrinking = true
  · by_cases hfinite : (p.halleyStep x).isFinite = true
    · refine .inr ⟨p.halleyStep x, rfl, hfinite, ?_⟩
      by_cases hshort : (x - p.halleyStep x).norm < s.tolerance
      · exact .inl ⟨hshort, iterate_of_short hgo hfinite hshort⟩
      · exact .inr ⟨hshort, iterate_of_long hgo hfinite hshort⟩
    · refine .inl fun fuel ↦ ?_
      rw [iterate, if_pos hgo]
      dsimp only
      rw [if_neg hfinite]
  · exact .inl (iterate_of_stalled hgo)

/-- What is accepted is finite and a Halley step away from an iterate, by less than the tolerance. -/
theorem exists_step_of_iterate
    (h : s.iterate p fuel n x previous shrinking = .converged r m) :
    ∃ y, p.halleyStep y = r ∧ r.isFinite = true ∧ (y - r).norm < s.tolerance := by
  induction fuel generalizing n x previous shrinking with
  | zero => cases h
  | succ fuel ih =>
      rcases s.pass_cases p n x previous shrinking with habandoned | ⟨y, hy, hfinite, hpass⟩
      · rw [habandoned] at h
        cases h
      · rcases hpass with ⟨hshort, hconverged⟩ | ⟨-, hstep⟩
        · rw [hconverged] at h
          cases h
          exact ⟨x, hy, hfinite, hshort⟩
        · rw [hstep] at h
          exact ih h

/-- More fuel does not change how an iteration ends. -/
theorem iterate_eq_of_le (h : s.iterate p fuel n x previous shrinking ≠ .unfinished)
    (hle : fuel ≤ fuel') :
    s.iterate p fuel' n x previous shrinking = s.iterate p fuel n x previous shrinking := by
  induction fuel generalizing fuel' n x previous shrinking with
  | zero => exact absurd rfl h
  | succ fuel ih =>
      obtain ⟨fuel', rfl⟩ := Nat.exists_eq_succ_of_ne_zero (Nat.ne_zero_of_lt hle)
      rcases s.pass_cases p n x previous shrinking with habandoned | ⟨y, -, -, hpass⟩
      · rw [habandoned, habandoned]
      · rcases hpass with ⟨-, hconverged⟩ | ⟨-, hstep⟩
        · rw [hconverged, hconverged]
        · rw [hstep] at h ⊢
          rw [hstep, ih h (Nat.le_of_succ_le_succ hle)]

end Solver

end ZPlane
