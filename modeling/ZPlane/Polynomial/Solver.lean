import ZPlane.Polynomial.Basic
import ZPlane.Sorting.Stable

/-!
# Roots of a polynomial

Halley's iteration from random starting points. A trial ends with a root when a step is short
enough, and is given up when the iterate is no longer finite or the steps stop shrinking. Found
roots are divided out one after another and sorted at the end, unless the tolerance of their order
puts them in a circle and the sort comes upon it. The random draws are a stream of scalars in
`[0, 1)`, four of them for each trial.
-/

namespace ZPlane

/-- Why no roots were found. -/
inductive SolverError where
  | nonConvergence (trials : Nat)
  | invalidInput (reason : String)
deriving DecidableEq

def SolverError.message : SolverError → String
  | .nonConvergence trials => "no convergence after " ++ toString trials ++ " restart trials"
  | .invalidInput reason => "invalid input: " ++ reason

namespace SolverError

def zeroPolynomial : SolverError := .invalidInput "zero polynomial has no finite root set"

def constantPolynomial : SolverError := .invalidInput "constant polynomial has no roots"

end SolverError

/-- The settings of the iteration. -/
structure Solver (α : Type) where
  /-- A step shorter than this ends a trial with a root. -/
  tolerance : α
  /-- Starting points tried for each root. -/
  maxTrials : Nat
  /-- Steps taken before the shrinking of the steps is looked at. -/
  minIterations : Nat
  /-- Steps go on while the ratio of each to the one before is below this. -/
  stallRatio : α
deriving DecidableEq

/-- How a trial ends. -/
inductive Trial (α : Type) where
  | converged (root : Complex α) (iterations : Nat)
  | abandoned
  | unfinished

namespace Solver

variable {α : Type}

/-- The settings used when none are given. -/
def standard [OfScientific α] : Solver α := ⟨1e-10, 100, 10, 0.95⟩

variable [Zero α] [One α] [Add α] [Sub α] [Mul α] [Div α] [NatCast α]
  [LT α] [DecidableLT α] [Scalar α]

/-- The ratio of `step` to the one before is small enough to go on. Before the first step there is
one of unbounded length, to which every finite step has the ratio zero. -/
def shrinks (s : Solver α) (previous : Option α) (step : α) : Bool :=
  match previous with
  | none => Scalar.isFinite step && decide (0 < s.stallRatio)
  | some length => decide (step / length < s.stallRatio)

/-- Halley steps from `x`, with `n` steps taken before, the last one of length `previous`. -/
def iterate (s : Solver α) (p : Polynomial (Complex α)) :
    (fuel n : Nat) → (x : Complex α) → (previous : Option α) → (shrinking : Bool) → Trial α
  | 0, _, _, _, _ => .unfinished
  | fuel + 1, n, x, previous, shrinking =>
    if n < s.minIterations ∨ shrinking then
      let y := p.halleyStep x
      if y.isFinite then
        let step := (x - y).norm
        if step < s.tolerance then .converged y (n + 1)
        else iterate s p fuel (n + 1) y (some step) (s.shrinks previous step)
      else .abandoned
    else .abandoned

/-- One trial of at most `fuel` steps. At its start the ratio of steps counts as one. -/
def trial (s : Solver α) (fuel : Nat) (p : Polynomial (Complex α)) (x : Complex α) : Trial α :=
  s.iterate p fuel 0 x none (decide (1 < s.stallRatio))

/-- A bound on the steps of a trial that is beyond any run. -/
def passLimit : Nat := 0x4000000000000000

/-- `u * 10 ^ (3 v)`, spread evenly in magnitude over three decades. -/
def spread (u v : α) : α := u * Scalar.power ((10 : Nat) : α) (((3 : Nat) : α) * v)

/-- The starting point made of the four draws from the `k`th on. -/
def trialPoint (draws : Nat → α) (k : Nat) : Complex α :=
  ⟨spread (draws k) (draws (k + 1)), spread (draws (k + 2)) (draws (k + 3))⟩

/-- The root of the first trial to converge, and where the draws stand after it. -/
def firstRoot (s : Solver α) (p : Polynomial (Complex α)) (draws : Nat → α) :
    (trials k : Nat) → Option (Complex α × Nat)
  | 0, _ => none
  | trials + 1, k =>
    match s.trial passLimit p (trialPoint draws k) with
    | .converged r _ => some (r, k + 4)
    | _ => firstRoot s p draws trials (k + 4)

/-- One root, from the draws after the `k`th. -/
def findRoot (s : Solver α) (p : Polynomial (Complex α)) (draws : Nat → α) (k : Nat) :
    Except SolverError (Complex α × Nat) :=
  if p.degree = 0 then .error .constantPolynomial
  else
    match s.firstRoot p draws s.maxTrials k with
    | some found => .ok found
    | none => .error (.nonConvergence s.maxTrials)

/-- `n` roots in the order they are found, each divided out before the next. -/
def extract (s : Solver α) (draws : Nat → α) :
    (n : Nat) → Polynomial (Complex α) → (k : Nat) → Except SolverError (List (Complex α))
  | 0, _, _ => .ok []
  | n + 1, p, k =>
    match s.findRoot p draws k with
    | .error e => .error e
    | .ok (r, k) =>
      match extract s draws n (p.deflate r) k with
      | .error e => .error e
      | .ok rs => .ok (r :: rs)

variable [Neg α] [LE α] [DecidableLE α]

/-- Ascending order; those that compare as equal keep theirs. -/
def sort? (zs : List (Complex α)) : Option (List (Complex α)) :=
  Sorting.sort? (fun z w ↦ (z.compare w).isLT) zs

/-- All roots, in ascending order if that can be found. -/
def findRoots (s : Solver α) (p : Polynomial (Complex α)) (draws : Nat → α) :
    Except SolverError (Option (List (Complex α))) :=
  match p.trim? Complex.isOrigin with
  | none => .error .zeroPolynomial
  | some p =>
    match s.extract draws p.degree p 0 with
    | .error e => .error e
    | .ok rs => .ok (sort? rs)

end Solver

end ZPlane
