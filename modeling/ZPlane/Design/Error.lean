import ZPlane.Fourier.Transform
import ZPlane.Parsing.Error
import ZPlane.Polynomial.Solver
import ZPlane.Text.Quoted

/-!
# Design errors

What can go wrong with a design, by cause. The message of a cause begins with its category.
-/

namespace ZPlane

/-- The two kinds of roots. -/
inductive RootKind where
  | pole | zero
deriving DecidableEq

namespace RootKind

/-- The label of its section in a listing. -/
def label : RootKind → String
  | pole => "poles"
  | zero => "zeros"

def ofLabel? (s : String) : Option RootKind := [pole, zero].find? fun k ↦ k.label = s

end RootKind

/-- What went wrong. -/
inductive DesignError where
  | parse (e : Parsing.ParseError)
  | solver (e : SolverError)
  | transform (e : TransformError)
  /-- The text of the gain is no expression. -/
  | gain (reason : String)
  /-- The text of the frequency is no expression. -/
  | frequency (reason : String)
  | unknownSection (label : String)
  | outOfRange (kind : RootKind) (index count : Nat)
deriving DecidableEq

namespace DesignError

inductive Category where
  | invalidInput | convergenceFailure | numericalError
deriving DecidableEq

def Category.text : Category → String
  | invalidInput => "invalid input"
  | convergenceFailure => "convergence failure"
  | numericalError => "numerical error"

def category : DesignError → Category
  | solver (.nonConvergence _) => .convergenceFailure
  | transform _ => .numericalError
  | _ => .invalidInput

def detail : DesignError → String
  | parse e => e.description
  | solver e => e.message
  | transform e => e.message
  | gain reason => "gain: " ++ reason
  | frequency reason => "frequency: " ++ reason
  | unknownSection label =>
    "unknown section " ++ Text.quoted label ++ ", expected \"poles\" or \"zeros\""
  | outOfRange kind index count =>
    kind.label ++ " index " ++ toString index ++ " out of range (" ++ toString count ++ " entries)"

def message (e : DesignError) : String := e.category.text ++ ": " ++ e.detail

end DesignError

end ZPlane
