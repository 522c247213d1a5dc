import ZPlane.Design.Basic

/-!
# Edits

What a user does to a design. An edit gives a new design or an error, and a session goes on after
an error with the design as it was.
-/

namespace ZPlane

/-- A root that is added: by its text, by its value, or zero until it is changed. -/
inductive NewRoot where
  | typed (text : String)
  | placed (z : Complex Binary64)
  | blank
deriving DecidableEq

def NewRoot.root : NewRoot → Root Binary64
  | typed text => .parse text
  | placed z => .ofValue z
  | blank => default

/-- One edit of a design. -/
inductive Edit where
  /-- Starts anew with the roots of a listing. -/
  | replace (listing : String)
  /-- Starts anew with the given zeros and poles. -/
  | renew (zeros poles : List NewRoot)
  | push (kind : RootKind) (r : NewRoot)
  | move (kind : RootKind) (index : Nat) (z : Complex Binary64)
  | resolution (n : Nat)
  | gain (text : String)
  | frequency (text : String)
deriving DecidableEq

/-- Starts anew with the given texts of zeros and poles. -/
def Edit.restart (zeros poles : List String) : Edit :=
  .renew (zeros.map .typed) (poles.map .typed)

namespace Design

/-- The design after an edit. -/
def edit (d : Design Binary64) : Edit → Except DesignError (Design Binary64)
  | .replace listing => ofListing listing
  | .renew zeros poles => .ok (ofRoots (zeros.map NewRoot.root) (poles.map NewRoot.root))
  | .push kind r => .ok (d.push kind r.root)
  | .move kind index z => d.move kind index z
  | .resolution n => .ok { d with options := { d.options with resolution := n } }
  | .gain text => .ok { d with options := { d.options with gain := .parse text } }
  | .frequency text => .ok { d with options := { d.options with frequency := .parse text } }

/-- The design after an edit, which is the design before it if the edit fails. -/
def edited (d : Design Binary64) (e : Edit) : Design Binary64 :=
  match d.edit e with
  | .ok d' => d'
  | .error _ => d

/-- The design after a session of edits. -/
def session (d : Design Binary64) (es : List Edit) : Design Binary64 := es.foldl edited d

end Design

end ZPlane
