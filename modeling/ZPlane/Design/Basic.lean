import ZPlane.Design.Error
import ZPlane.Design.Listing
import ZPlane.Response

/-!
# Filter designs

A design is the zeros and poles of a filter as the user wrote them, with the options of its
response. The polynomials and the response are those of any scalars; texts are read as binary64.
Every operation gives a new design; one that fails gives the error alone.
-/

namespace ZPlane

/-- The options of a response. -/
structure Options (α : Type) where
  /-- The number of points on the circle; the response has `resolution / 2 + 1` of them. -/
  resolution : Nat
  /-- Scales every magnitude by its modulus. -/
  gain : Root α
  /-- The real part is the frequency at the end of the axis. -/
  frequency : Root α
deriving DecidableEq

namespace Options

/-- The options of a new design. -/
def standard : Options Binary64 := ⟨256, .parse "1", .parse "pi"⟩

/-- Checks the resolution, the gain and the frequency, in this order. -/
def validate {α : Type} (o : Options α) : Except DesignError Unit :=
  match Fourier.checkSize o.resolution with
  | .error e => .error (.transform e)
  | .ok () =>
    match o.gain.error with
    | some reason => .error (.gain reason)
    | none =>
      match o.frequency.error with
      | some reason => .error (.frequency reason)
      | none => .ok ()

/-- Equality up to numerical equality of the values. -/
def agrees (o p : Options Binary64) : Bool :=
  o.resolution = p.resolution && o.gain.agrees p.gain && o.frequency.agrees p.frequency

end Options

/-- A filter by its zeros and poles, with the options of its response. -/
structure Design (α : Type) where
  zeros : List (Root α)
  poles : List (Root α)
  options : Options α
deriving DecidableEq

namespace Design

/-- A design with the standard options. -/
def ofRoots (zeros poles : List (Root Binary64)) : Design Binary64 := ⟨zeros, poles, .standard⟩

def empty : Design Binary64 := ofRoots [] []

variable {α : Type}

def roots (d : Design α) : RootKind → List (Root α)
  | .pole => d.poles
  | .zero => d.zeros

/-- All the roots that a design holds, with those of its options. -/
def allRoots (d : Design α) : List (Root α) :=
  d.zeros ++ d.poles ++ [d.options.gain, d.options.frequency]

/-- Changes the roots of one kind. -/
def modifyRoots (d : Design α) (kind : RootKind) (f : List (Root α) → List (Root α)) : Design α :=
  match kind with
  | .pole => { d with poles := f d.poles }
  | .zero => { d with zeros := f d.zeros }

/-- Adds a root at the end. -/
def push (d : Design α) (kind : RootKind) (r : Root α) : Design α :=
  d.modifyRoots kind (· ++ [r])

def values (d : Design α) (kind : RootKind) : List (Complex α) := (d.roots kind).map Root.value

/-- The roots as a listing, zeros first. -/
def toListing (d : Design α) : String :=
  Listing.render ([RootKind.zero, .pole].map fun kind ↦ ⟨kind.label, d.roots kind⟩)

/-- Gives the root at an index a new value, and with it the text of the value. -/
def move (d : Design Binary64) (kind : RootKind) (index : Nat) (z : Complex Binary64) :
    Except DesignError (Design Binary64) :=
  let count := (d.roots kind).length
  if index < count then .ok (d.modifyRoots kind (·.set index (.ofValue z)))
  else .error (.outOfRange kind index count)

/-- Adds the entries of a listing, each to the kind that its label names. -/
def addEntries (d : Design α) : List (Entry α) → Except DesignError (Design α)
  | [] => .ok d
  | e :: es =>
    match RootKind.ofLabel? e.label with
    | some kind => addEntries (d.modifyRoots kind (· ++ e.roots)) es
    | none => .error (.unknownSection e.label)

/-- The design with the roots of a listing; lists of one kind are joined. -/
def ofListing (text : String) : Except DesignError (Design Binary64) :=
  match Listing.parse text with
  | .error e => .error (.parse e)
  | .ok es => empty.addEntries es

/-- Lists of equal length whose roots agree one by one. -/
def rootsAgree (rs ss : List (Root Binary64)) : Bool :=
  rs.length = ss.length && (rs.zip ss).all fun (r, s) ↦ r.agrees s

/-- Equality up to numerical equality of the values. -/
def agrees (d e : Design Binary64) : Bool :=
  rootsAgree d.zeros e.zeros && rootsAgree d.poles e.poles && d.options.agrees e.options

/-! ### The response -/

section Response

variable [Zero α] [One α] [Add α] [Sub α] [Mul α] [Div α] [Neg α] [NatCast α]
  [LT α] [DecidableLT α] [LE α] [DecidableLE α] [Scalar α]

/-- The monic polynomial with the zeros and their conjugates as roots. -/
def numerator (d : Design α) : Polynomial (Complex α) := Response.characteristic (d.values .zero)

/-- The monic polynomial with the poles and their conjugates as roots. -/
def denominator (d : Design α) : Polynomial (Complex α) := Response.characteristic (d.values .pole)

/-- The magnitude response, if the options are valid and the polynomials fit the resolution. -/
def response (table : Array α) (d : Design α) : Except DesignError (Response α) :=
  match d.options.validate with
  | .error e => .error e
  | .ok () =>
    let o := d.options
    (Response.ofRoots table (d.values .zero) (d.values .pole) o.gain.value o.resolution
      o.frequency.value.re).mapError .transform

end Response

end Design

end ZPlane
