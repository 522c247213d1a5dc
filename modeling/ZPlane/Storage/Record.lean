import ZPlane.Design.Basic
import ZPlane.Storage.Datum

/-!
# Stored records

The fields under which numbers, polynomials, solvers, roots, designs and responses are stored.
-/

namespace ZPlane

namespace Storage

open Datum (required? missing?)

instance : Storable (Complex Binary64) where
  toDatum z := .record [("real", toDatum z.re), ("imag", toDatum z.im)]
  ofDatum? d :=
    match d.fields? ["real", "imag"] with
    | some [re, im] => do some ⟨← required? re, ← required? im⟩
    | _ => none

instance : Storable Polar where
  toDatum p := .record [("modulus", toDatum p.modulus), ("argument", toDatum p.argument)]
  ofDatum? d :=
    match d.fields? ["modulus", "argument"] with
    | some [modulus, argument] => do some ⟨← required? modulus, ← required? argument⟩
    | _ => none

instance : Storable (Polynomial (Complex Binary64)) where
  toDatum p := .record [("coeffs", toDatum p.coeffs)]
  ofDatum? d :=
    match d.fields? ["coeffs"] with
    | some [coeffs] => do some ⟨← required? coeffs⟩
    | _ => none

instance : Storable (Solver Binary64) where
  toDatum s :=
    .record [("tolerance", toDatum s.tolerance), ("max_trials", toDatum s.maxTrials),
      ("min_iterations", toDatum s.minIterations), ("stall_ratio", toDatum s.stallRatio)]
  ofDatum? d :=
    match d.fields? ["tolerance", "max_trials", "min_iterations", "stall_ratio"] with
    | some [tolerance, trials, iterations, ratio] => do
      some ⟨← required? tolerance, ← required? trials, ← required? iterations, ← required? ratio⟩
    | _ => none

instance : Storable (Root Binary64) where
  toDatum r :=
    .record [("repr", toDatum r.text), ("value", toDatum r.value), ("error", toDatum r.error)]
  ofDatum? d :=
    match d.fields? ["repr", "value", "error"] with
    | some [text, value, error] => do
      some ⟨← required? text, ← required? value, ← missing? error⟩
    | _ => none

/-- The name of a kind where it is stored. -/
def kindName : RootKind → String
  | .pole => "pole"
  | .zero => "zero"

instance : Storable RootKind where
  toDatum kind := .text (kindName kind)
  ofDatum? d := (d.variant? ["pole", "zero"]).bind fun k ↦ [RootKind.pole, .zero][k]?

instance : Storable (Options Binary64) where
  toDatum o :=
    .record [("resolution", toDatum o.resolution), ("gain", toDatum o.gain),
      ("frequency", toDatum o.frequency)]
  ofDatum? d :=
    match d.fields? ["resolution", "gain", "frequency"] with
    | some [resolution, gain, frequency] => do
      some ⟨← required? resolution, ← required? gain, ← required? frequency⟩
    | _ => none

instance : Storable (Design Binary64) where
  toDatum d :=
    .record [("zeros", toDatum d.zeros), ("poles", toDatum d.poles),
      ("options", toDatum d.options)]
  ofDatum? d :=
    match d.fields? ["zeros", "poles", "options"] with
    | some [zeros, poles, options] => do
      some ⟨← required? zeros, ← required? poles, ← required? options⟩
    | _ => none

instance : Storable (Response Binary64) where
  toDatum r :=
    .record [("magnitudes", toDatum r.magnitudes), ("frequencies", toDatum r.frequencies)]
  ofDatum? d :=
    match d.fields? ["magnitudes", "frequencies"] with
    | some [magnitudes, frequencies] => do
      some ⟨← required? magnitudes, ← required? frequencies⟩
    | _ => none

end Storage

end ZPlane
