import Mathlib
import ZPlane.Design.Edit
import ZPlane.Proofs.Design.RoundTrip

/-!
# Sessions

Every root of a design is written down by its text or by its value (`Root.Genuine`), and each edit
keeps this (`Genuine.edit`), for the roots of a listing are those that their texts say.  `Fails`
lists why an edit fails, and a session goes the same way without the edits that fail.
-/

namespace ZPlane

open Calculator

/-! ### Roots -/

namespace Root

variable {r : Root Binary64}

/-- The root is the one that its text says, or the one that is written for its value. -/
def Genuine (r : Root Binary64) : Prop := r = .parse r.text ∨ r = .ofValue r.value

theorem text_parse (text : String) : (Root.parse text).text = text := by
  cases h : calculate text with
  | ok z => rw [parse_of_ok h]
  | error e => rw [parse_of_error h]

/-- The root of a text is genuine. -/
theorem genuine_parse (text : String) : (Root.parse text).Genuine := by
  left
  rw [text_parse]

theorem genuine_ofValue (z : Complex Binary64) : (Root.ofValue z).Genuine := .inr rfl

theorem default_eq_parse : (default : Root Binary64) = .parse "0" := by decide +kernel

theorem Faithful.genuine (h : r.Faithful) : r.Genuine := by
  left
  rw [parse_of_ok h.value, ← h.error]

/-- A root with an error has the value zero, and the error is what is wrong with its text. -/
theorem Genuine.of_error (h : r.Genuine) {reason : String} (herror : r.error = some reason) :
    r.value = 0 ∧ ∃ e, calculate r.text = .error e ∧ e.description = reason := by
  rcases h with h | h
  · cases hparse : calculate r.text with
    | ok z =>
        rw [parse_of_ok hparse] at h
        rw [h] at herror
        cases herror
    | error e =>
        rw [parse_of_error hparse] at h
        rw [h] at herror
        exact ⟨by rw [h], e, rfl, Option.some.inj herror⟩
  · rw [h] at herror
    cases herror

end Root

/-- A new root is genuine, from a text or a value. -/
theorem NewRoot.genuine_root (r : NewRoot) : r.root.Genuine := by
  cases r with
  | typed text => exact Root.genuine_parse text
  | placed z => exact Root.genuine_ofValue z
  | blank =>
      rw [root, Root.default_eq_parse]
      exact Root.genuine_parse "0"

/-! ### Designs -/

namespace Design

variable {d d' : Design Binary64}

/-- Every root of the design is genuine. -/
structure Genuine (d : Design Binary64) : Prop where
  roots : ∀ kind, ∀ r ∈ d.roots kind, r.Genuine
  gain : d.options.gain.Genuine
  frequency : d.options.frequency.Genuine

theorem Genuine.of_mem_allRoots (h : d.Genuine) {r : Root Binary64} (hr : r ∈ d.allRoots) :
    r.Genuine := by
  rw [allRoots, List.mem_append, List.mem_append] at hr
  rcases hr with (hr | hr) | hr
  · exact h.roots .zero r hr
  · exact h.roots .pole r hr
  · rcases List.mem_pair.mp hr with rfl | rfl
    · exact h.gain
    · exact h.frequency

/-- A design stays genuine if the changed roots are. -/
theorem Genuine.modifyRoots (h : d.Genuine) {kind : RootKind}
    {f : List (Root Binary64) → List (Root Binary64)}
    (hf : ∀ r ∈ f (d.roots kind), r.Genuine) : (d.modifyRoots kind f).Genuine := by
  constructor
  · intro k r hr
    rw [roots_modifyRoots] at hr
    split at hr
    · rename_i hk
      exact hf r (hk ▸ hr)
    · exact h.roots k r hr
  · rw [modifyRoots_options]
    exact h.gain
  · rw [modifyRoots_options]
    exact h.frequency

theorem genuine_ofRoots {zeros poles : List (Root Binary64)} (hzeros : ∀ r ∈ zeros, r.Genuine)
    (hpoles : ∀ r ∈ poles, r.Genuine) : (ofRoots zeros poles).Genuine := by
  constructor
  · intro kind
    cases kind with
    | pole => exact hpoles
    | zero => exact hzeros
  · exact Root.genuine_parse "1"
  · exact Root.genuine_parse "pi"

theorem genuine_empty : empty.Genuine :=
  genuine_ofRoots (fun _ hr ↦ absurd hr List.not_mem_nil) fun _ hr ↦ absurd hr List.not_mem_nil

/-- The roots of a listing are those that their texts say. -/
theorem genuine_ofListing {text : String} (h : ofListing text = .ok d) : d.Genuine := by
  obtain ⟨hfaithful, -, hoptions⟩ := faithful_of_ofListing h
  constructor
  · intro kind r hr
    exact (hfaithful kind r hr).genuine
  · rw [hoptions]
    exact Root.genuine_parse "1"
  · rw [hoptions]
    exact Root.genuine_parse "pi"

/-! ### Moves -/

/-- A move gives the root at the index its value, and nothing else changes. -/
theorem move_eq_ok {kind : RootKind} {i : ℕ} {z : Complex Binary64} (h : d.move kind i z = .ok d') :
    i < (d.roots kind).length ∧ d' = d.modifyRoots kind (·.set i (.ofValue z)) := by
  rw [move] at h
  split at h
  · rename_i hi
    exact ⟨hi, (Except.ok.inj h).symm⟩
  · cases h

/-- A move changes the one slot. -/
theorem roots_getElem?_move {kind : RootKind} {i : ℕ} {z : Complex Binary64}
    (h : d.move kind i z = .ok d') (k : RootKind) (j : ℕ) : (d'.roots k)[j]? =
      if k = kind ∧ j = i then some (.ofValue z) else (d.roots k)[j]? := by
  obtain ⟨hi, rfl⟩ := move_eq_ok h
  rw [roots_modifyRoots]
  by_cases hk : k = kind
  · rw [if_pos hk, List.getElem?_set, hk]
    by_cases hj : i = j
    · rw [if_pos hj, if_pos (hj ▸ hi), if_pos ⟨rfl, hj.symm⟩]
    · rw [if_neg hj, if_neg fun h ↦ hj h.2.symm]
  · rw [if_neg hk, if_neg fun h ↦ hk h.1]

/-- A moved root is genuine. -/
theorem Genuine.move (h : d.Genuine) {kind : RootKind} {i : ℕ} {z : Complex Binary64}
    (hmove : d.move kind i z = .ok d') : d'.Genuine := by
  obtain ⟨-, rfl⟩ := move_eq_ok hmove
  apply h.modifyRoots
  intro r hr
  rcases List.mem_or_eq_of_mem_set hr with hr | rfl
  · exact h.roots kind r hr
  · exact Root.genuine_ofValue z

/-! ### Edits -/

/-- An edit keeps the roots genuine. -/
theorem Genuine.edit (h : d.Genuine) {e : Edit} (hedit : d.edit e = .ok d') : d'.Genuine := by
  cases e with
  | replace listing => exact genuine_ofListing hedit
  | renew zeros poles =>
      obtain rfl := Except.ok.inj hedit
      apply genuine_ofRoots
      · intro r hr
        obtain ⟨n, -, rfl⟩ := List.mem_map.mp hr
        exact n.genuine_root
      · intro r hr
        obtain ⟨n, -, rfl⟩ := List.mem_map.mp hr
        exact n.genuine_root
  | push kind n =>
      obtain rfl := Except.ok.inj hedit
      apply h.modifyRoots
      intro r hr
      rcases List.mem_append.mp hr with hr | hr
      · exact h.roots kind r hr
      · obtain rfl := List.mem_singleton.mp hr
        exact n.genuine_root
  | move kind i z => exact h.move hedit
  | resolution n =>
      obtain rfl := Except.ok.inj hedit
      exact ⟨h.roots, h.gain, h.frequency⟩
  | gain text =>
      obtain rfl := Except.ok.inj hedit
      exact ⟨h.roots, Root.genuine_parse text, h.frequency⟩
  | frequency text =>
      obtain rfl := Except.ok.inj hedit
      exact ⟨h.roots, h.gain, Root.genuine_parse text⟩

theorem edited_of_ok {e : Edit} (h : d.edit e = .ok d') : d.edited e = d' := by
  rw [edited, h]

/-- An edit that fails changes nothing. -/
theorem edited_of_error {e : Edit} {err : DesignError} (h : d.edit e = .error err) :
    d.edited e = d := by
  rw [edited, h]

theorem Genuine.edited (h : d.Genuine) (e : Edit) : (d.edited e).Genuine := by
  cases hedit : d.edit e with
  | ok d' =>
      rw [edited_of_ok hedit]
      exact h.edit hedit
  | error err =>
      rw [edited_of_error hedit]
      exact h

/-- A session keeps the roots genuine. -/
theorem Genuine.session (h : d.Genuine) (es : List Edit) : (d.session es).Genuine := by
  induction es generalizing d with
  | nil => exact h
  | cons e es ih => exact ih (h.edited e)

/-! ### Failures -/

/-- What is wrong with an edit of the design.  The labels of a listing are looked at in their
order, after all of it has been read. -/
inductive Fails (d : Design Binary64) : Edit → DesignError → Prop
  | unread {listing e} (h : Listing.parse listing = .error e) :
      Fails d (.replace listing) (.parse e)
  | unknown {listing es x} (hparse : Listing.parse listing = .ok es)
      (hfirst : es.find? (fun x ↦ (RootKind.ofLabel? x.label).isNone) = some x) :
      Fails d (.replace listing) (.unknownSection x.label)
  | outOfRange {kind i z} (h : (d.roots kind).length ≤ i) :
      Fails d (.move kind i z) (.outOfRange kind i (d.roots kind).length)

/-- Entries are refused for the first label that is no section's. -/
theorem addEntries_eq_error_iff {α : Type} {d : Design α} {es : List (Entry α)}
    {err : DesignError} : d.addEntries es = .error err ↔
      ∃ x, es.find? (fun x ↦ (RootKind.ofLabel? x.label).isNone) = some x ∧
        .unknownSection x.label = err := by
  induction es generalizing d with
  | nil => simp [addEntries]
  | cons e es ih =>
      cases hkind : RootKind.ofLabel? e.label with
      | some kind => simp only [addEntries, hkind, ih, List.find?_cons, Option.isNone_some]
      | none => simp [addEntries, hkind]

/-- A listing is refused where it cannot be read or has an unknown section. -/
theorem ofListing_eq_error_iff {listing : String} {err : DesignError} :
    ofListing listing = .error err ↔ d.Fails (.replace listing) err := by
  constructor
  · intro h
    unfold ofListing at h
    split at h
    · rename_i e hparse
      obtain rfl := Except.error.inj h
      exact .unread hparse
    · rename_i es hparse
      obtain ⟨x, hfirst, rfl⟩ := addEntries_eq_error_iff.mp h
      exact .unknown hparse hfirst
  · rintro (hparse | ⟨hparse, hfirst⟩)
    · unfold ofListing
      rw [hparse]
    · unfold ofListing
      rw [hparse]
      exact addEntries_eq_error_iff.mpr ⟨_, hfirst, rfl⟩

/-- A move fails for a slot that there is not. -/
theorem move_eq_error_iff {kind : RootKind} {i : ℕ} {z : Complex Binary64} {err : DesignError} :
    d.move kind i z = .error err ↔ d.Fails (.move kind i z) err := by
  constructor
  · intro h
    rw [move] at h
    split at h
    · cases h
    · rename_i hi
      obtain rfl := Except.error.inj h
      exact .outOfRange (Nat.le_of_not_lt hi)
  · intro h
    cases h with
    | outOfRange hi => rw [move, if_neg (Nat.not_lt_of_le hi)]

/-- No other edits fail than those of a listing and those of a root at an index. -/
theorem edit_eq_error_iff {e : Edit} {err : DesignError} :
    d.edit e = .error err ↔ d.Fails e err := by
  cases e with
  | replace listing => exact ofListing_eq_error_iff
  | move kind i z => exact move_eq_error_iff
  | renew _ _ | push _ _ | resolution _ | gain _ | frequency _ =>
      constructor
      · rintro ⟨⟩
      · rintro ⟨⟩

/-- It does not matter where in the listing the unknown label is. -/
theorem exists_fails_of_unknown {listing : String} {es : List (Entry Binary64)}
    (hparse : Listing.parse listing = .ok es) {x : Entry Binary64} (hx : x ∈ es)
    (hlabel : ∀ kind : RootKind, x.label ≠ kind.label) :
    ∃ y ∈ es, d.Fails (.replace listing) (.unknownSection y.label) := by
  have hnone : RootKind.ofLabel? x.label = none := by
    rw [RootKind.ofLabel?, List.find?_eq_none]
    intro kind _
    simpa using (hlabel kind).symm
  obtain ⟨y, hy⟩ := Option.isSome_iff_exists.mp
    (List.find?_isSome.mpr ⟨x, hx, by rw [hnone]; rfl⟩ :
      (es.find? fun x ↦ (RootKind.ofLabel? x.label).isNone).isSome)
  exact ⟨y, List.mem_of_find?_eq_some hy, .unknown hparse hy⟩

theorem session_cons (d : Design Binary64) (e : Edit) (es : List Edit) :
    d.session (e :: es) = (d.edited e).session es := rfl

/-- Sessions run one after the other. -/
theorem session_append (d : Design Binary64) (es later : List Edit) :
    d.session (es ++ later) = (d.session es).session later := List.foldl_append

/-- A session goes the same way without an edit that fails. -/
theorem session_append_cons_of_fails {es : List Edit} {e : Edit} {err : DesignError}
    (h : (d.session es).Fails e err) (later : List Edit) :
    d.session (es ++ e :: later) = d.session (es ++ later) := by
  rw [session_append, session_append, session_cons, edited_of_error (edit_eq_error_iff.mpr h)]

/-- Whatever is done from an empty design on, every root of it is genuine, one with an error stands
at zero with a text that is rejected for this error, the edits that fail change nothing, and a move
changes one root. -/
theorem sessions_keep_roots_genuine (es : List Edit) :
    (∀ r ∈ (empty.session es).allRoots, (r = .parse r.text ∨ r = .ofValue r.value) ∧
      ∀ reason, r.error = some reason →
        r.value = 0 ∧ ∃ e, calculate r.text = .error e ∧ e.description = reason) ∧
    (∀ e err, (empty.session es).edit e = .error err ↔ (empty.session es).Fails e err) ∧
    (∀ listing entries, Listing.parse listing = .ok entries →
      (∃ x ∈ entries, ∀ kind : RootKind, x.label ≠ kind.label) →
      ∃ y ∈ entries, (empty.session es).Fails (.replace listing) (.unknownSection y.label)) ∧
    (∀ e err, (empty.session es).Fails e err →
      ∀ later, empty.session (es ++ e :: later) = empty.session (es ++ later)) ∧
    ∀ kind i z d', (empty.session es).edit (.move kind i z) = .ok d' →
      d'.options = (empty.session es).options ∧
      ∀ k j, (d'.roots k)[j]? =
        if k = kind ∧ j = i then some (.ofValue z) else ((empty.session es).roots k)[j]? := by
  have hgenuine := genuine_empty.session es
  refine ⟨?_, ?_, ?_, ?_, ?_⟩
  · intro r hr
    have hr := hgenuine.of_mem_allRoots hr
    exact ⟨hr, fun _ herror ↦ hr.of_error herror⟩
  · intro e err
    exact edit_eq_error_iff
  · rintro listing entries hparse ⟨x, hx, hlabel⟩
    exact exists_fails_of_unknown hparse hx hlabel
  · intro e err hfails later
    exact session_append_cons_of_fails hfails later
  · intro kind i z d' hmove
    obtain ⟨-, hd'⟩ := move_eq_ok hmove
    refine ⟨?_, roots_getElem?_move hmove⟩
    rw [hd', modifyRoots_options]

/-- A listing, a pole that is no expression, and a gain that is none. -/
def unfinished : List Edit :=
  [.replace "zeros = [ 1, i ]", .push .pole (.typed "2 +"), .gain "two"]

/-- The section that is unknown comes after a known one. -/
def misnamed : String := "zeros = [ 3 ]; gain = [ 4 ]"

/-- A session with an unfinished root, a misnamed listing and a move out of range. -/
theorem sessions_keep_roots_genuine_unfinished :
    (∃ r ∈ (empty.session unfinished).poles, r.text = "2 +" ∧ r.value = 0 ∧
      ∃ e, calculate "2 +" = .error e ∧ some e.description = r.error) ∧
    (∃ y, (empty.session unfinished).Fails (.replace misnamed) (.unknownSection y)) ∧
    (empty.session unfinished).Fails (.move .pole 1 0) (.outOfRange .pole 1 1) ∧
    empty.session (unfinished ++ .move .pole 1 0 :: unfinished) =
      empty.session (unfinished ++ unfinished) ∧
    ∃ d', (empty.session unfinished).edit (.move .zero 1 0) = .ok d' ∧
      d'.options = (empty.session unfinished).options ∧
      (d'.roots .zero)[1]? = some (.ofValue 0) := by
  obtain ⟨hroots, herrors, hunknown, hinert, hmoves⟩ := sessions_keep_roots_genuine unfinished
  have hpoles : (empty.session unfinished).poles = [.parse "2 +"] := by decide +kernel
  have hpole : Root.parse "2 +" ∈ (empty.session unfinished).allRoots := by
    simp [allRoots, hpoles]
  have hfails := (herrors (.move .pole 1 0) (.outOfRange .pole 1 1)).mp (by decide +kernel)
  refine ⟨⟨.parse "2 +", by simp [hpoles], Root.text_parse _, ?_⟩, ?_, hfails,
    hinert _ _ hfails _, ?_⟩
  · obtain ⟨-, hreason⟩ := hroots _ hpole
    obtain ⟨reason, herror⟩ : ∃ reason, (Root.parse "2 +").error = some reason :=
      Option.isSome_iff_exists.mp (by decide +kernel)
    obtain ⟨hvalue, e, hrejected, rfl⟩ := hreason reason herror
    exact ⟨hvalue, e, hrejected, herror.symm⟩
  · have hparse : Listing.parse misnamed =
        .ok [⟨"zeros", [.parse "3"]⟩, ⟨"gain", [.parse "4"]⟩] := by decide +kernel
    have hlabel : ∀ kind : RootKind, "gain" ≠ kind.label := by
      intro kind
      cases kind
      · decide
      · decide
    obtain ⟨y, -, hfails⟩ := hunknown misnamed _ hparse ⟨⟨"gain", [.parse "4"]⟩, by simp, hlabel⟩
    exact ⟨y.label, hfails⟩
  · have hmove : (empty.session unfinished).edit (.move .zero 1 0) =
        .ok ((empty.session unfinished).modifyRoots .zero (·.set 1 (.ofValue 0))) := by
      decide +kernel
    obtain ⟨hoptions, hslots⟩ := hmoves _ _ _ _ hmove
    refine ⟨_, hmove, hoptions, (hslots .zero 1).trans ?_⟩
    rw [if_pos ⟨rfl, rfl⟩]

end Design

end ZPlane
