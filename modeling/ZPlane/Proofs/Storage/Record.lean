import Mathlib
import ZPlane.Storage.Record

/-!
# Records are read back

A format writes data and reads it back with other data in its place: an `Echoes` says what each kind
of value has to come back as for records to be read from it.  The numbers that it `keeps` come back
bit for bit, and a record is read as it was if it keeps all the numbers in it, and not at all
otherwise (`Echoes.ofDatum?_design`).

`Plain` is the data that records are made of, within the lengths and the depth that a format allows.
-/

namespace ZPlane

/-! ### The roots of a design -/

/-- The texts of the root are short. -/
structure Root.Bounded {α : Type} (short : ℕ → Prop) (r : Root α) : Prop where
  text : short r.text.utf8ByteSize
  error : ∀ e ∈ r.error, short e.utf8ByteSize

/-- The texts and the lists of the design are short, and its resolution fits a word. -/
structure Design.Bounded {α : Type} (short : ℕ → Prop) (d : Design α) : Prop where
  resolution : d.options.resolution < UInt64.size
  zeros : short d.zeros.length
  poles : short d.poles.length
  roots : ∀ r ∈ d.allRoots, r.Bounded short

namespace Storage

namespace Datum

/-! ### Fields in their order -/

/-- A record is a table with texts for its keys. -/
theorem record_eq (fields : List (String × Datum)) :
    record fields = .table (fields.map fun f ↦ (.text f.1, f.2)) := rfl

/-- A new name is found behind those before it. -/
theorem findIdx?_append_cons {names later : List String} {name : String} (h : name ∉ names) :
    (names ++ name :: later).findIdx? (fun x ↦ x = name) = some names.length := by
  have hnone : names.findIdx? (fun x ↦ decide (x = name)) = none := by
    rw [List.findIdx?_eq_none_iff]
    intro x hx
    exact decide_eq_false fun hxn ↦ h (hxn ▸ hx)
  simp [List.findIdx?_append, hnone, List.findIdx?_cons]

/-- Each field fills the slot behind those of the fields before it. -/
theorem foldlM_fillSlot (done todo : List (String × Datum))
    (h : ((done ++ todo).map Prod.fst).Nodup) :
    (todo.map fun f ↦ (text f.1, f.2)).foldlM (fillSlot ((done ++ todo).map Prod.fst))
      (done.map (fun f ↦ some f.2) ++ List.replicate todo.length none) =
        some ((done ++ todo).map fun f ↦ some f.2) := by
  induction todo generalizing done with
  | nil => simp
  | cons f todo ih =>
      obtain ⟨name, d⟩ := f
      have hname : name ∉ done.map Prod.fst := by
        rw [List.map_append, List.map_cons] at h
        exact fun hmem ↦ (List.nodup_append.mp h).2.2 name hmem name List.mem_cons_self rfl
      have hfill : fillSlot ((done ++ (name, d) :: todo).map Prod.fst)
          (done.map (fun f ↦ some f.2) ++ List.replicate (todo.length + 1) none) (text name, d) =
            some ((done ++ [(name, d)]).map (fun f ↦ some f.2) ++
              List.replicate todo.length none) := by
        rw [fillSlot, List.map_append, List.map_cons, position?, findIdx?_append_cons hname]
        simp [List.replicate_succ]
      have hlater := ih (done ++ [(name, d)])
      rw [List.append_assoc, List.singleton_append] at hlater
      rw [List.map_cons, List.foldlM_cons, List.length_cons, hfill]
      exact hlater h

/-- The fields of a record are read in the order of their names. -/
theorem fields?_record {fields : List (String × Datum)} (h : (fields.map Prod.fst).Nodup) :
    (record fields).fields? (fields.map Prod.fst) = some (fields.map fun f ↦ some f.2) := by
  have hfill := foldlM_fillSlot [] fields h
  rw [List.map_nil, List.nil_append, List.nil_append] at hfill
  rw [record_eq, Datum.fields?, List.length_map]
  exact hfill

end Datum

open Datum (record required? missing?)

/-! ### What comes back -/

/-- What reading gives in the place of data that was written. -/
structure Echoes (echo : Datum → Datum) (keeps : Binary64 → Bool) : Prop where
  null : echo .null = .null
  text (s : String) : echo (.text s) = .text s
  count? {n : ℕ} : n < UInt64.size → (echo (.ordinal n)).count? = some n
  real? (x : Binary64) : (echo (.real x)).real? = if keeps x then some x else none
  list (ds : List Datum) : echo (.list ds) = .list (ds.map echo)
  table (es : List (Datum × Datum)) :
    echo (.table es) = .table (es.map fun e ↦ (e.1, echo e.2))

/-- Both parts of the value of the root are kept. -/
def keepsRoot (keeps : Binary64 → Bool) (r : Root Binary64) : Bool :=
  keeps r.value.re && keeps r.value.im

namespace Echoes

variable {echo : Datum → Datum} {keeps : Binary64 → Bool} (h : Echoes echo keeps)
include h

theorem fields?_record (names : List String) (fields : List (String × Datum))
    (hnames : fields.map Prod.fst = names) (hnodup : names.Nodup) :
    (echo (record fields)).fields? names = some (fields.map fun f ↦ some (echo f.2)) := by
  have hecho : echo (record fields) = record (fields.map fun f ↦ (f.1, echo f.2)) := by
    simp [Datum.record_eq, h.table]
  have hfst : (fields.map fun f ↦ (f.1, echo f.2)).map Prod.fst = names := by
    simp [← hnames]
  rw [hecho, ← hfst, Datum.fields?_record (hfst ▸ hnodup), List.map_map]
  rfl

/-- A number is read back if it is kept. -/
theorem ofDatum?_real (x : Binary64) :
    ofDatum? (echo (toDatum x)) = if keeps x then some x else none := h.real? x

theorem ofDatum?_nat {n : ℕ} (hn : n < UInt64.size) : ofDatum? (echo (toDatum n)) = some n :=
  h.count? hn

theorem ofDatum?_string (s : String) : ofDatum? (echo (toDatum s)) = some s := by
  show (echo (.text s)).text? = some s
  rw [h.text]
  rfl

theorem ofDatum?_option (s : Option String) : ofDatum? (echo (toDatum s)) = some s := by
  cases s with
  | none =>
      show ofDatum? (echo .null) = some none
      rw [h.null]
      rfl
  | some s =>
      show ofDatum? (echo (.text s)) = some (some s)
      rw [h.text]
      rfl

/-- A list is read back if each of its elements is kept. -/
theorem ofDatum?_list {α : Type} [Storable α] {kept : α → Bool} (as : List α)
    (has : ∀ a ∈ as, ofDatum? (echo (toDatum a)) = if kept a then some a else none) :
    ofDatum? (echo (toDatum as)) = if as.all kept then some as else none := by
  show (echo (.list (as.map toDatum))).list?.bind (List.mapM ofDatum?) = _
  rw [h.list]
  show ((as.map toDatum).map echo).mapM ofDatum? = _
  induction as with
  | nil => rfl
  | cons a as ih =>
      rw [List.map_cons, List.map_cons, List.mapM_cons, has a List.mem_cons_self,
        ih fun b hb ↦ has b (List.mem_cons_of_mem a hb)]
      cases ha : kept a <;> cases hall : as.all kept <;> simp [List.all_cons, ha, hall]

/-- A complex number is read back if both of its parts are kept. -/
theorem ofDatum?_complex (z : Complex Binary64) :
    ofDatum? (echo (toDatum z)) = if keeps z.re && keeps z.im then some z else none := by
  have hfields : (echo (toDatum z)).fields? ["real", "imag"] = some _ := h.fields?_record _
    [("real", toDatum z.re), ("imag", toDatum z.im)] rfl (by decide)
  dsimp only [ofDatum?]
  rw [hfields]
  simp only [List.map_cons, List.map_nil, required?, Option.bind_some, h.ofDatum?_real]
  cases hre : keeps z.re <;> cases him : keeps z.im <;> simp

/-- A root is read back if its value is kept. -/
theorem ofDatum?_root (r : Root Binary64) :
    ofDatum? (echo (toDatum r)) = if keepsRoot keeps r then some r else none := by
  have hfields : (echo (toDatum r)).fields? ["repr", "value", "error"] = some _ :=
    h.fields?_record _
      [("repr", toDatum r.text), ("value", toDatum r.value), ("error", toDatum r.error)]
      rfl (by decide)
  dsimp only [ofDatum?]
  rw [hfields]
  simp only [List.map_cons, List.map_nil, required?, missing?, Option.bind_some,
    h.ofDatum?_string, h.ofDatum?_complex, h.ofDatum?_option]
  cases hkeeps : keepsRoot keeps r <;> rw [keepsRoot] at hkeeps <;> simp [hkeeps]

/-- Options are read back if the values of both their roots are kept. -/
theorem ofDatum?_options {o : Options Binary64} (ho : o.resolution < UInt64.size) :
    ofDatum? (echo (toDatum o)) =
      if keepsRoot keeps o.gain && keepsRoot keeps o.frequency then some o else none := by
  have hfields : (echo (toDatum o)).fields? ["resolution", "gain", "frequency"] = some _ :=
    h.fields?_record _
      [("resolution", toDatum o.resolution), ("gain", toDatum o.gain),
        ("frequency", toDatum o.frequency)] rfl (by decide)
  dsimp only [ofDatum?]
  rw [hfields]
  simp only [List.map_cons, List.map_nil, required?, Option.bind_some, h.ofDatum?_nat ho,
    h.ofDatum?_root]
  cases keepsRoot keeps o.gain <;> cases keepsRoot keeps o.frequency <;> simp

/-- A design comes back as it was if all the numbers of its roots are kept, and else not at all. -/
theorem ofDatum?_design {d : Design Binary64} (hd : d.options.resolution < UInt64.size) :
    ofDatum? (echo (toDatum d)) =
      if d.allRoots.all (keepsRoot keeps) then some d else none := by
  have hfields : (echo (toDatum d)).fields? ["zeros", "poles", "options"] = some _ :=
    h.fields?_record _
      [("zeros", toDatum d.zeros), ("poles", toDatum d.poles),
        ("options", toDatum d.options)] rfl (by decide)
  have hroots (rs : List (Root Binary64)) := h.ofDatum?_list rs fun r _ ↦ h.ofDatum?_root r
  dsimp only [ofDatum?]
  rw [hfields]
  simp only [List.map_cons, List.map_nil, required?, Option.bind_some, hroots,
    h.ofDatum?_options hd]
  cases hz : d.zeros.all (keepsRoot keeps) <;> cases hp : d.poles.all (keepsRoot keeps) <;>
    cases hg : keepsRoot keeps d.options.gain <;>
    cases hf : keepsRoot keeps d.options.frequency <;>
    simp [Design.allRoots, hz, hp, hg, hf]

end Echoes

/-! ### What is written -/

/-- Data as records are made of it: with short texts and lists, and at most `depth` lists and
tables around a value. -/
inductive Plain (short : ℕ → Prop) : (depth : ℕ) → Datum → Prop
  | null {k : ℕ} : Plain short k .null
  | ordinal {k n : ℕ} : n < UInt64.size → Plain short k (.ordinal n)
  | real {k : ℕ} {x : Binary64} : Plain short k (.real x)
  | text {k : ℕ} {s : String} : short s.utf8ByteSize → Plain short k (.text s)
  | list {k : ℕ} {ds : List Datum} : short ds.length → (∀ d ∈ ds, Plain short k d) →
      Plain short (k + 1) (.list ds)
  | table {k : ℕ} {fields : List (String × Datum)} : short fields.length →
      (∀ f ∈ fields, short f.1.utf8ByteSize) → (∀ f ∈ fields, Plain short k f.2) →
      Plain short (k + 1) (.record fields)

namespace Plain

variable {short : ℕ → Prop} {k : ℕ}

theorem list_map {α : Type} [Storable α] {as : List α} (hlength : short as.length)
    (h : ∀ a ∈ as, Plain short k (toDatum a)) : Plain short (k + 1) (toDatum as) := by
  refine .list (by simpa using hlength) fun d hd ↦ ?_
  obtain ⟨a, ha, rfl⟩ := List.mem_map.mp hd
  exact h a ha

variable (hshort : ∀ n ≤ 10, short n)
include hshort

theorem complex (z : Complex Binary64) : Plain short (k + 1) (toDatum z) := by
  refine .table (hshort 2 (by decide)) ?_ ?_
  · simp only [List.forall_mem_cons]
    exact ⟨hshort 4 (by decide), hshort 4 (by decide), by simp⟩
  · simp only [List.forall_mem_cons]
    exact ⟨.real, .real, by simp⟩

theorem root {r : Root Binary64} (hr : r.Bounded short) : Plain short (k + 2) (toDatum r) := by
  have herror : Plain short (k + 1) (toDatum r.error) := by
    cases he : r.error with
    | none => exact .null
    | some e => exact .text (hr.error e he)
  refine .table (hshort 3 (by decide)) ?_ ?_
  · simp only [List.forall_mem_cons]
    exact ⟨hshort 4 (by decide), hshort 5 (by decide), hshort 5 (by decide), by simp⟩
  · simp only [List.forall_mem_cons]
    exact ⟨.text hr.text, complex hshort r.value, herror, by simp⟩

theorem design {d : Design Binary64} (hd : d.Bounded short) :
    Plain short (k + 4) (toDatum d) := by
  have hroots {rs : List (Root Binary64)} (hlength : short rs.length)
      (hrs : ∀ r ∈ rs, r ∈ d.allRoots) : Plain short (k + 3) (toDatum rs) :=
    list_map hlength fun r hr ↦ root hshort (hd.roots r (hrs r hr))
  have hoptions : Plain short (k + 3) (toDatum d.options) := by
    refine .table (hshort 3 (by decide)) ?_ ?_
    · simp only [List.forall_mem_cons]
      exact ⟨hshort 10 (by decide), hshort 4 (by decide), hshort 9 (by decide), by simp⟩
    · simp only [List.forall_mem_cons]
      exact ⟨.ordinal hd.resolution, root hshort (hd.roots _ (by simp [Design.allRoots])),
        root hshort (hd.roots _ (by simp [Design.allRoots])), by simp⟩
  refine .table (hshort 3 (by decide)) ?_ ?_
  · simp only [List.forall_mem_cons]
    exact ⟨hshort 5 (by decide), hshort 5 (by decide), hshort 7 (by decide), by simp⟩
  · simp only [List.forall_mem_cons]
    exact ⟨hroots hd.zeros fun r hr ↦ by simp [Design.allRoots, hr],
      hroots hd.poles fun r hr ↦ by simp [Design.allRoots, hr], hoptions, by simp⟩

end Plain

end Storage

end ZPlane
