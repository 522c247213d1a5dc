import Mathlib
import ZPlane.Design.Basic
import ZPlane.Proofs.Calculator.Rendering
import ZPlane.Proofs.Design.Listing
import ZPlane.Proofs.Design.Reading

/-!
# Listings are read back

Entries are rendered with their slots between commas and brackets, and none of what is behind a slot
goes on with its expression, so a slot whose text says the value of its root is read back with this
value, and with its text trimmed.  `SlotNext` and `SlotsLeft` say which slots are still to come at a
place, `EntryNext` and `EntriesLeft` which entries.  For designs, roots that were read once are
faithful and trimmed, so the second listing is that of the same design.
-/

namespace ZPlane

open Parsing Parsing.Parser Calculator
open Text (skip)

/-! ### What a root says -/

namespace Root

/-- The text of the root says its value. -/
structure Faithful (r : Root Binary64) : Prop where
  value : calculate r.text = .ok r.value
  error : r.error = none

/-- Without the blanks around its text. -/
def trimmed {α : Type} (r : Root α) : Root α :=
  { r with text := String.ofList (Text.trim r.text.toList) }

/-- The text of a faithful root denotes an expression of its value. -/
theorem Faithful.exists_denotes {r : Root Binary64} (h : r.Faithful) :
    ∃ e, Denotes r.text.toList e ∧ e.value = r.value := by
  have hvalue := h.value
  rw [calculate] at hvalue
  cases hparse : Calculator.parse r.text with
  | error _ =>
      rw [hparse] at hvalue
      cases hvalue
  | ok e =>
      rw [hparse] at hvalue
      exact ⟨e, denotes_of_parse hparse, Except.ok.inj hvalue⟩

end Root

namespace Entry

/-- The label can be read, and the roots are faithful. -/
structure Faithful (e : Entry Binary64) : Prop where
  label : IsName e.label.toList
  roots : ∀ r ∈ e.roots, r.Faithful

/-- Without the blanks around the texts of its roots. -/
def trimmed {α : Type} (e : Entry α) : Entry α := { e with roots := e.roots.map Root.trimmed }

end Entry

namespace Listing

variable {cs r s : List Char} {c m : Cursor} {depth : Nat}

/-- The root of a slot. -/
def rootOf (cs : List Char) (slot : Expr × Span) : Root Binary64 :=
  ⟨String.ofList (slot.2.slice cs), slot.1.value, none⟩

/-- The entry of a label and its slots. -/
def entryOf (cs : List Char) (e : String × List (Expr × Span)) : Entry Binary64 :=
  ⟨e.1, e.2.map (rootOf cs)⟩

theorem parse_eq (text : String) : Listing.parse text =
    (parseWith listing text.toList).map (List.map (entryOf text.toList)) := rfl

/-! ### Slots -/

/-- What comes after the slot in front of others, to the end of the brackets and on to `t`. -/
def behindSlot (as : List (Root Binary64)) (t : List Char) : List Char :=
  (as.flatMap fun a ↦ ',' :: ' ' :: a.text.toList) ++ ' ' :: ']' :: t

theorem apart_behindSlot (as : List (Root Binary64)) (t : List Char) : Apart (behindSlot as t) := by
  cases as with
  | nil => exact apart_cons (by decide) _
  | cons _ _ => exact apart_cons (by decide) _

theorem stops_behindSlot (as : List (Root Binary64)) (t : List Char) :
    Stops .sum (skip (behindSlot as t)) := by
  cases as with
  | nil => exact stops_cons rfl t
  | cons _ _ => exact stops_comma _ _

/-- A slot has been read, and others are left before `t`. -/
structure SlotsLeft (cs t : List Char) (as : List (Root Binary64)) (c : Cursor) : Prop where
  faithful : ∀ a ∈ as, a.Faithful
  stands : Stands cs c (skip (behindSlot as t))

/-- A slot is next, and others after it. -/
structure SlotNext (cs t : List Char) (a : Root Binary64) (as : List (Root Binary64))
    (c : Cursor) : Prop where
  faithful : ∀ b ∈ a :: as, b.Faithful
  stands : Stands cs c (skip (a.text.toList ++ behindSlot as t))

section Slots

variable {t : List Char} {a : Root Binary64} {as : List (Root Binary64)}

/-- What is read of a slot is the text of its root, trimmed. -/
theorem SlotNext.exists_reads (hdepth : cs.length < depth) (h : SlotNext cs t a as c) :
    ∃ m slot, Reads (grammar.call depth) (spanned (rule .expression)) c m slot ∧
      SlotsLeft cs t as m ∧ rootOf cs slot = a.trimmed := by
  obtain ⟨hfaithful, hc⟩ := h
  have ha := hfaithful a List.mem_cons_self
  obtain ⟨e, ⟨r, he, hr⟩, hvalue⟩ := ha.exists_denotes
  have happend := he.append (apart_behindSlot as t)
  have hrest : skip (r ++ behindSlot as t) = skip (behindSlot as t) := by
    rw [Text.skip_append, hr, List.nil_append]
  rw [he.skip_append] at hc
  obtain ⟨m, hread, hm⟩ := happend.complete.reads_rule
    (lt_of_le_of_lt hc.length_le hdepth) (hrest ▸ stops_behindSlot as t) hc.rest
  rw [hrest] at hm
  have hstands := hc.of_reads hread hm
  refine ⟨m, (e, ⟨c.offset, m.offset⟩), reads_spanned.mpr ⟨hread, rfl⟩,
    ⟨fun b hb ↦ hfaithful b (List.mem_cons_of_mem a hb), hstands⟩, ?_⟩
  -- The blanks behind the text are read with it, so the span of the slot ends behind them.
  rw [← Text.takeWhile_append_skip (behindSlot as t), ← List.append_assoc] at hc
  have hslice := hc.slice hstands
  rw [Text.trim_skip_append fun _ hc ↦ List.mem_takeWhile_imp hc] at hslice
  obtain ⟨text, value, error⟩ := a
  obtain rfl : error = none := ha.error
  rw [rootOf, hslice, hvalue]
  rfl

/-- The comma in front of the next slot is read. -/
theorem SlotsLeft.exists_reads (h : SlotsLeft cs t (a :: as) c) :
    ∃ m v, Reads (grammar.call depth) (symbol ",") c m v ∧ c.offset < m.offset ∧
      SlotNext cs t a as m := by
  obtain ⟨hfaithful, hc⟩ := h
  have hcomma : skip (behindSlot (a :: as) t) =
      ",".toList ++ ' ' :: (a.text.toList ++ behindSlot as t) := by
    simp only [behindSlot, List.flatMap_cons, List.cons_append, List.append_assoc]
    exact Text.skip_cons_of_not_isBlank rfl _
  rw [hcomma] at hc
  obtain ⟨m, v, hread, hm⟩ := hc.exists_reads_symbol depth
  have hlt := hc.offset_lt hread hm (Nat.lt_succ_of_le (Text.length_skip_le _))
  exact ⟨m, v, hread, hlt, hfaithful, hm⟩

/-- There is no comma behind the last slot. -/
theorem SlotsLeft.rejects (h : SlotsLeft cs t [] c) :
    Rejects (grammar.call depth) (symbol "," : Parser (fun _ : Rule ↦ Expr) String) c := by
  refine rejects_symbol h.stands.rest ?_
  rintro ⟨r, hr⟩
  cases hr

/-- The slots in brackets, from behind the opening one on to `t`. -/
def inBrackets : List (Root Binary64) → (t : List Char) → List Char
  | [], t => ']' :: t
  | a :: as, t => ' ' :: (a.text.toList ++ behindSlot as t)

/-- The slots of faithful roots are read back, up to the closing bracket. -/
theorem exists_reads_slots (has : ∀ a ∈ as, a.Faithful) (hdepth : cs.length < depth)
    (hc : Stands cs c (skip (inBrackets as t))) :
    ∃ m ss, Reads (grammar.call depth) (slots (rule .expression)) c m ss ∧
      Stands cs m (']' :: t) ∧ ss.map (rootOf cs) = as.map Root.trimmed := by
  cases as with
  | nil =>
      obtain ⟨depth, rfl⟩ := Nat.exists_eq_add_one_of_ne_zero (Nat.ne_zero_of_lt hdepth)
      have hrejects : Rejects (grammar.call (depth + 1)) (rule .expression) c :=
        rejects_expression hc.rest (stops_cons rfl t)
      refine ⟨c, [], reads_map.mpr ⟨none, reads_optional.mpr (.inr ⟨?_, rfl, rfl⟩), rfl⟩, hc, rfl⟩
      exact rejects_map.mpr (rejects_both_of_left (rejects_spanned.mpr hrejects))
  | cons a as =>
      have hnext : SlotNext cs t a as c := ⟨has, hc⟩
      obtain ⟨m, ss, hread, hm, hss⟩ := exists_reads_sepBy (grammar.forward_call depth) hnext
        (SlotNext.exists_reads hdepth) SlotsLeft.exists_reads SlotsLeft.rejects
      refine ⟨m, ss, reads_map.mpr ⟨some ss, ?_, rfl⟩, hm.stands, hss⟩
      exact reads_optional.mpr (.inl ⟨ss, hread, rfl⟩)

end Slots

/-! ### Entries -/

theorem intercalate_cons {α : Type} (sep a : List α) (as : List (List α)) :
    sep.intercalate (a :: as) = a ++ as.flatMap (sep ++ ·) := by
  induction as generalizing a with
  | nil => simp
  | cons b as ih =>
      rw [List.intercalate_cons_cons, ih, List.flatMap_cons]
      simp only [List.append_assoc]

/-- The parts of an entry as it is printed. -/
theorem toList_render_append (e : Entry Binary64) (t : List Char) :
    e.render.toList ++ t =
      e.label.toList ++ ' ' :: '=' :: ' ' :: '[' :: inBrackets e.roots t := by
  obtain ⟨label, roots⟩ := e
  cases roots with
  | nil => simp [Entry.render, inBrackets]
  | cons a as =>
      simp [Entry.render, inBrackets, behindSlot, intercalate_cons, List.flatMap_map]

/-- What comes after the entry in front of others. -/
def behindEntry (es : List (Entry Binary64)) : List Char :=
  es.flatMap fun e ↦ '\n' :: e.render.toList

/-- An entry has been read, and others are left. -/
structure EntriesLeft (cs : List Char) (es : List (Entry Binary64)) (c : Cursor) : Prop where
  faithful : ∀ e ∈ es, e.Faithful
  stands : Stands cs c (behindEntry es)

/-- An entry is next, and others after it. -/
structure EntryNext (cs : List Char) (e : Entry Binary64) (es : List (Entry Binary64))
    (c : Cursor) : Prop where
  faithful : ∀ x ∈ e :: es, x.Faithful
  stands : Stands cs c (e.render.toList ++ behindEntry es)

section Entries

variable {e : Entry Binary64} {es : List (Entry Binary64)}

/-- The next entry is read back. -/
theorem EntryNext.exists_reads (hdepth : cs.length < depth) (h : EntryNext cs e es c) :
    ∃ m x, Reads (grammar.call depth) (entry (rule .expression)) c m x ∧
      EntriesLeft cs es m ∧ entryOf cs x = e.trimmed := by
  obtain ⟨hfaithful, hc⟩ := h
  have he := hfaithful e List.mem_cons_self
  have hgap : (behindEntry es).dropWhile isGap = behindEntry es := by
    cases es with
    | nil => rfl
    | cons _ _ => rfl
  rw [toList_render_append] at hc
  obtain ⟨m₁, hlabel, h₁⟩ :=
    hc.exists_reads_identifier depth (he.label.longest (by rintro _ ⟨⟩; rfl))
  obtain ⟨m₂, _, hgap₂, h₂⟩ := h₁.exists_reads_gap depth
  obtain ⟨m₃, _, hequals, h₃⟩ := Stands.exists_reads_literal (t := "=") depth h₂
  obtain ⟨m₄, _, hgap₄, h₄⟩ := h₃.exists_reads_gap depth
  obtain ⟨m₅, _, hopen, h₅⟩ := Stands.exists_reads_symbol (t := "[") depth h₄
  obtain ⟨m₆, ss, hslots, h₆, hss⟩ := exists_reads_slots he.roots hdepth h₅
  obtain ⟨m₇, _, hclose, h₇⟩ :=
    Stands.exists_reads_literal (t := "]") (r := behindEntry es) depth h₆
  obtain ⟨m₈, _, hgap₈, h₈⟩ := h₇.exists_reads_gap depth
  rw [hgap] at h₈
  have hhead := reads_first.mpr ⟨m₄, _, reads_first.mpr ⟨m₃, _, reads_first.mpr ⟨m₂, _,
    reads_first.mpr ⟨m₁, _, hlabel, hgap₂⟩, hequals⟩, hgap₄⟩, hopen⟩
  have hboth := (reads_both (x := (String.ofList e.label.toList, ss))).mpr ⟨m₅, hhead, hslots⟩
  refine ⟨m₈, _, reads_first.mpr ⟨m₇, _, reads_first.mpr ⟨m₆, _, hboth, hclose⟩, hgap₈⟩,
    ⟨fun x hx ↦ hfaithful x (List.mem_cons_of_mem e hx), h₈⟩, ?_⟩
  rw [entryOf, hss, String.ofList_toList]
  rfl

theorem skip_render_append (he : e.Faithful) (t : List Char) :
    skip (e.render.toList ++ t) = e.render.toList ++ t := by
  obtain ⟨d, u, hd, hword⟩ := he.label.exists_first
  rw [toList_render_append, hd]
  exact Text.skip_cons_of_not_isBlank (isBlank_of_isWord hword) _

/-- The line break in front of the next entry is read. -/
theorem EntriesLeft.exists_reads (h : EntriesLeft cs (e :: es) c) :
    ∃ m v, Reads (grammar.call depth) separator c m v ∧ c.offset < m.offset ∧
      EntryNext cs e es m := by
  obtain ⟨hfaithful, hc⟩ := h
  have he := hfaithful e List.mem_cons_self
  have hnext : behindEntry (e :: es) = '\n' :: (e.render.toList ++ behindEntry es) := rfl
  rw [hnext] at hc
  obtain ⟨m, v, hread, hlt, hm⟩ := hc.exists_reads_separator depth (.inr rfl)
  rw [skip_render_append he] at hm
  exact ⟨m, v, hread, hlt, hfaithful, hm⟩

/-- There is no separator behind the last entry. -/
theorem EntriesLeft.rejects (h : EntriesLeft cs [] c) :
    Rejects (grammar.call depth) separator c :=
  h.stands.rejects_separator depth (by rintro _ ⟨⟩)

/-- Without a label there is no entry. -/
theorem rejects_entry (hc : c.rest = .chars r) (hr : ∀ d ∈ r.head?, isWord d = false) :
    Rejects (grammar.call depth) (entry (rule .expression)) c := by
  have hlabel : Rejects (grammar.call depth) identifier c := by
    refine takes_identifier.rejects hc ?_
    rintro w t ⟨hw, hname, -⟩
    obtain ⟨d, u, rfl, hd⟩ := hname.exists_first
    rw [hr d (by rw [hw]; rfl)] at hd
    cases hd
  refine rejects_first_of_left (rejects_first_of_left (rejects_both_of_left ?_))
  iterate 4 refine rejects_first_of_left ?_
  exact hlabel

theorem toList_render (e : Entry Binary64) (es : List (Entry Binary64)) :
    (render (e :: es)).toList = e.render.toList ++ behindEntry es := by
  simp [render, behindEntry, intercalate_cons, List.flatMap_map]

/-- The entries of a listing are read back, to its end. -/
theorem exists_reads_entries (hes : ∀ e ∈ es, e.Faithful) (hcs : cs = (render es).toList)
    (hdepth : cs.length < depth) (hc : Stands cs c cs) :
    ∃ m xs, Reads (grammar.call depth) ((entry (rule .expression)).sepBy separator).optional
      c m xs ∧ Stands cs m [] ∧ (xs.getD []).map (entryOf cs) = es.map Entry.trimmed := by
  cases es with
  | nil =>
      obtain rfl : cs = [] := hcs
      refine ⟨c, none, reads_optional.mpr (.inr ⟨?_, rfl, rfl⟩), hc, rfl⟩
      exact rejects_map.mpr (rejects_both_of_left (rejects_entry hc.rest (by rintro _ ⟨⟩)))
  | cons e es =>
      rw [toList_render] at hcs
      have hnext : EntryNext cs e es c := ⟨hes, hcs ▸ hc⟩
      obtain ⟨m, xs, hread, hm, hxs⟩ := exists_reads_sepBy (grammar.forward_call depth) hnext
        (EntryNext.exists_reads hdepth) EntriesLeft.exists_reads EntriesLeft.rejects
      exact ⟨m, some xs, reads_optional.mpr (.inl ⟨xs, hread, rfl⟩), hm.stands, hxs⟩

/-- A listing is printed without blanks in front of it. -/
theorem skip_render (hes : ∀ e ∈ es, e.Faithful) :
    skip (render es).toList = (render es).toList := by
  cases es with
  | nil => rfl
  | cons e es =>
      rw [toList_render]
      exact skip_render_append (hes e List.mem_cons_self) _

/-- What entries are rendered to is parsed to the entries. -/
theorem parse_render (hes : ∀ e ∈ es, e.Faithful) :
    Listing.parse (render es) = .ok (es.map Entry.trimmed) := by
  have hdepth : (render es).toList.length < depthFor (render es).toList :=
    Nat.lt_succ_of_le (Text.length_le_byteLength _)
  -- The slots remember places of the whole text, which stays the same while its parts are read.
  generalize hcs : (render es).toList = cs at hdepth
  have hstart := Stands.start cs
  obtain ⟨m₁, hblanks, h₁⟩ := exists_reads_blanks (grammar.call (depthFor cs)) hstart.rest
  rw [← hcs, skip_render hes, hcs] at h₁
  obtain ⟨m₂, xs, hentries, h₂, hxs⟩ :=
    exists_reads_entries hes hcs.symm hdepth (hstart.of_reads hblanks h₁)
  have hstop := (reads_many (grammar.forward_call (depthFor cs))).mpr
    (.stop (h₂.rejects_separator (depthFor cs) (by rintro _ ⟨⟩)))
  have hread : Reads (grammar.call (depthFor cs)) listing (.ofText cs 0) m₂ (xs.getD []) :=
    reads_map.mpr ⟨xs, reads_first.mpr ⟨m₂, [], reads_second.mpr ⟨m₁, (), hblanks, hentries⟩,
      hstop⟩, rfl⟩
  have hparse : parseWith listing cs = .ok (xs.getD []) := parseWith_eq_ok.mpr ⟨m₂, hread, h₂.rest⟩
  rw [parse_eq, hcs, hparse, Except.map, hxs]

end Entries

/-- The roots of a listing that was parsed are faithful, and their texts trimmed. -/
theorem faithful_of_parse {text : String} {es : List (Entry Binary64)}
    (h : Listing.parse text = .ok es) : ∀ e ∈ es, ∀ r ∈ e.roots, r.Faithful ∧ r.trimmed = r := by
  rw [parse_eq] at h
  cases hparse : parseWith listing text.toList with
  | error _ =>
      rw [hparse] at h
      cases h
  | ok xs =>
      rw [hparse] at h
      obtain rfl := Except.ok.inj h
      obtain ⟨c, hread, -⟩ := parseWith_eq_ok.mp hparse
      intro e he r hr
      obtain ⟨x, hx, rfl⟩ := List.mem_map.mp he
      obtain ⟨slot, hslot, rfl⟩ := List.mem_map.mp hr
      obtain ⟨htrim, hdenotes⟩ := yields_listing (.refl _) hread x hx slot hslot
      refine ⟨⟨calculate_of_denotes ?_, rfl⟩, ?_⟩
      · rwa [rootOf, String.toList_ofList]
      · simp only [Root.trimmed, rootOf, String.toList_ofList, htrim]

end Listing

/-! ### Designs -/

/-- The label of a kind can be read. -/
theorem RootKind.isName_label (kind : RootKind) : IsName kind.label.toList := by
  cases kind <;> exact isName_of_all rfl

theorem RootKind.ofLabel?_label (kind : RootKind) : ofLabel? kind.label = some kind := by
  cases kind <;> rfl

namespace Design

/-- Each root of the design is faithful. -/
def Faithful (d : Design Binary64) : Prop := ∀ kind, ∀ r ∈ d.roots kind, r.Faithful

theorem modifyRoots_options {α : Type} (d : Design α) (kind : RootKind)
    (f : List (Root α) → List (Root α)) : (d.modifyRoots kind f).options = d.options := by
  cases kind <;> rfl

/-- The roots of one kind are changed, and no others. -/
theorem roots_modifyRoots {α : Type} (d : Design α) (kind k : RootKind)
    (f : List (Root α) → List (Root α)) :
    (d.modifyRoots kind f).roots k = if k = kind then f (d.roots k) else d.roots k := by
  cases kind <;> cases k <;> rfl

/-- Each root of a design with the entries added is one of the design or of the entries. -/
theorem of_addEntries {α : Type} {d d' : Design α} {es : List (Entry α)}
    (h : d.addEntries es = .ok d') : d'.options = d.options ∧
      ∀ kind, ∀ r ∈ d'.roots kind, r ∈ d.roots kind ∨ ∃ e ∈ es, r ∈ e.roots := by
  induction es generalizing d with
  | nil =>
      cases h
      exact ⟨rfl, fun kind r hr ↦ .inl hr⟩
  | cons e es ih =>
      rw [addEntries] at h
      split at h
      · rename_i kind _
        obtain ⟨hoptions, hroots⟩ := ih h
        refine ⟨hoptions.trans (d.modifyRoots_options kind _), fun k r hr ↦ ?_⟩
        rcases hroots k r hr with hr | ⟨x, hx, hr⟩
        · rw [roots_modifyRoots] at hr
          split at hr
          · exact (List.mem_append.mp hr).imp_right fun hr ↦ ⟨e, List.mem_cons_self, hr⟩
          · exact .inl hr
        · exact .inr ⟨x, List.mem_cons_of_mem e hx, hr⟩
      · cases h

/-- A faithful design is read back, with the texts of its roots trimmed. -/
theorem ofListing_toListing {d : Design Binary64} (h : d.Faithful) :
    ofListing d.toListing =
      .ok (ofRoots (d.zeros.map Root.trimmed) (d.poles.map Root.trimmed)) := by
  have hentries : ∀ e ∈ [RootKind.zero, .pole].map fun kind ↦ (⟨kind.label, d.roots kind⟩ :
      Entry Binary64), e.Faithful := by
    intro e he
    obtain ⟨kind, -, rfl⟩ := List.mem_map.mp he
    exact ⟨kind.isName_label, h kind⟩
  unfold ofListing toListing
  rw [Listing.parse_render hentries]
  simp only [List.map_cons, List.map_nil, Entry.trimmed, addEntries, RootKind.ofLabel?_label,
    modifyRoots, empty, ofRoots, roots, List.nil_append]

/-- A design that was read has faithful roots, trimmed texts and the standard options. -/
theorem faithful_of_ofListing {text : String} {d : Design Binary64} (h : ofListing text = .ok d) :
    d.Faithful ∧ (∀ kind, ∀ r ∈ d.roots kind, r.trimmed = r) ∧ d.options = .standard := by
  unfold ofListing at h
  split at h
  · cases h
  · rename_i es hparse
    obtain ⟨hoptions, hroots⟩ := of_addEntries h
    have hread (kind : RootKind) (r : Root Binary64) (hr : r ∈ d.roots kind) :
        r.Faithful ∧ r.trimmed = r := by
      rcases hroots kind r hr with hr | ⟨e, he, hr⟩
      · cases kind <;> simp [empty, ofRoots, roots] at hr
      · exact Listing.faithful_of_parse hparse e he r hr
    exact ⟨fun kind r hr ↦ (hread kind r hr).1, fun kind r hr ↦ (hread kind r hr).2, hoptions⟩

/-- A design that was read is read back as it is. -/
theorem ofListing_toListing_ofListing {text : String} {d : Design Binary64}
    (h : ofListing text = .ok d) : ofListing d.toListing = .ok d := by
  obtain ⟨hfaithful, htrimmed, hoptions⟩ := faithful_of_ofListing h
  have hself (kind : RootKind) : (d.roots kind).map Root.trimmed = d.roots kind :=
    (List.map_congr_left (htrimmed kind)).trans (List.map_id _)
  have hzeros : d.zeros.map Root.trimmed = d.zeros := hself .zero
  have hpoles : d.poles.map Root.trimmed = d.poles := hself .pole
  rw [ofListing_toListing hfaithful, hzeros, hpoles, ofRoots, ← hoptions]

end Design

/-- Rendered entries and designs are read back up to the blanks around their texts, and a design
that was read is read back as it is. -/
theorem listings_round_trip :
    (∀ es : List (Entry Binary64), (∀ e ∈ es, e.Faithful) →
      Listing.parse (Listing.render es) = .ok (es.map Entry.trimmed)) ∧
    (∀ d : Design Binary64, d.Faithful → Design.ofListing d.toListing =
      .ok (.ofRoots (d.zeros.map Root.trimmed) (d.poles.map Root.trimmed))) ∧
    ∀ (text : String) (d : Design Binary64), Design.ofListing text = .ok d →
      Design.ofListing d.toListing = .ok d := by
  refine ⟨?_, ?_, ?_⟩
  · intro es hes
    exact Listing.parse_render hes
  · intro d hd
    exact Design.ofListing_toListing hd
  · intro text d h
    exact Design.ofListing_toListing_ofListing h

/-- The first text has blanks around it, a comma and a line break in it. -/
def spacedRoots : List (Root Binary64) := [.parse " add(1,\n2)\t", .parse "-2 i"]

def spacedEntries : List (Entry Binary64) := [⟨"z_1", spacedRoots⟩, ⟨"none", []⟩]

theorem faithful_spacedRoots : ∀ r ∈ spacedRoots, r.Faithful := by
  intro r hr
  simp only [spacedRoots, List.mem_cons, List.not_mem_nil, or_false] at hr
  rcases hr with rfl | rfl
  · exact ⟨by decide +kernel, by decide +kernel⟩
  · exact ⟨by decide +kernel, by decide +kernel⟩

theorem faithful_spacedEntries : ∀ e ∈ spacedEntries, e.Faithful := by
  intro e he
  simp only [spacedEntries, List.mem_cons, List.not_mem_nil, or_false] at he
  rcases he with rfl | rfl
  · exact ⟨isName_of_all rfl, faithful_spacedRoots⟩
  · exact ⟨isName_of_all rfl, fun r hr ↦ absurd hr List.not_mem_nil⟩

/-- Roots with blanks and a line break in their texts. -/
theorem listings_round_trip_spaced :
    (∀ e ∈ spacedEntries, e.Faithful) ∧
    Listing.render spacedEntries = "z_1 = [  add(1,\n2)\t, -2 i ]\nnone = []" ∧
    Listing.parse (Listing.render spacedEntries) = .ok (spacedEntries.map Entry.trimmed) ∧
    (Design.ofRoots spacedRoots []).Faithful ∧
    Design.ofListing (Design.ofRoots spacedRoots []).toListing =
      .ok (.ofRoots (spacedRoots.map Root.trimmed) []) ∧
    Design.ofListing (Design.ofRoots (spacedRoots.map Root.trimmed) []).toListing =
      .ok (.ofRoots (spacedRoots.map Root.trimmed) []) := by
  have hdesign : (Design.ofRoots spacedRoots []).Faithful := by
    intro kind r hr
    cases kind with
    | pole => cases hr
    | zero => exact faithful_spacedRoots r hr
  obtain ⟨hentries, hdesigns, hagain⟩ := listings_round_trip
  have hread := hdesigns (Design.ofRoots spacedRoots []) hdesign
  exact ⟨faithful_spacedEntries, by decide +kernel, hentries _ faithful_spacedEntries, hdesign,
    hread, hagain _ _ hread⟩

end ZPlane
