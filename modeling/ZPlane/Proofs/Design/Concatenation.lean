import Mathlib
import ZPlane.Proofs.Design.Layout

/-!
# Listings one below the other

A line break ends an entry, so the entries of a listing are also those of the listing with further
lines below it.  The parser takes one separator between two entries, and any number of them behind
the last one.  Two listings one below the other are therefore a listing of the entries of both, but
only if the first one ends with at most one separator or the second one has no entries
(`parse_append_iff`).
-/

namespace ZPlane

open Parsing Parsing.Parser Calculator
open Text (skip)

namespace Listing

variable {a b cs p p' q q' t t' u v : List Char} {e e' : Entry Binary64}
variable {ea eb es es' : List (Entry Binary64)}

/-! ### Lines behind a layout -/

theorem apart_break (b : List Char) : Apart ('\n' :: b) := apart_cons (by decide) b

/-- The blanks of a line end before the line break at the latest. -/
theorem dropWhile_isGap_append (q b : List Char) :
    (q ++ '\n' :: b).dropWhile isGap = q.dropWhile isGap ++ '\n' :: b := by
  rw [List.dropWhile_append]
  cases q.dropWhile isGap with
  | nil | cons _ _ => rfl

theorem dropWhile_isGap_append_of_cons {c : Char} (h : q.dropWhile isGap = c :: u) (b : List Char) :
    (q ++ '\n' :: b).dropWhile isGap = c :: (u ++ '\n' :: b) := by
  rw [dropWhile_isGap_append, h, List.cons_append]

theorem IsSlot.append {r : Root Binary64} (h : IsSlot p q r) (b : List Char) :
    IsSlot (p ++ '\n' :: b) (q ++ '\n' :: b) r := by
  obtain ⟨hv, he⟩ := h
  have hskip := he.skip_append ('\n' :: b)
  refine .mk ?_ ?_
  · rw [hskip, hv, List.append_assoc]
  · rw [hskip]
    exact he.append (apart_break b)

theorem InBrackets.append {rs : List (Root Binary64)} (h : InBrackets p t rs) (b : List Char) :
    InBrackets (p ++ '\n' :: b) (t ++ '\n' :: b) rs := by
  cases h with
  | nil hp => exact .nil (Text.skip_append_of_eq_cons hp _)
  | filled hrow hq =>
      have hcomma {q u : List Char} (h : Comma q u) : Comma (q ++ '\n' :: b) (u ++ '\n' :: b) :=
        Text.skip_append_of_eq_cons h _
      exact .filled (hrow.append_text (fun h ↦ h.append b) hcomma)
        (Text.skip_append_of_eq_cons hq _)

/-- An entry begins with the first character of its label. -/
theorem IsEntry.begins (h : IsEntry p t e) : ∃ c u, skip p = c :: u ∧ isWord c = true := by
  obtain ⟨hw, -, -, -⟩ := h
  obtain ⟨c, u, rfl, hc⟩ := hw.mem.exists_first
  exact ⟨c, _, hw.append, hc⟩

/-- An entry stays one with lines appended to the text. -/
theorem IsEntry.append (h : IsEntry p t e) (b : List Char) :
    IsEntry (p ++ '\n' :: b) (t ++ '\n' :: b) e := by
  obtain ⟨c, u, hp, -⟩ := h.begins
  obtain ⟨hw, hq, hr, hs⟩ := h
  have hskip : skip (p ++ '\n' :: b) = skip p ++ '\n' :: b := by
    rw [Text.skip_append_of_eq_cons hp, hp, List.cons_append]
  exact .mk (hskip ▸ hw.append_name (apart_break b)) (dropWhile_isGap_append_of_cons hq b)
    (dropWhile_isGap_append_of_cons hr b) (hs.append b)

theorem Separated.append (h : Separated q u) (b : List Char) :
    Separated (q ++ '\n' :: b) (u ++ '\n' :: b) := by
  obtain ⟨c, hc, hq⟩ := h
  exact ⟨c, hc, dropWhile_isGap_append_of_cons hq b⟩

/-! ### Blanks in front of a layout -/

/-- The blanks in front of an entry do not matter. -/
theorem IsEntry.congr (hs : skip p = skip p') (h : IsEntry p t e) : IsEntry p' t e := by
  obtain ⟨hw, hq, hr, hb⟩ := h
  exact .mk (hs ▸ hw) hq hr hb

/-- The blanks in front of a row of entries do not matter. -/
theorem row_congr (hs : skip p = skip p') (h : Row IsEntry Separated t p es) :
    Row IsEntry Separated t p' es := by
  cases h with
  | last he => exact .last (he.congr hs)
  | more he hq hrow => exact .more (he.congr hs) hq hrow

/-- The blanks in front of a listing do not matter. -/
theorem IsListing.congr (hs : skip p = skip p') (h : IsListing p es) : IsListing p' es := by
  cases h with
  | nil ht => exact .nil (hs ▸ ht)
  | entries hrow ht => exact .entries (row_congr hs hrow) ht

/-- Blanks and a line break in front of a text are skipped. -/
theorem skip_append_break (hu : ∀ c ∈ u, Text.isBlank c = true) (b : List Char) :
    skip (u ++ '\n' :: b) = skip b := Text.skip_append_of_isBlank hu _

/-! ### Layouts are unique -/

/-- There is one entry at a place, and one place behind it but for blanks of the line. -/
theorem IsEntry.unique (h : IsEntry p q e) (h' : IsEntry p q' e') :
    q.dropWhile isGap = q'.dropWhile isGap ∧ e = e' := by
  have hstart := Stands.start (skip p)
  obtain ⟨m, x, hread, hm, rfl⟩ := h.exists_reads (Nat.lt_succ_self _) hstart
  obtain ⟨m', x', hread', hm', rfl⟩ := h'.exists_reads (Nat.lt_succ_self _) hstart
  obtain ⟨rfl, rfl⟩ := hread.unique hread'
  exact ⟨Remainder.chars.inj (hm.rest.symm.trans hm'.rest), rfl⟩

/-- Entries from one place are the same as far as both go. -/
theorem row_compare (h : Row IsEntry Separated t p es) (h' : Row IsEntry Separated t' p es') :
    (es' = es ∧ t.dropWhile isGap = t'.dropWhile isGap) ∨
      (∃ u js, Separated t u ∧ Row IsEntry Separated t' u js ∧ es' = es ++ js) ∨
      ∃ u js, Separated t' u ∧ Row IsEntry Separated t u js := by
  refine h.compare h' (fun he he' ↦ he.unique he') (fun hq hu ↦ ?_) fun hu hv ↦ ?_
  · obtain ⟨c, hc, hcons⟩ := hu
    exact ⟨c, hc, hq ▸ hcons⟩
  · obtain ⟨c, -, hc⟩ := hu
    obtain ⟨d, -, hd⟩ := hv
    exact (List.cons.inj (hc.symm.trans hd)).2

/-- A text is laid out as a listing of at most one list of entries. -/
theorem IsListing.unique (h : IsListing cs es) (h' : IsListing cs es') : es = es' := by
  rw [← String.toList_ofList (l := cs)] at h h'
  exact Except.ok.inj ((parse_eq_ok_iff.mpr h).symm.trans (parse_eq_ok_iff.mpr h'))

/-! ### What stands between entries and behind them -/

def IsFiller (c : Char) : Prop := c = ';' ∨ Text.isBlank c = true

theorem IsSeparator.isFiller {c : Char} (h : IsSeparator c) : IsFiller c := by
  rcases h with rfl | rfl
  · exact .inl rfl
  · exact .inr rfl

theorem isBlank_of_isGap {c : Char} (h : isGap c = true) : Text.isBlank c = true := by
  simp only [isGap, Bool.or_eq_true, decide_eq_true_eq] at h
  rcases h with (rfl | rfl) | rfl
  · rfl
  · rfl
  · rfl

/-- The blanks in front of a filler text are fillers too. -/
theorem isFiller_of_skip (h : ∀ c ∈ skip t, IsFiller c) : ∀ c ∈ t, IsFiller c := by
  intro c hc
  rw [← Text.takeWhile_append_skip t, List.mem_append] at hc
  exact hc.elim (fun hc ↦ .inr (List.mem_takeWhile_imp hc)) (h c)

/-- The blanks of the line in front of a filler text are fillers too. -/
theorem isFiller_of_dropWhile (h : ∀ c ∈ t.dropWhile isGap, IsFiller c) : ∀ c ∈ t, IsFiller c := by
  intro c hc
  rw [← List.takeWhile_append_dropWhile (p := isGap) (l := t), List.mem_append] at hc
  exact hc.elim (fun hc ↦ .inr (isBlank_of_isGap (List.mem_takeWhile_imp hc))) (h c)

theorem Trails.isFiller (h : Trails t) : ∀ c ∈ t, IsFiller c := by
  induction h with
  | nil => exact fun c hc ↦ absurd hc List.not_mem_nil
  | cons hd _ ih =>
      intro c hc
      rcases List.mem_cons.mp hc with rfl | hc
      · exact hd.isFiller
      · exact isFiller_of_skip ih c hc

/-- Fillers behind blanks are separators, each with the blanks behind it. -/
theorem trails_skip (h : ∀ c ∈ t, IsFiller c) : Trails (skip t) := by
  induction hn : t.length using Nat.strong_induction_on generalizing t with
  | _ n ih =>
      cases hs : skip t with
      | nil => exact .nil
      | cons c u =>
          have hsuffix := Text.skip_suffix t
          rw [hs] at hsuffix
          have hc : c = ';' := by
            refine (h c (hsuffix.subset List.mem_cons_self)).resolve_right ?_
            rw [Text.isBlank_of_skip hs]
            exact Bool.false_ne_true
          have hlength := hsuffix.length_le
          rw [List.length_cons] at hlength
          have hu : ∀ d ∈ u, IsFiller d := fun d hd ↦
            h d (hsuffix.subset (List.mem_cons_of_mem c hd))
          exact .cons (.inl hc) (ih u.length (by omega) hu rfl)

/-- A listing of nothing has only fillers. -/
theorem isListing_nil_iff : IsListing cs [] ↔ ∀ c ∈ cs, IsFiller c := by
  constructor
  · intro h
    cases h with
    | nil ht => exact isFiller_of_skip ht.isFiller
    | entries hrow => cases hrow
  · exact fun h ↦ .nil (trails_skip h)

/-- In front of an entry, what may stand between two entries is blank. -/
theorem isBlank_of_isFiller {c : Char} (h : ∀ d ∈ u, IsFiller d) (hs : skip (u ++ b) = c :: v)
    (hc : isWord c = true) : ∀ d ∈ u, Text.isBlank d = true := by
  induction u with
  | nil => exact fun d hd ↦ absurd hd List.not_mem_nil
  | cons d u ih =>
      rcases h d List.mem_cons_self with rfl | hd
      · rw [List.cons_append, Text.skip_cons_of_not_isBlank rfl] at hs
        obtain ⟨rfl, -⟩ := List.cons.inj hs
        cases hc
      · have hs' : skip (u ++ b) = c :: v := by
          rw [← hs]
          exact (List.dropWhile_cons_of_pos hd).symm
        exact List.forall_mem_cons.mpr ⟨hd, ih (fun x hx ↦ h x (List.mem_cons_of_mem d hx)) hs'⟩

/-- A row of entries begins with a character of a label. -/
theorem row_begins (h : Row IsEntry Separated t p es) :
    ∃ c u, skip p = c :: u ∧ isWord c = true := by
  cases h with
  | last he => exact he.begins
  | more he _ _ => exact he.begins

/-- A text with an entry has a character that is no filler. -/
theorem not_isFiller_of_row (h : Row IsEntry Separated t p es) : ¬ ∀ c ∈ p, IsFiller c := by
  intro hfiller
  obtain ⟨c, u, hs, hc⟩ := row_begins h
  have hblank := isBlank_of_isFiller (b := []) hfiller (by rwa [List.append_nil]) hc
  rw [skip, List.dropWhile_eq_nil_iff.mpr hblank] at hs
  cases hs

/-! ### The end of a listing -/

/-- At most one separator, and blanks behind it. -/
def AtMostOne (t : List Char) : Prop :=
  t = [] ∨ ∃ c u, IsSeparator c ∧ t = c :: u ∧ ∀ d ∈ u, Text.isBlank d = true

/-- The text is blank, or has at most one separator behind its last bracket. -/
def EndsOnce (cs : List Char) : Prop :=
  (∀ c ∈ cs, Text.isBlank c = true) ∨
    ∃ u t, cs = u ++ ']' :: t ∧ AtMostOne (t.dropWhile isGap)

theorem AtMostOne.isFiller (h : AtMostOne t) : ∀ c ∈ t, IsFiller c := by
  rcases h with rfl | ⟨c, u, hc, rfl, hu⟩
  · exact fun c hc ↦ absurd hc List.not_mem_nil
  · exact List.forall_mem_cons.mpr ⟨hc.isFiller, fun d hd ↦ .inr (hu d hd)⟩

/-- There is no bracket to be closed among fillers. -/
theorem not_mem_of_isFiller (h : ∀ c ∈ t.dropWhile isGap, IsFiller c) : ']' ∉ t := by
  intro hmem
  rcases isFiller_of_dropWhile h ']' hmem with h | h
  · cases h
  · cases h

/-- What is behind the last character of its kind is the same wherever the text is cut there. -/
theorem eq_of_append_cons_eq {c : Char} (h : u ++ c :: t = v ++ c :: q) (ht : c ∉ t) (hq : c ∉ q) :
    t = q := by
  rcases List.append_eq_append_iff.mp h with ⟨w, rfl, hw⟩ | ⟨w, rfl, hw⟩
  · cases w with
    | nil => exact (List.cons.inj hw).2
    | cons d w =>
        obtain ⟨rfl, rfl⟩ := List.cons.inj hw
        exact absurd (List.mem_append_right w List.mem_cons_self) ht
  · cases w with
    | nil => exact (List.cons.inj hw).2.symm
    | cons d w =>
        obtain ⟨rfl, rfl⟩ := List.cons.inj hw
        exact absurd (List.mem_append_right w List.mem_cons_self) hq

theorem Comma.suffix (h : Comma q u) : u <:+ q :=
  (List.suffix_cons ',' u).trans (h ▸ Text.skip_suffix q)

theorem Separated.suffix (h : Separated q u) : u <:+ q := by
  obtain ⟨c, -, hq⟩ := h
  exact (List.suffix_cons c u).trans (hq ▸ List.dropWhile_suffix isGap)

theorem IsSlot.suffix {r : Root Binary64} (h : IsSlot p q r) : q <:+ p := by
  obtain ⟨hv, -⟩ := h
  exact (List.suffix_append _ q).trans (hv ▸ Text.skip_suffix p)

theorem InBrackets.suffix {rs : List (Root Binary64)} (h : InBrackets p t rs) : ']' :: t <:+ p := by
  cases h with
  | nil hp => exact hp ▸ Text.skip_suffix p
  | filled hrow hq => exact (hq ▸ Text.skip_suffix _).trans (hrow.suffix IsSlot.suffix Comma.suffix)

/-- The closing bracket of an entry comes after its beginning. -/
theorem IsEntry.suffix (h : IsEntry p t e) : ']' :: t <:+ p := by
  obtain ⟨hw, hq, hr, hs⟩ := h
  have hp := (List.suffix_append _ _).trans (hw.append ▸ Text.skip_suffix p)
  have hr' := (List.suffix_cons _ _).trans ((hq ▸ List.dropWhile_suffix isGap).trans hp)
  have hs' := (List.suffix_cons _ _).trans ((hr ▸ List.dropWhile_suffix isGap).trans hr')
  exact hs.suffix.trans hs'

theorem row_suffix (h : Row IsEntry Separated t p es) : ']' :: t <:+ p := by
  induction h with
  | last he => exact he.suffix
  | more he hq _ ih =>
      exact ih.trans (hq.suffix.trans ((List.suffix_cons ']' _).trans he.suffix))

theorem EndsOnce.isBlank (h : EndsOnce a) (ha : ∀ c ∈ a, IsFiller c) :
    ∀ c ∈ a, Text.isBlank c = true := by
  rcases h with hblank | ⟨u, t, rfl, -⟩
  · exact hblank
  · rcases ha ']' (List.mem_append_right u List.mem_cons_self) with h | h
    · cases h
    · cases h

/-- Whether a listing ends with at most one separator is seen behind its last entry. -/
theorem endsOnce_iff_of_row (h : Row IsEntry Separated t a es) (ht : Trails (t.dropWhile isGap)) :
    EndsOnce a ↔ AtMostOne (t.dropWhile isGap) := by
  obtain ⟨u, hu⟩ := row_suffix h
  constructor
  · rintro (hblank | ⟨v, q, hv, hq⟩)
    · exact absurd (fun c hc ↦ .inr (hblank c hc)) (not_isFiller_of_row h)
    · obtain rfl := eq_of_append_cons_eq (hu.trans hv) (not_mem_of_isFiller ht.isFiller)
        (not_mem_of_isFiller hq.isFiller)
      exact hq
  · exact fun ht ↦ .inr ⟨u, t, hu.symm, ht⟩

/-! ### Two listings -/

/-- A row of entries stays one with lines appended to the text. -/
theorem row_append_lines (h : Row IsEntry Separated t p es) (b : List Char) :
    Row IsEntry Separated (t ++ '\n' :: b) (p ++ '\n' :: b) es :=
  h.append_text (fun he ↦ he.append b) (fun hq ↦ hq.append b)

/-- Separators and blanks may follow a listing. -/
theorem IsListing.append_filler (h : IsListing a es) (hb : ∀ c ∈ b, IsFiller c) :
    IsListing (a ++ '\n' :: b) es := by
  have hlater : ∀ c ∈ '\n' :: b, IsFiller c := List.forall_mem_cons.mpr ⟨.inr rfl, hb⟩
  cases h with
  | nil ht =>
      refine isListing_nil_iff.mpr fun c hc ↦ ?_
      exact (List.mem_append.mp hc).elim (isFiller_of_skip ht.isFiller c) (hlater c)
  | @entries t _ hrow ht =>
      refine .entries (row_append_lines hrow b) ?_
      rw [dropWhile_isGap_append]
      generalize t.dropWhile isGap = r at ht
      cases ht with
      | nil => exact .cons (.inr rfl) (trails_skip hb)
      | @cons c u hc hu =>
          refine .cons hc (trails_skip fun d hd ↦ ?_)
          exact (List.mem_append.mp hd).elim (isFiller_of_skip hu.isFiller d) (hlater d)

/-- Behind at most one separator the entries of another listing may follow. -/
theorem IsListing.append (ha : IsListing a ea) (hb : IsListing b eb) (h : EndsOnce a) :
    IsListing (a ++ '\n' :: b) (ea ++ eb) := by
  cases ha with
  | nil hta =>
      have hblank := h.isBlank (isFiller_of_skip hta.isFiller)
      exact hb.congr (skip_append_break hblank b).symm
  | @entries t _ hrow ht =>
      cases hb with
      | nil htb =>
          rw [List.append_nil]
          exact (IsListing.entries hrow ht).append_filler (isFiller_of_skip htb.isFiller)
      | entries hrowb htb =>
          obtain ⟨v, hv, hs⟩ : ∃ v, Separated (t ++ '\n' :: b) v ∧ skip b = skip v := by
            rcases (endsOnce_iff_of_row hrow ht).mp h with hnil | ⟨c, u, hc, hcons, hu⟩
            · refine ⟨b, ⟨'\n', .inr rfl, ?_⟩, rfl⟩
              rw [dropWhile_isGap_append, hnil, List.nil_append]
            · exact ⟨u ++ '\n' :: b, ⟨c, hc, dropWhile_isGap_append_of_cons hcons b⟩,
                (skip_append_break hu b).symm⟩
          exact .entries ((row_append_lines hrow b).append hv (row_congr hs hrowb)) htb

/-- Behind separators, a line break leads on to an entry only if there is at most one of them. -/
theorem separated_append (h : Separated (t ++ '\n' :: b) v) (ht : Trails (t.dropWhile isGap))
    (hv : ∃ c u, skip v = c :: u ∧ isWord c = true) :
    AtMostOne (t.dropWhile isGap) ∧ skip v = skip b := by
  obtain ⟨c, hc, hcons⟩ := h
  obtain ⟨d, w, hs, hd⟩ := hv
  rw [dropWhile_isGap_append] at hcons
  have hfiller := ht.isFiller
  generalize t.dropWhile isGap = r at hcons hfiller
  cases r with
  | nil =>
      obtain ⟨-, rfl⟩ := List.cons.inj hcons
      exact ⟨.inl rfl, rfl⟩
  | cons x u =>
      obtain ⟨rfl, rfl⟩ := List.cons.inj hcons
      have hblank : ∀ y ∈ u, Text.isBlank y = true :=
        isBlank_of_isFiller (fun y hy ↦ hfiller y (List.mem_cons_of_mem x hy)) hs hd
      exact ⟨.inr ⟨x, u, hc, rfl, hblank⟩, skip_append_break hblank b⟩

/-- If nothing but separators and blanks is below, then the second listing has no entries. -/
theorem eq_nil_of_isFiller (hb : IsListing b eb) (h : ∀ c ∈ '\n' :: b, IsFiller c) : eb = [] :=
  hb.unique (isListing_nil_iff.mpr fun c hc ↦ h c (List.mem_cons_of_mem _ hc))

/-- Below a listing without entries there is the second one, if not only separators. -/
theorem IsListing.of_filler_append (ha : ∀ c ∈ a, IsFiller c) (hb : IsListing b eb)
    (h : IsListing (a ++ '\n' :: b) es) :
    es = eb ∧ (eb = [] ∨ ∀ c ∈ a, Text.isBlank c = true) := by
  cases h with
  | nil ht =>
      have hall := isFiller_of_skip ht.isFiller
      obtain rfl := eq_nil_of_isFiller hb fun c hc ↦ hall c (List.mem_append_right a hc)
      exact ⟨rfl, .inl rfl⟩
  | entries hrow ht =>
      obtain ⟨c, u, hs, hc⟩ := row_begins hrow
      have hblank := isBlank_of_isFiller ha hs hc
      have hes := (IsListing.entries hrow ht).congr (skip_append_break hblank b)
      exact ⟨hes.unique hb, .inr hblank⟩

/-- What two listings one below the other are a listing of. -/
theorem IsListing.of_append (ha : IsListing a ea) (hb : IsListing b eb)
    (h : IsListing (a ++ '\n' :: b) es) : es = ea ++ eb ∧ (eb = [] ∨ EndsOnce a) := by
  cases ha with
  | nil hta =>
      obtain ⟨rfl, hblank⟩ := IsListing.of_filler_append (isFiller_of_skip hta.isFiller) hb h
      exact ⟨rfl, hblank.imp_right .inl⟩
  | @entries t _ hrow ht =>
      cases h with
      | nil ht' =>
          have hall := isFiller_of_skip ht'.isFiller
          exact absurd (fun c hc ↦ hall c (List.mem_append_left _ hc)) (not_isFiller_of_row hrow)
      | @entries t' _ hrow' ht' =>
          have hall := ht'.isFiller
          rcases row_compare (row_append_lines hrow b) hrow' with
            ⟨rfl, hrest⟩ | ⟨v, js, hv, hjs, rfl⟩ | ⟨v, js, hv, hjs⟩
          · rw [← hrest, dropWhile_isGap_append] at hall
            obtain rfl := eq_nil_of_isFiller hb fun c hc ↦ hall c (List.mem_append_right _ hc)
            exact ⟨(List.append_nil _).symm, .inl rfl⟩
          · obtain ⟨honce, hs⟩ := separated_append hv ht (row_begins hjs)
            obtain rfl := hb.unique (.entries (row_congr hs hjs) ht')
            exact ⟨rfl, .inr ((endsOnce_iff_of_row hrow ht).mpr honce)⟩
          · -- The entries of the first listing do not end where only separators are behind.
            obtain ⟨c, -, hcons⟩ := hv
            rw [hcons] at hall
            exact absurd (fun d hd ↦ hall d (List.mem_cons_of_mem c hd)) (not_isFiller_of_row hjs)

/-! ### Two texts -/

/-- Of two texts that are parsed, the second below the first is parsed to the entries of both, if
the second has none or the first ends with at most one separator, and else it is not parsed. -/
theorem parse_append_iff {a b : String} {ea eb : List (Entry Binary64)}
    (ha : Listing.parse a = .ok ea) (hb : Listing.parse b = .ok eb) (es : List (Entry Binary64)) :
    Listing.parse (a ++ "\n" ++ b) = .ok es ↔ es = ea ++ eb ∧ (eb = [] ∨ EndsOnce a.toList) := by
  have ha' := parse_eq_ok_iff.mp ha
  have hb' := parse_eq_ok_iff.mp hb
  have htext : (a ++ "\n" ++ b).toList = a.toList ++ '\n' :: b.toList := by
    rw [String.toList_append, String.toList_append, List.append_assoc]
    rfl
  rw [parse_eq_ok_iff, htext]
  constructor
  · exact ha'.of_append hb'
  · rintro ⟨rfl, rfl | hends⟩
    · rw [List.append_nil]
      exact ha'.append_filler (isListing_nil_iff.mp hb')
    · exact ha'.append hb' hends

/-- The entry of a label and one slot with a number. -/
def oneSlot (label text : String) (n : ℕ) : Entry Binary64 :=
  ⟨label, [⟨text, (Expr.number (Decimal.toBinary64 ⟨false, n, 0⟩)).value, none⟩]⟩

/-- One separator, with blanks on either side of it. -/
theorem parse_append_iff_one_separator :
    Listing.parse "a=[1] ; \n" = .ok [oneSlot "a" "1" 1] ∧
    Listing.parse "\nb=[2];;" = .ok [oneSlot "b" "2" 2] ∧
    Listing.parse ("a=[1] ; \n" ++ "\n" ++ "\nb=[2];;") =
      .ok [oneSlot "a" "1" 1, oneSlot "b" "2" 2] := by
  have ha : Listing.parse "a=[1] ; \n" = .ok [oneSlot "a" "1" 1] := by decide +kernel
  have hb : Listing.parse "\nb=[2];;" = .ok [oneSlot "b" "2" 2] := by decide +kernel
  have hblank : ∀ c ∈ [' ', '\n'], Text.isBlank c = true := by
    simp only [List.forall_mem_cons]
    exact ⟨rfl, rfl, by simp⟩
  have hends : EndsOnce "a=[1] ; \n".toList :=
    .inr ⟨"a=[1".toList, [' ', ';', ' ', '\n'], rfl, .inr ⟨';', _, .inl rfl, rfl, hblank⟩⟩
  exact ⟨ha, hb, (parse_append_iff ha hb _).mpr ⟨rfl, .inr hends⟩⟩

/-- Separators that are accepted behind a listing are not all accepted between two of them. -/
theorem not_parse_append : ¬ ∀ (a b : String) (ea eb : List (Entry Binary64)),
    Listing.parse a = .ok ea → Listing.parse b = .ok eb →
      Listing.parse (a ++ "\n" ++ b) = .ok (ea ++ eb) := by
  intro h
  have hparse := h "a=[1];;" "b=[2]" [oneSlot "a" "1" 1] [oneSlot "b" "2" 2]
    (by decide +kernel) (by decide +kernel)
  have hrejected : Listing.parse "a=[1];;\nb=[2]" ≠
      .ok [oneSlot "a" "1" 1, oneSlot "b" "2" 2] := by decide +kernel
  exact hrejected hparse

end Listing

end ZPlane
