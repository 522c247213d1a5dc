import Mathlib
import ZPlane.Proofs.Design.RoundTrip

/-!
# The layout of a listing

What a listing looks like, without its parser: entries with one separator between each two of them
(`Row`), and behind the last one separators and blanks (`Trails`).  A text is parsed just if it is
laid out so, and then to the entries of its layout (`parse_eq_ok_iff`).

A place of a layout is that right behind a token.  The parser stands behind the blanks there, which
are those of the line behind an entry, and all blanks elsewhere.
-/

namespace ZPlane

open Parsing Parsing.Parser Calculator
open Text (skip)

/-! ### Items in a row -/

/-- Items from a place on, the last of them up to `t`.  From the place behind each of the others,
`next` leads on to the one after it. -/
inductive Row {ι : Type} (item : List Char → List Char → ι → Prop)
    (next : List Char → List Char → Prop) (t : List Char) : List Char → List ι → Prop
  | last {p : List Char} {i : ι} : item p t i → Row item next t p [i]
  | more {p q u : List Char} {i : ι} {is : List ι} : item p q i → next q u →
      Row item next t u is → Row item next t p (i :: is)

namespace Row

variable {ι : Type} {item : List Char → List Char → ι → Prop}
variable {next : List Char → List Char → Prop} {p q t u : List Char} {is js : List ι}

theorem append (h : Row item next t p is) (ht : next t u) (hu : Row item next q u js) :
    Row item next q p (is ++ js) := by
  induction h with
  | last hi => exact .more hi ht hu
  | more hi hnext _ ih => exact .more hi hnext ih

/-- A row stays one with text behind it if its items and the ways between them do. -/
theorem append_text {x : List Char}
    (hitem : ∀ {p q i}, item p q i → item (p ++ x) (q ++ x) i)
    (hnext : ∀ {q u}, next q u → next (q ++ x) (u ++ x)) (h : Row item next t p is) :
    Row item next (t ++ x) (p ++ x) is := by
  induction h with
  | last hi => exact .last (hitem hi)
  | more hi hq _ ih => exact .more (hitem hi) (hnext hq) ih

theorem suffix (hitem : ∀ {p q i}, item p q i → q <:+ p) (hnext : ∀ {q u}, next q u → u <:+ q)
    (h : Row item next t p is) : t <:+ p := by
  induction h with
  | last hi => exact hitem hi
  | more hi hq _ ih => exact ih.trans ((hnext hq).trans (hitem hi))

/-- Two rows from one place have the same items as far as both go. -/
theorem compare {rest : List Char → List Char} {t' : List Char} (h : Row item next t p is)
    (h' : Row item next t' p js)
    (hitem : ∀ {p q q' i i'}, item p q i → item p q' i' → rest q = rest q' ∧ i = i')
    (hnext : ∀ {q q' u}, rest q = rest q' → next q u → next q' u)
    (hunique : ∀ {q u u'}, next q u → next q u' → u = u') :
    (js = is ∧ rest t = rest t') ∨
      (∃ u ks, next t u ∧ Row item next t' u ks ∧ js = is ++ ks) ∨
      ∃ u ks, next t' u ∧ Row item next t u ks := by
  induction h generalizing js with
  | last hi =>
      cases h' with
      | last hi' =>
          obtain ⟨ht, rfl⟩ := hitem hi hi'
          exact .inl ⟨rfl, ht⟩
      | more hi' hq' hrow =>
          obtain ⟨ht, rfl⟩ := hitem hi hi'
          exact .inr (.inl ⟨_, _, hnext ht.symm hq', hrow, rfl⟩)
  | more hi hq hrow ih =>
      cases h' with
      | last hi' =>
          obtain ⟨ht, rfl⟩ := hitem hi hi'
          exact .inr (.inr ⟨_, _, hnext ht hq, hrow⟩)
      | more hi' hq' hrow' =>
          obtain ⟨ht, rfl⟩ := hitem hi hi'
          obtain rfl := hunique (hnext ht hq) hq'
          rcases ih hrow' with ⟨rfl, ht⟩ | ⟨u, ks, hu, hks, rfl⟩ | hlonger
          · exact .inl ⟨rfl, ht⟩
          · exact .inr (.inl ⟨u, ks, hu, hks, rfl⟩)
          · exact .inr (.inr hlonger)

end Row

section Reading

variable {α β ι : Type} {parser : Parser (fun _ : Rule ↦ Expr) α}
variable {separator : Parser (fun _ : Rule ↦ Expr) β} {f : α → ι}
variable {item : List Char → List Char → ι → Prop} {next : List Char → List Char → Prop}
variable {rest : List Char → List Char} {cs p t : List Char} {depth : ℕ} {c m : Cursor}

/-- What is read with separators in between is a row. -/
theorem exists_row (hitem : ∀ {c m p a}, Stands cs c (skip p) →
      Reads (grammar.call depth) parser c m a → ∃ q, item p q (f a) ∧ Stands cs m (rest q))
    (hnext : ∀ {c m q b}, Stands cs c (rest q) →
      Reads (grammar.call depth) separator c m b → ∃ u, next q u ∧ Stands cs m (skip u))
    {as : List α} (hc : Stands cs c (skip p))
    (h : Reads (grammar.call depth) (parser.sepBy separator) c m as) :
    ∃ t, Row item next t p (as.map f) ∧ Stands cs m (rest t) := by
  obtain ⟨⟨a, as⟩, hboth, rfl⟩ := reads_map.mp h
  obtain ⟨m₁, ha, has⟩ := reads_both.mp hboth
  obtain ⟨q, hq, hm₁⟩ := hitem hc ha
  have hrep := (reads_many (grammar.forward_call depth)).mp has
  -- The item in front of the repetition is the first of the row, so it changes with the induction.
  clear hc h hboth ha has
  dsimp only at hrep hq ⊢
  induction hrep generalizing a p q with
  | stop | idle => exact ⟨q, .last hq, hm₁⟩
  | more hread _ _ ih =>
      obtain ⟨m₂, b, hb, ha⟩ := reads_second.mp hread
      obtain ⟨u, hu, hm₂⟩ := hnext hm₁ hb
      obtain ⟨q', hq', hm₃⟩ := hitem hm₂ ha
      obtain ⟨t, hrow, hm⟩ := ih _ _ hq' hm₃
      exact ⟨t, .more hq hu hrow, hm⟩

/-- A row is read, each item where the row ends or goes on behind it. -/
theorem Row.exists_reads {is : List ι} (h : Row item next t p is)
    (hitem : ∀ {c p q i}, item p q i → (q = t ∨ ∃ u, next q u) → Stands cs c (skip p) →
      ∃ m a, Reads (grammar.call depth) parser c m a ∧ Stands cs m (rest q) ∧ f a = i)
    (hnext : ∀ {c q u}, next q u → Stands cs c (rest q) →
      ∃ m b, Reads (grammar.call depth) separator c m b ∧ c.offset < m.offset ∧
        Stands cs m (skip u))
    (hstop : ∀ {c}, Stands cs c (rest t) →
      Rejects (grammar.call depth) (separator.second parser) c)
    (hc : Stands cs c (skip p)) :
    ∃ m as, Reads (grammar.call depth) (parser.sepBy separator) c m as ∧ Stands cs m (rest t) ∧
      as.map f = is := by
  have hforward := grammar.forward_call depth
  obtain ⟨m₁, a, m, as, ha, has, hm, rfl⟩ : ∃ m₁ a m as,
      Reads (grammar.call depth) parser c m₁ a ∧
      Repeats (grammar.call depth) (separator.second parser) m₁ m as ∧ Stands cs m (rest t) ∧
      (a :: as).map f = is := by
    induction h generalizing c with
    | last hi =>
        obtain ⟨m, a, ha, hm, rfl⟩ := hitem hi (.inl rfl) hc
        exact ⟨m, a, m, [], ha, .stop (hstop hm), hm, rfl⟩
    | more hi hq _ ih =>
        obtain ⟨m₁, a, ha, hm₁, rfl⟩ := hitem hi (.inr ⟨_, hq⟩) hc
        obtain ⟨m₂, b, hb, hlt, hm₂⟩ := hnext hq hm₁
        obtain ⟨m₃, a', m, as, ha', has, hm, rfl⟩ := ih hm₂
        have hle := (ha'.reaches hforward).offset_le
        exact ⟨m₁, a, m, a' :: as, ha, .more (reads_second.mpr ⟨m₂, b, hb, ha'⟩) (by omega) has,
          hm, rfl⟩
  refine ⟨m, a :: as, reads_map.mpr ⟨(a, as), ?_, rfl⟩, hm, rfl⟩
  exact reads_both.mpr ⟨m₁, ha, (reads_many hforward).mpr has⟩

end Reading

/-! ### What tokens leave behind -/

namespace Stands

open Listing

variable {cs r s t : List Char} {c m : Cursor} {depth : ℕ} {v : String}

/-- A literal is read where the text has it. -/
theorem of_literal {w : String} (h : Stands cs c r)
    (hread : Reads (grammar.call depth) (literal w) c m v) :
    ∃ s, r = w.toList ++ s ∧ Stands cs m s := by
  obtain ⟨_, s, ⟨happ, rfl, -⟩, -, hs⟩ :=
    (takes_token (measures_literal w.toList)).longest h.rest hread
  exact ⟨s, happ, h.of_reads hread hs⟩

/-- A symbol is read where the text has it, and the blanks behind it. -/
theorem of_symbol {w : String} (h : Stands cs c r)
    (hread : Reads (grammar.call depth) (symbol w) c m v) :
    ∃ s, r = w.toList ++ s ∧ Stands cs m (skip s) := by
  obtain ⟨s, happ, hs⟩ := hread.symbol h.rest
  exact ⟨s, happ, h.of_reads hread hs⟩

/-- The blanks of the line are read as far as they go. -/
theorem of_gap (h : Stands cs c r) (hread : Reads (grammar.call depth) gap c m v) :
    Stands cs m (r.dropWhile isGap) := by
  obtain ⟨m', _, hread', hm'⟩ := h.exists_reads_gap depth
  obtain ⟨rfl, -⟩ := hread.unique hread'
  exact hm'

/-- A separator is read with the blanks behind it. -/
theorem of_separator (h : Stands cs c r) (hread : Reads (grammar.call depth) separator c m v) :
    ∃ d s, IsSeparator d ∧ r = d :: s ∧ Stands cs m (skip s) := by
  by_cases hr : ∃ d ∈ r.head?, IsSeparator d
  · obtain ⟨d, hhead, hd⟩ := hr
    obtain ⟨s, rfl⟩ := List.head?_eq_some_iff.mp hhead
    obtain ⟨m', _, hread', -, hm'⟩ := h.exists_reads_separator depth hd
    obtain ⟨rfl, -⟩ := hread.unique hread'
    exact ⟨d, s, hd, rfl, hm'⟩
  · exact absurd (h.rejects_separator depth fun d hd hsep ↦ hr ⟨d, hd, hsep⟩) hread.not_rejects

end Stands

namespace Listing

variable {cs p q t u : List Char} {c m : Cursor} {depth : ℕ}

/-! ### The parts of a layout -/

/-- A slot says an expression, and its root has the text of that. -/
inductive IsSlot : List Char → List Char → Root Binary64 → Prop
  | mk {p q v : List Char} {e : Expr} : skip p = v ++ q → Derives .sum (skip p) q e →
      IsSlot p q ⟨String.ofList v, e.value, none⟩

def Comma (q u : List Char) : Prop := skip q = ',' :: u

/-- The slots behind an opening bracket, and the closing one in front of `t`. -/
inductive InBrackets : List Char → List Char → List (Root Binary64) → Prop
  | nil {p t : List Char} : skip p = ']' :: t → InBrackets p t []
  | filled {p q t : List Char} {as : List (Root Binary64)} : Row IsSlot Comma q p as →
      skip q = ']' :: t → InBrackets p t as

/-- An entry up to its closing bracket. -/
inductive IsEntry : List Char → List Char → Entry Binary64 → Prop
  | mk {p q r s t w : List Char} {as : List (Root Binary64)} : Longest IsName (skip p) w q →
      q.dropWhile isGap = '=' :: r → r.dropWhile isGap = '[' :: s → InBrackets s t as →
      IsEntry p t ⟨String.ofList w, as⟩

/-- One separator leads on from behind an entry, with blanks of the line in front of it. -/
def Separated (q u : List Char) : Prop := ∃ c, IsSeparator c ∧ q.dropWhile isGap = c :: u

/-- Separators, each with the blanks behind it. -/
inductive Trails : List Char → Prop
  | nil : Trails []
  | cons {c : Char} {u : List Char} : IsSeparator c → Trails (skip u) → Trails (c :: u)

/-- The text is laid out as a listing of the entries. -/
inductive IsListing (cs : List Char) : List (Entry Binary64) → Prop
  | nil : Trails (skip cs) → IsListing cs []
  | entries {t : List Char} {es : List (Entry Binary64)} : Row IsEntry Separated t cs es →
      Trails (t.dropWhile isGap) → IsListing cs es

/-! ### Slots -/

/-- The bytes of an expression, without the blanks behind it, are its text. -/
theorem exists_slice {e : Expr} (hc : Stands cs c (skip p)) (hm : Stands cs m (skip q))
    (h : Derives .sum (skip p) q e) :
    ∃ v, skip p = v ++ q ∧ Span.slice ⟨c.offset, m.offset⟩ cs = v := by
  obtain ⟨v, hv, he⟩ := Derives.exists_cut (r := []) h
  refine ⟨v, hv, ?_⟩
  rw [hv, ← Text.takeWhile_append_skip q, ← List.append_assoc] at hc
  rw [hc.slice hm]
  exact Text.trim_append he.skip_eq he.leaves fun _ hd ↦ List.mem_takeWhile_imp hd

/-- What is read as an expression is a slot. -/
theorem isSlot_of_reads {slot : Expr × Span} (hc : Stands cs c (skip p))
    (h : Reads (grammar.call depth) (spanned (rule .expression)) c m slot) :
    ∃ q, IsSlot p q (rootOf cs slot) ∧ Stands cs m (skip q) := by
  obtain ⟨e, span⟩ := slot
  obtain ⟨hread, rfl⟩ := reads_spanned.mp h
  obtain ⟨q, hq, he⟩ := sound_expression depth hc.rest hread
  have hm := hc.of_reads hread hq
  obtain ⟨v, hv, hslice⟩ := exists_slice hc hm he
  refine ⟨q, ?_, hm⟩
  rw [rootOf, hslice]
  exact .mk hv he

/-- A slot is read up to what stops a sum. -/
theorem IsSlot.exists_reads {a : Root Binary64} (h : IsSlot p q a) (hq : Stops .sum (skip q))
    (hdepth : cs.length < depth) (hc : Stands cs c (skip p)) :
    ∃ m slot, Reads (grammar.call depth) (spanned (rule .expression)) c m slot ∧
      Stands cs m (skip q) ∧ rootOf cs slot = a := by
  obtain ⟨hv, he⟩ := h
  obtain ⟨m, hread, hrest⟩ :=
    he.complete.reads_rule (lt_of_le_of_lt hc.length_le hdepth) hq hc.rest
  have hm := hc.of_reads hread hrest
  obtain ⟨v', hv', hslice⟩ := exists_slice hc hm he
  obtain rfl := List.append_cancel_right (hv'.symm.trans hv)
  exact ⟨m, _, reads_spanned.mpr ⟨hread, rfl⟩, hm, by rw [rootOf, hslice]⟩

/-! ### Brackets -/

/-- What is read as slots up to a bracket is laid out as slots in brackets. -/
theorem inBrackets_of_reads {ss : List (Expr × Span)} {m' : Cursor} {v : String}
    (hc : Stands cs c (skip p)) (hss : Reads (grammar.call depth) (slots (rule .expression)) c m ss)
    (hclose : Reads (grammar.call depth) (literal "]") m m' v) :
    ∃ t, InBrackets p t (ss.map (rootOf cs)) ∧ Stands cs m' t := by
  obtain ⟨o, hoptional, rfl⟩ := reads_map.mp hss
  rcases reads_optional.mp hoptional with ⟨ss, hread, rfl⟩ | ⟨-, rfl, rfl⟩
  · obtain ⟨q, hrow, hm⟩ := exists_row isSlot_of_reads (fun hc hread ↦ hc.of_symbol hread) hc hread
    obtain ⟨t, hq, hm'⟩ := hm.of_literal hclose
    exact ⟨t, .filled hrow hq, hm'⟩
  · obtain ⟨t, hp, hm'⟩ := hc.of_literal hclose
    exact ⟨t, .nil hp, hm'⟩

/-- A comma is read, to a later place. -/
theorem Comma.exists_reads (h : Comma q u) (hc : Stands cs c (skip q)) :
    ∃ m v, Reads (grammar.call depth) (Parser.symbol ",") c m v ∧ c.offset < m.offset ∧
      Stands cs m (skip u) := by
  rw [show skip q = ",".toList ++ u from h] at hc
  obtain ⟨m, v, hread, hm⟩ := hc.exists_reads_symbol depth
  have hlt := hc.offset_lt hread hm (Nat.lt_succ_of_le (Text.length_skip_le u))
  exact ⟨m, v, hread, hlt, hm⟩

/-- No other slot is read before a closing bracket. -/
theorem rejects_next_slot (hq : skip q = ']' :: t) (hc : Stands cs c (skip q)) :
    Rejects (grammar.call depth) ((symbol ",").second (spanned (rule .expression))) c := by
  refine rejects_second_of_left (rejects_symbol hc.rest ?_)
  rw [hq]
  rintro ⟨_, hprefix⟩
  cases hprefix

/-- Slots in brackets are read up to the closing one. -/
theorem InBrackets.exists_reads {as : List (Root Binary64)} (h : InBrackets p t as)
    (hdepth : cs.length < depth) (hc : Stands cs c (skip p)) :
    ∃ m ss, Reads (grammar.call depth) (slots (rule .expression)) c m ss ∧
      Stands cs m (']' :: t) ∧ ss.map (rootOf cs) = as := by
  cases h with
  | nil hp =>
      rw [hp] at hc
      obtain ⟨depth, rfl⟩ := Nat.exists_eq_add_one_of_ne_zero (Nat.ne_zero_of_lt hdepth)
      have hrejects : Rejects (grammar.call (depth + 1)) (rule .expression) c :=
        rejects_expression hc.rest (stops_cons rfl t)
      refine ⟨c, [], reads_map.mpr ⟨none, reads_optional.mpr (.inr ⟨?_, rfl, rfl⟩), rfl⟩, hc, rfl⟩
      exact rejects_map.mpr (rejects_both_of_left (rejects_spanned.mpr hrejects))
  | @filled q _ _ hrow hq =>
      have hslot {c : Cursor} {p q' : List Char} {a : Root Binary64} (ha : IsSlot p q' a)
          (hbehind : q' = q ∨ ∃ u, Comma q' u) (hc : Stands cs c (skip p)) :
          ∃ m slot, Reads (grammar.call depth) (spanned (rule .expression)) c m slot ∧
            Stands cs m (skip q') ∧ rootOf cs slot = a := by
        -- An expression goes on for as long as it can, so it matters what is behind the slot.
        refine ha.exists_reads ?_ hdepth hc
        rcases hbehind with rfl | ⟨u, hu⟩
        · exact hq ▸ stops_cons rfl t
        · exact (show skip q' = ',' :: u from hu) ▸ stops_comma .sum u
      obtain ⟨m, ss, hread, hm, hss⟩ :=
        hrow.exists_reads hslot Comma.exists_reads (rejects_next_slot hq) hc
      rw [hq] at hm
      exact ⟨m, ss, reads_map.mpr ⟨some ss, reads_optional.mpr (.inl ⟨ss, hread, rfl⟩), rfl⟩,
        hm, hss⟩

/-! ### Entries -/

/-- What is read as an entry is laid out as one. -/
theorem isEntry_of_reads {x : String × List (Expr × Span)} (hc : Stands cs c (skip p))
    (h : Reads (grammar.call depth) (entry (rule .expression)) c m x) :
    ∃ t, IsEntry p t (entryOf cs x) ∧ Stands cs m (t.dropWhile isGap) := by
  obtain ⟨m₇, _, h, hgap₈⟩ := reads_first.mp h
  obtain ⟨m₆, _, h, hclose⟩ := reads_first.mp h
  obtain ⟨m₅, h, hslots⟩ := reads_both.mp h
  obtain ⟨m₄, _, h, hopen⟩ := reads_first.mp h
  obtain ⟨m₃, _, h, hgap₄⟩ := reads_first.mp h
  obtain ⟨m₂, _, h, hequals⟩ := reads_first.mp h
  obtain ⟨m₁, _, hlabel, hgap₂⟩ := reads_first.mp h
  obtain ⟨w, q, hw, hx, hq⟩ := takes_identifier.longest hc.rest hlabel
  obtain ⟨r, hr, h₃⟩ := ((hc.of_reads hlabel hq).of_gap hgap₂).of_literal hequals
  obtain ⟨s, hs, h₅⟩ := (h₃.of_gap hgap₄).of_symbol hopen
  obtain ⟨t, ht, h₇⟩ := inBrackets_of_reads h₅ hslots hclose
  refine ⟨t, ?_, h₇.of_gap hgap₈⟩
  rw [entryOf, hx]
  exact .mk hw hr hs ht

/-- An entry is read, with the blanks of the line behind it. -/
theorem IsEntry.exists_reads {e : Entry Binary64} (h : IsEntry p t e) (hdepth : cs.length < depth)
    (hc : Stands cs c (skip p)) :
    ∃ m x, Reads (grammar.call depth) (entry (rule .expression)) c m x ∧
      Stands cs m (t.dropWhile isGap) ∧ entryOf cs x = e := by
  obtain ⟨hw, hq, hr, hs⟩ := h
  obtain ⟨m₁, hlabel, h₁⟩ := hc.exists_reads_identifier depth hw
  obtain ⟨m₂, _, hgap₂, h₂⟩ := h₁.exists_reads_gap depth
  rw [hq] at h₂
  obtain ⟨m₃, _, hequals, h₃⟩ := Stands.exists_reads_literal (t := "=") depth h₂
  obtain ⟨m₄, _, hgap₄, h₄⟩ := h₃.exists_reads_gap depth
  rw [hr] at h₄
  obtain ⟨m₅, _, hopen, h₅⟩ := Stands.exists_reads_symbol (t := "[") depth h₄
  obtain ⟨m₆, ss, hslots, h₆, rfl⟩ := hs.exists_reads hdepth h₅
  obtain ⟨m₇, _, hclose, h₇⟩ := Stands.exists_reads_literal (t := "]") depth h₆
  obtain ⟨m₈, _, hgap₈, h₈⟩ := h₇.exists_reads_gap depth
  have hhead := reads_first.mpr ⟨m₄, _, reads_first.mpr ⟨m₃, _, reads_first.mpr ⟨m₂, _,
    reads_first.mpr ⟨m₁, _, hlabel, hgap₂⟩, hequals⟩, hgap₄⟩, hopen⟩
  have hboth := (reads_both (x := (_, ss))).mpr ⟨m₅, hhead, hslots⟩
  exact ⟨m₈, _, reads_first.mpr ⟨m₇, _, reads_first.mpr ⟨m₆, _, hboth, hclose⟩, hgap₈⟩, h₈, rfl⟩

/-- What is read as a separator leads on to the next entry. -/
theorem separated_of_reads {v : String} (hc : Stands cs c (q.dropWhile isGap))
    (h : Reads (grammar.call depth) separator c m v) :
    ∃ u, Separated q u ∧ Stands cs m (skip u) := by
  obtain ⟨d, u, hd, hq, hm⟩ := hc.of_separator h
  exact ⟨u, ⟨d, hd, hq⟩, hm⟩

/-- The separator that leads on is read, to a later place. -/
theorem Separated.exists_reads (h : Separated q u) (hc : Stands cs c (q.dropWhile isGap)) :
    ∃ m v, Reads (grammar.call depth) separator c m v ∧ c.offset < m.offset ∧
      Stands cs m (skip u) := by
  obtain ⟨d, hd, hq⟩ := h
  exact (hq ▸ hc).exists_reads_separator depth hd

/-! ### What trails behind -/

theorem IsSeparator.not_isWord {d : Char} (h : IsSeparator d) : isWord d = false := by
  rcases h with rfl | rfl
  · rfl
  · rfl

theorem Trails.isSeparator_of_head (h : Trails t) : ∀ d ∈ t.head?, IsSeparator d := by
  cases h with
  | nil => rintro d ⟨⟩
  | cons hd _ =>
      rintro _ ⟨⟩
      exact hd

/-- There is no entry to be read among trailing separators. -/
theorem Trails.rejects_entry (h : Trails t) (hc : Stands cs c t) :
    Rejects (grammar.call depth) (entry (rule .expression)) c :=
  Listing.rejects_entry hc.rest fun d hd ↦ (h.isSeparator_of_head d hd).not_isWord

/-- A separator without an entry behind it is not read as one between entries. -/
theorem Trails.rejects_next (h : Trails t) (hc : Stands cs c t) :
    Rejects (grammar.call depth) (separator.second (entry (rule .expression))) c := by
  cases h with
  | nil => exact rejects_second_of_left (hc.rejects_separator depth (by rintro _ ⟨⟩))
  | cons hd hu =>
      obtain ⟨m, v, hread, -, hm⟩ := hc.exists_reads_separator depth hd
      exact rejects_map.mpr (rejects_both.mpr (.inr ⟨m, v, hread, hu.rejects_entry hm⟩))

/-- Trailing separators are read to the end of the text. -/
theorem Trails.exists_reads (depth : ℕ) (h : Trails t) (hc : Stands cs c t) :
    ∃ m vs, Reads (grammar.call depth) separator.many c m vs ∧ m.rest = .chars [] := by
  have hrepeats : ∃ m vs, Repeats (grammar.call depth) separator c m vs ∧ m.rest = .chars [] := by
    induction h generalizing c with
    | nil => exact ⟨c, [], .stop (hc.rejects_separator depth (by rintro _ ⟨⟩)), hc.rest⟩
    | cons hd _ ih =>
        obtain ⟨m₁, v, hread, hlt, hm₁⟩ := hc.exists_reads_separator depth hd
        obtain ⟨m, vs, hrep, hm⟩ := ih hm₁
        exact ⟨m, v :: vs, .more hread hlt hrep, hm⟩
  obtain ⟨m, vs, hrep, hm⟩ := hrepeats
  exact ⟨m, vs, (reads_many (grammar.forward_call depth)).mpr hrep, hm⟩

/-- Separators that are read to the end of the text trail it. -/
theorem trails_of_reads {vs : List String} (hc : Stands cs c t)
    (h : Reads (grammar.call depth) separator.many c m vs) (hm : m.rest = .chars []) :
    Trails t := by
  have hrep := (reads_many (grammar.forward_call depth)).mp h
  clear h
  induction hrep generalizing t with
  | stop | idle =>
      obtain rfl : t = [] := Remainder.chars.inj (hc.rest.symm.trans hm)
      exact .nil
  | more hread _ _ ih =>
      obtain ⟨d, u, hd, rfl, hu⟩ := hc.of_separator hread
      exact .cons hd (ih hu hm)

/-! ### Whole texts -/

/-- What is read as a listing to the end of the text is laid out as one. -/
theorem isListing_of_reads {xs : List (String × List (Expr × Span))}
    (h : Reads (grammar.call depth) listing (.ofText cs 0) c xs) (hc : c.rest = .chars []) :
    IsListing cs (xs.map (entryOf cs)) := by
  have hstart := Stands.start cs
  obtain ⟨o, hfirst, rfl⟩ := reads_map.mp h
  obtain ⟨m, vs, hsecond, hmany⟩ := reads_first.mp hfirst
  obtain ⟨m₀, _, hblanks, hoptional⟩ := reads_second.mp hsecond
  have h₀ := hstart.of_reads hblanks (hblanks.blanks hstart.rest)
  rcases reads_optional.mp hoptional with ⟨xs, hxs, rfl⟩ | ⟨-, rfl, rfl⟩
  · obtain ⟨t, hrow, hm⟩ := exists_row isEntry_of_reads separated_of_reads h₀ hxs
    exact .entries hrow (trails_of_reads hm hmany hc)
  · exact .nil (trails_of_reads h₀ hmany hc)

/-- A text that is laid out as a listing is read as one, to its end. -/
theorem IsListing.exists_reads {es : List (Entry Binary64)} (h : IsListing cs es)
    (hdepth : cs.length < depth) :
    ∃ c xs, Reads (grammar.call depth) listing (.ofText cs 0) c xs ∧ c.rest = .chars [] ∧
      xs.map (entryOf cs) = es := by
  have hstart := Stands.start cs
  obtain ⟨m₀, hblanks, hrest⟩ := exists_reads_blanks (grammar.call depth) hstart.rest
  have h₀ := hstart.of_reads hblanks hrest
  obtain ⟨m, o, t, hoptional, hm, ht, hes⟩ : ∃ m o t, Reads (grammar.call depth)
      ((entry (rule .expression)).sepBy separator).optional m₀ m o ∧ Stands cs m t ∧
      Trails t ∧ (o.getD []).map (entryOf cs) = es := by
    cases h with
    | nil ht =>
        refine ⟨m₀, none, skip cs, reads_optional.mpr (.inr ⟨?_, rfl, rfl⟩), h₀, ht, rfl⟩
        exact rejects_map.mpr (rejects_both_of_left (ht.rejects_entry h₀))
    | entries hrow ht =>
        obtain ⟨m, xs, hread, hm, hxs⟩ := hrow.exists_reads
          (fun he _ hc ↦ he.exists_reads hdepth hc) Separated.exists_reads ht.rejects_next h₀
        exact ⟨m, some xs, _, reads_optional.mpr (.inl ⟨xs, hread, rfl⟩), hm, ht, hxs⟩
  obtain ⟨c, vs, hmany, hc⟩ := ht.exists_reads depth hm
  exact ⟨c, o.getD [], reads_map.mpr ⟨o, reads_first.mpr ⟨m, vs, reads_second.mpr
    ⟨m₀, (), hblanks, hoptional⟩, hmany⟩, rfl⟩, hc, hes⟩

/-- A text is parsed to entries just if it is laid out as a listing of them. -/
theorem parse_eq_ok_iff {text : String} {es : List (Entry Binary64)} :
    Listing.parse text = .ok es ↔ IsListing text.toList es := by
  rw [parse_eq]
  generalize text.toList = cs
  constructor
  · intro h
    cases hparse : parseWith listing cs with
    | error _ =>
        rw [hparse] at h
        cases h
    | ok xs =>
        rw [hparse] at h
        obtain rfl := Except.ok.inj h
        obtain ⟨c, hread, hc⟩ := parseWith_eq_ok.mp hparse
        exact isListing_of_reads hread hc
  · intro h
    have hdepth : cs.length < depthFor cs := Nat.lt_succ_of_le (Text.length_le_byteLength _)
    obtain ⟨c, xs, hread, hc, rfl⟩ := h.exists_reads hdepth
    rw [parseWith_eq_ok.mpr ⟨c, hread, hc⟩]
    rfl

end Listing

end ZPlane
