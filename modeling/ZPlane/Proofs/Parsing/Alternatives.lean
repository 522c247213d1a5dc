import Mathlib
import ZPlane.Proofs.Parsing.Hinted
import ZPlane.Proofs.Parsing.Leaves

/-!
# Alternatives may be grouped in any way

An error shows no more of a tree of hints than its front: the furthest offset and the labels there.
Fronts make a monoid (`Front.merge`), and `join` and `deepest` do the same to them, so that hints
which `deepest` drops are never missed (`Hints.interchangeable_deepest`).  Outcomes with no more
than the fronts of their hints make one too (`Summary.or`), and so alternatives are associative.
-/

namespace ZPlane

namespace Parsing

/-- The furthest offset and the labels there, if there is a hint at all. -/
abbrev Front : Type := Option (Nat × List String)

namespace Front

/-- The front of the one that reaches further; the labels of both if they reach equally far. -/
def merge : Front → Front → Front
  | none, y => y
  | some x, none => some x
  | some (m, ls), some (n, ls') =>
    if n < m then some (m, ls) else if m < n then some (n, ls') else some (m, ls ++ ls')

@[simp] theorem none_merge (y : Front) : merge none y = y := rfl

@[simp] theorem merge_none (x : Front) : merge x none = x := by cases x <;> rfl

variable {m n : Nat} {ls ls' : List String}

theorem merge_of_gt (h : n < m) : merge (some (m, ls)) (some (n, ls')) = some (m, ls) := if_pos h

theorem merge_of_lt (h : m < n) : merge (some (m, ls)) (some (n, ls')) = some (n, ls') := by
  rw [merge, if_neg h.not_gt, if_pos h]

theorem merge_of_eq : merge (some (n, ls)) (some (n, ls')) = some (n, ls ++ ls') := by
  rw [merge, if_neg (lt_irrefl n), if_neg (lt_irrefl n)]

/-- Of three fronts it makes no difference which two are merged first. -/
theorem merge_assoc (x y z : Front) : merge (merge x y) z = merge x (merge y z) := by
  obtain _ | ⟨l, ls⟩ := x
  · rfl
  · obtain _ | ⟨m, ms⟩ := y
    · rfl
    · obtain _ | ⟨n, ns⟩ := z
      · simp
      · grind [merge]

/-- The error that shows a front. -/
def error : Front → ParseError
  | some (n, labels) => ⟨n, labels.eraseDups⟩
  | none => ⟨0, []⟩

end Front

namespace Hints

variable {a b : Hints}

/-- The furthest offset of the hints and its labels. -/
def front (h : Hints) : Front := h.furthest?.map fun n ↦ (n, labelled n h.toList)

/-- The front of some hints is the furthest offset with the labels there. -/
theorem front_eq_some {n : Nat} (h : a.furthest? = some n) :
    a.front = some (n, labelled n a.toList) := by rw [front, h, Option.map_some]

/-- Without hints there is no front. -/
theorem front_eq_none (h : a.furthest? = none) : a.front = none := by
  rw [front, h, Option.map_none]

namespace Exact

/-- No label is further than the furthest offset. -/
theorem labelled_eq_nil (h : a.Exact) {m n : Nat} (hm : a.furthest? = some m) (hlt : m < n) :
    labelled n a.toList = [] := by
  refine List.eq_nil_iff_forall_not_mem.mpr fun label hlabel ↦ ?_
  have hle : n ≤ m := h.le_furthest hm (List.mem_map_of_mem (mem_labelled.mp hlabel))
  exact hle.not_gt hlt

/-- Joined hints have the front of both together. -/
theorem front_join (ha : a.Exact) (hb : b.Exact) : (a.join b).front = a.front.merge b.front := by
  cases hm : a.furthest? with
  | none =>
      rw [front_eq_none hm, furthest?_eq_none_iff.mp hm]
      rfl
  | some m =>
      cases hn : b.furthest? with
      | none =>
          rw [front_eq_none hn, Front.merge_none, furthest?_eq_none_iff.mp hn, join_empty]
      | some n =>
          have hmax : (a.join b).furthest? = some (max m n) := by
            rw [furthest?_join, hm, hn]
            rfl
          rw [front_eq_some hmax, front_eq_some hm, front_eq_some hn, toList_join, labelled_append]
          rcases lt_trichotomy m n with hlt | rfl | hlt
          · rw [Front.merge_of_lt hlt, max_eq_right hlt.le, ha.labelled_eq_nil hm hlt,
              List.nil_append]
          · rw [Front.merge_of_eq, max_self]
          · rw [Front.merge_of_gt hlt, max_eq_left hlt.le, hb.labelled_eq_nil hn hlt,
              List.append_nil]

/-- What `deepest` drops is behind the front. -/
theorem front_deepest (ha : a.Exact) (hb : b.Exact) :
    (a.deepest b).front = a.front.merge b.front := by
  rw [Hints.deepest]
  split
  · rename_i m n hm hn
    split
    · rw [front_eq_some hm, front_eq_some hn, Front.merge_of_gt ‹_›]
    · split
      · rw [front_eq_some hm, front_eq_some hn, Front.merge_of_lt ‹_›]
      · exact ha.front_join hb
  · exact ha.front_join hb

/-- An error shows no more than the front. -/
theorem ofHints_eq_error (h : a.Exact) : ParseError.ofHints a = a.front.error := by
  rw [ParseError.ofHints, front]
  cases a.furthest? with
  | none => rfl
  | some n => exact congrArg (ParseError.mk n) (h.labelsAt_eq n)

end Exact

/-- Hints that no error tells apart, whatever comes before and after them. -/
def Interchangeable (a b : Hints) : Prop :=
  ParseError.ofHints a = ParseError.ofHints b ∧
    ∀ before after : Hints, before.Built → after.Built →
      ParseError.ofHints ((before.join a).join after) =
        ParseError.ofHints ((before.join b).join after)

/-- Hints with the same front are interchangeable, for fronts are merged with what is around
them. -/
theorem Interchangeable.of_front_eq (ha : a.Built) (hb : b.Built) (h : a.front = b.front) :
    a.Interchangeable b := by
  constructor
  · rw [ha.exact.ofHints_eq_error, hb.exact.ofHints_eq_error, h]
  · intro before after hbefore hafter
    have hfront {x : Hints} (hx : x.Built) : ParseError.ofHints ((before.join x).join after) =
        ((before.front.merge x.front).merge after.front).error := by
      have hjoin : (before.join x).Exact := hbefore.exact.join hx.exact
      rw [(hjoin.join hafter.exact).ofHints_eq_error, hjoin.front_join hafter.exact,
        hbefore.exact.front_join hx.exact]
    rw [hfront ha, hfront hb, h]

/-- What `deepest` drops is never missed. -/
theorem interchangeable_deepest (ha : a.Built) (hb : b.Built) :
    (a.deepest b).Interchangeable (a.join b) := by
  refine .of_front_eq (ha.deepest hb) (ha.join hb) ?_
  rw [ha.exact.front_deepest hb.exact, ha.exact.front_join hb.exact]

end Hints

/-! ### The hints of a run -/

namespace Outcome

variable {α β : Type} {o : Outcome α} {h : Hints}

/-- Hints in front of an outcome are built if both are. -/
theorem built_after (hh : h.Built) (ho : o.hints.Built) : (o.after h).hints.Built := by
  cases o with
  | success | failure => exact hh.join ho
  | overrun => exact .empty

/-- Two runs in a row make hints from those of both. -/
theorem built_andThen {next : Cursor → α → Outcome β} (ho : o.hints.Built)
    (hnext : ∀ c a, (next c a).hints.Built) : (o.andThen next).hints.Built := by
  cases o with
  | success c a h => exact built_after ho (hnext c a)
  | failure => exact ho
  | overrun => exact .empty

end Outcome

namespace Parser

variable {ρ : Type} {V : ρ → Type} {call : (r : ρ) → Cursor → Outcome (V r)} {α : Type}

/-- A token makes one hint or none. -/
theorem built_takeToken (name : String) (size : List Char → Option Nat) (c : Cursor) :
    (takeToken name size c).hints.Built := by
  rcases takeToken_cases name size c with h | ⟨c', s, h⟩
  · rw [h]
    exact .expected c.offset name
  · rw [h]
    exact .empty

/-- A sequence makes its hints from those of its steps. -/
theorem built_runAll {n : Nat} {steps : Fin n → Cursor → Outcome α}
    (hsteps : ∀ k c, (steps k c).hints.Built) (c : Cursor) {h : Hints} (hh : h.Built)
    (values : List α) : (runAll steps c h values).hints.Built := by
  induction n generalizing c h values with
  | zero => exact hh
  | succ n ih =>
      rw [runAll]
      have hstep := hsteps 0 c
      cases hrun : steps 0 c with
      | success m a _ =>
          rw [hrun] at hstep
          exact ih (fun k ↦ hsteps k.succ) m (hh.join hstep) _
      | failure _ =>
          rw [hrun] at hstep
          exact hh.join hstep
      | overrun => exact .empty

/-- A repetition makes its hints from those of its passes. -/
theorem built_runMany {step : Cursor → Outcome α} (hstep : ∀ c, (step c).hints.Built)
    (bound : List Char) (c : Cursor) {h : Hints} (hh : h.Built) (values : List α) :
    (runMany step bound c h values).hints.Built := by
  have hjoin {c : Cursor} {o : Outcome α} {h : Hints} (hh : h.Built) (hrun : step c = o) :
      (h.join o.hints).Built := hh.join (hrun ▸ hstep c)
  fun_induction runMany step bound c h values with
  | case1 => exact .empty
  | case2 _ _ _ _ _ _ hrun _ _ _ ih => exact ih (hjoin hh hrun)
  | case3 _ _ _ _ _ _ _ hrun _ => exact hjoin hh hrun
  | case4 _ _ _ _ _ hrun => exact hjoin hh hrun
  | case5 => exact .empty

/-- A run makes its hints from those of the rules. -/
theorem built_run (hcall : ∀ r c, (call r c).hints.Built) (p : Parser V α) (c : Cursor) :
    (p.run call c).hints.Built := by
  induction p generalizing c with
  | pure => exact .empty
  | token name size => exact built_takeToken name size c
  | eof =>
      rw [run_eof]
      split
      · exact .empty
      · exact .expected c.offset _
  | rule r => exact hcall r c
  | map f p ih =>
      change ((p.run call c).map f).hints.Built
      rw [Outcome.hints_map]
      exact ih c
  | bind p f ih ihf => exact Outcome.built_andThen (ih c) fun m a ↦ ihf a m
  | both p q ih ihq =>
      refine Outcome.built_andThen (ih c) fun m a ↦ ?_
      rw [Outcome.hints_map]
      exact ihq m
  | either p q ih ihq =>
      rw [run_either]
      have hp := ih c
      have hq := ihq c
      generalize p.run call c = o at hp
      generalize q.run call c = o' at hq
      cases o with
      | success => exact hp
      | failure h =>
          cases o' with
          | success => exact Hints.Built.join hp hq
          | failure => exact Hints.Built.deepest hp hq
          | overrun => exact .empty
      | overrun => exact .empty
  | filterMap f p ih =>
      rw [run_filterMap]
      have hp := ih c
      generalize p.run call c = o at hp
      cases o with
      | success m a h =>
          dsimp only
          split
          · exact hp
          · exact Hints.Built.join hp (.mark c.offset)
      | failure => exact hp
      | overrun => exact .empty
  | label name p ih =>
      rw [run_label]
      have hp := ih c
      generalize p.run call c = o at hp
      cases o with
      | success => exact hp
      | failure h => exact .expected _ name
      | overrun => exact .empty
  | spanned p ih =>
      rw [run_spanned]
      have hp := ih c
      generalize p.run call c = o at hp
      cases o with
      | success | failure => exact hp
      | overrun => exact .empty
  | sequence ps ih => exact built_runAll ih c .empty []
  | many p ih => exact built_runMany ih c.ahead c .empty []
  | optional p ih =>
      rw [run_optional]
      have hp := ih c
      generalize p.run call c = o at hp
      cases o with
      | success | failure => exact hp
      | overrun => exact .empty
  | not p ih =>
      rw [run_not]
      cases p.run call c with
      | success => exact .mark c.offset
      | failure | overrun => exact .empty

end Parser

/-- The rules of a grammar make their hints from those of deeper calls. -/
theorem Grammar.built_call {ρ : Type} {V : ρ → Type} (g : Grammar V) (depth : Nat) (r : ρ)
    (c : Cursor) : (g.call depth r c).hints.Built := by
  induction depth generalizing r c with
  | zero => exact .empty
  | succ depth ih => exact Parser.built_run ih (g r) c

/-! ### Alternatives -/

/-- Where an outcome stops, unless it fails, and the front of its hints; none if it has no end. -/
abbrev Summary (α : Type) : Type := Option (Option (Cursor × α) × Front)

/-- The second one after a failure, with what the failure expected in front. -/
def Summary.or {α : Type} : Summary α → Summary α → Summary α
  | some (none, x), some (result, y) => some (result, x.merge y)
  | some (none, _), none => none
  | some (some result, x), _ => some (some result, x)
  | none, _ => none

instance {α : Type} : Std.Associative (Summary.or : Summary α → Summary α → Summary α) where
  assoc s t u := by
    obtain _ | ⟨_ | _, x⟩ := s
    · rfl
    · obtain _ | ⟨_ | _, y⟩ := t
      · rfl
      · obtain _ | ⟨result, z⟩ := u
        · rfl
        · exact congrArg (fun w ↦ some (result, w)) (Front.merge_assoc x y z)
      · rfl
    · rfl

namespace Outcome

variable {α : Type} {o o' : Outcome α}

def summary : Outcome α → Summary α
  | success c a h => some (some (c, a), h.front)
  | failure h => some (none, h.front)
  | overrun => none

/-- Outcomes that differ in their hints only, and in nothing that an error shows of these. -/
inductive Alike : Outcome α → Outcome α → Prop
  | success (place : Cursor) (value : α) {h h' : Hints} (hh : h.Interchangeable h') :
      Alike (.success place value h) (.success place value h')
  | failure {h h' : Hints} (hh : h.Interchangeable h') : Alike (.failure h) (.failure h')
  | overrun : Alike .overrun .overrun

/-- Outcomes with the same summary are alike. -/
theorem Alike.of_summary_eq (ho : o.hints.Built) (ho' : o'.hints.Built)
    (h : o.summary = o'.summary) : o.Alike o' := by
  cases o with
  | success c a _ =>
      cases o' with
      | success c' a' _ =>
          simp only [summary, Option.some.injEq, Prod.mk.injEq] at h
          obtain ⟨⟨rfl, rfl⟩, hfront⟩ := h
          exact .success c a (.of_front_eq ho ho' hfront)
      | failure | overrun => cases h
  | failure _ =>
      cases o' with
      | failure _ =>
          simp only [summary, Option.some.injEq, Prod.mk.injEq, true_and] at h
          exact .failure (.of_front_eq ho ho' h)
      | success | overrun => cases h
  | overrun =>
      cases o' with
      | overrun => exact .overrun
      | success | failure => cases h

end Outcome

namespace Parser

variable {ρ : Type} {V : ρ → Type} {call : (r : ρ) → Cursor → Outcome (V r)} {α : Type}

/-- An alternative has the summary that those of its sides have together, whether it drops hints
or keeps them. -/
theorem summary_either (hcall : ∀ r c, (call r c).hints.Built) (p q : Parser V α) (c : Cursor) :
    ((either p q).run call c).summary = (p.run call c).summary.or (q.run call c).summary := by
  rw [run_either]
  have hp := built_run hcall p c
  have hq := built_run hcall q c
  generalize p.run call c = o at hp
  generalize q.run call c = o' at hq
  cases o with
  | success | overrun => rfl
  | failure h =>
      have hh : h.Exact := hp.exact
      cases o' with
      | success c' a h' => exact congrArg (fun x ↦ some (some (c', a), x)) (hh.front_join hq.exact)
      | failure h' => exact congrArg (fun x ↦ some (none, x)) (hh.front_deepest hq.exact)
      | overrun => rfl

/-- A choice has the summary of its parsers together, from the left. -/
theorem summary_choice (hcall : ∀ r c, (call r c).hints.Built) (p : Parser V α)
    (ps : List (Parser V α)) (c : Cursor) : ((choice p ps).run call c).summary =
      (ps.map fun q ↦ (q.run call c).summary).foldl .or (p.run call c).summary := by
  rw [choice]
  induction ps generalizing p with
  | nil => rfl
  | cons q ps ih => rw [List.foldl_cons, ih, summary_either hcall, List.map_cons, List.foldl_cons]

/-- A choice may be cut in two anywhere. -/
theorem choice_append (hcall : ∀ r c, (call r c).hints.Built) (p q : Parser V α)
    (ps qs : List (Parser V α)) (c : Cursor) :
    ((choice p (ps ++ q :: qs)).run call c).Alike
      ((either (choice p ps) (choice q qs)).run call c) := by
  refine .of_summary_eq (built_run hcall _ c) (built_run hcall _ c) ?_
  rw [summary_either hcall, summary_choice hcall, summary_choice hcall, summary_choice hcall,
    List.map_append, List.foldl_append, List.map_cons, List.foldl_cons, List.foldl_assoc]

/-- What `deepest` drops is never missed, and so it makes no difference which of two alternatives
are grouped together, over any grammar and at any depth of its rule calls. -/
theorem either_assoc (g : Grammar V) (depth : Nat) :
    (∀ a b c d : Hints, a.Built → b.Built → c.Built → d.Built →
      ParseError.ofHints ((c.join (a.deepest b)).join d) =
        ParseError.ofHints ((c.join (a.join b)).join d)) ∧
    ∀ (p q r : Parser V α) (c : Cursor),
      (g.runAt depth (either (either p q) r) c).Alike
        (g.runAt depth (either p (either q r)) c) := by
  constructor
  · intro a b c d ha hb hc hd
    exact (Hints.interchangeable_deepest ha hb).2 c d hc hd
  · intro p q r c
    exact choice_append (g.built_call depth) p q [] [r] c

/-- Two groupings that keep different trees: what the second parser expected is dropped by the one
and kept by the other, but the first one had come further. -/
theorem either_assoc_of_literals :
    let g : Grammar fun _ : Empty ↦ Empty := nofun
    let p := (literal "a").second (literal "x")
    let q := literal "b"
    let r := literal "a"
    let c := Cursor.ofText ['a', 'b'] 0
    let x := Hints.expected 1 "\"x\""
    let y := Hints.expected 0 "\"b\""
    g.runAt 0 (either (either p q) r) c = .success ⟨1, .chars ['b']⟩ "a" x ∧
      g.runAt 0 (either p (either q r)) c = .success ⟨1, .chars ['b']⟩ "a" (x.join y) ∧
      x.Interchangeable (x.join y) ∧
      ParseError.ofHints ((y.join (x.deepest y)).join x) =
        ParseError.ofHints ((y.join (x.join y)).join x) := by
  intro g p q r c x y
  obtain ⟨hdeepest, hassoc⟩ := either_assoc g 0
  have hleft : g.runAt 0 (either (either p q) r) c = .success ⟨1, .chars ['b']⟩ "a" x := rfl
  have hright : g.runAt 0 (either p (either q r)) c =
      .success ⟨1, .chars ['b']⟩ "a" (x.join y) := rfl
  have halike := hassoc p q r c
  rw [hleft, hright] at halike
  have hx : x.Built := .expected 1 _
  have hy : y.Built := .expected 0 _
  cases halike with
  | success _ _ hh => exact ⟨hleft, hright, hh, hdeepest x y y x hx hy hy hx⟩

end Parser

end Parsing

end ZPlane
