import Mathlib
import ZPlane.Parsing.Error
import ZPlane.Proofs.Parsing.Hints

/-!
# Hints are the list of their leaves

The trees that a parse can make (`Hints.Built`) come from single hints by `join` and `deepest`.  A
loop with a stack of trees (`walk`), which skips those that fall short of an offset, visits the
leaves of such a tree as the recursion over it does, and gathers the labels at that offset.  So an
error is what the plain list of the leaves says it is.
-/

namespace ZPlane

namespace Parsing

namespace Hints

/-- The trees that are made of single hints. -/
inductive Built : Hints → Prop
  | empty : Built .empty
  | expected (n : Nat) (label : String) : Built (.expected n label)
  | mark (n : Nat) : Built (.mark n)
  | join {a b : Hints} (ha : Built a) (hb : Built b) : Built (a.join b)
  | deepest {a b : Hints} (ha : Built a) (hb : Built b) : Built (a.deepest b)

/-- Hints that are built know how far they go. -/
theorem Built.exact {h : Hints} (hh : h.Built) : h.Exact := by
  induction hh with
  | empty => exact .empty
  | expected n label => exact .leaf n (some label)
  | mark n => exact .leaf n none
  | join _ _ iha ihb => exact iha.join ihb
  | deepest _ _ iha ihb => exact iha.deepest ihb

/-- Only the empty tree has no furthest offset. -/
theorem furthest?_eq_none_iff {h : Hints} : h.furthest? = none ↔ h = .empty := by
  cases h with
  | empty => exact ⟨fun _ ↦ rfl, fun _ ↦ rfl⟩
  | leaf n label => exact ⟨nofun, nofun⟩
  | node furthest l r => exact ⟨nofun, nofun⟩

/-! ### The walk -/

/-- Visits the leaves of the trees on a stack, the top one first.  A tree that falls short of the
offset is dropped, and a node is replaced by its sides, with the left one on top. -/
def walk (offset : Nat) : (stack : List Hints) → List (Nat × Option String)
  | [] => []
  | .empty :: stack => walk offset stack
  | .leaf n label :: stack =>
    if n < offset then walk offset stack else (n, label) :: walk offset stack
  | .node furthest l r :: stack =>
    if furthest < offset then walk offset stack else walk offset (l :: r :: stack)
termination_by stack => (stack.map sizeOf).sum

/-- A walk with a stack of trees goes through them one after the other. -/
theorem walk_eq_flatMap (offset : Nat) (stack : List Hints) :
    walk offset stack = stack.flatMap fun h ↦ h.reaching offset [] := by
  fun_induction walk offset stack with
  | case1 => rfl
  | case2 stack ih => exact ih
  | case3 n label stack hlt ih => simp [reaching, hlt, ih]
  | case4 n label stack hlt ih => simp [reaching, hlt, ih]
  | case5 furthest l r stack hlt ih => simp [reaching, hlt, ih]
  | case6 furthest l r stack hlt ih =>
      rw [ih, List.flatMap_cons, List.flatMap_cons, List.flatMap_cons, reaching, if_neg hlt,
        reaching_eq_append offset l (reaching offset r []), List.append_assoc]

/-- A walk that begins with one tree is the recursive one. -/
theorem walk_singleton (offset : Nat) (h : Hints) :
    walk offset [h] = h.reaching offset [] := by
  rw [walk_eq_flatMap, List.flatMap_singleton]

/-- A visit takes a label at the offset, unless it is there already. -/
def gather (offset : Nat) (labels : List String) : Nat × Option String → List String
  | (n, some label) => if n = offset ∧ label ∉ labels then labels ++ [label] else labels
  | (_, none) => labels

/-- Gathering adds the labels at the offset that are not there yet, each once. -/
theorem foldl_gather (n : Nat) (leaves : List (Nat × Option String)) (labels : List String) :
    leaves.foldl (gather n) labels =
      labels ++ ((labelled n leaves).filter fun label ↦ !labels.contains label).eraseDups := by
  induction leaves generalizing labels with
  | nil => exact (List.append_nil _).symm
  | cons x leaves ih =>
      rw [List.foldl_cons, ih]
      obtain ⟨m, _ | label⟩ := x
      · simp [gather, labelled]
      · by_cases hm : m = n
        · by_cases hlabel : label ∈ labels
          · simp [gather, labelled, hm, hlabel]
          · simp [gather, labelled, hm, hlabel, List.eraseDups_cons, Bool.and_comm, beq_eq_decide]
        · simp [gather, labelled, hm]

/-- The walk with a stack gathers the labels that the recursive one lists. -/
theorem foldl_gather_walk (n : Nat) (h : Hints) :
    (walk n [h]).foldl (gather n) [] = h.labelsAt n := by
  rw [walk_singleton, foldl_gather, List.nil_append, labelsAt, labelled]
  simp

/-! ### What the leaves say -/

/-- The error of a tree is made of its leaves alone. -/
theorem Built.ofHints_eq {h : Hints} (hh : h.Built) : ParseError.ofHints h =
    match (h.toList.map Prod.fst).max? with
    | some n => ⟨n, (labelled n h.toList).eraseDups⟩
    | none => ⟨0, []⟩ := by
  rw [ParseError.ofHints, hh.exact.furthest?_eq, offsets]
  cases (h.toList.map Prod.fst).max? with
  | none => rfl
  | some n => exact congrArg (ParseError.mk n) (hh.exact.labelsAt_eq n)

/-- What a tree remembers, what the walk over it finds and the error that it ends in are what the
list of its leaves says. -/
theorem Built.eq_of_leaves {h : Hints} (hh : h.Built) :
    h.furthest? = (h.toList.map Prod.fst).max? ∧ (h.furthest? = none ↔ h = .empty) ∧
    (∀ b : Hints, (h.join b).toList = h.toList ++ b.toList) ∧
    walk 0 [h] = h.toList ∧
    (∀ n, (walk n [h]).foldl (gather n) [] = h.labelsAt n ∧
      h.labelsAt n = (labelled n h.toList).eraseDups) ∧
    ParseError.ofHints h =
      match (h.toList.map Prod.fst).max? with
      | some n => ⟨n, (labelled n h.toList).eraseDups⟩
      | none => ⟨0, []⟩ :=
  ⟨hh.exact.furthest?_eq, furthest?_eq_none_iff, toList_join h, walk_singleton 0 h,
    fun n ↦ ⟨foldl_gather_walk n h, hh.exact.labelsAt_eq n⟩, hh.ofHints_eq⟩

/-- Two sides that reach equally far, with a label in common and trees that are skipped. -/
theorem eq_of_leaves_tie :
    let l := ((expected 5 "a").join (mark 1)).join (expected 5 "b")
    let r := (expected 5 "c").join ((expected 5 "a").join (mark 5))
    (l.deepest r).Built ∧ (walk 5 [l.deepest r]).foldl (gather 5) [] = ["a", "b", "c"] ∧
      ParseError.ofHints (l.deepest r) = ⟨5, ["a", "b", "c"]⟩ := by
  intro l r
  have hl : l.Built := ((Built.expected 5 "a").join (.mark 1)).join (.expected 5 "b")
  have hr : r.Built := (Built.expected 5 "c").join ((Built.expected 5 "a").join (.mark 5))
  obtain ⟨-, -, -, -, hlabels, herror⟩ := Built.eq_of_leaves (hl.deepest hr)
  refine ⟨hl.deepest hr, ?_, herror.trans (by decide)⟩
  rw [(hlabels 5).1, (hlabels 5).2]
  decide

end Hints

end Parsing

end ZPlane
