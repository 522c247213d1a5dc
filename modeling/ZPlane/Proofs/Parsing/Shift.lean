import Mathlib
import ZPlane.Proofs.Parsing.Events
import ZPlane.Proofs.Parsing.Rejections
import ZPlane.Proofs.Parsing.Slice

/-!
# Runs further on in a text

A run sees of its text only what is ahead of it.  So a text means the same with other text in front
of it, with all offsets moved by the bytes in front.  Only a parser that hands out the offsets of
what it has read, `spanned`, can make a value that depends on them.

`shift` moves places, hints and outcomes.  A step that ends further on as it does here `Moves`; each
construct keeps this (`Parser.moves_run`), and so it holds of runs with the rules of a grammar
(`Grammar.runAt_append`).
-/

namespace ZPlane

namespace Parsing

open Text (byteLength)

variable {k : Nat}

/-! ### Places -/

/-- A character in front of the text. -/
theorem Remainder.after_cons (c : Char) (cs : List Char) (o : Nat) :
    after (c :: cs) (c.utf8Size + o) = after cs o := by
  have hsize := c.utf8Size_pos
  obtain ⟨n, hn⟩ : ∃ n, c.utf8Size + o = n + 1 := ⟨c.utf8Size + o - 1, by omega⟩
  rw [hn, after, if_pos (by omega)]
  congr 1
  omega

/-- Behind a prefix the same is left as in the text alone. -/
theorem Remainder.after_append (u t : List Char) (o : Nat) :
    after (u ++ t) (byteLength u + o) = after t o := by
  induction u with
  | nil => rw [List.nil_append, Text.byteLength_nil, Nat.zero_add]
  | cons c u ih => rw [List.cons_append, Text.byteLength_cons, Nat.add_assoc, after_cons, ih]

namespace Cursor

/-- The place with the same text ahead, `k` bytes further on. -/
def shift (k : Nat) (c : Cursor) : Cursor := ⟨k + c.offset, c.rest⟩

variable {c c' : Cursor}

@[simp] theorem offset_shift : (c.shift k).offset = k + c.offset := rfl

@[simp] theorem chars?_shift : (c.shift k).chars? = c.chars? := rfl

@[simp] theorem atEnd_shift : (c.shift k).atEnd = c.atEnd := rfl

@[simp] theorem ahead_shift : (c.shift k).ahead = c.ahead := rfl

/-- The places behind a prefix are the places of the text alone, moved. -/
theorem ofText_append (u t : List Char) (o : Nat) :
    ofText (u ++ t) (byteLength u + o) = (ofText t o).shift (byteLength u) :=
  congrArg (Cursor.mk _) (Remainder.after_append u t o)

end Cursor

/-! ### Hints -/

namespace Hints

/-- The same hints `k` bytes further on. -/
def shift (k : Nat) : Hints → Hints
  | empty => empty
  | leaf offset label => leaf (k + offset) label
  | node furthest left right => node (k + furthest) (shift k left) (shift k right)

variable {a b : Hints}

@[simp] theorem shift_empty : empty.shift k = empty := rfl

@[simp] theorem shift_expected (n : Nat) (label : String) :
    (expected n label).shift k = expected (k + n) label := rfl

@[simp] theorem shift_mark (n : Nat) : (mark n).shift k = mark (k + n) := rfl

/-- Hints that are moved go further by as much. -/
@[simp] theorem furthest?_shift (h : Hints) :
    (h.shift k).furthest? = h.furthest?.map (k + ·) := by
  cases h with
  | empty | leaf | node => rfl

/-- Joined hints are moved side by side. -/
@[simp] theorem shift_join (a b : Hints) : (a.join b).shift k = (a.shift k).join (b.shift k) := by
  simp only [join, furthest?_shift]
  cases a.furthest? with
  | none => rfl
  | some m =>
      cases b.furthest? with
      | none => rfl
      | some n => exact congrArg (node · _ _) (Nat.add_max_add_left k m n).symm

/-- Moving hints makes no difference to which of them are the shallower ones. -/
@[simp] theorem shift_deepest (a b : Hints) :
    (a.deepest b).shift k = (a.shift k).deepest (b.shift k) := by
  simp only [deepest, furthest?_shift]
  cases a.furthest? with
  | none => exact shift_join a b
  | some m =>
      cases b.furthest? with
      | none => exact shift_join a b
      | some n =>
          simp only [Option.map_some, Nat.add_lt_add_iff_left]
          split
          · rfl
          · split
            · rfl
            · exact shift_join a b

/-- Each hint is moved, and they stay in their order. -/
theorem toList_shift (h : Hints) :
    (h.shift k).toList = h.toList.map fun (n, label) ↦ (k + n, label) := by
  induction h with
  | empty => rfl
  | leaf n label => rfl
  | node furthest l r ihl ihr => rw [shift, toList_node, toList_node, ihl, ihr, List.map_append]

end Hints

/-! ### Outcomes -/

namespace Outcome

variable {α : Type}

/-- The same end of a run `k` bytes further on. -/
def shift (k : Nat) : Outcome α → Outcome α
  | success c a h => success (c.shift k) a (h.shift k)
  | failure h => failure (h.shift k)
  | overrun => overrun

@[simp] theorem hints_shift (o : Outcome α) : (o.shift k).hints = o.hints.shift k := by
  cases o with
  | success | failure | overrun => rfl

/-- Hints in front of an outcome are moved with it. -/
theorem shift_after (h : Hints) (o : Outcome α) :
    (o.after h).shift k = (o.shift k).after (h.shift k) := by
  cases o with
  | success c a h' => exact congrArg (success _ a) (Hints.shift_join h h')
  | failure h' => exact congrArg failure (Hints.shift_join h h')
  | overrun => rfl

end Outcome

namespace Parser

variable {ρ : Type} {V : ρ → Type} {α β : Type}

/-- No part of the parser hands out offsets. -/
def SpanFree {α : Type} : Parser V α → Prop
  | pure _ | token _ _ | eof | rule _ => True
  | map _ p => SpanFree p
  | bind p f => SpanFree p ∧ ∀ a, SpanFree (f a)
  | both p q => SpanFree p ∧ SpanFree q
  | either p q => SpanFree p ∧ SpanFree q
  | filterMap _ p => SpanFree p
  | label _ p => SpanFree p
  | spanned _ => False
  | sequence ps => ∀ k, SpanFree (ps k)
  | many p => SpanFree p
  | optional p => SpanFree p
  | not p => SpanFree p

/-! ### Runs -/

/-- A step ends further on as it does here. -/
def Moves (k : Nat) (step : Cursor → Outcome α) : Prop :=
  ∀ c, step (c.shift k) = (step c).shift k

/-- What is mapped moves along. -/
theorem Moves.map {step : Cursor → Outcome α} (hstep : Moves k step) (f : α → β) :
    Moves k fun c ↦ (step c).map f := by
  intro c
  simp only [hstep c]
  cases step c with
  | success | failure | overrun => rfl

/-- Two runs in a row move along if both do. -/
theorem Moves.andThen {step : Cursor → Outcome α} {next : Cursor → α → Outcome β}
    (hstep : Moves k step) (hnext : ∀ a, Moves k (next · a)) :
    Moves k fun c ↦ (step c).andThen next := by
  intro c
  simp only [hstep c]
  cases step c with
  | success m a h =>
      simp only [Outcome.shift, Outcome.andThen, hnext a m]
      exact (Outcome.shift_after h (next m a)).symm
  | failure | overrun => rfl

/-- A token moves along. -/
theorem moves_takeToken (name : String) (size : List Char → Option Nat) :
    Moves k (takeToken name size) := by
  intro c
  simp only [takeToken, Cursor.chars?_shift]
  cases c.chars? with
  | none => rfl
  | some cs =>
      dsimp only
      cases size cs with
      | none => rfl
      | some n =>
          have hoffset := Nat.add_assoc k c.offset (byteLength (cs.take n))
          exact congrArg (fun o ↦ Outcome.success ⟨o, _⟩ _ _) hoffset

/-- A sequence moves along if all its steps do. -/
theorem runAll_shift {n : Nat} {steps : Fin n → Cursor → Outcome α}
    (hsteps : ∀ i, Moves k (steps i)) (c : Cursor) (h : Hints) (values : List α) :
    runAll steps (c.shift k) (h.shift k) values = (runAll steps c h values).shift k := by
  induction n generalizing c h values with
  | zero => rfl
  | succ n ih =>
      simp only [runAll, hsteps 0 c]
      cases steps 0 c with
      | success m a h' =>
          simp only [Outcome.shift, ← Hints.shift_join]
          exact ih (fun i ↦ hsteps i.succ) m (h.join h') (a :: values)
      | failure h' => exact congrArg Outcome.failure (Hints.shift_join h h').symm
      | overrun => rfl

/-- A repetition moves along if each of its passes does. -/
theorem runMany_shift {step : Cursor → Outcome α} (hstep : Moves k step) (bound : List Char)
    (c : Cursor) (h : Hints) (values : List α) :
    runMany step bound (c.shift k) (h.shift k) values =
      (runMany step bound c h values).shift k := by
  fun_induction runMany step bound c h values with
  | case1 c h values m a h' hrun hlt =>
      have hlt' : (c.shift k).offset < (m.shift k).offset := Nat.add_lt_add_left hlt k
      rw [runMany_eq, hstep, hrun]
      simp only [Outcome.shift, if_pos hlt']
  | case2 c h values m a h' hrun hlt b bound ih =>
      have hlt' : (c.shift k).offset < (m.shift k).offset := Nat.add_lt_add_left hlt k
      rw [runMany_eq, hstep, hrun]
      simp only [Outcome.shift, if_pos hlt', ← Hints.shift_join]
      exact ih
  | case3 bound c h values m a h' hrun hle =>
      rw [runMany_eq, hstep, hrun]
      simp only [Outcome.shift, Cursor.offset_shift, Nat.add_lt_add_iff_left, if_neg hle,
        ← Hints.shift_join]
  | case4 bound c h values h' hrun =>
      rw [runMany_eq, hstep, hrun]
      simp only [Outcome.shift, ← Hints.shift_join]
  | case5 bound c h values hrun =>
      rw [runMany_eq, hstep, hrun]
      rfl

variable {call : (r : ρ) → Cursor → Outcome (V r)}

/-- A run sees of its place only what is ahead of it. -/
theorem moves_run (hcall : ∀ r, Moves k (call r)) {p : Parser V α} (hp : p.SpanFree) :
    Moves k (p.run call) := by
  induction p with
  | pure a => exact fun _ ↦ rfl
  | token name size => exact moves_takeToken name size
  | eof =>
      intro c
      rw [run_eof, run_eof, Cursor.atEnd_shift]
      cases c.atEnd with
      | true | false => rfl
  | rule r => exact hcall r
  | map f p ih => exact (ih hp).map f
  | bind p f ih ihf => exact (ih hp.1).andThen fun a ↦ ihf a (hp.2 a)
  | both p q ih ihq => exact (ih hp.1).andThen fun a ↦ (ihq hp.2).map (a, ·)
  | either p q ih ihq =>
      intro c
      rw [run_either, run_either, ih hp.1, ihq hp.2]
      cases p.run call c with
      | success | overrun => rfl
      | failure h =>
          cases q.run call c with
          | success m b h' => exact congrArg (Outcome.success _ b) (Hints.shift_join h h').symm
          | failure h' => exact congrArg Outcome.failure (Hints.shift_deepest h h').symm
          | overrun => rfl
  | filterMap f p ih =>
      intro c
      rw [run_filterMap, run_filterMap, ih hp]
      cases p.run call c with
      | success m a h =>
          simp only [Outcome.shift]
          cases f a with
          | none => exact congrArg Outcome.failure (Hints.shift_join h (.mark c.offset)).symm
          | some b => rfl
      | failure | overrun => rfl
  | label name p ih =>
      intro c
      rw [run_label, run_label, ih hp]
      cases p.run call c with
      | success | overrun => rfl
      | failure h =>
          -- A failure without hints is put at the place where the run began, which moves too.
          simp only [Outcome.shift, Hints.furthest?_shift, Cursor.offset_shift]
          cases h.furthest? with
          | none | some => rfl
  | spanned p ih => exact hp.elim
  | sequence ps ih => exact fun c ↦ runAll_shift (fun i ↦ ih i (hp i)) c .empty []
  | many p ih => exact fun c ↦ runMany_shift (ih hp) c.ahead c .empty []
  | optional p ih =>
      intro c
      rw [run_optional, run_optional, ih hp]
      cases p.run call c with
      | success | failure | overrun => rfl
  | not p ih =>
      intro c
      rw [run_not, run_not, ih hp]
      cases p.run call c with
      | success | failure | overrun => rfl

end Parser

namespace Grammar

variable {ρ : Type} {V : ρ → Type} {g : Grammar V} {α : Type}

/-- Rules without spans move along, at any depth of calls. -/
theorem moves_call (hg : ∀ r, (g r).SpanFree) (depth : Nat) (r : ρ) :
    Parser.Moves k (g.call depth r) := by
  induction depth generalizing r with
  | zero => exact fun _ ↦ rfl
  | succ depth ih => exact Parser.moves_run ih (hg r)

/-- With a text put in front, a run that begins as much further on ends in the same way, be it a
success, a failure or that the depth does not suffice: with the same value, at a place as much
further on, and with the same hints, each as much further on. -/
theorem runAt_append (hg : ∀ r, (g r).SpanFree) {p : Parser V α} (hp : p.SpanFree) (depth : Nat)
    (front text : List Char) (o : Nat) :
    let here := g.runAt depth p (.ofText text o)
    let there := g.runAt depth p (.ofText (front ++ text) (byteLength front + o))
    there = here.shift (byteLength front) ∧
      there.hints.toList = here.hints.toList.map fun (n, label) ↦ (byteLength front + n, label) := by
  intro here there
  have hrun : there = here.shift (byteLength front) := by
    simp only [here, there, runAt, Cursor.ofText_append]
    exact Parser.moves_run (moves_call hg depth) hp _
  refine ⟨hrun, ?_⟩
  rw [hrun, Outcome.hints_shift, Hints.toList_shift]

/-- A pair of brackets and one that is not closed, behind a character of two bytes. -/
theorem runAt_append_brackets :
    let here := brackets.runAt 3 (.many (.rule ())) (.ofText "()(".toList 0)
    let there := brackets.runAt 3 (.many (.rule ())) (.ofText "é()(".toList 2)
    (∀ r, (brackets r).SpanFree) ∧ (.many (.rule ()) : Parser (fun _ : Unit ↦ Unit) _).SpanFree ∧
      there = here.shift 2 ∧
      here.hints.toList = [(1, some "\"(\""), (3, some "\"(\""), (3, some "\")\"")] ∧
      there.hints.toList = [(3, some "\"(\""), (5, some "\"(\""), (5, some "\")\"")] := by
  intro here there
  have hg : ∀ r, (brackets r).SpanFree := fun _ ↦ ⟨⟨⟨trivial, trivial⟩, trivial⟩, trivial⟩
  have hhere : here.hints.toList = [(1, some "\"(\""), (3, some "\"(\""), (3, some "\")\"")] := by
    decide +kernel
  obtain ⟨hrun, hhints⟩ := runAt_append hg
    (p := (.many (.rule ()) : Parser (fun _ : Unit ↦ Unit) _)) trivial 3 ['é'] "()(".toList 0
  exact ⟨hg, trivial, hrun, hhere, hhints.trans (congrArg _ hhere)⟩

end Grammar

end Parsing

end ZPlane
