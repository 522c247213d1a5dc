import Mathlib
import ZPlane.Parsing.Lexeme
import ZPlane.Proofs.Parsing.Placed

/-!
# Rejections

`Parser.rejections` follows a run and notes, in order, the offsets where something was rejected: a
primitive where it was tried, a filter where the match that it turned down began.  It looks at what
the run reads and at no hint.

Without lookahead the hints of a run go exactly as far as the furthest of these
(`Parser.reports_run`), whichever branches were abandoned: `join` and `deepest` take the greater of
two furthest offsets, and each construct joins the hints of all that it has run.
-/

namespace ZPlane

namespace Parsing

namespace Outcome

variable {α β : Type} {o : Outcome α} {h : Hints}

/-- What is noted behind a success; nothing behind anything else. -/
def onSuccess (o : Outcome α) (next : Cursor → α → List Nat) : List Nat :=
  match o with
  | success c a _ => next c a
  | failure _ => []
  | overrun => []

/-- What is noted behind a failure; nothing behind anything else. -/
def onFailure (o : Outcome α) (next : List Nat) : List Nat :=
  match o with
  | success _ _ _ => []
  | failure _ => next
  | overrun => []

/-- If the run came to its end, its hints go as far as the furthest of the offsets. -/
def Reports (o : Outcome α) (offsets : List Nat) : Prop :=
  o ≠ overrun → o.hints.furthest? = offsets.max?

namespace Reports

variable {offsets : List Nat}

/-- A run without an end reports anything. -/
theorem overrun : (overrun : Outcome α).Reports offsets := fun h ↦ absurd rfl h

theorem of_success {c : Cursor} {a : α} (ho : (success c a h).Reports offsets) :
    h.furthest? = offsets.max? := ho nofun

theorem of_failure (ho : (failure h : Outcome α).Reports offsets) :
    h.furthest? = offsets.max? := ho nofun

/-- A mapped outcome reports the same offsets. -/
theorem map (f : α → β) (ho : o.Reports offsets) : (o.map f).Reports offsets := by
  cases o with
  | success => exact fun _ ↦ ho.of_success
  | failure => exact fun _ ↦ ho.of_failure
  | overrun => exact overrun

/-- Hints in front report the offsets in front. -/
theorem after {earlier : List Nat} (hh : h.furthest? = earlier.max?) (ho : o.Reports offsets) :
    (o.after h).Reports (earlier ++ offsets) := by
  cases o with
  | success | failure =>
      intro _
      rw [max?_append, ← hh, ← ho nofun]
      exact Hints.furthest?_join h _
  | overrun => exact overrun

/-- Two runs in a row report the offsets of both. -/
theorem andThen {next : Cursor → α → Outcome β} {later : Cursor → α → List Nat}
    (ho : o.Reports offsets) (hnext : ∀ m a, (next m a).Reports (later m a)) :
    (o.andThen next).Reports (offsets ++ o.onSuccess later) := by
  cases o with
  | success m a h => exact (hnext m a).after ho.of_success
  | failure h =>
      rw [onSuccess, List.append_nil]
      exact fun _ ↦ ho.of_failure
  | overrun => exact overrun

end Reports

end Outcome

namespace Parser

variable {α β : Type}

/-! ### Noting rejections -/

/-- The rejections of steps in a row. -/
def rejectionsAll : {n : Nat} → (Fin n → Cursor → Outcome α) → (Fin n → Cursor → List Nat) →
    Cursor → List Nat
  | 0, _, _, _ => []
  | _ + 1, steps, notes, c =>
    notes 0 c ++ (steps 0 c).onSuccess fun m _ ↦
      rejectionsAll (fun k ↦ steps k.succ) (fun k ↦ notes k.succ) m

theorem rejectionsAll_zero (steps : Fin 0 → Cursor → Outcome α) (notes : Fin 0 → Cursor → List Nat)
    (c : Cursor) : rejectionsAll steps notes c = [] := rfl

/-- A sequence is rejected where its first step is, and where the others are behind it. -/
theorem rejectionsAll_succ {n : Nat} (steps : Fin (n + 1) → Cursor → Outcome α)
    (notes : Fin (n + 1) → Cursor → List Nat) (c : Cursor) : rejectionsAll steps notes c =
      notes 0 c ++ (steps 0 c).onSuccess fun m _ ↦
        rejectionsAll (fun k ↦ steps k.succ) (fun k ↦ notes k.succ) m := rfl

/-- The rejections of a repeated step, those of the last attempt included. -/
def rejectionsMany (step : Cursor → Outcome α) (notes : Cursor → List Nat) :
    (bound : List Char) → Cursor → List Nat
  | bound, c =>
    notes c ++ (step c).onSuccess fun m _ ↦
      if c.offset < m.offset then
        match bound with
        | [] => []
        | _ :: bound => rejectionsMany step notes bound m
      else []

variable {ρ : Type} {V : ρ → Type}

/-- The offsets of the rejections in a run from a place on, with `calls` for those in the rules. -/
def rejections (call : (r : ρ) → Cursor → Outcome (V r)) (calls : (r : ρ) → Cursor → List Nat)
    {α : Type} : Parser V α → Cursor → List Nat
  | pure _, _ => []
  | token name size, c => (takeToken name size c).onFailure [c.offset]
  | eof, c => if c.atEnd then [] else [c.offset]
  | rule r, c => calls r c
  | map _ p, c => rejections call calls p c
  | bind p f, c =>
    rejections call calls p c ++ (p.run call c).onSuccess fun m a ↦ rejections call calls (f a) m
  | both p q, c =>
    rejections call calls p c ++ (p.run call c).onSuccess fun m _ ↦ rejections call calls q m
  | either p q, c =>
    rejections call calls p c ++ (p.run call c).onFailure (rejections call calls q c)
  | filterMap f p, c =>
    rejections call calls p c ++ (p.run call c).onSuccess fun _ a ↦
      if (f a).isSome then [] else [c.offset]
  | label _ p, c => rejections call calls p c
  | spanned p, c => rejections call calls p c
  | sequence ps, c =>
    rejectionsAll (fun k ↦ (ps k).run call) (fun k ↦ rejections call calls (ps k)) c
  | many p, c => rejectionsMany (p.run call) (rejections call calls p) c.ahead c
  | optional p, c => rejections call calls p c
  | not p, c => rejections call calls p c ++ (p.run call c).onSuccess fun _ _ ↦ [c.offset]

/-- The parser does not look ahead with `not`. -/
def NoLookahead {α : Type} : Parser V α → Prop
  | pure _ | token _ _ | eof | rule _ => True
  | map _ p | filterMap _ p | label _ p | spanned p | many p | optional p => p.NoLookahead
  | bind p f => p.NoLookahead ∧ ∀ a, (f a).NoLookahead
  | both p q => p.NoLookahead ∧ q.NoLookahead
  | either p q => p.NoLookahead ∧ q.NoLookahead
  | sequence ps => ∀ k, (ps k).NoLookahead
  | not _ => False

/-! ### Hints report the furthest rejection -/

variable {call : (r : ρ) → Cursor → Outcome (V r)} {calls : (r : ρ) → Cursor → List Nat}

/-- A token that is not there is rejected where it stands. -/
theorem reports_takeToken (name : String) (size : List Char → Option Nat) (c : Cursor) :
    (takeToken name size c).Reports ((takeToken name size c).onFailure [c.offset]) := by
  intro _
  unfold takeToken
  split
  · rfl
  · split
    · rfl
    · rfl

/-- A sequence reports the rejections of its steps, behind those before. -/
theorem reports_runAll {n : Nat} {steps : Fin n → Cursor → Outcome α}
    {notes : Fin n → Cursor → List Nat} (hsteps : ∀ k c, (steps k c).Reports (notes k c))
    {c : Cursor} {h : Hints} {earlier : List Nat} (hh : h.furthest? = earlier.max?)
    (values : List α) :
    (runAll steps c h values).Reports (earlier ++ rejectionsAll steps notes c) := by
  induction n generalizing c h earlier values with
  | zero =>
      intro _
      rw [rejectionsAll_zero, List.append_nil]
      exact hh
  | succ n ih =>
      have hstep := (hsteps 0 c).after hh
      rw [runAll, rejectionsAll_succ, ← List.append_assoc]
      generalize steps 0 c = o at hstep
      cases o with
      | success m a h' => exact ih (fun k ↦ hsteps k.succ) hstep.of_success _
      | failure h' =>
          rw [Outcome.onSuccess, List.append_nil]
          exact fun _ ↦ hstep.of_failure
      | overrun => exact .overrun

/-- A repetition reports the rejections of its passes, behind those before. -/
theorem reports_runMany {step : Cursor → Outcome α} {notes : Cursor → List Nat}
    (hstep : ∀ c, (step c).Reports (notes c)) (bound : List Char) (c : Cursor) {h : Hints}
    {earlier : List Nat} (hh : h.furthest? = earlier.max?) (values : List α) :
    (runMany step bound c h values).Reports (earlier ++ rejectionsMany step notes bound c) := by
  have hattempt {c : Cursor} {o : Outcome α} {h : Hints} {earlier : List Nat}
      (hh : h.furthest? = earlier.max?) (hrun : step c = o) :
      (o.after h).Reports (earlier ++ notes c) := hrun ▸ (hstep c).after hh
  fun_induction runMany step bound c h values generalizing earlier with
  | case1 => exact .overrun
  | case2 c h values m a h' hrun hlt _ bound ih =>
      rw [rejectionsMany, hrun, Outcome.onSuccess, if_pos hlt, ← List.append_assoc]
      exact ih (hattempt hh hrun).of_success
  | case3 bound c h values m a h' hrun hle =>
      rw [rejectionsMany, hrun, Outcome.onSuccess, if_neg hle, List.append_nil]
      exact fun _ ↦ (hattempt hh hrun).of_success
  | case4 bound c h values h' hrun =>
      rw [rejectionsMany, hrun, Outcome.onSuccess, List.append_nil]
      exact fun _ ↦ (hattempt hh hrun).of_failure
  | case5 => exact .overrun

/-- The furthest hint of a run is at the furthest rejection, if that is so for the rules. -/
theorem reports_run (hforward : Forward call) (hplaced : ∀ r c, (call r c).Placed c)
    (hcall : ∀ r c, (call r c).Reports (calls r c)) {p : Parser V α} (hp : p.NoLookahead)
    (c : Cursor) : (p.run call c).Reports (p.rejections call calls c) := by
  have hnone : Hints.empty.furthest? = ([] : List Nat).max? := rfl
  induction p generalizing c with
  | pure => exact fun _ ↦ rfl
  | token name size => exact reports_takeToken name size c
  | eof =>
      rw [run_eof, rejections]
      split
      · exact fun _ ↦ rfl
      · exact fun _ ↦ rfl
  | rule r => exact hcall r c
  | map f p ih => exact (ih hp c).map f
  | bind p f ih ihf => exact (ih hp.1 c).andThen fun m a ↦ ihf a (hp.2 a) m
  | both p q ih ihq => exact (ih hp.1 c).andThen fun m a ↦ (ihq hp.2 m).map _
  | either p q ih ihq =>
      rw [run_either, rejections]
      have hleft := ih hp.1 c
      have hright := ihq hp.2 c
      generalize p.run call c = o at hleft
      cases o with
      | success =>
          rw [Outcome.onFailure, List.append_nil]
          exact fun _ ↦ hleft.of_success
      | failure h =>
          generalize q.run call c = o' at hright
          have h₁ := hleft.of_failure
          cases o' with
          | success => exact fun _ ↦ (hright.after h₁).of_success
          | failure h' =>
              have h₂ := hright.of_failure
              intro _
              rw [Outcome.onFailure, max?_append, ← h₁, ← h₂]
              exact Hints.furthest?_deepest h h'
          | overrun => exact .overrun
      | overrun => exact .overrun
  | filterMap f p ih =>
      rw [run_filterMap, rejections]
      have hinner := ih hp c
      generalize p.run call c = o at hinner
      cases o with
      | success m a h =>
          have hh := hinner.of_success
          rw [Outcome.onSuccess]
          cases hf : f a with
          | some b =>
              simp only [hf, Option.isSome_some, if_true, List.append_nil]
              exact fun _ ↦ hh
          | none =>
              simp only [hf, Option.isSome_none, Bool.false_eq_true, if_false]
              intro _
              rw [max?_append, ← hh]
              exact Hints.furthest?_join h _
      | failure =>
          rw [Outcome.onSuccess, List.append_nil]
          exact fun _ ↦ hinner.of_failure
      | overrun => exact .overrun
  | label name p ih =>
      rw [run_label, rejections]
      have hinner := ih hp c
      have hplace := p.placed_run hforward hplaced c
      generalize p.run call c = o at hinner hplace
      cases o with
      | success => exact fun _ ↦ hinner.of_success
      | failure h =>
          have hh : h.Placed c := hplace.hints
          obtain ⟨n, hn, -⟩ := hh.exists_furthest (hplace.ne_nil rfl)
          intro _
          calc
            some (h.furthest?.getD c.offset) = h.furthest? := by rw [hn, Option.getD_some]
            _ = (p.rejections call calls c).max? := hinner.of_failure
      | overrun => exact .overrun
  | spanned p ih =>
      rw [run_spanned, rejections]
      have hinner := ih hp c
      generalize p.run call c = o at hinner
      cases o with
      | success => exact fun _ ↦ hinner.of_success
      | failure => exact fun _ ↦ hinner.of_failure
      | overrun => exact .overrun
  | sequence ps ih => exact reports_runAll (fun k ↦ ih k (hp k)) hnone []
  | many p ih => exact reports_runMany (ih hp) _ c hnone []
  | optional p ih =>
      rw [run_optional, rejections]
      have hinner := ih hp c
      generalize p.run call c = o at hinner
      cases o with
      | success => exact fun _ ↦ hinner.of_success
      | failure => exact fun _ ↦ hinner.of_failure
      | overrun => exact .overrun
  | not => exact hp.elim

end Parser

namespace Grammar

variable {ρ : Type} {V : ρ → Type} (g : Grammar V)

/-- The rejections in a rule, with calls up to the given depth. -/
def callRejections : (depth : Nat) → (r : ρ) → Cursor → List Nat
  | 0, _, _ => []
  | depth + 1, r, c => (g r).rejections (g.call depth) (callRejections depth) c

/-- The rejections in a run of a parser, with rule calls up to the given depth. -/
def rejections (depth : Nat) {α : Type} (p : Parser V α) (c : Cursor) : List Nat :=
  p.rejections (g.call depth) (g.callRejections depth) c

/-- Where the rest begins, if a parser reads a part of the text only. -/
def leftover (depth : Nat) {α : Type} (p : Parser V α) (cs : List Char) : List Nat :=
  (g.runAt depth p (.ofText cs 0)).onSuccess fun c _ ↦
    if c.rest = .chars [] then [] else [c.offset]

variable {g} {α : Type} {p : Parser V α}

/-- The rules of a grammar report their rejections, at any depth of calls. -/
theorem reports_call (hg : ∀ r, (g r).NoLookahead) (depth : Nat) (r : ρ) (c : Cursor) :
    (g.call depth r c).Reports (g.callRejections depth r c) := by
  induction depth generalizing r c with
  | zero => exact .overrun
  | succ depth ih =>
      exact Parser.reports_run (g.forward_call depth) (g.placed_call depth) ih (hg r) c

/-- Every run without lookahead reports its rejections. -/
theorem reports_runAt (hg : ∀ r, (g r).NoLookahead) (hp : p.NoLookahead) (depth : Nat)
    (c : Cursor) : (g.runAt depth p c).Reports (g.rejections depth p c) :=
  Parser.reports_run (g.forward_call depth) (g.placed_call depth) (reports_call hg depth) hp c

/-- The hints of a run that came to its end go exactly as far as its furthest rejection, and there
are none if nothing was rejected.  The error of a parse stands at the furthest rejection too, where
a rest that was left over counts as one. -/
theorem furthest?_eq_max?_rejections (hg : ∀ r, (g r).NoLookahead) (hp : p.NoLookahead)
    (depth : Nat) (cs : List Char) :
    (∀ offset, g.runAt depth p (.ofText cs offset) ≠ .overrun →
      (g.runAt depth p (.ofText cs offset)).hints.furthest? =
        (g.rejections depth p (.ofText cs offset)).max?) ∧
    ∀ e, g.parse depth p cs = .error (.unexpected e) →
      some e.offset = (g.rejections depth p (.ofText cs 0) ++ g.leftover depth p cs).max? := by
  refine ⟨fun offset ↦ reports_runAt hg hp depth _, ?_⟩
  intro e he
  have hreports := reports_runAt hg hp depth (.ofText cs 0)
  rw [leftover]
  obtain ⟨h, -, hoffset, -, hrun | ⟨c, a, h', hrun, hrest, rfl⟩⟩ := exists_hints_of_parse he
  · rw [hrun] at hreports ⊢
    rw [Outcome.onSuccess, List.append_nil, ← hreports.of_failure]
    exact hoffset.symm
  · rw [hrun] at hreports ⊢
    have hh := hreports.of_success
    rw [Outcome.onSuccess, if_neg hrest, max?_append, ← hh, ← hoffset]
    exact Hints.furthest?_join h' _

/-- Parentheses around parentheses, or nothing. -/
def brackets : Grammar fun _ : Unit ↦ Unit := fun _ ↦
  .either (((Parser.literal "(").second (.rule ())).first (.literal ")")) (.pure ())

/-- In `(()` the outer parenthesis is given up, and what it was missing is still reported. -/
theorem furthest?_eq_max?_rejections_brackets :
    (∀ r, (brackets r).NoLookahead) ∧ (Parser.rule () : Parser (fun _ ↦ Unit) Unit).NoLookahead ∧
    (brackets.runAt 3 (.rule ()) (.ofText ['(', '(', ')'] 0) ≠ .overrun ∧
      (brackets.runAt 3 (.rule ()) (.ofText ['(', '(', ')'] 0)).hints.furthest? =
        (brackets.rejections 3 (.rule ()) (.ofText ['(', '(', ')'] 0)).max?) ∧
    brackets.parse 3 (.rule ()) ['(', '(', ')'] = .error (.unexpected ⟨3, ["\")\""]⟩) ∧
    some 3 = (brackets.rejections 3 (.rule ()) (.ofText ['(', '(', ')'] 0) ++
      brackets.leftover 3 (.rule ()) ['(', '(', ')']).max? := by
  have hg : ∀ r, (brackets r).NoLookahead := fun _ ↦ ⟨⟨⟨trivial, trivial⟩, trivial⟩, trivial⟩
  have hrun : brackets.runAt 3 (.rule ()) (.ofText ['(', '(', ')'] 0) ≠ .overrun := nofun
  have hparse : brackets.parse 3 (.rule ()) ['(', '(', ')'] =
      .error (.unexpected ⟨3, ["\")\""]⟩) := by decide +kernel
  obtain ⟨hhints, herror⟩ := furthest?_eq_max?_rejections hg
    (p := (Parser.rule () : Parser (fun _ ↦ Unit) Unit)) trivial 3 ['(', '(', ')']
  exact ⟨hg, trivial, ⟨hrun, hhints 0 hrun⟩, hparse, herror _ hparse⟩

end Grammar

end Parsing

end ZPlane
