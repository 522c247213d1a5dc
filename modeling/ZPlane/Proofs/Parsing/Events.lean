import Mathlib
import ZPlane.Proofs.Parsing.Hinted

/-!
# Rule calls and repetitions

`Parser.Does` says what a run does on its way: it calls a rule at a place, or a repetition matches
once more.  The places of the calls are reached from where the run began (`Does.reaches`), and the
calls are all that a run asks of the rules: if each of them ends alike under two meanings of the
rules, so does the run, and it does end (`settles_run`).
-/

namespace ZPlane

namespace Parsing

/-- What a run does on its way. -/
inductive Event (ρ : Type) where
  /-- The rule is called at the place. -/
  | called (r : ρ) (place : Cursor)
  /-- The parser of a repetition matches, from the one place to the other. -/
  | matched (start stop : Cursor)

namespace Outcome

variable {α β : Type} {o o' : Outcome α}

/-- The first run ends, and the second one ends in the same way. -/
structure Settles (o o' : Outcome α) : Prop where
  ne_overrun : o ≠ overrun
  eq : o' = o

namespace Settles

/-- An outcome that is no overrun is settled. -/
theorem refl (ho : o ≠ overrun) : o.Settles o := ⟨ho, rfl⟩

theorem success {c : Cursor} {a : α} {h : Hints} : (success c a h).Settles (success c a h) :=
  refl nofun

theorem failure {h : Hints} : (failure h : Outcome α).Settles (failure h) := refl nofun

/-- A settled outcome is mapped to a settled one. -/
theorem map (f : α → β) (ho : o.Settles o') : (o.map f).Settles (o'.map f) := by
  obtain ⟨hne, rfl⟩ := ho
  refine refl ?_
  cases o' with
  | success | failure => exact nofun
  | overrun => exact absurd rfl hne

/-- Hints in front leave an outcome settled. -/
theorem after (h : Hints) (ho : o.Settles o') : (o.after h).Settles (o'.after h) := by
  obtain ⟨hne, rfl⟩ := ho
  refine refl ?_
  cases o' with
  | success | failure => exact nofun
  | overrun => exact absurd rfl hne

/-- If an outcome is settled, and what follows each of its values, so are both together. -/
theorem andThen {next next' : Cursor → α → Outcome β} (ho : o.Settles o')
    (hnext : ∀ m a h, o = .success m a h → (next m a).Settles (next' m a)) :
    (o.andThen next).Settles (o'.andThen next') := by
  obtain ⟨hne, rfl⟩ := ho
  cases o' with
  | success m a h => exact (hnext m a h rfl).after h
  | failure => exact failure
  | overrun => exact absurd rfl hne

end Settles

end Outcome

namespace Parser

variable {α β : Type}

/-- Of steps in a row, one that is come to does it. -/
def DoesAll {ε : Type} : {n : Nat} → (Fin n → Cursor → Outcome α) → (Fin n → Cursor → ε → Prop) →
    Cursor → ε → Prop
  | 0, _, _, _, _ => False
  | _ + 1, steps, does, c, e =>
    does 0 c e ∨ ∃ m a h, steps 0 c = .success m a h ∧
      DoesAll (fun k ↦ steps k.succ) (fun k ↦ does k.succ) m e

variable {ρ : Type} {V : ρ → Type}

/-- The run of the parser at the place does it.  What the rules do that it calls is not part of
it. -/
def Does (call : (r : ρ) → Cursor → Outcome (V r)) {α : Type} :
    Parser V α → Cursor → Event ρ → Prop
  | pure _, _, _ | token _ _, _, _ | eof, _, _ => False
  | rule r, c, e => e = .called r c
  | map _ p, c, e => Does call p c e
  | bind p f, c, e => Does call p c e ∨ ∃ m a, Reads call p c m a ∧ Does call (f a) m e
  | both p q, c, e => Does call p c e ∨ ∃ m a, Reads call p c m a ∧ Does call q m e
  | either p q, c, e => Does call p c e ∨ Rejects call p c ∧ Does call q c e
  | filterMap _ p, c, e => Does call p c e
  | label _ p, c, e => Does call p c e
  | spanned p, c, e => Does call p c e
  | sequence ps, c, e => DoesAll (fun k ↦ (ps k).run call) (fun k ↦ Does call (ps k)) c e
  | many p, c, e => ∃ m, AdvancesTo call p c m ∧
      (Does call p m e ∨ ∃ m' a, Reads call p m m' a ∧ e = .matched m m')
  | optional p, c, e => Does call p c e
  | not p, c, e => Does call p c e

variable {call call' : (r : ρ) → Cursor → Outcome (V r)} {c d : Cursor} {r : ρ}

/-! ### Where rules are called -/

/-- A sequence calls rules only at places that it reaches. -/
theorem DoesAll.reaches {n : Nat} {steps : Fin n → Cursor → Outcome α}
    {does : Fin n → Cursor → Event ρ → Prop}
    (hsteps : ∀ k {c c' a h}, steps k c = .success c' a h → c.Reaches c')
    (hdoes : ∀ k {c}, does k c (.called r d) → c.Reaches d)
    (h : DoesAll steps does c (.called r d)) : c.Reaches d := by
  induction n generalizing c with
  | zero => exact h.elim
  | succ n ih =>
      rcases h with h | ⟨m, a, _, hrun, h⟩
      · exact hdoes 0 h
      · exact (hsteps 0 hrun).trans (ih (fun k ↦ hsteps k.succ) (fun k ↦ hdoes k.succ) h)

/-- A repetition begins its passes only at places that it reaches. -/
theorem AdvancesTo.reaches (hcall : Forward call) {p : Parser V α} (h : AdvancesTo call p c d) :
    c.Reaches d :=
  h.invariant (.refl c) fun hm hread ↦ hm.trans (hread.reaches hcall)

/-- A run calls rules only at places that it reaches. -/
theorem Does.reaches (hcall : Forward call) {p : Parser V α} (h : p.Does call c (.called r d)) :
    c.Reaches d := by
  induction p generalizing c with
  | pure | token | eof => exact h.elim
  | rule r' =>
      obtain ⟨rfl, rfl⟩ := Event.called.inj h
      exact .refl _
  | map f p ih | filterMap f p ih | label name p ih | spanned p ih | optional p ih | not p ih =>
      exact ih h
  | bind p f ih ihf =>
      rcases h with h | ⟨m, a, hread, h⟩
      · exact ih h
      · exact (hread.reaches hcall).trans (ihf a h)
  | both p q ih ihq =>
      rcases h with h | ⟨m, a, hread, h⟩
      · exact ih h
      · exact (hread.reaches hcall).trans (ihq h)
  | either p q ih ihq =>
      rcases h with h | ⟨-, h⟩
      · exact ih h
      · exact ihq h
  | sequence ps ih =>
      exact DoesAll.reaches (fun k _ _ _ h hrun ↦ Reads.reaches hcall ⟨h, hrun⟩) (fun k _ ↦ ih k) h
  | many p ih =>
      obtain ⟨m, hm, h | ⟨_, _, _, h⟩⟩ := h
      · exact (hm.reaches hcall).trans (ih h)
      · cases h

/-! ### Runs under two meanings of the rules -/

/-- The calls of the run end, and alike under both meanings. -/
def CallsSettle (call call' : (r : ρ) → Cursor → Outcome (V r)) (p : Parser V α) (c : Cursor) :
    Prop :=
  ∀ r d, p.Does call c (.called r d) → (call r d).Settles (call' r d)

/-- If the calls of a sequence are settled, so is the sequence. -/
theorem settles_runAll {n : Nat} {ps : Fin n → Parser V α}
    (hsteps : ∀ k c, CallsSettle call call' (ps k) c →
      ((ps k).run call c).Settles ((ps k).run call' c))
    (h : CallsSettle call call' (sequence ps) c) (hints : Hints) (values : List α) :
    (runAll (fun k ↦ (ps k).run call) c hints values).Settles
      (runAll (fun k ↦ (ps k).run call') c hints values) := by
  induction n generalizing c hints values with
  | zero => exact .success
  | succ n ih =>
      obtain ⟨hne, heq⟩ := hsteps 0 c fun r d hd ↦ h r d (.inl hd)
      simp only [runAll, heq]
      cases hrun : (ps 0).run call c with
      | success m a h₁ =>
          refine ih (fun k ↦ hsteps k.succ) (fun r d hd ↦ h r d ?_) _ _
          exact .inr ⟨m, a, h₁, hrun, hd⟩
      | failure => exact .failure
      | overrun => exact absurd hrun hne

/-- One pass of a repetition, and what it makes of the outcome. -/
theorem runMany_eq (step : Cursor → Outcome α) (bound : List Char) (c : Cursor) (h : Hints)
    (values : List α) : runMany step bound c h values =
      match step c with
      | .success c' a h' =>
        if c.offset < c'.offset then
          match bound with
          | [] => .overrun
          | _ :: bound => runMany step bound c' (h.join h') (a :: values)
        else .success c values.reverse (h.join h')
      | .failure h' => .success c values.reverse (h.join h')
      | .overrun => .overrun := runMany.eq_def step bound c h values

/-- If each pass of a repetition is settled, so is the repetition. -/
theorem settles_runMany {p : Parser V α} (hcall : Forward call)
    (hstep : ∀ m, AdvancesTo call p c m → (p.run call m).Settles (p.run call' m))
    {bound : List Char} (hbound : c.ahead.length ≤ bound.length) (hints : Hints)
    (values : List α) :
    (runMany (p.run call) bound c hints values).Settles
      (runMany (p.run call') bound c hints values) := by
  have hhere (c : Cursor) (hstep : ∀ m, AdvancesTo call p c m →
      (p.run call m).Settles (p.run call' m)) : (p.run call c).Settles (p.run call' c) :=
    hstep c .refl
  fun_induction runMany (p.run call) bound c hints values with
  | case1 c _ _ m a h hrun hlt =>
      have hreaches : c.Reaches m := Reads.reaches hcall ⟨h, hrun⟩
      have hshort := hreaches.length_ahead_lt hlt
      exact absurd (lt_of_lt_of_le hshort hbound) (Nat.not_lt_zero _)
  | case2 c hints values m a h hrun hlt b bound ih =>
      have hreaches : c.Reaches m := Reads.reaches hcall ⟨h, hrun⟩
      have hshort := hreaches.length_ahead_lt hlt
      rw [List.length_cons] at hbound
      rw [runMany_eq (p.run call'), (hhere c hstep).eq, hrun]
      simp only [if_pos hlt]
      exact ih (fun d hd ↦ hstep d (.head ⟨a, ⟨h, hrun⟩, hlt⟩ hd)) (by omega)
  | case3 bound c _ _ m a h hrun hle =>
      rw [runMany_eq (p.run call'), (hhere c hstep).eq, hrun]
      simp only [if_neg hle]
      exact .success
  | case4 bound c _ _ h hrun =>
      rw [runMany_eq (p.run call'), (hhere c hstep).eq, hrun]
      exact .success
  | case5 bound c _ _ hrun => exact absurd hrun (hhere c hstep).ne_overrun

/-- A run whose calls end ends itself, and as it does under every meaning of the rules that gives
these calls the same end. -/
theorem settles_run (hcall : Forward call) {p : Parser V α} (h : CallsSettle call call' p c) :
    (p.run call c).Settles (p.run call' c) := by
  induction p generalizing c with
  | pure => exact .success
  | token name size =>
      refine .refl ?_
      rw [run_token]
      rcases takeToken_cases name size c with hrun | ⟨_, _, hrun⟩
      · rw [hrun]
        exact nofun
      · rw [hrun]
        exact nofun
  | eof =>
      refine .refl ?_
      rw [run_eof]
      split
      · exact nofun
      · exact nofun
  | rule r => exact h r c rfl
  | map f p ih => exact (ih h).map f
  | bind p f ih ihf =>
      refine (ih fun r d hd ↦ h r d (.inl hd)).andThen fun m a h₁ hrun ↦ ?_
      exact ihf a fun r d hd ↦ h r d (.inr ⟨m, a, ⟨h₁, hrun⟩, hd⟩)
  | both p q ih ihq =>
      refine (ih fun r d hd ↦ h r d (.inl hd)).andThen fun m a h₁ hrun ↦ ?_
      exact (ihq fun r d hd ↦ h r d (.inr ⟨m, a, ⟨h₁, hrun⟩, hd⟩)).map _
  | either p q ih ihq =>
      obtain ⟨hne, heq⟩ := ih fun r d hd ↦ h r d (.inl hd)
      rw [run_either, run_either, heq]
      cases hrun : p.run call c with
      | success => exact .success
      | failure h₁ =>
          obtain ⟨hne', heq'⟩ := ihq fun r d hd ↦ h r d (.inr ⟨⟨h₁, hrun⟩, hd⟩)
          rw [heq']
          cases hrun' : q.run call c with
          | success => exact .success
          | failure => exact .failure
          | overrun => exact absurd hrun' hne'
      | overrun => exact absurd hrun hne
  | filterMap f p ih =>
      obtain ⟨hne, heq⟩ := ih h
      rw [run_filterMap, run_filterMap, heq]
      refine .refl ?_
      cases hrun : p.run call c with
      | success =>
          dsimp only
          split
          · exact nofun
          · exact nofun
      | failure => exact nofun
      | overrun => exact absurd hrun hne
  | label name p ih =>
      obtain ⟨hne, heq⟩ := ih h
      rw [run_label, run_label, heq]
      cases hrun : p.run call c with
      | success => exact .success
      | failure => exact .failure
      | overrun => exact absurd hrun hne
  | spanned p ih =>
      obtain ⟨hne, heq⟩ := ih h
      rw [run_spanned, run_spanned, heq]
      cases hrun : p.run call c with
      | success => exact .success
      | failure => exact .failure
      | overrun => exact absurd hrun hne
  | sequence ps ih => exact settles_runAll (fun k _ hk ↦ ih k hk) h .empty []
  | many p ih =>
      refine settles_runMany hcall (fun m hm ↦ ih fun r d hd ↦ ?_) le_rfl .empty []
      exact h r d ⟨m, hm, .inl hd⟩
  | optional p ih =>
      obtain ⟨hne, heq⟩ := ih h
      rw [run_optional, run_optional, heq]
      cases hrun : p.run call c with
      | success | failure => exact .success
      | overrun => exact absurd hrun hne
  | not p ih =>
      obtain ⟨hne, heq⟩ := ih h
      rw [run_not, run_not, heq]
      cases hrun : p.run call c with
      | success => exact .failure
      | failure => exact .success
      | overrun => exact absurd hrun hne

end Parser

end Parsing

end ZPlane
