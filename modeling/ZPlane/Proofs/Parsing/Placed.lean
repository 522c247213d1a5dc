import Mathlib
import ZPlane.Proofs.Parsing.Forward
import ZPlane.Proofs.Parsing.Hints

/-!
# Hints stand at places of the text

Every hint of a run stands at a place that the run came to, so at one that its first place reaches,
and a failure has a hint.  Both are kept by each construct, lookahead and repetition included, and
so hold of all runs (`Grammar.placed_runAt`).
-/

namespace ZPlane

namespace Parsing

/-- There is a place at the offset that is reached from this one. -/
def Cursor.Passes (c : Cursor) (n : Nat) : Prop := ∃ d, c.Reaches d ∧ d.offset = n

namespace Cursor

variable {c c' : Cursor} {n : Nat}

/-- Every place passes its own offset. -/
theorem passes_offset (c : Cursor) : c.Passes c.offset := ⟨c, .refl c, rfl⟩

/-- What is passed from a place that is reached is passed on the way. -/
theorem Reaches.passes (h : c.Reaches c') (h' : c'.Passes n) : c.Passes n := by
  obtain ⟨d, hd, rfl⟩ := h'
  exact ⟨d, h.trans hd, rfl⟩

end Cursor

/-- The hints stand at places that are reached from `c`, and the tree remembers how far they go. -/
structure Hints.Placed (c : Cursor) (h : Hints) : Prop where
  exact : h.Exact
  passes : ∀ n ∈ h.offsets, c.Passes n

namespace Hints.Placed

variable {a b : Hints} {c c' : Cursor}

theorem empty : Hints.empty.Placed c := ⟨.empty, fun _ hn ↦ absurd hn List.not_mem_nil⟩

/-- A hint where the run has passed is placed. -/
theorem leaf {n : Nat} (label : Option String) (hn : c.Passes n) : (leaf n label).Placed c := by
  refine ⟨.leaf n label, ?_⟩
  intro m hm
  obtain rfl := List.mem_singleton.mp hm
  exact hn

theorem expected (c : Cursor) (label : String) : (expected c.offset label).Placed c :=
  leaf _ c.passes_offset

theorem mark (c : Cursor) : (mark c.offset).Placed c := leaf _ c.passes_offset

/-- Joined hints are placed if both are. -/
theorem join (ha : a.Placed c) (hb : b.Placed c) : (a.join b).Placed c := by
  refine ⟨ha.exact.join hb.exact, ?_⟩
  intro n hn
  rw [offsets_join] at hn
  exact (List.mem_append.mp hn).elim (ha.passes n) (hb.passes n)

/-- Hints of which the shallower ones are dropped are placed if both are. -/
theorem deepest (ha : a.Placed c) (hb : b.Placed c) : (a.deepest b).Placed c :=
  ⟨ha.exact.deepest hb.exact,
    fun n hn ↦ (mem_offsets_deepest hn).elim (ha.passes n) (hb.passes n)⟩

/-- Hints that are placed from further on are placed from here. -/
theorem of_reaches (h : c.Reaches c') (ha : a.Placed c') : a.Placed c :=
  ⟨ha.exact, fun n hn ↦ h.passes (ha.passes n hn)⟩

/-- The furthest of some hints is where the run has passed. -/
theorem exists_furthest (ha : a.Placed c) (hne : a.offsets ≠ []) :
    ∃ n, a.furthest? = some n ∧ c.Passes n := by
  obtain ⟨n, hn⟩ := ha.exact.exists_furthest hne
  exact ⟨n, hn, ha.passes n (ha.exact.mem_offsets hn)⟩

/-- An error that is made of some hints stands at the furthest of them. -/
theorem furthest?_eq_offset (ha : a.Placed c) (hne : a.offsets ≠ []) :
    a.furthest? = some (ParseError.ofHints a).offset := by
  obtain ⟨n, hn, -⟩ := ha.exists_furthest hne
  rw [ParseError.ofHints, hn]

end Hints.Placed

namespace Outcome

variable {α β : Type} {o : Outcome α} {c c' : Cursor} {h : Hints}

/-- All hints of the outcome; none if the run did not end. -/
def hints : Outcome α → Hints
  | success _ _ h => h
  | failure h => h
  | overrun => .empty

/-- The hints of a run from `c` are placed, and a failure has one. -/
structure Placed (c : Cursor) (o : Outcome α) : Prop where
  hints : o.hints.Placed c
  ne_nil : ∀ ⦃h⦄, o = .failure h → h.offsets ≠ []

namespace Placed

theorem success {a : α} (hh : h.Placed c) : (Outcome.success c' a h).Placed c :=
  ⟨hh, by rintro _ ⟨⟩⟩

/-- A failure is placed if its hints are and it has one. -/
theorem failure (hh : h.Placed c) (hne : h.offsets ≠ []) : (failure h : Outcome α).Placed c :=
  ⟨hh, by rintro _ ⟨⟩; exact hne⟩

theorem overrun : (overrun : Outcome α).Placed c := ⟨.empty, by rintro _ ⟨⟩⟩

/-- A failure may be one of any type of values. -/
theorem failed (ho : (Outcome.failure h : Outcome α).Placed c) :
    (Outcome.failure h : Outcome β).Placed c := failure ho.hints (ho.ne_nil rfl)

/-- A run from further on is placed from here. -/
theorem of_reaches (hc : c.Reaches c') (ho : o.Placed c') : o.Placed c :=
  ⟨ho.hints.of_reaches hc, ho.ne_nil⟩

theorem map (f : α → β) (ho : o.Placed c) : (o.map f).Placed c := by
  cases o with
  | success => exact success ho.hints
  | failure => exact ho.failed
  | overrun => exact overrun

theorem after (hh : h.Placed c) (ho : o.Placed c) : (o.after h).Placed c := by
  cases o with
  | success => exact success (hh.join ho.hints)
  | failure =>
      refine failure (hh.join ho.hints) ?_
      rw [Hints.offsets_join]
      exact List.append_ne_nil_of_right_ne_nil _ (ho.ne_nil rfl)
  | overrun => exact overrun

/-- Two runs in a row are placed if both are. -/
theorem andThen {next : Cursor → α → Outcome β} (ho : o.Placed c)
    (hnext : ∀ m a h, o = .success m a h → (next m a).Placed c) : (o.andThen next).Placed c := by
  cases o with
  | success m a h => exact (hnext m a h rfl).after ho.hints
  | failure => exact ho.failed
  | overrun => exact overrun

end Placed

end Outcome

namespace Parser

variable {ρ : Type} {V : ρ → Type} {call : (r : ρ) → Cursor → Outcome (V r)}
variable {α : Type} {c c' : Cursor} {h : Hints}

/-- A token is expected where it stands. -/
theorem placed_takeToken (name : String) (size : List Char → Option Nat) (c : Cursor) :
    (takeToken name size c).Placed c := by
  rcases takeToken_cases name size c with h | ⟨_, _, h⟩
  · rw [h]
    exact .failure (.expected c name) (List.cons_ne_nil _ _)
  · rw [h]
    exact .success .empty

/-- A sequence is placed if all its steps are. -/
theorem placed_runAll {n : Nat} {steps : Fin n → Cursor → Outcome α}
    (hreaches : ∀ k {c c' a h}, steps k c = .success c' a h → c.Reaches c')
    (hsteps : ∀ k c, (steps k c).Placed c) (hc : c.Reaches c') (hh : h.Placed c)
    (values : List α) : (runAll steps c' h values).Placed c := by
  induction n generalizing c' h values with
  | zero => exact .success hh
  | succ n ih =>
      rw [runAll]
      have hstep := (hsteps 0 c').of_reaches hc
      cases hrun : steps 0 c' with
      | success m a _ =>
          rw [hrun] at hstep
          exact ih (fun k ↦ hreaches k.succ) (fun k ↦ hsteps k.succ) (hc.trans (hreaches 0 hrun))
            (hh.join hstep.hints) _
      | failure _ =>
          rw [hrun] at hstep
          exact hstep.failed.after hh
      | overrun => exact .overrun

/-- A repetition is placed if all its passes are. -/
theorem placed_runMany {step : Cursor → Outcome α}
    (hreaches : ∀ {c c' a h}, step c = .success c' a h → c.Reaches c')
    (hstep : ∀ c, (step c).Placed c) (bound : List Char) (hc : c.Reaches c') (hh : h.Placed c)
    (values : List α) : (runMany step bound c' h values).Placed c := by
  have hjoin {c' : Cursor} {o : Outcome α} {h : Hints} (hc : c.Reaches c') (hh : h.Placed c)
      (hrun : step c' = o) : (h.join o.hints).Placed c :=
    hh.join (hrun ▸ ((hstep c').of_reaches hc).hints)
  fun_induction runMany step bound c' h values with
  | case1 => exact .overrun
  | case2 _ _ _ _ _ _ hrun _ _ _ ih => exact ih (hc.trans (hreaches hrun)) (hjoin hc hh hrun)
  | case3 _ _ _ _ _ _ _ hrun _ => exact .success (hjoin hc hh hrun)
  | case4 _ _ _ _ _ hrun => exact .success (hjoin hc hh hrun)
  | case5 => exact .overrun

/-- The hints of a run are placed, if those of the rules are. -/
theorem placed_run (hforward : Forward call) (hcall : ∀ r c, (call r c).Placed c)
    (p : Parser V α) (c : Cursor) : (p.run call c).Placed c := by
  have hnext {α β : Type} {p : Parser V α} {next : Cursor → α → Outcome β} {c : Cursor}
      (hp : (p.run call c).Placed c) (hnext : ∀ m a, (next m a).Placed m) :
      ((p.run call c).andThen next).Placed c := by
    refine hp.andThen fun m a h hrun ↦ (hnext m a).of_reaches ?_
    exact Reads.reaches hforward ⟨h, hrun⟩
  induction p generalizing c with
  | pure => exact .success .empty
  | token name size => exact placed_takeToken name size c
  | eof =>
      rw [run_eof]
      split
      · exact .success .empty
      · exact .failure (.expected c _) (List.cons_ne_nil _ _)
  | rule r => exact hcall r c
  | map f p ih => exact (ih c).map f
  | bind p f ih ihf => exact hnext (ih c) fun m a ↦ ihf a m
  | both p q ih ihq => exact hnext (ih c) fun m a ↦ (ihq m).map _
  | either p q ih ihq =>
      rw [run_either]
      have hp := ih c
      have hq := ihq c
      generalize p.run call c = o at hp
      generalize q.run call c = o' at hq
      cases o with
      | success => exact hp
      | failure h =>
          cases o' with
          | success => exact .success (hp.hints.join hq.hints)
          | failure h' =>
              exact .failure (hp.hints.deepest hq.hints)
                (Hints.offsets_deepest_ne_nil (hp.ne_nil rfl) (hq.ne_nil rfl))
          | overrun => exact .overrun
      | overrun => exact .overrun
  | filterMap f p ih =>
      rw [run_filterMap]
      have hp := ih c
      generalize p.run call c = o at hp
      cases o with
      | success m a h =>
          dsimp only
          split
          · exact .success hp.hints
          · exact .failure (hp.hints.join (.mark c)) (by simp)
      | failure => exact hp.failed
      | overrun => exact .overrun
  | label name p ih =>
      rw [run_label]
      have hp := ih c
      generalize p.run call c = o at hp
      cases o with
      | success => exact hp
      | failure h =>
          have hh : h.Placed c := hp.hints
          obtain ⟨n, hn, hpasses⟩ := hh.exists_furthest (hp.ne_nil rfl)
          refine .failure (.leaf (some name) ?_) (List.cons_ne_nil _ _)
          rwa [hn]
      | overrun => exact .overrun
  | spanned p ih =>
      rw [run_spanned]
      have hp := ih c
      generalize p.run call c = o at hp
      cases o with
      | success => exact .success hp.hints
      | failure => exact hp.failed
      | overrun => exact .overrun
  | sequence ps ih =>
      exact placed_runAll (fun k _ _ _ h hk ↦ Reads.reaches hforward ⟨h, hk⟩) ih (.refl c) .empty []
  | many p ih =>
      exact placed_runMany (fun {_ _ _ h} hk ↦ Reads.reaches hforward ⟨h, hk⟩) ih _ (.refl c)
        .empty []
  | optional p ih =>
      rw [run_optional]
      have hp := ih c
      generalize p.run call c = o at hp
      cases o with
      | success | failure => exact .success hp.hints
      | overrun => exact .overrun
  | not p ih =>
      rw [run_not]
      cases p.run call c with
      | success _ _ _ => exact .failure (.mark c) (List.cons_ne_nil _ _)
      | failure h => exact .success .empty
      | overrun => exact .overrun

end Parser

namespace Grammar

variable {ρ : Type} {V : ρ → Type}

/-- The rules of a grammar are placed, at any depth of calls. -/
theorem placed_call (g : Grammar V) (depth : Nat) (r : ρ) (c : Cursor) :
    (g.call depth r c).Placed c := by
  induction depth generalizing r c with
  | zero => exact .overrun
  | succ depth ih => exact Parser.placed_run (g.forward_call depth) ih (g r) c

/-- Every run over a grammar is placed. -/
theorem placed_runAt (g : Grammar V) (depth : Nat) {α : Type} (p : Parser V α) (c : Cursor) :
    (g.runAt depth p c).Placed c :=
  p.placed_run (g.forward_call depth) (g.placed_call depth) c

/-- The error of a whole text is made of the hints of the run, or of these with one where a rest
begins.  It stands at the furthest of them. -/
theorem exists_hints_of_parse {g : Grammar V} {depth : Nat} {α : Type} {p : Parser V α}
    {cs : List Char} {e : ParseError} (he : g.parse depth p cs = .error (.unexpected e)) :
    ∃ h : Hints, e = .ofHints h ∧ h.furthest? = some e.offset ∧ h.Placed (.ofText cs 0) ∧
      (g.runAt depth p (.ofText cs 0) = .failure h ∨
        ∃ c a h', g.runAt depth p (.ofText cs 0) = .success c a h' ∧ c.rest ≠ .chars [] ∧
          h = h'.join (.expected c.offset endOfInput)) := by
  have hrun := g.placed_runAt depth p (.ofText cs 0)
  rw [parse] at he
  split at he
  · cases he
  · rename_i c a h' hrest heq
    cases he
    have hplace : (Cursor.ofText cs 0).Reaches c :=
      Parser.Reads.reaches (g.forward_call depth) ⟨h', heq⟩
    rw [heq] at hrun
    have hh : (h'.join (.expected c.offset endOfInput)).Placed (.ofText cs 0) :=
      hrun.hints.join (.leaf (some endOfInput) (hplace.passes c.passes_offset))
    refine ⟨_, rfl, hh.furthest?_eq_offset (by simp), hh, .inr ⟨c, a, h', heq, ?_, rfl⟩⟩
    exact fun hnil ↦ hrest c.offset (congrArg (Cursor.mk c.offset) hnil)
  · rename_i h heq
    cases he
    rw [heq] at hrun
    have hh : h.Placed (.ofText cs 0) := hrun.hints
    exact ⟨h, rfl, hh.furthest?_eq_offset (hrun.ne_nil rfl), hh, .inl heq⟩
  · cases he

end Grammar

end Parsing

end ZPlane
