import Mathlib
import ZPlane.Proofs.Parsing.Guarded
import ZPlane.Proofs.Parsing.Rejections
import ZPlane.Proofs.Parsing.Sequencing

/-!
# Repetition is a recursion

The loop of a repetition carries along how far it has come, its values and the hints of its
attempts, and it stops at a failure or where nothing is taken.  `Attempts` says what such a loop
does without a bound for its passes: the places at which it runs its parser, and what it replies.
Each attempt but the last one takes a character at least, so there are not many of them
(`exists_attempts`), and the loop gathers just what they give, whatever bound it has that is no less
than the characters ahead (`Attempts.reply_runMany`).

So a repetition is a recursion without anything that is carried along (`meaning_many`), it does not
fail, and it ends where the last of its values does (`Attempts.reply_cases`).
-/

namespace ZPlane

namespace Parsing

open Text (byteLength)

/-- An offset and what is left behind it make up the text. -/
theorem Remainder.byteLength_after {cs r : List Char} {o : Nat} (h : after cs o = .chars r) :
    o + byteLength r = byteLength cs := by
  fun_induction after cs o with
  | case1 cs =>
      cases h
      exact Nat.zero_add _
  | case2 => cases h
  | case3 c cs n hle ih =>
      rw [Text.byteLength_cons, ← ih h]
      omega
  | case4 => cases h

/-- No more characters are left than there are bytes behind the offset. -/
theorem Cursor.length_ahead_ofText_le_sub (cs : List Char) (o : Nat) :
    (ofText cs o).ahead.length ≤ byteLength cs - o := by
  have hahead : (ofText cs o).ahead = ((⟨o, .after cs o⟩ : Cursor).chars?).getD [] := rfl
  rw [hahead, chars?]
  cases hafter : Remainder.after cs o with
  | chars r =>
      have hlength := Text.length_le_byteLength r
      have hbytes := Remainder.byteLength_after hafter
      exact hlength.trans (Nat.le_sub_of_add_le' hbytes.le)
  | inside | beyond => exact Nat.zero_le _

/-- All hints of the reply; none if the run did not end. -/
def Reply.hints {α : Type} : Reply α → List Hint
  | success _ _ hs => hs
  | failure hs => hs
  | overrun => []

namespace Parser

variable {ρ : Type} {V : ρ → Type} {call : (r : ρ) → Cursor → Outcome (V r)} {α : Type}
variable {p : Parser V α} {c m : Cursor}

/-! ### The loop -/

/-- The attempts of an unbounded repetition, and what it replies.  An attempt that comes further on
is followed by the others, and its value and its hints come before theirs; the first one that does
not is the last, and only its hints are kept. -/
inductive Attempts (call : (r : ρ) → Cursor → Outcome (V r)) (p : Parser V α) :
    Cursor → List Cursor → Reply (List α) → Prop
  | fails {c : Cursor} {hs : List Hint} : p.meaning call c = .failure hs →
      Attempts call p c [c] (.success c [] hs)
  | stalls {c m : Cursor} {a : α} {hs : List Hint} : p.meaning call c = .success m a hs →
      m.offset ≤ c.offset → Attempts call p c [c] (.success c [] hs)
  | overruns {c : Cursor} : p.meaning call c = .overrun → Attempts call p c [c] .overrun
  | advances {c m : Cursor} {a : α} {hs : List Hint} {calls : List Cursor}
      {reply : Reply (List α)} : p.meaning call c = .success m a hs → c.offset < m.offset →
      Attempts call p m calls reply →
      Attempts call p c (c :: calls) ((reply.map (a :: ·)).after hs)

/-- A match that is further on has fewer characters left. -/
theorem length_ahead_lt (hcall : Forward call) {a : α} {hs : List Hint}
    (hp : p.meaning call c = .success m a hs) (hlt : c.offset < m.offset) :
    m.ahead.length < c.ahead.length := by
  obtain ⟨h, hrun, -⟩ := Outcome.reply_eq_success.mp hp
  have hreaches : c.Reaches m := Reads.reaches hcall ⟨h, hrun⟩
  exact hreaches.length_ahead_lt hlt

/-- A repetition comes to an end: each attempt but the last one takes a character. -/
theorem exists_attempts (hcall : Forward call) (p : Parser V α) (c : Cursor) :
    ∃ calls reply, Attempts call p c calls reply ∧ calls.length ≤ c.ahead.length + 1 := by
  induction hn : c.ahead.length using Nat.strong_induction_on generalizing c with
  | _ n ih =>
      have hone : ([c] : List Cursor).length ≤ n + 1 := Nat.le_add_left 1 n
      cases hp : p.meaning call c with
      | success m a hs =>
          by_cases hlt : c.offset < m.offset
          · have hshort := length_ahead_lt hcall hp hlt
            rw [hn] at hshort
            obtain ⟨calls, reply, hrest, hlength⟩ := ih _ hshort m rfl
            refine ⟨c :: calls, _, .advances hp hlt hrest, ?_⟩
            exact Nat.succ_le_succ (hlength.trans hshort)
          · exact ⟨[c], _, .stalls hp (not_lt.mp hlt), hone⟩
      | failure hs => exact ⟨[c], _, .fails hp, hone⟩
      | overrun => exact ⟨[c], _, .overruns hp, hone⟩

/-- What the loop has gathered goes in front of what its other attempts give. -/
theorem Attempts.reply_runMany (hcall : Forward call) {calls : List Cursor}
    {reply : Reply (List α)} (h : Attempts call p c calls reply) {bound : List Char}
    (hb : c.ahead.length ≤ bound.length) (hints : Hints) (values : List α) :
    (runMany (p.run call) bound c hints values).reply =
      reply.gathered hints.toList values := by
  have hstop (c : Cursor) (hints h : Hints) (values : List α) :
      (Outcome.success c values.reverse (hints.join h)).reply =
        (Reply.success c [] h.toList).gathered hints.toList values := by
    rw [Reply.gathered_success, List.append_nil, ← Hints.toList_join, Outcome.reply]
  induction h generalizing bound hints values with
  | fails hp =>
      obtain ⟨h, hrun, rfl⟩ := Outcome.reply_eq_failure.mp hp
      rw [runMany_eq, hrun]
      exact hstop _ hints h values
  | stalls hp hle =>
      obtain ⟨h, hrun, rfl⟩ := Outcome.reply_eq_success.mp hp
      rw [runMany_eq, hrun]
      simp only [if_neg hle.not_gt]
      exact hstop _ hints h values
  | overruns hp =>
      rw [runMany_eq, Outcome.reply_eq_overrun.mp hp]
      rfl
  | @advances c m a hs calls reply hp hlt hrest ih =>
      have hshort := length_ahead_lt hcall hp hlt
      obtain ⟨h, hrun, rfl⟩ := Outcome.reply_eq_success.mp hp
      rw [runMany_eq, hrun]
      cases bound with
      | nil => exact absurd (hshort.trans_le hb) (Nat.not_lt_zero _)
      | cons b bound =>
          have hbound : m.ahead.length ≤ bound.length := Nat.le_of_lt_succ (hshort.trans_le hb)
          simp only [if_pos hlt]
          rw [ih hbound, Hints.toList_join, Reply.gathered_cons]

/-- The attempts of a repetition determine its meaning. -/
theorem Attempts.meaning_many (hcall : Forward call) {calls : List Cursor}
    {reply : Reply (List α)} (h : Attempts call p c calls reply) :
    (many p).meaning call c = reply :=
  (h.reply_runMany hcall le_rfl .empty []).trans reply.gathered_nil

/-- The loop is a recursion. -/
theorem meaning_many (hcall : Forward call) (p : Parser V α) (c : Cursor) :
    (many p).meaning call c =
      match p.meaning call c with
      | .success m a hs =>
        if c.offset < m.offset then (((many p).meaning call m).map (a :: ·)).after hs
        else .success c [] hs
      | .failure hs => .success c [] hs
      | .overrun => .overrun := by
  cases hp : p.meaning call c with
  | success m a hs =>
      dsimp only
      split
      · rename_i hlt
        obtain ⟨calls, reply, hrest, -⟩ := exists_attempts hcall p m
        rw [hrest.meaning_many hcall]
        exact (Attempts.advances hp hlt hrest).meaning_many hcall
      · exact (Attempts.stalls hp (not_lt.mp ‹_›)).meaning_many hcall
  | failure hs => exact (Attempts.fails hp).meaning_many hcall
  | overrun => exact (Attempts.overruns hp).meaning_many hcall

/-! ### What is collected -/

/-- All attempts of a repetition have come to an end.  Each but the last one gave a value, and the
repetition stops where the last of these was read to, or where it began. -/
structure Collects (call : (r : ρ) → Cursor → Outcome (V r)) (p : Parser V α) (c : Cursor)
    (calls : List Cursor) (m : Cursor) (as : List α) : Prop where
  ends : ∀ d ∈ calls, p.meaning call d ≠ .overrun
  length : calls.length = as.length + 1
  stop : as = [] ∧ m = c ∨ ∃ init a d hs, as = init ++ [a] ∧ d ∈ calls ∧
    p.meaning call d = .success m a hs ∧ d.offset < m.offset

/-- The one attempt that comes to an end is the last one. -/
theorem collects_singleton (hc : p.meaning call c ≠ .overrun) : Collects call p c [c] c [] where
  ends _ hd := List.mem_singleton.mp hd ▸ hc
  length := rfl
  stop := .inl ⟨rfl, rfl⟩

/-- A match that is further on is collected before the others. -/
theorem Collects.cons {calls : List Cursor} {d : Cursor} {a : α} {as : List α} {hs : List Hint}
    (hp : p.meaning call c = .success m a hs) (hlt : c.offset < m.offset)
    (h : Collects call p m calls d as) : Collects call p c (c :: calls) d (a :: as) where
  ends _ he := by
    rcases List.mem_cons.mp he with rfl | he
    · rw [hp]
      exact nofun
    · exact h.ends _ he
  length := congrArg (· + 1) h.length
  stop := by
    right
    rcases h.stop with ⟨rfl, rfl⟩ | ⟨init, b, e, hs', rfl, he, hread, hlt'⟩
    · exact ⟨[], a, c, hs, rfl, List.mem_cons_self, hp, hlt⟩
    · exact ⟨a :: init, b, e, hs', rfl, List.mem_cons_of_mem c he, hread, hlt'⟩

/-- A repetition succeeds with the hints of all of its attempts, if they come to an end. -/
theorem Attempts.reply_cases {calls : List Cursor} {reply : Reply (List α)}
    (h : Attempts call p c calls reply) :
    (reply = .overrun ∧ ∃ d ∈ calls, p.meaning call d = .overrun) ∨
      ∃ m as, reply = .success m as (calls.flatMap fun d ↦ (p.meaning call d).hints) ∧
        Collects call p c calls m as := by
  induction h with
  | @fails c hs hp =>
      refine .inr ⟨c, [], ?_, collects_singleton (by rw [hp]; exact nofun)⟩
      rw [List.flatMap_singleton, hp, Reply.hints]
  | @stalls c m a hs hp hle =>
      refine .inr ⟨c, [], ?_, collects_singleton (by rw [hp]; exact nofun)⟩
      rw [List.flatMap_singleton, hp, Reply.hints]
  | @overruns c hp => exact .inl ⟨rfl, c, List.mem_singleton_self c, hp⟩
  | @advances c m a hs calls reply hp hlt _ ih =>
      rcases ih with ⟨rfl, d, hd, hover⟩ | ⟨_, as, rfl, hcollects⟩
      · exact .inl ⟨rfl, d, List.mem_cons_of_mem c hd, hover⟩
      · refine .inr ⟨_, a :: as, ?_, hcollects.cons hp hlt⟩
        rw [List.flatMap_cons, hp, Reply.hints]
        rfl

/-- A run does not end only if a rule that it calls does not. -/
theorem meaning_ne_overrun (hcall : Forward call) (q : Parser V α)
    (hends : ∀ r d, q.Does call c (.called r d) → call r d ≠ .overrun) :
    q.meaning call c ≠ .overrun := by
  have hsettles : CallsSettle call call q c := fun r d hd ↦ .refl (hends r d hd)
  intro hover
  exact (settles_run hcall hsettles).ne_overrun (Outcome.reply_eq_overrun.mp hover)

/-- From every place a repetition is what its parser reads there and then the repetition again, if
this comes further on, and else nothing, with the hints of the attempt.  From any offset of a text
it makes no more attempts than there are bytes ahead, and one, and it never fails: it succeeds with
what it has collected, unless an attempt calls a rule that does not come to an end. -/
theorem many_eq_recursion (g : Grammar V) (depth : Nat) (p : Parser V α) :
    (∀ c, (many p).meaning (g.call depth) c =
      match p.meaning (g.call depth) c with
      | .success m a hs =>
        if c.offset < m.offset then (((many p).meaning (g.call depth) m).map (a :: ·)).after hs
        else .success c [] hs
      | .failure hs => .success c [] hs
      | .overrun => .overrun) ∧
    (∀ (cs : List Char) (o : Nat), ∃ calls reply,
      Attempts (g.call depth) p (.ofText cs o) calls reply ∧
      calls.length ≤ byteLength cs - o + 1 ∧
      (many p).meaning (g.call depth) (.ofText cs o) = reply ∧
      ((reply = .overrun ∧ ∃ d ∈ calls, p.meaning (g.call depth) d = .overrun) ∨
        ∃ m as,
          reply = .success m as (calls.flatMap fun d ↦ (p.meaning (g.call depth) d).hints) ∧
          Collects (g.call depth) p (.ofText cs o) calls m as)) ∧
    ∀ c, (∀ r d, (many p).Does (g.call depth) c (.called r d) → g.call depth r d ≠ .overrun) →
      ∃ m as hs, (many p).meaning (g.call depth) c = .success m as hs := by
  have hcall := g.forward_call depth
  refine ⟨fun c ↦ meaning_many hcall p c, ?_, ?_⟩
  · intro cs o
    obtain ⟨calls, reply, hcalls, hlength⟩ := exists_attempts hcall p (.ofText cs o)
    have hahead := Cursor.length_ahead_ofText_le_sub cs o
    refine ⟨calls, reply, hcalls, ?_, hcalls.meaning_many hcall, hcalls.reply_cases⟩
    exact hlength.trans (Nat.succ_le_succ hahead)
  · intro c hends
    obtain ⟨calls, reply, hcalls, -⟩ := exists_attempts hcall p c
    have hmany := hcalls.meaning_many hcall
    have hover := meaning_ne_overrun hcall (many p) hends
    rcases hcalls.reply_cases with ⟨rfl, -⟩ | ⟨m, as, rfl, -⟩
    · exact absurd hmany hover
    · exact ⟨m, as, _, hmany⟩

theorem guarded_brackets : Grammar.brackets.Guarded := by
  intro depth r
  have hcall := Grammar.brackets.forward_call depth
  have hopening : Progresses (Grammar.brackets.call depth) (literal "(") :=
    .token (measures_literal _) (List.cons_ne_nil _ _).symm
  refine .either (.first hcall (.map ?inner) .token) fun _ _ h ↦ h.elim
  case inner => exact .both_of_progresses .token hopening (.rule ())

/-- Of the two matches in `()(` the second one takes nothing, because its bracket is not closed.  It
is not kept, but what it was missing is. -/
theorem many_eq_recursion_brackets :
    let call := Grammar.brackets.call 4
    let p : Parser (fun _ : Unit ↦ Unit) Unit := .rule ()
    let c : Cursor := .ofText "()(".toList 0
    (∀ r d, (many p).Does call c (.called r d) → call r d ≠ .overrun) ∧
      (∃ m as hs, (many p).meaning call c = .success m as hs) ∧
      (many p).meaning call c = .success ⟨2, .chars ['(']⟩ [()]
        [(1, some "\"(\""), (3, some "\"(\""), (3, some "\")\"")] := by
  intro call p c
  have hcall := Grammar.brackets.forward_call 4
  have hends : ∀ r d, (many p).Does call c (.called r d) → call r d ≠ .overrun := by
    intro r d hd
    have hahead : d.ahead.length < 4 := Nat.lt_succ_of_le (hd.reaches hcall).length_ahead_le
    exact (guarded_brackets.settles_call hahead hahead).ne_overrun
  exact ⟨hends, (many_eq_recursion Grammar.brackets 4 p).2.2 c hends, by decide +kernel⟩

end Parser

end Parsing

end ZPlane
