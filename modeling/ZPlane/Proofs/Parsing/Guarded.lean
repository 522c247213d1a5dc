import Mathlib
import ZPlane.Proofs.Parsing.Events

/-!
# Guarded rules

A parser progresses if it takes something whenever it matches.  It is guarded if its runs call
rules only behind something that they have taken, and if its repetitions match nothing that takes
nothing.  The combinators keep both, as long as what is repeated progresses.

Where all rules are guarded, a call inside another one is further on.  So no more calls are nested
than there are characters ahead, and one (`Guarded.le_of_nests`), and with so many allowed every run
ends, as it does with more (`Guarded.settles_runAt`).
-/

namespace ZPlane

namespace Parsing

/-- A call is `n` bytes into the text at least, and what a repetition matches is not empty. -/
def Event.From {ρ : Type} (n : Nat) : Event ρ → Prop
  | called _ d => n ≤ d.offset
  | matched start stop => start.offset < stop.offset

/-- An event that is so far on is less far on too. -/
theorem Event.From.mono {ρ : Type} {m n : Nat} {e : Event ρ} (h : e.From n) (hmn : m ≤ n) :
    e.From m := by
  cases e with
  | called => exact hmn.trans h
  | matched => exact h

namespace Cursor

variable {c c' : Cursor}

/-- No more characters are left at a place that is reached. -/
theorem Reaches.length_ahead_le (h : c.Reaches c') : c'.ahead.length ≤ c.ahead.length := by
  rcases h with rfl | ⟨w, cs, hc, rfl⟩
  · exact le_rfl
  · simp [ahead, chars?, hc]

/-- At no offset of a text more characters are left than it has. -/
theorem length_ahead_ofText_le (cs : List Char) (o : Nat) :
    (ofText cs o).ahead.length ≤ cs.length := by
  change ((⟨o, .after cs o⟩ : Cursor).chars?.getD []).length ≤ cs.length
  fun_induction Remainder.after cs o with
  | case1 => exact le_rfl
  | case2 => exact le_rfl
  | case3 c cs n _ ih => exact ih.trans (Nat.le_succ _)
  | case4 => exact Nat.zero_le _

end Cursor

namespace Parser

variable {ρ : Type} {V : ρ → Type} {call : (r : ρ) → Cursor → Outcome (V r)}
variable {α β Op : Type} {n : Nat}

/-- Whatever the parser matches takes something. -/
def Progresses (call : (r : ρ) → Cursor → Outcome (V r)) (p : Parser V α) : Prop :=
  ∀ ⦃c c' : Cursor⦄ ⦃a : α⦄, Reads call p c c' a → c.offset < c'.offset

/-- Runs of the parser call rules `n` bytes behind their start at least, and do not repeat what
takes nothing. -/
def Guarded (call : (r : ρ) → Cursor → Outcome (V r)) (n : Nat) (p : Parser V α) : Prop :=
  ∀ ⦃c : Cursor⦄ ⦃e : Event ρ⦄, p.Does call c e → e.From (c.offset + n)

/-! ### Progress -/

namespace Progresses

variable {p : Parser V α} {q : Parser V β}

/-- A token moves on if the empty text is not of its language. -/
theorem token {name : String} {size : List Char → Option Nat} {L : List Char → Prop}
    (hm : Measures size L) (hne : ¬ L []) :
    Progresses call (token name size : Parser V String) := by
  intro c c' s h
  obtain ⟨cs, k, -, hsize, rfl, -⟩ := reads_token.mp h
  obtain ⟨t, r, ht, rfl⟩ := (hm cs k).mp hsize
  have hpos : 0 < t.length := by
    refine List.length_pos_of_ne_nil ?_
    rintro rfl
    exact hne ht.mem
  have hlen := Text.length_le_byteLength t
  rw [ht.append, List.take_left]
  exact Nat.lt_add_of_pos_right (lt_of_lt_of_le hpos hlen)

theorem map {f : α → β} (hp : Progresses call p) : Progresses call (p.map f) := by
  intro c c' b h
  obtain ⟨a, ha, -⟩ := reads_map.mp h
  exact hp ha

theorem filterMap {f : α → Option β} (hp : Progresses call p) :
    Progresses call (p.filterMap f) := by
  intro c c' b h
  obtain ⟨a, ha, -⟩ := reads_filterMap.mp h
  exact hp ha

theorem label {name : String} (hp : Progresses call p) : Progresses call (p.label name) :=
  fun _ _ _ h ↦ hp (reads_label.mp h)

theorem either {p q : Parser V α} (hp : Progresses call p) (hq : Progresses call q) :
    Progresses call (p.either q) := by
  intro c c' a h
  rcases reads_either.mp h with h | ⟨-, h⟩
  · exact hp h
  · exact hq h

variable (hcall : Forward call)
include hcall

theorem both (hp : Progresses call p) : Progresses call (p.both q) := by
  intro c c' x h
  obtain ⟨m, ha, hb⟩ := reads_both.mp h
  exact lt_of_lt_of_le (hp ha) (hb.reaches hcall).offset_le

theorem first (hp : Progresses call p) : Progresses call (p.first q) := (hp.both hcall).map

theorem second (hp : Progresses call p) : Progresses call (p.second q) := (hp.both hcall).map

theorem lexeme (hp : Progresses call p) : Progresses call p.lexeme := hp.first hcall

theorem symbol {s : String} (hs : s.toList ≠ []) :
    Progresses call (symbol s : Parser V String) :=
  (token (measures_literal s.toList) hs.symm).lexeme hcall

end Progresses

/-! ### Guards -/

namespace Guarded

variable {p : Parser V α} {q : Parser V β}

/-- A rule is called where it stands. -/
theorem rule (r : ρ) : Guarded call 0 (rule r : Parser V (V r)) := by
  rintro c _ rfl
  exact le_rfl

theorem token {name : String} {size : List Char → Option Nat} :
    Guarded call n (token name size : Parser V String) := fun _ _ h ↦ h.elim

theorem map {f : α → β} (hp : Guarded call n p) : Guarded call n (p.map f) := fun _ _ h ↦ hp h

theorem filterMap {f : α → Option β} (hp : Guarded call n p) : Guarded call n (p.filterMap f) :=
  fun _ _ h ↦ hp h

theorem label {name : String} (hp : Guarded call n p) : Guarded call n (p.label name) :=
  fun _ _ h ↦ hp h

theorem either {p q : Parser V α} (hp : Guarded call n p) (hq : Guarded call n q) :
    Guarded call n (p.either q) := by
  intro c e h
  rcases h with h | ⟨-, h⟩
  · exact hp h
  · exact hq h

variable (hcall : Forward call)
include hcall

/-- Two parsers in a row are guarded if both are, since the second one is no further back. -/
theorem both (hp : Guarded call n p) (hq : Guarded call n q) : Guarded call n (p.both q) := by
  intro c e h
  rcases h with h | ⟨m, a, hread, h⟩
  · exact hp h
  · exact (hq h).mono (Nat.add_le_add_right (hread.reaches hcall).offset_le n)

omit hcall in
/-- Behind a parser that progresses, rules may be called at once. -/
theorem both_of_progresses (hp : Guarded call 1 p) (hprogress : Progresses call p)
    (hq : Guarded call 0 q) : Guarded call 1 (p.both q) := by
  intro c e h
  rcases h with h | ⟨m, a, hread, h⟩
  · exact hp h
  · exact (hq h).mono (hprogress hread)

theorem first (hp : Guarded call n p) (hq : Guarded call n q) : Guarded call n (p.first q) :=
  (hp.both hcall hq).map

theorem lexeme (hp : Guarded call n p) : Guarded call n p.lexeme := hp.first hcall token.map

theorem symbol {s : String} : Guarded call n (symbol s : Parser V String) := token.lexeme hcall

/-- A repetition goes on only further on, and each of its passes is guarded. -/
theorem many (hp : Guarded call n p) (hprogress : Progresses call p) :
    Guarded call n p.many := by
  rintro c e ⟨m, hm, h | ⟨m', a, hread, rfl⟩⟩
  · exact (hp h).mono (Nat.add_le_add_right (hm.reaches hcall).offset_le n)
  · exact hprogress hread

section Operators

variable {operand : Parser V α} {op : Parser V Op} (hoperand : Guarded call n operand)
  (hop : Guarded call n op) (hprogress : Progresses call op)
include hoperand hop hprogress

/-- Operators in front are guarded as their operand is. -/
theorem prefixed {apply : Op → α → α} : Guarded call n (operand.prefixed op apply) :=
  ((hop.many hcall hprogress).both hcall hoperand).map

/-- Operators behind are guarded as their operand is. -/
theorem postfixed {apply : α → Op → α} : Guarded call n (operand.postfixed op apply) :=
  (hoperand.both hcall (hop.many hcall hprogress)).map

/-- A chain is guarded as its operand is. -/
theorem chainLeft {apply : Op → α → α → α} : Guarded call n (operand.chainLeft op apply) :=
  (hoperand.both hcall
    ((hop.both hcall hoperand).many hcall (hprogress.both hcall))).map

end Operators

end Guarded

end Parser

namespace Grammar

variable {ρ : Type} {V : ρ → Type}

/-- Every rule calls rules only behind something that it has taken. -/
def Guarded (g : Grammar V) : Prop := ∀ depth r, Parser.Guarded (g.call depth) 1 (g r)

/-- The rule, called at the place with calls allowed up to the given depth, is the outermost of `n`
calls inside one another. -/
inductive Nests (g : Grammar V) : (depth : Nat) → (r : ρ) → Cursor → (n : Nat) → Prop
  | one {depth : Nat} {r : ρ} {c : Cursor} : Nests g (depth + 1) r c 1
  | inside {depth n : Nat} {r r' : ρ} {c d : Cursor} :
      (g r).Does (g.call depth) c (.called r' d) → Nests g depth r' d n →
      Nests g (depth + 1) r c (n + 1)

namespace Guarded

variable {g : Grammar V} {α : Type} {r r' : ρ} {c d : Cursor} {depth depth' n : Nat}

/-- A rule that is called by a rule has fewer characters left. -/
theorem length_ahead_lt (hg : g.Guarded) (h : (g r).Does (g.call depth) c (.called r' d)) :
    d.ahead.length < c.ahead.length :=
  (h.reaches (g.forward_call depth)).length_ahead_lt (hg depth r h)

/-- At most one call for each character ahead is inside the outermost one. -/
theorem le_of_nests (hg : g.Guarded) (h : g.Nests depth r c n) : n ≤ c.ahead.length + 1 := by
  induction h with
  | one => exact Nat.le_add_left _ _
  | inside hd _ ih =>
      have := hg.length_ahead_lt hd
      omega

/-- With more depth than there are characters left a rule comes to its end, and deeper calls change
nothing. -/
theorem settles_call (hg : g.Guarded) (h : c.ahead.length < depth) (h' : c.ahead.length < depth') :
    (g.call depth r c).Settles (g.call depth' r c) := by
  induction depth generalizing depth' r c with
  | zero => exact absurd h (Nat.not_lt_zero _)
  | succ depth ih =>
      cases depth' with
      | zero => exact absurd h' (Nat.not_lt_zero _)
      | succ depth' =>
          refine Parser.settles_run (g.forward_call depth) fun r' d hd ↦ ?_
          have hlt := hg.length_ahead_lt hd
          exact ih (by omega) (by omega)

/-- With one call allowed for each character ahead, and one more, a run ends, and in the same way
with any number of calls that is not less. -/
theorem settles_runAt (hg : g.Guarded) (p : Parser V α) (h : c.ahead.length < depth)
    (h' : c.ahead.length < depth') : (g.runAt depth p c).Settles (g.runAt depth' p c) := by
  refine Parser.settles_run (g.forward_call depth) fun r d hd ↦ ?_
  have hle := (hd.reaches (g.forward_call depth)).length_ahead_le
  exact hg.settles_call (lt_of_le_of_lt hle h) (lt_of_le_of_lt hle h')

end Guarded

end Grammar

end Parsing

end ZPlane
