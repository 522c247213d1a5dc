import Mathlib
import ZPlane.Proofs.Parsing.Reads

/-!
# Runs move forward

A run that succeeds ends at the place where it began, or after some whole characters that follow it
(`Reads.reaches`).  Each repetition that counts therefore takes a character, so the characters ahead
are bound enough for `many`, and a repetition reads what its parser reads in a row (`reads_many`).
The operator parsers fold what is repeated onto their operands (`Folds`).
-/

namespace ZPlane

namespace Text

@[simp] theorem byteLength_nil : byteLength [] = 0 := rfl

@[simp] theorem byteLength_cons (c : Char) (cs : List Char) :
    byteLength (c :: cs) = c.utf8Size + byteLength cs := rfl

@[simp] theorem byteLength_append (cs ds : List Char) :
    byteLength (cs ++ ds) = byteLength cs + byteLength ds := by
  induction cs with
  | nil => simp
  | cons c cs ih => simp [ih, Nat.add_assoc]

/-- A character takes a byte at least. -/
theorem length_le_byteLength (cs : List Char) : cs.length ≤ byteLength cs := by
  induction cs with
  | nil => exact Nat.le_refl 0
  | cons c cs ih =>
      have := c.utf8Size_pos
      rw [List.length_cons, byteLength_cons]
      omega

end Text

namespace Parsing

/-- The second place comes after the first, with whole characters between them. -/
def Cursor.Reaches (c c' : Cursor) : Prop :=
  c = c' ∨ ∃ w cs, c.rest = .chars (w ++ cs) ∧ c' = ⟨c.offset + Text.byteLength w, .chars cs⟩

namespace Cursor

variable {c c' c'' : Cursor}

/-- At the beginning all of the text is left. -/
theorem rest_ofText_zero (cs : List Char) : (ofText cs 0).rest = .chars cs := by
  cases cs <;> rfl

/-- Every place reaches itself. -/
theorem Reaches.refl (c : Cursor) : c.Reaches c := .inl rfl

/-- From a place in a text exactly the places behind some of the remaining characters are
reached. -/
theorem reaches_iff {cs : List Char} (hc : c.rest = .chars cs) :
    c.Reaches c' ↔ ∃ w rest, cs = w ++ rest ∧ c' = ⟨c.offset + Text.byteLength w, .chars rest⟩ := by
  constructor
  · rintro (rfl | ⟨w, rest, hr, hc'⟩)
    · refine ⟨[], cs, rfl, ?_⟩
      obtain ⟨o, r⟩ := c
      obtain rfl : r = .chars cs := hc
      rfl
    · rw [hc, Remainder.chars.injEq] at hr
      exact ⟨w, rest, hr, hc'⟩
  · rintro ⟨w, rest, rfl, hc'⟩
    exact .inr ⟨w, rest, hc, hc'⟩

/-- Reaching goes on from what is reached. -/
theorem Reaches.trans (h : c.Reaches c') (h' : c'.Reaches c'') : c.Reaches c'' := by
  rcases h with rfl | ⟨w, cs, hc, rfl⟩
  · exact h'
  · obtain ⟨v, rest, rfl, rfl⟩ := (reaches_iff rfl).mp h'
    refine .inr ⟨w ++ v, rest, by rw [hc, List.append_assoc], ?_⟩
    rw [Text.byteLength_append, Nat.add_assoc]

/-- A place further on has fewer characters ahead. -/
theorem Reaches.length_ahead_lt (h : c.Reaches c') (hlt : c.offset < c'.offset) :
    c'.ahead.length < c.ahead.length := by
  rcases h with rfl | ⟨w, cs, hc, rfl⟩
  · exact absurd hlt (lt_irrefl _)
  · have hw : w ≠ [] := by
      rintro rfl
      exact absurd hlt (lt_irrefl _)
    have := List.length_pos_of_ne_nil hw
    simp [ahead, chars?, hc]
    omega

/-- A place that is reached is not further back. -/
theorem Reaches.offset_le (h : c.Reaches c') : c.offset ≤ c'.offset := by
  rcases h with rfl | ⟨w, cs, -, rfl⟩
  · exact le_rfl
  · exact Nat.le_add_right _ _

/-- A place with fewer characters left is further on. -/
theorem Reaches.offset_lt {cs r : List Char} (h : c.Reaches c') (hc : c.rest = .chars cs)
    (hc' : c'.rest = .chars r) (hlt : r.length < cs.length) : c.offset < c'.offset := by
  obtain ⟨w, rest, rfl, rfl⟩ := (reaches_iff hc).mp h
  obtain rfl := Remainder.chars.inj hc'
  have := Text.length_le_byteLength w
  rw [List.length_append] at hlt
  exact Nat.lt_add_of_pos_right (by omega)

end Cursor

namespace Parser

variable {ρ : Type} {V : ρ → Type} {call : (r : ρ) → Cursor → Outcome (V r)}
variable {α β : Type} {c c' : Cursor}

/-- The rules move forward. -/
def Forward (call : (r : ρ) → Cursor → Outcome (V r)) : Prop :=
  ∀ r c c' v, Reads call (rule r : Parser V (V r)) c c' v → c.Reaches c'

/-! ### Repetitions -/

/-- What `p` reads in a row, each time further on, until it fails or stands still. -/
inductive Repeats (call : (r : ρ) → Cursor → Outcome (V r)) (p : Parser V α) :
    Cursor → Cursor → List α → Prop
  | stop {c : Cursor} : Rejects call p c → Repeats call p c c []
  | idle {c c' : Cursor} {a : α} : Reads call p c c' a → c'.offset ≤ c.offset →
      Repeats call p c c []
  | more {c m c' : Cursor} {a : α} {as : List α} : Reads call p c m a → c.offset < m.offset →
      Repeats call p m c' as → Repeats call p c c' (a :: as)

section Repetition

variable {p : Parser V α}

/-- A repetition collects what its parser repeats, behind the values it began with. -/
theorem repeats_of_runMany {bound : List Char} {h h' : Hints} {values as : List α}
    (hrun : runMany (p.run call) bound c h values = .success c' as h') :
    ∃ bs, as = values.reverse ++ bs ∧ Repeats call p c c' bs := by
  fun_induction runMany (p.run call) bound c h values with
  | case1 => cases hrun
  | case2 _ _ _ _ a _ hp hlt _ _ ih =>
      obtain ⟨bs, rfl, hbs⟩ := ih hrun
      exact ⟨a :: bs, by simp, .more ⟨_, hp⟩ hlt hbs⟩
  | case3 _ _ _ _ _ _ _ hp hle =>
      cases hrun
      exact ⟨[], by simp, .idle ⟨_, hp⟩ (not_lt.mp hle)⟩
  | case4 _ _ _ _ _ hp =>
      cases hrun
      exact ⟨[], by simp, .stop ⟨_, hp⟩⟩
  | case5 => cases hrun

/-- If each pass of a repetition reaches the place behind it, so does the repetition. -/
theorem Repeats.reaches (hp : ∀ {c c' a}, Reads call p c c' a → c.Reaches c') {as : List α}
    (h : Repeats call p c c' as) : c.Reaches c' := by
  induction h with
  | stop _ => exact .refl _
  | idle _ _ => exact .refl _
  | more h _ _ ih => exact (hp h).trans ih

/-- As many characters as are ahead bound a repetition. -/
theorem runMany_of_repeats (hp : ∀ {c c' a}, Reads call p c c' a → c.Reaches c') {as : List α}
    (hrep : Repeats call p c c' as) {bound : List Char} (hb : c.ahead.length ≤ bound.length)
    (h : Hints) (values : List α) :
    ∃ h', runMany (p.run call) bound c h values = .success c' (values.reverse ++ as) h' := by
  induction hrep generalizing bound h values with
  | stop hstop =>
      obtain ⟨h', e⟩ := hstop
      refine ⟨h.join h', ?_⟩
      cases bound <;> simp [runMany, e]
  | idle hidle hle =>
      obtain ⟨h', e⟩ := hidle
      refine ⟨h.join h', ?_⟩
      cases bound <;> simp [runMany, e, not_lt.mpr hle]
  | @more _ _ _ a as hmore hlt _ ih =>
      have hshort := (hp hmore).length_ahead_lt hlt
      obtain ⟨h', e⟩ := hmore
      cases bound with
      | nil => exact absurd (lt_of_lt_of_le hshort hb) (Nat.not_lt_zero _)
      | cons b bound =>
          rw [List.length_cons] at hb
          have hbound := Nat.le_of_lt_succ (lt_of_lt_of_le hshort hb)
          obtain ⟨h'', e'⟩ := ih hbound (h.join h') (a :: values)
          refine ⟨h'', ?_⟩
          rw [runMany]
          simp only [e, if_pos hlt, e', List.reverse_cons, List.append_assoc, List.singleton_append]

/-- If each step of a sequence reaches the place behind it, so does the sequence. -/
theorem reaches_of_runAll {n : Nat} {steps : Fin n → Cursor → Outcome α}
    (hsteps : ∀ k {c c' a h}, steps k c = .success c' a h → c.Reaches c') {h h' : Hints}
    {values as : List α} (hrun : runAll steps c h values = .success c' as h') : c.Reaches c' := by
  induction n generalizing c h values with
  | zero =>
      cases hrun
      exact .refl _
  | succ n ih =>
      rw [runAll] at hrun
      cases h₀ : steps 0 c with
      | success m a _ =>
          simp only [h₀] at hrun
          exact (hsteps 0 h₀).trans (ih (fun k ↦ hsteps k.succ) hrun)
      | failure _ => simp [h₀] at hrun
      | overrun => simp [h₀] at hrun

end Repetition

/-- A run that succeeds moves forward, if the rules do. -/
theorem Reads.reaches (hcall : Forward call) {p : Parser V α} {a : α}
    (h : Reads call p c c' a) : c.Reaches c' := by
  induction p generalizing c c' with
  | pure =>
      obtain ⟨rfl, -⟩ := reads_pure.mp h
      exact .refl _
  | token =>
      obtain ⟨cs, n, hc, -, rfl, -⟩ := reads_token.mp h
      exact .inr ⟨cs.take n, cs.drop n, by rw [hc, List.take_append_drop], rfl⟩
  | eof =>
      obtain ⟨-, rfl⟩ := reads_eof.mp h
      exact .refl _
  | rule r => exact hcall r _ _ _ h
  | map f p ih =>
      obtain ⟨_, hp, -⟩ := reads_map.mp h
      exact ih hp
  | bind p f ih ihf =>
      obtain ⟨_, a, hp, hf⟩ := reads_bind.mp h
      exact (ih hp).trans (ihf a hf)
  | both p q ih ihq =>
      obtain ⟨_, hp, hq⟩ := reads_both.mp h
      exact (ih hp).trans (ihq hq)
  | either p q ih ihq =>
      rcases reads_either.mp h with hp | ⟨-, hq⟩
      · exact ih hp
      · exact ihq hq
  | filterMap f p ih =>
      obtain ⟨_, hp, -⟩ := reads_filterMap.mp h
      exact ih hp
  | label name p ih => exact ih (reads_label.mp h)
  | spanned p ih => exact ih (reads_spanned.mp h).1
  | sequence ps ih =>
      obtain ⟨_, hrun⟩ := h
      exact reaches_of_runAll (fun k _ _ _ _ hk ↦ ih k ⟨_, hk⟩) hrun
  | many p ih =>
      obtain ⟨_, hrun⟩ := h
      obtain ⟨bs, -, hrep⟩ := repeats_of_runMany hrun
      exact hrep.reaches ih
  | optional p ih =>
      rcases reads_optional.mp h with ⟨_, hp, -⟩ | ⟨-, rfl, -⟩
      · exact ih hp
      · exact .refl _
  | not p ih =>
      obtain ⟨-, rfl⟩ := reads_not.mp h
      exact .refl _

/-- A parser is repeated as `Repeats` says, whatever bound its loop is given. -/
theorem reads_many (hcall : Forward call) {p : Parser V α} {as : List α} :
    Reads call (many p) c c' as ↔ Repeats call p c c' as := by
  constructor
  · rintro ⟨_, hrun⟩
    obtain ⟨bs, rfl, hrep⟩ := repeats_of_runMany hrun
    exact hrep
  · intro hrep
    exact runMany_of_repeats (fun h ↦ h.reaches hcall) hrep le_rfl .empty []

end Parser

namespace Grammar

variable {ρ : Type} {V : ρ → Type}

/-- The rules of a grammar only move forward, at any depth of calls. -/
theorem forward_call (g : Grammar V) (depth : Nat) : Parser.Forward (g.call depth) := by
  induction depth with
  | zero =>
      rintro r c c' v ⟨_, h⟩
      cases h
  | succ depth ih =>
      intro r c c' v h
      exact Parser.Reads.reaches ih (p := g r) h

end Grammar

namespace Parser

variable {ρ : Type} {V : ρ → Type} {call : (r : ρ) → Cursor → Outcome (V r)}
variable {α Op : Type} {c c' : Cursor}

/-! ### Operators -/

/-- What `p` repeats, folded onto a value from the left. -/
def Folds (call : (r : ρ) → Cursor → Outcome (V r)) {β : Type} (p : Parser V β) (f : α → β → α)
    (a : α) (c c' : Cursor) (a' : α) : Prop :=
  ∃ bs, Repeats call p c c' bs ∧ bs.foldl f a = a'

/-- A fold stops where nothing more is read. -/
theorem Folds.stop {β : Type} {p : Parser V β} {f : α → β → α} (a : α)
    (h : Rejects call p c) : Folds call p f a c c a := ⟨[], .stop h, rfl⟩

/-- A fold goes on with what is read further on. -/
theorem Folds.step {β : Type} {p : Parser V β} {f : α → β → α} {a a' : α} {b : β} {m : Cursor}
    (h : Reads call p c m b) (hlt : c.offset < m.offset) (hm : Folds call p f (f a b) m c' a') :
    Folds call p f a c c' a' := by
  obtain ⟨bs, hrep, rfl⟩ := hm
  exact ⟨b :: bs, .more h hlt hrep, rfl⟩

/-- What holds of an operand and is kept by each step holds of what is folded onto it. -/
theorem Folds.invariant {β : Type} {p : Parser V β} {f : α → β → α} {a a' : α}
    {P : Cursor → α → Prop} (h : Folds call p f a c c' a') (h₀ : P c a)
    (hstep : ∀ {m m' a b}, P m a → Reads call p m m' b → P m' (f a b)) : P c' a' := by
  obtain ⟨bs, hrep, rfl⟩ := h
  induction hrep generalizing a with
  | stop _ => exact h₀
  | idle _ _ => exact h₀
  | more hread _ _ ih => exact ih (hstep h₀ hread)

section Operators

variable (hcall : Forward call) {operand : Parser V α} {op : Parser V Op} {a' : α}
include hcall

/-- An operand is folded with the operators behind it. -/
theorem reads_postfixed {apply : α → Op → α} :
    Reads call (operand.postfixed op apply) c c' a' ↔
      ∃ m a, Reads call operand c m a ∧ Folds call op apply a m c' a' := by
  simp only [postfixed, reads_map, reads_both, Folds]
  constructor
  · rintro ⟨⟨a, bs⟩, ⟨m, ha, hbs⟩, rfl⟩
    exact ⟨m, a, ha, bs, (reads_many hcall).mp hbs, rfl⟩
  · rintro ⟨m, a, ha, bs, hbs, rfl⟩
    exact ⟨(a, bs), ⟨m, ha, (reads_many hcall).mpr hbs⟩, rfl⟩

/-- An operand is folded with the pairs of an operator and an operand behind it. -/
theorem reads_chainLeft {apply : Op → α → α → α} :
    Reads call (operand.chainLeft op apply) c c' a' ↔
      ∃ m a, Reads call operand c m a ∧
        Folds call (op.both operand) (fun acc (o, b) ↦ apply o acc b) a m c' a' := by
  simp only [chainLeft, reads_map, reads_both, Folds]
  constructor
  · rintro ⟨⟨a, bs⟩, ⟨m, ha, hbs⟩, rfl⟩
    exact ⟨m, a, ha, bs, (reads_many hcall).mp hbs, rfl⟩
  · rintro ⟨m, a, ha, bs, hbs, rfl⟩
    exact ⟨(a, bs), ⟨m, ha, (reads_many hcall).mpr hbs⟩, rfl⟩

/-- The operators in front of an operand are applied to it, the last one first. -/
theorem reads_prefixed {apply : Op → α → α} :
    Reads call (operand.prefixed op apply) c c' a' ↔
      ∃ m ops a, Repeats call op c m ops ∧ Reads call operand m c' a ∧ ops.foldr apply a = a' := by
  simp only [prefixed, reads_map, reads_both]
  constructor
  · rintro ⟨⟨ops, a⟩, ⟨m, hops, ha⟩, rfl⟩
    exact ⟨m, ops, a, (reads_many hcall).mp hops, ha, rfl⟩
  · rintro ⟨m, ops, a, hops, ha, rfl⟩
    exact ⟨(ops, a), ⟨m, (reads_many hcall).mpr hops, ha⟩, rfl⟩

end Operators

end Parser

end Parsing

end ZPlane
