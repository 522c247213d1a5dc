import Mathlib
import ZPlane.Proofs.Parsing.Repetition

/-!
# Chains end behind an operand

Operands with operators between them are read as an operand and a repetition of pairs.  Where the
operator of a pair matches and its operand does not, the whole pair is given back, so that what was
read alternates between the two, begins and ends with an operand (`Alternates`), and no other pair
could have been added to it (`Chain`).  The helpers for lists and operators differ in what they make
of such a chain: the list of its operands, or a fold over it.
-/

namespace ZPlane

namespace Parsing

/-- A place that is reached and is no further on is the same place. -/
theorem Cursor.Reaches.eq_of_offset_le {c c' : Cursor} (h : c.Reaches c')
    (hle : c'.offset ≤ c.offset) : c' = c := by
  rcases h with rfl | ⟨w, cs, hc, rfl⟩
  · rfl
  · have hw : w.length ≤ 0 := by
      have hlength := Text.length_le_byteLength w
      dsimp only at hle
      omega
    obtain rfl := List.length_eq_zero_iff.mp (Nat.le_zero.mp hw)
    obtain ⟨o, r⟩ := c
    obtain rfl : r = .chars cs := hc
    rfl

namespace Parser

variable {ρ : Type} {V : ρ → Type} {call : (r : ρ) → Cursor → Outcome (V r)}
variable {α β Op : Type} {p : Parser V α} {c c' m : Cursor} {as : List α}

/-! ### Maximal rows -/

/-- What `p` reads in a row, each time further on. -/
inductive Series (call : (r : ρ) → Cursor → Outcome (V r)) (p : Parser V α) :
    Cursor → Cursor → List α → Prop
  | nil {c : Cursor} : Series call p c c []
  | cons {c m c' : Cursor} {a : α} {as : List α} : Reads call p c m a → c.offset < m.offset →
      Series call p m c' as → Series call p c c' (a :: as)

/-- The parser fails at the place or takes nothing there. -/
def Exhausted (call : (r : ρ) → Cursor → Outcome (V r)) (p : Parser V α) (c : Cursor) : Prop :=
  Rejects call p c ∨ ∃ a, Reads call p c c a

/-- A series goes on with what is read further on. -/
theorem Series.snoc {a : α} (h : Series call p c m as) (hread : Reads call p m c' a)
    (hlt : m.offset < c'.offset) : Series call p c c' (as ++ [a]) := by
  induction h with
  | nil => exact .cons hread hlt .nil
  | cons hfirst hfurther _ ih => exact .cons hfirst hfurther (ih hread hlt)

/-- A repetition reads a row that cannot be continued. -/
theorem repeats_iff (hcall : Forward call) :
    Repeats call p c c' as ↔ Series call p c c' as ∧ Exhausted call p c' := by
  constructor
  · intro h
    induction h with
    | stop hstop => exact ⟨.nil, .inl hstop⟩
    | idle hread hle =>
        obtain rfl := (hread.reaches hcall).eq_of_offset_le hle
        exact ⟨.nil, .inr ⟨_, hread⟩⟩
    | more hread hlt _ ih => exact ⟨.cons hread hlt ih.1, ih.2⟩
  · rintro ⟨h, hend⟩
    induction h with
    | nil =>
        rcases hend with hstop | ⟨a, hread⟩
        · exact .stop hstop
        · exact .idle hread le_rfl
    | cons hread hlt _ ih => exact .more hread hlt (ih hend)

/-- The values of a repetition are mapped one by one. -/
theorem repeats_map {f : α → β} {bs : List β} :
    Repeats call (p.map f) c c' bs ↔ ∃ as, Repeats call p c c' as ∧ as.map f = bs := by
  constructor
  · intro h
    induction h with
    | stop hstop => exact ⟨[], .stop (rejects_map.mp hstop), rfl⟩
    | idle hread hle =>
        obtain ⟨a, ha, -⟩ := reads_map.mp hread
        exact ⟨[], .idle ha hle, rfl⟩
    | more hread hlt _ ih =>
        obtain ⟨a, ha, rfl⟩ := reads_map.mp hread
        obtain ⟨as, has, rfl⟩ := ih
        exact ⟨a :: as, .more ha hlt has, rfl⟩
  · rintro ⟨as, h, rfl⟩
    induction h with
    | stop hstop => exact .stop (rejects_map.mpr hstop)
    | idle hread hle => exact .idle (reads_map.mpr ⟨_, hread, rfl⟩) hle
    | more hread hlt _ ih => exact .more (reads_map.mpr ⟨_, hread, rfl⟩) hlt ih

/-- A repetition fails nowhere. -/
theorem not_rejects_many (hcall : Forward call) : ¬ Rejects call (many p) c := by
  rintro ⟨h, hrun⟩
  obtain ⟨calls, reply, hcalls, -⟩ := exists_attempts hcall p c
  have hfailure : reply = .failure h.toList := by
    rw [← hcalls.meaning_many hcall, meaning_apply, hrun, Outcome.reply]
  rcases hcalls.reply_cases with ⟨rfl, -⟩ | ⟨m, as, rfl, -⟩
  · cases hfailure
  · cases hfailure

/-- An option fails nowhere. -/
theorem not_rejects_optional : ¬ Rejects call (optional p) c := by
  rintro ⟨h, hrun⟩
  rw [run_optional] at hrun
  split at hrun
  · cases hrun
  · cases hrun
  · cases hrun

/-- With a repetition behind it a parser fails just where it fails alone. -/
theorem rejects_both_many (hcall : Forward call) {q : Parser V β} :
    Rejects call (p.both q.many) c ↔ Rejects call p c := by
  rw [rejects_both]
  constructor
  · rintro (h | ⟨m, a, -, h⟩)
    · exact h
    · exact absurd h (not_rejects_many hcall)
  · exact .inl

/-- With an option behind it a parser fails just where it fails alone. -/
theorem rejects_both_optional {q : Parser V β} :
    Rejects call (p.both q.optional) c ↔ Rejects call p c := by
  rw [rejects_both]
  constructor
  · rintro (h | ⟨m, a, -, h⟩)
    · exact h
    · exact absurd h not_rejects_optional
  · exact .inl

/-! ### Chains -/

section Chains

variable {operand : Parser V α} {op : Parser V Op} {a : α} {rest : List (Op × α)}

/-- An operand, and then any number of operators with an operand behind each; an operator and its
operand take something together. -/
inductive Alternates (call : (r : ρ) → Cursor → Outcome (V r)) (operand : Parser V α)
    (op : Parser V Op) : Cursor → Cursor → α → List (Op × α) → Prop
  | operand {c c' : Cursor} {a : α} : Reads call operand c c' a →
      Alternates call operand op c c' a []
  | operator {c m d c' : Cursor} {a b : α} {o : Op} {rest : List (Op × α)} :
      Alternates call operand op c m a rest → Reads call op m d o → Reads call operand d c' b →
      m.offset < c'.offset → Alternates call operand op c c' a (rest ++ [(o, b)])

/-- Operands and operators in turn, up to the end of an operand, where no operator with an operand
behind it takes anything more. -/
structure Chain (call : (r : ρ) → Cursor → Outcome (V r)) (operand : Parser V α)
    (op : Parser V Op) (c c' : Cursor) (a : α) (rest : List (Op × α)) : Prop where
  alternates : Alternates call operand op c c' a rest
  ends : ∃ d b, Reads call operand d c' b
  exhausted : Exhausted call (op.both operand) c'

/-- Alternating operands and operators end with an operand. -/
theorem Alternates.ends (h : Alternates call operand op c c' a rest) :
    ∃ d b, Reads call operand d c' b := by
  cases h with
  | operand hread => exact ⟨_, _, hread⟩
  | operator _ _ hread _ => exact ⟨_, _, hread⟩

/-- What alternates goes on with pairs of an operator and an operand. -/
theorem Alternates.append {rest' : List (Op × α)} (h : Alternates call operand op c m a rest)
    (hseries : Series call (op.both operand) m c' rest') :
    Alternates call operand op c c' a (rest ++ rest') := by
  induction hseries generalizing rest with
  | nil => rwa [List.append_nil]
  | @cons m d c' x rest' hread hlt _ ih =>
      obtain ⟨o, b⟩ := x
      obtain ⟨e, ho, hb⟩ := reads_both.mp hread
      rw [List.append_cons]
      exact ih (h.operator ho hb hlt)

/-- The pairs behind the first operand are a row. -/
theorem alternates_iff : Alternates call operand op c c' a rest ↔
    ∃ m, Reads call operand c m a ∧ Series call (op.both operand) m c' rest := by
  constructor
  · intro h
    induction h with
    | operand hread => exact ⟨_, hread, .nil⟩
    | operator _ ho hb hlt ih =>
        obtain ⟨m, hread, hseries⟩ := ih
        exact ⟨m, hread, hseries.snoc (reads_both.mpr ⟨_, ho, hb⟩) hlt⟩
  · rintro ⟨m, hread, hseries⟩
    exact (Alternates.operand hread).append hseries

/-- A chain is an operand and all the pairs behind it that are read. -/
theorem chain_iff (hcall : Forward call) : Chain call operand op c c' a rest ↔
    ∃ m, Reads call operand c m a ∧ Repeats call (op.both operand) m c' rest := by
  constructor
  · intro h
    obtain ⟨m, hread, hseries⟩ := alternates_iff.mp h.alternates
    exact ⟨m, hread, (repeats_iff hcall).mpr ⟨hseries, h.exhausted⟩⟩
  · rintro ⟨m, hread, hrepeats⟩
    obtain ⟨hseries, hend⟩ := (repeats_iff hcall).mp hrepeats
    have halternates := alternates_iff.mpr ⟨m, hread, hseries⟩
    exact ⟨halternates, halternates.ends, hend⟩

/-- Items with separators are the operands of a chain. -/
theorem reads_sepBy (hcall : Forward call) : Reads call (operand.sepBy op) c c' as ↔
    ∃ a rest, Chain call operand op c c' a rest ∧ as = a :: rest.map Prod.snd := by
  simp only [sepBy, reads_map, reads_both, reads_many hcall, second, repeats_map, chain_iff hcall]
  constructor
  · rintro ⟨⟨a, _⟩, ⟨m, hread, rest, hrest, rfl⟩, rfl⟩
    exact ⟨a, rest, ⟨m, hread, hrest⟩, rfl⟩
  · rintro ⟨a, rest, ⟨m, hread, hrest⟩, rfl⟩
    exact ⟨(a, _), ⟨m, hread, rest, hrest, rfl⟩, rfl⟩

/-- A chain that groups to the left is folded from its first operand on. -/
theorem reads_chainLeft_iff (hcall : Forward call) {apply : Op → α → α → α} {b : α} :
    Reads call (operand.chainLeft op apply) c c' b ↔ ∃ a rest,
      Chain call operand op c c' a rest ∧ b = rest.foldl (fun acc (o, x) ↦ apply o acc x) a := by
  simp only [reads_chainLeft hcall, Folds, chain_iff hcall]
  constructor
  · rintro ⟨m, a, hread, rest, hrest, rfl⟩
    exact ⟨a, rest, ⟨m, hread, hrest⟩, rfl⟩
  · rintro ⟨a, rest, ⟨m, hread, hrest⟩, rfl⟩
    exact ⟨m, a, hread, rest, hrest, rfl⟩

/-- A chain of at most one operator is its operand, where no pair comes behind it, or one pair
applied. -/
theorem reads_chainOnce {apply : Op → α → α → α} {b : α} :
    Reads call (operand.chainOnce op apply) c c' b ↔
      (Reads call operand c c' b ∧ Rejects call (op.both operand) c') ∨
      ∃ m d a o x, Reads call operand c m a ∧ Reads call op m d o ∧ Reads call operand d c' x ∧
        b = apply o a x := by
  simp only [chainOnce, reads_map, reads_both, reads_optional]
  constructor
  · rintro ⟨⟨a, _⟩, ⟨m, hread, ⟨⟨o, x⟩, ⟨d, ho, hx⟩, rfl⟩ | ⟨hreject, rfl, rfl⟩⟩, rfl⟩
    · exact .inr ⟨m, d, a, o, x, hread, ho, hx, rfl⟩
    · exact .inl ⟨hread, hreject⟩
  · rintro (⟨hread, hreject⟩ | ⟨m, d, a, o, x, hread, ho, hx, rfl⟩)
    · exact ⟨(b, none), ⟨c', hread, .inr ⟨hreject, rfl, rfl⟩⟩, rfl⟩
    · exact ⟨(a, some (o, x)), ⟨m, hread, .inl ⟨(o, x), ⟨d, ho, hx⟩, rfl⟩⟩, rfl⟩

/-- All operators behind an operand are applied to it, the first one first. -/
theorem reads_postfixed_iff (hcall : Forward call) {apply : α → Op → α} {b : α} :
    Reads call (operand.postfixed op apply) c c' b ↔ ∃ m a ops, Reads call operand c m a ∧
      Series call op m c' ops ∧ Exhausted call op c' ∧ b = ops.foldl apply a := by
  simp only [reads_postfixed hcall, Folds, repeats_iff hcall]
  constructor
  · rintro ⟨m, a, hread, ops, ⟨hops, hend⟩, rfl⟩
    exact ⟨m, a, ops, hread, hops, hend, rfl⟩
  · rintro ⟨m, a, ops, hread, hops, hend, rfl⟩
    exact ⟨m, a, hread, ops, ⟨hops, hend⟩, rfl⟩

/-- All operators in front of an operand are applied to it, the last one first. -/
theorem reads_prefixed_iff (hcall : Forward call) {apply : Op → α → α} {b : α} :
    Reads call (operand.prefixed op apply) c c' b ↔ ∃ m ops a, Series call op c m ops ∧
      Exhausted call op m ∧ Reads call operand m c' a ∧ b = ops.foldr apply a := by
  simp only [reads_prefixed hcall, repeats_iff hcall]
  constructor
  · rintro ⟨m, ops, a, ⟨hops, hend⟩, hread, rfl⟩
    exact ⟨m, ops, a, hops, hend, hread, rfl⟩
  · rintro ⟨m, ops, a, hops, hend, hread, rfl⟩
    exact ⟨m, ops, a, ⟨hops, hend⟩, hread, rfl⟩

/-- Operators without an operand behind them are rejected. -/
theorem rejects_prefixed_iff (hcall : Forward call) {apply : Op → α → α} :
    Rejects call (operand.prefixed op apply) c ↔ ∃ m ops, Series call op c m ops ∧
      Exhausted call op m ∧ Rejects call operand m := by
  rw [prefixed, rejects_map, rejects_both]
  simp only [reads_many hcall, repeats_iff hcall, and_assoc]
  constructor
  · rintro (h | h)
    · exact absurd h (not_rejects_many hcall)
    · exact h
  · exact .inr

end Chains

/-- What a list, a chain of operators, a pair, and an operand with operators behind or before it
read.  A chain stops behind the last operand that it reads, and does not take an operator without
its operand; the operators behind or before an operand are a row that cannot be continued.  They
fail just if the operand that they need does. -/
theorem chains_end_at_operands (g : Grammar V) (depth : Nat) (operand : Parser V α)
    (op : Parser V Op) :
    (∀ c, (Rejects (g.call depth) (operand.sepBy op) c ↔ Rejects (g.call depth) operand c) ∧
      ∀ c' as, Reads (g.call depth) (operand.sepBy op) c c' as ↔ ∃ a rest,
        Chain (g.call depth) operand op c c' a rest ∧ as = a :: rest.map Prod.snd) ∧
    (∀ apply c,
      (Rejects (g.call depth) (operand.chainLeft op apply) c ↔
        Rejects (g.call depth) operand c) ∧
      ∀ c' b, Reads (g.call depth) (operand.chainLeft op apply) c c' b ↔ ∃ a rest,
        Chain (g.call depth) operand op c c' a rest ∧
        b = rest.foldl (fun acc (o, x) ↦ apply o acc x) a) ∧
    (∀ apply c,
      (Rejects (g.call depth) (operand.chainOnce op apply) c ↔
        Rejects (g.call depth) operand c) ∧
      ∀ c' b, Reads (g.call depth) (operand.chainOnce op apply) c c' b ↔
        (Reads (g.call depth) operand c c' b ∧ Rejects (g.call depth) (op.both operand) c') ∨
        ∃ m d a o x, Reads (g.call depth) operand c m a ∧ Reads (g.call depth) op m d o ∧
          Reads (g.call depth) operand d c' x ∧ b = apply o a x) ∧
    (∀ apply c,
      (Rejects (g.call depth) (operand.postfixed op apply) c ↔
        Rejects (g.call depth) operand c) ∧
      ∀ c' b, Reads (g.call depth) (operand.postfixed op apply) c c' b ↔ ∃ m a ops,
        Reads (g.call depth) operand c m a ∧ Series (g.call depth) op m c' ops ∧
        Exhausted (g.call depth) op c' ∧ b = ops.foldl apply a) ∧
    ∀ apply c,
      (Rejects (g.call depth) (operand.prefixed op apply) c ↔ ∃ m ops,
        Series (g.call depth) op c m ops ∧ Exhausted (g.call depth) op m ∧
        Rejects (g.call depth) operand m) ∧
      ∀ c' b, Reads (g.call depth) (operand.prefixed op apply) c c' b ↔ ∃ m ops a,
        Series (g.call depth) op c m ops ∧ Exhausted (g.call depth) op m ∧
        Reads (g.call depth) operand m c' a ∧ b = ops.foldr apply a := by
  have hcall := g.forward_call depth
  refine ⟨?list, ?chain, ?once, ?after, ?before⟩
  case list =>
    intro c
    exact ⟨rejects_map.trans (rejects_both_many hcall), fun _ _ ↦ reads_sepBy hcall⟩
  case chain =>
    intro apply c
    exact ⟨rejects_map.trans (rejects_both_many hcall), fun _ _ ↦ reads_chainLeft_iff hcall⟩
  case once =>
    intro apply c
    exact ⟨rejects_map.trans rejects_both_optional, fun _ _ ↦ reads_chainOnce⟩
  case after =>
    intro apply c
    exact ⟨rejects_map.trans (rejects_both_many hcall), fun _ _ ↦ reads_postfixed_iff hcall⟩
  case before =>
    intro apply c
    exact ⟨rejects_prefixed_iff hcall, fun _ _ ↦ reads_prefixed_iff hcall⟩

/-- The comma at the end has no item behind it, and is given back. -/
example (call : Unit → Cursor → Outcome Unit) :
    let p : Parser (fun _ : Unit ↦ Unit) (List String) := sepBy (literal "a") (literal ",")
    p.meaning call (.ofText "a,a,".toList 0) =
      .success ⟨3, .chars [',']⟩ ["a", "a"] [(4, some "\"a\"")] := by
  rfl

end Parser

end Parsing

end ZPlane
