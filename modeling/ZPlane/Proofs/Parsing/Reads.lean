import Mathlib
import ZPlane.Parsing.Operators

/-!
# Runs without their hints

`Reads` and `Rejects` say how a run ends and leave out the hints that it collects.  The two exclude
each other, and there is one law for each construct but the repetitions.
-/

namespace ZPlane

namespace Parsing

namespace Outcome

variable {α β : Type} {o : Outcome α} {c : Cursor} {b : β}

/-- A mapped outcome succeeds with what the values are mapped to. -/
theorem exists_map_eq_success {f : α → β} :
    (∃ h, o.map f = .success c b h) ↔ ∃ a, (∃ h, o = .success c a h) ∧ f a = b := by
  cases o <;> simp [map]

theorem exists_map_eq_failure {f : α → β} :
    (∃ h, o.map f = .failure h) ↔ ∃ h, o = .failure h := by
  cases o <;> simp [map]

/-- Two runs in a row succeed with the second one, behind the first. -/
theorem exists_andThen_eq_success {next : Cursor → α → Outcome β} :
    (∃ h, o.andThen next = .success c b h) ↔
      ∃ m a, (∃ h, o = .success m a h) ∧ ∃ h, next m a = .success c b h := by
  cases o with
  | success m a h => cases hn : next m a <;> simp [andThen, Outcome.after, hn]
  | failure h => simp [andThen]
  | overrun => simp [andThen]

/-- Two runs in a row fail with the first one, or with the second behind it. -/
theorem exists_andThen_eq_failure {next : Cursor → α → Outcome β} :
    (∃ h, o.andThen next = .failure h) ↔ (∃ h, o = .failure h) ∨
      ∃ m a, (∃ h, o = .success m a h) ∧ ∃ h, next m a = .failure h := by
  cases o with
  | success m a h => cases hn : next m a <;> simp [andThen, Outcome.after, hn]
  | failure h => simp [andThen]
  | overrun => simp [andThen]

end Outcome

namespace Parser

variable {ρ : Type} {V : ρ → Type} (call : (r : ρ) → Cursor → Outcome (V r))

/-- The parser takes what is between the two places and yields the value. -/
def Reads {α : Type} (p : Parser V α) (c c' : Cursor) (a : α) : Prop :=
  ∃ h, p.run call c = .success c' a h

/-- The parser fails at the place. -/
def Rejects {α : Type} (p : Parser V α) (c : Cursor) : Prop := ∃ h, p.run call c = .failure h

variable {call} {α β : Type} {c c' : Cursor}

/-! ### The run of each construct -/

section Runs

variable (call) (p : Parser V α) (q : Parser V β) (c : Cursor)

theorem run_pure (a : α) : (pure a : Parser V α).run call c = .success c a .empty := rfl

theorem run_token (name : String) (size : List Char → Option Nat) :
    (token name size : Parser V String).run call c = takeToken name size c := rfl

theorem run_eof : (eof : Parser V Unit).run call c =
    if c.atEnd then .success c () .empty else .failure (.expected c.offset endOfInput) := rfl

theorem run_either (p q : Parser V α) : (either p q).run call c =
    match p.run call c with
    | .failure h =>
      match q.run call c with
      | .success c b h' => .success c b (h.join h')
      | .failure h' => .failure (h.deepest h')
      | .overrun => .overrun
    | other => other := rfl

theorem run_filterMap (f : α → Option β) : (filterMap f p).run call c =
    match p.run call c with
    | .success c' a h =>
      match f a with
      | some b => .success c' b h
      | none => .failure (h.join (.mark c.offset))
    | .failure h => .failure h
    | .overrun => .overrun := rfl

theorem run_label (name : String) : (label name p).run call c =
    match p.run call c with
    | .failure h => .failure (.expected (h.furthest?.getD c.offset) name)
    | other => other := rfl

theorem run_spanned : (spanned p).run call c =
    match p.run call c with
    | .success c' a h => .success c' (a, ⟨c.offset, c'.offset⟩) h
    | .failure h => .failure h
    | .overrun => .overrun := rfl

theorem run_optional : (optional p).run call c =
    match p.run call c with
    | .success c' a h => .success c' (some a) h
    | .failure h => .success c none h
    | .overrun => .overrun := rfl

theorem run_not : (not p).run call c =
    match p.run call c with
    | .success _ _ _ => .failure (.mark c.offset)
    | .failure _ => .success c () .empty
    | .overrun => .overrun := rfl

end Runs

/-- A token has a hint where it is not found, and no other. -/
theorem takeToken_cases (name : String) (size : List Char → Option Nat) (c : Cursor) :
    takeToken name size c = .failure (.expected c.offset name) ∨
      ∃ c' s, takeToken name size c = .success c' s .empty := by
  unfold takeToken
  split
  · exact .inl rfl
  · split
    · exact .inl rfl
    · exact .inr ⟨_, _, rfl⟩

/-! ### Outcomes are exclusive -/

/-- What is read somewhere is not rejected there. -/
theorem Reads.not_rejects {p : Parser V α} {a : α} (h : Reads call p c c' a) :
    ¬ Rejects call p c := by
  rintro ⟨h', e'⟩
  obtain ⟨h, e⟩ := h
  rw [e] at e'
  cases e'

/-- A parser reads at most one value at a place, and up to one place. -/
theorem Reads.unique {p : Parser V α} {a b : α} {d : Cursor} (h : Reads call p c c' a)
    (h' : Reads call p c d b) : c' = d ∧ a = b := by
  obtain ⟨_, e⟩ := h
  obtain ⟨_, e'⟩ := h'
  rw [e] at e'
  cases e'
  exact ⟨rfl, rfl⟩

/-! ### One law for each construct -/

section Laws

variable {p : Parser V α} {q : Parser V β}

/-- Nothing is read for a value that is given. -/
theorem reads_pure {a b : α} : Reads call (pure a : Parser V α) c c' b ↔ c = c' ∧ a = b := by
  simp [Reads, run_pure]

/-- A token is read as the characters that its size function measures. -/
theorem reads_token {name : String} {size : List Char → Option Nat} {s : String} :
    Reads call (token name size : Parser V String) c c' s ↔
      ∃ cs n, c.rest = .chars cs ∧ size cs = some n ∧
        ⟨c.offset + Text.byteLength (cs.take n), .chars (cs.drop n)⟩ = c' ∧
        String.ofList (cs.take n) = s := by
  simp only [Reads, run_token, takeToken, Cursor.chars?]
  cases c.rest with
  | chars cs => cases hn : size cs <;> simp [hn]
  | inside => simp
  | beyond => simp

/-- A token is rejected where nothing is measured. -/
theorem rejects_token {name : String} {size : List Char → Option Nat} {cs : List Char}
    (hc : c.rest = .chars cs) :
    Rejects call (token name size : Parser V String) c ↔ size cs = none := by
  simp only [Rejects, run_token, takeToken, Cursor.chars?, hc]
  cases size cs <;> simp

/-- The end is read at the end, and nothing is taken. -/
theorem reads_eof {u : Unit} : Reads call (eof : Parser V Unit) c c' u ↔ c.atEnd ∧ c = c' := by
  simp only [Reads, run_eof]
  split <;> simp [*]

theorem reads_map {f : α → β} {b : β} :
    Reads call (map f p) c c' b ↔ ∃ a, Reads call p c c' a ∧ f a = b :=
  Outcome.exists_map_eq_success

theorem rejects_map {f : α → β} : Rejects call (map f p) c ↔ Rejects call p c :=
  Outcome.exists_map_eq_failure

/-- What is read decides about the parser behind it. -/
theorem reads_bind {f : α → Parser V β} {b : β} :
    Reads call (bind p f) c c' b ↔ ∃ m a, Reads call p c m a ∧ Reads call (f a) m c' b :=
  Outcome.exists_andThen_eq_success

/-- Two parsers are read in a row. -/
theorem reads_both {x : α × β} :
    Reads call (both p q) c c' x ↔ ∃ m, Reads call p c m x.1 ∧ Reads call q m c' x.2 := by
  refine Outcome.exists_andThen_eq_success.trans ⟨?_, ?_⟩
  · rintro ⟨m, a, hp, hx⟩
    obtain ⟨b, hq, rfl⟩ := Outcome.exists_map_eq_success.mp hx
    exact ⟨m, hp, hq⟩
  · rintro ⟨m, hp, hq⟩
    exact ⟨m, x.1, hp, Outcome.exists_map_eq_success.mpr ⟨x.2, hq, rfl⟩⟩

/-- Two parsers in a row are rejected with the first, or with the second behind it. -/
theorem rejects_both :
    Rejects call (both p q) c ↔
      Rejects call p c ∨ ∃ m a, Reads call p c m a ∧ Rejects call q m := by
  refine Outcome.exists_andThen_eq_failure.trans (or_congr Iff.rfl ?_)
  exact exists_congr fun m ↦ exists_congr fun a ↦
    and_congr Iff.rfl Outcome.exists_map_eq_failure

/-- The right side of an alternative is read only where the left one is rejected. -/
theorem reads_either {p q : Parser V α} {a : α} :
    Reads call (either p q) c c' a ↔
      Reads call p c c' a ∨ Rejects call p c ∧ Reads call q c c' a := by
  simp only [Reads, Rejects, run_either]
  cases p.run call c with
  | success m a' h => simp
  | failure h => cases q.run call c <;> simp
  | overrun => simp

/-- An alternative is rejected where both sides are. -/
theorem rejects_either {p q : Parser V α} :
    Rejects call (either p q) c ↔ Rejects call p c ∧ Rejects call q c := by
  simp only [Rejects, run_either]
  cases p.run call c with
  | success m a' h => simp
  | failure h => cases q.run call c <;> simp
  | overrun => simp

/-- A value is read if it is kept. -/
theorem reads_filterMap {f : α → Option β} {b : β} :
    Reads call (filterMap f p) c c' b ↔ ∃ a, Reads call p c c' a ∧ f a = some b := by
  simp only [Reads, run_filterMap]
  cases p.run call c with
  | success m a h => cases hf : f a <;> simp [hf]
  | failure h => simp
  | overrun => simp

/-- A value that is not kept is rejected. -/
theorem rejects_filterMap {f : α → Option β} :
    Rejects call (filterMap f p) c ↔
      Rejects call p c ∨ ∃ m a, Reads call p c m a ∧ f a = none := by
  simp only [Rejects, Reads, run_filterMap]
  cases p.run call c with
  | success m a h => cases hf : f a <;> simp [hf]
  | failure h => simp
  | overrun => simp

/-- A label makes no difference to what is read. -/
theorem reads_label {name : String} {a : α} :
    Reads call (label name p) c c' a ↔ Reads call p c c' a := by
  simp only [Reads, run_label]
  cases p.run call c <;> simp

theorem rejects_label {name : String} : Rejects call (label name p) c ↔ Rejects call p c := by
  simp only [Rejects, run_label]
  cases p.run call c <;> simp

/-- A span goes from where the parser begins to where it ends. -/
theorem reads_spanned {a : α} {s : Span} :
    Reads call (spanned p) c c' (a, s) ↔ Reads call p c c' a ∧ s = ⟨c.offset, c'.offset⟩ := by
  simp only [Reads, run_spanned]
  cases p.run call c with
  | success m a' h => simp; grind
  | failure h => simp
  | overrun => simp

theorem rejects_spanned : Rejects call (spanned p) c ↔ Rejects call p c := by
  simp only [Rejects, run_spanned]
  cases p.run call c <;> simp

/-- What is optional is read where it is there, and else nothing. -/
theorem reads_optional {o : Option α} :
    Reads call (optional p) c c' o ↔
      (∃ a, Reads call p c c' a ∧ o = some a) ∨ Rejects call p c ∧ c = c' ∧ o = none := by
  simp only [Reads, Rejects, run_optional]
  cases p.run call c with
  | success m a h => simp; grind
  | failure h => simp; grind
  | overrun => simp

/-- What must not be there is read as nothing where it is rejected. -/
theorem reads_not {u : Unit} : Reads call (not p) c c' u ↔ Rejects call p c ∧ c = c' := by
  simp only [Reads, Rejects, run_not]
  cases p.run call c <;> simp

/-- Of two parsers in a row the first one's value is kept. -/
theorem reads_first {a : α} :
    Reads call (first p q) c c' a ↔ ∃ m b, Reads call p c m a ∧ Reads call q m c' b := by
  simp only [first, reads_map, reads_both]
  constructor
  · rintro ⟨⟨_, b⟩, ⟨m, hp, hq⟩, rfl⟩
    exact ⟨m, b, hp, hq⟩
  · rintro ⟨m, b, hp, hq⟩
    exact ⟨(a, b), ⟨m, hp, hq⟩, rfl⟩

/-- Of two parsers in a row the second one's value is kept. -/
theorem reads_second {b : β} :
    Reads call (second p q) c c' b ↔ ∃ m a, Reads call p c m a ∧ Reads call q m c' b := by
  simp only [second, reads_map, reads_both]
  constructor
  · rintro ⟨⟨a, _⟩, ⟨m, hp, hq⟩, rfl⟩
    exact ⟨m, a, hp, hq⟩
  · rintro ⟨m, a, hp, hq⟩
    exact ⟨(a, b), ⟨m, hp, hq⟩, rfl⟩

theorem rejects_both_of_left (h : Rejects call p c) : Rejects call (both p q) c :=
  rejects_both.mpr (.inl h)

theorem rejects_first_of_left (h : Rejects call p c) : Rejects call (first p q) c :=
  rejects_map.mpr (rejects_both_of_left h)

theorem rejects_second_of_left (h : Rejects call p c) : Rejects call (second p q) c :=
  rejects_map.mpr (rejects_both_of_left h)

end Laws

end Parser

end Parsing

end ZPlane
