import Mathlib
import ZPlane.Proofs.Parsing.Placed
import ZPlane.Proofs.Parsing.Token

/-!
# Where the hints of a run come from

A hint of a run is one of a run inside it.  For each construct `Hinted` says which runs these are
and where they began: the second of two parsers begins where the first one has read, and an attempt
of a repetition where earlier ones have read further on (`Advances`).
-/

namespace ZPlane

namespace Parsing

namespace Outcome

variable {α β : Type} {o : Outcome α} {n : Nat}

@[simp] theorem hints_map (f : α → β) (o : Outcome α) : (o.map f).hints = o.hints := by
  cases o <;> rfl

/-- Two runs in a row have their hints from the one or from the other. -/
theorem of_mem_hints_andThen {next : Cursor → α → Outcome β}
    (hn : n ∈ (o.andThen next).hints.offsets) : n ∈ o.hints.offsets ∨
      ∃ m a, (∃ h, o = .success m a h) ∧ n ∈ (next m a).hints.offsets := by
  cases o with
  | success m a h =>
      rw [andThen] at hn
      cases hnext : next m a with
      | success | failure =>
          simp only [hnext, after, hints, Hints.offsets_join, List.mem_append] at hn
          exact hn.imp_right fun hn ↦ ⟨m, a, ⟨h, rfl⟩, by rwa [hnext]⟩
      | overrun =>
          rw [hnext] at hn
          cases hn
  | failure h => exact .inl hn
  | overrun => exact .inl hn

end Outcome

namespace Parser

variable {ρ : Type} {V : ρ → Type} {call : (r : ρ) → Cursor → Outcome (V r)}
variable {α β : Type} {c c' : Cursor} {n : Nat} {cs : List Char}

/-- The run of the parser at the place has a hint at the offset. -/
def Hinted (call : (r : ρ) → Cursor → Outcome (V r)) (p : Parser V α) (c : Cursor) (n : Nat) :
    Prop :=
  n ∈ (p.run call c).hints.offsets

/-- The parser reads from the one place to the other, which is further on. -/
def Advances (call : (r : ρ) → Cursor → Outcome (V r)) (p : Parser V α) (c c' : Cursor) : Prop :=
  ∃ a, Reads call p c c' a ∧ c.offset < c'.offset

/-- Runs of the parser in a row, each further on. -/
abbrev AdvancesTo (call : (r : ρ) → Cursor → Outcome (V r)) (p : Parser V α) :
    Cursor → Cursor → Prop :=
  Relation.ReflTransGen (Advances call p)

/-- A repetition begins a pass where it ends. -/
theorem Repeats.advancesTo {p : Parser V α} {as : List α} (h : Repeats call p c c' as) :
    AdvancesTo call p c c' := by
  induction h with
  | stop _ | idle _ _ => exact .refl
  | more hread hlt _ ih => exact .head ⟨_, hread, hlt⟩ ih

/-- What each run of the parser keeps is kept by runs in a row. -/
theorem AdvancesTo.invariant {p : Parser V α} {P : Cursor → Prop} (h : AdvancesTo call p c c')
    (h₀ : P c) (hstep : ∀ {m m' a}, P m → Reads call p m m' a → P m') : P c' := by
  induction h with
  | refl => exact h₀
  | tail _ hadvance ih =>
      obtain ⟨a, hread, -⟩ := hadvance
      exact hstep ih hread

section Laws

variable {p : Parser V α} {q : Parser V β}

/-- A token is expected where it stands, if it is not there. -/
theorem Hinted.of_token {name : String} {size : List Char → Option Nat}
    (h : Hinted call (token name size : Parser V String) c n) :
    n = c.offset ∧ Rejects call (token name size : Parser V String) c := by
  rw [Hinted, run_token] at h
  rcases takeToken_cases name size c with hrun | ⟨c', s, hrun⟩
  · rw [hrun] at h
    exact ⟨List.mem_singleton.mp h, _, hrun⟩
  · rw [hrun] at h
    cases h

/-- A mapped parser expects what the parser does. -/
theorem Hinted.of_map {f : α → β} (h : Hinted call (p.map f) c n) : Hinted call p c n := by
  change n ∈ ((p.run call c).map f).hints.offsets at h
  rwa [Outcome.hints_map] at h

/-- What two parsers in a row expect is expected by the first, or by the second behind it. -/
theorem Hinted.of_both (h : Hinted call (p.both q) c n) :
    Hinted call p c n ∨ ∃ m a, Reads call p c m a ∧ Hinted call q m n := by
  refine (Outcome.of_mem_hints_andThen h).imp_right ?_
  rintro ⟨m, a, hread, hn⟩
  rw [Outcome.hints_map] at hn
  exact ⟨m, a, hread, hn⟩

theorem Hinted.of_first (h : Hinted call (p.first q) c n) :
    Hinted call p c n ∨ ∃ m a, Reads call p c m a ∧ Hinted call q m n := h.of_map.of_both

theorem Hinted.of_second (h : Hinted call (p.second q) c n) :
    Hinted call p c n ∨ ∃ m a, Reads call p c m a ∧ Hinted call q m n := h.of_map.of_both

/-- What an alternative expects is expected by the left side, or by the right one where the left is
rejected. -/
theorem Hinted.of_either {p q : Parser V α} (h : Hinted call (p.either q) c n) :
    Hinted call p c n ∨ Rejects call p c ∧ Hinted call q c n := by
  rw [Hinted, run_either] at h
  simp only [Hinted, Rejects]
  cases hp : p.run call c with
  | success | overrun =>
      rw [hp] at h
      exact .inl h
  | failure h₁ =>
      cases hq : q.run call c with
      | success m a h₂ =>
          simp only [hp, hq, Outcome.hints, Hints.offsets_join, List.mem_append] at h
          exact h.imp_right fun hn ↦ ⟨⟨h₁, rfl⟩, hn⟩
      | failure h₂ =>
          simp only [hp, hq] at h
          exact (Hints.mem_offsets_deepest h).imp_right fun hn ↦ ⟨⟨h₁, rfl⟩, hn⟩
      | overrun =>
          simp only [hp, hq] at h
          cases h

/-- A value that is rejected is marked where the parser began. -/
theorem Hinted.of_filterMap {f : α → Option β} (h : Hinted call (p.filterMap f) c n) :
    Hinted call p c n ∨ n = c.offset := by
  rw [Hinted, run_filterMap] at h
  rw [Hinted]
  cases hp : p.run call c with
  | success m a h₁ =>
      simp only [hp] at h
      split at h
      · exact .inl h
      · simpa [Outcome.hints] using h
  | failure | overrun =>
      rw [hp] at h
      exact .inl h

/-- A label stands where the furthest of the hints was that it replaces. -/
theorem Hinted.of_label {name : String} (hplaced : (p.run call c).Placed c)
    (h : Hinted call (p.label name) c n) : Hinted call p c n := by
  rw [Hinted, run_label] at h
  rw [Hinted]
  cases hp : p.run call c with
  | success | overrun =>
      rw [hp] at h
      exact h
  | failure h₁ =>
      rw [hp] at h hplaced
      have hexact : h₁.Exact := hplaced.hints.exact
      obtain ⟨k, hk⟩ := hexact.exists_furthest (hplaced.ne_nil rfl)
      obtain rfl : n = k := by simpa [hk, Outcome.hints] using h
      exact hexact.mem_offsets hk

/-- The loop of a repetition has its hints from before, or from one of its passes. -/
theorem hinted_of_runMany {bound : List Char} {h : Hints} {values : List α}
    (hn : n ∈ (runMany (p.run call) bound c h values).hints.offsets) :
    n ∈ h.offsets ∨ ∃ m, AdvancesTo call p c m ∧ Hinted call p m n := by
  have hjoin {c : Cursor} {o : Outcome α} {h : Hints} (hrun : p.run call c = o)
      (hn : n ∈ (h.join o.hints).offsets) :
      n ∈ h.offsets ∨ ∃ m, AdvancesTo call p c m ∧ Hinted call p m n := by
    rw [Hints.offsets_join, List.mem_append] at hn
    exact hn.imp_right fun hn ↦ ⟨c, .refl, by rwa [Hinted, hrun]⟩
  fun_induction runMany (p.run call) bound c h values with
  | case1 => cases hn
  | case2 _ c _ c' a _ hrun hlt _ _ ih =>
      rcases ih hn with hn | ⟨m, hm, hhint⟩
      · exact hjoin hrun hn
      · exact .inr ⟨m, .head ⟨a, ⟨_, hrun⟩, hlt⟩ hm, hhint⟩
  | case3 _ _ _ _ _ _ _ hrun _ => exact hjoin hrun hn
  | case4 _ _ _ _ _ hrun => exact hjoin hrun hn
  | case5 => cases hn

/-- What a repetition expects is expected by one of its passes. -/
theorem Hinted.of_many (h : Hinted call p.many c n) :
    ∃ m, AdvancesTo call p c m ∧ Hinted call p m n :=
  (hinted_of_runMany h).resolve_left List.not_mem_nil

/-- A hint of a chain is one of its first operand, or of a step behind some that were taken. -/
theorem Hinted.of_both_many (h : Hinted call (p.both q.many) c n) : Hinted call p c n ∨
    ∃ m a m', Reads call p c m a ∧ AdvancesTo call q m m' ∧ Hinted call q m' n := by
  refine h.of_both.imp_right ?_
  rintro ⟨m, a, hread, hmany⟩
  obtain ⟨m', hadvances, hn⟩ := hmany.of_many
  exact ⟨m, a, m', hread, hadvances, hn⟩

end Laws

/-! ### Tokens and lexemes -/

section Lexemes

variable {p : Parser V α}

/-- Blanks are never expected at a place of the text. -/
theorem not_hinted_blanks (hc : c.rest = .chars cs) :
    ¬ Hinted call (blanks : Parser V Unit) c n := by
  intro h
  obtain ⟨-, hrejects⟩ := h.of_map.of_token
  have hnone := (rejects_token hc).mp hrejects
  cases hnone

variable (hcall : Forward call)
include hcall

/-- In a text, what is left after reading is text again. -/
theorem Reads.exists_rest {a : α} (h : Reads call p c c' a) (hc : c.rest = .chars cs) :
    ∃ r, c'.rest = .chars r := by
  obtain ⟨w, r, -, rfl⟩ := (Cursor.reaches_iff hc).mp (h.reaches hcall)
  exact ⟨r, rfl⟩

/-- The blanks behind a token are never expected. -/
theorem Hinted.of_lexeme (hc : c.rest = .chars cs) (h : Hinted call p.lexeme c n) :
    Hinted call p c n := by
  rcases h.of_first with hn | ⟨m, a, hread, hn⟩
  · exact hn
  · obtain ⟨r, hr⟩ := hread.exists_rest hcall hc
    exact absurd hn (not_hinted_blanks hr)

/-- A symbol is expected where it stands. -/
theorem Hinted.of_symbol {s : String} (hc : c.rest = .chars cs)
    (h : Hinted call (symbol s : Parser V String) c n) : n = c.offset :=
  (h.of_lexeme hcall hc).of_token.1

end Lexemes

end Parser

end Parsing

end ZPlane
