import Mathlib
import ZPlane.Proofs.Parsing.Forward

/-!
# What holds of all values

`Yields` says that a property holds of whatever a parser reads from a place on.  The values of a
repetition or a list come from places further on, so the property of one item is that of all.
-/

namespace ZPlane

namespace Parsing

namespace Parser

variable {ρ : Type} {V : ρ → Type} {call : (r : ρ) → Cursor → Outcome (V r)}
variable {α β : Type} {o : Cursor} {p : Parser V α} {q : Parser V β}
  {P : α → Prop} {Q : β → Prop}

/-- Of whatever `p` reads from the place `o` on, `P` holds. -/
def Yields (call : (r : ρ) → Cursor → Outcome (V r)) (o : Cursor) (p : Parser V α)
    (P : α → Prop) : Prop :=
  ∀ ⦃c c' : Cursor⦄ ⦃a : α⦄, o.Reaches c → Reads call p c c' a → P a

namespace Yields

/-- Mapped values have the property that the function gives them. -/
theorem map {f : α → β} (hp : Yields call o p P) (hf : ∀ a, P a → Q (f a)) :
    Yields call o (p.map f) Q := by
  intro c c' b hc h
  obtain ⟨a, ha, rfl⟩ := reads_map.mp h
  exact hf a (hp hc ha)

theorem first (hp : Yields call o p P) : Yields call o (p.first q) P := by
  intro c c' a hc h
  obtain ⟨m, _, ha, -⟩ := reads_first.mp h
  exact hp hc ha

theorem optional (hp : Yields call o p P) : Yields call o p.optional fun x ↦ ∀ a ∈ x, P a := by
  intro c c' x hc h
  rcases reads_optional.mp h with ⟨a, ha, rfl⟩ | ⟨-, -, rfl⟩
  · rintro _ ⟨⟩
    exact hp hc ha
  · rintro _ ⟨⟩

variable (hcall : Forward call)
include hcall

/-- Of two parsers in a row the second one begins further on, and what it yields is kept. -/
theorem second (hq : Yields call o q Q) : Yields call o (p.second q) Q := by
  intro c c' b hc h
  obtain ⟨m, a, ha, hb⟩ := reads_second.mp h
  exact hq (hc.trans (ha.reaches hcall)) hb

/-- Two parsers in a row yield pairs of what each yields. -/
theorem both (hp : Yields call o p P) (hq : Yields call o q Q) :
    Yields call o (p.both q) fun x ↦ P x.1 ∧ Q x.2 := by
  intro c c' x hc h
  obtain ⟨m, ha, hb⟩ := reads_both.mp h
  exact ⟨hp hc ha, hq (hc.trans (ha.reaches hcall)) hb⟩

/-- A repetition yields only what each of its passes does. -/
theorem many (hp : Yields call o p P) : Yields call o p.many fun as ↦ ∀ a ∈ as, P a := by
  intro c c' as hc h
  have hrep := (reads_many hcall).mp h
  clear h
  induction hrep with
  | stop _ => exact fun _ ha ↦ absurd ha List.not_mem_nil
  | idle _ _ => exact fun _ ha ↦ absurd ha List.not_mem_nil
  | more ha _ _ ih =>
      intro b hb
      rcases List.mem_cons.mp hb with rfl | hb
      · exact hp hc ha
      · exact ih (hc.trans (ha.reaches hcall)) b hb

/-- Items with separators are what the item yields. -/
theorem sepBy (hp : Yields call o p P) : Yields call o (p.sepBy q) fun as ↦ ∀ a ∈ as, P a := by
  refine (both hcall hp (many hcall (second hcall hp))).map ?_
  rintro ⟨a, as⟩ ⟨ha, has⟩ b hb
  rcases List.mem_cons.mp hb with rfl | hb
  · exact ha
  · exact has b hb

end Yields

end Parser

end Parsing

end ZPlane
