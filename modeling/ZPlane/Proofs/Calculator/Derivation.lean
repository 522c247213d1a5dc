import Mathlib
import ZPlane.Calculator.Expr
import ZPlane.Proofs.Parsing.Boundary

/-!
# Derivations of expressions

`Derives L cs r e` says that a phrase of the level `L` goes from the first character of `cs` up to
`r`, and that it says `e`.  It knows nothing of the parser: tokens are the longest of their language,
blanks are skipped behind a token, and the levels with operators are left recursive.

The phrase ends right behind its last token, so what follows it can be cut off
(`Derives.exists_cut`), and neither end of it is a blank (`Derives.leaves`, `Derives.begins`).

What a phrase is worth is said by the rules of `Evaluates`, one for each form of the expression.  An
operator takes the phrase before it as its first argument and a sign the phrase behind it, so chains
are folded from the left and signs from the inside.
-/

namespace ZPlane

namespace Calculator

open Parsing
open Text (Leaves skip)

/-- The levels of precedence, the tightest first. -/
inductive Level where
  | term | juxtaposed | signed | power | product | sum
deriving DecidableEq

/-- The next tighter level. -/
def Level.tighter : Level → Level
  | term => term
  | juxtaposed => term
  | signed => juxtaposed
  | power => signed
  | product => power
  | sum => product

/-- The level of the operator. -/
def BinaryFn.level : BinaryFn → Level
  | pow => .power
  | mul | div | mod => .product
  | add | sub => .sum

/-- An operator is one character, and none of a word. -/
theorem BinaryFn.exists_symbol (f : BinaryFn) :
    ∃ c, f.symbol.toList = [c] ∧ isWord c = false := by
  cases f <;> exact ⟨_, rfl, rfl⟩

/-- The functions that are written as signs. -/
def UnaryFn.signs : List UnaryFn := [.identity, .negate]

/-- The phrases of each level, with what they say.  Phrases with an operator or side by side have a
left part of their own level, and a right part of the next tighter one. -/
inductive Derives : Level → List Char → List Char → Expr → Prop
  | number {cs r : List Char} {n : Numeral} : Longest IsNumeral cs n.text r →
      Derives .term cs r (.number n.value)
  | constant {cs r : List Char} {k : Constant} : Longest IsName cs k.name.toList r →
      Derives .term cs r (.constant k)
  /-- A name is that of a function if it is not that of a constant. -/
  | call {cs r₀ r₁ r₂ r : List Char} {f : UnaryFn} {a : Expr} :
      Longest IsName cs f.name.toList r₀ → (∀ k : Constant, k.name ≠ f.name) →
      skip r₀ = '(' :: r₁ → Derives .sum (skip r₁) r₂ a → skip r₂ = ')' :: r →
      Derives .term cs r (.call f a)
  | call₂ {cs r₀ r₁ r₂ r₃ r₄ r : List Char} {f : BinaryFn} {a b : Expr} :
      Longest IsName cs f.name.toList r₀ → (∀ k : Constant, k.name ≠ f.name) →
      skip r₀ = '(' :: r₁ → Derives .sum (skip r₁) r₂ a → skip r₂ = ',' :: r₃ →
      Derives .sum (skip r₃) r₄ b → skip r₄ = ')' :: r →
      Derives .term cs r (.call₂ f a b)
  | parenthesised {r₁ r₂ r : List Char} {a : Expr} :
      Derives .sum (skip r₁) r₂ a → skip r₂ = ')' :: r → Derives .term ('(' :: r₁) r a
  | juxtaposed {cs r₁ r : List Char} {a b : Expr} :
      Derives .juxtaposed cs r₁ a → Derives .term (skip r₁) r b →
      Derives .juxtaposed cs r (.juxtaposed a b)
  | signed {r₁ r : List Char} {f : UnaryFn} {a : Expr} : f ∈ UnaryFn.signs →
      Derives .signed (skip r₁) r a → Derives .signed (f.name.toList ++ r₁) r (.signed f a)
  | operated {cs r₁ r₂ r : List Char} {f : BinaryFn} {a b : Expr} :
      Derives f.level cs r₁ a → skip r₁ = f.symbol.toList ++ r₂ →
      Derives f.level.tighter (skip r₂) r b → Derives f.level cs r (.operated f a b)
  | tighter {L : Level} {cs r : List Char} {e : Expr} : Derives L.tighter cs r e → Derives L cs r e

/-! ### What expressions are worth -/

/-- An expression evaluates to a number: numerals and constants to what they stand for, all else to
what the function gives for the values of its arguments.  Terms side by side are multiplied. -/
inductive Evaluates : Expr → Complex Binary64 → Prop
  | number (x : Binary64) : Evaluates (.number x) ⟨x, 0⟩
  | constant (k : Constant) : Evaluates (.constant k) k.value
  | call {f : UnaryFn} {a : Expr} {z : Complex Binary64} :
      Evaluates a z → Evaluates (.call f a) (f.apply z)
  | call₂ {f : BinaryFn} {a b : Expr} {z w : Complex Binary64} :
      Evaluates a z → Evaluates b w → Evaluates (.call₂ f a b) (f.apply z w)
  | juxtaposed {a b : Expr} {z w : Complex Binary64} :
      Evaluates a z → Evaluates b w → Evaluates (.juxtaposed a b) (BinaryFn.mul.apply z w)
  | signed {f : UnaryFn} {a : Expr} {z : Complex Binary64} :
      Evaluates a z → Evaluates (.signed f a) (f.apply z)
  | operated {f : BinaryFn} {a b : Expr} {z w : Complex Binary64} :
      Evaluates a z → Evaluates b w → Evaluates (.operated f a b) (f.apply z w)

/-- Every expression evaluates to its value. -/
theorem evaluates_value (e : Expr) : Evaluates e e.value := by
  induction e with
  | number x => exact .number x
  | constant k => exact .constant k
  | call f a ih => exact .call ih
  | call₂ f a b iha ihb => exact .call₂ iha ihb
  | juxtaposed a b iha ihb => exact .juxtaposed iha ihb
  | signed f a ih => exact .signed ih
  | operated f a b iha ihb => exact .operated iha ihb

/-- And to nothing else. -/
theorem Evaluates.value_eq {e : Expr} {z : Complex Binary64} (h : Evaluates e z) : e.value = z := by
  induction h with
  | number | constant => rfl
  | call _ ih | signed _ ih => rw [Expr.value, ih]
  | call₂ _ _ iha ihb | juxtaposed _ _ iha ihb | operated _ _ iha ihb => rw [Expr.value, iha, ihb]

variable {L : Level} {cs r : List Char} {e : Expr}

/-! ### Cutting off what follows -/

/-- A phrase does not depend on what follows the characters behind it. -/
theorem Derives.exists_cut {s : List Char} (h : Derives L cs (r ++ s) e) :
    ∃ cs', cs = cs' ++ s ∧ Derives L cs' r e := by
  generalize hr : r ++ s = r' at h
  induction h generalizing r with
  | number hn =>
      subst hr
      obtain ⟨cs, rfl, hn'⟩ := hn.exists_cut
      exact ⟨cs, rfl, .number hn'⟩
  | constant hk =>
      subst hr
      obtain ⟨cs, rfl, hk'⟩ := hk.exists_cut
      exact ⟨cs, rfl, .constant hk'⟩
  | call hf hk hopen _ hclose ih =>
      subst hr
      obtain ⟨r₂, rfl, hclose'⟩ := Text.exists_skip_cut (p := ')' :: r) hclose
      obtain ⟨t, ht, ha⟩ := ih rfl
      obtain ⟨r₁, rfl, rfl⟩ := Text.exists_skip_cut ht
      obtain ⟨r₀, rfl, hopen'⟩ := Text.exists_skip_cut (p := '(' :: r₁) hopen
      obtain ⟨cs, rfl, hf'⟩ := hf.exists_cut
      exact ⟨cs, rfl, .call hf' hk hopen' ha hclose'⟩
  | call₂ hf hk hopen _ hcomma _ hclose iha ihb =>
      subst hr
      obtain ⟨r₄, rfl, hclose'⟩ := Text.exists_skip_cut (p := ')' :: r) hclose
      obtain ⟨u, hu, hb⟩ := ihb rfl
      obtain ⟨r₃, rfl, rfl⟩ := Text.exists_skip_cut hu
      obtain ⟨r₂, rfl, hcomma'⟩ := Text.exists_skip_cut (p := ',' :: r₃) hcomma
      obtain ⟨t, ht, ha⟩ := iha rfl
      obtain ⟨r₁, rfl, rfl⟩ := Text.exists_skip_cut ht
      obtain ⟨r₀, rfl, hopen'⟩ := Text.exists_skip_cut (p := '(' :: r₁) hopen
      obtain ⟨cs, rfl, hf'⟩ := hf.exists_cut
      exact ⟨cs, rfl, .call₂ hf' hk hopen' ha hcomma' hb hclose'⟩
  | parenthesised _ hclose ih =>
      subst hr
      obtain ⟨r₂, rfl, hclose'⟩ := Text.exists_skip_cut (p := ')' :: r) hclose
      obtain ⟨t, ht, ha⟩ := ih rfl
      obtain ⟨r₁, rfl, rfl⟩ := Text.exists_skip_cut ht
      exact ⟨'(' :: r₁, rfl, .parenthesised ha hclose'⟩
  | juxtaposed _ _ iha ihb =>
      obtain ⟨t, ht, hb⟩ := ihb hr
      obtain ⟨r₁, rfl, rfl⟩ := Text.exists_skip_cut ht
      obtain ⟨cs, rfl, ha⟩ := iha rfl
      exact ⟨cs, rfl, .juxtaposed ha hb⟩
  | signed hf _ ih =>
      obtain ⟨t, ht, ha⟩ := ih hr
      obtain ⟨r₁, rfl, rfl⟩ := Text.exists_skip_cut ht
      exact ⟨_, (List.append_assoc _ _ _).symm, .signed hf ha⟩
  | operated _ hop _ iha ihb =>
      obtain ⟨t, ht, hb⟩ := ihb hr
      obtain ⟨r₂, rfl, rfl⟩ := Text.exists_skip_cut ht
      rw [← List.append_assoc] at hop
      obtain ⟨r₁, rfl, hop'⟩ := Text.exists_skip_cut hop
      obtain ⟨cs, rfl, ha⟩ := iha rfl
      exact ⟨cs, rfl, .operated ha hop' hb⟩
  | tighter _ ih =>
      obtain ⟨cs, rfl, h'⟩ := ih hr
      exact ⟨cs, rfl, .tighter h'⟩

/-! ### Both ends -/

/-- A phrase ends with a character that is no blank. -/
theorem Derives.leaves (h : Derives L cs r e) : Leaves cs r := by
  induction h with
  | number hn => exact hn.leaves_of_numeral
  | constant hk => exact hk.leaves_of_name
  | call hf _ hopen _ hclose ih =>
      exact hf.leaves_of_name.trans ((Leaves.of_skip_eq hopen).trans
        (ih.of_skip.trans (Leaves.of_skip_eq hclose)))
  | call₂ hf _ hopen _ hcomma _ hclose iha ihb =>
      exact hf.leaves_of_name.trans ((Leaves.of_skip_eq hopen).trans
        (iha.of_skip.trans ((Leaves.of_skip_eq hcomma).trans
          (ihb.of_skip.trans (Leaves.of_skip_eq hclose)))))
  | parenthesised _ hclose ih =>
      exact (ih.of_skip.trans (Leaves.of_skip_eq hclose)).of_suffix (List.suffix_cons _ _)
  | juxtaposed _ _ iha ihb => exact iha.trans ihb.of_skip
  | signed _ _ ih => exact ih.of_skip.of_suffix (List.suffix_append _ _)
  | @operated _ _ _ _ f _ _ _ hop _ iha ihb =>
      obtain ⟨c, hc, -⟩ := f.exists_symbol
      rw [hc] at hop
      exact iha.trans ((Leaves.of_skip_eq hop).trans ihb.of_skip)
  | tighter _ ih => exact ih

/-- The characters that a term begins with. -/
def startsTerm (c : Char) : Bool := isWord c || c = '('

/-- The characters that a phrase of the level begins with. -/
def Level.begins : Level → Char → Bool
  | term, c | juxtaposed, c => startsTerm c
  | _, c => startsTerm c || c = '+' || c = '-'

/-- A phrase may begin with whatever phrases of the tighter level begin with. -/
theorem Level.begins_of_tighter {c : Char} (h : L.tighter.begins c = true) : L.begins c = true := by
  cases L with
  | term | juxtaposed | power | product | sum => exact h
  | signed => simp_all [begins, tighter]

/-- A phrase begins with one of the characters of its level. -/
theorem Derives.begins (h : Derives L cs r e) : ∃ c t, cs = c :: t ∧ L.begins c = true := by
  have hname {cs t r : List Char} (h : Longest IsName cs t r) :
      ∃ c u, cs = c :: u ∧ startsTerm c = true := by
    obtain ⟨c, u, rfl, hc⟩ := h.mem.exists_first
    exact ⟨c, _, h.append, by simp [startsTerm, hc]⟩
  induction h with
  | @number _ _ n hn =>
      obtain ⟨c, t, hc, hdigit⟩ := n.exists_first
      rw [hn.append, hc]
      exact ⟨c, _, rfl, by simp [Level.begins, startsTerm, isWord_of_isDigit hdigit]⟩
  | constant hk => exact hname hk
  | call hf => exact hname hf
  | call₂ hf => exact hname hf
  | parenthesised => exact ⟨'(', _, rfl, rfl⟩
  | juxtaposed _ _ ih => exact ih
  | signed hf =>
      simp only [UnaryFn.signs, List.mem_cons, List.not_mem_nil, or_false] at hf
      rcases hf with rfl | rfl
      · exact ⟨'+', _, rfl, rfl⟩
      · exact ⟨'-', _, rfl, rfl⟩
  | operated _ _ _ ih => exact ih
  | tighter _ ih =>
      obtain ⟨c, t, rfl, hc⟩ := ih
      exact ⟨c, t, rfl, Level.begins_of_tighter hc⟩

/-- No phrase begins with a blank. -/
theorem Level.not_isBlank_of_begins {c : Char} (h : L.begins c = true) :
    Text.isBlank c = false := by
  have hterm (h : startsTerm c = true) : Text.isBlank c = false := by
    simp only [startsTerm, Bool.or_eq_true, decide_eq_true_eq] at h
    rcases h with h | rfl
    · exact isBlank_of_isWord h
    · rfl
  cases L with
  | term | juxtaposed => exact hterm h
  | signed | power | product | sum =>
      simp only [begins, Bool.or_eq_true, decide_eq_true_eq] at h
      rcases h with (h | rfl) | rfl
      · exact hterm h
      · rfl
      · rfl

/-- Nothing is skipped before a phrase. -/
theorem Derives.skip_eq (h : Derives L cs r e) : skip cs = cs := by
  obtain ⟨c, t, rfl, hc⟩ := h.begins
  exact Text.skip_cons_of_not_isBlank (Level.not_isBlank_of_begins hc) t

end Calculator

end ZPlane
