import Mathlib
import ZPlane.Proofs.Calculator.Completeness

/-!
# Rendered expressions

A tree is an expression as it is written, down to the digits of its numbers.  It is rendered as
tokens, with parentheses around a part only where that is looser than its place (`Tree.tokens`), and
the tokens as text, with any blanks behind each (`Spaced`).  Two tokens of word characters need a
blank between them: that is what keeps the exponent of `2e+3` apart from the sum `2 e + 3`.

The value of a tree is what its functions give for the values of its parts (`Tree.value`).  Rendered
text is a phrase that says the tree (`derives_of_spaced`), so it is calculated to the value of the
tree.
-/

namespace ZPlane

namespace Calculator

open Parsing
open Text (isBlank skip)

/-! ### Trees -/

/-- An expression as it is written.  A function with arguments is none of the signs. -/
inductive Tree where
  | number (n : Numeral)
  | constant (k : Constant)
  | call (f : UnaryFn) (hf : f ∉ UnaryFn.signs) (a : Tree)
  | call₂ (f : BinaryFn) (a b : Tree)
  | juxtaposed (a b : Tree)
  | signed (f : UnaryFn) (hf : f ∈ UnaryFn.signs) (a : Tree)
  | operated (f : BinaryFn) (a b : Tree)

namespace Tree

/-- What the tree says. -/
def expr : Tree → Expr
  | number n => .number n.value
  | constant k => .constant k
  | call f _ a => .call f a.expr
  | call₂ f a b => .call₂ f a.expr b.expr
  | juxtaposed a b => .juxtaposed a.expr b.expr
  | signed f _ a => .signed f a.expr
  | operated f a b => .operated f a.expr b.expr

/-- The value of the tree, by the functions on the values of the parts. -/
def value : Tree → Complex Binary64
  | number n => ⟨n.value, 0⟩
  | constant k => k.value
  | call f _ a | signed f _ a => f.apply a.value
  | call₂ f a b | operated f a b => f.apply a.value b.value
  | juxtaposed a b => BinaryFn.mul.apply a.value b.value

/-- What the tree says evaluates to the value of the tree. -/
theorem evaluates (t : Tree) : Evaluates t.expr t.value := by
  induction t with
  | number n => exact .number n.value
  | constant k => exact .constant k
  | call f hf a ih => exact .call ih
  | call₂ f a b iha ihb => exact .call₂ iha ihb
  | juxtaposed a b iha ihb => exact .juxtaposed iha ihb
  | signed f hf a ih => exact .signed ih
  | operated f a b iha ihb => exact .operated iha ihb

/-- The level that the tree is written at without parentheses. -/
def level : Tree → Level
  | number _ | constant _ | call _ _ _ | call₂ _ _ _ => .term
  | juxtaposed _ _ => .juxtaposed
  | signed _ _ _ => .signed
  | operated f _ _ => f.level

end Tree

/-- The place of a level among the others. -/
def Level.rank : Level → Nat
  | term => 0
  | juxtaposed => 1
  | signed => 2
  | power => 3
  | product => 4
  | sum => 5

/-! ### Tokens -/

/-- The symbols of the grammar. -/
def IsSymbol (t : List Char) : Prop := ∃ c ∈ "(),^*/%+-".toList, t = [c]

inductive Token where
  | number (n : Numeral)
  | name (t : List Char) (ht : IsName t)
  | symbol (t : List Char) (ht : IsSymbol t)

namespace Token

def text : Token → List Char
  | number n => n.text
  | name t _ | symbol t _ => t

/-- The token is of word characters, and another such token next to it would go on with it. -/
def isWord : Token → Bool
  | number _ | name _ _ => true
  | symbol _ _ => false

end Token

/-- Word characters, one at least, are a name. -/
theorem isName_of_all {t : List Char} (h : (!t.isEmpty && t.all Parsing.isWord) = true) :
    IsName t := by
  simp only [Bool.and_eq_true, Bool.not_eq_true', List.isEmpty_eq_false_iff, List.all_eq_true] at h
  exact h

theorem Constant.isName (k : Constant) : IsName k.name.toList := by
  cases k <;> exact isName_of_all rfl

/-- A function that is no sign is written as a name. -/
theorem UnaryFn.isName {f : UnaryFn} (hf : f ∉ signs) : IsName f.name.toList := by
  cases f with
  | identity | negate => exact absurd (by simp [signs]) hf
  | _ => exact isName_of_all rfl

theorem BinaryFn.isName (f : BinaryFn) : IsName f.name.toList := by
  cases f <;> exact isName_of_all rfl

/-- A sign is written as a symbol. -/
theorem UnaryFn.isSymbol {f : UnaryFn} (hf : f ∈ signs) : IsSymbol f.name.toList := by
  simp only [signs, List.mem_cons, List.not_mem_nil, or_false] at hf
  rcases hf with rfl | rfl
  · exact ⟨'+', by simp, rfl⟩
  · exact ⟨'-', by simp, rfl⟩

theorem BinaryFn.isSymbol (f : BinaryFn) : IsSymbol f.symbol.toList := by
  cases f with
  | add => exact ⟨'+', by simp, rfl⟩
  | sub => exact ⟨'-', by simp, rfl⟩
  | mul => exact ⟨'*', by simp, rfl⟩
  | div => exact ⟨'/', by simp, rfl⟩
  | mod => exact ⟨'%', by simp, rfl⟩
  | pow => exact ⟨'^', by simp, rfl⟩

namespace Token

def opening : Token := symbol ['('] ⟨'(', by simp, rfl⟩

def closing : Token := symbol [')'] ⟨')', by simp, rfl⟩

def comma : Token := symbol [','] ⟨',', by simp, rfl⟩

/-- What is written at a level, in a place for phrases of the level `L`. -/
def within (L level : Level) (ts : List Token) : List Token :=
  if level.rank ≤ L.rank then ts else opening :: (ts ++ [closing])

end Token

open Token (opening closing comma within)

/-- The tokens of a tree, with as few parentheses as there can be. -/
def Tree.tokens : Tree → List Token
  | number n => [.number n]
  | constant k => [.name k.name.toList k.isName]
  | call f hf a => .name f.name.toList (f.isName hf) :: opening :: (a.tokens ++ [closing])
  | call₂ f a b => .name f.name.toList f.isName :: opening ::
      (a.tokens ++ comma :: (b.tokens ++ [closing]))
  | juxtaposed a b => within .juxtaposed a.level a.tokens ++ within .term b.level b.tokens
  | signed f hf a => .symbol f.name.toList (f.isSymbol hf) :: within .signed a.level a.tokens
  | operated f a b => within f.level a.level a.tokens ++
      .symbol f.symbol.toList f.isSymbol :: within f.level.tighter b.level b.tokens

/-! ### Blanks between the tokens -/

/-- The text is the tokens in a row, each with blanks behind it: at least one between two tokens of
word characters. -/
inductive Spaced : List Token → List Char → Prop
  | nil : Spaced [] []
  | cons {t : Token} {ts : List Token} {bs cs : List Char} : (∀ c ∈ bs, isBlank c = true) →
      (t.isWord = true → (∀ u ∈ ts.head?, u.isWord = true → bs ≠ [])) → Spaced ts cs →
      Spaced (t :: ts) (t.text ++ (bs ++ cs))

section Spacing

variable {t : Token} {ts us : List Token} {cs r : List Char}

/-- A symbol is no blank, no word character and no point. -/
theorem symbol_character {c : Char} (hc : c ∈ "(),^*/%+-".toList) :
    isBlank c = false ∧ isWord c = false ∧ c ≠ '.' := by
  have hall : "(),^*/%+-".toList.all (fun c ↦ !isBlank c && (!isWord c && c != '.')) = true := rfl
  have := List.all_eq_true.mp hall c hc
  simpa only [Bool.and_eq_true, Bool.not_eq_true', bne_iff_ne] using this

/-- A blank is no word character and no point. -/
theorem blank_character {c : Char} (hc : isBlank c = true) : isWord c = false ∧ c ≠ '.' := by
  refine ⟨Bool.eq_false_iff.mpr fun hword ↦ ?_, ?_⟩
  · rw [isBlank_of_isWord hword] at hc
    cases hc
  · rintro rfl
    cases hc

/-- A token begins with a character that is no blank, and a symbol ends a word. -/
theorem Token.exists_first (t : Token) : ∃ c u, t.text = c :: u ∧ isBlank c = false ∧
    (t.isWord = false → Parsing.isWord c = false ∧ c ≠ '.') := by
  cases t with
  | number n =>
      obtain ⟨c, u, hc, hdigit⟩ := n.exists_first
      exact ⟨c, u, hc, isBlank_of_isWord (isWord_of_isDigit hdigit), by simp [isWord]⟩
  | name t ht =>
      obtain ⟨c, u, rfl, hc⟩ := ht.exists_first
      exact ⟨c, u, rfl, isBlank_of_isWord hc, by simp [isWord]⟩
  | symbol t ht =>
      obtain ⟨c, hc, rfl⟩ := ht
      obtain ⟨hblank, hword⟩ := symbol_character hc
      exact ⟨c, [], rfl, hblank, fun _ ↦ hword⟩

/-- No blanks come before the first token. -/
theorem Spaced.skip_eq (h : Spaced ts cs) : skip cs = cs := by
  cases h with
  | nil => rfl
  | @cons t _ _ _ _ _ _ =>
      obtain ⟨c, u, hc, hblank, -⟩ := t.exists_first
      rw [hc]
      exact Text.skip_cons_of_not_isBlank hblank _

/-- Behind the first token the others go on after blanks, and no word goes on with a word. -/
theorem Spaced.exists_rest (h : Spaced (t :: ts) cs) : ∃ r, cs = t.text ++ r ∧ Spaced ts (skip r) ∧
    (t.isWord = true → ∀ d ∈ r.head?, Parsing.isWord d = false ∧ d ≠ '.') := by
  cases h with
  | @cons _ _ bs cs hbs hgap hts =>
      refine ⟨bs ++ cs, rfl, ?_, ?_⟩
      · rw [Text.skip_append_of_isBlank hbs, hts.skip_eq]
        exact hts
      · intro hword d hd
        cases bs with
        | cons b bs =>
            cases hd
            exact blank_character (hbs _ List.mem_cons_self)
        | nil =>
            cases hts with
            | nil => cases hd
            | @cons u _ _ _ _ _ _ =>
                obtain ⟨c, v, hc, -, hsymbol⟩ := u.exists_first
                rw [hc] at hd
                cases hd
                exact hsymbol (Bool.eq_false_iff.mpr fun hu ↦ hgap hword u rfl hu rfl)

end Spacing

/-! ### Rendered text is derived -/

theorem Level.rank_injective {L M : Level} (h : L.rank = M.rank) : L = M := by
  cases L <;> cases M <;> simp_all [rank]

theorem Level.rank_le (L : Level) : L.rank ≤ sum.rank := by
  cases L <;> decide

/-- No name is shared by a constant and a function. -/
theorem Constant.name_ne_unary (k : Constant) (f : UnaryFn) : k.name ≠ f.name := by
  cases k <;> cases f <;> decide

/-- No name is shared by a constant and a function of two arguments. -/
theorem Constant.name_ne_binary (k : Constant) (f : BinaryFn) : k.name ≠ f.name := by
  cases k <;> cases f <;> decide

/-- A phrase is one of each looser level. -/
theorem Derives.loosen {L M : Level} {cs r : List Char} {e : Expr} (h : Derives M cs r e)
    (hle : M.rank ≤ L.rank) : Derives L cs r e := by
  obtain ⟨n, hn⟩ := Nat.exists_eq_add_of_le hle
  induction n generalizing L with
  | zero => exact Level.rank_injective hn ▸ h
  | succ n ih =>
      have htighter : L.tighter.rank = M.rank + n := by
        cases L <;> simp only [Level.rank, Level.tighter] at hn ⊢ <;> omega
      exact .tighter (ih (by omega) htighter)

section Derivation

variable {us : List Token} {cs r : List Char}

/-- The rest of a derivation at a place, from one of what is written there. -/
theorem derives_of_within {L M : Level} {ts : List Token} {e : Expr}
    (ih : ∀ {us cs}, Spaced (ts ++ us) cs → ∃ r, Derives M cs r e ∧ Spaced us (skip r))
    (h : Spaced (within L M ts ++ us) cs) : ∃ r, Derives L cs r e ∧ Spaced us (skip r) := by
  rw [within] at h
  split at h
  · obtain ⟨r, he, hus⟩ := ih h
    exact ⟨r, he.loosen ‹_›, hus⟩
  · rw [List.cons_append, List.append_assoc] at h
    obtain ⟨r₁, rfl, h₁, -⟩ := h.exists_rest
    obtain ⟨r₂, he, h₂⟩ := ih h₁
    obtain ⟨r, hr₂, hus, -⟩ := h₂.exists_rest
    have hsum : Derives .sum (skip r₁) r₂ e := he.loosen M.rank_le
    have hterm : Derives .term ('(' :: r₁) r e := .parenthesised hsum hr₂
    exact ⟨r, hterm.loosen (Nat.zero_le _), hus⟩

/-- The tokens of a tree, with blanks behind each, are a phrase that says the tree. -/
theorem derives_of_spaced (t : Tree) (h : Spaced (t.tokens ++ us) cs) :
    ∃ r, Derives t.level cs r t.expr ∧ Spaced us (skip r) := by
  induction t generalizing us cs with
  | number n =>
      obtain ⟨r, rfl, hus, hend⟩ := h.exists_rest
      exact ⟨r, .number (n.longest_text (hend rfl)), hus⟩
  | constant k =>
      obtain ⟨r, rfl, hus, hend⟩ := h.exists_rest
      exact ⟨r, .constant (k.isName.longest fun d hd ↦ (hend rfl d hd).1), hus⟩
  | call f hf a ih =>
      rw [Tree.tokens, List.cons_append, List.cons_append, List.append_assoc] at h
      obtain ⟨r₀, rfl, h₀, hend⟩ := h.exists_rest
      obtain ⟨r₁, hr₀, h₁, -⟩ := h₀.exists_rest
      obtain ⟨r₂, ha, h₂⟩ := ih h₁
      obtain ⟨r, hr₂, hus, -⟩ := h₂.exists_rest
      have hname := (f.isName hf).longest fun d hd ↦ (hend rfl d hd).1
      exact ⟨r, .call hname (fun k ↦ k.name_ne_unary f) hr₀ (ha.loosen a.level.rank_le) hr₂, hus⟩
  | call₂ f a b iha ihb =>
      rw [Tree.tokens, List.cons_append, List.cons_append, List.append_assoc, List.cons_append,
        List.append_assoc] at h
      obtain ⟨r₀, rfl, h₀, hend⟩ := h.exists_rest
      obtain ⟨r₁, hr₀, h₁, -⟩ := h₀.exists_rest
      obtain ⟨r₂, ha, h₂⟩ := iha h₁
      obtain ⟨r₃, hr₂, h₃, -⟩ := h₂.exists_rest
      obtain ⟨r₄, hb, h₄⟩ := ihb h₃
      obtain ⟨r, hr₄, hus, -⟩ := h₄.exists_rest
      have hname := f.isName.longest fun d hd ↦ (hend rfl d hd).1
      exact ⟨r, .call₂ hname (fun k ↦ k.name_ne_binary f) hr₀ (ha.loosen a.level.rank_le) hr₂
        (hb.loosen b.level.rank_le) hr₄, hus⟩
  | juxtaposed a b iha ihb =>
      rw [Tree.tokens, List.append_assoc] at h
      obtain ⟨r₁, ha, h₁⟩ := derives_of_within iha h
      obtain ⟨r, hb, hus⟩ := derives_of_within ihb h₁
      exact ⟨r, .juxtaposed ha hb, hus⟩
  | signed f hf a ih =>
      obtain ⟨r₁, rfl, h₁, -⟩ := h.exists_rest
      obtain ⟨r, ha, hus⟩ := derives_of_within ih h₁
      exact ⟨r, .signed hf ha, hus⟩
  | operated f a b iha ihb =>
      rw [Tree.tokens, List.append_assoc] at h
      obtain ⟨r₁, ha, h₁⟩ := derives_of_within iha h
      obtain ⟨r₂, hr₁, h₂, -⟩ := h₁.exists_rest
      obtain ⟨r, hb, hus⟩ := derives_of_within ihb h₂
      exact ⟨r, .operated ha hr₁ hb, hus⟩

end Derivation

/-- Every rendering of a tree is calculated to the value of the tree. -/
theorem calculate_rendered (t : Tree) {bs cs : List Char} (hbs : ∀ c ∈ bs, isBlank c = true)
    (h : Spaced t.tokens cs) : calculate (String.ofList (bs ++ cs)) = .ok t.value := by
  have hspaced : Spaced (t.tokens ++ []) cs := by rwa [List.append_nil]
  obtain ⟨r, he, hr⟩ := derives_of_spaced t hspaced
  rw [← t.evaluates.value_eq]
  refine calculate_of_denotes ⟨r, ?_, ?_⟩
  · rw [String.toList_ofList, Text.skip_append_of_isBlank hbs, h.skip_eq]
    exact he.loosen t.level.rank_le
  · generalize skip r = rest at hr
    cases hr
    rfl

/-- A number of one digit. -/
def digitNumeral (c : Char) (hc : c.isDigit = true) : Numeral where
  whole := [c]
  fraction := none
  exponent := none
  whole_isDigit := by simpa using hc
  whole_ne_nil := List.cons_ne_nil _ _
  fraction_isDigit := by simp

/-- With a blank in front of the letter, `2 e-(3-4)` is a difference and `2e` no beginning of a
number. -/
def spacedTree : Tree :=
  .operated .sub (.juxtaposed (.number (digitNumeral '2' rfl)) (.constant .e))
    (.operated .sub (.number (digitNumeral '3' rfl)) (.number (digitNumeral '4' rfl)))

theorem spaced_spacedTree :
    Spaced spacedTree.tokens ['2', '\u00a0', 'e', '-', '(', '3', '-', '4', ')'] := by
  have htokens : spacedTree.tokens = [.number (digitNumeral '2' rfl), .name _ Constant.e.isName,
      .symbol _ BinaryFn.sub.isSymbol, opening, .number (digitNumeral '3' rfl),
      .symbol _ BinaryFn.sub.isSymbol, .number (digitNumeral '4' rfl), closing] := rfl
  have hspace : ∀ c ∈ ['\u00a0'], isBlank c = true := by simp [isBlank, Text.blankRanges]
  have htight : ∀ c ∈ ([] : List Char), isBlank c = true := by simp
  have h₈ : Spaced [closing] [')'] := @Spaced.cons _ _ [] _ htight (by rintro ⟨⟩) .nil
  have h₇ : Spaced (.number (digitNumeral '4' rfl) :: _) ['4', ')'] :=
    @Spaced.cons _ _ [] _ htight (by rintro _ _ ⟨⟩ ⟨⟩) h₈
  have h₆ : Spaced (.symbol _ BinaryFn.sub.isSymbol :: _) ['-', '4', ')'] :=
    @Spaced.cons _ _ [] _ htight (by rintro ⟨⟩) h₇
  have h₅ : Spaced (.number (digitNumeral '3' rfl) :: _) ['3', '-', '4', ')'] :=
    @Spaced.cons _ _ [] _ htight (by rintro _ _ ⟨⟩ ⟨⟩) h₆
  have h₄ : Spaced (opening :: _) ['(', '3', '-', '4', ')'] :=
    @Spaced.cons _ _ [] _ htight (by rintro ⟨⟩) h₅
  have h₃ : Spaced (.symbol _ BinaryFn.sub.isSymbol :: _) ['-', '(', '3', '-', '4', ')'] :=
    @Spaced.cons _ _ [] _ htight (by rintro ⟨⟩) h₄
  have h₂ : Spaced (.name _ Constant.e.isName :: _) ['e', '-', '(', '3', '-', '4', ')'] :=
    @Spaced.cons _ _ [] _ htight (by rintro _ _ ⟨⟩ ⟨⟩) h₃
  rw [htokens]
  exact @Spaced.cons _ _ ['\u00a0'] _ hspace (fun _ _ _ _ ↦ List.cons_ne_nil _ _) h₂

/-- A tab before the first token and a blank of two bytes behind it make no difference. -/
theorem calculate_rendered_spaced : (∀ c ∈ ['\t'], isBlank c = true) ∧
    Spaced spacedTree.tokens ['2', '\u00a0', 'e', '-', '(', '3', '-', '4', ')'] ∧
    calculate (String.ofList (['\t'] ++ ['2', '\u00a0', 'e', '-', '(', '3', '-', '4', ')'])) =
      .ok spacedTree.value := by
  have htab : ∀ c ∈ ['\t'], isBlank c = true := by simp [isBlank, Text.blankRanges]
  exact ⟨htab, spaced_spacedTree, calculate_rendered spacedTree htab spaced_spacedTree⟩

end Calculator

end ZPlane
