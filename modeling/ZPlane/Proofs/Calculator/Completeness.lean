import Mathlib
import ZPlane.Proofs.Calculator.Soundness

/-!
# Completeness of the grammar

A repetition takes all that it can, so a parser reads a phrase only where nothing that follows could
go on with it (`Stops`), and a phrase with an operator is read as its left part with a step of the
repetition behind it.  `Complete` therefore says of a phrase that its parser reads whatever the
repetition of its level (`Loop`) makes of it from there on.  The induction is on the derivation, and
each parenthesis inside another is further on, which bounds the depth of rule calls.
-/

namespace ZPlane

namespace Calculator

open Parsing Parsing.Parser
open Text (skip)

/-! ### The parser of each level -/

/-- The operators of a level, `sum` for those without. -/
def operatorAt : Level → Parser (fun _ : Rule ↦ Expr) BinaryFn
  | .power => operator "^" "\\^"
  | .product => operator "*/%" "[*/%]"
  | _ => operator "+-" "[+-]"

def terms : Parser (fun _ : Rule ↦ Expr) Expr := term (.rule .expression)

def juxtapositions : Parser (fun _ : Rule ↦ Expr) Expr := terms.postfixed terms .juxtaposed

def signs : Parser (fun _ : Rule ↦ Expr) UnaryFn := sign "sign" "+-" "[+-]" UnaryFn.ofName?

def signeds : Parser (fun _ : Rule ↦ Expr) Expr := juxtapositions.prefixed signs .signed

def powers : Parser (fun _ : Rule ↦ Expr) Expr := signeds.chainLeft (operatorAt .power) .operated

def products : Parser (fun _ : Rule ↦ Expr) Expr := powers.chainLeft (operatorAt .product) .operated

/-- The parser of the phrases of a level. -/
def phrase : Level → Parser (fun _ : Rule ↦ Expr) Expr
  | .term => terms
  | .juxtaposed => juxtapositions
  | .signed => signeds
  | .power => powers
  | .product => products
  | .sum => products.chainLeft (operatorAt .sum) .operated

/-! ### What goes on with a phrase -/

/-- The characters that go on with a phrase of the level. -/
def Level.continues : Level → Char → Bool
  | term, _ => false
  | juxtaposed, c | signed, c => startsTerm c
  | power, c => startsTerm c || c = '^'
  | product, c => startsTerm c || c = '^' || c = '*' || c = '/' || c = '%'
  | sum, c => startsTerm c || c = '^' || c = '*' || c = '/' || c = '%' || c = '+' || c = '-'

/-- No phrase of the level goes on with the text. -/
def Stops (L : Level) (r : List Char) : Prop := ∀ c ∈ r.head?, L.continues c = false

/-- What stops a phrase stops the phrases of the tighter levels. -/
theorem Stops.tighter {L : Level} {r : List Char} (h : Stops L r) : Stops L.tighter r := by
  intro c hc
  have := h c hc
  cases L <;> simp_all [Level.continues, Level.tighter]

theorem stops_nil (L : Level) : Stops L [] := by
  rintro c ⟨⟩

theorem stops_cons {L : Level} {c : Char} (h : L.continues c = false) (r : List Char) :
    Stops L (c :: r) := by
  rintro _ ⟨⟩
  exact h

/-- The symbol of an operator stops its operands. -/
theorem stops_symbol (f : BinaryFn) (r : List Char) :
    Stops f.level.tighter (f.symbol.toList ++ r) := by
  cases f <;> exact stops_cons rfl r

theorem stops_close (L : Level) (r : List Char) : Stops L (')' :: r) := by
  cases L <;> exact stops_cons rfl r

theorem stops_comma (L : Level) (r : List Char) : Stops L (',' :: r) := by
  cases L <;> exact stops_cons rfl r

/-! ### Names and symbols -/

/-- A text that names no constant is not looked up as one. -/
theorem Constant.ofName?_eq_none {s : String} (h : ∀ k : Constant, k.name ≠ s) :
    ofName? s = none := by
  cases hk : ofName? s with
  | none => rfl
  | some k => exact absurd (name_of_ofName? hk) (h k)

/-- A function is found by its name. -/
theorem UnaryFn.ofName?_name (f : UnaryFn) : ofName? f.name = some f := by
  cases f <;> rfl

/-- A function of two arguments is found by its name. -/
theorem BinaryFn.ofName?_name (f : BinaryFn) : ofName? f.name = some f := by
  cases f <;> rfl

/-- No name is shared by functions of one and of two arguments. -/
theorem UnaryFn.ofName?_binary (f : BinaryFn) : ofName? f.name = none := by
  cases f <;> rfl

/-- The text begins with a character that is no digit, so with no number. -/
def NoDigit (s : String) : Prop := ∃ d u, s.toList = d :: u ∧ d.isDigit = false

theorem Constant.noDigit (k : Constant) : NoDigit k.name := by
  cases k <;> exact ⟨_, _, rfl, rfl⟩

theorem UnaryFn.noDigit (f : UnaryFn) : NoDigit f.name := by
  cases f <;> exact ⟨_, _, rfl, rfl⟩

theorem BinaryFn.noDigit (f : BinaryFn) : NoDigit f.name := by
  cases f <;> exact ⟨_, _, rfl, rfl⟩

section Rejections

variable {ρ : Type} {V : ρ → Type} {call : (r : ρ) → Cursor → Outcome (V r)}
variable {c c' : Cursor} {cs r : List Char}

/-- Where no digit stands there is no number. -/
theorem rejects_number_of_head (hc : c.rest = .chars cs) (h : ∀ d ∈ cs.head?, d.isDigit = false) :
    Rejects call (number : Parser V Binary64).lexeme c := by
  refine rejects_number hc fun t r ht ↦ ?_
  obtain ⟨n, rfl⟩ := ht.mem
  obtain ⟨d, u, hd, hdigit⟩ := n.exists_first
  rw [h d (by rw [ht.append, hd]; rfl)] at hdigit
  cases hdigit

/-- Where no word character stands there is no name. -/
theorem rejects_named_of_head {α : Type} {what : String} {ofName? : String → Option α}
    (hc : c.rest = .chars cs) (h : ∀ d ∈ cs.head?, isWord d = false) :
    Rejects call (named what ofName? : Parser V α) c := by
  refine takes_identifier.rejects_unknown hc fun t r ht ↦ ?_
  obtain ⟨d, u, rfl, hd⟩ := ht.mem.exists_first
  rw [h d (by rw [ht.append]; rfl)] at hd
  cases hd

/-- Where none of its characters stands there is no sign. -/
theorem rejects_sign {α : Type} {what chars text : String} {ofName? : String → Option α}
    (hc : c.rest = .chars cs) (h : ∀ d ∈ cs.head?, d ∉ chars.toList) :
    Rejects call (sign what chars text ofName? : Parser V α) c := by
  refine (takes_token (measures_oneOf chars)).rejects_unknown hc fun t r ht ↦ ?_
  obtain ⟨d, hd, rfl⟩ := ht.mem
  exact absurd hd (h d (by rw [ht.append]; rfl))

/-- A name that begins with no digit is no number. -/
theorem rejects_number_of_name {s : String} (hc : c.rest = .chars cs)
    (hs : Longest IsName cs s.toList r) (h : NoDigit s) :
    Rejects call (number : Parser V Binary64).lexeme c := by
  obtain ⟨d, u, hd, hdigit⟩ := h
  refine rejects_number_of_head hc fun d' hd' ↦ ?_
  rw [hs.append, hd] at hd'
  cases hd'
  exact hdigit

/-- A function's name is read with the parenthesis behind it. -/
theorem exists_reads_opening {α : Type} {what s : String} {ofName? : String → Option α} {f : α}
    {r₀ r₁ : List Char} (hc : c.rest = .chars cs) (hs : Longest IsName cs s.toList r₀)
    (hf : ofName? s = some f) (hopen : skip r₀ = '(' :: r₁) :
    ∃ c', Reads call ((named what ofName?).first (symbol "(") : Parser V α) c c' f ∧
      c'.rest = .chars (skip r₁) := by
  obtain ⟨m, hname, hm⟩ := exists_reads_named hc hs hf
  rw [hopen] at hm
  obtain ⟨c', _, hsymbol, hc'⟩ := reads_symbol (s := "(") hm
  exact ⟨c', reads_first.mpr ⟨m, _, hname, hsymbol⟩, hc'⟩

/-- A sign is read where one of its characters stands. -/
theorem exists_reads_sign {α : Type} {what chars text : String} {ofName? : String → Option α}
    {d : Char} {f : α} (hc : c.rest = .chars (d :: r)) (hd : d ∈ chars.toList)
    (hf : ofName? (String.ofList [d]) = some f) :
    ∃ c', Reads call (sign what chars text ofName? : Parser V α) c c' f ∧
      c'.rest = .chars (skip r) := by
  refine (takes_token (measures_oneOf chars)).reads_known hc ⟨rfl, ⟨d, hd, rfl⟩, ?_⟩ hf
  rintro _ ⟨d', -, rfl⟩ -
  exact le_rfl

/-- A name that is not known is no function's, whatever comes after it. -/
theorem rejects_call {α β γ δ : Type} {p : Parser V α} {q : Parser V β} {inner : Parser V γ}
    {t : Parser V δ} {f : α × γ → Expr} (h : Rejects call p c) :
    Rejects call ((((p.first q).both inner).first t).map f) c :=
  rejects_map.mpr (rejects_first_of_left (rejects_both_of_left (rejects_first_of_left h)))

/-- A call with two arguments is rejected where its name is. -/
theorem rejects_call₂ {α β γ δ ε : Type} {p : Parser V α} {q : Parser V β} {inner : Parser V γ}
    {t : Parser V δ} {u : Parser V ε} {f : (α × γ) × γ → Expr} (h : Rejects call p c) :
    Rejects call ((((((p.first q).both inner).first t).both inner).first u).map f) c :=
  rejects_map.mpr (rejects_first_of_left (rejects_both_of_left (rejects_first_of_left
    (rejects_both_of_left (rejects_first_of_left h)))))

end Rejections

/-! ### Phrases are read -/

section Phrases

variable {L : Level} {cs r : List Char} {e : Expr} {c c' m : Cursor}

/-- What the repetition of a level makes of a value; a level without one leaves it. -/
def Loop (depth : Nat) : Level → Expr → Cursor → Cursor → Expr → Prop
  | .term, a, c, c', e | .signed, a, c, c', e => c = c' ∧ a = e
  | .juxtaposed, a, c, c', e => Folds (grammar.call depth) terms Expr.juxtaposed a c c' e
  | L, a, c, c', e => Folds (grammar.call depth) ((operatorAt L).both (phrase L.tighter))
      (fun acc (f, b) ↦ .operated f acc b) a c c' e

/-- The parser of the level reads the phrase, and what its repetition makes of it. -/
def Complete (L : Level) (cs r : List Char) (e : Expr) : Prop :=
  ∀ ⦃depth : Nat⦄, cs.length ≤ depth → Stops L.tighter (skip r) → ∀ ⦃c : Cursor⦄,
    c.rest = .chars cs → ∃ m, m.rest = .chars (skip r) ∧ ∀ ⦃c' e'⦄, Loop depth L e m c' e' →
      Reads (grammar.call depth) (phrase L) c c' e'

/-- Where terms side by side stop, no further term begins. -/
theorem rejects_terms {depth : Nat} (hc : c.rest = .chars r) (h : Stops .juxtaposed r) :
    Rejects (grammar.call depth) terms c := by
  have hword (d : Char) (hd : d ∈ r.head?) : isWord d = false := by
    have := h d hd
    simp only [Level.continues, startsTerm, Bool.or_eq_false_iff] at this
    exact this.1
  have hdigit (d : Char) (hd : d ∈ r.head?) : d.isDigit = false := by
    have := hword d hd
    simp only [isWord, Char.isAlphanum, Bool.or_eq_false_iff] at this
    exact this.1.2
  have hopen : ¬ "(".toList <+: r := by
    rintro ⟨t, rfl⟩
    have := h '(' rfl
    simp [Level.continues, startsTerm] at this
  simp only [terms, term, choice, List.foldl_cons, List.foldl_nil, rejects_either]
  refine ⟨⟨⟨⟨?_, ?_⟩, ?_⟩, ?_⟩, ?_⟩
  · exact rejects_map.mpr (rejects_number_of_head hc hdigit)
  · exact rejects_map.mpr (rejects_named_of_head hc hword)
  · exact rejects_call (rejects_named_of_head hc hword)
  · exact rejects_call₂ (rejects_named_of_head hc hword)
  · exact rejects_first_of_left (rejects_second_of_left (rejects_symbol hc hopen))

/-- The repetition of a level takes nothing where phrases of the level stop. -/
theorem loop_stop {depth : Nat} (hm : m.rest = .chars r) (h : Stops L r) (e : Expr) :
    Loop depth L e m m e := by
  have hop {chars text : String} (hchars : chars.toList.all L.continues = true) :
      Rejects (grammar.call depth) (operator chars text : Parser (fun _ ↦ Expr) BinaryFn) m :=
    rejects_sign hm fun d hd hmem ↦
      absurd (h d hd) (by simp [List.all_eq_true.mp hchars d hmem])
  cases L with
  | term | signed => exact ⟨rfl, rfl⟩
  | juxtaposed => exact Folds.stop e (rejects_terms hm h)
  | power => exact Folds.stop e (rejects_both_of_left (hop rfl))
  | product => exact Folds.stop e (rejects_both_of_left (hop rfl))
  | sum => exact Folds.stop e (rejects_both_of_left (hop rfl))

/-- A phrase is read where nothing goes on with it. -/
theorem Complete.reads (h : Complete L cs r e) {depth : Nat} (hdepth : cs.length ≤ depth)
    (hr : Stops L (skip r)) (hc : c.rest = .chars cs) :
    ∃ m, Reads (grammar.call depth) (phrase L) c m e ∧ m.rest = .chars (skip r) := by
  obtain ⟨m, hm, hread⟩ := h hdepth hr.tighter hc
  exact ⟨m, hread (loop_stop hm hr e), hm⟩

/-- An expression is read by a call of its rule, one level deeper. -/
theorem Complete.reads_rule (h : Complete .sum cs r e) {depth : Nat} (hdepth : cs.length < depth)
    (hr : Stops .sum (skip r)) (hc : c.rest = .chars cs) :
    ∃ m, Reads (grammar.call depth) (rule .expression) c m e ∧ m.rest = .chars (skip r) := by
  cases depth with
  | zero => exact absurd hdepth (Nat.not_lt_zero _)
  | succ depth => exact h.reads (Nat.le_of_lt_succ hdepth) hr hc

/-- An expression in parentheses, and the symbol behind it. -/
theorem Complete.reads_argument {s : String} {a : Expr} {r₂ : List Char}
    (h : Complete .sum cs r₂ a) {depth : Nat} (hdepth : cs.length < depth)
    (hs : skip r₂ = s.toList ++ r) (hstops : Stops .sum (s.toList ++ r))
    (hc : c.rest = .chars cs) :
    ∃ m c' v, Reads (grammar.call depth) (rule .expression) c m a ∧
      Reads (grammar.call depth) (symbol s) m c' v ∧ c'.rest = .chars (skip r) := by
  obtain ⟨m, ha, hm⟩ := h.reads_rule hdepth (hs ▸ hstops) hc
  rw [hs] at hm
  obtain ⟨c', v, hsymbol, hc'⟩ := reads_symbol hm
  exact ⟨m, c', v, ha, hsymbol, hc'⟩

/-! ### One lemma for each rule -/

/-- A term is a phrase without a repetition. -/
theorem complete_term (h : ∀ depth : Nat, cs.length ≤ depth → ∀ c : Cursor, c.rest = .chars cs →
    ∃ c', Reads (grammar.call depth) terms c c' e ∧ c'.rest = .chars (skip r)) :
    Complete .term cs r e := by
  intro depth hdepth _ c hc
  obtain ⟨m, hread, hm⟩ := h depth hdepth c hc
  refine ⟨m, hm, ?_⟩
  rintro c' e' ⟨rfl, rfl⟩
  exact hread

theorem complete_number {n : Numeral} (hn : Longest IsNumeral cs n.text r) :
    Complete .term cs r (.number n.value) := by
  refine complete_term fun depth _ c hc ↦ ?_
  obtain ⟨c', hread, hc'⟩ := reads_number hc hn
  refine ⟨c', ?_, hc'⟩
  simp only [terms, term, choice, List.foldl_cons, List.foldl_nil, reads_either]
  exact .inl (.inl (.inl (.inl (reads_map.mpr ⟨_, hread, rfl⟩))))

/-- A constant is read, for its name begins with no digit. -/
theorem complete_constant {k : Constant} (hk : Longest IsName cs k.name.toList r) :
    Complete .term cs r (.constant k) := by
  refine complete_term fun depth _ c hc ↦ ?_
  obtain ⟨c', hread, hc'⟩ := exists_reads_named hc hk k.ofName?_name
  refine ⟨c', ?_, hc'⟩
  simp only [terms, term, choice, List.foldl_cons, List.foldl_nil, reads_either]
  exact .inl (.inl (.inl (.inr ⟨rejects_map.mpr (rejects_number_of_name hc hk k.noDigit),
    reads_map.mpr ⟨k, hread, rfl⟩⟩)))

/-- A call is read, for its name is neither a number nor a constant. -/
theorem complete_call {r₀ r₁ r₂ : List Char} {f : UnaryFn} {a : Expr}
    (hf : Longest IsName cs f.name.toList r₀) (hconstant : ∀ k : Constant, k.name ≠ f.name)
    (hopen : skip r₀ = '(' :: r₁) (ha : Complete .sum (skip r₁) r₂ a)
    (hclose : skip r₂ = ')' :: r) : Complete .term cs r (.call f a) := by
  refine complete_term fun depth hdepth c hc ↦ ?_
  have h₀ := hf.leaves_of_name.trans (Text.Leaves.of_skip_eq hopen)
  have hlt : (skip r₁).length < depth := lt_of_lt_of_le h₀.length_skip_lt hdepth
  obtain ⟨m₁, hopening, h₁⟩ := exists_reads_opening hc hf f.ofName?_name hopen
  obtain ⟨m₂, c', _, harg, hclosing, hc'⟩ :=
    ha.reads_argument (s := ")") hlt hclose (stops_close _ _) h₁
  refine ⟨c', ?_, hc'⟩
  simp only [terms, term, choice, List.foldl_cons, List.foldl_nil, reads_either, rejects_either]
  refine .inl (.inl (.inr ⟨⟨?_, ?_⟩, ?_⟩))
  · exact rejects_map.mpr (rejects_number_of_name hc hf f.noDigit)
  · exact rejects_map.mpr (rejects_named hc hf (Constant.ofName?_eq_none hconstant))
  · refine reads_map.mpr ⟨(f, a), ?_, rfl⟩
    exact reads_first.mpr ⟨m₂, _, reads_both.mpr ⟨m₁, hopening, harg⟩, hclosing⟩

/-- A call with two arguments is read, for its name is no function of one argument. -/
theorem complete_call₂ {r₀ r₁ r₂ r₃ r₄ : List Char} {f : BinaryFn} {a b : Expr}
    (hf : Longest IsName cs f.name.toList r₀) (hconstant : ∀ k : Constant, k.name ≠ f.name)
    (hopen : skip r₀ = '(' :: r₁) (ha : Complete .sum (skip r₁) r₂ a)
    (hla : Text.Leaves (skip r₁) r₂) (hcomma : skip r₂ = ',' :: r₃)
    (hb : Complete .sum (skip r₃) r₄ b) (hclose : skip r₄ = ')' :: r) :
    Complete .term cs r (.call₂ f a b) := by
  refine complete_term fun depth hdepth c hc ↦ ?_
  have h₀ := hf.leaves_of_name.trans (Text.Leaves.of_skip_eq hopen)
  have hlt : (skip r₁).length < depth := lt_of_lt_of_le h₀.length_skip_lt hdepth
  have hlt' : (skip r₃).length < depth :=
    (hla.trans (Text.Leaves.of_skip_eq hcomma)).length_skip_lt.trans hlt
  obtain ⟨m₁, hopening, h₁⟩ := exists_reads_opening hc hf f.ofName?_name hopen
  obtain ⟨m₂, m₃, _, harg, hseparator, h₃⟩ :=
    ha.reads_argument (s := ",") hlt hcomma (stops_comma _ _) h₁
  obtain ⟨m₄, c', _, harg', hclosing, hc'⟩ :=
    hb.reads_argument (s := ")") hlt' hclose (stops_close _ _) h₃
  refine ⟨c', ?_, hc'⟩
  simp only [terms, term, choice, List.foldl_cons, List.foldl_nil, reads_either, rejects_either]
  refine .inl (.inr ⟨⟨⟨?_, ?_⟩, ?_⟩, ?_⟩)
  · exact rejects_map.mpr (rejects_number_of_name hc hf f.noDigit)
  · exact rejects_map.mpr (rejects_named hc hf (Constant.ofName?_eq_none hconstant))
  · exact rejects_call (rejects_named hc hf (UnaryFn.ofName?_binary f))
  · have hfirst := reads_first.mpr
      ⟨m₂, _, (reads_both (x := (f, a))).mpr ⟨m₁, hopening, harg⟩, hseparator⟩
    refine reads_map.mpr ⟨((f, a), b), ?_, rfl⟩
    exact reads_first.mpr ⟨m₄, _, reads_both.mpr ⟨m₃, hfirst, harg'⟩, hclosing⟩

/-- An expression in parentheses is read, for no name begins with one. -/
theorem complete_parenthesised {r₁ r₂ : List Char} (ha : Complete .sum (skip r₁) r₂ e)
    (hclose : skip r₂ = ')' :: r) : Complete .term ('(' :: r₁) r e := by
  refine complete_term fun depth hdepth c hc ↦ ?_
  have hlt : (skip r₁).length < depth := lt_of_le_of_lt (Text.length_skip_le r₁) hdepth
  have hnamed {α : Type} {what : String} {ofName? : String → Option α} :
      Rejects (grammar.call depth) (named what ofName?) c :=
    rejects_named_of_head hc (by rintro _ ⟨⟩; rfl)
  obtain ⟨m₁, _, hopening, h₁⟩ := reads_symbol (s := "(") hc
  obtain ⟨m₂, c', _, harg, hclosing, hc'⟩ :=
    ha.reads_argument (s := ")") hlt hclose (stops_close _ _) h₁
  refine ⟨c', ?_, hc'⟩
  simp only [terms, term, choice, List.foldl_cons, List.foldl_nil, reads_either, rejects_either]
  refine .inr ⟨⟨⟨⟨?_, ?_⟩, ?_⟩, ?_⟩, ?_⟩
  · exact rejects_map.mpr (rejects_number_of_head hc (by rintro _ ⟨⟩; rfl))
  · exact rejects_map.mpr hnamed
  · exact rejects_call hnamed
  · exact rejects_call₂ hnamed
  · exact reads_first.mpr ⟨m₂, _, reads_second.mpr ⟨m₁, _, hopening, harg⟩, hclosing⟩

/-- What is read from a phrase takes a character at least. -/
theorem offset_lt_of_reads {α : Type} {depth : Nat} {p : Parser (fun _ : Rule ↦ Expr) α} {a : α}
    (h : Reads (grammar.call depth) p c c' a) (hc : c.rest = .chars cs)
    (hc' : c'.rest = .chars (skip r)) (hr : Text.Leaves cs r) : c.offset < c'.offset :=
  (h.reaches (grammar.forward_call depth)).offset_lt hc hc'
    hr.length_skip_lt

/-- A further term is a step of the repetition. -/
theorem complete_juxtaposed {r₁ : List Char} {a b : Expr} (ha : Complete .juxtaposed cs r₁ a)
    (hla : Text.Leaves cs r₁) (hb : Complete .term (skip r₁) r b)
    (hlb : Text.Leaves (skip r₁) r) : Complete .juxtaposed cs r (.juxtaposed a b) := by
  intro depth hdepth hstops c hc
  have hle : (skip r₁).length ≤ depth := hla.length_skip_lt.le.trans hdepth
  obtain ⟨m₁, h₁, hread⟩ := ha hdepth (fun _ _ ↦ rfl) hc
  obtain ⟨m, hterm, hm⟩ := hb.reads hle hstops h₁
  exact ⟨m, hm, fun c' e' hloop ↦ hread (.step hterm (offset_lt_of_reads hterm h₁ hm hlb) hloop)⟩

/-- A sign is one more operator in front. -/
theorem complete_signed {r₁ : List Char} {f : UnaryFn} {a : Expr} (hf : f ∈ UnaryFn.signs)
    (ha : Complete .signed (skip r₁) r a) :
    Complete .signed (f.name.toList ++ r₁) r (.signed f a) := by
  intro depth hdepth hstops c hc
  obtain ⟨d, hd, hname, hknown⟩ : ∃ d ∈ "+-".toList, f.name.toList = [d] ∧
      UnaryFn.ofName? (String.ofList [d]) = some f := by
    simp only [UnaryFn.signs, List.mem_cons, List.not_mem_nil, or_false] at hf
    rcases hf with rfl | rfl
    · exact ⟨'+', by simp, rfl, rfl⟩
    · exact ⟨'-', by simp, rfl, rfl⟩
  rw [hname] at hc hdepth
  obtain ⟨m₁, hsign, h₁⟩ : ∃ m₁, Reads (grammar.call depth) signs c m₁ f ∧
      m₁.rest = .chars (skip r₁) := exists_reads_sign hc hd hknown
  have hle : (skip r₁).length ≤ depth :=
    (Text.length_skip_le r₁).trans ((Nat.le_succ _).trans hdepth)
  obtain ⟨m, hread, hm⟩ := ha.reads hle hstops h₁
  have hforward := grammar.forward_call depth
  obtain ⟨m', fs, b, hfs, hb, hfold⟩ := (reads_prefixed hforward).mp hread
  have hlt : c.offset < m₁.offset := (hsign.reaches hforward).offset_lt hc h₁
    (Nat.lt_succ_of_le (Text.length_skip_le r₁))
  refine ⟨m, hm, ?_⟩
  rintro c' e' ⟨rfl, rfl⟩
  exact (reads_prefixed hforward).mpr
    ⟨m', f :: fs, b, .more hsign hlt hfs, hb, by rw [List.foldr_cons, hfold]⟩

/-- The symbol of an operator is read at its level. -/
theorem exists_reads_operatorAt (depth : Nat) (f : BinaryFn)
    (hc : c.rest = .chars (f.symbol.toList ++ r)) :
    ∃ c', Reads (grammar.call depth) (operatorAt f.level) c c' f ∧ c'.rest = .chars (skip r) := by
  cases f with
  | add => exact exists_reads_sign (d := '+') hc (by simp) rfl
  | sub => exact exists_reads_sign (d := '-') hc (by simp) rfl
  | mul => exact exists_reads_sign (d := '*') hc (by simp) rfl
  | div => exact exists_reads_sign (d := '/') hc (by simp) rfl
  | mod => exact exists_reads_sign (d := '%') hc (by simp) rfl
  | pow => exact exists_reads_sign (d := '^') hc (by simp) rfl

/-- The repetition of a level with operators folds the pairs behind an operand. -/
theorem loop_level {depth : Nat} (f : BinaryFn) (a : Expr) :
    Loop depth f.level a c c' e = Folds (grammar.call depth)
      ((operatorAt f.level).both (phrase f.level.tighter))
      (fun acc (f, b) ↦ .operated f acc b) a c c' e := by
  cases f <;> rfl

/-- An operator with an operand is a step of the repetition. -/
theorem complete_operated {r₁ r₂ : List Char} {f : BinaryFn} {a b : Expr}
    (ha : Complete f.level cs r₁ a) (hla : Text.Leaves cs r₁)
    (hop : skip r₁ = f.symbol.toList ++ r₂) (hb : Complete f.level.tighter (skip r₂) r b)
    (hlb : Text.Leaves (skip r₂) r) : Complete f.level cs r (.operated f a b) := by
  intro depth hdepth hstops c hc
  have hsuffix : skip r₂ <:+ skip r₁ :=
    (Text.skip_suffix r₂).trans ⟨f.symbol.toList, hop.symm⟩
  have hle : (skip r₁).length ≤ depth := hla.length_skip_lt.le.trans hdepth
  obtain ⟨m₁, h₁, hread⟩ := ha hdepth (hop ▸ stops_symbol f r₂) hc
  obtain ⟨m₂, hsymbol, h₂⟩ := exists_reads_operatorAt depth f (hop ▸ h₁)
  obtain ⟨m, hright, hm⟩ := hb.reads (hsuffix.length_le.trans hle) hstops h₂
  have hstep := (reads_both (x := (f, b))).mpr ⟨m₂, hsymbol, hright⟩
  refine ⟨m, hm, fun c' e' hloop ↦ hread ?_⟩
  rw [loop_level] at hloop ⊢
  exact .step hstep (offset_lt_of_reads hstep h₁ hm (hlb.of_suffix hsuffix)) hloop

/-- A phrase of the next tighter level is one without a step of the repetition. -/
theorem complete_tighter (h : Derives L.tighter cs r e) (hcomplete : Complete L.tighter cs r e) :
    Complete L cs r e := by
  intro depth hdepth hstops c hc
  have hforward := grammar.forward_call depth
  obtain ⟨m, hread, hm⟩ := hcomplete.reads hdepth hstops hc
  cases L with
  | term => exact ⟨m, hm, by rintro _ _ ⟨rfl, rfl⟩; exact hread⟩
  | juxtaposed =>
      exact ⟨m, hm, fun c' e' hloop ↦ (reads_postfixed hforward).mpr ⟨m, e, hread, hloop⟩⟩
  | signed =>
      obtain ⟨d, t, rfl, hd⟩ := h.begins
      have hsign : Rejects (grammar.call depth) signs c := by
        refine rejects_sign hc ?_
        rintro _ ⟨⟩ hmem
        obtain rfl | rfl : d = '+' ∨ d = '-' := by simpa using hmem
        · cases hd
        · cases hd
      refine ⟨m, hm, ?_⟩
      rintro c' e' ⟨rfl, rfl⟩
      exact (reads_prefixed hforward).mpr ⟨c, [], e, .stop hsign, hread, rfl⟩
  | power | product | sum =>
      exact ⟨m, hm, fun c' e' hloop ↦ (reads_chainLeft hforward).mpr ⟨m, e, hread, hloop⟩⟩

/-- Every phrase is read, by induction on its derivation. -/
theorem Derives.complete (h : Derives L cs r e) : Complete L cs r e := by
  induction h with
  | number hn => exact complete_number hn
  | constant hk => exact complete_constant hk
  | call hf hconstant hopen _ hclose ih => exact complete_call hf hconstant hopen ih hclose
  | call₂ hf hconstant hopen ha hcomma _ hclose iha ihb =>
      exact complete_call₂ hf hconstant hopen iha ha.leaves hcomma ihb hclose
  | parenthesised _ hclose ih => exact complete_parenthesised ih hclose
  | juxtaposed ha hb iha ihb => exact complete_juxtaposed iha ha.leaves ihb hb.leaves
  | signed hf _ ih => exact complete_signed hf ih
  | operated ha hop hb iha ihb => exact complete_operated iha ha.leaves hop ihb hb.leaves
  | tighter h ih => exact complete_tighter h ih

end Phrases

/-! ### Whole texts -/

/-- A text that says an expression is parsed to it. -/
theorem parse_of_denotes {text : String} {e : Expr} (h : Denotes text.toList e) :
    parse text = .ok e := by
  obtain ⟨r, hsum, hr⟩ := h
  have hlt : (skip text.toList).length < depthFor text.toList :=
    Nat.lt_succ_of_le ((Text.length_skip_le _).trans (Text.length_le_byteLength _))
  obtain ⟨m, hblanks, hm⟩ := exists_reads_blanks (grammar.call (depthFor text.toList))
    (Cursor.rest_ofText_zero text.toList)
  obtain ⟨c', hrule, hc'⟩ := hsum.complete.reads_rule hlt (hr ▸ stops_nil _) hm
  refine parseWith_eq_ok.mpr ⟨c', reads_second.mpr ⟨m, (), hblanks, hrule⟩, ?_⟩
  rw [hc', hr]

/-- The grammar is unambiguous. -/
theorem Denotes.unique {cs : List Char} {a b : Expr} (ha : Denotes cs a) (hb : Denotes cs b) :
    a = b := by
  rw [← String.toList_ofList (l := cs)] at ha hb
  have := (parse_of_denotes ha).symm.trans (parse_of_denotes hb)
  exact Except.ok.inj this

/-- A text that says an expression has its value. -/
theorem calculate_of_denotes {text : String} {e : Expr} (h : Denotes text.toList e) :
    calculate text = .ok e.value := by
  rw [calculate, parse_of_denotes h]
  rfl

/-- The texts that have a value are those that say an expression, and it is what that evaluates
to. -/
theorem calculate_eq_ok_iff (text : String) (z : Complex Binary64) :
    calculate text = .ok z ↔ ∃ e, Denotes text.toList e ∧ Evaluates e z := by
  constructor
  · intro h
    rw [calculate] at h
    cases hparse : parse text with
    | error _ =>
        rw [hparse] at h
        cases h
    | ok e =>
        rw [hparse] at h
        obtain rfl : e.value = z := Except.ok.inj h
        exact ⟨e, denotes_of_parse hparse, evaluates_value e⟩
  · rintro ⟨e, hdenotes, hvalue⟩
    rw [← hvalue.value_eq]
    exact calculate_of_denotes hdenotes

end Calculator

end ZPlane
