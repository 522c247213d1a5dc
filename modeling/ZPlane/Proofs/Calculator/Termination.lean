import Mathlib
import ZPlane.Proofs.Calculator.Completeness
import ZPlane.Proofs.Parsing.Guarded

/-!
# The grammar of the calculator is guarded

Each term begins with a token that takes something, and calls the expression rule only behind one.
The operators between terms take something too.  So an expression in parentheses is further on than
the one around it, whatever the text, and the depth that `parseWith` allows is never used up.
-/

namespace ZPlane

namespace Calculator

open Parsing Parsing.Parser
open Text (byteLength)

section Levels

variable {ρ : Type} {V : ρ → Type} {call : (r : ρ) → Cursor → Outcome (V r)}
  (hcall : Forward call) {α : Type} {n : Nat}
include hcall

/-! ### Tokens -/

theorem progresses_number : Progresses call (number : Parser V Binary64).lexeme := by
  refine (Progresses.token measures_numeral ?_).filterMap.label.lexeme hcall
  rintro ⟨m, hm⟩
  obtain ⟨c, t, hc, -⟩ := m.exists_first
  rw [hc] at hm
  cases hm

theorem guarded_number : Guarded call n (number : Parser V Binary64).lexeme :=
  Guarded.token.filterMap.label.lexeme hcall

section Named

variable {what : String} {ofName? : String → Option α}

theorem progresses_named : Progresses call (named what ofName? : Parser V α) :=
  (Progresses.token measures_name fun h ↦ h.1 rfl).label.filterMap.label.lexeme hcall

theorem guarded_named : Guarded call n (named what ofName? : Parser V α) :=
  Guarded.token.label.filterMap.label.lexeme hcall

end Named

section Sign

variable {what chars text : String} {ofName? : String → Option α}

theorem progresses_sign : Progresses call (sign what chars text ofName? : Parser V α) := by
  refine (Progresses.token (measures_oneOf chars) ?_).filterMap.label.lexeme hcall
  rintro ⟨c, -, h⟩
  cases h

theorem guarded_sign : Guarded call n (sign what chars text ofName? : Parser V α) :=
  Guarded.token.filterMap.label.lexeme hcall

end Sign

/-! ### Terms -/

section Call

variable {what : String} {ofName? : String → Option α} {inner : Parser V Expr}

/-- A name with the parenthesis behind it, and the first argument. -/
abbrev opened (what : String) (ofName? : String → Option α) (inner : Parser V Expr) :
    Parser V (α × Expr) :=
  ((named what ofName?).first (symbol "(")).both inner

theorem progresses_opened : Progresses call (opened what ofName? inner) :=
  ((progresses_named hcall).first hcall).both hcall

/-- What is in the parentheses of a call is further on than the call. -/
theorem guarded_opened (hinner : Guarded call 0 inner) :
    Guarded call 1 (opened what ofName? inner) :=
  ((guarded_named hcall).first hcall (.symbol hcall)).both_of_progresses
    ((progresses_named hcall).first hcall) hinner

end Call

variable {inner : Parser V Expr}

theorem progresses_parenthesis : Progresses call (symbol "(" : Parser V String) :=
  .symbol hcall (List.cons_ne_nil _ _)

/-- Every term moves on. -/
theorem progresses_term : Progresses call (term inner) := by
  simp only [term, choice, List.foldl_cons, List.foldl_nil]
  refine .either (.either (.either (.either ?number ?constant) ?call) ?call₂) ?parenthesised
  case number => exact (progresses_number hcall).map
  case constant => exact (progresses_named hcall).map
  case call => exact ((progresses_opened hcall).first hcall).map
  case call₂ => exact ((((progresses_opened hcall).first hcall).both hcall).first hcall).map
  case parenthesised => exact ((progresses_parenthesis hcall).second hcall).first hcall

/-- A term calls the expression rule only behind a token. -/
theorem guarded_term (hinner : Guarded call 0 inner) : Guarded call 1 (term inner) := by
  simp only [term, choice, List.foldl_cons, List.foldl_nil]
  refine .either (.either (.either (.either ?number ?constant) ?call) ?call₂) ?parenthesised
  case number => exact (guarded_number hcall).map
  case constant => exact (guarded_named hcall).map
  case call => exact ((guarded_opened hcall hinner).first hcall (.symbol hcall)).map
  case call₂ =>
    -- The first argument and the comma are what the second one is behind.
    refine (Guarded.first hcall (.both_of_progresses ?_ ?_ hinner) (.symbol hcall)).map
    · exact (guarded_opened hcall hinner).first hcall (.symbol hcall)
    · exact (progresses_opened hcall).first hcall
  case parenthesised =>
    refine Guarded.first hcall (.map (.both_of_progresses ?_ ?_ hinner)) (.symbol hcall)
    · exact .symbol hcall
    · exact progresses_parenthesis hcall

/-! ### Levels -/

/-- The levels call the expression rule only behind a token. -/
theorem guarded_levels (hinner : Guarded call 0 inner) : Guarded call 1 (levels inner) := by
  have hterm := guarded_term hcall hinner
  simp only [levels, operator]
  refine .chainLeft hcall ?product (guarded_sign hcall) (progresses_sign hcall)
  refine .chainLeft hcall ?power (guarded_sign hcall) (progresses_sign hcall)
  refine .chainLeft hcall ?signed (guarded_sign hcall) (progresses_sign hcall)
  refine .prefixed hcall ?juxtaposed (guarded_sign hcall) (progresses_sign hcall)
  exact hterm.postfixed hcall hterm (progresses_term hcall)

end Levels

/-- The grammar of the calculator is guarded. -/
theorem guarded_grammar : grammar.Guarded :=
  fun depth _ ↦ guarded_levels (grammar.forward_call depth) (.rule _)

/-! ### Evaluation ends -/

/-- At any offset the depth for the text is enough. -/
theorem length_ahead_lt_depthFor (cs : List Char) (o : Nat) :
    (Cursor.ofText cs o).ahead.length < depthFor cs :=
  Nat.lt_succ_of_le ((Cursor.length_ahead_ofText_le cs o).trans (Text.length_le_byteLength cs))

/-- More depth than that for the text makes no difference to the parse of the whole text. -/
theorem grammar_parse_eq {α : Type} (p : Parser (fun _ : Rule ↦ Expr) α) {cs : List Char}
    {depth : Nat} (h : depthFor cs ≤ depth) :
    grammar.parse depth p cs = (parseWith p cs).mapError .unexpected := by
  have hahead := length_ahead_lt_depthFor cs 0
  obtain ⟨hne, heq⟩ := guarded_grammar.settles_runAt p hahead (lt_of_lt_of_le hahead h)
  rw [parseWith, Grammar.parse, Grammar.parse, heq]
  cases hrun : grammar.runAt (depthFor cs) p (.ofText cs 0) with
  | success c a h =>
      obtain ⟨o, rest⟩ := c
      cases rest with
      | chars ds => cases ds <;> rfl
      | inside | beyond => rfl
  | failure => rfl
  | overrun => exact absurd hrun hne

/-- What a text is rejected with is the error of its parse, never a want of depth. -/
theorem parse_eq_error {α β : Type} {p : Parser (fun _ : Rule ↦ Expr) α} {f : α → β}
    {cs : List Char} {e : ParseError} (h : (parseWith p cs).map f = .error e) :
    grammar.parse (depthFor cs) p cs = .error (.unexpected e) := by
  cases hparse : parseWith p cs with
  | ok a =>
      rw [hparse] at h
      cases h
  | error e' =>
      rw [hparse] at h
      obtain rfl := Except.error.inj h
      rw [grammar_parse_eq p le_rfl, hparse]
      rfl

/-- It makes no difference to the value that the calculator gives the text either. -/
theorem grammar_value_eq {text : String} {depth : Nat} (h : depthFor text.toList ≤ depth) :
    (grammar.parse depth calculation text.toList).map Expr.value =
      (calculate text).mapError .unexpected := by
  rw [grammar_parse_eq calculation h, calculate, parse]
  cases parseWith calculation text.toList with
  | ok | error => rfl

/-- From any place of any text, whatever is in it, a call of the expression rule inside another one
is further on than that one, and a repetition goes on only further on.  So calls are nested no
deeper than the text is long, every run ends, and the depth of calls that it is given makes no
difference to it, nor to what the calculator says of the text. -/
theorem expression_terminates (text : String) (o : Nat) :
    (∀ (depth : Nat) (c : Cursor),
      (∀ d, expression.Does (grammar.call depth) c (.called .expression d) → c.offset < d.offset) ∧
      ∀ m m', expression.Does (grammar.call depth) c (.matched m m') → m.offset < m'.offset) ∧
    (∀ depth n, grammar.Nests depth .expression (.ofText text.toList o) n →
      n ≤ byteLength text.toList + 1) ∧
    ∀ depth, depthFor text.toList ≤ depth →
      (grammar.runAt depth (.rule .expression) (.ofText text.toList o) ≠ .overrun ∧
        grammar.runAt depth (.rule .expression) (.ofText text.toList o) =
          grammar.runAt (depthFor text.toList) (.rule .expression) (.ofText text.toList o)) ∧
      (grammar.parse depth calculation text.toList).map Expr.value =
        (calculate text).mapError .unexpected := by
  refine ⟨fun depth c ↦ ⟨?_, ?_⟩, ?_, fun depth h ↦ ⟨?_, grammar_value_eq h⟩⟩
  · intro d hd
    exact guarded_grammar depth .expression hd
  · intro m m' hm
    exact guarded_grammar depth .expression hm
  · intro depth n hn
    have hnested := guarded_grammar.le_of_nests hn
    have hahead := length_ahead_lt_depthFor text.toList o
    exact hnested.trans hahead
  · have hahead := length_ahead_lt_depthFor text.toList o
    obtain ⟨hne, heq⟩ := guarded_grammar.settles_runAt (.rule .expression)
      hahead (lt_of_lt_of_le hahead h)
    exact ⟨heq ▸ hne, heq⟩

/-- A text that is no expression: the parenthesis is not closed. -/
theorem expression_terminates_unclosed :
    let text := "-(2"
    let place := Cursor.ofText text.toList
    (expression.Does (grammar.call 1) (place 0) (.called .expression (place 2)) ∧
      (place 0).offset < (place 2).offset) ∧
    (expression.Does (grammar.call 1) (place 0) (.matched (place 0) (place 1)) ∧
      (place 0).offset < (place 1).offset) ∧
    (grammar.Nests 2 .expression (place 0) 2 ∧ 2 ≤ byteLength text.toList + 1) ∧
    depthFor text.toList ≤ 9 ∧
    (grammar.runAt 9 (.rule .expression) (place 0) ≠ .overrun ∧
      grammar.runAt 9 (.rule .expression) (place 0) =
        grammar.runAt (depthFor text.toList) (.rule .expression) (place 0)) ∧
    (grammar.parse 9 calculation text.toList).map Expr.value =
      (calculate text).mapError .unexpected := by
  have ⟨hforward, hnested, hends⟩ := expression_terminates "-(2" 0
  have hcalled : expression.Does (grammar.call 1) (.ofText "-(2".toList 0)
      (.called .expression (.ofText "-(2".toList 2)) := by
    have hopening : Reads (grammar.call 1) (symbol "(") (.ofText "-(2".toList 1)
        (.ofText "-(2".toList 2) "(" := ⟨_, rfl⟩
    have hterm : terms.Does (grammar.call 1) (.ofText "-(2".toList 1)
        (.called .expression (.ofText "-(2".toList 2)) :=
      .inr ⟨⟨_, rfl⟩, .inl (.inr ⟨_, _, hopening, rfl⟩)⟩
    have hsigns : Reads (grammar.call 1) signs.many (.ofText "-(2".toList 0)
        (.ofText "-(2".toList 1) [.negate] := ⟨_, rfl⟩
    exact .inl (.inl (.inl (.inr ⟨_, _, hsigns, .inl hterm⟩)))
  have hmatched : expression.Does (grammar.call 1) (.ofText "-(2".toList 0)
      (.matched (.ofText "-(2".toList 0) (.ofText "-(2".toList 1)) := by
    have hsign : Reads (grammar.call 1) signs (.ofText "-(2".toList 0) (.ofText "-(2".toList 1)
        .negate := ⟨_, rfl⟩
    exact .inl (.inl (.inl (.inl ⟨_, .refl, .inr ⟨_, _, hsign, rfl⟩⟩)))
  have hnests : grammar.Nests 2 .expression (.ofText "-(2".toList 0) 2 := .inside hcalled .one
  have hdepth : depthFor "-(2".toList ≤ 9 := by decide
  obtain ⟨hrun, hvalue⟩ := hends 9 hdepth
  exact ⟨⟨hcalled, (hforward 1 _).1 _ hcalled⟩, ⟨hmatched, (hforward 1 _).2 _ _ hmatched⟩,
    ⟨hnests, hnested 2 2 hnests⟩, hdepth, hrun, hvalue⟩

end Calculator

end ZPlane
