import Mathlib
import ZPlane.Proofs.Calculator.Termination
import ZPlane.Proofs.Calculator.Viability
import ZPlane.Proofs.Parsing.Hinted

/-!
# Errors are behind viable text

Whatever a parser of the grammar expects somewhere, what comes before goes on to a phrase of its
level (`Blames`).  There is one lemma for each way to build a level from the next tighter one, as
for soundness, which says what has been read up to a hint; `blames_expression` puts them together by
induction on the depth of rule calls.  The offset of an error is that of a hint, or of the end of an
expression with something behind it, so there is text to go on with there.
-/

namespace ZPlane

namespace Calculator

open Parsing Parsing.Parser
open Text (skip byteLength)

/-- There is a place at the offset, reached from `c`, up to which the text is viable. -/
def ViableAt (L : Level) (cs : List Char) (c : Cursor) (n : Nat) : Prop :=
  ∃ d x, c.Reaches d ∧ d.offset = n ∧ d.rest = .chars x ∧ Viable L cs x

namespace ViableAt

variable {L M : Level} {cs ds x : List Char} {c m : Cursor} {n : Nat}

theorem here (hc : c.rest = .chars x) (h : Viable L cs x) (hn : n = c.offset) :
    ViableAt L cs c n := ⟨c, x, .refl c, hn.symm, hc, h⟩

/-- What is viable from further on is viable from here. -/
theorem of_reaches (hm : c.Reaches m) (h : ViableAt L cs m n) : ViableAt L cs c n := by
  obtain ⟨d, x, hd, hn, hx, hviable⟩ := h
  exact ⟨d, x, hm.trans hd, hn, hx, hviable⟩

/-- The text that is viable counts, not the level. -/
theorem imp (hviable : ∀ x, Viable L cs x → Viable M ds x) (h : ViableAt L cs c n) :
    ViableAt M ds c n := by
  obtain ⟨d, x, hd, hn, hx, hv⟩ := h
  exact ⟨d, x, hd, hn, hx, hviable x hv⟩

end ViableAt

variable {ρ : Type} {V : ρ → Type} {call : (r : ρ) → Cursor → Outcome (V r)}
variable {α β : Type} {c c' m : Cursor} {cs ds r : List Char} {n : Nat} {L : Level}

/-- Up to each hint of the parser, the text is viable. -/
def Blames (call : (r : ρ) → Cursor → Outcome (V r)) (p : Parser V Expr) (L : Level) : Prop :=
  ∀ ⦃c : Cursor⦄ ⦃cs : List Char⦄ ⦃n : Nat⦄, c.rest = .chars cs → Hinted call p c n →
    ViableAt L cs c n

section Rules

variable (hcall : Forward call) (hplaced : ∀ r c, (call r c).Placed c)

/-! ### Terms -/

section Tokens

variable {what : String}
include hcall hplaced

/-- A token of which only what `f` knows is read is expected where it begins. -/
theorem offset_of_hinted_known {p : Parser V String} {f : String → Option α}
    (hp : Hinted call p c n → n = c.offset) (hc : c.rest = .chars cs)
    (h : Hinted call ((p.filterMap f).label what).lexeme c n) : n = c.offset := by
  have hlabel := (h.of_lexeme hcall hc).of_label (placed_run hcall hplaced _ c)
  rcases hlabel.of_filterMap with htoken | hn
  · exact hp htoken
  · exact hn

/-- A number is expected where it stands. -/
theorem offset_of_hinted_number (hc : c.rest = .chars cs)
    (h : Hinted call (number : Parser V Binary64).lexeme c n) : n = c.offset :=
  offset_of_hinted_known hcall hplaced (fun htoken ↦ htoken.of_token.1) hc h

/-- A sign is expected where it stands. -/
theorem offset_of_hinted_sign {chars text : String} {ofName? : String → Option α}
    (hc : c.rest = .chars cs) (h : Hinted call (sign what chars text ofName?) c n) :
    n = c.offset :=
  offset_of_hinted_known hcall hplaced (fun htoken ↦ htoken.of_token.1) hc h

/-- A name is expected where it stands. -/
theorem offset_of_hinted_named {ofName? : String → Option α} (hc : c.rest = .chars cs)
    (h : Hinted call (named what ofName?) c n) : n = c.offset := by
  refine offset_of_hinted_known hcall hplaced (fun hname ↦ ?_) hc h
  exact (hname.of_label (placed_run hcall hplaced _ c)).of_token.1

/-- In front of the arguments of a function, its name has been read or nothing. -/
theorem of_hinted_opening {ofName? : String → Option α} (hc : c.rest = .chars cs)
    (h : Hinted call ((named what ofName?).first (symbol "(")) c n) : n = c.offset ∨
      ∃ m t r f, c.Reaches m ∧ n = m.offset ∧ m.rest = .chars (skip r) ∧
        Longest IsName cs t r ∧ ofName? (String.ofList t) = some f := by
  rcases h.of_first with hname | ⟨m, f, hname, hopen⟩
  · exact .inl (offset_of_hinted_named hcall hplaced hc hname)
  · obtain ⟨t, r, ht, hf, hm⟩ := takes_identifier.known hc hname
    exact .inr ⟨m, t, r, f, hname.reaches hcall, hopen.of_symbol hcall hm, hm, ht, hf⟩

end Tokens

/-- A hint of an expression in parentheses, or of the symbol behind it. -/
def HintedArgument (call : (r : ρ) → Cursor → Outcome (V r)) (inner : Parser V Expr) (s : String)
    (c : Cursor) (n : Nat) : Prop :=
  Hinted call inner c n ∨
    ∃ m a, Reads call inner c m a ∧ Hinted call (symbol s : Parser V String) m n

section Arguments

variable {p : Parser V α} {inner : Parser V Expr} {s : String}

/-- A symbol behind a pair is expected by what comes before it, or as the end of the argument. -/
theorem of_hinted_both_symbol (h : Hinted call (p.both inner) c n ∨ ∃ m x,
      Reads call (p.both inner) c m x ∧ Hinted call (symbol s : Parser V String) m n) :
    Hinted call p c n ∨ ∃ m a, Reads call p c m a ∧ HintedArgument call inner s m n := by
  rcases h with hboth | ⟨m', ⟨a, b⟩, hread, hsymbol⟩
  · refine hboth.of_both.imp_right ?_
    rintro ⟨m, a, ha, hinner⟩
    exact ⟨m, a, ha, .inl hinner⟩
  · obtain ⟨m, ha, hb⟩ := reads_both.mp hread
    exact .inr ⟨m, a, ha, .inr ⟨m', b, hb, hsymbol⟩⟩

/-- What an argument and the symbol behind it expect is expected before it or in it. -/
theorem of_hinted_argument (h : Hinted call ((p.both inner).first (symbol s)) c n) :
    Hinted call p c n ∨ ∃ m a, Reads call p c m a ∧ HintedArgument call inner s m n :=
  of_hinted_both_symbol h.of_first

/-- It is the same where the value before the argument is dropped. -/
theorem of_hinted_argument_second (h : Hinted call ((p.second inner).first (symbol s)) c n) :
    Hinted call p c n ∨ ∃ m a, Reads call p c m a ∧ HintedArgument call inner s m n := by
  refine of_hinted_both_symbol ?_
  rcases h.of_first with hsecond | ⟨m, b, hread, hsymbol⟩
  · exact .inl hsecond.of_map
  · obtain ⟨x, hx, -⟩ := reads_map.mp hread
    exact .inr ⟨m, x, hx, hsymbol⟩

end Arguments

variable {inner : Parser V Expr} (hsound : Sound call inner .sum) (hinner : Blames call inner .sum)
include hcall hsound hinner

/-- What an argument expects goes on to a whole expression. -/
theorem viableAt_of_hintedArgument {s : String} (hc : c.rest = .chars cs)
    (h : HintedArgument call inner s c n) : ViableAt .sum cs c n := by
  rcases h with h | ⟨m, a, hread, hsymbol⟩
  · exact hinner hc h
  · obtain ⟨r, hm, ha⟩ := hsound hc hread
    have hn := hsymbol.of_symbol hcall hm
    exact (ViableAt.here hm ha.viable hn).of_reaches (hread.reaches hcall)

/-- What is expected in parentheses goes on to a term. -/
theorem viableAt_of_hinted_parentheses (hc : c.rest = .chars cs)
    (h : Hinted call ((second (symbol "(") inner).first (symbol ")")) c n) :
    ViableAt .term cs c n := by
  rcases of_hinted_argument_second h with hopen | ⟨m, _, hopen, hargument⟩
  · exact .here hc (viable_start .term cs) (hopen.of_symbol hcall hc)
  · obtain ⟨r₁, rfl, hm⟩ := hopen.symbol hc
    have hat := viableAt_of_hintedArgument hcall hsound hinner hm hargument
    exact (hat.of_reaches (hopen.reaches hcall)).imp fun _ hviable ↦ hviable.parenthesised

include hplaced

/-- What a call expects goes on to a term. -/
theorem viableAt_of_hinted_call (hc : c.rest = .chars cs)
    (h : Hinted call (((((named "function" UnaryFn.ofName?).first (symbol "(")).both inner).first
      (symbol ")")).map fun (f, a) ↦ Expr.call f a) c n) : ViableAt .term cs c n := by
  rcases of_hinted_argument h.of_map with hopening | ⟨m, f, hopening, hargument⟩
  · rcases of_hinted_opening hcall hplaced hc hopening with hn | ⟨m, t, r, f, hm, hn, hr, ht, hf⟩
    · exact .here hc (viable_start .term cs) hn
    · obtain rfl := UnaryFn.toList_name hf
      exact (ViableAt.here hr (viable_name ht) hn).of_reaches hm
  · obtain ⟨t, r₀, r₁, ht, hf, hopen, hm⟩ := exists_of_reads_opening hc hopening
    obtain rfl := UnaryFn.toList_name hf
    have hat := viableAt_of_hintedArgument hcall hsound hinner hm hargument
    exact (hat.of_reaches (hopening.reaches hcall)).imp fun _ hviable ↦ hviable.call ht hopen

/-- What a call with two arguments expects goes on to a term. -/
theorem viableAt_of_hinted_call₂ (hc : c.rest = .chars cs)
    (h : Hinted call (((((((named "function" BinaryFn.ofName?).first (symbol "(")).both
      inner).first (symbol ",")).both inner).first (symbol ")")).map
        fun ((f, a), b) ↦ Expr.call₂ f a b) c n) :
    ViableAt .term cs c n := by
  rcases of_hinted_argument h.of_map with hleft | ⟨m, ⟨f, a⟩, hleft, hargument⟩
  · rcases of_hinted_argument hleft with hopening | ⟨m, f, hopening, hargument⟩
    · rcases of_hinted_opening hcall hplaced hc hopening with hn | ⟨m, t, r, f, hm, hn, hr, ht, hf⟩
      · exact .here hc (viable_start .term cs) hn
      · obtain rfl := BinaryFn.name_of_isName ht.mem hf
        exact (ViableAt.here hr (viable_name₂ ht) hn).of_reaches hm
    · obtain ⟨t, r₀, r₁, ht, hf, hopen, hm⟩ := exists_of_reads_opening hc hopening
      obtain rfl := BinaryFn.name_of_isName ht.mem hf
      have hat := viableAt_of_hintedArgument hcall hsound hinner hm hargument
      exact (hat.of_reaches (hopening.reaches hcall)).imp fun _ hviable ↦ hviable.call₂_left ht hopen
  · obtain ⟨m₂, _, hboth, hcomma⟩ := reads_first.mp hleft
    obtain ⟨m₁, hopening, ha⟩ := reads_both.mp hboth
    obtain ⟨t, r₀, r₁, ht, hf, hopen, h₁⟩ := exists_of_reads_opening hc hopening
    obtain rfl := BinaryFn.name_of_isName ht.mem hf
    obtain ⟨r₂, h₂, hsum⟩ := hsound h₁ ha
    obtain ⟨r₃, hr₂, hm⟩ := hcomma.symbol h₂
    have hat := viableAt_of_hintedArgument hcall hsound hinner hm hargument
    exact (hat.of_reaches (hleft.reaches hcall)).imp
      fun _ hviable ↦ hviable.call₂_right ht hopen hsum hr₂

/-- A term goes on from wherever it expects something. -/
theorem blames_term : Blames call (term inner) .term := by
  intro c cs n hc h
  have hstart (hn : n = c.offset) : ViableAt .term cs c n :=
    .here hc (viable_start .term cs) hn
  rcases h.of_either with h | ⟨-, h⟩
  · rcases h.of_either with h | ⟨-, h⟩
    · rcases h.of_either with h | ⟨-, h⟩
      · rcases h.of_either with h | ⟨-, h⟩
        · exact hstart (offset_of_hinted_number hcall hplaced hc h.of_map)
        · exact hstart (offset_of_hinted_named hcall hplaced hc h.of_map)
      · exact viableAt_of_hinted_call hcall hplaced hsound hinner hc h
    · exact viableAt_of_hinted_call₂ hcall hplaced hsound hinner hc h
  · exact viableAt_of_hinted_parentheses hcall hsound hinner hc h

end Rules

/-! ### Levels -/

/-- A phrase of the level has been read up to the place, and the blanks behind it. -/
def HasRead (L : Level) (cs : List Char) (c m : Cursor) : Prop :=
  c.Reaches m ∧ ∃ r a, m.rest = .chars (skip r) ∧ Derives L cs r a

section Levels

variable (hcall : Forward call) (hplaced : ∀ r c, (call r c).Placed c) {operand : Parser V Expr}
include hcall

/-- What has been read is a phrase of the tighter level. -/
theorem HasRead.of_reads (hsound : Sound call operand L.tighter) (hc : c.rest = .chars cs)
    {a : Expr} (h : Reads call operand c m a) : HasRead L cs c m := by
  obtain ⟨r, hm, ha⟩ := hsound hc h
  exact ⟨h.reaches hcall, r, a, hm, .tighter ha⟩

/-! A hint behind the first operand is one of a step that was tried behind some that were taken, and
these have made one phrase of all that was read. -/

/-- Terms side by side go on, since each of them does. -/
theorem blames_juxtaposed (hsound : Sound call operand .term) (h : Blames call operand .term) :
    Blames call (operand.postfixed operand .juxtaposed) .juxtaposed := by
  intro c cs n hc hn
  rcases hn.of_map.of_both_many with hfirst | ⟨m, a, m', hread, hsteps, hn⟩
  · exact (h hc hfirst).imp fun _ hviable ↦ hviable.loosen
  · have hread : HasRead .juxtaposed cs c m' := by
      refine hsteps.invariant (HasRead.of_reads hcall hsound hc hread) ?_
      rintro m m' b ⟨hm, r, a, hr, ha⟩ hb
      obtain ⟨r', hr', hterm⟩ := hsound hr hb
      exact ⟨hm.trans (hb.reaches hcall), r', _, hr', .juxtaposed ha hterm⟩
    obtain ⟨hm, r, a, hr, ha⟩ := hread
    exact ((h hr hn).of_reaches hm).imp fun _ hviable ↦ hviable.juxtaposed ha

/-- What is viable behind signs is viable in front of them. -/
theorem viable_of_signs (hc : c.rest = .chars cs)
    (h : AdvancesTo call (sign "sign" "+-" "[+-]" UnaryFn.ofName? : Parser V UnaryFn) c m) :
    c.Reaches m ∧ ∃ ds, m.rest = .chars ds ∧ ∀ x, Viable .signed ds x → Viable .signed cs x := by
  refine h.invariant (P := fun m ↦ c.Reaches m ∧ ∃ ds, m.rest = .chars ds ∧
    ∀ x, Viable .signed ds x → Viable .signed cs x) ⟨.refl c, cs, hc, fun _ hx ↦ hx⟩ ?_
  rintro m m' f ⟨hm, ds, hds, hviable⟩ hf
  obtain ⟨d, hd, r, rfl, hname, hm'⟩ := exists_of_reads_sign hds hf
  obtain ⟨f, hsign, -, hsymbol⟩ := exists_sign hd
  refine ⟨hm.trans (hf.reaches hcall), skip r, hm', fun x hx ↦ hviable x ?_⟩
  rw [← hsymbol]
  exact hx.signed hsign

include hplaced

/-- Behind its signs a phrase goes on as its operand does. -/
theorem blames_signed (h : Blames call operand .juxtaposed) :
    Blames call (operand.prefixed (sign "sign" "+-" "[+-]" UnaryFn.ofName?) .signed) .signed := by
  intro c cs n hc hn
  rcases hn.of_map.of_both with hsigns | ⟨m, fs, hread, hn⟩
  · obtain ⟨m, hsteps, hn⟩ := hsigns.of_many
    obtain ⟨hm, ds, hds, hviable⟩ := viable_of_signs hcall hc hsteps
    have hoffset := offset_of_hinted_sign hcall hplaced hds hn
    exact ((ViableAt.here hds (viable_start .signed ds) hoffset).of_reaches hm).imp hviable
  · have hsteps := ((reads_many hcall).mp hread).advancesTo
    obtain ⟨hm, ds, hds, hviable⟩ := viable_of_signs hcall hc hsteps
    exact ((h hds hn).of_reaches hm).imp fun x hx ↦ hviable x hx.loosen

/-- Operands with operators between them go on as the last operand does. -/
theorem blames_operated {chars text : String} (hop : Symbols chars L)
    (hsound : Sound call operand L.tighter) (h : Blames call operand L.tighter) :
    Blames call (operand.chainLeft (operator chars text) .operated) L := by
  intro c cs n hc hn
  rcases hn.of_map.of_both_many with hfirst | ⟨m, a, m', hread, hsteps, hn⟩
  · exact (h hc hfirst).imp fun _ hviable ↦ hviable.loosen
  · have hread : HasRead L cs c m' := by
      refine hsteps.invariant (HasRead.of_reads hcall hsound hc hread) ?_
      rintro m m' ⟨f, b⟩ ⟨hm, r, a, hr, ha⟩ hstep
      obtain ⟨m₁, hf, hb⟩ := reads_both.mp hstep
      obtain ⟨d, hd, r₁, hd', hname, h₁⟩ := exists_of_reads_sign hr hf
      obtain ⟨f', hname', hsymbol, rfl⟩ := hop d hd
      obtain ⟨r', hr', htighter⟩ := hsound h₁ hb
      exact ⟨hm.trans (hstep.reaches hcall), r', _, hr', .operated ha (hsymbol ▸ hd') htighter⟩
    obtain ⟨hm, r, a, hr, ha⟩ := hread
    refine ViableAt.of_reaches hm ?_
    -- Where an operator is missing the phrase may end; behind one there is an operand to come.
    rcases hn.of_both with hoperator | ⟨m₁, f, hf, hn⟩
    · exact .here hr ha.viable (offset_of_hinted_sign hcall hplaced hr hoperator)
    · obtain ⟨d, hd, r₁, hd', hname, h₁⟩ := exists_of_reads_sign hr hf
      obtain ⟨f', hname', hsymbol, rfl⟩ := hop d hd
      exact ((h h₁ hn).of_reaches (hf.reaches hcall)).imp
        fun _ hviable ↦ hviable.operated ha (hsymbol ▸ hd')

/-- The levels go on if what is in parentheses does. -/
theorem blames_levels {inner : Parser V Expr} (hsound : Sound call inner .sum)
    (hinner : Blames call inner .sum) : Blames call (levels inner) .sum := by
  have hsigned := sound_signed hcall (sound_juxtaposed hcall (sound_term hsound))
  have hblames := blames_signed hcall hplaced (blames_juxtaposed hcall (sound_term hsound)
    (blames_term hcall hplaced hsound hinner))
  refine blames_operated hcall hplaced symbols_sum (sound_operated hcall symbols_product
    (sound_operated hcall symbols_power hsigned)) ?_
  refine blames_operated hcall hplaced symbols_product
    (sound_operated hcall symbols_power hsigned) ?_
  exact blames_operated hcall hplaced symbols_power hsigned hblames

end Levels

/-- Expressions go on, by induction on the depth of rule calls. -/
theorem blames_expression (depth : Nat) :
    Blames (grammar.call depth) (.rule .expression) .sum := by
  induction depth with
  | zero => exact fun c cs n _ hn ↦ absurd hn List.not_mem_nil
  | succ depth ih =>
      exact blames_levels (grammar.forward_call depth) (grammar.placed_call depth)
        (sound_expression depth) ih

/-! ### Whole texts -/

/-- Blanks are never expected, so a calculation expects what its expression does. -/
theorem viableAt_of_hinted_calculation {depth : Nat} (hc : c.rest = .chars cs)
    (h : Hinted (grammar.call depth) calculation c n) : ViableAt .sum (skip cs) c n := by
  rcases h.of_second with hblanks | ⟨m, _, hblanks, hn⟩
  · exact absurd hblanks (not_hinted_blanks hc)
  · exact (blames_expression depth (hblanks.blanks hc) hn).of_reaches
      (hblanks.reaches (grammar.forward_call depth))

/-- What comes before the error of a parse is viable. -/
theorem viableAt_of_parse {depth : Nat} {e : ParseError}
    (h : grammar.parse depth calculation cs = .error (.unexpected e)) :
    ViableAt .sum (skip cs) (.ofText cs 0) e.offset := by
  have hc := Cursor.rest_ofText_zero cs
  obtain ⟨h₀, -, hfurthest, hplaced, hrun⟩ := Grammar.exists_hints_of_parse h
  have hmem := hplaced.exact.mem_offsets hfurthest
  rcases hrun with hrun | ⟨c, a, h', hrun, -, rfl⟩
  · have hhinted : Hinted (grammar.call depth) calculation (.ofText cs 0) e.offset := by
      change calculation.run (grammar.call depth) (.ofText cs 0) = _ at hrun
      rwa [Hinted, hrun]
    exact viableAt_of_hinted_calculation hc hhinted
  · change calculation.run (grammar.call depth) (.ofText cs 0) = _ at hrun
    rw [Hints.offsets_join, List.mem_append] at hmem
    rcases hmem with hmem | hmem
    · have hhinted : Hinted (grammar.call depth) calculation (.ofText cs 0) e.offset := by
        rwa [Hinted, hrun]
      exact viableAt_of_hinted_calculation hc hhinted
    · obtain ⟨m, _, hblanks, hrule⟩ := reads_second.mp ⟨h', hrun⟩
      obtain ⟨r, hr, ha⟩ := sound_expression depth (hblanks.blanks hc) hrule
      have hforward := grammar.forward_call depth
      exact (ViableAt.here hr ha.viable (List.mem_singleton.mp hmem)).of_reaches
        ((hblanks.reaches hforward).trans (hrule.reaches hforward))

/-- Viable text that begins with the whole text goes on to an expression. -/
theorem ViableAt.exists_denotes (h : ViableAt .sum (skip cs) (.ofText cs 0) n) :
    ∃ w rest, cs = w ++ rest ∧ byteLength w = n ∧ ∃ s e, Denotes (w ++ s) e := by
  obtain ⟨d, x, hd, rfl, hx, v, s, r, e, hv, -, he, hr⟩ := h
  obtain ⟨w, rest, rfl, rfl⟩ := (Cursor.reaches_iff (Cursor.rest_ofText_zero cs)).mp hd
  obtain rfl := Remainder.chars.inj hx
  obtain ⟨w', hw', rfl⟩ := Text.exists_skip_cut hv
  obtain rfl := List.append_cancel_right hw'
  exact ⟨w, rest, rfl, (Nat.zero_add _).symm, s, e, r, he.behind_blanks, hr⟩

/-- What comes before an error goes on to a text that has a value. -/
theorem exists_calculate_of_error {text : String} {e : ParseError}
    (h : calculate text = .error e) : ∃ w rest, text.toList = w ++ rest ∧
      byteLength w = e.offset ∧ ∃ s z, calculate (String.ofList (w ++ s)) = .ok z := by
  suffices hdenotes : ∃ w rest, text.toList = w ++ rest ∧ byteLength w = e.offset ∧
      ∃ s e, Denotes (w ++ s) e by
    obtain ⟨w, rest, hw, hoffset, s, a, ha⟩ := hdenotes
    refine ⟨w, rest, hw, hoffset, s, a.value, calculate_of_denotes ?_⟩
    rwa [String.toList_ofList]
  -- The value is taken of what is parsed, so the error is that of the parse.
  have hparse : (parseWith calculation text.toList).map Expr.value = .error e := h
  exact (viableAt_of_parse (parse_eq_error hparse)).exists_denotes

/-- The call is not closed, and what stands in front of the bracket goes on with an operand. -/
theorem exists_calculate_of_error_sqrt :
    calculate "1 + sqrt(2 * ] - i" =
      .error ⟨13, ["sign", "number", "constant", "function", "\"(\""]⟩ ∧
    ∃ w rest, "1 + sqrt(2 * ] - i".toList = w ++ rest ∧ byteLength w = 13 ∧
      ∃ s z, calculate (String.ofList (w ++ s)) = .ok z := by
  have h : calculate "1 + sqrt(2 * ] - i" =
      .error ⟨13, ["sign", "number", "constant", "function", "\"(\""]⟩ := by decide +kernel
  exact ⟨h, exists_calculate_of_error h⟩

end Calculator

end ZPlane
