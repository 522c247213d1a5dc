import Mathlib
import ZPlane.Calculator.Grammar
import ZPlane.Proofs.Calculator.Derivation

/-!
# Soundness of the grammar

What a parser of the grammar reads is a phrase of its level, followed by blanks (`Sound`).  There is
one lemma for each way to build a level from the next tighter one, and `sound_expression` puts them
together by induction on the depth of rule calls.  Repetitions go through `Folds.invariant`: after
each step, what has been read so far is a phrase of the level.
-/

namespace ZPlane

namespace Calculator

open Parsing Parsing.Parser
open Text (skip)

/-! ### Names and symbols -/

/-- A constant that is found has the name that was looked for. -/
theorem Constant.name_of_ofName? {s : String} {k : Constant} (h : ofName? s = some k) :
    k.name = s := by simpa using List.find?_some h

/-- A constant is found by its name. -/
theorem Constant.ofName?_name (k : Constant) : ofName? k.name = some k := by
  cases k <;> rfl

theorem UnaryFn.name_of_ofName? {s : String} {f : UnaryFn} (h : ofName? s = some f) :
    f.name = s := by simpa using List.find?_some h

theorem UnaryFn.toList_name {t : List Char} {f : UnaryFn}
    (h : ofName? (String.ofList t) = some f) : f.name.toList = t := by
  rw [name_of_ofName? h, String.toList_ofList]

/-- A function of two arguments is found by its name or its symbol, or for the empty text. -/
theorem BinaryFn.name_or_symbol_of_ofName? {s : String} {f : BinaryFn} (h : ofName? s = some f) :
    s = "" ∨ f.name = s ∨ f.symbol = s := by
  simp only [ofName?] at h
  split at h
  · exact .inl ‹_›
  · exact .inr (by simpa using List.find?_some h)

/-- Word characters that name a function of two arguments are its name. -/
theorem BinaryFn.name_of_isName {t : List Char} {f : BinaryFn} (ht : IsName t)
    (h : ofName? (String.ofList t) = some f) : f.name.toList = t := by
  rcases name_or_symbol_of_ofName? h with h | h | h
  · exact absurd (String.ofList_eq_empty_iff.mp h) ht.1
  · rw [h, String.toList_ofList]
  · have hsymbol : f.symbol.toList = t := by rw [h, String.toList_ofList]
    obtain ⟨d, hd, hword⟩ := f.exists_symbol
    have := ht.2 d (by rw [← hsymbol, hd]; exact List.mem_cons_self)
    rw [hword] at this
    cases this

variable {ρ : Type} {V : ρ → Type} {call : (r : ρ) → Cursor → Outcome (V r)}
variable {c c' : Cursor} {cs : List Char}

/-- Names are taken as long as they are. -/
theorem takes_identifier : Takes call (identifier : Parser V String) IsName :=
  (takes_token measures_name).label

section Named

variable {α : Type} {what s : String} {ofName? : String → Option α} {a : α} {r : List Char}
  (hc : c.rest = .chars cs) (hs : Longest IsName cs s.toList r)
include hc hs

/-- A known name is read. -/
theorem exists_reads_named (ha : ofName? s = some a) :
    ∃ c', Reads call (named what ofName? : Parser V α) c c' a ∧ c'.rest = .chars (skip r) :=
  takes_identifier.reads_known hc hs (by rwa [String.ofList_toList])

/-- An unknown name is rejected. -/
theorem rejects_named (ha : ofName? s = none) :
    Rejects call (named what ofName? : Parser V α) c := by
  refine takes_identifier.rejects_unknown hc fun t r' ht ↦ ?_
  obtain ⟨rfl, -⟩ := hs.unique ht
  rwa [String.ofList_toList]

end Named

/-- A sign or an operator is one of its characters. -/
theorem exists_of_reads_sign {α : Type} {what chars text : String} {ofName? : String → Option α}
    {f : α} (hc : c.rest = .chars cs)
    (h : Reads call (sign what chars text ofName? : Parser V α) c c' f) :
    ∃ d ∈ chars.toList, ∃ r, cs = [d] ++ r ∧ ofName? (String.ofList [d]) = some f ∧
      c'.rest = .chars (skip r) := by
  obtain ⟨_, r, ht, hf, hc'⟩ := (takes_token (measures_oneOf chars)).known hc h
  obtain ⟨d, hd, rfl⟩ := ht.mem
  exact ⟨d, hd, r, ht.append, hf, hc'⟩

/-- Whatever the parser reads in the text is a phrase of the level, with blanks behind it. -/
def Sound (call : (r : ρ) → Cursor → Outcome (V r)) (p : Parser V Expr) (L : Level) : Prop :=
  ∀ ⦃c c' : Cursor⦄ ⦃cs : List Char⦄ ⦃e : Expr⦄, c.rest = .chars cs → Reads call p c c' e →
    ∃ r, c'.rest = .chars (skip r) ∧ Derives L cs r e

/-! ### Terms -/

/-- A name is no constant's where no constant is read. -/
theorem name_ne_of_rejects {s : String} {r : List Char}
    (h : Rejects call (named "constant" Constant.ofName? : Parser V Constant) c)
    (hc : c.rest = .chars cs) (hs : Longest IsName cs s.toList r) (k : Constant) : k.name ≠ s := by
  rintro rfl
  obtain ⟨_, hread, -⟩ := exists_reads_named hc hs k.ofName?_name
  exact hread.not_rejects h

/-- A function's name and the parenthesis before its arguments. -/
theorem exists_of_reads_opening {α : Type} {what : String} {ofName? : String → Option α} {f : α}
    (hc : c.rest = .chars cs)
    (h : Reads call ((named what ofName?).first (symbol "(") : Parser V α) c c' f) :
    ∃ t r₀ r₁, Longest IsName cs t r₀ ∧ ofName? (String.ofList t) = some f ∧
      skip r₀ = '(' :: r₁ ∧ c'.rest = .chars (skip r₁) := by
  obtain ⟨m, _, hname, hopen⟩ := reads_first.mp h
  obtain ⟨t, r₀, ht, hf, hm⟩ := takes_identifier.known hc hname
  obtain ⟨r₁, hr₀, hc'⟩ := hopen.symbol hm
  exact ⟨t, r₀, r₁, ht, hf, hr₀, hc'⟩

/-- A term that is read is derived, one case for each alternative. -/
theorem sound_term {inner : Parser V Expr} (hinner : Sound call inner .sum) :
    Sound call (term inner) .term := by
  intro c c' cs e hc h
  simp only [term, choice, List.foldl_cons, List.foldl_nil, reads_either, rejects_either,
    rejects_map] at h
  rcases h with (((h | ⟨-, h⟩) | ⟨⟨-, hconstant⟩, h⟩) | ⟨⟨⟨-, hconstant⟩, -⟩, h⟩) | ⟨-, h⟩
  · obtain ⟨x, hx, rfl⟩ := reads_map.mp h
    obtain ⟨n, r, hn, rfl, hc'⟩ := hx.number hc
    exact ⟨r, hc', .number hn⟩
  · obtain ⟨k, hk, rfl⟩ := reads_map.mp h
    obtain ⟨t, r, ht, hname, hc'⟩ := takes_identifier.known hc hk
    obtain rfl : k.name.toList = t := by
      rw [Constant.name_of_ofName? hname, String.toList_ofList]
    exact ⟨r, hc', .constant ht⟩
  · obtain ⟨⟨f, a⟩, hcall, rfl⟩ := reads_map.mp h
    obtain ⟨m₂, _, hboth, hclose⟩ := reads_first.mp hcall
    obtain ⟨m₁, hf, ha⟩ := reads_both.mp hboth
    obtain ⟨t, r₀, r₁, ht, hname, hr₀, h₁⟩ := exists_of_reads_opening hc hf
    obtain rfl := UnaryFn.toList_name hname
    obtain ⟨r₂, h₂, hsum⟩ := hinner h₁ ha
    obtain ⟨r, hr₂, hc'⟩ := hclose.symbol h₂
    exact ⟨r, hc', .call ht (name_ne_of_rejects hconstant hc ht) hr₀ hsum hr₂⟩
  · obtain ⟨⟨⟨f, a⟩, b⟩, hcall, rfl⟩ := reads_map.mp h
    obtain ⟨m₄, _, hboth, hclose⟩ := reads_first.mp hcall
    obtain ⟨m₃, hfirst, hb⟩ := reads_both.mp hboth
    obtain ⟨m₂, _, hboth', hcomma⟩ := reads_first.mp hfirst
    obtain ⟨m₁, hf, ha⟩ := reads_both.mp hboth'
    obtain ⟨t, r₀, r₁, ht, hname, hr₀, h₁⟩ := exists_of_reads_opening hc hf
    obtain rfl : f.name.toList = t := BinaryFn.name_of_isName ht.mem hname
    obtain ⟨r₂, h₂, hsum⟩ := hinner h₁ ha
    obtain ⟨r₃, hr₂, h₃⟩ := hcomma.symbol h₂
    obtain ⟨r₄, h₄, hsum'⟩ := hinner h₃ hb
    obtain ⟨r, hr₄, hc'⟩ := hclose.symbol h₄
    exact ⟨r, hc', .call₂ ht (name_ne_of_rejects hconstant hc ht) hr₀ hsum hr₂ hsum' hr₄⟩
  · obtain ⟨m₂, _, hsecond, hclose⟩ := reads_first.mp h
    obtain ⟨m₁, _, hopen, ha⟩ := reads_second.mp hsecond
    obtain ⟨r₁, rfl, h₁⟩ := hopen.symbol hc
    obtain ⟨r₂, h₂, hsum⟩ := hinner h₁ ha
    obtain ⟨r, hr₂, hc'⟩ := hclose.symbol h₂
    exact ⟨r, hc', .parenthesised hsum hr₂⟩

/-! ### Levels -/

section Levels

variable (hcall : Forward call) {operand : Parser V Expr}
include hcall

/-- Terms that are read side by side are derived from the left. -/
theorem sound_juxtaposed (h : Sound call operand .term) :
    Sound call (operand.postfixed operand .juxtaposed) .juxtaposed := by
  intro c c' cs e hc hread
  obtain ⟨m, a, ha, hfolds⟩ := (reads_postfixed hcall).mp hread
  obtain ⟨r, hm, hterm⟩ := h hc ha
  have hphrase : ∃ r, m.rest = .chars (skip r) ∧ Derives .juxtaposed cs r a :=
    ⟨r, hm, .tighter hterm⟩
  refine hfolds.invariant (P := fun m a ↦ ∃ r, m.rest = .chars (skip r) ∧
    Derives .juxtaposed cs r a) hphrase ?_
  rintro m m' a b ⟨r, hm, ha⟩ hb
  obtain ⟨r', hm', hterm⟩ := h hm hb
  exact ⟨r', hm', .juxtaposed ha hterm⟩

omit hcall in
/-- Each character of a sign is that of one function. -/
theorem exists_sign {d : Char} (hd : d ∈ "+-".toList) :
    ∃ f ∈ UnaryFn.signs, UnaryFn.ofName? (String.ofList [d]) = some f ∧ f.name.toList = [d] := by
  obtain rfl | rfl : d = '+' ∨ d = '-' := by simpa using hd
  · exact ⟨.identity, by simp [UnaryFn.signs], rfl, rfl⟩
  · exact ⟨.negate, by simp [UnaryFn.signs], rfl, rfl⟩

/-- Signs that are read before a phrase are derived from the right. -/
theorem sound_signed (h : Sound call operand .juxtaposed) :
    Sound call (operand.prefixed (sign "sign" "+-" "[+-]" UnaryFn.ofName?) .signed) .signed := by
  intro c c' cs e hc hread
  obtain ⟨m, fs, a, hfs, ha, rfl⟩ := (reads_prefixed hcall).mp hread
  clear hread
  induction hfs generalizing cs with
  | stop _ =>
      obtain ⟨r, hc', ha⟩ := h hc ha
      exact ⟨r, hc', .tighter ha⟩
  | idle _ _ =>
      obtain ⟨r, hc', ha⟩ := h hc ha
      exact ⟨r, hc', .tighter ha⟩
  | more hf _ _ ih =>
      obtain ⟨d, hd, r₁, rfl, hname, hm⟩ := exists_of_reads_sign hc hf
      obtain ⟨f, hsign, hname', hsymbol⟩ := exists_sign hd
      obtain rfl := Option.some.inj (hname'.symm.trans hname)
      obtain ⟨r, hc', hsigned⟩ := ih hm ha
      rw [← hsymbol]
      exact ⟨r, hc', .signed hsign hsigned⟩

/-- Each of the characters is the symbol of an operator of the level. -/
def Symbols (chars : String) (L : Level) : Prop := ∀ d ∈ chars.toList, ∃ f : BinaryFn,
  BinaryFn.ofName? (String.ofList [d]) = some f ∧ f.symbol.toList = [d] ∧ f.level = L

/-- Operands that are read with operators between them are derived from the left. -/
theorem sound_operated {L : Level} {chars text : String} (hop : Symbols chars L)
    (h : Sound call operand L.tighter) :
    Sound call (operand.chainLeft (operator chars text) .operated) L := by
  intro c c' cs e hc hread
  obtain ⟨m, a, ha, hfolds⟩ := (reads_chainLeft hcall).mp hread
  obtain ⟨r, hm, htighter⟩ := h hc ha
  have hphrase : ∃ r, m.rest = .chars (skip r) ∧ Derives L cs r a := ⟨r, hm, .tighter htighter⟩
  refine hfolds.invariant (P := fun m a ↦ ∃ r, m.rest = .chars (skip r) ∧ Derives L cs r a)
    hphrase ?_
  rintro m m' a ⟨f, b⟩ ⟨r, hm, ha⟩ hstep
  obtain ⟨m₁, hf, hb⟩ := reads_both.mp hstep
  obtain ⟨d, hd, r₁, hr, hname, h₁⟩ := exists_of_reads_sign hm hf
  obtain ⟨f', hname', hsymbol, rfl⟩ := hop d hd
  obtain rfl : f' = f := Option.some.inj (hname'.symm.trans hname)
  obtain ⟨r', hm', htighter⟩ := h h₁ hb
  exact ⟨r', hm', .operated ha (hsymbol ▸ hr) htighter⟩

end Levels

theorem symbols_power : Symbols "^" .power := by
  intro d hd
  obtain rfl : d = '^' := by simpa using hd
  exact ⟨.pow, rfl, rfl, rfl⟩

theorem symbols_product : Symbols "*/%" .product := by
  intro d hd
  obtain rfl | rfl | rfl : d = '*' ∨ d = '/' ∨ d = '%' := by simpa using hd
  · exact ⟨.mul, rfl, rfl, rfl⟩
  · exact ⟨.div, rfl, rfl, rfl⟩
  · exact ⟨.mod, rfl, rfl, rfl⟩

theorem symbols_sum : Symbols "+-" .sum := by
  intro d hd
  obtain rfl | rfl : d = '+' ∨ d = '-' := by simpa using hd
  · exact ⟨.add, rfl, rfl, rfl⟩
  · exact ⟨.sub, rfl, rfl, rfl⟩

/-- The levels are sound if what is in parentheses is. -/
theorem sound_levels (hcall : Forward call) {inner : Parser V Expr}
    (hinner : Sound call inner .sum) : Sound call (levels inner) .sum := by
  have hsigned := sound_signed hcall (sound_juxtaposed hcall (sound_term hinner))
  exact sound_operated hcall symbols_sum (sound_operated hcall symbols_product
    (sound_operated hcall symbols_power hsigned))

/-- Whatever the depth of rule calls, an expression that is read is derived. -/
theorem sound_expression (depth : Nat) :
    Sound (grammar.call depth) (.rule .expression) .sum := by
  induction depth with
  | zero =>
      rintro c c' cs e _ ⟨_, h⟩
      cases h
  | succ depth ih => exact sound_levels (grammar.forward_call depth) ih

/-! ### Whole texts -/

/-- Up to blanks at both ends, the text is a phrase that says the expression. -/
def Denotes (cs : List Char) (e : Expr) : Prop := ∃ r, Derives .sum (skip cs) r e ∧ skip r = []

/-- A text is parsed if all of it is read. -/
theorem parseWith_eq_ok {α : Type} {p : Parser (fun _ : Rule ↦ Expr) α} {a : α} :
    parseWith p cs = .ok a ↔
      ∃ c', Reads (grammar.call (depthFor cs)) p (.ofText cs 0) c' a ∧ c'.rest = .chars [] := by
  simp only [parseWith, Grammar.parse, Grammar.runAt, Reads]
  cases hrun : p.run (grammar.call (depthFor cs)) (.ofText cs 0) with
  | success c' b h =>
      obtain ⟨o, rest⟩ := c'
      cases rest with
      | chars ds => cases ds <;> simp
      | inside => simp
      | beyond => simp
  | failure h => simp
  | overrun => simp

/-- A text says the expression that it is parsed to. -/
theorem denotes_of_parse {text : String} {e : Expr} (h : parse text = .ok e) :
    Denotes text.toList e := by
  obtain ⟨c', hread, hc'⟩ := parseWith_eq_ok.mp h
  obtain ⟨m, _, hblanks, hrule⟩ := reads_second.mp hread
  obtain ⟨r, hr, hsum⟩ := sound_expression _ (hblanks.blanks (Cursor.rest_ofText_zero _)) hrule
  rw [hr, Remainder.chars.injEq] at hc'
  exact ⟨r, hsum, hc'⟩

end Calculator

end ZPlane
