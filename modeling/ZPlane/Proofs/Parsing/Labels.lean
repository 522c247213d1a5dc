import Mathlib
import ZPlane.Proofs.Parsing.Hinted

/-!
# Labels of hints

The tokens of a grammar are looked for under names, and what rejects a token leaves a mark without
one, so a hint need not have a label.  `Labels` says of a parser that all hints of its runs are
labelled from a given list.  A label replaces the hints of the failures below it, so a parser under
one need only be silent, with no hints where it matches.  The combinators keep `Labels`, and with it
an error names what was expected (`ParseError.Names`).
-/

namespace ZPlane

namespace Parsing

/-! ### Labelled hints -/

/-- Every hint has a label, and one from the list. -/
def Hints.LabelledBy (labels : List String) (h : Hints) : Prop :=
  ∀ x ∈ h.toList, ∃ label ∈ labels, x.2 = some label

namespace Hints.LabelledBy

variable {labels : List String} {a b : Hints}

theorem empty : Hints.empty.LabelledBy labels := fun _ hx ↦ absurd hx List.not_mem_nil

theorem expected (n : Nat) {label : String} (h : label ∈ labels) :
    (expected n label).LabelledBy labels := by
  intro x hx
  obtain rfl := List.mem_singleton.mp hx
  exact ⟨label, h, rfl⟩

theorem join (ha : a.LabelledBy labels) (hb : b.LabelledBy labels) :
    (a.join b).LabelledBy labels := by
  intro x hx
  rw [toList_join] at hx
  exact (List.mem_append.mp hx).elim (ha x) (hb x)

theorem deepest (ha : a.LabelledBy labels) (hb : b.LabelledBy labels) :
    (a.deepest b).LabelledBy labels := by
  rcases deepest_cases a b with h | ⟨h, -⟩ | ⟨h, -⟩
  · rw [h]
    exact ha.join hb
  · rwa [h]
  · rwa [h]

/-- Labels from a list are from any list that holds it. -/
theorem mono {labels' : List String} (h : a.LabelledBy labels) (hsub : labels ⊆ labels') :
    a.LabelledBy labels' := by
  intro x hx
  obtain ⟨label, hlabel, hx⟩ := h x hx
  exact ⟨label, hsub hlabel, hx⟩

end Hints.LabelledBy

/-! ### Errors that name what was expected -/

/-- The error is made of the hints: it stands at the furthest of them, and its labels are those that
were recorded there, each once.  There is one at least, so the message has them. -/
structure ParseError.Names (h : Hints) (e : ParseError) : Prop where
  eq_ofHints : e = .ofHints h
  mem_expected : ∀ label, label ∈ e.expected ↔ (e.offset, some label) ∈ h.toList
  nodup : e.expected.Nodup
  ne_nil : e.expected ≠ []
  message : e.message = "expected " ++ alternatives e.expected ++ " at index " ++ toString e.offset

/-- Labelled hints, one at least, make an error that names what was expected. -/
theorem ParseError.names_ofHints {labels : List String} {h : Hints} (hexact : h.Exact)
    (hlabelled : h.LabelledBy labels) (hne : h.offsets ≠ []) : (ofHints h).Names h := by
  obtain ⟨n, hn⟩ := hexact.exists_furthest hne
  have heq : ofHints h = ⟨n, h.labelsAt n⟩ := by rw [ofHints, hn]
  have hlabels : h.labelsAt n ≠ [] := by
    obtain ⟨x, hx, rfl⟩ := List.mem_map.mp (hexact.mem_offsets hn)
    obtain ⟨label, -, hlabel⟩ := hlabelled x hx
    have hmem : label ∈ h.labelsAt x.1 := by
      rw [hexact.mem_labelsAt, ← hlabel]
      exact hx
    exact List.ne_nil_of_mem hmem
  constructor
  · rfl
  · intro label
    rw [heq]
    exact hexact.mem_labelsAt
  · rw [heq]
    exact Hints.nodup_labelsAt n h
  · rw [heq]
    exact hlabels
  · rw [heq, message, if_neg]
    rwa [List.isEmpty_iff]

namespace Parser

variable {ρ : Type} {V : ρ → Type} {call : (r : ρ) → Cursor → Outcome (V r)}
variable {α β Op : Type} {labels : List String}

/-! ### Silent parsers -/

/-- A match of the parser has no hints. -/
def Silent (call : (r : ρ) → Cursor → Outcome (V r)) (p : Parser V α) : Prop :=
  ∀ ⦃c c' : Cursor⦄ ⦃a : α⦄ ⦃h : Hints⦄, p.run call c = .success c' a h → h = .empty

/-- A token that is there leaves no hint. -/
theorem silent_token (name : String) (size : List Char → Option Nat) :
    Silent call (token name size : Parser V String) := by
  intro c c' s h hrun
  rw [run_token] at hrun
  rcases takeToken_cases name size c with heq | ⟨_, _, heq⟩
  · rw [heq] at hrun
    cases hrun
  · rw [heq] at hrun
    cases hrun
    rfl

/-- A value that is kept leaves no hint. -/
theorem Silent.filterMap {p : Parser V α} (hp : Silent call p) (f : α → Option β) :
    Silent call (p.filterMap f) := by
  intro c c' b h hrun
  rw [run_filterMap] at hrun
  split at hrun
  · rename_i hp'
    split at hrun
    · cases hrun
      exact hp hp'
    · cases hrun
  · cases hrun
  · cases hrun

/-- A label changes nothing where the parser matches. -/
theorem Silent.label {p : Parser V α} (hp : Silent call p) (name : String) :
    Silent call (p.label name) := by
  intro c c' a h hrun
  rw [run_label] at hrun
  cases hp' : p.run call c with
  | success | overrun =>
      rw [hp'] at hrun
      exact hp (hp'.trans hrun)
  | failure h' =>
      rw [hp'] at hrun
      cases hrun

/-! ### Labelled parsers -/

/-- Wherever in a text the parser is run, its hints are labelled from the list. -/
def Labels (call : (r : ρ) → Cursor → Outcome (V r)) (labels : List String) (p : Parser V α) :
    Prop :=
  ∀ ⦃c : Cursor⦄ ⦃cs : List Char⦄, c.rest = .chars cs → (p.run call c).hints.LabelledBy labels

namespace Labels

variable {p : Parser V α} {q : Parser V β}

/-- A longer list of labels will do too. -/
theorem mono {labels' : List String} (hp : Labels call labels p) (hsub : labels ⊆ labels') :
    Labels call labels' p := fun _ _ hc ↦ (hp hc).mono hsub

/-- A token is expected under its own name. -/
theorem token {name : String} (size : List Char → Option Nat) (hname : name ∈ labels) :
    Labels call labels (token name size : Parser V String) := by
  intro c cs _
  rw [run_token]
  rcases takeToken_cases name size c with heq | ⟨_, _, heq⟩
  · rw [heq]
    exact .expected c.offset hname
  · rw [heq]
    exact .empty

/-- The name of a token that matches everywhere is no label. -/
theorem token_of_total (name : String) {size : List Char → Option Nat}
    (hsize : ∀ cs, size cs ≠ none) : Labels call labels (.token name size : Parser V String) := by
  intro c cs hc
  rw [run_token]
  rcases takeToken_cases name size c with heq | ⟨_, _, heq⟩
  · have hrejects : Rejects call (.token name size : Parser V String) c := ⟨_, heq⟩
    exact absurd ((rejects_token hc).mp hrejects) (hsize cs)
  · rw [heq]
    exact .empty

/-- A label covers what the failures below it have recorded. -/
theorem label (hp : Silent call p) {name : String} (hname : name ∈ labels) :
    Labels call labels (p.label name) := by
  intro c cs _
  rw [run_label]
  cases hrun : p.run call c with
  | success c' a h =>
      obtain rfl := hp hrun
      exact .empty
  | failure h => exact .expected _ hname
  | overrun => exact .empty

theorem map {f : α → β} (hp : Labels call labels p) : Labels call labels (p.map f) := by
  intro c cs hc
  change ((p.run call c).map f).hints.LabelledBy labels
  rw [Outcome.hints_map]
  exact hp hc

/-- The span makes no difference to the hints. -/
theorem spanned (hp : Labels call labels p) : Labels call labels p.spanned := by
  intro c cs hc
  have hlabelled := hp hc
  rw [run_spanned]
  cases hrun : p.run call c with
  | success | failure =>
      rw [hrun] at hlabelled
      exact hlabelled
  | overrun => exact .empty

/-- What is optional keeps the hints of what is not there. -/
theorem optional (hp : Labels call labels p) : Labels call labels p.optional := by
  intro c cs hc
  have hlabelled := hp hc
  rw [run_optional]
  cases hrun : p.run call c with
  | success | failure =>
      rw [hrun] at hlabelled
      exact hlabelled
  | overrun => exact .empty

theorem either {p q : Parser V α} (hp : Labels call labels p) (hq : Labels call labels q) :
    Labels call labels (p.either q) := by
  intro c cs hc
  have hlabelled := hp hc
  have hlabelled' := hq hc
  rw [run_either]
  cases hrun : p.run call c with
  | success | overrun =>
      rw [hrun] at hlabelled
      exact hlabelled
  | failure h =>
      rw [hrun] at hlabelled
      cases hrun' : q.run call c with
      | success =>
          rw [hrun'] at hlabelled'
          exact hlabelled.join hlabelled'
      | failure =>
          rw [hrun'] at hlabelled'
          exact hlabelled.deepest hlabelled'
      | overrun => exact .empty

variable (hcall : Forward call)
include hcall

theorem both (hp : Labels call labels p) (hq : Labels call labels q) :
    Labels call labels (p.both q) := by
  intro c cs hc
  have hlabelled := hp hc
  change ((p.run call c).andThen fun c a ↦ (q.run call c).map (a, ·)).hints.LabelledBy labels
  cases hrun : p.run call c with
  | success m a h =>
      rw [hrun] at hlabelled
      obtain ⟨r, hr⟩ := Reads.exists_rest hcall ⟨h, hrun⟩ hc
      have hlabelled' := hq hr
      rw [Outcome.andThen]
      cases hrun' : q.run call m with
      | success | failure =>
          rw [hrun'] at hlabelled'
          exact hlabelled.join hlabelled'
      | overrun => exact .empty
  | failure h =>
      rw [hrun] at hlabelled
      exact hlabelled
  | overrun => exact .empty

theorem first (hp : Labels call labels p) (hq : Labels call labels q) :
    Labels call labels (p.first q) := (hp.both hcall hq).map

theorem second (hp : Labels call labels p) (hq : Labels call labels q) :
    Labels call labels (p.second q) := (hp.both hcall hq).map

theorem many (hp : Labels call labels p) : Labels call labels p.many := by
  have hmany (bound : List Char) {c : Cursor} {cs : List Char} {h : Hints}
      (hc : c.rest = .chars cs) (hh : h.LabelledBy labels) (values : List α) :
      (runMany (p.run call) bound c h values).hints.LabelledBy labels := by
    have hjoin {c : Cursor} {cs : List Char} {o : Outcome α} {h : Hints} (hc : c.rest = .chars cs)
        (hh : h.LabelledBy labels) (hrun : p.run call c = o) :
        (h.join o.hints).LabelledBy labels := hh.join (hrun ▸ hp hc)
    fun_induction runMany (p.run call) bound c h values generalizing cs with
    | case1 | case5 => exact .empty
    | case2 _ _ _ _ _ h' hrun _ _ _ ih =>
        obtain ⟨r, hr⟩ := Reads.exists_rest hcall ⟨h', hrun⟩ hc
        exact ih hr (hjoin hc hh hrun)
    | case3 _ _ _ _ _ _ _ hrun _ => exact hjoin hc hh hrun
    | case4 _ _ _ _ _ hrun => exact hjoin hc hh hrun
  intro c cs hc
  exact hmany c.ahead hc .empty []

theorem sepBy (hp : Labels call labels p) (hq : Labels call labels q) :
    Labels call labels (p.sepBy q) :=
  (hp.both hcall ((hq.second hcall hp).many hcall)).map

omit hcall in
/-- Blanks are always there, so they are never expected. -/
theorem blanks : Labels call labels (blanks : Parser V Unit) :=
  (token_of_total _ fun _ ↦ Option.some_ne_none _).map

theorem lexeme (hp : Labels call labels p) : Labels call labels p.lexeme := hp.first hcall blanks

theorem symbol {s : String} (hs : Text.quoted s ∈ labels) :
    Labels call labels (symbol s : Parser V String) := (token _ hs).lexeme hcall

section Operators

variable {operand : Parser V α} {op : Parser V Op} (hoperand : Labels call labels operand)
  (hop : Labels call labels op)
include hoperand hop

/-- Operators in front are labelled if the operand and the operators are. -/
theorem prefixed {apply : Op → α → α} : Labels call labels (operand.prefixed op apply) :=
  ((hop.many hcall).both hcall hoperand).map

theorem postfixed {apply : α → Op → α} : Labels call labels (operand.postfixed op apply) :=
  (hoperand.both hcall (hop.many hcall)).map

/-- A chain is labelled if the operand and the operators are. -/
theorem chainLeft {apply : Op → α → α → α} : Labels call labels (operand.chainLeft op apply) :=
  (hoperand.both hcall ((hop.both hcall hoperand).many hcall)).map

end Operators

end Labels

end Parser

/-! ### Whole texts -/

namespace Outcome

variable {α : Type}

/-- The hints of the outcome, and if it leaves a part of the text over, that its end was expected
there. -/
def reported : Outcome α → Hints
  | success c _ h =>
    if c.rest = .chars [] then h else h.join (.expected c.offset endOfInput)
  | failure h => h
  | overrun => .empty

/-- What is left over adds the label for the end of the text. -/
theorem labelledBy_reported {labels : List String} {o : Outcome α}
    (h : o.hints.LabelledBy labels) : o.reported.LabelledBy (endOfInput :: labels) := by
  have hend := h.mono (List.subset_cons_self endOfInput labels)
  cases o with
  | success c a h =>
      rw [reported]
      split
      · exact hend
      · exact hend.join (.expected _ List.mem_cons_self)
  | failure h => exact hend
  | overrun => exact .empty

end Outcome

namespace Grammar

variable {ρ : Type} {V : ρ → Type} {g : Grammar V} {depth : Nat} {α : Type} {p : Parser V α}
  {cs : List Char} {e : ParseError}

/-- If the hints of the run are labelled, its error names them. -/
theorem names_of_parse {labels : List String} (he : g.parse depth p cs = .error (.unexpected e))
    (hlabels : (g.runAt depth p (.ofText cs 0)).hints.LabelledBy labels) :
    e.Names (g.runAt depth p (.ofText cs 0)).reported := by
  obtain ⟨h, rfl, hfurthest, hplaced, hrun⟩ := exists_hints_of_parse he
  have hreported : (g.runAt depth p (.ofText cs 0)).reported = h := by
    rcases hrun with hrun | ⟨c, a, h', hrun, hrest, rfl⟩
    · rw [hrun]
      rfl
    · rw [hrun]
      exact if_neg hrest
  have hlabelled := Outcome.labelledBy_reported hlabels
  have hne : h.offsets ≠ [] := List.ne_nil_of_mem (hplaced.exact.mem_offsets hfurthest)
  rw [hreported] at hlabelled ⊢
  exact ParseError.names_ofHints hplaced.exact hlabelled hne

end Grammar

end Parsing

end ZPlane
