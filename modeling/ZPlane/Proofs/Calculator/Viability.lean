import Mathlib
import ZPlane.Proofs.Calculator.Extension
import ZPlane.Proofs.Calculator.Rendering

/-!
# Beginnings of phrases

What comes before some place of a text begins a phrase if there is text to go on with that makes it
one (`Viable`).  A place where an operand is missing goes on with `(i)`, an open call or parenthesis
with what closes it, and what is a phrase already with nothing.  There is one lemma for each way to
be in the middle of a phrase.
-/

namespace ZPlane

namespace Calculator

open Parsing
open Text (skip)

/-- The text of `cs` before `x` goes on, apart from what is there, to a phrase of the level. -/
def Viable (L : Level) (cs x : List Char) : Prop :=
  ∃ w s r e, cs = w ++ x ∧ Apart s ∧ Derives L (w ++ s) r e ∧ skip r = []

variable {L : Level} {cs r r₀ r₁ r₂ r₃ s t x : List Char} {a e : Expr}

/-! ### Phrases to go on with -/

/-- An operand in front of a symbol. -/
theorem derives_i {d : Char} (hd : isWord d = false) (t : List Char) :
    Derives .sum (skip ('i' :: d :: t)) (d :: t) (.constant .i) := by
  have hname : Longest IsName ('i' :: d :: t) Constant.i.name.toList (d :: t) :=
    Constant.i.isName.longest (by rintro _ ⟨⟩; exact hd)
  have hterm : Derives .term ('i' :: d :: t) (d :: t) (.constant .i) := .constant hname
  rw [hterm.skip_eq]
  exact hterm.loosen (Nat.zero_le _)

/-- An operand that goes on with no token. -/
theorem derives_unit (L : Level) : Derives L ['(', 'i', ')'] [] (.constant .i) := by
  have hterm : Derives .term ['(', 'i', ')'] [] (.constant .i) :=
    .parenthesised (derives_i rfl []) rfl
  exact hterm.loosen (Nat.zero_le _)

/-! ### Phrases behind blanks -/

/-- A phrase that goes on in what is left is one behind the blanks. -/
theorem Derives.behind_blanks (h : Derives L (skip r₁ ++ s) r e) :
    Derives L (skip (r₁ ++ s)) r e := by
  rwa [Text.skip_append, h.skip_eq]

/-- Behind blanks, with more text after it than was needed. -/
theorem Derives.behind_blanks_append (h : Derives L (skip r₁ ++ s) r e) (hr : skip r = [])
    (ht : Apart t) : Derives L (skip (r₁ ++ (s ++ t))) (r ++ t) e ∧ skip (r ++ t) = skip t := by
  have happend := h.append ht
  rw [List.append_assoc] at happend
  refine ⟨happend.behind_blanks, ?_⟩
  rw [Text.skip_append, hr, List.nil_append]

/-! ### Places in a phrase -/

/-- Nothing has been read. -/
theorem viable_start (L : Level) (cs : List Char) : Viable L cs cs :=
  ⟨[], ['(', 'i', ')'], [], _, rfl, apart_open _, derives_unit L, rfl⟩

/-- A phrase has been read. -/
theorem Derives.viable (h : Derives L cs r e) : Viable L cs (skip r) := by
  obtain ⟨u, r', rfl, h', hr'⟩ := h.replace (w := []) rfl apart_nil
  exact ⟨u, [], r', e, rfl, apart_nil, h', hr'⟩

/-- What goes on to a phrase of the tighter level goes on to one of this. -/
theorem Viable.loosen (h : Viable L.tighter cs x) : Viable L cs x := by
  obtain ⟨w, s, r, e, hw, hs, he, hr⟩ := h
  exact ⟨w, s, r, e, hw, hs, .tighter he, hr⟩

/-- The name of a function has been read. -/
theorem viable_name {f : UnaryFn} (hf : Longest IsName cs f.name.toList r₀) :
    Viable .term cs (skip r₀) := by
  obtain ⟨u, r', rfl, hf', hr'⟩ := hf.replace_name (w := []) rfl (apart_open ['i', ')'])
  have hcall := Derives.call hf' (fun k ↦ k.name_ne_unary f) hr' (derives_i rfl []) rfl
  exact ⟨u, _, [], _, rfl, apart_open _, hcall, rfl⟩

/-- A function of two arguments goes on with its arguments. -/
theorem viable_name₂ {f : BinaryFn} (hf : Longest IsName cs f.name.toList r₀) :
    Viable .term cs (skip r₀) := by
  obtain ⟨u, r', rfl, hf', hr'⟩ :=
    hf.replace_name (w := []) rfl (apart_open ['i', ',', 'i', ')'])
  have hcall := Derives.call₂ hf' (fun k ↦ k.name_ne_binary f) hr' (derives_i rfl ['i', ')']) rfl
    (derives_i rfl []) rfl
  exact ⟨u, _, [], _, rfl, apart_open _, hcall, rfl⟩

/-- In the parentheses of a call. -/
theorem Viable.call {f : UnaryFn} (hf : Longest IsName cs f.name.toList r₀)
    (hopen : skip r₀ = '(' :: r₁) (h : Viable .sum (skip r₁) x) : Viable .term cs x := by
  obtain ⟨w, s, r, a, hw, hs, ha, hr⟩ := h
  obtain ⟨r₁, rfl, rfl⟩ := Text.exists_skip_cut hw
  -- The call is closed behind what completes its argument, and all in front is read as before.
  have hclosing : Apart (s ++ [')']) := hs.append (apart_close [])
  obtain ⟨u, r', rfl, hf', hopen'⟩ := hf.replace_name (w := '(' :: r₁) hopen hclosing
  obtain ⟨ha', hclose⟩ := ha.behind_blanks_append hr (apart_close [])
  have hcall := Derives.call hf' (fun k ↦ k.name_ne_unary f) hopen' ha' hclose
  exact ⟨u, _, [], _, rfl, hclosing, hcall, rfl⟩

/-- In the first argument of two. -/
theorem Viable.call₂_left {f : BinaryFn} (hf : Longest IsName cs f.name.toList r₀)
    (hopen : skip r₀ = '(' :: r₁) (h : Viable .sum (skip r₁) x) : Viable .term cs x := by
  obtain ⟨w, s, r, a, hw, hs, ha, hr⟩ := h
  obtain ⟨r₁, rfl, rfl⟩ := Text.exists_skip_cut hw
  have hcomma : Apart [',', 'i', ')'] := apart_comma _
  have hclosing : Apart (s ++ [',', 'i', ')']) := hs.append hcomma
  obtain ⟨u, r', rfl, hf', hopen'⟩ := hf.replace_name (w := '(' :: r₁) hopen hclosing
  obtain ⟨ha', hcomma'⟩ := ha.behind_blanks_append hr hcomma
  have hcall := Derives.call₂ hf' (fun k ↦ k.name_ne_binary f) hopen' ha' hcomma'
    (derives_i rfl []) rfl
  exact ⟨u, _, [], _, rfl, hclosing, hcall, rfl⟩

/-- In the second argument of two. -/
theorem Viable.call₂_right {f : BinaryFn} (hf : Longest IsName cs f.name.toList r₀)
    (hopen : skip r₀ = '(' :: r₁) (ha : Derives .sum (skip r₁) r₂ a) (hcomma : skip r₂ = ',' :: r₃)
    (h : Viable .sum (skip r₃) x) : Viable .term cs x := by
  obtain ⟨w, s, r, b, hw, hs, hb, hr⟩ := h
  obtain ⟨r₃, rfl, rfl⟩ := Text.exists_skip_cut hw
  have hclosing : Apart (s ++ [')']) := hs.append (apart_close [])
  obtain ⟨v, r₂', hv, ha', hcomma'⟩ := ha.replace (w := ',' :: r₃) hcomma hclosing
  obtain ⟨r₁, rfl, rfl⟩ := Text.exists_skip_cut hv
  obtain ⟨u, r', rfl, hf', hopen'⟩ := hf.replace_name (w := '(' :: r₁) hopen hclosing
  obtain ⟨hb', hclose⟩ := hb.behind_blanks_append hr (apart_close [])
  have hcall := Derives.call₂ hf' (fun k ↦ k.name_ne_binary f) hopen' ha'.behind_blanks hcomma' hb'
    hclose
  exact ⟨u, _, [], _, rfl, hclosing, hcall, rfl⟩

/-- What goes on in parentheses goes on to a term. -/
theorem Viable.parenthesised (h : Viable .sum (skip r₁) x) : Viable .term ('(' :: r₁) x := by
  obtain ⟨w, s, r, a, hw, hs, ha, hr⟩ := h
  obtain ⟨r₁, rfl, rfl⟩ := Text.exists_skip_cut hw
  obtain ⟨ha', hclose⟩ := ha.behind_blanks_append hr (apart_close [])
  exact ⟨'(' :: r₁, s ++ [')'], [], a, rfl, hs.append (apart_close []), .parenthesised ha' hclose,
    rfl⟩

/-- What goes on to a further term goes on to terms side by side. -/
theorem Viable.juxtaposed (ha : Derives .juxtaposed cs r₁ a) (h : Viable .term (skip r₁) x) :
    Viable .juxtaposed cs x := by
  obtain ⟨w, s, r, b, hw, hs, hb, hr⟩ := h
  obtain ⟨u, r', rfl, ha', hr'⟩ := ha.replace hw hs
  rw [hb.skip_eq] at hr'
  exact ⟨u, s, r, .juxtaposed a b, rfl, hs, .juxtaposed ha' (hr' ▸ hb), hr⟩

/-- What goes on behind a sign goes on to a signed phrase. -/
theorem Viable.signed {f : UnaryFn} (hf : f ∈ UnaryFn.signs) (h : Viable .signed (skip r₁) x) :
    Viable .signed (f.name.toList ++ r₁) x := by
  obtain ⟨w, s, r, a, hw, hs, ha, hr⟩ := h
  obtain ⟨r₁, rfl, rfl⟩ := Text.exists_skip_cut hw
  refine ⟨f.name.toList ++ r₁, s, r, .signed f a, (List.append_assoc _ _ _).symm, hs, ?_, hr⟩
  rw [List.append_assoc]
  exact .signed hf ha.behind_blanks

/-- What goes on behind an operator goes on to its right operand. -/
theorem Viable.operated {f : BinaryFn} (ha : Derives f.level cs r₁ a)
    (hop : skip r₁ = f.symbol.toList ++ r₂) (h : Viable f.level.tighter (skip r₂) x) :
    Viable f.level cs x := by
  obtain ⟨w, s, r, b, hw, hs, hb, hr⟩ := h
  obtain ⟨r₂, rfl, rfl⟩ := Text.exists_skip_cut hw
  rw [← List.append_assoc] at hop
  obtain ⟨u, r', rfl, ha', hop'⟩ := ha.replace hop hs
  rw [List.append_assoc, skip_symbol] at hop'
  exact ⟨u, s, r, .operated f a b, rfl, hs, .operated ha' hop' hb.behind_blanks, hr⟩

end Calculator

end ZPlane
