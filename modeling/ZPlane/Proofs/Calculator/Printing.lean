import Mathlib
import ZPlane.Design.Root
import ZPlane.Proofs.Calculator.Rendering
import ZPlane.Proofs.Calculator.Extension
import ZPlane.Proofs.Complex.Alike
import ZPlane.Proofs.Number.Printed

/-!
# Values that the calculator takes back

A complex number or a polar form with finite parts is written as a phrase of the calculator.  Its
numbers are numerals behind a sign, which is one of the calculator, and the `i` behind a numeral is
a factor.  The phrase has the value that is put together from the printed parts, up to the signs of
zeros: a sign in front of `0` and the zeros that arithmetic leaves in the other part make no more
difference.
-/

namespace ZPlane

open Binary64 (ofText? ofText?_fixed isNaN_of_isFinite isFinite_rounded)

namespace Calculator

open Parsing
open Text (skip)

/-! ### Printed parts -/

namespace Expr

variable (p : ℕ) (x : Binary64)

/-- The expression behind the sign that the number is printed with. -/
def withSign (e : Expr) : Expr := if x.isNegative then .signed .negate e else e

/-- A printed number. -/
def real : Expr := withSign x (.number (x.printed p).value)

/-- The numeral and the letter `i` behind it. -/
def multiple (n : Numeral) : Expr := .juxtaposed (.number n.value) (.constant .i)

/-- A printed number in front of `i`. -/
def imaginary : Expr := withSign x (multiple (x.printed p))

/-- The power of `e` by a printed argument. -/
def rotation : Expr := .operated .pow (.constant .e) (imaginary p x)

end Expr

section Values

variable {p : ℕ} {x : Binary64}

/-- An expression with a sign has the negated value. -/
theorem Expr.value_withSign (e : Expr) :
    (e.withSign x).value = if x.isNegative then -e.value else e.value := by
  rw [withSign]
  split
  · rfl
  · rfl

/-- A real number is printed as what it is rounded to. -/
theorem value_real : (Expr.real p x).value.Alike (.ofReal (x.rounded p)) := by
  rw [Expr.real, Expr.value_withSign, Binary64.rounded]
  split
  · exact Complex.neg_ofReal _
  · exact .refl _

theorem value_multiple (hx : x.isFinite = true) :
    (Expr.multiple (x.printed p)).value.Alike ⟨0, (x.printed p).value⟩ :=
  Complex.ofReal_mul_i (Binary64.isFinite_value_printed hx p)

/-- An imaginary number is printed as what it is rounded to. -/
theorem value_imaginary (hx : x.isFinite = true) :
    (Expr.imaginary p x).value.Alike ⟨0, x.rounded p⟩ := by
  rw [Expr.imaginary, Expr.value_withSign, Binary64.rounded]
  split
  · exact (value_multiple hx).neg.trans (Complex.neg_imaginary _)
  · exact value_multiple hx

end Values

/-! ### Phrases -/

section Phrases

variable {L : Level} {p : ℕ} {x : Binary64} {t r : List Char} {e : Expr}

/-- A constant is a term in front of what is apart. -/
theorem derives_constant (k : Constant) (hr : Apart r) :
    Derives .term (k.name.toList ++ r) r (.constant k) :=
  .constant (k.isName.longest fun d hd ↦ (hr d hd).1)

/-- A number is a term in front of what is apart. -/
theorem derives_numeral (n : Numeral) (hr : Apart r) :
    Derives .term (n.text ++ r) r (.number n.value) :=
  .number (n.longest_text fun d hd ↦ ⟨(hr d hd).1, (hr d hd).2.1⟩)

/-- No number has an `i`, so that one behind it is a constant. -/
theorem derives_multiple (n : Numeral) (hr : Apart r) :
    Derives .juxtaposed (n.text ++ 'i' :: r) r (Expr.multiple n) := by
  have hnumber : Longest IsNumeral (n.text ++ 'i' :: r) n.text ('i' :: r) := by
    refine .of_numeral n ?_
    rintro _ ⟨⟩
    decide
  have hi : Derives .term ('i' :: r) r (.constant .i) := derives_constant .i hr
  refine .juxtaposed (.tighter (.number hnumber)) ?_
  rwa [hi.skip_eq]

/-- A minus in front of a phrase makes it a signed one. -/
theorem derives_withSign (h : Derives .juxtaposed t r e) :
    Derives .signed (x.signText ++ t) r (e.withSign x) := by
  rw [Binary64.signText, Expr.withSign]
  split
  · have hminus : UnaryFn.negate ∈ UnaryFn.signs := by decide
    have hskip : Derives .signed (skip t) r e := by
      rw [h.skip_eq]
      exact .tighter h
    exact .signed hminus hskip
  · exact .tighter h

/-- A printed real number is a phrase. -/
theorem derives_real (hx : x.isFinite = true) (hr : Apart r) :
    Derives .signed ((x.fixed p).toList ++ r) r (.real p x) := by
  rw [Binary64.toList_fixed hx, List.append_assoc]
  exact derives_withSign (.tighter (derives_numeral _ hr))

/-- A printed imaginary number is a phrase. -/
theorem derives_imaginary (hx : x.isFinite = true) (hr : Apart r) :
    Derives .signed ((x.fixed p).toList ++ 'i' :: r) r (.imaginary p x) := by
  rw [Binary64.toList_fixed hx, List.append_assoc]
  exact derives_withSign (derives_multiple _ hr)

/-- A printed power of `e` is a phrase. -/
theorem derives_rotation (hx : x.isFinite = true) (r : List Char) :
    Derives .power ("e^(".toList ++ ((x.fixed p).toList ++ 'i' :: ')' :: r)) r (.rotation p x) := by
  have hi : Derives .signed ((x.fixed p).toList ++ 'i' :: ')' :: r) (')' :: r) (.imaginary p x) :=
    derives_imaginary hx (apart_close r)
  have hinner : Derives .sum (skip ((x.fixed p).toList ++ 'i' :: ')' :: r)) (')' :: r)
      (.imaginary p x) := by
    rw [hi.skip_eq]
    exact hi.loosen (by decide)
  have hexponent : Derives .term ('(' :: ((x.fixed p).toList ++ 'i' :: ')' :: r)) r
      (.imaginary p x) := .parenthesised hinner rfl
  have hbase := derives_constant .e
    (apart_cons (c := '^') (by decide) ('(' :: ((x.fixed p).toList ++ 'i' :: ')' :: r)))
  exact .operated (f := .pow) (hbase.loosen (by decide)) rfl (hexponent.loosen (by decide))

/-- An operator with blanks around it, between a printed number and a multiple of `i`. -/
theorem derives_spaced {f : BinaryFn} (hx : x.isFinite = true) (n : Numeral) (p : ℕ) :
    Derives f.level ((x.fixed p).toList ++ ' ' :: (f.symbol.toList ++ ' ' :: (n.text ++ ['i']))) []
      (.operated f (.real p x) (.multiple n)) := by
  have hleft : Level.signed.rank ≤ f.level.rank := by cases f <;> decide
  have hright : Level.juxtaposed.rank ≤ f.level.tighter.rank := by cases f <;> decide
  have ha := derives_real (p := p) hx
    (apart_cons (c := ' ') (by decide) (f.symbol.toList ++ ' ' :: (n.text ++ ['i'])))
  have hb := derives_multiple n apart_nil
  refine .operated (ha.loosen hleft) (skip_symbol f _) ?_
  show Derives _ (skip (n.text ++ ['i'])) _ _
  rw [hb.skip_eq]
  exact hb.loosen hright

/-- A phrase up to the end of a text is what the text says. -/
theorem Derives.calculate {text : String} (h : Derives L text.toList [] e) :
    calculate text = .ok e.value := by
  refine calculate_of_denotes ⟨[], ?_, rfl⟩
  rw [h.skip_eq]
  exact h.loosen L.rank_le

end Phrases

/-! ### Complex numbers -/

section Cartesian

variable {z : Complex Binary64}

/-- The two parts as they are printed, where a part that is left out is zero. -/
def shown (p : ℕ) (z : Complex Binary64) : Complex Binary64 :=
  ⟨if z.re.agrees 0 then 0 else z.re.rounded p, if z.im.agrees 0 then 0 else z.im.rounded p⟩

/-- A sum and a difference as they are written, with the digits of the imaginary part. -/
theorem calculate_operated {f : BinaryFn} {sep : String} (hre : z.re.isFinite = true)
    (him : z.im.isFinite = true) (hsep : sep.toList = ' ' :: (f.symbol.toList ++ [' '])) (p : ℕ) :
    calculate (z.re.fixed p ++ sep ++ z.im.abs.fixed p ++ "i") =
      .ok (f.apply (Expr.real p z.re).value (Expr.multiple (z.im.printed p)).value) := by
  have habs : (z.im.abs.fixed p).toList = (z.im.printed p).text := by
    rw [Binary64.toList_fixed ((Binary64.isFinite_abs _).trans him), Binary64.signText,
      Binary64.isNegative_abs, Binary64.printed_abs]
    rfl
  have hphrase := derives_spaced (f := f) hre (z.im.printed p) p
  refine Derives.calculate (e := .operated f _ _) (L := f.level) ?_
  simpa [habs, hsep] using hphrase

/-- The sign of the imaginary part is the operator. -/
theorem calculate_sum (hre : z.re.isFinite = true) (him : z.im.isFinite = true)
    (hne : z.im.rank ≠ 0) (p : ℕ) :
    ∃ w, w.Alike ⟨z.re.rounded p, z.im.rounded p⟩ ∧
      calculate (z.re.fixed p ++ (if z.im < 0 then " - " else " + ") ++ z.im.abs.fixed p ++ "i") =
        .ok w := by
  have hsign := Binary64.lt_zero_iff (isNaN_of_isFinite him) hne
  have hx := isNaN_of_isFinite (isFinite_rounded hre p)
  have hy := isNaN_of_isFinite (Binary64.isFinite_value_printed him p)
  have hrounded : z.im.rounded p =
      if z.im.isNegative then -(z.im.printed p).value else (z.im.printed p).value := rfl
  rw [hrounded]
  by_cases hneg : z.im.isNegative = true
  · rw [if_pos (hsign.mpr hneg), if_pos hneg]
    refine ⟨_, ?_, calculate_operated (f := .sub) hre him rfl p⟩
    exact (value_real.sub (value_multiple him)).trans (Complex.ofReal_sub_imaginary hx hy)
  · rw [if_neg (hsign.not.mpr hneg), if_neg hneg]
    refine ⟨_, ?_, calculate_operated (f := .add) hre him rfl p⟩
    exact (value_real.add (value_multiple him)).trans (Complex.ofReal_add_imaginary hx hy)

/-- A rendered number is calculated to what is shown of it. -/
theorem calculate_render (hre : z.re.isFinite = true) (him : z.im.isFinite = true) (p : ℕ) :
    ∃ w, calculate (z.render p) = .ok w ∧ w.Alike (shown p z) := by
  have horigin : z.isOrigin = (z.re.agrees 0 && z.im.agrees 0) := rfl
  rw [Complex.render, shown, horigin]
  cases hx : z.re.agrees 0 with
  | true =>
      cases hy : z.im.agrees 0 with
      | true =>
          have hzero : Derives .term "0".toList [] (.number (digitNumeral '0' rfl).value) :=
            derives_numeral (digitNumeral '0' rfl) apart_nil
          exact ⟨_, hzero.calculate, .refl 0⟩
      | false =>
          simp only [Bool.and_false, Bool.false_eq_true, if_false, if_true]
          refine ⟨_, Derives.calculate (L := .signed) ?_, value_imaginary him⟩
          rw [String.toList_append]
          exact derives_imaginary him apart_nil
  | false =>
      cases hy : z.im.agrees 0 with
      | true =>
          simp only [Bool.false_and, Bool.false_eq_true, if_false, if_true]
          refine ⟨_, Derives.calculate (L := .signed) ?_, value_real⟩
          have hreal := derives_real (p := p) hre apart_nil
          rwa [List.append_nil] at hreal
      | false =>
          simp only [Bool.false_and, Bool.false_eq_true, if_false]
          have hne : z.im.rank ≠ 0 := by
            rw [Ne, ← Binary64.agrees_zero_iff, hy]
            exact Bool.false_ne_true
          obtain ⟨w, halike, hw⟩ := calculate_sum hre him hne p
          exact ⟨w, hw, halike⟩

end Cartesian

/-! ### Polar forms -/

section Polar

variable {u : Polar}

/-- The number `e ^ (t i)`. -/
def turned (t : Binary64) : Complex Binary64 :=
  BinaryFn.pow.apply Constant.e.value (BinaryFn.mul.apply (.ofReal t) Constant.i.value)

/-- The polar form with the modulus `m` and the argument `t`, where a factor that is left out for
the parts of `u` is one. -/
def evaluated (u : Polar) (m t : Binary64) : Complex Binary64 :=
  if closeTo u.argument 0 Scalar.tolerance then .ofReal m
  else if closeTo u.modulus 1 Scalar.tolerance then turned t
  else BinaryFn.mul.apply (.ofReal m) (turned t)

/-- A printed power of `e` is that by the printed argument. -/
theorem value_rotation {p : ℕ} {x : Binary64} (hx : x.isFinite = true) :
    (Expr.rotation p x).value.Alike (turned (x.rounded p)) := by
  have hexponent : (Expr.imaginary p x).value.Alike
      (.ofReal (x.rounded p) * Constant.i.value) :=
    (value_imaginary hx).trans (Complex.ofReal_mul_i (isFinite_rounded hx p)).symm
  simp only [Expr.rotation, Expr.value, turned, BinaryFn.apply]
  exact hexponent.pow _

/-- A rendered polar form is calculated to what its printed parts give. -/
theorem calculate_render_polar (hm : u.modulus.isFinite = true) (ht : u.argument.isFinite = true)
    (p : ℕ) : ∃ w, calculate (u.render p) = .ok w ∧
      w.Alike (evaluated u (u.modulus.rounded p) (u.argument.rounded p)) := by
  have hrotation := derives_rotation (p := p) ht []
  rw [Polar.render, evaluated]
  split
  · have hreal := derives_real (p := p) hm apart_nil
    rw [List.append_nil] at hreal
    exact ⟨_, hreal.calculate, value_real⟩
  · extract_lets rotation
    have htext : rotation.toList = "e^(".toList ++ ((u.argument.fixed p).toList ++ ['i', ')']) := by
      simp [rotation]
    rw [← htext] at hrotation
    split
    · exact ⟨_, hrotation.calculate, value_rotation ht⟩
    · refine ⟨_, Derives.calculate (L := BinaryFn.mul.level) (e := .operated .mul _ _) ?_,
        value_real.mul (value_rotation ht)⟩
      have hreal := derives_real (p := p) hm (apart_cons (c := '*') (by decide) rotation.toList)
      have hbehind : Derives .power (skip rotation.toList) [] (.rotation p u.argument) := by
        rwa [hrotation.skip_eq]
      have hproduct := Derives.operated (f := .mul) (hreal.loosen (by decide)) rfl hbehind
      simpa using hproduct

end Polar

/-! ### Both forms -/

section Renderings

variable {z : Complex Binary64} {u : Polar}

/-- What is alike to a printed part agrees with it. -/
theorem agrees_of_alike_rounded {x y : Binary64} (hx : x.isFinite = true) {p : ℕ}
    (h : y.Alike (if x.agrees 0 then 0 else x.rounded p)) :
    y.agrees (if x.agrees 0 then 0 else x.rounded p) = true := by
  refine h.agrees (h.isNaN_eq.trans ?_)
  split
  · rfl
  · exact isNaN_of_isFinite (isFinite_rounded hx p)

/-- A rendered number is calculated to its printed parts, and a rendered polar form to the product
of its printed modulus and the power of `e` by its printed argument. -/
theorem renderings_read_back (hre : z.re.isFinite = true) (him : z.im.isFinite = true)
    (hm : u.modulus.isFinite = true) (ht : u.argument.isFinite = true) (p : ℕ) :
    (∃ x y w, ofText? (z.re.fixed p) = some x ∧ ofText? (z.im.fixed p) = some y ∧
      calculate (z.render p) = .ok w ∧ w.re.agrees (if z.re.agrees 0 then 0 else x) = true ∧
        w.im.agrees (if z.im.agrees 0 then 0 else y) = true) ∧
    (Root.parse (Root.ofValue z).text).isValid = true ∧
    ∃ m t w, ofText? (u.modulus.fixed p) = some m ∧ ofText? (u.argument.fixed p) = some t ∧
      calculate (u.render p) = .ok w ∧ w.Alike (evaluated u m t) := by
  refine ⟨?_, ?_, ?_⟩
  · obtain ⟨w, hw, halike⟩ := calculate_render hre him p
    exact ⟨_, _, w, ofText?_fixed hre p, ofText?_fixed him p, hw,
      agrees_of_alike_rounded hre halike.re, agrees_of_alike_rounded him halike.im⟩
  · obtain ⟨w, hw, -⟩ := calculate_render hre him defaultPlaces
    rw [Root.ofValue, Root.parse_of_ok hw]
    rfl
  · obtain ⟨w, hw, halike⟩ := calculate_render_polar hm ht p
    exact ⟨_, _, w, ofText?_fixed hm p, ofText?_fixed ht p, hw, halike⟩

/-- The number `-1.5 - 0.25i` and the polar form of modulus `2` and argument `-0.5`, with one place,
which halves `0.25` to an even digit. -/
theorem renderings_read_back_negative :
    ((-1.5 : Binary64).isFinite = true ∧ (-0.25 : Binary64).isFinite = true ∧
      (2.0 : Binary64).isFinite = true ∧ (-0.5 : Binary64).isFinite = true) ∧
    (∃ x y w, ofText? ((-1.5 : Binary64).fixed 1) = some x ∧
      ofText? ((-0.25 : Binary64).fixed 1) = some y ∧
      calculate (Complex.render 1 ⟨-1.5, -0.25⟩) = .ok w ∧
      w.re.agrees (if Binary64.agrees (-1.5) 0 then 0 else x) = true ∧
        w.im.agrees (if Binary64.agrees (-0.25) 0 then 0 else y) = true) ∧
    (Root.parse (Root.ofValue ⟨-1.5, -0.25⟩).text).isValid = true ∧
    ∃ m t w, ofText? ((2.0 : Binary64).fixed 1) = some m ∧
      ofText? ((-0.5 : Binary64).fixed 1) = some t ∧
      calculate (Polar.render 1 ⟨2.0, -0.5⟩) = .ok w ∧ w.Alike (evaluated ⟨2.0, -0.5⟩ m t) := by
  have hre : (-1.5 : Binary64).isFinite = true := by decide +kernel
  have him : (-0.25 : Binary64).isFinite = true := by decide +kernel
  have hm : (2.0 : Binary64).isFinite = true := by decide +kernel
  have ht : (-0.5 : Binary64).isFinite = true := by decide +kernel
  exact ⟨⟨hre, him, hm, ht⟩, renderings_read_back (z := ⟨-1.5, -0.25⟩) (u := ⟨2.0, -0.5⟩) hre him hm
    ht 1⟩

end Renderings

end Calculator

end ZPlane
