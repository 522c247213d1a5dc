import Mathlib
import ZPlane.Polynomial.Solver
import ZPlane.Proofs.Polynomial.Derivative
import ZPlane.Proofs.Polynomial.Factors
import ZPlane.Proofs.Polynomial.Trial
import ZPlane.Proofs.Sorting.Permutation

/-!
# Extracting roots

A search for all roots asks for one root after another, each time of a polynomial of which those
found before are divided out.  If every answer is a root of the polynomial that was asked about
(`answers`), the answers are the roots of the first one, whatever the draws were and however the
iteration came to them.
-/

open Polynomial
open scoped List

namespace ZPlane

namespace Polynomial

/-! ### The top of a polynomial -/

section Top

variable {κ : Type} {vanishes : κ → Bool} {p q : Polynomial κ} {lead : κ}

/-- What is trimmed off vanishes, and the leading coefficient that is left does not. -/
theorem exists_of_trim? (h : p.trim? vanishes = some q) : ∃ zs lead,
    p.coeffs = q.coeffs ++ zs ∧ (∀ z ∈ zs, vanishes z = true) ∧
    q.coeffs.getLast? = some lead ∧ vanishes lead = false := by
  have hparts : p.coeffs = (p.coeffs.reverse.dropWhile vanishes).reverse ++
      (p.coeffs.reverse.takeWhile vanishes).reverse := by
    rw [← List.reverse_append, List.takeWhile_append_dropWhile, List.reverse_reverse]
  rw [trim?] at h
  split at h
  · cases h
  · rename_i hsome
    cases h
    obtain ⟨lead, top, htop⟩ := List.exists_cons_of_ne_nil hsome
    have hlead : vanishes lead = false := by
      have hhead := List.head_dropWhile_not vanishes (l := p.coeffs.reverse) hsome
      simpa only [htop, List.head_cons] using hhead
    refine ⟨_, lead, hparts, fun z hz ↦ ?_, ?_, hlead⟩
    · exact List.mem_takeWhile_imp (List.mem_reverse.mp hz)
    · rw [htop, List.getLast?_reverse, List.head?_cons]

/-- A polynomial with a leading coefficient is kept whole. -/
theorem trim?_eq_self (h : p.coeffs.getLast? = some lead) (hlead : vanishes lead = false) :
    p.trim? vanishes = some p := by
  obtain ⟨rest, hrest⟩ := List.getLast?_eq_some_iff.mp h
  obtain ⟨cs⟩ := p
  dsimp only at hrest
  rw [trim?, hrest, List.reverse_append, List.reverse_singleton, List.singleton_append,
    List.dropWhile_cons_of_neg (by rw [hlead]; exact Bool.false_ne_true)]
  simp

/-- The coefficients that are kept are one more than the degree. -/
theorem length_of_trim? (h : p.trim? vanishes = some q) : q.coeffs.length = q.degree + 1 := by
  obtain ⟨-, lead, -, -, hlead, -⟩ := exists_of_trim? h
  have hpos : 0 < q.coeffs.length :=
    List.length_pos_iff.mpr (List.ne_nil_of_mem (List.mem_of_getLast? hlead))
  rw [degree, Nat.sub_add_cancel hpos]

/-- There is nothing left of a polynomial exactly if all its coefficients vanish. -/
theorem trim?_eq_none_iff : p.trim? vanishes = none ↔ ∀ c ∈ p.coeffs, vanishes c = true := by
  have hdrop : p.coeffs.reverse.dropWhile vanishes = [] ↔ ∀ c ∈ p.coeffs, vanishes c = true := by
    rw [List.dropWhile_eq_nil_iff]
    exact forall_congr' fun c ↦ by rw [List.mem_reverse]
  rw [← hdrop, trim?]
  split
  · rename_i hnone
    exact iff_of_true rfl hnone
  · rename_i hsome
    exact iff_of_false (Option.some_ne_none _) hsome

end Top

end Polynomial

namespace Solver

section Extract

variable {α : Type} [CommRing α] [Div α] [LT α] [DecidableLT α] [Scalar α] {s : Solver α}
  {draws : ℕ → α} {n k : ℕ} {p : Polynomial (Complex α)} {lead : Complex α}
  {rs : List (Complex α)}

/-- The polynomials that are asked about while `n` roots are extracted, each with the root that is
returned. -/
def answers (s : Solver α) (draws : ℕ → α) :
    (n : ℕ) → Polynomial (Complex α) → (k : ℕ) → List (Polynomial (Complex α) × Complex α)
  | 0, _, _ => []
  | n + 1, p, k =>
    match s.findRoot p draws k with
    | .error _ => []
    | .ok (r, k) => (p, r) :: answers s draws n (p.deflate r) k

/-- The first root is found, and the others of what it leaves when it is divided out. -/
theorem exists_of_extract_succ (h : s.extract draws (n + 1) p k = .ok rs) : ∃ r k' rest,
    s.findRoot p draws k = .ok (r, k') ∧ s.extract draws n (p.deflate r) k' = .ok rest ∧
    rs = r :: rest := by
  rw [extract] at h
  split at h
  · cases h
  · rename_i r k' hfound
    split at h
    · cases h
    · rename_i rest hrest
      cases h
      exact ⟨r, k', rest, hfound, hrest, rfl⟩

/-- As many roots are extracted as are asked for. -/
theorem length_of_extract (h : s.extract draws n p k = .ok rs) : rs.length = n := by
  induction n generalizing p k rs with
  | zero =>
      cases h
      rfl
  | succ n ih =>
      obtain ⟨r, k', rest, -, hrest, rfl⟩ := exists_of_extract_succ h
      rw [List.length_cons, ih hrest]

/-- If each answer is a root of what was asked about, the polynomial is made of the factors. -/
theorem formal_of_extract (h : s.extract draws n p k = .ok rs)
    (hexact : ∀ a ∈ s.answers draws n p k, a.1.eval a.2 = 0) (hlength : p.coeffs.length = n + 1)
    (hlead : p.coeffs.getLast? = some lead) :
    p.formal = C lead * (rs.map fun r ↦ X - C r).prod := by
  induction n generalizing p k rs with
  | zero =>
      cases h
      rw [Polynomial.formal_of_length_one hlength hlead, List.map_nil, List.prod_nil, mul_one]
  | succ n ih =>
      obtain ⟨r, k', rest, hfound, hrest, rfl⟩ := exists_of_extract_succ h
      rw [answers, hfound] at hexact
      have hroot : p.eval r = 0 := hexact (p, r) List.mem_cons_self
      have hdegree : 1 ≤ p.degree := by
        rw [Polynomial.degree, hlength]
        exact Nat.le_add_left 1 n
      have hquotient := ih hrest (fun a ha ↦ hexact a (List.mem_cons_of_mem _ ha))
        (by rw [Polynomial.length_deflate, hlength, Nat.add_sub_cancel])
        (by rw [Polynomial.getLast?_deflate hdegree, hlead])
      calc p.formal = (X - C r) * (p.deflate r).formal := by
            rw [Polynomial.formal_eq_deflate p r, hroot, C_0, add_zero]
        _ = C lead * ((r :: rest).map fun r ↦ X - C r).prod := by
            rw [hquotient, List.map_cons, List.prod_cons]
            ring

end Extract

/-! ### All roots -/

section Real

variable {s : Solver ℝ} {p : Polynomial (Complex ℝ)} {draws : ℕ → ℝ} {x : Complex ℝ}
  {roots : List (Complex ℝ)} {k : ℕ}

/-- What is asked, and answered, in a search for all roots: it begins with the polynomial without
the zeros at its top. -/
noncomputable def allAnswers (s : Solver ℝ) (p : Polynomial (Complex ℝ)) (draws : ℕ → ℝ) :
    List (Polynomial (Complex ℝ) × Complex ℝ) :=
  match p.trim? Complex.isOrigin with
  | none => []
  | some q => s.answers draws q.degree q 0

/-- The roots that are found are those extracted, in another order. -/
theorem exists_of_findRoots (h : s.findRoots p draws = .ok (some roots)) : ∃ q rs,
    p.trim? Complex.isOrigin = some q ∧ s.extract draws q.degree q 0 = .ok rs ∧ roots ~ rs := by
  rw [findRoots] at h
  split at h
  · cases h
  · rename_i q htrim
    split at h
    · cases h
    · rename_i rs hrs
      cases hsorted : sort? rs with
      | none =>
          rw [hsorted] at h
          cases h
      | some sorted =>
          rw [hsorted] at h
          cases h
          exact ⟨q, rs, htrim, hrs, Sorting.sort?_perm _ hsorted⟩

theorem isOrigin_one : (1 : Complex ℝ).isOrigin = false := by
  rw [← Bool.not_eq_true, Complex.isOrigin_iff]
  exact one_ne_zero

/-- If each answer on the way is a root of the polynomial that was asked about, the product of the
factors `x - r` over all roots that are returned, times the highest coefficient that is not zero,
has the coefficients of the polynomial up to that one.  For a polynomial that is built from roots
the answers are these roots in another order, those left out that are zero within the tolerance. -/
theorem findRoots_factor (h : s.findRoots p draws = .ok (some roots))
    (hexact : ∀ a ∈ s.allAnswers p draws, a.1.eval a.2 = 0) :
    ∃ (q : Polynomial (Complex ℝ)) (lead : Complex ℝ) (zeros : ℕ),
      p.trim? Complex.isOrigin = some q ∧ p.coeffs = q.coeffs ++ List.replicate zeros 0 ∧
      q.coeffs.getLast? = some lead ∧ lead ≠ 0 ∧
      q.coeffs = (List.range (roots.length + 1)).map
        (C lead * (roots.map fun r ↦ X - C r).prod).coeff ∧
      ∀ rs, p = .ofRoots Complex.isZero rs → roots ~ Polynomial.nonzero rs := by
  obtain ⟨q, found, htrim, hfound, hperm⟩ := exists_of_findRoots h
  rw [allAnswers, htrim] at hexact
  obtain ⟨top, lead, hp, htop, hlead, hnonzero⟩ := Polynomial.exists_of_trim? htrim
  have hzeros : top = List.replicate top.length 0 :=
    List.eq_replicate_of_mem fun z hz ↦ Complex.isOrigin_iff.mp (htop z hz)
  have hlength := Polynomial.length_of_trim? htrim
  have hformal : q.formal = C lead * (roots.map fun r ↦ X - C r).prod := by
    rw [formal_of_extract hfound hexact hlength hlead, (hperm.map _).prod_eq]
  refine ⟨q, lead, top.length, htrim, ?_, hlead, ?_, ?_, fun rs hrs ↦ ?_⟩
  · rw [← hzeros, hp]
  · intro hzero
    rw [Complex.isOrigin_iff.mpr hzero] at hnonzero
    cases hnonzero
  · rw [← hformal, hperm.length_eq, length_of_extract hfound, ← hlength]
    exact q.coeffs_eq_map
  · subst hrs
    have hone := Polynomial.getLast?_ofRoots Complex.isZero rs
    obtain rfl : Polynomial.ofRoots Complex.isZero rs = q := by
      rw [Polynomial.trim?_eq_self hone isOrigin_one] at htrim
      exact Option.some.inj htrim
    obtain rfl : 1 = lead := Option.some.inj (hone.symm.trans hlead)
    rw [Polynomial.formal_ofRoots, Polynomial.filter_isZero, C_1, one_mul] at hformal
    exact (Polynomial.perm_of_prod_eq hformal).symm

/-! ### A search that starts at the roots -/

/-- A Halley step from a root stays there. -/
theorem halleyStep_of_root (hx : p.eval x = 0) : p.halleyStep x = x := by
  have hvalue : (p.jet x).value = 0 := by rw [Polynomial.jet_eq, hx]
  rw [Polynomial.halleyStep, hvalue, mul_zero, zero_mul, Complex.zero_div, sub_zero]

/-- A step without length is accepted. -/
theorem iterate_of_halleyStep_eq {n : ℕ} {previous : Option ℝ} {shrinking : Bool}
    (hx : p.halleyStep x = x) (htolerance : 0 < s.tolerance)
    (hgo : n < s.minIterations ∨ shrinking = true) (fuel : ℕ) :
    s.iterate p (fuel + 1) n x previous shrinking = .converged x (n + 1) := by
  have hshort : (x - p.halleyStep x).norm < s.tolerance := by
    rwa [hx, sub_self, Complex.norm_zero]
  rw [iterate_of_short hgo rfl hshort, hx]

/-- A trial that starts where the step has no length returns its start at once. -/
theorem trial_of_halleyStep_eq (hx : p.halleyStep x = x) (htolerance : 0 < s.tolerance)
    (hsteps : 0 < s.minIterations) : s.trial passLimit p x = .converged x 1 :=
  iterate_of_halleyStep_eq hx htolerance (.inl hsteps) (passLimit - 1)

/-- A trial that starts where the step is zero ends there. -/
theorem findRoot_of_halleyStep_eq (hdegree : p.degree ≠ 0)
    (hx : p.halleyStep (trialPoint draws k) = trialPoint draws k) (htolerance : 0 < s.tolerance)
    (hsteps : 0 < s.minIterations) (htrials : 0 < s.maxTrials) :
    s.findRoot p draws k = .ok (trialPoint draws k, k + 4) := by
  obtain ⟨trials, htrials⟩ := Nat.exists_eq_succ_of_ne_zero htrials.ne'
  rw [findRoot, if_neg hdegree, htrials, firstRoot, trial_of_halleyStep_eq hx htolerance hsteps]

/-- A trial that starts at a root finds it. -/
theorem findRoot_of_root (hdegree : p.degree ≠ 0) (hx : p.eval (trialPoint draws k) = 0)
    (htolerance : 0 < s.tolerance) (hsteps : 0 < s.minIterations) (htrials : 0 < s.maxTrials) :
    s.findRoot p draws k = .ok (trialPoint draws k, k + 4) :=
  findRoot_of_halleyStep_eq hdegree (halleyStep_of_root hx) htolerance hsteps htrials

/-- Two roots that are drawn as starting points one after the other, and a third that is zero. -/
theorem findRoots_factor_drawn :
    let a : Complex ℝ := ⟨1 / 2, 1 / 4⟩
    let b : Complex ℝ := ⟨1 / 4, 1 / 2⟩
    let p : Polynomial (Complex ℝ) := .ofRoots Complex.isZero [a, 0, b]
    let draws : ℕ → ℝ := fun k ↦ [1 / 2, 0, 1 / 4, 0, 1 / 4, 0, 1 / 2, 0].getD k 0
    let s : Solver ℝ := .standard
    s.findRoots p draws = .ok (some [b, a]) ∧
      s.allAnswers p draws = [(p, a), (p.deflate a, b)] ∧
      p.eval a = 0 ∧ (p.deflate a).eval b = 0 ∧
      p.coeffs = (List.range 3).map (C 1 * ([b, a].map fun r ↦ X - C r).prod).coeff ∧
      [b, a] ~ Polynomial.nonzero [a, 0, b] := by
  intro a b p draws s
  have ha : a.isZero = false := by
    rw [Polynomial.isZero_eq_false_iff]
    norm_num [a]
  have hb : b.isZero = false := by
    rw [Polynomial.isZero_eq_false_iff]
    norm_num [b]
  have hzero : (0 : Complex ℝ).isZero = true := by
    rw [Complex.isZero_iff]
    norm_num [Scalar.tolerance]
  have hone : p.coeffs.getLast? = some 1 := Polynomial.getLast?_ofRoots _ _
  have htrim : p.trim? Complex.isOrigin = some p := Polynomial.trim?_eq_self hone isOrigin_one
  have hrest : p.deflate a = .ofRoots Complex.isZero [0, b] :=
    Polynomial.deflate_ofRoots ha [] [0, b]
  have hdegree : p.degree = 2 := by
    simp [p, Polynomial.degree, Polynomial.length_coeffs_ofRoots, ha, hb, hzero]
  have hdegree' : (p.deflate a).degree = 1 := by
    simp [hrest, Polynomial.degree, Polynomial.length_coeffs_ofRoots, hb, hzero]
  have hroot : p.eval a = 0 := by simp [p, Polynomial.eval_ofRoots, ha]
  have hroot' : (p.deflate a).eval b = 0 := by simp [hrest, Polynomial.eval_ofRoots, hb, hzero]
  have hstart : trialPoint draws 0 = a := by simp [trialPoint, spread, Scalar.power, draws, a]
  have hstart' : trialPoint draws 4 = b := by simp [trialPoint, spread, Scalar.power, draws, b]
  have htolerance : 0 < s.tolerance := by norm_num [s, standard]
  have hfound : s.findRoot p draws 0 = .ok (a, 4) := by
    rw [findRoot_of_root (by rw [hdegree]; decide) (by rw [hstart, hroot]) htolerance (by decide)
      (by decide), hstart]
  have hfound' : s.findRoot (p.deflate a) draws 4 = .ok (b, 8) := by
    rw [findRoot_of_root (by rw [hdegree']; decide) (by rw [hstart', hroot']) htolerance
      (by decide) (by decide), hstart']
  have hanswers : s.allAnswers p draws = [(p, a), (p.deflate a, b)] := by
    simp [allAnswers, htrim, hdegree, answers, hfound, hfound']
  have hextract : s.extract draws 2 p 0 = .ok [a, b] := by simp [extract, hfound, hfound']
  have hsorted : sort? [a, b] = some [b, a] := by
    have hless : (b.compare a).isLT = true := by
      norm_num [Complex.compare, Complex.compareWithin, Complex.signWithin, Scalar.tolerance, a, b]
    simp [sort?, Sorting.sort?, Sorting.insertionLength, Sorting.insertAll, Sorting.insertDown,
      hless]
  have hall : s.findRoots p draws = .ok (some [b, a]) := by
    simp [findRoots, htrim, hdegree, hextract, hsorted]
  have hexact : ∀ r ∈ s.allAnswers p draws, r.1.eval r.2 = 0 := by
    simp [hanswers, hroot, hroot']
  obtain ⟨q, lead, zeros, htrimmed, -, hlead, -, hcoeffs, hperm⟩ := findRoots_factor hall hexact
  obtain rfl : p = q := Option.some.inj (htrim.symm.trans htrimmed)
  obtain rfl : 1 = lead := Option.some.inj (hone.symm.trans hlead)
  exact ⟨hall, hanswers, hroot, hroot', hcoeffs, hperm _ rfl⟩

end Real

end Solver

end ZPlane
