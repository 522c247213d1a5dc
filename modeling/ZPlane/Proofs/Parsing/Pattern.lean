import Mathlib
import ZPlane.Parsing.Pattern.Reader
import ZPlane.Proofs.Parsing.Numeral

/-!
# The pattern of numbers

What a pattern matches is found by threads, of which those before the first one that is done are
preferred.  A repetition of digits takes the whole run of digits in front of it (`run_repeated`),
since the thread for one more digit comes before those for the rest.  The pattern of numbers is a
chain of such repetitions, and its states are worked off from the end: what was found before the
letter of an exponent is kept until the exponent has a digit.
-/

namespace ZPlane

namespace Parsing

section Runs

variable {p : Char → Bool} {c : Char} {cs : List Char}

theorem runLength_cons_of_pos (hc : p c = true) : runLength p (c :: cs) = runLength p cs + 1 := by
  rw [runLength, List.takeWhile_cons_of_pos hc, List.length_cons, runLength]

theorem runLength_cons_of_neg (hc : p c = false) : runLength p (c :: cs) = 0 := by
  rw [runLength, List.takeWhile_cons_of_neg (by simp [hc]), List.length_nil]

end Runs

namespace Thread

variable {c : Char} {cs : List Char} {T : List Thread} {found : Option Nat} {n : Nat}

/-! ### One character -/

/-- No thread takes the character. -/
def Ignores (c : Char) (T : List Thread) : Prop := ∀ seen, advance c T seen = ([], seen)

theorem Ignores.advance (h : Ignores c T) (seen : List Place) :
    Thread.advance c T seen = ([], seen) := h seen

theorem ignores_nil (c : Char) : Ignores c [] := fun _ ↦ rfl

/-- A thread that is done takes nothing more. -/
theorem ignores_done (c : Char) (T : List Thread) : Ignores c (done :: T) := fun _ ↦ rfl

section Take

variable {negated : Bool} {ranges : List CharRange} {next : Next}

/-- The thread that takes the character goes on, if the others ignore it. -/
theorem advance_take (h : (ranges.any (CharRange.has c) != negated) = true) (hT : Ignores c T)
    (seen : List Place) : Thread.advance c (take negated ranges next :: T) seen = next seen := by
  rw [Thread.advance, if_pos h]
  simp only [hT.advance, List.append_nil]

/-- A thread that does not take the character is dropped. -/
theorem advance_cons (h : (ranges.any (CharRange.has c) != negated) = false) (seen : List Place) :
    Thread.advance c (take negated ranges next :: T) seen = Thread.advance c T seen := by
  rw [Thread.advance, if_neg (by simp [h])]

/-- Threads are ignored one by one. -/
theorem Ignores.cons (h : (ranges.any (CharRange.has c) != negated) = false) (hT : Ignores c T) :
    Ignores c (take negated ranges next :: T) := fun seen ↦ (advance_cons h seen).trans (hT seen)

end Take

/-- Without threads nothing more is found. -/
theorem run_none : run [] found n cs = found := by
  cases cs <;> rfl

/-- At the end of the text the match ends if a thread is done. -/
theorem run_nil : run T found n [] = if T.any isDone then some n else found := by
  cases T <;> rfl

/-- One character takes all threads on, and a thread that is done records the length so far. -/
theorem run_cons : run T found n (c :: cs) =
    run (Thread.advance c T []).1 (if T.any isDone then some n else found) (n + 1) cs := by
  cases T with
  | nil => exact run_none.trans run_none.symm
  | cons t T => rfl

/-- A thread that does not take the next character makes no difference. -/
theorem run_skip {negated : Bool} {ranges : List CharRange} {next : Next}
    (h : (ranges.any (CharRange.has c) != negated) = false) :
    run (take negated ranges next :: T) found n (c :: cs) = run T found n (c :: cs) := by
  rw [run_cons, run_cons, advance_cons h]
  rfl

/-- A thread that is done is better than what has been found. -/
theorem run_of_done (hT : T.any isDone = true) (found' : Option Nat) :
    run T found n cs = run T found' n cs := by
  cases cs with
  | nil => rw [run_nil, run_nil, if_pos hT, if_pos hT]
  | cons c cs => rw [run_cons, run_cons, if_pos hT, if_pos hT]

end Thread

namespace Pattern

open Thread

/-! ### Digits -/

def digit : Pattern := .one false [.between '0' '9']

theorem has_digit (c : Char) :
    ([CharRange.between '0' '9'].any (CharRange.has c) != false) = c.isDigit := by
  simp only [List.any_cons, List.any_nil, CharRange.has, Bool.or_false, Bool.bne_false,
    Char.isDigit]
  rfl

/-- Takes a digit. -/
def takeDigit (next : Next) : Thread := .take false [.between '0' '9'] next

/-- One more digit, before the rest. -/
def takeDigits (next : Next) : Next := fun seen ↦ ([takeDigit next], seen)

section Digits

variable {place : Place} {rest : Next} {T : List Thread} {cs b : List Char}
variable {found : Option Nat} {n : Nat}

/-- A repetition that must end is its rest. -/
theorem repeated_nil (hT : (rest [place]).1 = T) :
    (repeated place takeDigits rest [] []).1 = T := by
  simp [repeated, choice, hT]

/-- A repetition takes another digit or is its rest. -/
theorem repeated_cons (x : Char) (hT : (rest [place]).1 = T) :
    (repeated place takeDigits rest (x :: b) []).1 =
      takeDigit (repeated place takeDigits rest b) :: T := by
  simp [repeated, choice, takeDigits, hT]

/-! The rest takes no digit and may be done, and the bound is not used up before the text is. -/

variable (hT : (rest [place]).1 = T) (hdone : T.any isDone = true)
  (hdigit : ∀ c : Char, c.isDigit = true → Ignores c T) (hb : cs.length ≤ b.length)
include hT hdone hdigit hb

/-- All digits are taken first. -/
theorem run_repeated : run (repeated place takeDigits rest b []).1 found n cs =
    run T found (n + runLength Char.isDigit cs) (cs.drop (runLength Char.isDigit cs)) := by
  induction cs generalizing b found n with
  | nil =>
      have hany : (repeated place takeDigits rest b []).1.any isDone = true := by
        cases b with
        | nil => rwa [repeated_nil hT]
        | cons x b => rw [repeated_cons x hT, List.any_cons, hdone, Bool.or_true]
      rw [run_nil, if_pos hany, List.drop_nil, run_nil, if_pos hdone]
      rfl
  | cons c cs ih =>
      obtain ⟨x, b, rfl⟩ := List.exists_cons_of_length_pos (Nat.zero_lt_of_lt hb)
      have hb' : cs.length ≤ b.length := Nat.le_of_succ_le_succ hb
      have hany : (takeDigit (repeated place takeDigits rest b) :: T).any isDone = true := by
        rw [List.any_cons, hdone, Bool.or_true]
      rw [repeated_cons x hT]
      cases hc : c.isDigit with
      | true =>
          rw [run_cons, if_pos hany, takeDigit,
            advance_take ((has_digit c).trans hc) (hdigit c hc), ih hb',
            runLength_cons_of_pos hc, List.drop_succ_cons, run_of_done hdone found]
          congr 1
          omega
      | false =>
          rw [takeDigit, run_skip ((has_digit c).trans hc), runLength_cons_of_neg hc,
            List.drop_zero, Nat.add_zero]

/-- At least one digit. -/
theorem run_takeDigit : run [takeDigit (repeated place takeDigits rest b)] found n cs =
    if runLength Char.isDigit cs = 0 then found
    else run T found (n + runLength Char.isDigit cs) (cs.drop (runLength Char.isDigit cs)) := by
  cases cs with
  | nil => rfl
  | cons c cs =>
      cases hc : c.isDigit with
      | true =>
          rw [run_cons, takeDigit, advance_take ((has_digit c).trans hc) (ignores_nil c),
            run_repeated hT hdone hdigit (Nat.le_of_succ_le hb), runLength_cons_of_pos hc,
            List.drop_succ_cons, if_neg (Nat.succ_ne_zero _), run_of_done hdone found]
          congr 1
          omega
      | false =>
          rw [takeDigit, run_skip ((has_digit c).trans hc), runLength_cons_of_neg hc, if_pos rfl,
            run_none]

end Digits

/-! ### Numbers -/

def fraction : Pattern := .seq (literal '.') (.seq digit.star .empty)

def sign : Pattern := .one false [.between '+' '+', .between '-' '-']

def exponent : Pattern := .seq (literal 'e') (.seq sign.optional (.seq digit.plus .empty))

/-- Digits, with a fraction and an exponent where they follow. -/
def number : Pattern := .seq digit.plus (.seq fraction.optional (.seq exponent.optional .empty))

/-- The text of the pattern of numbers. -/
def numberText : String := "[0-9]+(\\.[0-9]*)?(e[+-]?[0-9]+)?"

/-- The text of the pattern is read as the pattern of numbers. -/
theorem ofText?_number : ofText? numberText = some number := by
  decide +kernel

theorem has_literal (c d : Char) :
    ([CharRange.between d d].any (CharRange.has c) != false) = decide (c = d) := by
  simp only [List.any_cons, List.any_nil, CharRange.has, Bool.or_false, Bool.bne_false,
    ← Bool.decide_and, decide_eq_decide]
  exact ⟨fun h ↦ Char.le_antisymm h.2 h.1, fun h ↦ h ▸ ⟨Char.le_refl c, Char.le_refl c⟩⟩

theorem has_sign (c : Char) :
    ([CharRange.between '+' '+', .between '-' '-'].any (CharRange.has c) != false) =
      decide (c = '+' ∨ c = '-') := by
  have hplus := has_literal c '+'
  have hminus := has_literal c '-'
  simp only [List.any_cons, List.any_nil, Bool.or_false, Bool.bne_false] at hplus hminus ⊢
  rw [hplus, hminus, Bool.decide_or]

/-! The states between the characters, each with the threads that go on from there. -/

section States

variable (text : List Char)

/-- The end of the pattern. -/
def finish : Next := fun seen ↦ ([.done], seen)

/-- Behind the sign of an exponent. -/
def afterSign : Next := threads text (.seq digit.plus .empty) [true, true, false, false, true, true]
  finish

/-- Behind the letter of an exponent. -/
def afterLetter : Next := threads text (.seq sign.optional (.seq digit.plus .empty))
  [true, false, false, true, true] finish

/-- Where an exponent may follow. -/
def mantissaThreads : List Thread := [.take false [.between 'e' 'e'] (afterLetter text), .done]

def afterMantissa : Next := threads text (.seq exponent.optional .empty) [true, true] finish

/-- Behind the point. -/
def afterPoint : Next := threads text (.seq digit.star .empty) [true, false, false, true]
  (afterMantissa text)

/-- Where a fraction may follow. -/
def wholeThreads : List Thread :=
  .take false [.between '.' '.'] (afterPoint text) :: mantissaThreads text

def afterWhole : Next :=
  threads text (.seq fraction.optional (.seq exponent.optional .empty)) [true] finish

/-- A number begins with a digit. -/
theorem threads_number : (threads text number [] finish []).1 =
    [takeDigit (repeated [false] takeDigits (afterWhole text) text)] := rfl

/-- Behind a digit of the whole part there are more of them, or what may follow. -/
theorem threads_afterWhole : (afterWhole text [[false]]).1 = wholeThreads text := rfl

/-- Behind the point digits may come, and then an exponent. -/
theorem threads_afterPoint : (afterPoint text []).1 =
    takeDigit (repeated [false, false, true, false, false, true] takeDigits
      (afterMantissa text) text) :: mantissaThreads text := rfl

theorem threads_afterMantissa :
    (afterMantissa text [[false, false, true, false, false, true]]).1 = mantissaThreads text := rfl

/-- Behind the letter a sign may come, and then a digit. -/
theorem threads_afterLetter : (afterLetter text []).1 =
    .take false [.between '+' '+', .between '-' '-'] (afterSign text) ::
      (afterSign text []).1 := rfl

/-- Behind the sign a digit has to come. -/
theorem threads_afterSign : (afterSign text []).1 = [takeDigit
    (repeated [false, true, true, false, false, true, true] takeDigits finish text)] := rfl

end States

theorem exponentLength_cons_of_ne {c : Char} {cs : List Char} (hc : c ≠ 'e') :
    exponentLength (c :: cs) = 0 := by
  unfold exponentLength
  split
  · rename_i heq
    exact absurd (List.cons.inj heq).1 hc
  · rfl

theorem fractionLength_cons_of_ne {c : Char} {cs : List Char} (hc : c ≠ '.') :
    fractionLength (c :: cs) = 0 := by
  unfold fractionLength
  split
  · rename_i heq
    exact absurd (List.cons.inj heq).1 hc
  · rfl

theorem signLength_cons_of_sign {c : Char} {cs : List Char} (hc : c = '+' ∨ c = '-') :
    signLength (c :: cs) = 1 := by
  rcases hc with rfl | rfl <;> rfl

section Runs

variable {text cs : List Char} {found : Option Nat} {n : Nat}

/-- A single thread that is done keeps the length so far. -/
theorem run_done : run [.done] found n cs = some n := by
  cases cs with
  | nil => rfl
  | cons c cs => exact run_cons.trans run_none

/-- A thread for a character that is no digit ignores the digits. -/
theorem ignores_of_isDigit {c d : Char} (hd : d.isDigit = false) (hc : c.isDigit = true)
    {next : Next} {T : List Thread} (hT : Ignores c T) :
    Ignores c (.take false [.between d d] next :: T) := by
  refine hT.cons ((has_literal c d).trans (decide_eq_false ?_))
  rintro rfl
  simp [hc] at hd

/-- Where an exponent may follow, no digit is taken. -/
theorem mantissa_ignores (text : List Char) (c : Char) (hc : c.isDigit = true) :
    Ignores c (mantissaThreads text) :=
  ignores_of_isDigit rfl hc (ignores_done c [])

/-- Where a fraction may follow, no digit is taken. -/
theorem whole_ignores (text : List Char) (c : Char) (hc : c.isDigit = true) :
    Ignores c (wholeThreads text) :=
  ignores_of_isDigit rfl hc (mantissa_ignores text c hc)

/-- Behind the sign the digits of the exponent are matched, if there is one. -/
theorem run_afterSign (hcs : cs.length ≤ text.length) : run (afterSign text []).1 found n cs =
    if runLength Char.isDigit cs = 0 then found else some (n + runLength Char.isDigit cs) := by
  rw [threads_afterSign, run_takeDigit rfl rfl (fun c _ ↦ ignores_done c []) hcs]
  simp only [finish, run_done]

/-- Behind the letter: nothing more is found without a digit. -/
theorem run_afterLetter (hcs : cs.length ≤ text.length) : run (afterLetter text []).1 found n cs =
    if runLength Char.isDigit (cs.drop (signLength cs)) = 0 then found
    else some (n + signLength cs + runLength Char.isDigit (cs.drop (signLength cs))) := by
  rw [threads_afterLetter]
  cases cs with
  | nil => rfl
  | cons c cs =>
      by_cases hc : c = '+' ∨ c = '-'
      · have hdigit : c.isDigit = false := by rcases hc with rfl | rfl <;> rfl
        have hignores : Ignores c (afterSign text []).1 := by
          rw [threads_afterSign]
          exact (ignores_nil c).cons ((has_digit c).trans hdigit)
        rw [run_cons, advance_take ((has_sign c).trans (decide_eq_true hc)) hignores,
          run_afterSign (Nat.le_of_succ_le hcs), signLength_cons_of_sign hc, List.drop_succ_cons,
          List.drop_zero]
        rfl
      · rw [run_skip ((has_sign c).trans (decide_eq_false hc)), run_afterSign hcs,
          signLength_cons_of_not hc, List.drop_zero, Nat.add_zero]

/-- Behind the mantissa an exponent is matched, if it is complete. -/
theorem run_mantissaThreads (hcs : cs.length ≤ text.length) :
    run (mantissaThreads text) found n cs = some (n + exponentLength cs) := by
  rw [mantissaThreads]
  cases cs with
  | nil => rfl
  | cons c cs =>
      by_cases hc : c = 'e'
      · subst hc
        rw [run_cons,
          advance_take ((has_literal 'e' 'e').trans (decide_eq_true rfl)) (ignores_done _ _),
          run_afterLetter (Nat.le_of_succ_le hcs), exponentLength]
        split
        · rfl
        · exact congrArg some (by omega)
      · rw [run_skip ((has_literal c 'e').trans (decide_eq_false hc)), run_done,
          exponentLength_cons_of_ne hc, Nat.add_zero]

/-- Behind the point: the digits are taken as by a repetition that has begun. -/
theorem run_afterPoint (hcs : cs.length ≤ text.length) : run (afterPoint text []).1 found n cs =
    some (n + runLength Char.isDigit cs +
      exponentLength (cs.drop (runLength Char.isDigit cs))) := by
  have hrest := threads_afterMantissa text
  rw [threads_afterPoint, ← repeated_cons '.' hrest,
    run_repeated hrest rfl (mantissa_ignores text) (hcs.trans (Nat.le_succ _)),
    run_mantissaThreads (by rw [List.length_drop]; omega)]

/-- Behind the whole part a fraction is matched, and then an exponent. -/
theorem run_wholeThreads (hcs : cs.length ≤ text.length) : run (wholeThreads text) found n cs =
    some (n + fractionLength cs + exponentLength (cs.drop (fractionLength cs))) := by
  cases cs with
  | nil => rfl
  | cons c cs =>
      by_cases hc : c = '.'
      · subst hc
        have hignores : Ignores '.' (mantissaThreads text) :=
          (ignores_done _ _).cons ((has_literal '.' 'e').trans (decide_eq_false (by decide)))
        rw [wholeThreads, run_cons,
          advance_take ((has_literal '.' '.').trans (decide_eq_true rfl)) hignores,
          run_afterPoint (Nat.le_of_succ_le hcs), fractionLength, Nat.add_comm 1,
          List.drop_succ_cons]
        exact congrArg some (by omega)
      · rw [wholeThreads, run_skip ((has_literal c '.').trans (decide_eq_false hc)),
          run_mantissaThreads hcs, fractionLength_cons_of_ne hc, List.drop_zero, Nat.add_zero]

/-- The pattern of numbers matches what the lexer takes for a number. -/
theorem matchLength?_number (cs : List Char) : number.matchLength? cs = numberLength? cs := by
  have hrest := threads_afterWhole cs
  change run (threads cs number [] finish []).1 none 0 cs = _
  rw [threads_number, run_takeDigit hrest rfl (whole_ignores cs) le_rfl, numberLength?]
  split
  · rfl
  · rw [run_wholeThreads (by rw [List.length_drop]; omega), List.drop_drop, Nat.zero_add]

example : number.matchLength? ['2', '.', 'e', '+', 'x'] = some 2 := by decide

end Runs

end Pattern

end Parsing

end ZPlane
