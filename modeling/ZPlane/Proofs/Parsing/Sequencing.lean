import Mathlib
import ZPlane.Parsing.Lexeme
import ZPlane.Proofs.Parsing.Hints
import ZPlane.Proofs.Parsing.Reads

/-!
# Sequencing is a monad

Two trees with the same hints in the same order may still differ in how these were joined.  A
`Reply` is an outcome with its hints in a row, in which this makes no difference, and the `Meaning`
of a parser gives the reply of its run from every place.  Meanings are a lawful monad: `bind` hands
on the place, and puts the hints of what was run before in front of those of what is run next.

The constructs that sequence are operations of this monad: `bind` and `both` are its bind
(`meaning_bind`, `meaning_both`), and a sequence, which gathers its values in a loop, is `mapM`
(`meaning_sequence`).  So the laws of the monad are laws of parsers.
-/

namespace ZPlane

namespace Parsing

/-- An offset and what was expected there; without a label something failed there. -/
abbrev Hint : Type := Nat × Option String

/-- How a run ends, with its hints in a row. -/
inductive Reply (α : Type) where
  | success (place : Cursor) (value : α) (hints : List Hint)
  | failure (hints : List Hint)
  /-- The depth of rule calls did not suffice. -/
  | overrun
deriving DecidableEq

namespace Reply

variable {α β γ : Type}

def map (f : α → β) : Reply α → Reply β
  | success c a hs => success c (f a) hs
  | failure hs => failure hs
  | overrun => overrun

/-- Puts earlier hints in front. -/
def after (earlier : List Hint) : Reply α → Reply α
  | success c a hs => success c a (earlier ++ hs)
  | failure hs => failure (earlier ++ hs)
  | overrun => overrun

/-- Goes on from a success, keeping its hints in front of the later ones. -/
def andThen (o : Reply α) (next : Cursor → α → Reply β) : Reply β :=
  match o with
  | success c a hs => (next c a).after hs
  | failure hs => failure hs
  | overrun => overrun

@[simp] theorem after_nil (o : Reply α) : o.after [] = o := by cases o <;> rfl

/-- Hints are put in front one after the other. -/
theorem after_after (hs hs' : List Hint) (o : Reply α) :
    (o.after hs').after hs = o.after (hs ++ hs') := by
  cases o with
  | success c a _ => exact congrArg (success c a) (List.append_assoc _ _ _).symm
  | failure _ => exact congrArg failure (List.append_assoc _ _ _).symm
  | overrun => rfl

/-- Hints in front of a reply are in front of what follows it. -/
theorem after_andThen (hs : List Hint) (o : Reply α) (next : Cursor → α → Reply β) :
    (o.after hs).andThen next = (o.andThen next).after hs := by
  cases o with
  | success c a _ => exact (after_after _ _ _).symm
  | failure | overrun => rfl

/-- Hints in front are not mapped. -/
theorem map_after (f : α → β) (hs : List Hint) (o : Reply α) :
    (o.after hs).map f = (o.map f).after hs := by
  cases o with
  | success | failure | overrun => rfl

theorem map_map (f : α → β) (g : β → γ) (o : Reply α) : (o.map f).map g = o.map (g ∘ f) := by
  cases o with
  | success | failure | overrun => rfl

theorem map_id (o : Reply α) : o.map id = o := by
  cases o with
  | success | failure | overrun => rfl

/-- What is followed by a value that is given is mapped. -/
theorem andThen_success (o : Reply α) (f : α → β) :
    (o.andThen fun c a ↦ success c (f a) []) = o.map f := by
  cases o with
  | success c a hs => exact congrArg (success c (f a)) (List.append_nil hs)
  | failure | overrun => rfl

/-- Of three replies in a row it makes no difference which two are taken first. -/
theorem andThen_assoc (o : Reply α) (next : Cursor → α → Reply β)
    (last : Cursor → β → Reply γ) :
    (o.andThen next).andThen last = o.andThen fun c a ↦ (next c a).andThen last := by
  cases o with
  | success c a hs => exact after_andThen hs (next c a) last
  | failure | overrun => rfl

/-- A reply behind the values that a loop has gathered, the latest first, and their hints. -/
def gathered (hs : List Hint) (values : List α) (o : Reply (List α)) : Reply (List α) :=
  (o.map (values.reverse ++ ·)).after hs

@[simp] theorem gathered_nil (o : Reply (List α)) : o.gathered [] [] = o :=
  (after_nil _).trans (map_id o)

/-- What was gathered before comes first. -/
theorem gathered_success (hs hs' : List Hint) (values as : List α) (c : Cursor) :
    (success c as hs').gathered hs values = success c (values.reverse ++ as) (hs ++ hs') := rfl

/-- The latest value comes first of those that are still to come. -/
theorem gathered_cons (hs hs' : List Hint) (a : α) (values : List α) (o : Reply (List α)) :
    o.gathered (hs ++ hs') (a :: values) = ((o.map (a :: ·)).after hs').gathered hs values := by
  have hvalues (as : List α) : (a :: values).reverse ++ as = values.reverse ++ a :: as := by simp
  rw [gathered, gathered, map_after, after_after, map_map, funext hvalues]
  rfl

end Reply

namespace Outcome

variable {α β : Type}

/-- The outcome with its hints in a row. -/
def reply : Outcome α → Reply α
  | success c a h => .success c a h.toList
  | failure h => .failure h.toList
  | overrun => .overrun

/-- Mapping commutes with taking the reply. -/
theorem reply_map (f : α → β) (o : Outcome α) : (o.map f).reply = o.reply.map f := by
  cases o with
  | success | failure | overrun => rfl

/-- Hints in front of an outcome are their leaves in front of the reply. -/
theorem reply_after (h : Hints) (o : Outcome α) : (o.after h).reply = o.reply.after h.toList := by
  cases o with
  | success c a h' => exact congrArg (Reply.success c a) (Hints.toList_join h h')
  | failure h' => exact congrArg Reply.failure (Hints.toList_join h h')
  | overrun => rfl

/-- Two outcomes in a row reply in a row. -/
theorem reply_andThen (o : Outcome α) (next : Cursor → α → Outcome β) :
    (o.andThen next).reply = o.reply.andThen fun c a ↦ (next c a).reply := by
  cases o with
  | success c a h => exact reply_after h (next c a)
  | failure | overrun => rfl

/-- A reply succeeds with the leaves of the hints of a success. -/
theorem reply_eq_success {o : Outcome α} {c : Cursor} {a : α} {hs : List Hint} :
    o.reply = .success c a hs ↔ ∃ h, o = .success c a h ∧ h.toList = hs := by
  cases o with
  | success c' a' h => grind [reply]
  | failure | overrun => grind [reply]

/-- A reply fails with the leaves of the hints of a failure. -/
theorem reply_eq_failure {o : Outcome α} {hs : List Hint} :
    o.reply = .failure hs ↔ ∃ h, o = .failure h ∧ h.toList = hs := by
  cases o with
  | failure h => grind [reply]
  | success | overrun => grind [reply]

theorem reply_eq_overrun {o : Outcome α} : o.reply = .overrun ↔ o = .overrun := by
  cases o with
  | success | failure => exact ⟨nofun, nofun⟩
  | overrun => exact ⟨fun _ ↦ rfl, fun _ ↦ rfl⟩

end Outcome

/-! ### Meanings -/

/-- What a parser means: its reply from every place. -/
def Meaning (α : Type) : Type := Cursor → Reply α

namespace Meaning

variable {α β γ : Type}

/-- `pure` takes nothing; a bind goes on where its first stage has ended. -/
instance : Monad Meaning where
  pure a := fun c ↦ .success c a []
  bind m k := fun c ↦ (m c).andThen fun c a ↦ k a c

theorem pure_apply (a : α) (c : Cursor) : (pure a : Meaning α) c = .success c a [] := rfl

/-- A meaning is followed by that of what it reads. -/
theorem bind_apply (m : Meaning α) (k : α → Meaning β) (c : Cursor) :
    (m >>= k) c = (m c).andThen fun c a ↦ k a c := rfl

/-- The laws of replies are those of the monad at each place. -/
instance : LawfulMonad Meaning := by
  refine LawfulMonad.mk' Meaning ?id_map ?pure_bind ?bind_assoc
  case id_map =>
    intro α m
    funext c
    exact (Reply.andThen_success (m c) id).trans (Reply.map_id (m c))
  case pure_bind =>
    intro α β a k
    funext c
    exact Reply.after_nil (k a c)
  case bind_assoc =>
    intro α β γ m k l
    funext c
    exact Reply.andThen_assoc (m c) (fun c a ↦ k a c) fun c b ↦ l b c

theorem map_apply (f : α → β) (m : Meaning α) (c : Cursor) : (f <$> m) c = (m c).map f :=
  Reply.andThen_success (m c) f

end Meaning

namespace Parser

variable {ρ : Type} {V : ρ → Type} (call : (r : ρ) → Cursor → Outcome (V r))
variable {α β γ : Type}

/-- The replies of the parser. -/
def meaning (p : Parser V α) : Meaning α := fun c ↦ (p.run call c).reply

variable {call}

theorem meaning_apply (p : Parser V α) (c : Cursor) : p.meaning call c = (p.run call c).reply := rfl

theorem meaning_pure (a : α) : (pure a : Parser V α).meaning call = Pure.pure a := rfl

/-- A mapped parser means what is mapped. -/
theorem meaning_map (f : α → β) (p : Parser V α) :
    (p.map f).meaning call = f <$> p.meaning call := by
  funext c
  rw [Meaning.map_apply]
  exact Outcome.reply_map f (p.run call c)

/-- What is read decides about what is meant behind it. -/
theorem meaning_bind (p : Parser V α) (f : α → Parser V β) :
    (p.bind f).meaning call = p.meaning call >>= fun a ↦ (f a).meaning call := by
  funext c
  exact Outcome.reply_andThen (p.run call c) fun c a ↦ (f a).run call c

/-- One after the other is to bind the first and to pair its value with those of the second. -/
theorem meaning_both (p : Parser V α) (q : Parser V β) :
    (p.both q).meaning call = (p.bind fun a ↦ q.map (a, ·)).meaning call := rfl

/-- Two parsers in a row mean the one and then the other, in the order of reading. -/
theorem meaning_both_map (p : Parser V α) (q : Parser V β) (f : α × β → γ) :
    ((p.both q).map f).meaning call = do
      let a ← p.meaning call
      let b ← q.meaning call
      return f (a, b) := by
  rw [meaning_map, meaning_both, meaning_bind, map_bind]
  refine bind_congr fun a ↦ ?_
  rw [meaning_map, ← comp_map, map_eq_pure_bind]
  rfl

/-! ### Sequences -/

/-- The first of some parsers in a row comes first. -/
theorem mapM_cons_apply (p : Parser V α) (ps : List (Parser V α)) (c : Cursor) :
    (p :: ps).mapM (meaning call) c = ((p.run call c).reply.andThen fun m a ↦
      (ps.mapM (meaning call) m).map (a :: ·)) := by
  rw [List.mapM_cons, Meaning.bind_apply, meaning_apply]
  congr 1
  funext m a
  exact Reply.andThen_success _ _

/-- What the loop has gathered goes in front of what the rest gives. -/
theorem reply_runAll (ps : List (Parser V α)) (c : Cursor) (h : Hints) (values : List α) :
    (runAll (fun k ↦ (ps.get k).run call) c h values).reply =
      (ps.mapM (meaning call) c).gathered h.toList values := by
  induction ps generalizing c h values with
  | nil =>
      rw [List.mapM_nil, Meaning.pure_apply, Reply.gathered_success, List.append_nil,
        List.append_nil]
      rfl
  | cons p ps ih =>
      change (match p.run call c with
        | .success c a h' => runAll (fun k ↦ (ps.get k).run call) c (h.join h') (a :: values)
        | .failure h' => .failure (h.join h')
        | .overrun => .overrun : Outcome (List α)).reply = _
      rw [mapM_cons_apply]
      cases p.run call c with
      | success m a h' =>
          calc
            _ = (ps.mapM (meaning call) m).gathered (h.join h').toList (a :: values) := ih m _ _
            _ = (((ps.mapM (meaning call) m).map (a :: ·)).after h'.toList).gathered h.toList
                  values := by
                rw [Hints.toList_join, Reply.gathered_cons]
      | failure h' => exact congrArg Reply.failure (Hints.toList_join h h')
      | overrun => rfl

/-- A sequence means its parsers in a row. -/
theorem meaning_sequence (ps : List (Parser V α)) :
    (sequence ps.get).meaning call = ps.mapM (meaning call) := by
  funext c
  exact (reply_runAll ps c .empty []).trans (Reply.gathered_nil _)

/-- The parsers one after the other, from the left, with their values in order. -/
def inTurn (ps : List (Parser V α)) : Parser V (List α) :=
  ps.foldl (fun done p ↦ (done.both p).map fun (as, a) ↦ as ++ [a]) (pure [])

/-- What is done so far comes before the parsers that are left. -/
theorem meaning_foldl_both (done : Parser V (List α)) (ps : List (Parser V α)) :
    (ps.foldl (fun done p ↦ (done.both p).map fun (as, a) ↦ as ++ [a]) done).meaning call = do
      let as ← done.meaning call
      let bs ← ps.mapM (meaning call)
      return as ++ bs := by
  induction ps generalizing done with
  | nil => simp
  | cons p ps ih =>
      rw [List.foldl_cons, ih, meaning_both_map, List.mapM_cons]
      simp only [bind_assoc, pure_bind, List.append_assoc, List.singleton_append]

/-- Parsers that are paired one after the other mean a sequence. -/
theorem meaning_inTurn (ps : List (Parser V α)) :
    (inTurn ps).meaning call = (sequence ps.get).meaning call := by
  rw [inTurn, meaning_foldl_both, meaning_pure, pure_bind, meaning_sequence]
  exact bind_pure _

/-- A sequence may be cut in two anywhere; the hints of its first part are in front. -/
theorem meaning_sequence_append (ps qs : List (Parser V α)) (c : Cursor) :
    (sequence (ps ++ qs).get).meaning call c =
      ((sequence ps.get).meaning call c).andThen fun m as ↦
        ((sequence qs.get).meaning call m).map (as ++ ·) := by
  rw [meaning_sequence, List.mapM_append, ← meaning_sequence, ← meaning_sequence,
    Meaning.bind_apply]
  congr 1
  funext m as
  exact Reply.andThen_success _ _

/-- A sequence means its first parser and then the others. -/
theorem meaning_sequence_cons (p : Parser V α) (ps : List (Parser V α)) (c : Cursor) :
    (sequence (p :: ps).get).meaning call c =
      (p.meaning call c).andThen fun m a ↦ ((sequence ps.get).meaning call m).map (a :: ·) := by
  rw [meaning_sequence, meaning_sequence]
  exact mapM_cons_apply p ps c

/-- A sequence of one parser means that parser, with its value in a list. -/
theorem meaning_sequence_singleton (p : Parser V α) (c : Cursor) :
    (sequence [p].get).meaning call c = (p.meaning call c).map ([·]) :=
  (meaning_sequence_cons p [] c).trans (Reply.andThen_success _ _)

/-- Sequencing is associative with unit, one after the other is a bind followed by a map, and a
sequence is its parsers one after the other.  Where a step of a sequence ends, the hints of all
earlier steps come before its own. -/
theorem sequencing_lawful (call : (r : ρ) → Cursor → Outcome (V r)) :
    (∀ {α β γ : Type} (p : Parser V α) (f : α → Parser V β) (g : β → Parser V γ),
      ((p.bind f).bind g).meaning call = (p.bind fun a ↦ (f a).bind g).meaning call) ∧
    (∀ {α β : Type} (a : α) (f : α → Parser V β),
      ((pure a).bind f).meaning call = (f a).meaning call) ∧
    (∀ {α : Type} (p : Parser V α), (p.bind pure).meaning call = p.meaning call) ∧
    (∀ {α β : Type} (p : Parser V α) (q : Parser V β),
      (p.both q).meaning call = (p.bind fun a ↦ q.map (a, ·)).meaning call) ∧
    (∀ {α : Type} (ps : List (Parser V α)),
      (sequence ps.get).meaning call = (inTurn ps).meaning call) ∧
    ∀ {α : Type} (ps qs : List (Parser V α)) (p : Parser V α) (c m : Cursor) (as : List α)
      (hs : List Hint), (sequence ps.get).meaning call c = .success m as hs →
        (∀ hs', p.meaning call m = .failure hs' →
          (sequence (ps ++ p :: qs).get).meaning call c = .failure (hs ++ hs')) ∧
        ∀ m' a hs', p.meaning call m = .success m' a hs' →
          (sequence (ps ++ [p]).get).meaning call c = .success m' (as ++ [a]) (hs ++ hs') := by
  refine ⟨?assoc, ?left, ?right, ?both, ?sequence, ?hints⟩
  case assoc =>
    intro α β γ p f g
    simp only [meaning_bind]
    exact bind_assoc (p.meaning call) (fun a ↦ (f a).meaning call) fun b ↦ (g b).meaning call
  case left =>
    intro α β a f
    rw [meaning_bind, meaning_pure]
    exact pure_bind a fun a ↦ (f a).meaning call
  case right =>
    intro α p
    rw [meaning_bind]
    exact bind_pure (p.meaning call)
  case both =>
    intro α β p q
    exact meaning_both p q
  case sequence =>
    intro α ps
    exact (meaning_inTurn ps).symm
  case hints =>
    intro α ps qs p c m as hs hps
    constructor
    · intro hs' hp
      rw [meaning_sequence_append, hps, Reply.andThen, meaning_sequence_cons, hp]
      rfl
    · intro m' a hs' hp
      rw [meaning_sequence_append, hps, Reply.andThen, meaning_sequence_singleton, hp]
      rfl

/-- As many letters `a` as there are and a letter `b` behind them, which is missing at first: then
the letter that the repetition would have gone on with is reported too. -/
theorem sequencing_lawful_letters :
    let call : (r : Empty) → Cursor → Outcome Empty := nofun
    let as := ((literal "a").many).map List.length
    let b := (literal "b").map fun _ ↦ 0
    let here : Cursor := .ofText ['a', 'a', 'c'] 0
    let there : Cursor := .ofText ['a', 'a', 'b'] 0
    ((sequence [as].get).meaning call here = .success ⟨2, .chars ['c']⟩ [2] [(2, some "\"a\"")] ∧
      b.meaning call ⟨2, .chars ['c']⟩ = .failure [(2, some "\"b\"")] ∧
      (sequence [as, b].get).meaning call here =
        .failure [(2, some "\"a\""), (2, some "\"b\"")]) ∧
    (sequence [as].get).meaning call there = .success ⟨2, .chars ['b']⟩ [2] [(2, some "\"a\"")] ∧
      b.meaning call ⟨2, .chars ['b']⟩ = .success ⟨3, .chars []⟩ 0 [] ∧
      (sequence [as, b].get).meaning call there =
        .success ⟨3, .chars []⟩ [2, 0] [(2, some "\"a\"")] := by
  intro call as b here there
  obtain ⟨-, -, -, -, -, hhints⟩ := sequencing_lawful call
  have hhere : (sequence [as].get).meaning call here =
      .success ⟨2, .chars ['c']⟩ [2] [(2, some "\"a\"")] := rfl
  have hmissing : b.meaning call ⟨2, .chars ['c']⟩ = .failure [(2, some "\"b\"")] := rfl
  have hthere : (sequence [as].get).meaning call there =
      .success ⟨2, .chars ['b']⟩ [2] [(2, some "\"a\"")] := rfl
  have hfound : b.meaning call ⟨2, .chars ['b']⟩ = .success ⟨3, .chars []⟩ 0 [] := rfl
  exact ⟨⟨hhere, hmissing, (hhints [as] [] b _ _ _ _ hhere).1 _ hmissing⟩,
    hthere, hfound, (hhints [as] [] b _ _ _ _ hthere).2 _ _ _ hfound⟩

end Parser

end Parsing

end ZPlane
