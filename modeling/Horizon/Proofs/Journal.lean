import Mathlib.Data.Set.Card
import Horizon.Proofs.Passes
import Horizon.Proofs.WriteOnce

/-! A ledger as those who use it see it.

A `Client` asks and enters as it likes, and may make each call depend on the answers before it. What
it hands to an evaluation are clients again, so calls are nested, also for the same pair, and may
fail at any depth. All calls are written into a journal when they end. A journal determines the
ledger: what counts for a state or a pair is the first entry that was made for it
(`Recorded.play`).
-/

set_option autoImplicit false

namespace Horizon

inductive Event (σ α ρ : Type) where
  | asked (s : σ) (answer : Option (Decision α ρ))
  | lookedUp (s : σ) (a : α) (answer : Option ρ)
  | counted (evaluations solved : Nat)
  | decided (s : σ) (d : Decision α ρ) (result : Except (SolveError σ α) Unit)
  | published (s : σ) (d answer : Decision α ρ) (isNew : Bool)
  /-- A pair was evaluated, by a call that was made after `start` events. -/
  | evaluated (s : σ) (a : α) (start : Nat) (result : Except (SolveError σ α) ρ)

/-- Whoever uses a ledger, up to a result. Its own state `ω` is shared by all its parts. -/
inductive Client (σ α ρ ω : Type) : Type → Type 1 where
  | done {β : Type} (result : Except (SolveError σ α) β) : Client σ α ρ ω β
  | remember {β : Type} (f : ω → ω) (next : ω → Client σ α ρ ω β) : Client σ α ρ ω β
  | ask {β : Type} (s : σ) (next : Option (Decision α ρ) → Client σ α ρ ω β) : Client σ α ρ ω β
  | lookUp {β : Type} (s : σ) (a : α) (next : Option ρ → Client σ α ρ ω β) : Client σ α ρ ω β
  | count {β : Type} (next : Nat → Nat → Client σ α ρ ω β) : Client σ α ρ ω β
  | decide {β : Type} (s : σ) (d : Decision α ρ)
    (next : Except (SolveError σ α) Unit → Client σ α ρ ω β) : Client σ α ρ ω β
  | publish {β : Type} (s : σ) (d : Decision α ρ)
    (next : Decision α ρ × Bool → Client σ α ρ ω β) : Client σ α ρ ω β
  | evaluate {β : Type} (P : Problem σ α ρ) (finals : Client σ α ρ ω (List σ))
    (successor : σ → Client σ α ρ ω ρ) (s : σ) (a : α)
    (next : Except (SolveError σ α) ρ → Client σ α ρ ω β) : Client σ α ρ ω β

variable {σ α ρ ω : Type} [DecidableEq σ] [DecidableEq α]

def Event.decision? : Event σ α ρ → σ → Option (Decision α ρ)
  | .decided s d (.ok _), s' => if s = s' then some d else none
  | .published s d _ true, s' => if s = s' then some d else none
  | _, _ => none

def Event.expected? : Event σ α ρ → σ × α → Option ρ
  | .evaluated s a _ (.ok x), p => if (s, a) = p then some x else none
  | _, _ => none

def decisionIn (journal : List (Event σ α ρ)) (s : σ) : Option (Decision α ρ) :=
  journal.findSome? (·.decision? s)

def valueIn (journal : List (Event σ α ρ)) (p : σ × α) : Option ρ :=
  journal.findSome? (·.expected? p)

def decidedIn (journal : List (Event σ α ρ)) : Set σ :=
  {s | (decisionIn journal s).isSome}

def valuedIn (journal : List (Event σ α ρ)) : Set (σ × α) :=
  {p | (valueIn journal p).isSome}

/-- The answer of a call follows from the journal before it. An evaluation of a pair that had a
value when the call was made gives that value, and nothing happens in between; every other one that
succeeds gives the value that the pair has been given meanwhile, if there is one. -/
def Event.Right (journal : List (Event σ α ρ)) : Event σ α ρ → Prop
  | .asked s answer => answer = decisionIn journal s
  | .lookedUp s a answer => answer = valueIn journal (s, a)
  | .counted evaluations solved =>
    (valuedIn journal).encard = evaluations ∧ (decidedIn journal).encard = solved
  | .decided s _ result =>
    result = if (decisionIn journal s).isSome then .error (.alreadySolved s) else .ok ()
  | .published s d answer isNew =>
    answer = (decisionIn journal s).getD d ∧ isNew = (decisionIn journal s).isNone
  | .evaluated s a start result =>
    (∀ x, valueIn (journal.take start) (s, a) = some x →
        result = .ok x ∧ start = journal.length) ∧
      ∀ x y, valueIn journal (s, a) = some x → result = .ok y → y = x

namespace LedgerM

variable {β : Type}

def caught (m : LedgerM σ α ρ ω β) : LedgerM σ α ρ ω (Except (SolveError σ α) β) :=
  fun w => (.ok (m w).1, (m w).2)

def record (e : Event σ α ρ) : LedgerM σ α ρ (ω × List (Event σ α ρ)) Unit :=
  onContext fun (c, journal) => (c, journal ++ [e])

def evaluateRecorded [Scalar ρ] (P : Problem σ α ρ)
    (finals : LedgerM σ α ρ (ω × List (Event σ α ρ)) (List σ))
    (successor : σ → LedgerM σ α ρ (ω × List (Event σ α ρ)) ρ) (s : σ) (a : α) :
    LedgerM σ α ρ (ω × List (Event σ α ρ)) (Except (SolveError σ α) ρ) :=
  fun w =>
    (do
      let result ← caught (expectedValue P finals successor s a)
      record (.evaluated s a w.2.2.length result)
      return result) w

end LedgerM

open LedgerM

def Client.play [Scalar ρ] {β : Type} :
    Client σ α ρ ω β → LedgerM σ α ρ (ω × List (Event σ α ρ)) β
  | .done result => LedgerM.ofExcept result
  | .remember f next => fun w =>
    play (next (f w.2.1)) (w.1, f w.2.1, w.2.2)
  | .ask s next => do
    let answer ← query fun l => .ok (l.decision? s)
    record (.asked s answer)
    play (next answer)
  | .lookUp s a next => do
    let answer ← query fun l => .ok (l.expected? s a)
    record (.lookedUp s a answer)
    play (next answer)
  | .count next => do
    let (evaluations, solved) ← query fun l => .ok (l.evaluations, l.solvedCount)
    record (.counted evaluations solved)
    play (next evaluations solved)
  | .decide s d next => do
    let result ← caught (LedgerM.decide s d)
    record (.decided s d result)
    play (next result)
  | .publish s d next => do
    let (answer, isNew) ← onLedger (·.publish s d)
    record (.published s d answer isNew)
    play (next (answer, isNew))
  | .evaluate P finals successor s a next => do
    let result ← evaluateRecorded P (play finals) (fun f => play (successor f)) s a
    play (next result)

section Journal

omit [DecidableEq α] in
theorem decisionIn_append (journal : List (Event σ α ρ)) (e : Event σ α ρ) (s : σ) :
    decisionIn (journal ++ [e]) s = (decisionIn journal s).or (e.decision? s) := by
  simp [decisionIn, List.findSome?_append]

theorem valueIn_append (journal : List (Event σ α ρ)) (e : Event σ α ρ) (p : σ × α) :
    valueIn (journal ++ [e]) p = (valueIn journal p).or (e.expected? p) := by
  simp [valueIn, List.findSome?_append]

omit [DecidableEq α] in
theorem decisionIn_of_began {journal journal' : List (Event σ α ρ)} (began : journal <+: journal')
    {s : σ} {d : Decision α ρ} (entered : decisionIn journal s = some d) :
    decisionIn journal' s = some d := by
  obtain ⟨more, rfl⟩ := began
  rw [decisionIn] at entered ⊢
  rw [List.findSome?_append, entered, Option.some_or]

theorem valueIn_of_began {journal journal' : List (Event σ α ρ)} (began : journal <+: journal')
    {p : σ × α} {x : ρ} (entered : valueIn journal p = some x) : valueIn journal' p = some x := by
  obtain ⟨more, rfl⟩ := began
  rw [valueIn] at entered ⊢
  rw [List.findSome?_append, entered, Option.some_or]

-- An entry for a new key is one more.
theorem encard_isSome_of_enter {κ ν : Type} [DecidableEq κ] {f f' : κ → Option ν} {k : κ} {x : ν}
    (vacant : f k = none)
    (enters : ∀ k', f' k' = (f k').or (if k = k' then some x else none)) :
    {k' | (f' k').isSome}.encard = {k' | (f k').isSome}.encard + 1 := by
  have grown : {k' | (f' k').isSome} = insert k {k' | (f k').isSome} := by
    ext k'
    rw [Set.mem_ofPred_eq, enters, Set.mem_insert_iff, Set.mem_ofPred_eq]
    by_cases same : k = k'
    · subst same
      simp
    · simp [same, Ne.symm same]
  rw [grown, Set.encard_insert_of_notMem]
  simp [vacant]

end Journal

structure Recorded (discount : ρ) (w : Ledger σ α ρ × ω × List (Event σ α ρ)) : Prop where
  discount_eq : w.1.discount = discount
  decided : ∀ s, w.1.decision? s = decisionIn w.2.2 s
  expected : ∀ s a, w.1.expected? s a = valueIn w.2.2 (s, a)
  evaluations : (valuedIn w.2.2).encard = w.1.evaluations
  solved : (decidedIn w.2.2).encard = w.1.solvedCount
  right : ∀ i (e : Event σ α ρ), w.2.2[i]? = some e → e.Right (w.2.2.take i)

namespace Recorded

variable {discount : ρ} {l : Ledger σ α ρ} {c : ω} {journal : List (Event σ α ρ)}
  {e : Event σ α ρ} {s : σ} {a : α}

theorem right_append (recorded : Recorded discount (l, c, journal)) (right : e.Right journal) :
    ∀ i (e' : Event σ α ρ), (journal ++ [e])[i]? = some e' →
      e'.Right ((journal ++ [e]).take i) := by
  intro i e' found
  rcases Nat.lt_trichotomy i journal.length with before | rfl | after
  · rw [List.getElem?_append_left before] at found
    rw [List.take_append_of_le_length before.le]
    exact recorded.right i e' found
  · rw [List.getElem?_concat_length] at found
    cases found
    rwa [List.take_left]
  · rw [List.getElem?_eq_none (by simp; omega)] at found
    cases found

theorem remember (recorded : Recorded discount (l, c, journal)) (c' : ω) :
    Recorded discount (l, c', journal) := by
  obtain ⟨discount_eq, decided, expected, evaluations, solved, right⟩ := recorded
  exact ⟨discount_eq, decided, expected, evaluations, solved, right⟩

-- An event that enters nothing new.
theorem note (recorded : Recorded discount (l, c, journal)) (right : e.Right journal)
    (decided : ∀ s, decisionIn (journal ++ [e]) s = decisionIn journal s)
    (valued : ∀ p, valueIn (journal ++ [e]) p = valueIn journal p) :
    Recorded discount (l, c, journal ++ [e]) where
  discount_eq := recorded.discount_eq
  decided s := (recorded.decided s).trans (decided s).symm
  expected s a := (recorded.expected s a).trans (valued (s, a)).symm
  evaluations := by
    simp only [valuedIn, valued]
    exact recorded.evaluations
  solved := by
    simp only [decidedIn, decided]
    exact recorded.solved
  right := recorded.right_append right

theorem publish (recorded : Recorded discount (l, c, journal)) (right : e.Right journal)
    {d : Decision α ρ} (vacant : l.decision? s = none)
    (enters : ∀ s', e.decision? s' = if s = s' then some d else none)
    (valued : ∀ p, e.expected? p = none) :
    Recorded discount ((l.publish s d).2, c, journal ++ [e]) where
  discount_eq := (l.discount_publish s d).trans recorded.discount_eq
  decided s' := by
    rw [Ledger.decision?_publish, decisionIn_append, enters, vacant]
    split
    · next same =>
      subst same
      rw [← recorded.decided s, vacant]
    · rw [Option.or_none]
      exact recorded.decided s'
  expected s' a' := by
    rw [Ledger.expected?_publish, valueIn_append, valued, Option.or_none]
    exact recorded.expected s' a'
  evaluations := by
    simp only [valuedIn, valueIn_append, valued, Option.or_none, l.evaluations_publish]
    exact recorded.evaluations
  solved := by
    have more : ∀ s', decisionIn (journal ++ [e]) s' =
        (decisionIn journal s').or (if s = s' then some d else none) := by
      intro s'
      rw [decisionIn_append, enters]
    rw [decidedIn, encard_isSome_of_enter ((recorded.decided s).symm.trans vacant) more,
      Ledger.solvedCount_publish vacant]
    exact congrArg (· + 1) recorded.solved
  right := recorded.right_append right

theorem enterExpected (recorded : Recorded discount (l, c, journal)) {x : ρ} {start : Nat}
    (right : (Event.evaluated s a start (.ok (l.enterExpected s a x).1)).Right journal) :
    Recorded discount ((l.enterExpected s a x).2, c,
      journal ++ [.evaluated s a start (.ok (l.enterExpected s a x).1)]) := by
  cases held : l.expected? s a with
  | some y =>
    have known : valueIn journal (s, a) = some y := (recorded.expected s a).symm.trans held
    rw [Ledger.enterExpected, held] at right ⊢
    refine recorded.note right (fun s' => ?_) fun p => ?_
    · rw [decisionIn_append]
      exact Option.or_none
    · rw [valueIn_append, Event.expected?]
      split
      · next same =>
        subst same
        rw [known, Option.some_or]
      · exact Option.or_none
  | none =>
    have entered : (l.enterExpected s a x).1 = x := by rw [Ledger.enterExpected, held]
    rw [entered] at right ⊢
    have enters : ∀ p, valueIn (journal ++ [.evaluated s a start (.ok x)]) p =
        (valueIn journal p).or (if (s, a) = p then some x else none) :=
      fun p => valueIn_append journal _ p
    have silent : ∀ s', decisionIn (journal ++ [.evaluated s a start (.ok x)]) s' =
        decisionIn journal s' :=
      fun s' => (decisionIn_append journal _ s').trans Option.or_none
    refine ⟨(l.discount_enterExpected s a x).trans recorded.discount_eq, fun s' => ?_,
      fun s' a' => ?_, ?_, ?_, recorded.right_append right⟩
    · rw [Ledger.decision?_enterExpected, silent]
      exact recorded.decided s'
    · rw [Ledger.expected?_enterExpected, enters, held]
      split
      · next same =>
        rw [← same, ← recorded.expected s a, held]
      · rw [Option.or_none]
        exact recorded.expected s' a'
    · rw [valuedIn, encard_isSome_of_enter ((recorded.expected s a).symm.trans held) enters,
        Ledger.evaluations_enterExpected held]
      exact congrArg (· + 1) recorded.evaluations
    · simp only [decidedIn, silent, l.solvedCount_enterExpected]
      exact recorded.solved

end Recorded

def Continues (discount : ρ) (start : List (Event σ α ρ))
    (w : Ledger σ α ρ × ω × List (Event σ α ρ)) : Prop :=
  Recorded discount w ∧ start <+: w.2.2

namespace Continues

variable {discount : ρ} {start : List (Event σ α ρ)} {l l' : Ledger σ α ρ} {c c' : ω}
  {journal : List (Event σ α ρ)} {e : Event σ α ρ}

theorem collect {c : ω × List (Event σ α ρ)} (continues : Continues discount start (l, c)) (s : σ)
    (a : α) (f : σ) : Continues discount start (l.collect s a f, c) := by
  obtain ⟨⟨discount_eq, decided, expected, evaluations, solved, right⟩, began⟩ := continues
  exact ⟨⟨discount_eq, decided, expected, evaluations, solved, right⟩, began⟩

theorem append (continues : Continues discount start (l, c, journal))
    (recorded : Recorded discount (l', c', journal ++ [e])) :
    Continues discount start (l', c', journal ++ [e]) :=
  ⟨recorded, continues.2.trans (List.prefix_append journal [e])⟩

theorem of_began {w : Ledger σ α ρ × ω × List (Event σ α ρ)} (began : start <+: journal)
    (continues : Continues discount journal w) : Continues discount start w :=
  ⟨continues.1, began.trans continues.2⟩

theorem note (continues : Continues discount start (l, c, journal)) (right : e.Right journal)
    (decided : ∀ s, e.decision? s = none) (valued : ∀ p, e.expected? p = none) :
    Continues discount start (l, c, journal ++ [e]) := by
  refine continues.append (continues.1.note right (fun s => ?_) fun p => ?_)
  · rw [decisionIn_append, decided, Option.or_none]
  · rw [valueIn_append, valued, Option.or_none]

theorem decide (continues : Continues discount start (l, c, journal)) (s : σ) (d : Decision α ρ) :
    Continues discount start ((l.decide s d).2, c,
      journal ++ [.decided s d (l.decide s d).1]) := by
  have stored := continues.1.decided s
  cases held : l.decision? s with
  | some d' =>
    rw [held] at stored
    have refused : l.decide s d = (.error (.alreadySolved s), l) := by
      rw [Ledger.decide, Ledger.publish, held]
    rw [refused]
    refine continues.note ?_ (fun _ => rfl) fun _ => rfl
    rw [Event.Right, ← stored]
    rfl
  | none =>
    rw [held] at stored
    have accepted : l.decide s d = (.ok (), (l.publish s d).2) := by
      rw [Ledger.decide, Ledger.publish, held]
    rw [accepted]
    refine continues.append (continues.1.publish ?_ held (fun _ => rfl) fun _ => rfl)
    rw [Event.Right, ← stored]
    rfl

theorem publish (continues : Continues discount start (l, c, journal)) (s : σ) (d : Decision α ρ) :
    Continues discount start ((l.publish s d).2, c,
      journal ++ [.published s d (l.publish s d).1.1 (l.publish s d).1.2]) := by
  have stored := continues.1.decided s
  cases held : l.decision? s with
  | some d' =>
    rw [held] at stored
    have refused : l.publish s d = ((d', false), l) := by rw [Ledger.publish, held]
    rw [refused]
    refine continues.note ?_ (fun _ => rfl) fun _ => rfl
    rw [Event.Right, ← stored]
    exact ⟨rfl, rfl⟩
  | none =>
    rw [held] at stored
    have accepted : (l.publish s d).1 = (d, true) := by rw [Ledger.publish, held]
    rw [accepted]
    refine continues.append (continues.1.publish ?_ held (fun _ => rfl) fun _ => rfl)
    rw [Event.Right, ← stored]
    exact ⟨rfl, rfl⟩

end Continues

section Play

variable [Scalar ρ] {discount : ρ} {P : Problem σ α ρ}
  {finals : LedgerM σ α ρ (ω × List (Event σ α ρ)) (List σ)}
  {successor : σ → LedgerM σ α ρ (ω × List (Event σ α ρ)) ρ} {s : σ} {a : α}

theorem evaluateRecorded_eq {w w' : Ledger σ α ρ × ω × List (Event σ α ρ)}
    {result : Except (SolveError σ α) ρ}
    (given : expectedValue P finals successor s a w = (result, w')) :
    evaluateRecorded P finals successor s a w =
      (.ok result, w'.1, w'.2.1, w'.2.2 ++ [.evaluated s a w.2.2.length result]) := by
  have caught : LedgerM.caught (expectedValue P finals successor s a) w = (.ok result, w') := by
    rw [LedgerM.caught, given]
  rw [evaluateRecorded, bind_of_ok caught]
  rfl

-- What has been in the journal when the call began is still there when it ends. If the pair had no
-- value then, it may have been given one by the calls in between, or be given one now.
theorem ensures_evaluateRecorded
    (listed : ∀ start, Ensures (Continues discount start) finals fun _ => True)
    (successors : ∀ f start, Ensures (Continues discount start) (successor f) fun _ => True)
    (start : List (Event σ α ρ)) :
    Ensures (Continues discount start) (evaluateRecorded P finals successor s a)
      fun _ => True := by
  rintro ⟨l, c, journal⟩ continues
  refine ⟨?_, fun _ _ => trivial⟩
  have known := continues.1.expected s a
  cases held : l.expected? s a with
  | some x =>
    rw [held] at known
    have entered : l.enterExpected s a x = (x, l) := by rw [Ledger.enterExpected, held]
    have right : (Event.evaluated s a journal.length (.ok (l.enterExpected s a x).1)).Right
        journal := by
      rw [entered, Event.Right, List.take_length, ← known]
      exact ⟨fun y same => ⟨congrArg Except.ok (Option.some.inj same), rfl⟩,
        fun y z same given => (Except.ok.inj given).symm.trans (Option.some.inj same)⟩
    have recorded := continues.1.enterExpected right
    rw [entered] at recorded
    rw [evaluateRecorded_eq (expectedValue_of_stored held (c, journal))]
    exact continues.append recorded
  | none =>
    rw [held] at known
    have vacant : ∀ later, journal <+: later →
        valueIn (later.take journal.length) (s, a) = none := by
      rintro _ ⟨more, rfl⟩
      rw [List.take_left]
      exact known.symm
    let work : LedgerM σ α ρ (ω × List (Event σ α ρ)) ρ := do
      let outcomes ← finals
      let weights ← LedgerM.ofExcept (P.weights s a outcomes)
      let discount ← query fun l => .ok l.discount
      addTerms P successor discount s a 0 outcomes weights
    have ensured : Ensures (Continues discount journal) work fun _ => True := by
      refine (listed journal).bind fun outcomes _ => ?_
      refine (computes_ofExcept _).ensures.bind fun ws _ => ?_
      refine (ensures_query (Q := fun _ => True) fun _ _ _ _ => trivial).bind fun discount _ => ?_
      exact (ensures_addTerms ws 0 (fun _ _ continues => continues.collect s a) fun f _ =>
        successors f journal).imp fun _ _ => trivial
    have given : expectedValue P finals successor s a (l, c, journal) =
        (work >>= fun value => onLedger fun l => l.enterExpected s a value) (l, c, journal) := by
      rw [expectedValue_of_vacant held]
      simp only [work, bind_assoc]
    obtain ⟨after, -⟩ := ensured (l, c, journal) ⟨continues.1, List.prefix_refl journal⟩
    rcases ran : work (l, c, journal) with ⟨result, l', c', journal'⟩
    rw [ran] at after
    refine .of_began continues.2 ?_
    cases result with
    | error e =>
      rw [evaluateRecorded_eq (given.trans (bind_of_error ran))]
      refine after.note ⟨fun x found => ?_, fun _ _ _ failed => by cases failed⟩ (fun _ => rfl)
        fun _ => rfl
      rw [vacant journal' after.2] at found
      cases found
    | ok value =>
      rw [evaluateRecorded_eq (given.trans (bind_of_ok ran))]
      refine after.append (after.1.enterExpected ⟨fun x found => ?_, fun x y found same => ?_⟩)
      · rw [vacant journal' after.2] at found
        cases found
      · rw [← after.1.expected s a] at found
        rw [Ledger.enterExpected, found] at same
        exact (Except.ok.inj same).symm

theorem Client.ensures_play {β : Type} (client : Client σ α ρ ω β)
    (start : List (Event σ α ρ)) :
    Ensures (Continues discount start) client.play fun _ => True := by
  induction client generalizing start with
  | done result => exact (computes_ofExcept result).ensures.imp fun _ _ => trivial
  | remember f next ih =>
    rintro ⟨l, c, journal⟩ ⟨recorded, began⟩
    exact ih (f c) start (l, f c, journal) ⟨recorded.remember (f c), began⟩
  | ask s next ih =>
    rintro ⟨l, c, journal⟩ continues
    refine ih (l.decision? s) start (l, c, journal ++ [.asked s (l.decision? s)]) ?_
    exact continues.note (continues.1.decided s) (fun _ => rfl) fun _ => rfl
  | lookUp s a next ih =>
    rintro ⟨l, c, journal⟩ continues
    refine ih (l.expected? s a) start (l, c, journal ++ [.lookedUp s a (l.expected? s a)]) ?_
    exact continues.note (continues.1.expected s a) (fun _ => rfl) fun _ => rfl
  | count next ih =>
    rintro ⟨l, c, journal⟩ continues
    refine ih l.evaluations l.solvedCount start
      (l, c, journal ++ [.counted l.evaluations l.solvedCount]) ?_
    exact continues.note ⟨continues.1.evaluations, continues.1.solved⟩ (fun _ => rfl) fun _ => rfl
  | decide s d next ih =>
    rintro ⟨l, c, journal⟩ continues
    exact ih (l.decide s d).1 start _ (continues.decide s d)
  | publish s d next ih =>
    rintro ⟨l, c, journal⟩ continues
    exact ih (l.publish s d).1 start _ (continues.publish s d)
  | evaluate P finals successor s a next listed successors ih =>
    exact (ensures_evaluateRecorded listed successors start).bind fun result _ => ih result start

end Play

theorem recorded_empty [Hashable σ] [Hashable α] (storage : StorageConfig) (discount : ρ) (c : ω) :
    Recorded discount ((.empty storage discount : Ledger σ α ρ), c, []) where
  discount_eq := rfl
  decided := Ledger.decision?_empty storage discount
  expected := Ledger.expected?_empty storage discount
  evaluations := by simp [valuedIn, valueIn, Ledger.empty]
  solved := by
    rw [Ledger.solvedCount, Ledger.empty, Store.size_ofConfig]
    simp [decidedIn, decisionIn]
  right _ _ found := by cases found

/-- A ledger is written once, whoever uses it and however calls are nested. Every answer follows
from the calls that ended before (`Event.Right`): a state keeps the first decision that is entered
for it, a pair the first value that it is given, and what fails enters nothing. The ledger holds
what the journal enters and nothing else, so a call for one key does not affect another; what was
entered at any time is still there, and the counts are those of the keys. A pair that has a value is
not worked out again, whatever its outcomes and their values would be asked from; a pair that has
none is worked out as on an empty ledger. -/
theorem Client.play_writes_once [Scalar ρ] [Hashable σ] [Hashable α] {β : Type}
    (client : Client σ α ρ ω β) (storage : StorageConfig) (discount : ρ) (c : ω) :
    let after := (client.play (.empty storage discount, c, [])).2
    let l := after.1
    let journal := after.2.2
    (∀ i (e : Event σ α ρ), journal[i]? = some e → e.Right (journal.take i)) ∧
      (∀ s, l.decision? s = decisionIn journal s) ∧
      (∀ s a, l.expected? s a = valueIn journal (s, a)) ∧
      (∀ i s d, decisionIn (journal.take i) s = some d → l.decision? s = some d) ∧
      (∀ i s a x, valueIn (journal.take i) (s, a) = some x → l.expected? s a = some x) ∧
      (valuedIn journal).encard = l.evaluations ∧ (decidedIn journal).encard = l.solvedCount ∧
      (∀ P finals successor s a x, l.expected? s a = some x →
        expectedValue P finals successor s a after = (.ok x, after)) ∧
      ∀ P fs value s a, l.expected? s a = none →
        (expectedValue P (pure fs) (fun f => LedgerM.ofExcept (value f)) s a after).1 =
          P.appraise discount value s a fs := by
  obtain ⟨⟨recorded, -⟩, -⟩ := client.ensures_play [] _
    ⟨recorded_empty storage discount c, List.prefix_refl []⟩
  generalize (client.play (.empty storage discount, c, [])).2 = after at recorded ⊢
  obtain ⟨l, c', journal⟩ := after
  obtain ⟨discount_eq, decided, expected, evaluations, solved, right⟩ := recorded
  refine ⟨right, decided, expected, fun i s d entered => ?_, fun i s a x entered => ?_,
    evaluations, solved, fun P finals successor s a x stored => ?_,
    fun P fs value s a vacant => ?_⟩
  · exact (decided s).trans (decisionIn_of_began (List.take_prefix i journal) entered)
  · exact (expected s a).trans (valueIn_of_began (List.take_prefix i journal) entered)
  · exact expectedValue_of_stored stored (c', journal)
  · have given := expectedValue_eq_appraise (P := P) vacant (c', journal) fs value
    rwa [show l.discount = discount from discount_eq] at given

def Client.nested : Client Node Int Float Unit Float :=
  let evaluated := Client.evaluate Explicit.uneven.problem (.done (.ok [⟨1, 0⟩]))
  evaluated (fun _ => evaluated (fun _ => .done (.ok 3)) ⟨0, 0⟩ 0 .done) ⟨0, 0⟩ 0 .done

-- The inner value is entered first, and is what the outer call gives in place of its own.
example :
    let ran := Client.nested.play (.empty .default 1, (), [])
    ran.1.toOption = some 4 ∧ ran.2.1.evaluations = 1 ∧ ran.2.2.2.length = 2 := by
  decide +kernel

end Horizon
