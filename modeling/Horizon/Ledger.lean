import Horizon.Problem
import Horizon.Config

/-! Values that have been worked out, entered once.

The ledger holds the expected value of pairs of a state and an action, and the decision of states.
An entry is never changed. Computations on the ledger run in `LedgerM`: they may fail, what they
have entered by then stays entered, and beside the ledger they may keep a context `ω` of their own.
The successor values that an expected value is made of are themselves such computations, so they
may enter values too, even for the same pair; then the first entry counts.

Computations run one after the other. Where the steps of a loop could also run at the same time,
which are the states of a period and the actions of a state, `forEach` and `evaluateAll` take them
from left to right. This order is an assumption. It settles which of several errors is reported and
what has been entered by then, and it leaves no room for two steps at once that find the same value
missing and both work it out. Whether a period of a backward recursion succeeds, and what has been
entered then, does not depend on it (`order_is_irrelevant`).
-/

set_option autoImplicit false

namespace Horizon

/-- The best value of a state and the action that attains it; none at the end of the horizon. -/
structure Decision (α ρ : Type) where
  value : ρ
  action : Option α

structure Ledger (σ α ρ : Type) [DecidableEq σ] [DecidableEq α] where
  expected : Store (σ × α) ρ
  decided : Store σ (Decision α ρ)
  discount : ρ
  evaluations : Nat
  /-- The transitions whose immediate values have been collected, the latest first. -/
  transitions : List (σ × α × σ)

abbrev LedgerM (σ α ρ ω : Type) [DecidableEq σ] [DecidableEq α] (β : Type) :=
  ExceptT (SolveError σ α) (StateM (Ledger σ α ρ × ω)) β

namespace Ledger

variable {σ α ρ ω : Type} [DecidableEq σ] [DecidableEq α]

@[inline] def empty [Hashable σ] [Hashable α] (storage : StorageConfig) (discount : ρ) :
    Ledger σ α ρ :=
  { expected := .ofConfig storage fun (s, a) => Random.blend (hash s) (hash a)
    decided := .ofConfig storage hash
    discount := discount
    evaluations := 0
    transitions := [] }

@[inline] def expected? (l : Ledger σ α ρ) (s : σ) (a : α) : Option ρ :=
  l.expected.get? (s, a)

@[inline] def decision? (l : Ledger σ α ρ) (s : σ) : Option (Decision α ρ) :=
  l.decided.get? s

def isSolved (l : Ledger σ α ρ) (s : σ) : Bool :=
  (l.decision? s).isSome

@[inline] def value (l : Ledger σ α ρ) (s : σ) : Except (SolveError σ α) ρ :=
  match l.decision? s with
  | some d => .ok d.value
  | none => .error (.unsolved s)

def action (l : Ledger σ α ρ) (s : σ) : Except (SolveError σ α) α :=
  match l.decision? s with
  | some ⟨_, some a⟩ => .ok a
  | some ⟨_, none⟩ => .error (.noDecision s)
  | none => .error (.unsolved s)

def solvedCount (l : Ledger σ α ρ) : Nat :=
  l.decided.size

/-- Enter the expected value of a pair unless it has one; the one it has then. -/
def enterExpected (l : Ledger σ α ρ) (s : σ) (a : α) (v : ρ) : ρ × Ledger σ α ρ :=
  match l.expected? s a with
  | some entered => (entered, l)
  | none =>
    match l with
    | ⟨expected, decided, discount, evaluations, transitions⟩ =>
      (v, ⟨expected.insertNew (s, a) v, decided, discount, evaluations + 1, transitions⟩)

/-- Enter the decision of a state unless it has one; the one it has then, and whether it is new. -/
def publish (l : Ledger σ α ρ) (s : σ) (d : Decision α ρ) :
    (Decision α ρ × Bool) × Ledger σ α ρ :=
  match l.decision? s with
  | some entered => ((entered, false), l)
  | none =>
    match l with
    | ⟨expected, decided, discount, evaluations, transitions⟩ =>
      ((d, true), ⟨expected, decided.insertNew s d, discount, evaluations, transitions⟩)

def decide (l : Ledger σ α ρ) (s : σ) (d : Decision α ρ) :
    Except (SolveError σ α) Unit × Ledger σ α ρ :=
  match l.publish s d with
  | ((_, true), l) => (.ok (), l)
  | ((_, false), l) => (.error (.alreadySolved s), l)

@[inline] def collect (l : Ledger σ α ρ) (s : σ) (a : α) (f : σ) : Ledger σ α ρ :=
  { l with transitions := (s, a, f) :: l.transitions }

def collected (l : Ledger σ α ρ) : Nat :=
  l.transitions.length

theorem decision?_enterExpected (l : Ledger σ α ρ) (s s' : σ) (a : α) (v : ρ) :
    (l.enterExpected s a v).2.decision? s' = l.decision? s' := by
  rw [enterExpected]
  split <;> rfl

theorem expected?_publish (l : Ledger σ α ρ) (s s' : σ) (a : α) (d : Decision α ρ) :
    (l.publish s d).2.expected? s' a = l.expected? s' a := by
  rw [publish]
  split <;> rfl

theorem decision?_publish (l : Ledger σ α ρ) (s s' : σ) (d : Decision α ρ) :
    (l.publish s d).2.decision? s' =
      if s = s' then (l.decision? s).or (some d) else l.decision? s' := by
  rw [publish]
  split
  · rename_i entered h
    by_cases hs : s = s'
    · subst hs
      simp [h]
    · simp [hs]
  · exact l.decided.get?_insertNew s s' d

theorem expected?_enterExpected (l : Ledger σ α ρ) (s s' : σ) (a a' : α) (v : ρ) :
    (l.enterExpected s a v).2.expected? s' a' =
      if (s, a) = (s', a') then (l.expected? s a).or (some v) else l.expected? s' a' := by
  rw [enterExpected]
  split
  · rename_i entered h
    by_cases hs : (s, a) = (s', a')
    · cases hs
      simp [h]
    · simp [hs]
  · exact l.expected.get?_insertNew (s, a) (s', a') v

end Ledger

namespace LedgerM

variable {σ α ρ ω β : Type} [DecidableEq σ] [DecidableEq α]

@[inline] def query (f : Ledger σ α ρ → Except (SolveError σ α) β) : LedgerM σ α ρ ω β :=
  fun (l, c) => (f l, (l, c))

@[inline] def onLedger (f : Ledger σ α ρ → β × Ledger σ α ρ) : LedgerM σ α ρ ω β :=
  fun (l, c) =>
    match f l with
    | (b, l) => (.ok b, (l, c))

@[inline] def onContext (f : ω → ω) : LedgerM σ α ρ ω Unit :=
  fun (l, c) => (.ok (), (l, f c))

@[inline] def ofExcept (e : Except (SolveError σ α) β) : LedgerM σ α ρ ω β :=
  fun w => (e, w)

def valueOf (s : σ) : LedgerM σ α ρ ω ρ :=
  query (·.value s)

/-- Enter the decision of a state, which must not have one. -/
def decide (s : σ) (d : Decision α ρ) : LedgerM σ α ρ ω Unit :=
  fun (l, c) =>
    match l.decide s d with
    | (result, l) => (result, (l, c))

@[specialize] def forEach {γ : Type} (f : γ → LedgerM σ α ρ ω Unit) :
    List γ → LedgerM σ α ρ ω Unit
  | [] => pure ()
  | x :: rest => do
    f x
    forEach f rest

variable [Scalar ρ]

/-- Add the terms of an expected value to `sum`: for each outcome its weight times the immediate
value plus the discounted value of the outcome, which is worked out first. -/
@[specialize] def addTerms (P : Problem σ α ρ) (successor : σ → LedgerM σ α ρ ω ρ) (discount : ρ)
    (s : σ) (a : α) (sum : ρ) : List σ → List ρ → LedgerM σ α ρ ω ρ
  | f :: finals, w :: weights => do
    let future ← successor f
    onLedger fun l => ((), l.collect s a f)
    addTerms P successor discount s a (sum + w * (P.immediate s a f + discount * future))
      finals weights
  | _, _ => pure sum

@[specialize] def expectedValue (P : Problem σ α ρ) (finals : LedgerM σ α ρ ω (List σ))
    (successor : σ → LedgerM σ α ρ ω ρ) (s : σ) (a : α) : LedgerM σ α ρ ω ρ := do
  match ← query fun l => .ok (l.expected? s a) with
  | some entered => return entered
  | none =>
    let outcomes ← finals
    let weights ← ofExcept (P.weights s a outcomes)
    let discount ← query fun l => .ok l.discount
    let value ← addTerms P successor discount s a 0 outcomes weights
    onLedger fun l => l.enterExpected s a value

@[specialize] def evaluateAll (evaluate : α → LedgerM σ α ρ ω ρ) :
    List α → LedgerM σ α ρ ω (List (α × ρ))
  | [] => pure []
  | a :: rest => do
    let value ← evaluate a
    let values ← evaluateAll evaluate rest
    return (a, value) :: values

@[specialize] def choose (direction : Direction) (s : σ) (candidates : List (α × ρ)) :
    Except (SolveError σ α) (Decision α ρ) :=
  match (Champion.vacant direction).offerAll candidates with
  | .error a => .error (.notNumber a)
  | .ok champion =>
    match champion.best with
    | some (a, value) => .ok ⟨value, some a⟩
    | none => .error (.noFeasibleAction s)

end LedgerM

end Horizon
