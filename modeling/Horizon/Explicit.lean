import Horizon.Problem
import Horizon.Random.SipHash

/-! Decision problems given by tables.

States and actions are integers, and everything is listed: the domain of each period, the terminal
values, and for each node its idle action and its actions with their outcomes. A state without a
node has no actions; of several entries for one thing the first counts.
-/

set_option autoImplicit false

namespace Horizon

structure Node where
  period : Nat
  x : Int
  deriving Repr, DecidableEq

instance : Hashable Node where
  hash n := Random.blend (hash n.period) (hash n.x)

instance : Label Node where
  label n := "Node \x7b period: " ++ toString n.period ++ ", x: " ++ toString n.x ++ " \x7d"

instance : Label Int where
  label n := toString n

/-- Where an action may lead, with its probability and its immediate value. -/
structure Branch (ρ : Type) where
  x : Int
  probability : ρ
  immediate : ρ

structure Offer (ρ : Type) where
  idle : Int
  actions : List (Int × List (Branch ρ))

structure Explicit (ρ : Type) where
  maxHorizon : Option Nat
  domain : Array (List Int)
  terminal : List (Int × ρ)
  offers : List (Node × Offer ρ)

namespace Explicit

variable {ρ : Type}

def offer? (e : Explicit ρ) (n : Node) : Option (Offer ρ) :=
  e.offers.lookup n

def branches (e : Explicit ρ) (n : Node) (a : Int) : List (Branch ρ) :=
  match e.offer? n with
  | some offer => (offer.actions.lookup a).getD []
  | none => []

def branch? (e : Explicit ρ) (n : Node) (a : Int) (x : Int) : Option (Branch ρ) :=
  (e.branches n a).find? fun b => b.x == x

def fingerprint (n : Node) (a : Int) : UInt64 :=
  Random.SipHash.hash [UInt64.ofNat n.period, UInt64.ofInt n.x, UInt64.ofInt a]

variable [Scalar ρ]

def problem (e : Explicit ρ) : Problem Node Int ρ where
  maxHorizon := e.maxHorizon
  period := Node.period
  actions := fun n =>
    match e.offer? n with
    | some offer => offer.actions.map Prod.fst
    | none => []
  idle := fun n =>
    match e.offer? n with
    | some offer => offer.idle
    | none => 0
  outcomes := fun n a => (e.branches n a).map fun b => ⟨n.period + 1, b.x⟩
  probability := fun n a f =>
    match e.branch? n a f.x with
    | some b => b.probability
    | none => 0
  immediate := fun n a f =>
    match e.branch? n a f.x with
    | some b => b.immediate
    | none => 0
  terminal := fun n => (e.terminal.lookup n.x).getD 0
  domain := fun t => (e.domain.getD t []).map fun x => ⟨t, x⟩
  fingerprint := fingerprint

end Explicit

end Horizon
