import Horizon.Ledger
import Horizon.StateSpace
import Horizon.Tally

/-! Backward recursion: every state of every period, from the horizon down.

First the domain of each period is enumerated, or a sample of it; samples are completed so that
each action keeps an outcome. Then the states at the horizon get their terminal values, and the
periods below it are decided one after the other, each from the values of the next. A partial run
stops at a period whose states get the value of their idle action instead of the best one.

What an error leaves behind stays: the phase, the entries of the ledger and the counts. The states
of a period are taken in the order of its enumeration and the actions of a state as they are listed,
which is one of the orders that are possible; `order_is_irrelevant` compares them.
-/

set_option autoImplicit false

namespace Horizon

inductive Phase where
  | uninitialized
  | generated
  /-- Periods from `through` on are decided; `approximate` marks a partial run. -/
  | solved (through : Nat) (approximate : Bool)
  deriving Repr, DecidableEq

structure Backward (σ α ρ : Type) [DecidableEq σ] [DecidableEq α] where
  problem : Problem σ α ρ
  config : Config ρ
  spaces : List (StateSpace σ)
  ledger : Ledger σ α ρ
  tally : Tally
  phase : Phase

structure PolicyEntry (σ α ρ : Type) where
  state : σ
  value : ρ
  action : Option α

@[specialize] def emptySpaces {σ ρ : Type} [DecidableEq σ] [Hashable σ] (config : Config ρ) :
    List (StateSpace σ) :=
  (List.range (config.horizon + 1)).map fun t =>
    .empty t config.storage config.stateSampling config.seed

namespace Backward

variable {σ α ρ : Type} [DecidableEq σ] [DecidableEq α]

def materializeAll (P : Problem σ α ρ) : List (StateSpace σ) → Nat × List (StateSpace σ)
  | [] => (0, [])
  | space :: rest =>
    let (count, space) := space.materialize P
    let (counts, rest) := materializeAll P rest
    (count + counts, space :: rest)

variable [Scalar ρ]

def isCovered (P : Problem σ α ρ) (next : StateSpace σ) (s : σ) (a : α) : Bool :=
  (P.outcomes s a).any fun f => next.contains f && Scalar.lt 0 (P.probability s a f)

/-- The outcomes of the pairs of a period none of whose outcomes with mass is known. -/
def uncovered (P : Problem σ α ρ) (current next : StateSpace σ) : List σ :=
  current.enumerated.flatMap fun s =>
    (P.actions s).flatMap fun a =>
      if isCovered P next s a then [] else P.outcomes s a

/-- Complete the periods after `current`, so that every pair of a period has a known outcome where
it has one at all. States added to a period are covered in turn. How many states were added. -/
def coverAfter (P : Problem σ α ρ) (current : StateSpace σ) :
    List (StateSpace σ) → Nat × List (StateSpace σ)
  | [] => (0, [])
  | next :: rest =>
    let (count, next) := next.extend (uncovered P current next)
    let (counts, rest) := coverAfter P next rest
    (count + counts, next :: rest)

def coverAll (P : Problem σ α ρ) : List (StateSpace σ) → Nat × List (StateSpace σ)
  | [] => (0, [])
  | first :: rest =>
    let (count, rest) := coverAfter P first rest
    (count, first :: rest)

@[specialize] def evaluate (P : Problem σ α ρ) (config : Config ρ) (next : StateSpace σ)
    (s : σ) (a : α) : LedgerM σ α ρ Tally ρ :=
  LedgerM.expectedValue P
    (pure (P.keepOutcomes config.outcomeSampling config.seed s a
      ((P.outcomes s a).filter next.contains)))
    LedgerM.valueOf s a

@[specialize] def solveState (P : Problem σ α ρ) (config : Config ρ) (next : StateSpace σ) (s : σ) :
    LedgerM σ α ρ Tally Unit := do
  let candidates ← LedgerM.evaluateAll (evaluate P config next s) (P.actions s)
  let decision ← LedgerM.ofExcept (LedgerM.choose config.direction s candidates)
  LedgerM.decide s decision
  LedgerM.onContext Tally.addSolved

@[specialize] def solveIdle (P : Problem σ α ρ) (config : Config ρ) (next : StateSpace σ) (s : σ) :
    LedgerM σ α ρ Tally Unit := do
  let value ← evaluate P config next s (P.idle s)
  LedgerM.decide s ⟨value, some (P.idle s)⟩
  LedgerM.onContext Tally.addSolved

@[specialize] def solveDown (P : Problem σ α ρ) (config : Config ρ) :
    List (StateSpace σ) → LedgerM σ α ρ Tally Unit
  | current :: next :: rest => do
    solveDown P config (next :: rest)
    LedgerM.forEach (solveState P config next) current.enumerated
  | _ => pure ()

/-- Decide the states of all periods but the last, those of the first for their idle actions. -/
@[specialize] def solveDownIdle (P : Problem σ α ρ) (config : Config ρ) :
    List (StateSpace σ) → LedgerM σ α ρ Tally Unit
  | current :: next :: rest => do
    solveDown P config (next :: rest)
    LedgerM.forEach (solveIdle P config next) current.enumerated
  | _ => pure ()

def seedTerminal (P : Problem σ α ρ) (spaces : List (StateSpace σ)) :
    LedgerM σ α ρ Tally Unit :=
  match spaces.getLast? with
  | some last => LedgerM.forEach (fun s => LedgerM.decide s ⟨P.terminal s, none⟩) last.enumerated
  | none => pure ()

@[specialize] def new [Hashable σ] [Hashable α] (P : Problem σ α ρ) (config : Config ρ) :
    Except (ConfigError ρ) (Backward σ α ρ) := do
  config.validate
  config.checkHorizon P.maxHorizon
  return {
    problem := P
    config := config
    spaces := emptySpaces config
    ledger := .empty config.storage config.discount
    tally := .zero
    phase := .uninitialized }

def generateStates (b : Backward σ α ρ) : Backward σ α ρ :=
  if b.phase = .uninitialized then
    let (count, spaces) := materializeAll b.problem b.spaces
    let (added, spaces) :=
      if b.config.stateSampling.isExhaustive then (0, spaces) else coverAll b.problem spaces
    { b with spaces, phase := .generated, tally := b.tally.addGenerated (count + added) }
  else b

@[specialize] def perform (b : Backward σ α ρ) (act : LedgerM σ α ρ Tally Unit) :
    Except (SolveError σ α) Unit × Backward σ α ρ :=
  match b with
  | ⟨problem, config, spaces, ledger, tally, phase⟩ =>
    match act (ledger, tally) with
    | (result, (ledger, tally)) => (result, ⟨problem, config, spaces, ledger, tally, phase⟩)

def prepare (b : Backward σ α ρ) : Except (SolveError σ α) Unit × Backward σ α ρ :=
  if b.phase = .uninitialized then
    let b := b.generateStates
    b.perform (seedTerminal b.problem b.spaces)
  else (.ok (), b)

/-- Decide the periods from `target` on; nothing happens when that was done before. -/
@[specialize] def runUntil (b : Backward σ α ρ) (target : Nat) (approximate : Bool) :
    Except (SolveError σ α) Unit × Backward σ α ρ :=
  match b.phase with
  | .solved _ _ => (.ok (), b)
  | _ =>
    match b.prepare with
    | (.error e, b) => (.error e, b)
    | (.ok _, b) =>
      let spaces := b.spaces.drop target
      let solve := if approximate then solveDownIdle b.problem b.config spaces
        else solveDown b.problem b.config spaces
      match b.perform solve with
      | (.error e, b) => (.error e, b)
      | (.ok _, b) => (.ok (), { b with phase := .solved target approximate })

@[specialize] def run (b : Backward σ α ρ) : Except (SolveError σ α) Unit × Backward σ α ρ :=
  b.runUntil 0 false

/-- Decide the periods after `target`, and give the states of `target` their idle actions. -/
@[specialize] def runToPeriod (b : Backward σ α ρ) (target : Nat) :
    Except (SolveError σ α) Unit × Backward σ α ρ :=
  if b.config.horizon ≤ target then (.error (.targetBeyond target b.config.horizon), b)
  else b.runUntil target true

def isApproximate (b : Backward σ α ρ) : Bool :=
  match b.phase with
  | .solved _ approximate => approximate
  | _ => false

def entry (l : Ledger σ α ρ) (s : σ) : Except (SolveError σ α) (PolicyEntry σ α ρ) :=
  match l.decision? s with
  | some d => .ok ⟨s, d.value, d.action⟩
  | none => .error (.unsolved s)

def valueFunction (b : Backward σ α ρ) (t : Nat) :
    Except (SolveError σ α) (List (PolicyEntry σ α ρ)) :=
  match b.spaces[t]? with
  | some space => space.enumerated.mapM (entry b.ledger)
  | none => .error (.tableBeyond t b.config.horizon)

def statistics (b : Backward σ α ρ) : Statistics :=
  ⟨b.tally.generated, b.tally.solved, b.tally.reused, b.ledger.evaluations⟩

end Backward

end Horizon
