import Horizon.Proofs.Contracts
import Horizon.Proofs.ForwardRun
import Horizon.Proofs.Frontier
import Horizon.Proofs.Passes

/-! What a forward recursion does, move by move.

Whatever values are asked for, and however often that fails, the ledger and the frontier change by
a few kinds of `Move` only, each of them under conditions: a state becomes known when it is asked
for, an expected value is entered when the outcomes it is made of are decided, and a state is
decided when all its actions have been evaluated. So what every move preserves, every history of
calls preserves (`Fitted.runAll`).
-/

set_option autoImplicit false

namespace Horizon.Forward

open LedgerM Relation

variable {σ α ρ : Type} [DecidableEq σ] [DecidableEq α]

def Leads (P : Problem σ α ρ) (config : Config ρ) (s f : σ) : Prop :=
  P.period s < config.horizon ∧ ∃ a ∈ P.actions s, f ∈ kept P config s a

def Knows (P : Problem σ α ρ) (f : Frontier σ) (s : σ) : Prop :=
  f.contains (P.period s) s = true

/-- The value of a state may be asked for: initially, or because it is an outcome. -/
def Asked (P : Problem σ α ρ) (config : Config ρ) (Initial : σ → Prop) (f : Frontier σ) (s : σ) :
    Prop :=
  Initial s ∨ ∃ s', Knows P f s' ∧ Leads P config s' s

inductive Move (P : Problem σ α ρ) (config : Config ρ) (Initial : σ → Prop) :
    Ledger σ α ρ × Frontier σ → Ledger σ α ρ × Frontier σ → Prop where
  | enter {l : Ledger σ α ρ} {f : Frontier σ} {s : σ} (asked : Asked P config Initial f s)
    (inside : P.period s ≤ config.horizon) (undecided : l.decision? s = none) :
    Move P config Initial (l, f) (l, f.enter (P.period s) s)
  | reuse {l : Ledger σ α ρ} {f : Frontier σ} {s : σ} (solved : l.isSolved s = true) :
    Move P config Initial (l, f) (l, f.count Tally.addReused)
  | collect {l : Ledger σ α ρ} {f : Frontier σ} (s : σ) (a : α) (o : σ) :
    Move P config Initial (l, f) (l.collect s a o, f)
  | evaluate {l : Ledger σ α ρ} {f : Frontier σ} {s : σ} {a : α} (x : ρ)
    (below : P.period s < config.horizon) (feasible : a ∈ P.actions s) (known : Knows P f s)
    (solved : ∀ o ∈ kept P config s a, l.isSolved o = true) :
    Move P config Initial (l, f) ((l.enterExpected s a x).2, f)
  | decide {l : Ledger σ α ρ} {f : Frontier σ} {s : σ} (x : ρ) (a : α)
    (below : P.period s < config.horizon) (known : Knows P f s) (undecided : l.decision? s = none)
    (evaluated : ∀ b ∈ P.actions s, (l.expected? s b).isSome = true) :
    Move P config Initial (l, f) ((l.publish s ⟨x, some a⟩).2, f.count Tally.addSolved)
  | finish {l : Ledger σ α ρ} {f : Frontier σ} {s : σ} (x : ρ)
    (last : P.period s = config.horizon) (known : Knows P f s) (undecided : l.decision? s = none) :
    Move P config Initial (l, f) ((l.publish s ⟨x, none⟩).2, f)

abbrev Moves (P : Problem σ α ρ) (config : Config ρ) (Initial : σ → Prop) :
    Ledger σ α ρ × Frontier σ → Ledger σ α ρ × Frontier σ → Prop :=
  ReflTransGen (Move P config Initial)

variable {P : Problem σ α ρ} {config : Config ρ} {Initial : σ → Prop}

structure Grown (P : Problem σ α ρ) (w w' : Ledger σ α ρ × Frontier σ) : Prop where
  entries : w.1.Extends w'.1
  known : ∀ s, Knows P w.2 s → Knows P w'.2 s
  size_eq : w'.2.spaces.size = w.2.spaces.size

theorem Move.grown {w w' : Ledger σ α ρ × Frontier σ} (move : Move P config Initial w w') :
    Grown P w w' := by
  cases move with
  | @enter l f s _ _ _ =>
    refine ⟨.refl l, fun s' known => ?_, f.size_spaces_enter _ s⟩
    exact (f.contains_enter _ s _ s').2 (.inl known)
  | @reuse l _ _ _ => exact ⟨.refl l, fun _ => id, rfl⟩
  | @collect l _ s a o => exact ⟨l.extends_collect s a o, fun _ => id, rfl⟩
  | @evaluate l _ s a x _ _ _ _ => exact ⟨l.extends_enterExpected s a x, fun _ => id, rfl⟩
  | @decide l _ s x a _ _ _ _ => exact ⟨l.extends_publish s _, fun _ => id, rfl⟩
  | @finish l _ s x _ _ _ => exact ⟨l.extends_publish s _, fun _ => id, rfl⟩

theorem grown_of_moves {w w' : Ledger σ α ρ × Frontier σ} (moves : Moves P config Initial w w') :
    Grown P w w' := by
  induction moves with
  | refl => exact ⟨.refl w.1, fun _ => id, rfl⟩
  | tail _ move ih =>
    have last := move.grown
    exact ⟨ih.entries.trans last.entries, fun s known => last.known s (ih.known s known),
      last.size_eq.trans ih.size_eq⟩

theorem Asked.grow {w w' : Ledger σ α ρ × Frontier σ} {s : σ}
    (asked : Asked P config Initial w.2 s) (grown : Grown P w w') :
    Asked P config Initial w'.2 s := by
  rcases asked with initial | ⟨s', known, leads⟩
  · exact .inl initial
  · exact .inr ⟨s', grown.known s' known, leads⟩

/-- A state with a place in the frontier, whose value may be asked for. -/
structure Due (P : Problem σ α ρ) (config : Config ρ) (Initial : σ → Prop) (s : σ)
    (w : Ledger σ α ρ × Frontier σ) : Prop where
  wide : w.2.spaces.size = config.horizon + 1
  asked : Asked P config Initial w.2 s

structure Begun (P : Problem σ α ρ) (config : Config ρ) (s : σ) (w : Ledger σ α ρ × Frontier σ) :
    Prop where
  wide : w.2.spaces.size = config.horizon + 1
  known : Knows P w.2 s

section Stable

variable {w w' : Ledger σ α ρ × Frontier σ} {s : σ}

theorem Due.grow (due : Due P config Initial s w) (grown : Grown P w w') :
    Due P config Initial s w' :=
  ⟨grown.size_eq.trans due.wide, due.asked.grow grown⟩

theorem Begun.grow (begun : Begun P config s w) (grown : Grown P w w') : Begun P config s w' :=
  ⟨grown.size_eq.trans begun.wide, grown.known s begun.known⟩

theorem Begun.due {f : σ} (begun : Begun P config s w) (leads : Leads P config s f) :
    Due P config Initial f w :=
  ⟨begun.wide, .inr ⟨s, begun.known, leads⟩⟩

end Stable

theorem fulfils_enter {s : σ} (inside : P.period s ≤ config.horizon) :
    Fulfils (Moves P config Initial)
      (fun w => Due P config Initial s w ∧ w.1.decision? s = none)
      (onContext (Frontier.enter · (P.period s) s)) fun _ => Begun P config s := by
  refine fulfils_onContext fun l f held => ?_
  obtain ⟨due, undecided⟩ := held
  refine ⟨.single (.enter due.asked inside undecided), (f.size_spaces_enter _ s).trans due.wide, ?_⟩
  refine (f.contains_enter _ s _ s).2 (.inr ⟨rfl, rfl, ?_⟩)
  have wide : f.spaces.size = config.horizon + 1 := due.wide
  omega

theorem fulfils_decidedOr {s : σ} {before : Ledger σ α ρ × Frontier σ → Prop}
    {solve : LedgerM σ α ρ (Frontier σ) ρ}
    (vacant : Fulfils (Moves P config Initial) (fun w => before w ∧ w.1.decision? s = none) solve
      fun _ w => w.1.isSolved s = true) :
    Fulfils (Moves P config Initial) before (decidedOr s solve)
      fun _ w => w.1.isSolved s = true := by
  rintro ⟨l, f⟩ held
  cases stored : l.decision? s with
  | some d =>
    have solved : l.isSolved s = true := congrArg Option.isSome stored
    rw [decidedOr, query_bind stored]
    exact ⟨.single (.reuse solved), fun _ _ => solved⟩
  | none =>
    rw [decidedOr, query_bind stored]
    exact vacant (l, f) ⟨held, stored⟩

theorem fulfils_finish {s : σ} (last : P.period s = config.horizon) (x : ρ) :
    Fulfils (Moves P config Initial) (Begun P config s)
      (do
        let (d, _) ← onLedger (·.publish s ⟨x, none⟩)
        return d.value)
      fun _ w => w.1.isSolved s = true := by
  have published : Fulfils (Moves P config Initial) (Begun P config s)
      (onLedger (·.publish s ⟨x, none⟩)) fun _ w => w.1.isSolved s = true := by
    refine fulfils_onLedger fun l f begun => ⟨?_, l.isSolved_publish s _⟩
    cases stored : l.decision? s with
    | none => exact .single (.finish x last begun.known stored)
    | some d =>
      rw [Ledger.publish, stored]
  exact published.bind fun _ => fulfils_pure fun _ held => held

-- A state that has been decided in the meantime stays as it is, and is not counted.
theorem fulfils_decide {s : σ} (below : P.period s < config.horizon) (x : ρ) (a : α) :
    Fulfils (Moves P config Initial)
      (fun w => Begun P config s w ∧ ∀ b ∈ P.actions s, (w.1.expected? s b).isSome = true)
      (do
        let (d, isNew) ← onLedger (·.publish s ⟨x, some a⟩)
        if isNew then onContext (Frontier.count · Tally.addSolved)
        return d.value)
      fun _ w => w.1.isSolved s = true := by
  rintro ⟨l, f⟩ ⟨begun, evaluated⟩
  have solved := l.isSolved_publish s ⟨x, some a⟩
  cases stored : l.decision? s with
  | none =>
    have ran : onLedger (·.publish s ⟨x, some a⟩) (l, f) =
        (.ok (⟨x, some a⟩, true), (l.publish s ⟨x, some a⟩).2, f) := by
      rw [onLedger, Ledger.publish, stored]
    rw [bind_of_ok ran]
    exact ⟨.single (.decide x a below begun.known stored evaluated), fun _ _ => solved⟩
  | some d =>
    have ran : onLedger (·.publish s ⟨x, some a⟩) (l, f) = (.ok (d, false), l, f) := by
      rw [onLedger, Ledger.publish, stored]
    rw [bind_of_ok ran]
    exact ⟨.refl, fun _ _ => congrArg Option.isSome stored⟩

variable [Scalar ρ]

-- The outcomes are decided one after the other, and what was decided stays so.
theorem fulfils_evaluation {s : σ} {a : α} {successor : σ → LedgerM σ α ρ (Frontier σ) ρ}
    (below : P.period s < config.horizon) (feasible : a ∈ P.actions s)
    (successors : ∀ o ∈ kept P config s a, Fulfils (Moves P config Initial)
      (Due P config Initial o) (successor o) fun _ w => w.1.isSolved o = true) :
    Fulfils (Moves P config Initial) (Begun P config s)
      (expectedValue P (pure (kept P config s a)) successor s a)
      fun _ w => (w.1.expected? s a).isSome = true := by
  refine fulfils_expectedValue (I := fun done w =>
    Begun P config s w ∧ ∀ o ∈ done, w.1.isSolved o = true) ?_ ?_ ?_ ?_
  · exact fun _ _ entered => entered
  · exact fun w begun _ => ⟨begun, fun o member => absurd member List.not_mem_nil⟩
  · intro done o member
    have stable : ∀ w w', Moves P config Initial w w' →
        (Begun P config s w ∧ ∀ o ∈ done, w.1.isSolved o = true) →
          Begun P config s w' ∧ ∀ o ∈ done, w'.1.isSolved o = true := by
      rintro w w' moves ⟨begun, solved⟩
      have grown := grown_of_moves moves
      exact ⟨begun.grow grown, fun o listed => grown.entries.isSolved (solved o listed)⟩
    refine ((successors o member).keeping stable).imp
      (fun w held => ⟨held.1.due ⟨below, a, feasible, member⟩, held⟩) ?_
    rintro _ w ⟨solved, begun, earlier⟩
    refine ⟨.single (.collect s a o), ⟨begun.wide, begun.known⟩, fun o' listed => ?_⟩
    rcases List.mem_cons.1 listed with rfl | listed
    · exact solved
    · exact earlier o' listed
  · rintro l f x ⟨begun, solved⟩
    have outcomes : ∀ o ∈ kept P config s a, l.isSolved o = true :=
      fun o member => solved o (List.mem_reverse.2 member)
    exact ⟨.single (.evaluate x below feasible begun.known outcomes), l.isSome_enterExpected s a x⟩

theorem fulfils_evaluations {s : σ} {successor : σ → LedgerM σ α ρ (Frontier σ) ρ}
    (below : P.period s < config.horizon)
    (successors : ∀ a, ∀ o ∈ kept P config s a, Fulfils (Moves P config Initial)
      (Due P config Initial o) (successor o) fun _ w => w.1.isSolved o = true) :
    Fulfils (Moves P config Initial) (Begun P config s)
      (evaluateAll (fun a => expectedValue P (pure (kept P config s a)) successor s a)
        (P.actions s))
      fun _ w => Begun P config s w ∧ ∀ b ∈ P.actions s, (w.1.expected? s b).isSome = true := by
  refine fulfils_evaluateAll (fun b w w' moves entered => ?_) fun a feasible => ?_
  · exact (grown_of_moves moves).entries.isSome_expected entered
  · refine ((fulfils_evaluation below feasible (successors a)).keeping fun w w' moves begun =>
      begun.grow (grown_of_moves moves)).imp (fun w begun => ⟨begun, begun⟩) ?_
    exact fun _ _ held => held.symm

-- By induction on the periods left.
theorem fulfils_valueOf (lawful : P.Lawful) (left : Nat) (s : σ)
    (inside : P.period s + left = config.horizon) :
    Fulfils (Moves P config Initial) (Due P config Initial s) (valueOf P config left s)
      fun _ w => w.1.isSolved s = true := by
  induction left generalizing s with
  | zero =>
    have last : config.horizon = P.period s := inside.symm
    unfold valueOf
    rw [last]
    exact fulfils_decidedOr ((fulfils_enter (by omega)).bind fun _ => fulfils_finish inside _)
  | succ left ih =>
    have period : config.horizon - (left + 1) = P.period s := by omega
    have below : P.period s < config.horizon := by omega
    have successors : ∀ a, ∀ o ∈ kept P config s a, Fulfils (Moves P config Initial)
        (Due P config Initial o) (valueOf P config left o) fun _ w => w.1.isSolved o = true := by
      intro a o member
      have next := lawful.period_of_mem_outcomesKept member
      exact ih o (by omega)
    unfold valueOf
    rw [period]
    refine fulfils_decidedOr ((fulfils_enter (by omega)).bind fun _ => ?_)
    refine (fulfils_evaluations below successors).bind fun candidates => ?_
    refine (fulfils_ofExcept _).bind fun d => ?_
    by_cases chosen : choose config.direction s candidates = .ok d
    · obtain ⟨-, x, a, rfl⟩ := candidates_of_choose chosen
      exact (fulfils_decide below x a).imp (fun _ held => held.1) fun _ _ => id
    · exact fun _ held => absurd held.2 chosen

structure Fitted (P : Problem σ α ρ) (config : Config ρ) (r : Forward σ α ρ) : Prop where
  problem_eq : r.problem = P
  config_eq : r.config = config
  wide : r.frontier.spaces.size = config.horizon + 1

omit [Scalar ρ] in
theorem fitted_start [Hashable σ] [Hashable α] : Fitted P config (start P config) := by
  refine ⟨rfl, rfl, ?_⟩
  rw [start, List.size_toArray, emptySpaces, List.length_map, List.length_range]

variable (Initial)

theorem Fitted.run (lawful : P.Lawful) {r : Forward σ α ρ} (fitted : Fitted P config r) {s : σ}
    (initial : Initial s) :
    Fitted P config (r.run s).2 ∧
      Moves P config Initial (r.ledger, r.frontier) ((r.run s).2.ledger, (r.run s).2.frontier) := by
  obtain ⟨problem, configuration, f, l⟩ := r
  obtain ⟨problem_eq, config_eq, wide⟩ := fitted
  change problem = P at problem_eq
  change configuration = config at config_eq
  subst problem_eq config_eq
  unfold Forward.run
  dsimp only
  split
  · exact ⟨⟨rfl, rfl, wide⟩, .refl⟩
  · have due : Due problem configuration Initial s (l, f) := ⟨wide, .inl initial⟩
    obtain ⟨moves, -⟩ := fulfils_valueOf lawful
      (configuration.horizon - problem.period s) s (by omega) (l, f) due
    exact ⟨⟨rfl, rfl, (grown_of_moves moves).size_eq.trans wide⟩, moves⟩

theorem Fitted.runAll (lawful : P.Lawful) {r : Forward σ α ρ} (fitted : Fitted P config r)
    {initials : List σ} (initial : ∀ s ∈ initials, Initial s) :
    Fitted P config (r.runAll initials).2 ∧
      Moves P config Initial (r.ledger, r.frontier)
        ((r.runAll initials).2.ledger, (r.runAll initials).2.frontier) := by
  induction initials generalizing r with
  | nil => exact ⟨fitted, .refl⟩
  | cons s rest ih =>
    obtain ⟨next, first⟩ := fitted.run Initial lawful (initial s List.mem_cons_self)
    obtain ⟨last, later⟩ := ih next fun s' member => initial s' (List.mem_cons_of_mem s member)
    exact ⟨last, first.trans later⟩

end Horizon.Forward
