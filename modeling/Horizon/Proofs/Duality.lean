import Horizon.Proofs.ForwardRun
import Horizon.Proofs.History
import Horizon.Proofs.Negation

/-! Small costs are large rewards of the other sign.

A problem with all values negated and looked at in the opposite direction is solved by the same
calls in the same way: what a recursion does on it mirrors what it does on the problem itself
(`Negates`), so it fails where that fails, decides for the same actions, counts the same, and its
values are the negated ones.
-/

set_option autoImplicit false

namespace Horizon

open LedgerM

variable {σ α ρ : Type} [DecidableEq σ] [DecidableEq α] [Scalar ρ] [Scalar.Signed ρ]
  {P : Problem σ α ρ} {config : Config ρ}

namespace Backward

section Passes

variable {next : StateSpace σ}

theorem mirrors_evaluate (s : σ) (a : α) :
    Mirrors (- ·) (evaluate P config next s a) (evaluate P.negated config.opposed next s a) :=
  mirrors_expectedValue (fun f => mirrors_query fun _ _ negates => negates.value_eq f) _

theorem mirrors_solveState (s : σ) :
    Mirrors id (solveState P config next s) (solveState P.negated config.opposed next s) := by
  refine (mirrors_evaluateAll (P.actions s) (mirrors_evaluate s)).bind fun candidates => ?_
  refine (mirrors_choose config.direction s candidates).bind fun d => ?_
  exact (mirrors_decide s d).bind fun _ => mirrors_onContext Tally.addSolved

theorem mirrors_solveIdle (s : σ) :
    Mirrors id (solveIdle P config next s) (solveIdle P.negated config.opposed next s) :=
  (mirrors_evaluate s (P.idle s)).bind fun x =>
    (mirrors_decide s ⟨x, some (P.idle s)⟩).bind fun _ => mirrors_onContext Tally.addSolved

theorem mirrors_solveDown (spaces : List (StateSpace σ)) :
    Mirrors id (solveDown P config spaces) (solveDown P.negated config.opposed spaces) := by
  induction spaces with
  | nil => exact mirrors_pure ()
  | cons current rest ih =>
    cases rest with
    | nil => exact mirrors_pure ()
    | cons next others =>
      exact ih.bind fun _ => mirrors_forEach current.enumerated mirrors_solveState

theorem mirrors_pass (approximate : Bool) (spaces : List (StateSpace σ)) :
    Mirrors id (pass P config approximate spaces)
      (pass P.negated config.opposed approximate spaces) := by
  cases approximate with
  | false => exact mirrors_solveDown spaces
  | true =>
    cases spaces with
    | nil => exact mirrors_pure ()
    | cons current rest =>
      cases rest with
      | nil => exact mirrors_pure ()
      | cons next others =>
        exact (mirrors_solveDown (next :: others)).bind fun _ =>
          mirrors_forEach current.enumerated mirrors_solveIdle

theorem mirrors_seedTerminal (spaces : List (StateSpace σ)) :
    Mirrors id (seedTerminal P spaces) (seedTerminal P.negated spaces) := by
  unfold seedTerminal
  cases spaces.getLast? with
  | none => exact mirrors_pure ()
  | some last =>
    exact mirrors_forEach last.enumerated fun s => mirrors_decide s ⟨P.terminal s, none⟩

end Passes

/-- The second recursion is for the negated problem and the opposite direction, and as far as the
first: with the same states, actions and counts, and with the negated values. -/
structure Negates (b b' : Backward σ α ρ) : Prop where
  problem_eq : b'.problem = b.problem.negated
  config_eq : b'.config = b.config.opposed
  spaces_eq : b.spaces = b'.spaces
  ledger : b.ledger.Negates b'.ledger
  tally_eq : b.tally = b'.tally
  phase_eq : b.phase = b'.phase

namespace Negates

variable {b b' : Backward σ α ρ}

theorem start [Hashable σ] [Hashable α] (P : Problem σ α ρ) (config : Config ρ) :
    (Backward.start P config).Negates (Backward.start P.negated config.opposed) :=
  ⟨rfl, rfl, rfl, .empty _ _, rfl, rfl⟩

theorem generateStates (negates : b.Negates b') : b.generateStates.Negates b'.generateStates := by
  obtain ⟨P, config, spaces, l, t, phase⟩ := b
  obtain ⟨P', config', spaces', l', t', phase'⟩ := b'
  obtain ⟨rfl, rfl, rfl, ledger, rfl, rfl⟩ := negates
  unfold Backward.generateStates
  split
  · dsimp only
    rw [P.sameShape_negated.materializeAll_eq, P.sameShape_negated.coverAll_eq]
    exact ⟨rfl, rfl, rfl, ledger, rfl, rfl⟩
  · exact ⟨rfl, rfl, rfl, ledger, rfl, rfl⟩

theorem perform (negates : b.Negates b') {act act' : LedgerM σ α ρ Tally Unit}
    (mirrors : Mirrors id act act') :
    (b.perform act).1 = (b'.perform act').1 ∧ (b.perform act).2.Negates (b'.perform act').2 := by
  obtain ⟨P, config, spaces, l, t, phase⟩ := b
  obtain ⟨P', config', spaces', l', t', phase'⟩ := b'
  obtain ⟨rfl, rfl, rfl, ledger, rfl, rfl⟩ := negates
  obtain ⟨same, entered, counted⟩ := mirrors l l' t ledger
  rw [Except.map_id] at same
  exact ⟨same.symm, rfl, rfl, rfl, entered, counted.symm, rfl⟩

theorem prepare (negates : b.Negates b') :
    b.prepare.1 = b'.prepare.1 ∧ b.prepare.2.Negates b'.prepare.2 := by
  have generated := negates.generateStates
  unfold Backward.prepare
  rw [negates.phase_eq]
  split
  · dsimp only
    rw [generated.problem_eq, ← generated.spaces_eq]
    exact generated.perform (mirrors_seedTerminal _)
  · exact ⟨rfl, negates⟩

theorem withPhase (negates : b.Negates b') (phase : Phase) :
    Negates { b with phase := phase } { b' with phase := phase } :=
  ⟨negates.problem_eq, negates.config_eq, negates.spaces_eq, negates.ledger, negates.tally_eq, rfl⟩

theorem runUntil (negates : b.Negates b') (target : Nat) (approximate : Bool) :
    (b.runUntil target approximate).1 = (b'.runUntil target approximate).1 ∧
      (b.runUntil target approximate).2.Negates (b'.runUntil target approximate).2 := by
  obtain ⟨prepared, readied⟩ := negates.prepare
  unfold Backward.runUntil
  rw [negates.phase_eq]
  split
  · exact ⟨rfl, negates⟩
  · rcases first : b.prepare with ⟨result, c⟩
    rcases first' : b'.prepare with ⟨result', c'⟩
    rw [first, first'] at prepared readied
    change result = result' at prepared
    change c.Negates c' at readied
    subst prepared
    cases result with
    | error e => exact ⟨rfl, readied⟩
    | ok _ =>
      have mirrors : Mirrors id (pass c.problem c.config approximate (c.spaces.drop target))
          (pass c'.problem c'.config approximate (c'.spaces.drop target)) := by
        rw [readied.problem_eq, readied.config_eq, ← readied.spaces_eq]
        exact mirrors_pass approximate _
      obtain ⟨solved, last⟩ := readied.perform mirrors
      unfold pass at solved last
      dsimp only
      generalize c.perform _ = ran at solved last ⊢
      generalize c'.perform _ = ran' at solved last ⊢
      obtain ⟨outcome, d⟩ := ran
      obtain ⟨outcome', d'⟩ := ran'
      change outcome = outcome' at solved
      subst solved
      cases outcome with
      | error e => exact ⟨rfl, last⟩
      | ok _ => exact ⟨rfl, last.withPhase _⟩

theorem answer (negates : b.Negates b') (c : Call) :
    (b.answer c).1 = (b'.answer c).1 ∧ (b.answer c).2.Negates (b'.answer c).2 := by
  cases c with
  | generateStates => exact ⟨rfl, negates.generateStates⟩
  | run => exact negates.runUntil 0 false
  | runToPeriod target =>
    have horizon : b.config.horizon = b'.config.horizon := by
      rw [negates.config_eq]
      rfl
    unfold Backward.answer Backward.runToPeriod
    dsimp only
    rw [horizon]
    split
    · exact ⟨rfl, negates⟩
    · exact negates.runUntil target true

theorem after (negates : b.Negates b') (calls : List Call) :
    (b.after calls).Negates (b'.after calls) := by
  induction calls generalizing b b' with
  | nil => exact negates
  | cons c rest ih => exact ih (negates.answer c).2

end Negates

end Backward

namespace Forward

theorem mirrors_decidedOr {s : σ} {solve solve' : LedgerM σ α ρ (Frontier σ) ρ}
    (mirrors : Mirrors (- ·) solve solve') :
    Mirrors (- ·) (decidedOr s solve) (decidedOr s solve') := by
  have looked : Mirrors (ω := Frontier σ) (Option.map Decision.negated)
      (query fun l : Ledger σ α ρ => .ok (l.decision? s))
      (query fun l : Ledger σ α ρ => .ok (l.decision? s)) :=
    mirrors_query fun _ _ negates => congrArg Except.ok (negates.decided s)
  refine looked.bind fun held => ?_
  cases held with
  | none => exact mirrors
  | some d =>
    exact (mirrors_onContext (Frontier.count · Tally.addReused)).bind fun _ => mirrors_pure d.value

def negatedEntry (entry : Decision α ρ × Bool) : Decision α ρ × Bool :=
  (entry.1.negated, entry.2)

theorem mirrors_publish (s : σ) (d : Decision α ρ) :
    Mirrors (ω := Frontier σ) negatedEntry (onLedger fun l : Ledger σ α ρ => l.publish s d)
      (onLedger fun l => l.publish s d.negated) :=
  mirrors_onLedger fun _ _ negates => negates.publish s d

-- By induction on the periods left, as the values are asked for.
theorem mirrors_valueOf (left : Nat) (s : σ) :
    Mirrors (- ·) (valueOf P config left s) (valueOf P.negated config.opposed left s) := by
  induction left generalizing s with
  | zero =>
    refine mirrors_decidedOr ?_
    refine (mirrors_onContext (Frontier.enter · config.horizon s)).bind fun _ => ?_
    exact (mirrors_publish s ⟨P.terminal s, none⟩).bind fun entry => mirrors_pure entry.1.value
  | succ left ih =>
    refine mirrors_decidedOr ?_
    refine (mirrors_onContext (Frontier.enter · (config.horizon - (left + 1)) s)).bind fun _ => ?_
    have evaluated := mirrors_evaluateAll (P.actions s) fun a =>
      mirrors_expectedValue (P := P) (s := s) (a := a) ih (kept P config s a)
    refine evaluated.bind fun candidates => ?_
    refine (mirrors_choose config.direction s candidates).bind fun d => ?_
    refine (mirrors_publish s d).bind fun entry => ?_
    obtain ⟨entered, isNew⟩ := entry
    cases isNew with
    | true =>
      exact (mirrors_onContext (Frontier.count · Tally.addSolved)).bind fun _ =>
        mirrors_pure entered.value
    | false => exact mirrors_pure entered.value

structure Negates (r r' : Forward σ α ρ) : Prop where
  problem_eq : r'.problem = r.problem.negated
  config_eq : r'.config = r.config.opposed
  frontier_eq : r.frontier = r'.frontier
  ledger : r.ledger.Negates r'.ledger

namespace Negates

variable {r r' : Forward σ α ρ}

theorem start [Hashable σ] [Hashable α] (P : Problem σ α ρ) (config : Config ρ) :
    (Forward.start P config).Negates (Forward.start P.negated config.opposed) :=
  ⟨rfl, rfl, rfl, .empty _ _⟩

theorem run (negates : r.Negates r') (s : σ) :
    (r'.run s).1 = (r.run s).1.map (- ·) ∧ (r.run s).2.Negates (r'.run s).2 := by
  obtain ⟨P, config, f, l⟩ := r
  obtain ⟨P', config', f', l'⟩ := r'
  obtain ⟨rfl, rfl, rfl, ledger⟩ := negates
  unfold Forward.run
  dsimp only [Problem.negated, Config.opposed]
  split
  · exact ⟨rfl, rfl, rfl, rfl, ledger⟩
  · have mirrors : Mirrors (- ·) (valueOf P config (config.horizon - P.period s) s)
        (valueOf P.negated config.opposed (config.horizon - P.period s) s) :=
      mirrors_valueOf _ s
    obtain ⟨same, entered, known⟩ := mirrors l l' f ledger
    exact ⟨same, rfl, rfl, known.symm, entered⟩

theorem runAll (negates : r.Negates r') (initials : List σ) :
    (r'.runAll initials).1 = (r.runAll initials).1.map (Except.map (- ·)) ∧
      (r.runAll initials).2.Negates (r'.runAll initials).2 := by
  induction initials generalizing r r' with
  | nil => exact ⟨rfl, negates⟩
  | cons s rest ih =>
    obtain ⟨result, next⟩ := negates.run s
    obtain ⟨results, last⟩ := ih next
    exact ⟨congrArg₂ List.cons result results, last⟩

end Negates

end Forward

theorem Backward.Negates.statistics_eq {b b' : Backward σ α ρ} (negates : b.Negates b') :
    b.statistics = b'.statistics := by
  rw [statistics, statistics, negates.tally_eq, negates.ledger.evaluations_eq]

theorem Forward.Negates.statistics_eq {r r' : Forward σ α ρ} (negates : r.Negates r') :
    r.statistics = r'.statistics := by
  rw [statistics, statistics, negates.frontier_eq, negates.ledger.evaluations_eq]

/-- With exact numbers and what is no number, a problem in one direction is the negated problem in
the other. Whatever is called, the two backward recursions answer alike, errors included, and have
the same phase, the same states with the same actions, negated values, and the same counts; and so
have the two forward recursions, which answer with negated values. -/
theorem directions_are_dual [Hashable σ] [Hashable α] (P : Problem σ α RatNaN)
    (config : Config RatNaN) :
    (∀ b, Backward.new P config = .ok b →
      ∃ b', Backward.new P.negated config.opposed = .ok b' ∧ ∀ calls,
        (b.after calls).Negates (b'.after calls) ∧
          (b.after calls).statistics = (b'.after calls).statistics ∧
            ∀ c, ((b.after calls).answer c).1 = ((b'.after calls).answer c).1) ∧
      ∀ r, Forward.new P config = .ok r →
        ∃ r', Forward.new P.negated config.opposed = .ok r' ∧ ∀ initials,
          (r'.runAll initials).1 = (r.runAll initials).1.map (Except.map (- ·)) ∧
            (r.runAll initials).2.Negates (r'.runAll initials).2 ∧
              (r.runAll initials).2.statistics = (r'.runAll initials).2.statistics := by
  constructor
  · intro b new
    obtain ⟨valid, horizon, rfl⟩ := Backward.new_eq_ok_iff.1 new
    refine ⟨_, Backward.new_eq_ok_iff.2 ⟨valid, horizon, rfl⟩, fun calls => ?_⟩
    have negates := (Backward.Negates.start P config).after calls
    exact ⟨negates, negates.statistics_eq, fun c => (negates.answer c).1⟩
  · intro r new
    obtain ⟨valid, horizon, rfl⟩ := Forward.new_eq_ok_iff.1 new
    refine ⟨_, Forward.new_eq_ok_iff.2 ⟨valid, horizon, rfl⟩, fun initials => ?_⟩
    obtain ⟨results, negates⟩ := (Forward.Negates.start P config).runAll initials
    exact ⟨results, negates, negates.statistics_eq⟩

def Explicit.unevenNaN : Explicit RatNaN :=
  { uneven with terminal := [(1, .nan)] }

-- A run that succeeds in both directions, and one that meets the same action without a value.
theorem directions_are_dual_uneven :
    let P : Problem Node Int RatNaN := Explicit.uneven.problem
    let Q : Problem Node Int RatNaN := Explicit.unevenNaN.problem
    let config : Config RatNaN := .exact 2
    ∃ b b' c c', Backward.new P config = .ok b ∧
      Backward.new P.negated config.opposed = .ok b' ∧ Backward.new Q config = .ok c ∧
      Backward.new Q.negated config.opposed = .ok c' ∧ b.run.1 = .ok () ∧ b'.run.1 = .ok () ∧
      b.run.2.Negates b'.run.2 ∧ c.run.1 = .error (.notNumber 0) ∧
      c'.run.1 = .error (.notNumber 0) := by
  intro P Q config
  obtain ⟨b', new, same⟩ := (directions_are_dual P config).1 _ rfl
  obtain ⟨c', newNaN, sameNaN⟩ := (directions_are_dual Q config).1 _ rfl
  have done : (Backward.start P config).run.1 = .ok () := eq_ok_of_toOption (by decide +kernel)
  have failed : (Backward.start Q config).run.1 = .error (.notNumber 0) := by decide +kernel
  refine ⟨_, b', _, c', rfl, new, rfl, newNaN, done, ?_, (same [.run]).1, failed, ?_⟩
  · exact ((same []).2.2 .run).symm.trans done
  · exact ((sameNaN []).2.2 .run).symm.trans failed

end Horizon
