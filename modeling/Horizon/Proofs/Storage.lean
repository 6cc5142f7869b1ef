import Horizon.Proofs.Alike
import Horizon.Proofs.ForwardRun
import Horizon.Proofs.Frontier
import Horizon.Proofs.History

/-! Where entries are stored cannot be told from what a recursion answers.

Two recursions whose configurations differ in the storage alone, or whose keys are hashed in
different ways, are alike when they are new. What they are asked to do agrees, so they stay alike
and answer every history of calls in the same way.
-/

set_option autoImplicit false

namespace Horizon

open LedgerM

variable {σ α ρ : Type} [DecidableEq σ] [DecidableEq α]

variable [Scalar ρ] {P : Problem σ α ρ} {config : Config ρ} {storage : StorageConfig}

namespace Backward

section Passes

variable {next next' : StateSpace σ} {spaces spaces' : List (StateSpace σ)}

theorem agree_evaluate (alike : next.Alike next') (s : σ) (a : α) :
    Agree Eq (evaluate P config next s a)
      (evaluate P { config with storage := storage } next' s a) := by
  unfold evaluate
  rw [alike.contains_eq]
  exact agree_expectedValue (fun f => agree_query fun _ _ alike => alike.value_eq f) _

theorem agree_solveState (alike : next.Alike next') (s : σ) :
    Agree Eq (solveState P config next s)
      (solveState P { config with storage := storage } next' s) := by
  refine (agree_evaluateAll _ fun a => agree_evaluate alike s a).bind fun candidates => ?_
  refine (agree_ofExcept _).bind fun d => (agree_decide s d).bind fun _ => ?_
  exact agree_onContext fun _ _ => congrArg Tally.addSolved

theorem agree_solveIdle (alike : next.Alike next') (s : σ) :
    Agree Eq (solveIdle P config next s)
      (solveIdle P { config with storage := storage } next' s) := by
  refine (agree_evaluate alike s (P.idle s)).bind fun x => (agree_decide s _).bind fun _ => ?_
  exact agree_onContext fun _ _ => congrArg Tally.addSolved

theorem agree_solveDown (alike : SpacesAlike spaces spaces') :
    Agree Eq (solveDown P config spaces)
      (solveDown P { config with storage := storage } spaces') := by
  induction alike with
  | nil => exact agree_pure ()
  | cons first rest ih =>
    cases rest with
    | nil => exact agree_pure ()
    | cons following _ =>
      rw [solveDown, solveDown, first.enumerated_eq]
      exact ih.bind fun _ => agree_forEach _ (agree_solveState following)

theorem agree_pass (alike : SpacesAlike spaces spaces') (approximate : Bool) :
    Agree Eq (pass P config approximate spaces)
      (pass P { config with storage := storage } approximate spaces') := by
  cases approximate with
  | false => exact agree_solveDown alike
  | true =>
    cases alike with
    | nil => exact agree_pure ()
    | cons first rest =>
      cases rest with
      | nil => exact agree_pure ()
      | cons following others =>
        rw [pass, pass, if_pos rfl, if_pos rfl, solveDownIdle, solveDownIdle, first.enumerated_eq]
        exact (agree_solveDown (.cons following others)).bind fun _ =>
          agree_forEach _ (agree_solveIdle following)

omit [Scalar ρ] in
theorem agree_seedTerminal (alike : SpacesAlike spaces spaces') :
    Agree Eq (seedTerminal P spaces) (seedTerminal P spaces') := by
  have last : Option.Rel StateSpace.Alike spaces.getLast? spaces'.getLast? := by
    rw [List.getLast?_eq_getElem?, List.getLast?_eq_getElem?, alike.length_eq]
    exact alike.getElem? _
  unfold seedTerminal
  generalize spaces.getLast? = final at last
  generalize spaces'.getLast? = final' at last
  cases last with
  | none => exact agree_pure ()
  | some same =>
    dsimp only
    rw [same.enumerated_eq]
    exact agree_forEach _ fun s => agree_decide s _

end Passes

/-- Two recursions for one problem that differ in where they store their entries. -/
structure Alike (b b' : Backward σ α ρ) : Prop where
  problem_eq : b.problem = b'.problem
  config_eq : ∃ storage, b'.config = { b.config with storage := storage }
  spaces : SpacesAlike b.spaces b'.spaces
  ledger : b.ledger.Alike b'.ledger
  tally_eq : b.tally = b'.tally
  phase_eq : b.phase = b'.phase

namespace Alike

variable {b b' : Backward σ α ρ}

omit [Scalar ρ] in
theorem start (h h' : Hashable σ) (k k' : Hashable α) (P : Problem σ α ρ) (config : Config ρ)
    (storage : StorageConfig) :
    (@Backward.start σ α ρ _ _ h k P config).Alike
      (@Backward.start σ α ρ _ _ h' k' P { config with storage := storage }) :=
  ⟨rfl, ⟨storage, rfl⟩, spacesAlike_emptySpaces h h' config storage,
    .empty h h' k k' _ _ config.discount, rfl, rfl⟩

theorem generateStates (alike : b.Alike b') : b.generateStates.Alike b'.generateStates := by
  obtain ⟨P, config, spaces, l, t, phase⟩ := b
  obtain ⟨P', config', spaces', l', t', phase'⟩ := b'
  obtain ⟨rfl, ⟨storage, rfl⟩, known, ledger, rfl, rfl⟩ := alike
  obtain ⟨count, listed⟩ := known.materializeAll (P := P)
  obtain ⟨added, covered⟩ := listed.coverAll (P := P)
  unfold Backward.generateStates
  dsimp only
  by_cases fresh : phase = .uninitialized
  · rw [if_pos fresh, if_pos fresh, count]
    by_cases exhaustive : config.stateSampling.isExhaustive = true
    · simp only [exhaustive, if_true]
      exact ⟨rfl, ⟨storage, rfl⟩, listed, ledger, rfl, rfl⟩
    · simp only [exhaustive, Bool.false_eq_true, if_false, added]
      exact ⟨rfl, ⟨storage, rfl⟩, covered, ledger, rfl, rfl⟩
  · rw [if_neg fresh, if_neg fresh]
    exact ⟨rfl, ⟨storage, rfl⟩, known, ledger, rfl, rfl⟩

omit [Scalar ρ] in
theorem perform (alike : b.Alike b') {act act' : LedgerM σ α ρ Tally Unit}
    (agree : Agree Eq act act') :
    (b.perform act).1 = (b'.perform act').1 ∧ (b.perform act).2.Alike (b'.perform act').2 := by
  obtain ⟨P, config, spaces, l, t, phase⟩ := b
  obtain ⟨P', config', spaces', l', t', phase'⟩ := b'
  obtain ⟨rfl, differ, known, ledger, rfl, rfl⟩ := alike
  obtain ⟨same, entered, counted⟩ := agree (l, t) (l', t) ⟨ledger, rfl⟩
  exact ⟨same, rfl, differ, known, entered, counted, rfl⟩

theorem prepare (alike : b.Alike b') :
    b.prepare.1 = b'.prepare.1 ∧ b.prepare.2.Alike b'.prepare.2 := by
  have generated := alike.generateStates
  unfold Backward.prepare
  rw [alike.phase_eq]
  split
  · dsimp only
    rw [generated.problem_eq]
    exact generated.perform (agree_seedTerminal generated.spaces)
  · exact ⟨rfl, alike⟩

omit [Scalar ρ] in
theorem withPhase (alike : b.Alike b') (phase : Phase) :
    Backward.Alike { b with phase := phase } { b' with phase := phase } :=
  ⟨alike.problem_eq, alike.config_eq, alike.spaces, alike.ledger, alike.tally_eq, rfl⟩

theorem runUntil (alike : b.Alike b') (target : Nat) (approximate : Bool) :
    (b.runUntil target approximate).1 = (b'.runUntil target approximate).1 ∧
      (b.runUntil target approximate).2.Alike (b'.runUntil target approximate).2 := by
  obtain ⟨prepared, readied⟩ := alike.prepare
  unfold Backward.runUntil
  rw [alike.phase_eq]
  split
  · exact ⟨rfl, alike⟩
  · rcases first : b.prepare with ⟨result, c⟩
    rcases first' : b'.prepare with ⟨result', c'⟩
    rw [first, first'] at prepared readied
    change result = result' at prepared
    change c.Alike c' at readied
    subst prepared
    cases result with
    | error e => exact ⟨rfl, readied⟩
    | ok _ =>
      obtain ⟨storage, config⟩ := readied.config_eq
      have agree : Agree Eq (pass c.problem c.config approximate (c.spaces.drop target))
          (pass c.problem c'.config approximate (c'.spaces.drop target)) := by
        rw [config]
        exact agree_pass (List.forall₂_drop target readied.spaces) approximate
      obtain ⟨solved, last⟩ := readied.perform agree
      unfold pass at solved last
      dsimp only
      rw [← readied.problem_eq]
      generalize c.perform _ = ran at solved last ⊢
      generalize c'.perform _ = ran' at solved last ⊢
      obtain ⟨outcome, d⟩ := ran
      obtain ⟨outcome', d'⟩ := ran'
      change outcome = outcome' at solved
      subst solved
      cases outcome with
      | error e => exact ⟨rfl, last⟩
      | ok _ => exact ⟨rfl, last.withPhase _⟩

theorem answer (alike : b.Alike b') (c : Call) :
    (b.answer c).1 = (b'.answer c).1 ∧ (b.answer c).2.Alike (b'.answer c).2 := by
  cases c with
  | generateStates => exact ⟨rfl, alike.generateStates⟩
  | run => exact alike.runUntil 0 false
  | runToPeriod target =>
    have horizon : b.config.horizon = b'.config.horizon := by
      obtain ⟨storage, config⟩ := alike.config_eq
      rw [config]
    unfold Backward.answer Backward.runToPeriod
    dsimp only
    rw [horizon]
    split
    · exact ⟨rfl, alike⟩
    · exact alike.runUntil target true

theorem after (alike : b.Alike b') (calls : List Call) :
    (b.after calls).Alike (b'.after calls) := by
  induction calls generalizing b b' with
  | nil => exact alike
  | cons c rest ih => exact ih (alike.answer c).2

end Alike

end Backward

structure Frontier.Alike (f f' : Frontier σ) : Prop where
  spaces : ∀ t : Nat, Option.Rel StateSpace.Alike f.spaces[t]? f'.spaces[t]?
  tally_eq : f.tally = f'.tally

theorem Frontier.Alike.count {f f' : Frontier σ} (alike : f.Alike f') (step : Tally → Tally) :
    (f.count step).Alike (f'.count step) :=
  ⟨alike.spaces, congrArg step alike.tally_eq⟩

theorem Frontier.Alike.enter {f f' : Frontier σ} (alike : f.Alike f') (t : Nat) (s : σ) :
    (f.enter t s).Alike (f'.enter t s) := by
  constructor
  · intro u
    rw [getElem?_enter, getElem?_enter]
    have here := alike.spaces u
    split
    · generalize f.spaces[u]? = space at here
      generalize f'.spaces[u]? = space' at here
      cases here with
      | none => exact .none
      | some same => exact .some (same.mention s)
    · exact here
  · rw [tally_enter, tally_enter, alike.tally_eq]
    have here := alike.spaces t
    generalize f.spaces[t]? = space at here
    generalize f'.spaces[t]? = space' at here
    cases here with
    | none => rfl
    | some same =>
      dsimp only
      rw [same.contains_eq]

namespace Forward

section Context

variable {S : Frontier σ → Frontier σ → Prop}
  (entered : ∀ t s f f', S f f' → S (f.enter t s) (f'.enter t s))
  (counted : ∀ step f f', S f f' → S (f.count step) (f'.count step))

include counted in
omit [Scalar ρ] in
theorem agree_decidedOr {s : σ} {solve solve' : LedgerM σ α ρ (Frontier σ) ρ}
    (agree : Agree S solve solve') : Agree S (decidedOr s solve) (decidedOr s solve') := by
  refine (agree_query fun _ _ alike => congrArg Except.ok (alike.decision?_eq s)).bind ?_
  intro held
  cases held with
  | none => exact agree
  | some d => exact (agree_onContext (counted _)).bind fun _ => agree_pure d.value

omit [Scalar ρ] in
theorem agree_publish (s : σ) (d : Decision α ρ) :
    Agree (ω := Frontier σ) S (onLedger fun l : Ledger σ α ρ => l.publish s d)
      (onLedger fun l => l.publish s d) :=
  agree_onLedger fun _ _ alike => alike.publish s d

include entered counted in
-- By induction on the periods left, as the values are asked for. Of the known states it matters
-- only that they are entered and counted alike.
theorem agree_valueOf (left : Nat) (s : σ) :
    Agree S (valueOf P config left s) (valueOf P { config with storage := storage } left s) := by
  induction left generalizing s with
  | zero =>
    refine agree_decidedOr counted ?_
    refine (agree_onContext (entered _ s)).bind fun _ => ?_
    exact (agree_publish s _).bind fun _ => agree_pure _
  | succ left ih =>
    refine agree_decidedOr counted ?_
    refine (agree_onContext (entered _ s)).bind fun _ => ?_
    refine (agree_evaluateAll _ fun a => agree_expectedValue ih _).bind fun candidates => ?_
    refine (agree_ofExcept _).bind fun d => (agree_publish s d).bind fun ⟨entered, isNew⟩ => ?_
    cases isNew with
    | true => exact (agree_onContext (counted _)).bind fun _ => agree_pure _
    | false => exact agree_pure _

end Context

structure Alike (r r' : Forward σ α ρ) : Prop where
  problem_eq : r.problem = r'.problem
  config_eq : ∃ storage, r'.config = { r.config with storage := storage }
  frontier : r.frontier.Alike r'.frontier
  ledger : r.ledger.Alike r'.ledger

namespace Alike

variable {r r' : Forward σ α ρ}

omit [Scalar ρ] in
theorem start (h h' : Hashable σ) (k k' : Hashable α) (P : Problem σ α ρ) (config : Config ρ)
    (storage : StorageConfig) :
    (@Forward.start σ α ρ _ _ h k P config).Alike
      (@Forward.start σ α ρ _ _ h' k' P { config with storage := storage }) := by
  refine ⟨rfl, ⟨storage, rfl⟩, ⟨fun t => ?_, rfl⟩, .empty h h' k k' _ _ config.discount⟩
  unfold Forward.start
  rw [List.getElem?_toArray, List.getElem?_toArray]
  exact (spacesAlike_emptySpaces h h' config storage).getElem? t

theorem run (alike : r.Alike r') (s : σ) :
    (r.run s).1 = (r'.run s).1 ∧ (r.run s).2.Alike (r'.run s).2 := by
  obtain ⟨P, config, f, l⟩ := r
  obtain ⟨P', config', f', l'⟩ := r'
  obtain ⟨rfl, ⟨storage, rfl⟩, frontier, ledger⟩ := alike
  unfold Forward.run
  dsimp only
  split
  · exact ⟨rfl, rfl, ⟨storage, rfl⟩, frontier, ledger⟩
  · obtain ⟨same, entered, known⟩ :=
      agree_valueOf (fun t s _ _ alike => alike.enter t s) (fun step _ _ alike => alike.count step)
        (config.horizon - P.period s) s (l, f) (l', f') ⟨ledger, frontier⟩
    exact ⟨same, rfl, ⟨storage, rfl⟩, known, entered⟩

theorem runAll (alike : r.Alike r') (initials : List σ) :
    (r.runAll initials).1 = (r'.runAll initials).1 ∧
      (r.runAll initials).2.Alike (r'.runAll initials).2 := by
  induction initials generalizing r r' with
  | nil => exact ⟨rfl, alike⟩
  | cons s rest ih =>
    obtain ⟨result, next⟩ := alike.run s
    obtain ⟨results, last⟩ := ih next
    exact ⟨congrArg₂ List.cons result results, last⟩

end Alike

end Forward

structure StateSpace.SameStates (space space' : StateSpace σ) : Prop where
  period_eq : space.period = space'.period
  enumerated_eq : space.enumerated = space'.enumerated
  contains_eq : ∀ s, space.contains s = space'.contains s
  size_eq : space.size = space'.size
  states_eq : (space.states : Multiset σ) = (space'.states : Multiset σ)

omit [DecidableEq α] [Scalar ρ] in
theorem StateSpace.Alike.sameStates {space space' : StateSpace σ} (alike : space.Alike space') :
    space.SameStates space' :=
  ⟨alike.period_eq, alike.enumerated_eq, congrFun alike.contains_eq, alike.size_eq,
    alike.states_eq⟩

omit [DecidableEq α] [Scalar ρ] in
theorem sameStates_of_alike {space space' : Option (StateSpace σ)}
    (alike : Option.Rel StateSpace.Alike space space') :
    Option.Rel StateSpace.SameStates space space' := by
  cases alike with
  | none => exact .none
  | some same => exact .some same.sameStates

/-- Two ledgers that answer every question in the same way, for the same work. -/
structure Ledger.SameEntries (l l' : Ledger σ α ρ) : Prop where
  value_eq : ∀ s, l.value s = l'.value s
  action_eq : ∀ s, l.action s = l'.action s
  expected_eq : ∀ s a, l.expected? s a = l'.expected? s a
  solvedCount_eq : l.solvedCount = l'.solvedCount
  transitions_eq : l.transitions = l'.transitions

omit [Scalar ρ] in
theorem Ledger.Alike.sameEntries {l l' : Ledger σ α ρ} (alike : l.Alike l') : l.SameEntries l' :=
  ⟨alike.value_eq, alike.action_eq, alike.expected?_eq, alike.solvedCount_eq,
    alike.transitions_eq⟩

structure Backward.SameTables (b b' : Backward σ α ρ) : Prop where
  phase_eq : b.phase = b'.phase
  statistics_eq : b.statistics = b'.statistics
  table_eq : ∀ t, b.valueFunction t = b'.valueFunction t
  spaces : ∀ t : Nat, Option.Rel StateSpace.SameStates b.spaces[t]? b'.spaces[t]?
  ledger : b.ledger.SameEntries b'.ledger

omit [Scalar ρ] in
theorem Backward.Alike.table_eq {b b' : Backward σ α ρ} (alike : b.Alike b') (t : Nat) :
    b.valueFunction t = b'.valueFunction t := by
  obtain ⟨storage, config⟩ := alike.config_eq
  have here := alike.spaces.getElem? t
  unfold valueFunction
  rw [config]
  generalize b.spaces[t]? = space at here
  generalize b'.spaces[t]? = space' at here
  cases here with
  | none => rfl
  | some same =>
    have rows : entry b.ledger = entry b'.ledger := by
      funext s
      rw [entry, entry, alike.ledger.decision?_eq]
    dsimp only
    rw [same.enumerated_eq, rows]

omit [Scalar ρ] in
theorem Backward.Alike.sameTables {b b' : Backward σ α ρ} (alike : b.Alike b') :
    b.SameTables b' where
  phase_eq := alike.phase_eq
  statistics_eq := by
    rw [statistics, statistics, alike.tally_eq, alike.ledger.evaluations_eq]
  table_eq := alike.table_eq
  spaces t := sameStates_of_alike (alike.spaces.getElem? t)
  ledger := alike.ledger.sameEntries

structure Forward.SameTables (r r' : Forward σ α ρ) : Prop where
  statistics_eq : r.statistics = r'.statistics
  spaces : ∀ t : Nat,
    Option.Rel StateSpace.SameStates r.frontier.spaces[t]? r'.frontier.spaces[t]?
  ledger : r.ledger.SameEntries r'.ledger

omit [Scalar ρ] in
theorem Forward.Alike.sameTables {r r' : Forward σ α ρ} (alike : r.Alike r') :
    r.SameTables r' where
  statistics_eq := by
    rw [statistics, statistics, alike.frontier.tally_eq, alike.ledger.evaluations_eq]
  spaces t := sameStates_of_alike (alike.frontier.spaces t)
  ledger := alike.ledger.sameEntries

theorem Config.validate_withStorage {config : Config ρ} (valid : config.validate = .ok ())
    {storage : StorageConfig} (usable : storage.kind.isValid = true) :
    Config.validate { config with storage := storage } = .ok () := by
  obtain ⟨horizon, discount, monitor, states, outcomes, -⟩ := validate_eq_ok_iff.1 valid
  exact validate_eq_ok_iff.2 ⟨horizon, discount, monitor, states, outcomes, usable⟩

open Store (Request)

end Horizon
