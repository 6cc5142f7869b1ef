import Horizon.Proofs.History
import Horizon.Proofs.Moves

/-! The counts match what is stored.

A recursion counts states when they become known, states below the horizon when they are decided,
and expected values when they are entered. None of these counts is corrected later, so each of them
is shown to follow the entries it counts through every single move (`Tallied.move`), and so through
every history of calls, whether they fail or not.
-/

set_option autoImplicit false

namespace Horizon

variable {σ α ρ : Type} [DecidableEq σ] [DecidableEq α]

def Problem.isBelow (P : Problem σ α ρ) (horizon : Nat) (s : σ) : Bool :=
  decide (P.period s < horizon)

namespace Ledger

def solvedBelow (l : Ledger σ α ρ) (P : Problem σ α ρ) (horizon : Nat) : Nat :=
  l.decided.keys.countP (P.isBelow horizon)

variable {l : Ledger σ α ρ} {P : Problem σ α ρ} {horizon : Nat}

theorem encard_solvedBelow :
    {s | P.period s < horizon ∧ l.isSolved s = true}.encard = l.solvedBelow P horizon := by
  rw [solvedBelow, ← Store.encard_keys_of_kind]
  simp only [Problem.isBelow, decide_eq_true_eq]
  rfl

theorem encard_solved : {s | l.isSolved s = true}.encard = l.solvedCount :=
  l.decided.encard_keys

theorem encard_expected :
    {pair : σ × α | (l.expected? pair.1 pair.2).isSome = true}.encard = l.expected.size :=
  l.expected.encard_keys

theorem solvedBelow_empty [Hashable σ] [Hashable α] (storage : StorageConfig) (discount : ρ) :
    (empty storage discount : Ledger σ α ρ).solvedBelow P horizon = 0 := by
  rw [solvedBelow, empty, Store.keys_ofConfig, List.countP_nil]

theorem solvedBelow_enterExpected (s : σ) (a : α) (x : ρ) :
    (l.enterExpected s a x).2.solvedBelow P horizon = l.solvedBelow P horizon := by
  unfold enterExpected
  split <;> rfl

theorem solvedBelow_publish {s : σ} (vacant : l.decision? s = none) (d : Decision α ρ) :
    (l.publish s d).2.solvedBelow P horizon =
      l.solvedBelow P horizon + if P.period s < horizon then 1 else 0 := by
  have absent : l.decided.contains s = false := congrArg Option.isSome vacant
  have grown := (Store.perm_keys_insertNew absent d).countP_eq (P.isBelow horizon)
  rw [List.countP_cons] at grown
  rw [publish, vacant]
  simp only [Problem.isBelow, decide_eq_true_eq] at grown
  exact grown

def Counted (l : Ledger σ α ρ) : Prop :=
  l.evaluations = l.expected.size

theorem Counted.enterExpected (counted : l.Counted) (s : σ) (a : α) (x : ρ) :
    (l.enterExpected s a x).2.Counted := by
  cases entered : l.expected? s a with
  | some y =>
    rw [Ledger.enterExpected, entered]
    exact counted
  | none =>
    have absent : l.expected.contains (s, a) = false := congrArg Option.isSome entered
    have grown := l.expected.size_insertNew (s, a) x
    rw [absent] at grown
    rw [Counted, evaluations_enterExpected entered, counted, Ledger.enterExpected, entered]
    exact grown.symm

theorem Counted.publish (counted : l.Counted) (s : σ) (d : Decision α ρ) :
    (l.publish s d).2.Counted := by
  unfold Ledger.publish
  split <;> exact counted

end Ledger

namespace Forward

variable {P : Problem σ α ρ} {config : Config ρ} {Initial : σ → Prop}

structure Tallied (P : Problem σ α ρ) (config : Config ρ) (w : Ledger σ α ρ × Frontier σ) :
    Prop where
  wide : w.2.spaces.size = config.horizon + 1
  generated : w.2.tally.generated = w.2.size
  solved : w.2.tally.solved = w.1.solvedBelow P config.horizon
  evaluations : w.1.Counted

theorem tallied_start [Hashable σ] [Hashable α] :
    Tallied P config ((start P config).ledger, (start P config).frontier) where
  wide := (fitted_start (P := P)).wide
  generated := by
    refine (List.sum_eq_zero fun size listed => ?_).symm
    rw [start, emptySpaces, List.map_map] at listed
    obtain ⟨t, -, rfl⟩ := List.mem_map.1 listed
    exact Store.size_ofConfig _ _
  solved := (Ledger.solvedBelow_empty _ _).symm
  evaluations := (Store.size_ofConfig _ _).symm

theorem Tallied.enter {l : Ledger σ α ρ} {f : Frontier σ} {t : Nat}
    (tallied : Tallied P config (l, f)) (inside : t ≤ config.horizon) (s : σ) :
    Tallied P config (l, f.enter t s) := by
  have wide : f.spaces.size = config.horizon + 1 := tallied.wide
  have generated : f.tally.generated = f.size := tallied.generated
  have placed : t < f.spaces.size := by omega
  refine ⟨(f.size_spaces_enter t s).trans wide, ?_, (f.solved_enter t s).trans tallied.solved,
    tallied.evaluations⟩
  rw [Frontier.generated_enter placed, Frontier.size_enter placed, generated]

theorem Tallied.move {w w' : Ledger σ α ρ × Frontier σ} (tallied : Tallied P config w)
    (move : Move P config Initial w w') : Tallied P config w' := by
  cases move with
  | enter _ inside _ => exact tallied.enter inside _
  | reuse _ | collect _ _ _ =>
    exact ⟨tallied.wide, tallied.generated, tallied.solved, tallied.evaluations⟩
  | @evaluate l f s a x _ _ _ _ =>
    refine ⟨tallied.wide, tallied.generated, ?_, tallied.evaluations.enterExpected s a x⟩
    exact tallied.solved.trans (Ledger.solvedBelow_enterExpected s a x).symm
  | @decide l f s x a below _ undecided _ =>
    refine ⟨tallied.wide, tallied.generated, ?_, tallied.evaluations.publish s _⟩
    rw [Ledger.solvedBelow_publish undecided, if_pos below, ← tallied.solved]
    rfl
  | @finish l f s x last _ undecided =>
    refine ⟨tallied.wide, tallied.generated, ?_, tallied.evaluations.publish s _⟩
    rw [Ledger.solvedBelow_publish undecided, if_neg (Nat.not_lt.2 (Nat.le_of_eq last.symm))]
    exact tallied.solved

theorem Tallied.moves {w w' : Ledger σ α ρ × Frontier σ} (tallied : Tallied P config w)
    (moves : Moves P config Initial w w') : Tallied P config w' := by
  induction moves with
  | refl => exact tallied
  | tail _ move ih => exact ih.move move

end Forward

namespace Backward

open LedgerM Relation

variable {P : Problem σ α ρ} {config : Config ρ} {spaces : List (StateSpace σ)}

inductive Move (P : Problem σ α ρ) (config : Config ρ) (spaces : List (StateSpace σ)) :
    Ledger σ α ρ × Tally → Ledger σ α ρ × Tally → Prop where
  | collect {l : Ledger σ α ρ} {t : Tally} (s : σ) (a : α) (f : σ) :
    Move P config spaces (l, t) (l.collect s a f, t)
  | evaluate {l : Ledger σ α ρ} {t : Tally} (s : σ) (a : α) (x : ρ) :
    Move P config spaces (l, t) ((l.enterExpected s a x).2, t)
  | decide {l : Ledger σ α ρ} {t : Tally} {s : σ} (d : Decision α ρ)
    (below : P.period s < config.horizon) (undecided : l.decision? s = none) :
    Move P config spaces (l, t) ((l.publish s d).2, t.addSolved)
  | seed {l : Ledger σ α ρ} {t : Tally} {s : σ} (d : Decision α ρ)
    (listed : s ∈ statesOf spaces config.horizon) (last : P.period s = config.horizon)
    (undecided : l.decision? s = none) :
    Move P config spaces (l, t) ((l.publish s d).2, t)

abbrev Moves (P : Problem σ α ρ) (config : Config ρ) (spaces : List (StateSpace σ)) :
    Ledger σ α ρ × Tally → Ledger σ α ρ × Tally → Prop :=
  ReflTransGen (Move P config spaces)

def enumeratedCount (spaces : List (StateSpace σ)) : Nat :=
  (spaces.map fun space => space.enumerated.length).sum

structure Tallied (P : Problem σ α ρ) (config : Config ρ) (spaces : List (StateSpace σ))
    (w : Ledger σ α ρ × Tally) : Prop where
  generated : w.2.generated = enumeratedCount spaces
  solved : w.2.solved = w.1.solvedBelow P config.horizon
  reused : w.2.reused = 0
  evaluations : w.1.Counted
  late : ∀ s, w.1.isSolved s = true → config.horizon ≤ P.period s →
    s ∈ statesOf spaces config.horizon

theorem Tallied.move {w w' : Ledger σ α ρ × Tally} (tallied : Tallied P config spaces w)
    (move : Move P config spaces w w') : Tallied P config spaces w' := by
  cases move with
  | collect _ _ _ =>
    exact ⟨tallied.generated, tallied.solved, tallied.reused, tallied.evaluations, tallied.late⟩
  | @evaluate l t s a x =>
    refine ⟨tallied.generated, ?_, tallied.reused, tallied.evaluations.enterExpected s a x,
      fun s' solved late => ?_⟩
    · exact tallied.solved.trans (Ledger.solvedBelow_enterExpected s a x).symm
    · rw [Ledger.isSolved, Ledger.decision?_enterExpected] at solved
      exact tallied.late s' solved late
  | @decide l t s d below undecided =>
    refine ⟨tallied.generated, ?_, tallied.reused, tallied.evaluations.publish s d,
      fun s' solved late => ?_⟩
    · rw [Ledger.solvedBelow_publish undecided, if_pos below, ← tallied.solved]
      rfl
    · rcases Ledger.isSolved_or_of_publish solved with old | rfl
      · exact tallied.late s' old late
      · omega
  | @seed l t s d listed last undecided =>
    refine ⟨tallied.generated, ?_, tallied.reused, tallied.evaluations.publish s d,
      fun s' solved late => ?_⟩
    · rw [Ledger.solvedBelow_publish undecided, if_neg (Nat.not_lt.2 (Nat.le_of_eq last.symm))]
      exact tallied.solved
    · rcases Ledger.isSolved_or_of_publish solved with old | rfl
      · exact tallied.late s' old late
      · exact listed

theorem Tallied.moves {w w' : Ledger σ α ρ × Tally} (tallied : Tallied P config spaces w)
    (moves : Moves P config spaces w w') : Tallied P config spaces w' := by
  induction moves with
  | refl => exact tallied
  | tail _ move ih => exact ih.move move

section Passes

/-- A computation that comes to moves, whether or not it fails. -/
def IsMoves {β : Type} (P : Problem σ α ρ) (config : Config ρ) (spaces : List (StateSpace σ))
    (m : LedgerM σ α ρ Tally β) : Prop :=
  Fulfils (Moves P config spaces) (fun _ => True) m fun _ _ => True

theorem isMoves_seed {s : σ} (d : Decision α ρ) (listed : s ∈ statesOf spaces config.horizon)
    (last : P.period s = config.horizon) : IsMoves P config spaces (LedgerM.decide s d) := by
  rintro ⟨l, t⟩ -
  cases stored : l.decision? s with
  | none =>
    rw [decide_of_vacant d stored]
    exact ⟨.single (.seed d listed last stored), fun _ _ => trivial⟩
  | some d' =>
    rw [decide_of_stored d stored]
    exact ⟨.refl, fun _ _ => trivial⟩

-- A state that has a decision is not counted a second time: deciding it again fails.
theorem isMoves_decide {s : σ} (d : Decision α ρ) (below : P.period s < config.horizon) :
    IsMoves P config spaces (do
      LedgerM.decide s d
      onContext Tally.addSolved) := by
  rintro ⟨l, t⟩ -
  cases stored : l.decision? s with
  | none =>
    rw [bind_of_ok (decide_of_vacant d stored)]
    exact ⟨.single (.decide d below stored), fun _ _ => trivial⟩
  | some d' =>
    rw [bind_of_error (decide_of_stored d stored)]
    exact ⟨.refl, fun _ _ => trivial⟩

theorem isMoves_forEach {step : σ → LedgerM σ α ρ Tally Unit} {xs : List σ}
    (each : ∀ s ∈ xs, IsMoves P config spaces (step s)) :
    IsMoves P config spaces (forEach step xs) :=
  fulfils_forEach_of_invariant each

variable [Scalar ρ] {next : StateSpace σ} {s : σ}

theorem isMoves_evaluate (next : StateSpace σ) (s : σ) (a : α) :
    IsMoves P config spaces (evaluate P config next s a) := by
  refine fulfils_expectedValue (I := fun _ _ => True) ?_ ?_ ?_ ?_
  · exact fun _ _ _ => trivial
  · exact fun _ _ _ => trivial
  · exact fun _ f _ => (fulfils_query _).imp (fun _ => id) fun _ w _ =>
      ⟨.single (.collect s a f), trivial⟩
  · exact fun l t x _ => ⟨.single (.evaluate s a x), trivial⟩

theorem isMoves_solveState (next : StateSpace σ) (below : P.period s < config.horizon) :
    IsMoves P config spaces (solveState P config next s) := by
  have evaluated : IsMoves P config spaces
      (LedgerM.evaluateAll (evaluate P config next s) (P.actions s)) :=
    fulfils_evaluateAll_of_invariant fun a _ => isMoves_evaluate next s a
  refine evaluated.bind fun candidates => ?_
  refine ((fulfils_ofExcept _).imp (fun _ => id) fun _ _ _ => trivial).bind fun d => ?_
  exact isMoves_decide d below

theorem isMoves_solveIdle (next : StateSpace σ) (below : P.period s < config.horizon) :
    IsMoves P config spaces (solveIdle P config next s) :=
  (isMoves_evaluate next s (P.idle s)).bind fun _ => isMoves_decide _ below

-- Periods before the last one of the list lie below the horizon.
theorem isMoves_solveDown {t : Nat} {suffix : List (StateSpace σ)} (laid : Laid P t suffix)
    (length : t + suffix.length ≤ config.horizon + 1) :
    IsMoves P config spaces (solveDown P config suffix) := by
  induction suffix generalizing t with
  | nil => exact fulfils_pure fun _ _ => trivial
  | cons current rest ih =>
    cases rest with
    | nil => exact fulfils_pure fun _ _ => trivial
    | cons next others =>
      rw [List.length_cons] at length
      refine (ih laid.2 (by omega)).bind fun _ => isMoves_forEach fun s listed => ?_
      have period := laid.1.inPeriod s listed
      rw [List.length_cons] at length
      exact isMoves_solveState next (by omega)

theorem isMoves_pass {t : Nat} {suffix : List (StateSpace σ)} (laid : Laid P t suffix)
    (length : t + suffix.length ≤ config.horizon + 1) (approximate : Bool) :
    IsMoves P config spaces (pass P config approximate suffix) := by
  cases approximate with
  | false => exact isMoves_solveDown laid length
  | true =>
    match suffix, laid, length with
    | [], _, _ => exact fulfils_pure fun _ _ => trivial
    | [_], _, _ => exact fulfils_pure fun _ _ => trivial
    | current :: next :: rest, laid, length =>
      simp only [List.length_cons] at length
      rw [pass, if_pos rfl, solveDownIdle]
      have later : t + 1 + (next :: rest).length ≤ config.horizon + 1 := by
        rw [List.length_cons]
        omega
      refine (isMoves_solveDown laid.2 later).bind fun _ => isMoves_forEach fun s listed => ?_
      have period := laid.1.inPeriod s listed
      exact isMoves_solveIdle next (by omega)

omit [Scalar ρ] in
theorem isMoves_seedTerminal (complete : Complete P config spaces) :
    IsMoves P config spaces (seedTerminal P spaces) := by
  obtain ⟨last, isLast, orderly, states⟩ := complete.exists_last
  unfold seedTerminal
  rw [isLast]
  refine isMoves_forEach fun s listed => isMoves_seed _ ?_ (orderly.inPeriod s listed)
  rwa [states]

end Passes

section Generation

omit [DecidableEq α] in
theorem fst_extend_add (space : StateSpace σ) (xs : List σ) :
    (space.extend xs).1 + space.enumerated.length = (space.extend xs).2.enumerated.length := by
  rw [StateSpace.enumerated_extend, List.length_append, Nat.add_comm, StateSpace.fst_extend]

omit [DecidableEq α] in
theorem fst_materializeAll_add (P : Problem σ α ρ) (spaces : List (StateSpace σ)) :
    (materializeAll P spaces).1 + enumeratedCount spaces =
      enumeratedCount (materializeAll P spaces).2 := by
  induction spaces with
  | nil => rfl
  | cons space rest ih =>
    have first : (space.materialize P).1 + space.enumerated.length =
        (space.materialize P).2.enumerated.length := fst_extend_add space _
    simp only [materializeAll, enumeratedCount, List.map_cons, List.sum_cons] at ih ⊢
    omega

variable [Scalar ρ]

omit [DecidableEq α] in
theorem fst_coverAfter_add (P : Problem σ α ρ) (current : StateSpace σ)
    (spaces : List (StateSpace σ)) :
    (coverAfter P current spaces).1 + enumeratedCount spaces =
      enumeratedCount (coverAfter P current spaces).2 := by
  induction spaces generalizing current with
  | nil => rfl
  | cons next rest ih =>
    have first := fst_extend_add next (uncovered P current next)
    have later := ih (next.extend (uncovered P current next)).2
    simp only [coverAfter, enumeratedCount, List.map_cons, List.sum_cons] at later ⊢
    omega

omit [DecidableEq α] in
theorem fst_coverAll_add (P : Problem σ α ρ) (spaces : List (StateSpace σ)) :
    (coverAll P spaces).1 + enumeratedCount spaces = enumeratedCount (coverAll P spaces).2 := by
  cases spaces with
  | nil => rfl
  | cons first rest =>
    have later := fst_coverAfter_add P first rest
    simp only [coverAll, enumeratedCount, List.map_cons, List.sum_cons] at later ⊢
    omega

variable [Hashable σ] [Hashable α]

omit [DecidableEq α] [Hashable α] [Scalar ρ] in
theorem enumeratedCount_emptySpaces (config : Config ρ) :
    enumeratedCount (emptySpaces config : List (StateSpace σ)) = 0 := by
  refine List.sum_eq_zero fun size listed => ?_
  rw [emptySpaces, List.map_map] at listed
  obtain ⟨t, -, rfl⟩ := List.mem_map.1 listed
  rfl

-- What is counted when the states are generated is what is enumerated then.
theorem generateStates_start_eq (P : Problem σ α ρ) (config : Config ρ) :
    (start P config).generateStates = ⟨P, config, generatedSpaces P config,
      .empty config.storage config.discount,
      Tally.zero.addGenerated (enumeratedCount (generatedSpaces P config)), .generated⟩ := by
  have first := fst_materializeAll_add P (emptySpaces config)
  have second := fst_coverAll_add P (materializeAll P (emptySpaces config)).2
  rw [enumeratedCount_emptySpaces, Nat.add_zero] at first
  rw [start, generateStates, generatedSpaces, if_pos rfl]
  by_cases exhaustive : config.stateSampling.isExhaustive = true
  · simp only [exhaustive, if_true, first, Nat.add_zero]
  · simp only [exhaustive, Bool.false_eq_true, if_false, first, ← second, Nat.add_comm]

/-- What is true of a recursion and its counts at all times. -/
structure Audited (P : Problem σ α ρ) (config : Config ρ) (b : Backward σ α ρ) : Prop where
  problem_eq : b.problem = P
  config_eq : b.config = config
  untouched : b.phase = .uninitialized → b = start P config
  begun : b.phase ≠ .uninitialized → b.spaces = generatedSpaces P config
  tallied : Tallied P config b.spaces (b.ledger, b.tally)

variable {b : Backward σ α ρ}

omit [Scalar ρ] in
theorem tallied_empty {count : Nat} (counted : count = enumeratedCount spaces) :
    Tallied P config spaces
      (Ledger.empty config.storage config.discount, Tally.zero.addGenerated count) where
  generated := by
    rw [counted]
    exact Nat.zero_add _
  solved := (Ledger.solvedBelow_empty _ _).symm
  reused := rfl
  evaluations := (Store.size_ofConfig _ _).symm
  late s solved _ := by
    rw [Ledger.isSolved, Ledger.decision?_empty] at solved
    cases solved

theorem audited_start : Audited P config (start P config) :=
  ⟨rfl, rfl, fun _ => rfl, fun begun => absurd rfl begun,
    tallied_empty (enumeratedCount_emptySpaces config).symm⟩

theorem Audited.generateStates (audited : Audited P config b) :
    Audited P config b.generateStates ∧ b.generateStates.phase ≠ .uninitialized := by
  by_cases fresh : b.phase = .uninitialized
  · rw [audited.untouched fresh, generateStates_start_eq]
    exact ⟨⟨rfl, rfl, nofun, fun _ => rfl, tallied_empty rfl⟩, nofun⟩
  · have same : b.generateStates = b := by rw [Backward.generateStates, if_neg fresh]
    rw [same]
    exact ⟨audited, fresh⟩

theorem Audited.perform (audited : Audited P config b) (begun : b.phase ≠ .uninitialized)
    {act : LedgerM σ α ρ Tally Unit} (isMoves : IsMoves P config (generatedSpaces P config) act) :
    Audited P config (b.perform act).2 ∧ (b.perform act).2.phase ≠ .uninitialized := by
  have spaces := audited.begun begun
  have tallied := audited.tallied
  rw [spaces] at tallied
  obtain ⟨problem, configuration, known, l, t, phase⟩ := b
  obtain ⟨moves, -⟩ := isMoves (l, t) trivial
  refine ⟨⟨audited.problem_eq, audited.config_eq, fun early => absurd early begun, fun _ => spaces,
    ?_⟩, begun⟩
  have after := tallied.moves moves
  change known = generatedSpaces P config at spaces
  change Tallied P config known _
  rw [spaces]
  exact after

theorem Audited.withPhase (audited : Audited P config b) (begun : b.phase ≠ .uninitialized)
    {phase : Phase} (later : phase ≠ .uninitialized) : Audited P config { b with phase := phase } :=
  ⟨audited.problem_eq, audited.config_eq, fun early => absurd early later,
    fun _ => audited.begun begun, audited.tallied⟩

variable (lawful : P.Lawful)

include lawful

theorem Audited.prepare (audited : Audited P config b) :
    Audited P config b.prepare.2 ∧ b.prepare.2.phase ≠ .uninitialized := by
  unfold Backward.prepare
  split
  · obtain ⟨generated, begun⟩ := audited.generateStates
    dsimp only
    rw [generated.problem_eq, generated.begun begun]
    exact generated.perform begun (isMoves_seedTerminal (complete_generatedSpaces lawful config))
  · next begun => exact ⟨audited, begun⟩

theorem Audited.runUntil (audited : Audited P config b) {target : Nat}
    (inside : target ≤ config.horizon) (approximate : Bool) :
    Audited P config (b.runUntil target approximate).2 := by
  obtain ⟨readied, begun⟩ := audited.prepare lawful
  unfold Backward.runUntil
  split
  · exact audited
  · rcases prepared : b.prepare with ⟨result, c⟩
    rw [prepared] at readied begun
    cases result with
    | error e => exact readied
    | ok _ =>
      have problem : c.problem = P := readied.problem_eq
      have configured : c.config = config := readied.config_eq
      have spaces : c.spaces = generatedSpaces P config := readied.begun begun
      have complete := complete_generatedSpaces lawful config
      have laid := complete.laid.drop target
      have length : 0 + target + ((generatedSpaces P config).drop target).length ≤
          config.horizon + 1 := by
        rw [List.length_drop, complete.length_eq]
        omega
      obtain ⟨audited, later⟩ := readied.perform begun (isMoves_pass laid length approximate)
      unfold pass at audited later
      dsimp only at audited later ⊢
      rw [problem, configured, spaces]
      generalize c.perform _ = ran at audited later ⊢
      obtain ⟨outcome, d⟩ := ran
      cases outcome with
      | error e => exact audited
      | ok _ => exact audited.withPhase later nofun

theorem Audited.call (audited : Audited P config b) (c : Call) : Audited P config (b.call c) := by
  rcases b.answer_cases c with rfl | same | ⟨target, approximate, runs, same⟩
  · exact audited.generateStates.1
  · rwa [same]
  · rw [audited.config_eq] at runs
    rw [Backward.call, same]
    exact audited.runUntil lawful runs.le_horizon approximate

theorem Audited.after (audited : Audited P config b) (calls : List Call) :
    Audited P config (b.after calls) := by
  induction calls generalizing b with
  | nil => exact audited
  | cons c rest ih => exact ih (audited.call lawful c)

end Generation

section Sizes

omit [DecidableEq α]

theorem size_of_orderly {space : StateSpace σ} {t : Nat} (orderly : StateSpace.Orderly P t space) :
    space.size = space.enumerated.length := by
  have same : space.members.keys.Perm space.enumerated :=
    (List.perm_ext_iff_of_nodup space.members.distinct_keys orderly.distinct).2 fun s =>
      (space.members.mem_keys s).trans (orderly.known s)
  rw [StateSpace.size, Store.size_eq_length_keys, same.length_eq]

theorem sum_size_of_laid {t : Nat} {spaces : List (StateSpace σ)} (laid : Laid P t spaces) :
    (spaces.map StateSpace.size).sum = enumeratedCount spaces := by
  induction spaces generalizing t with
  | nil => rfl
  | cons first rest ih =>
    have later := ih laid.2
    simp only [enumeratedCount, List.map_cons, List.sum_cons, size_of_orderly laid.1] at later ⊢
    omega

theorem mem_statesOf_of_laid {spaces : List (StateSpace σ)} (laid : Laid P 0 spaces) {t : Nat} :
    (statesOf spaces t).Nodup ∧ ∀ s ∈ statesOf spaces t, P.period s = t := by
  unfold statesOf
  split
  · next space found =>
    have orderly := laid.orderly found
    rw [Nat.zero_add] at orderly
    exact ⟨orderly.distinct, orderly.inPeriod⟩
  · exact ⟨.nil, fun s listed => absurd listed List.not_mem_nil⟩

end Sizes

-- A decision is one of a counted state below the horizon, or one that was seeded.
theorem Tallied.solvedCount_eq {w : Ledger σ α ρ × Tally} (tallied : Tallied P config spaces w)
    (laid : Laid P 0 spaces) :
    w.1.solvedCount = w.2.solved +
      ((statesOf spaces config.horizon).filter w.1.isSolved).length := by
  obtain ⟨distinct, inPeriod⟩ := mem_statesOf_of_laid (t := config.horizon) laid
  have keys := w.1.decided.distinct_keys
  have seeded : (w.1.decided.keys.filter fun s => !P.isBelow config.horizon s).Perm
      ((statesOf spaces config.horizon).filter w.1.isSolved) := by
    refine (List.perm_ext_iff_of_nodup (keys.filter _) (distinct.filter _)).2 fun s => ?_
    rw [List.mem_filter, List.mem_filter, Store.mem_keys]
    have late : (!P.isBelow config.horizon s) = true ↔ config.horizon ≤ P.period s := by
      simp [Problem.isBelow]
    rw [late]
    constructor
    · rintro ⟨solved, beyond⟩
      exact ⟨tallied.late s solved beyond, solved⟩
    · rintro ⟨listed, solved⟩
      exact ⟨solved, Nat.le_of_eq (inPeriod s listed).symm⟩
  have parts := List.length_eq_countP_add_countP (P.isBelow config.horizon)
    (l := w.1.decided.keys)
  simp only [Bool.not_eq_true, Bool.decide_eq_false] at parts
  rw [Ledger.solvedCount, Store.size_eq_length_keys, tallied.solved, Ledger.solvedBelow,
    ← seeded.length_eq, ← List.countP_eq_length_filter, parts]

theorem Audited.laid [Hashable σ] [Hashable α] [Scalar ρ] (lawful : P.Lawful)
    {b : Backward σ α ρ} (audited : Audited P config b) : Laid P 0 b.spaces := by
  by_cases fresh : b.phase = .uninitialized
  · rw [audited.untouched fresh]
    exact laid_emptySpaces P config
  · rw [audited.begun fresh]
    exact laid_generatedSpaces lawful config

end Backward

open Backward (Call statesOf)

section Statistics

variable [Scalar ρ] [Hashable σ] [Hashable α] {P : Problem σ α ρ} {config : Config ρ}

/-- The counts of a recursion match what it holds, after any calls and whether or not they fail.
Backward, the generated states are those that the spaces of the periods know, which are those that
they enumerate; decisions are held by the counted states below the horizon and by states enumerated
at the horizon; and no decision is asked for again. Forward, the generated states are those that are
known. In both, the solved states are the decided ones below the horizon, and an evaluation is a
pair with an expected value. -/
theorem statistics_match_stores (lawful : P.Lawful) :
    (∀ b : Backward σ α ρ, Backward.new P config = .ok b → ∀ calls : List Call,
      let now := b.after calls
      now.statistics.generated = (now.spaces.map StateSpace.size).sum ∧
        now.statistics.generated = (now.spaces.map fun space => space.enumerated.length).sum ∧
        {s | P.period s < config.horizon ∧ now.ledger.isSolved s = true}.encard =
          now.statistics.solved ∧
        {pair : σ × α | (now.ledger.expected? pair.1 pair.2).isSome = true}.encard =
          now.statistics.evaluations ∧
        now.ledger.solvedCount = now.statistics.solved +
          ((statesOf now.spaces config.horizon).filter now.ledger.isSolved).length ∧
        now.statistics.reused = 0) ∧
      ∀ r : Forward σ α ρ, Forward.new P config = .ok r → ∀ initials : List σ,
        let now := (r.runAll initials).2
        now.statistics.generated = (now.frontier.spaces.toList.map StateSpace.size).sum ∧
          {s | P.period s < config.horizon ∧ now.ledger.isSolved s = true}.encard =
            now.statistics.solved ∧
          {pair : σ × α | (now.ledger.expected? pair.1 pair.2).isSome = true}.encard =
            now.statistics.evaluations ∧
          {s | now.ledger.isSolved s = true}.encard = now.ledger.solvedCount := by
  constructor
  · intro b new calls now
    obtain ⟨-, -, rfl⟩ := Backward.new_eq_ok_iff.1 new
    have audited : Backward.Audited P config now := Backward.audited_start.after lawful calls
    have laid := audited.laid lawful
    have tallied := audited.tallied
    have generated : now.tally.generated = Backward.enumeratedCount now.spaces := tallied.generated
    refine ⟨?_, generated, ?_, ?_, tallied.solvedCount_eq laid, tallied.reused⟩
    · exact generated.trans (Backward.sum_size_of_laid laid).symm
    · exact Ledger.encard_solvedBelow.trans (congrArg _ tallied.solved.symm)
    · exact Ledger.encard_expected.trans (congrArg _ tallied.evaluations.symm)
  · intro r new initials now
    obtain ⟨-, -, rfl⟩ := Forward.new_eq_ok_iff.1 new
    obtain ⟨-, moves⟩ :=
      Forward.fitted_start.runAll (· ∈ initials) lawful fun _ listed => listed
    have tallied := Forward.tallied_start.moves moves
    refine ⟨tallied.generated, ?_, ?_, Ledger.encard_solved⟩
    · exact Ledger.encard_solvedBelow.trans (congrArg _ tallied.solved.symm)
    · exact Ledger.encard_expected.trans (congrArg _ tallied.evaluations.symm)

-- Calls on `Explicit.uneven`, a partial run first, and forward one that fails half way.
theorem statistics_match_stores_uneven :
    let P : Problem Node Int Float := Explicit.uneven.problem
    let b := (Backward.start P (.exact 2)).after [.runToPeriod 1, .run]
    let r := ((Forward.start P (.exact 2)).runAll [⟨0, 2⟩, ⟨1, 1⟩]).2
    P.Lawful ∧ b.ledger.solvedCount = b.statistics.solved +
        ((statesOf b.spaces 2).filter b.ledger.isSolved).length ∧
      {s | P.period s < 2 ∧ r.ledger.isSolved s = true}.encard = r.statistics.solved := by
  intro P b r
  have lawful : P.Lawful := Explicit.uneven.lawful
  have newBackward : Backward.new P (.exact 2) = .ok (Backward.start P (.exact 2)) :=
    Backward.new_uneven
  have newForward : Forward.new P (.exact 2) = .ok (Forward.start P (.exact 2)) :=
    Forward.new_uneven
  obtain ⟨backward, forward⟩ := statistics_match_stores (P := P) lawful
  obtain ⟨-, -, -, -, seeded, -⟩ := backward _ newBackward [.runToPeriod 1, .run]
  obtain ⟨-, solved, -⟩ := forward _ newForward [⟨0, 2⟩, ⟨1, 1⟩]
  exact ⟨lawful, seeded, solved⟩

end Statistics

end Horizon
