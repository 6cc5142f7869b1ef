import Horizon.Proofs.Computation
import Horizon.Proofs.Sweep

/-! A backward recursion decides every state as the recursion of Bellman says.

The ledger is described by the decisions `D` it holds (`Holds`): its expected values are always
what `attemptAction` gives. Deciding a state changes `D` in one place, so a pass over a period fills
in that period (`forEach_settles`), and the passes from the horizon down fill in the decisions of
every period (`solveDown_settles`), or stop with the first error on the way.
-/

set_option autoImplicit false

namespace Horizon.Backward

open LedgerM

variable {σ α ρ : Type} [DecidableEq σ] [DecidableEq α] [Scalar ρ]
  {P : Problem σ α ρ} {config : Config ρ} {outcomes : σ → α → List σ}

/-- The ledger holds the decisions `D`, and no expected value but right ones. -/
structure Holds (P : Problem σ α ρ) (config : Config ρ) (outcomes : σ → α → List σ)
    (D : σ → Option (Decision α ρ)) (w : Ledger σ α ρ × Tally) : Prop where
  discount_eq : w.1.discount = config.discount
  expected : ∀ s a x, w.1.expected? s a = some x →
    P.attemptAction config outcomes (config.horizon - (P.period s + 1)) s a = .ok x
  decided : ∀ s, w.1.decision? s = D s

def decideAt (D : σ → Option (Decision α ρ)) (s : σ) (d : Decision α ρ) :
    σ → Option (Decision α ρ) :=
  fun s' => if s = s' then some d else D s'

theorem memo_holds (D : σ → Option (Decision α ρ)) :
    Memo (Holds P config outcomes D) config.discount fun s a x =>
      P.attemptAction config outcomes (config.horizon - (P.period s + 1)) s a = .ok x where
  discount_eq _ holds := holds.discount_eq
  faithful _ holds := holds.expected
  enter l _ holds s a x worth := by
    refine ⟨(l.discount_enterExpected s a x).trans holds.discount_eq,
      fun s' a' y entered => ?_, fun s' => ?_⟩
    · rcases Ledger.expected?_or_of_enterExpected entered with old | ⟨same, rfl⟩
      · exact holds.expected s' a' y old
      · cases same
        exact worth
    · rw [Ledger.decision?_enterExpected]
      exact holds.decided s'
  collect _ _ holds _ _ _ := ⟨holds.discount_eq, holds.expected, holds.decided⟩

theorem computes_lookup {D : σ → Option (Decision α ρ)} {f : σ} {d : Decision α ρ}
    (decided : D f = some d) :
    Computes (Holds P config outcomes D) (valueOf f) (.ok d.value) := by
  apply computes_query
  intro w holds
  rw [Ledger.value, holds.decided, decided]

theorem holds_decide {D : σ → Option (Decision α ρ)} {w : Ledger σ α ρ × Tally} {s : σ}
    (d : Decision α ρ) (holds : Holds P config outcomes D w) (undecided : D s = none) :
    (LedgerM.decide s d w).1 = .ok () ∧
      Holds P config outcomes (decideAt D s d) (LedgerM.decide s d w).2 := by
  obtain ⟨l, c⟩ := w
  have vacant : l.decision? s = none := (holds.decided s).trans undecided
  rw [decide_of_vacant d vacant]
  refine ⟨rfl, ?_, fun s' a x entered => ?_, fun s' => ?_⟩
  · exact (l.discount_publish s d).trans holds.discount_eq
  · rw [Ledger.expected?_publish] at entered
    exact holds.expected s' a x entered
  · rw [Ledger.decision?_publish, decideAt, vacant, ← holds.decided s']
    rfl

/-- A step that decides one state: as `result` says, or it fails in the same way. -/
def Settles (P : Problem σ α ρ) (config : Config ρ) (outcomes : σ → α → List σ)
    (D : σ → Option (Decision α ρ)) (step : LedgerM σ α ρ Tally Unit) (s : σ)
    (result : Except (SolveError σ α) (Decision α ρ)) : Prop :=
  ∀ w, Holds P config outcomes D w →
    (step w).1 = (do let _ ← result) ∧
      ∀ d, result = .ok d → Holds P config outcomes (decideAt D s d) (step w).2

-- Each step of a pass changes the decisions, so the induction keeps `D` open. What a step needs of
-- them is `Ready`, which the decisions made in the same pass do not disturb.
theorem forEach_settles (step : σ → LedgerM σ α ρ Tally Unit)
    (result : σ → Except (SolveError σ α) (Decision α ρ))
    (Ready : (σ → Option (Decision α ρ)) → Prop) {xs : List σ}
    (settles : ∀ s ∈ xs, ∀ D, Ready D → D s = none →
      Settles P config outcomes D (step s) s (result s))
    (stable : ∀ s ∈ xs, ∀ D d, Ready D → Ready (decideAt D s d))
    (distinct : xs.Nodup) {D : σ → Option (Decision α ρ)} (ready : Ready D)
    (undecided : ∀ s ∈ xs, D s = none) {w : Ledger σ α ρ × Tally}
    (holds : Holds P config outcomes D w) :
    (forEach step xs w).1 = (do let _ ← xs.mapM result) ∧
      ∀ ds, xs.mapM result = .ok ds →
        Holds P config outcomes (fill D result xs) (forEach step xs w).2 := by
  induction xs generalizing D w with
  | nil =>
    refine ⟨rfl, fun _ _ => ?_⟩
    have same : fill D result [] = D := by
      funext s
      simp [fill]
    rw [same]
    exact holds
  | cons s rest ih =>
    rw [List.nodup_cons] at distinct
    obtain ⟨given, decided⟩ := settles s List.mem_cons_self D ready
      (undecided s List.mem_cons_self) w holds
    rcases ran : step s w with ⟨outcome, w'⟩
    rw [ran] at given decided
    cases worked : result s with
    | error e =>
      rw [worked] at given
      change outcome = .error e at given
      subst given
      rw [forEach, bind_of_error ran, List.mapM_cons, worked]
      exact ⟨rfl, nofun⟩
    | ok d =>
      rw [worked] at given
      change outcome = .ok () at given
      subst given
      have others := ih
        (fun s' member => settles s' (List.mem_cons_of_mem s member))
        (fun s' member => stable s' (List.mem_cons_of_mem s member)) distinct.2
        (stable s List.mem_cons_self D d ready) (fun s' member => by
          rw [decideAt, if_neg (ne_of_mem_of_not_mem member distinct.1).symm]
          exact undecided s' (List.mem_cons_of_mem s member)) (decided d worked)
      have same : fill (decideAt D s d) result rest = fill D result (s :: rest) := by
        funext s'
        by_cases equal : s' = s
        · subst equal
          simp [fill, decideAt, distinct.1, worked, Except.toOption]
        · simp [fill, decideAt, equal, Ne.symm equal]
      rw [same] at others
      rw [forEach, bind_of_ok ran, List.mapM_cons, worked]
      obtain ⟨given, filled⟩ := others
      cases swept : rest.mapM result with
      | error e =>
        rw [swept] at given
        exact ⟨given, nofun⟩
      | ok ds =>
        rw [swept] at given
        exact ⟨given, fun _ _ => filled ds swept⟩

section Period

variable {spaces : List (StateSpace σ)} {next : StateSpace σ} {left : Nat}
  {D : σ → Option (Decision α ρ)} {s : σ}

theorem computes_evaluate (found : spaces[P.period s + 1]? = some next)
    (inside : P.period s + 1 + left = config.horizon)
    (ready : Ready P config (kept P config spaces) next left D) (a : α) :
    Computes (Holds P config (kept P config spaces) D) (evaluate P config next s a)
      (P.attemptAction config (kept P config spaces) left s a) := by
  rw [evaluate_of_next found]
  refine (memo_holds D).computes_expectedValue (fun x => ?_) fun f member => ?_
  · rw [show config.horizon - (P.period s + 1) = left by omega]
    exact Iff.rfl
  · obtain ⟨-, next', found', known⟩ := mem_outcomes_of_mem_kept member
    cases found.symm.trans found'
    obtain ⟨d, decided, right⟩ := ready f known
    rw [right]
    exact computes_lookup decided

theorem settles_of_computes {decision : LedgerM σ α ρ Tally (Decision α ρ)}
    {result : Except (SolveError σ α) (Decision α ρ)}
    (computed : Computes (Holds P config outcomes D) decision result) (undecided : D s = none) :
    Settles P config outcomes D
      (do
        let d ← decision
        LedgerM.decide s d
        LedgerM.onContext Tally.addSolved) s result := by
  intro w holds
  obtain ⟨given, after⟩ := computed w holds
  rcases ran : decision w with ⟨outcome, w'⟩
  rw [ran] at given after
  change outcome = result at given
  subst given
  cases outcome with
  | error e =>
    rw [bind_of_error ran]
    exact ⟨rfl, nofun⟩
  | ok d =>
    obtain ⟨done, decided⟩ := holds_decide d after undecided
    rcases entered : LedgerM.decide s d w' with ⟨outcome, l, c⟩
    rw [entered] at done decided
    change outcome = .ok () at done
    subst done
    rw [bind_of_ok ran, bind_of_ok entered]
    refine ⟨rfl, fun d' same => ?_⟩
    cases same
    exact ⟨decided.discount_eq, decided.expected, decided.decided⟩

theorem settles_solveState (found : spaces[P.period s + 1]? = some next)
    (inside : P.period s + 1 + left = config.horizon)
    (ready : Ready P config (kept P config spaces) next left D) (undecided : D s = none) :
    Settles P config (kept P config spaces) D (solveState P config next s) s
      (P.attempt config (kept P config spaces) (left + 1) s) := by
  have decided := computes_decision fun a (_ : a ∈ P.actions s) =>
    computes_evaluate found inside ready a
  have settled := settles_of_computes decided undecided
  simp only [bind_assoc] at settled
  exact settled

theorem settles_terminal (undecided : D s = none) :
    Settles P config outcomes D (LedgerM.decide s ⟨P.terminal s, none⟩) s
      (P.attempt config outcomes 0 s) := by
  intro w holds
  obtain ⟨done, decided⟩ := holds_decide ⟨P.terminal s, none⟩ holds undecided
  refine ⟨done, fun d same => ?_⟩
  cases same
  exact decided

end Period

section Periods

variable {spaces : List (StateSpace σ)} {left : Nat}

-- The last period that a pass decides, when those after it are decided.
theorem forEach_settles_period (complete : Complete P config spaces)
    (inside : left + 1 ≤ config.horizon) {current next : StateSpace σ}
    (found : spaces[config.horizon - (left + 1)]? = some current)
    (foundNext : spaces[config.horizon - left]? = some next)
    (swept : attemptDown P config spaces left = .ok ()) {step : σ → LedgerM σ α ρ Tally Unit}
    {result : σ → Except (SolveError σ α) (Decision α ρ)}
    (settles : ∀ s, spaces[P.period s + 1]? = some next → P.period s + 1 + left = config.horizon →
      ∀ D, Ready P config (kept P config spaces) next left D → D s = none →
        Settles P config (kept P config spaces) D (step s) s (result s))
    {w : Ledger σ α ρ × Tally}
    (holds : Holds P config (kept P config spaces) (decisionsOf P config spaces left) w) :
    let states := statesOf spaces (config.horizon - (left + 1))
    (forEach step current.enumerated w).1 = (do let _ ← states.mapM result) ∧
      ∀ ds, states.mapM result = .ok ds →
        Holds P config (kept P config spaces)
          (fill (decisionsOf P config spaces left) result states)
          (forEach step current.enumerated w).2 := by
  have states : statesOf spaces (config.horizon - (left + 1)) = current.enumerated := by
    rw [statesOf, found]
  have orderly := complete.laid.orderly found
  have orderlyNext := complete.laid.orderly foundNext
  have period : ∀ s ∈ current.enumerated, P.period s + 1 + left = config.horizon := by
    intro s member
    have := orderly.inPeriod s member
    omega
  obtain ⟨ds, later⟩ := exists_decisions_of_attemptDown swept
  have ready := ready_decisionsOf complete (by omega) foundNext later
  rw [states]
  refine forEach_settles _ _ (Ready P config (kept P config spaces) next left)
    (fun s member D ready undecided => ?_) (fun s member D d ready f known => ?_)
    orderly.distinct ready (fun s member => ?_) holds
  · have there := period s member
    have nextPeriod : config.horizon - left = P.period s + 1 := by omega
    rw [nextPeriod] at foundNext
    exact settles s foundNext there D ready undecided
  · have there := period s member
    have nextPeriod := orderlyNext.inPeriod f ((orderlyNext.known f).1 known)
    have other : s ≠ f := by
      rintro rfl
      omega
    rw [decideAt, if_neg other]
    exact ready f known
  · have there := period s member
    rw [decisionsOf, if_neg (by omega)]

-- By induction on the periods left; an error stops the passes, and what they entered stays.
theorem solveDown_settles (complete : Complete P config spaces)
    (inside : left ≤ config.horizon) {w : Ledger σ α ρ × Tally}
    (holds : Holds P config (kept P config spaces) (decisionsOf P config spaces 0) w) :
    (solveDown P config (spaces.drop (config.horizon - left)) w).1 =
        attemptDown P config spaces left ∧
      (attemptDown P config spaces left = .ok () →
        Holds P config (kept P config spaces) (decisionsOf P config spaces left)
          (solveDown P config (spaces.drop (config.horizon - left)) w).2) := by
  induction left with
  | zero =>
    obtain ⟨last, dropped⟩ := complete.drop_horizon
    rw [Nat.sub_zero, dropped]
    exact ⟨rfl, fun _ => holds⟩
  | succ left ih =>
    obtain ⟨current, found, -, -, dropped⟩ :=
      complete.exists_space (t := config.horizon - (left + 1)) (by omega)
    obtain ⟨next, foundNext, -, -, droppedNext⟩ :=
      complete.exists_space (t := config.horizon - left) (by omega)
    rw [show config.horizon - (left + 1) + 1 = config.horizon - left by omega] at dropped
    obtain ⟨given, decided⟩ := ih (by omega)
    rw [dropped, droppedNext, solveDown, ← droppedNext, attemptDown]
    rcases ran : solveDown P config (spaces.drop (config.horizon - left)) w with ⟨outcome, w'⟩
    rw [ran] at given decided
    change outcome = attemptDown P config spaces left at given
    subst given
    cases swept : attemptDown P config spaces left with
    | error e =>
      rw [swept] at ran
      rw [bind_of_error ran]
      exact ⟨rfl, fun done => by cases done⟩
    | ok _ =>
      rw [swept] at ran
      obtain ⟨given, filled⟩ := forEach_settles_period complete inside found foundNext swept
        (fun s found there D => settles_solveState found there) (decided swept)
      rw [fill_decisionsOf complete inside] at filled
      rw [bind_of_ok ran]
      refine ⟨given, fun done => ?_⟩
      have total : attemptDown P config spaces (left + 1) = .ok () := by
        rw [attemptDown, swept]
        exact done
      obtain ⟨ds, decided⟩ := exists_decisions_of_attemptDown total
      exact filled ds decided

theorem seedTerminal_settles (complete : Complete P config spaces)
    {w : Ledger σ α ρ × Tally} (holds : Holds P config (kept P config spaces) (fun _ => none) w) :
    (seedTerminal P spaces w).1 = .ok () ∧
      Holds P config (kept P config spaces) (decisionsOf P config spaces 0)
        (seedTerminal P spaces w).2 := by
  obtain ⟨last, isLast, orderly, states⟩ := complete.exists_last
  have filled : fill (fun _ => none) (P.attempt config (kept P config spaces) 0) last.enumerated =
      decisionsOf P config spaces 0 := by
    funext s
    rw [fill, decisionsOf]
    by_cases member : s ∈ last.enumerated
    · have period := orderly.inPeriod s member
      have condition : s ∈ statesOf spaces (P.period s) ∧ config.horizon ≤ P.period s + 0 :=
        ⟨by rwa [period, states], by omega⟩
      rw [if_pos member, if_pos condition, period, Nat.sub_self]
    · have outside : ¬(s ∈ statesOf spaces (P.period s) ∧ config.horizon ≤ P.period s + 0) := by
        rintro ⟨listed, late⟩
        obtain ⟨-, early⟩ := complete.period_of_mem listed
        rw [show P.period s = config.horizon by omega, states] at listed
        exact member listed
      rw [if_neg member, if_neg outside]
  obtain ⟨given, seeded⟩ := forEach_settles (fun s => LedgerM.decide s ⟨P.terminal s, none⟩)
    (P.attempt config (kept P config spaces) 0) (fun _ => True)
    (fun s _ D _ undecided => settles_terminal undecided) (fun _ _ _ _ _ => trivial)
    orderly.distinct trivial (fun _ _ => rfl) holds
  have decided : last.enumerated.mapM (P.attempt config (kept P config spaces) 0) =
      .ok (last.enumerated.map fun s => ⟨P.terminal s, none⟩) :=
    mapM_eq_ok_of_forall fun s _ => rfl
  rw [decided] at given
  rw [seedTerminal, isLast, ← filled]
  exact ⟨given, seeded _ decided⟩

end Periods

section Runs

variable [Hashable σ] [Hashable α]

/-- What a new recursion is, apart from the checks that are made for it. -/
def start (P : Problem σ α ρ) (config : Config ρ) : Backward σ α ρ :=
  ⟨P, config, emptySpaces config, .empty config.storage config.discount, .zero, .uninitialized⟩

theorem new_eq_ok_iff {b : Backward σ α ρ} :
    Backward.new P config = .ok b ↔ config.validate = .ok () ∧
      config.checkHorizon P.maxHorizon = .ok () ∧ b = start P config :=
  Config.checked_eq_ok_iff

theorem generateStates_start (P : Problem σ α ρ) (config : Config ρ) :
    ∃ tally, (start P config).generateStates = ⟨P, config, generatedSpaces P config,
      .empty config.storage config.discount, tally, .generated⟩ := by
  rw [start, generateStates, generatedSpaces, if_pos rfl]
  by_cases exhaustive : config.stateSampling.isExhaustive = true
  · simp only [exhaustive, if_true]
    exact ⟨_, rfl⟩
  · simp only [exhaustive, Bool.false_eq_true, if_false]
    exact ⟨_, rfl⟩

theorem generateStates_of_new {b : Backward σ α ρ} (new : Backward.new P config = .ok b) :
    ∃ tally, b.generateStates = ⟨P, config, generatedSpaces P config,
      .empty config.storage config.discount, tally, .generated⟩ := by
  rw [(new_eq_ok_iff.1 new).2.2]
  exact generateStates_start P config

def pass (P : Problem σ α ρ) (config : Config ρ) (approximate : Bool)
    (spaces : List (StateSpace σ)) : LedgerM σ α ρ Tally Unit :=
  if approximate then solveDownIdle P config spaces else solveDown P config spaces

def phaseOf (target : Nat) (approximate : Bool) : Except (SolveError σ α) Unit → Phase
  | .ok _ => .solved target approximate
  | .error _ => .generated

omit [Hashable σ] [Hashable α] in
-- Once the states are generated and the terminal values are there, a run is its pass.
theorem runUntil_of_prepare {b : Backward σ α ρ} {spaces : List (StateSpace σ)}
    {l : Ledger σ α ρ} {c : Tally}
    (prepared : b.prepare = (.ok (), ⟨P, config, spaces, l, c, .generated⟩)) (target : Nat)
    (approximate : Bool) :
    let ran := pass P config approximate (spaces.drop target) (l, c)
    b.runUntil target approximate =
      (ran.1, ⟨P, config, spaces, ran.2.1, ran.2.2, phaseOf target approximate ran.1⟩) := by
  intro ran
  have unsolved : ∀ p a, b.phase ≠ .solved p a := by
    intro p a phase
    rw [prepare, phase, if_neg nofun] at prepared
    have same := congrArg (fun r => r.2.phase) prepared
    rw [phase] at same
    cases same
  have decided : (if approximate then solveDownIdle P config (spaces.drop target)
      else solveDown P config (spaces.drop target)) (l, c) = ran := rfl
  rw [runUntil]
  split
  · next p a phase => exact absurd phase (unsolved p a)
  · rw [prepared]
    dsimp only [perform]
    rw [decided]
    rcases ran with ⟨outcome, l', c'⟩
    cases outcome <;> rfl

def seeded (P : Problem σ α ρ) (config : Config ρ) (tally : Tally) :
    Except (SolveError σ α) Unit × Ledger σ α ρ × Tally :=
  seedTerminal P (generatedSpaces P config) (.empty config.storage config.discount, tally)

theorem seeded_settles (lawful : P.Lawful) (config : Config ρ) (tally : Tally) :
    (seeded P config tally).1 = .ok () ∧ Holds P config (kept P config (generatedSpaces P config))
      (decisionsOf P config (generatedSpaces P config) 0) (seeded P config tally).2 := by
  refine seedTerminal_settles (complete_generatedSpaces lawful config)
    ⟨rfl, fun s a x entered => ?_, fun s => Ledger.decision?_empty _ _ s⟩
  rw [Ledger.expected?_empty] at entered
  cases entered

theorem prepare_start (lawful : P.Lawful) (config : Config ρ) :
    ∃ tally, (start P config).prepare = (.ok (), ⟨P, config, generatedSpaces P config,
      (seeded P config tally).2.1, (seeded P config tally).2.2, .generated⟩) := by
  obtain ⟨tally, generated⟩ := generateStates_start P config
  refine ⟨tally, ?_⟩
  have phase : (start P config).phase = .uninitialized := rfl
  rw [prepare, if_pos phase, generated, ← (seeded_settles lawful config tally).1]
  rfl

theorem phase_runUntil_of_new (lawful : P.Lawful) {b : Backward σ α ρ}
    (new : Backward.new P config = .ok b) (target : Nat) (approximate : Bool) :
    (b.runUntil target approximate).2.phase =
      phaseOf target approximate (b.runUntil target approximate).1 := by
  obtain ⟨tally, prepared⟩ := prepare_start lawful config
  rw [← (new_eq_ok_iff.1 new).2.2] at prepared
  rw [runUntil_of_prepare prepared]

theorem run_of_new (lawful : P.Lawful) {b : Backward σ α ρ} (new : Backward.new P config = .ok b) :
    let spaces := generatedSpaces P config
    b.run.1 = attemptDown P config spaces config.horizon ∧ b.run.2.spaces = spaces ∧
      (b.run.1 = .ok () → Holds P config (kept P config spaces)
        (decisionsOf P config spaces config.horizon) (b.run.2.ledger, b.run.2.tally)) := by
  intro spaces
  have complete : Complete P config spaces := complete_generatedSpaces lawful config
  obtain ⟨tally, prepared⟩ := prepare_start lawful config
  rw [← (new_eq_ok_iff.1 new).2.2] at prepared
  obtain ⟨-, started⟩ := seeded_settles lawful config tally
  obtain ⟨given, decided⟩ := solveDown_settles complete (Nat.le_refl config.horizon) started
  rw [Nat.sub_self] at given decided
  have ran := runUntil_of_prepare prepared 0 false
  rw [Backward.run, ran]
  exact ⟨given, rfl, fun done => decided (given.symm.trans done)⟩

section Decided

variable [Scalar.Ranked ρ] (lawful : P.Lawful) {b : Backward σ α ρ}
  (new : Backward.new P config = .ok b)

include lawful new

theorem run_eq_ok_iff :
    b.run.1 = .ok () ↔ ∀ t < config.horizon, ∀ s ∈ statesOf (generatedSpaces P config) t,
      P.Solvable config (kept P config (generatedSpaces P config))
        (config.horizon - (t + 1)) s := by
  have complete := complete_generatedSpaces lawful config
  rw [(run_of_new lawful new).1, attemptDown_eq_ok_iff_solvable complete (Nat.le_refl _),
    Nat.sub_self]
  exact forall₂_congr fun t _ => ⟨fun each => each (Nat.zero_le t), fun each _ => each⟩

theorem attempt_of_run (done : b.run.1 = .ok ()) {t : Nat} (inside : t ≤ config.horizon) {s : σ}
    (member : s ∈ statesOf (generatedSpaces P config) t) :
    P.attempt config (kept P config (generatedSpaces P config)) (config.horizon - t) s =
      .ok (P.optimal config (kept P config (generatedSpaces P config)) (config.horizon - t) s) := by
  have swept := (run_of_new lawful new).1.symm.trans done
  have later := attemptDown_of_le (Nat.sub_le config.horizon t) swept
  refine attempt_of_attemptDown (complete_generatedSpaces lawful config) (Nat.sub_le _ _) later ?_
  rwa [show config.horizon - (config.horizon - t) = t by omega]

theorem decision?_of_run (done : b.run.1 = .ok ()) {t : Nat} (inside : t ≤ config.horizon) {s : σ}
    (member : s ∈ statesOf (generatedSpaces P config) t) :
    b.run.2.ledger.decision? s = some (P.optimal config
      (kept P config (generatedSpaces P config)) (config.horizon - t) s) := by
  have holds := ((run_of_new lawful new).2.2 done).decided s
  have period := ((complete_generatedSpaces lawful config).period_of_mem member).1
  have condition : s ∈ statesOf (generatedSpaces P config) (P.period s) ∧
      config.horizon ≤ P.period s + config.horizon := ⟨by rwa [period], by omega⟩
  rw [holds, decisionsOf, if_pos condition, period, attempt_of_run lawful new done inside member]
  rfl

theorem valueFunction_of_run (done : b.run.1 = .ok ()) {t : Nat} (inside : t ≤ config.horizon) :
    b.run.2.valueFunction t = .ok ((statesOf (generatedSpaces P config) t).map fun s =>
      let d := P.optimal config (kept P config (generatedSpaces P config)) (config.horizon - t) s
      ⟨s, d.value, d.action⟩) := by
  obtain ⟨space, found, -, states, -⟩ :=
    (complete_generatedSpaces lawful config).exists_space inside
  have spaces := (run_of_new lawful new).2.1
  rw [valueFunction, spaces, found, states]
  refine mapM_eq_ok_of_forall fun s member => ?_
  rw [← states] at member
  rw [entry, decision?_of_run lawful new done inside member]

end Decided

/-- A run on a new recursion is the recursion of Bellman. It fails as that recursion does, so it
succeeds exactly when every state below the horizon that is enumerated can be decided: it has an
action, the masses of the outcomes kept for its actions can be used, and the values of its actions
are numbers. Then the states at the horizon have their terminal values, and every other state has
the value of the first of its best actions. -/
theorem run_eq_bellman [Scalar.Ranked ρ] (lawful : P.Lawful) {b : Backward σ α ρ}
    (new : Backward.new P config = .ok b) :
    let spaces := b.generateStates.spaces
    let outcomes := kept P config spaces
    let after := b.run.2
    b.run.1 = attemptDown P config spaces config.horizon ∧
      (b.run.1 = .ok () ↔ ∀ t < config.horizon, ∀ s ∈ statesOf spaces t,
        P.Solvable config outcomes (config.horizon - (t + 1)) s) ∧
      (b.run.1 = .ok () → after.spaces = spaces ∧
        (∀ s ∈ statesOf spaces config.horizon,
          after.ledger.decision? s = some ⟨P.terminal s, none⟩) ∧
        ∀ t < config.horizon, ∀ s ∈ statesOf spaces t,
          let value := P.actionValue config outcomes (config.horizon - (t + 1)) s
          after.ledger.decision? s = some (P.optimal config outcomes (config.horizon - t) s) ∧
            ∃ a, after.ledger.decision? s = some ⟨value a, some a⟩ ∧
              IsFirstBest config.direction ((P.actions s).map fun a => (a, value a))
                (a, value a)) := by
  obtain ⟨tally, generated⟩ := generateStates_of_new new
  obtain ⟨given, same, -⟩ := run_of_new lawful new
  have solvable := run_eq_ok_iff lawful new
  rw [generated]
  dsimp only
  refine ⟨given, solvable, fun done => ⟨same, fun s member => ?_, fun t before s member => ?_⟩⟩
  · have last := decision?_of_run lawful new done (Nat.le_refl _) member
    rwa [Nat.sub_self] at last
  · have stored := decision?_of_run lawful new done (by omega) member
    obtain ⟨a, first, attained⟩ := (solvable.1 done t before s member).isFirstBest
    refine ⟨stored, a, ?_, first⟩
    rw [stored, show config.horizon - t = config.horizon - (t + 1) + 1 by omega, attained]

end Runs

theorem new_uneven :
    Backward.new (Explicit.uneven : Explicit Float).problem (.exact 2) =
      .ok (start Explicit.uneven.problem (.exact 2)) :=
  rfl

theorem run_uneven :
    (start (Explicit.uneven : Explicit Float).problem (.exact 2)).run.1 = .ok () := by
  have done : (start (Explicit.uneven : Explicit Float).problem (.exact 2)).run.1.toOption =
      some () := by
    decide +kernel
  exact eq_ok_of_toOption done

-- The run on `Explicit.uneven` succeeds, and the states that it decides are decided for the first
-- of their best actions.
theorem run_eq_bellman_uneven :
    let P : Problem Node Int Float := Explicit.uneven.problem
    let config : Config Float := .exact 2
    let spaces := (start P config).generateStates.spaces
    Backward.new P config = .ok (start P config) ∧ (start P config).run.1 = .ok () ∧
      ⟨0, 0⟩ ∈ statesOf spaces 0 ∧ ∀ t < config.horizon, ∀ s ∈ statesOf spaces t,
        let value := P.actionValue config (kept P config spaces) (config.horizon - (t + 1)) s
        ∃ a, (start P config).run.2.ledger.decision? s = some ⟨value a, some a⟩ ∧
          IsFirstBest config.direction ((P.actions s).map fun a => (a, value a)) (a, value a) := by
  have new : Backward.new (Explicit.uneven : Explicit Float).problem (.exact 2) =
      .ok (start Explicit.uneven.problem (.exact 2)) := rfl
  obtain ⟨-, -, decided⟩ := run_eq_bellman Explicit.uneven.lawful new
  refine ⟨new, run_uneven, by decide +kernel, fun t before s member => ?_⟩
  exact ((decided run_uneven).2.2 t before s member).2

end Horizon.Backward
