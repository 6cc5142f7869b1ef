import Horizon.Proofs.Completion
import Horizon.Proofs.Failures
import Horizon.Proofs.Sequence
import Horizon.Proofs.WriteOnce

/-! Running again after a run has failed.

A pass goes through the states below the horizon in one order (`order`), and what it has decided by
the time it fails stays decided. Running again begins with the first state of that order. If it was
this state that could not be decided, the same values are looked up and the same error is found
(`Repeatable`). Otherwise its decision is there, which is an error of its own: the run says that the
state was solved before, and what made the first run fail is not reached any more.
-/

set_option autoImplicit false

namespace Horizon

variable {σ α ρ : Type} [DecidableEq σ] [DecidableEq α]

namespace LedgerM

variable {ω β γ : Type}

/-- A computation that can be made again. It enters no decision; once it has succeeded, it gives the
same in every ledger that has grown from the one it left, and changes nothing there; and where it
fails, provided that the ledger extends `l`, it fails in the same way when it is made once more. -/
structure Repeatable (l : Ledger σ α ρ) (m : LedgerM σ α ρ ω β) : Prop where
  enters : Enters m
  undecided : ∀ D, Ensures (fun w => w.1.decision? = D) m fun _ => True
  recalled : ∀ w w' x, m w = (.ok x, w') → ∀ w'', w'.1.Extends w''.1 → m w'' = (.ok x, w'')
  failing : ∀ w w' e, l.Extends w.1 → m w = (.error e, w') → m w' = (.error e, w')

variable {l : Ledger σ α ρ}

theorem repeatable_ofExcept (e : Except (SolveError σ α) β) :
    Repeatable l (ofExcept e : LedgerM σ α ρ ω β) where
  enters := enters_ofExcept e
  undecided _ := (computes_ofExcept e).ensures.imp fun _ _ => trivial
  recalled w w' x given w'' _ := by
    cases given
    rfl
  failing w w' e _ given := by
    cases given
    rfl

theorem Repeatable.bind {m : LedgerM σ α ρ ω β} {f : β → LedgerM σ α ρ ω γ}
    (first : Repeatable l m) (second : ∀ x, Repeatable l (f x)) : Repeatable l (m >>= f) where
  enters := first.enters.bind fun x => (second x).enters
  undecided D := (first.undecided D).bind fun x _ => (second x).undecided D
  recalled w w' y given w'' grown := by
    obtain ⟨x, w₁, ran, given⟩ := exists_of_bind given
    have between := (second x).enters w₁
    rw [given] at between
    rw [bind_of_ok (first.recalled w w₁ x ran w'' (between.trans grown))]
    exact (second x).recalled w₁ w' y given w'' grown
  failing w w' e grown given := by
    have kept := first.enters w
    rcases ran : m w with ⟨result, w₁⟩
    rw [ran] at kept
    cases result with
    | error e' =>
      rw [bind_of_error ran] at given
      cases given
      exact bind_of_error (first.failing w w' e grown ran)
    | ok x =>
      rw [bind_of_ok ran] at given
      have between := (second x).enters w₁
      rw [given] at between
      rw [bind_of_ok (first.recalled w w₁ x ran w' between)]
      exact (second x).failing w₁ w' e (grown.trans kept) given

theorem repeatable_evaluateAll {evaluate : α → LedgerM σ α ρ ω ρ} {as : List α}
    (each : ∀ a ∈ as, Repeatable l (evaluate a)) : Repeatable l (evaluateAll evaluate as) := by
  induction as with
  | nil => exact repeatable_ofExcept (.ok [])
  | cons a rest ih =>
    refine (each a List.mem_cons_self).bind fun x => ?_
    refine (ih fun b member => each b (List.mem_cons_of_mem a member)).bind fun xs => ?_
    exact repeatable_ofExcept (.ok _)

section Expected

variable [Scalar ρ] {P : Problem σ α ρ} {s : σ} {a : α} {outcomes : List σ}

-- Outcomes that are decided have a value to add.
theorem exists_addTerms {fs : List σ} (w : Ledger σ α ρ × ω)
    (decided : ∀ f ∈ fs, w.1.isSolved f = true) (discount sum : ρ) (ws : List ρ) :
    ∃ x w', addTerms P valueOf discount s a sum fs ws w = (.ok x, w') := by
  induction fs generalizing sum ws w with
  | nil => exact ⟨sum, w, rfl⟩
  | cons f rest ih =>
    cases ws with
    | nil => exact ⟨sum, w, rfl⟩
    | cons weight others =>
      obtain ⟨l, c⟩ := w
      obtain ⟨d, stored⟩ := Ledger.isSolved_iff.1 (decided f List.mem_cons_self)
      have found : (valueOf f : LedgerM σ α ρ ω ρ) (l, c) = (.ok d.value, l, c) := by
        rw [valueOf, query, Ledger.value, stored]
      rw [addTerms, bind_of_ok found]
      exact ih (l.collect s a f, c) (fun g member => decided g (List.mem_cons_of_mem f member)) _
        others

-- What can still fail, the weights, comes before anything is changed.
theorem expectedValue_of_decided {w : Ledger σ α ρ × ω}
    (decided : ∀ f ∈ outcomes, w.1.isSolved f = true) {w' : Ledger σ α ρ × ω} {e : SolveError σ α}
    (failed : expectedValue P (pure outcomes) valueOf s a w = (.error e, w')) : w' = w := by
  obtain ⟨l, c⟩ := w
  cases held : l.expected? s a with
  | some x =>
    rw [expectedValue_of_stored held] at failed
    cases failed
  | none =>
    rw [expectedValue_of_vacant held, pure_bind] at failed
    cases weighed : P.weights s a outcomes with
    | error e' =>
      rw [weighed] at failed
      cases failed
      rfl
    | ok ws =>
      have usable : (ofExcept (P.weights s a outcomes) : LedgerM σ α ρ ω _) (l, c) =
          (.ok ws, l, c) := by
        rw [ofExcept, weighed]
      obtain ⟨x, w'', added⟩ := exists_addTerms (P := P) (s := s) (a := a) (l, c) decided
        l.discount 0 ws
      rw [bind_of_ok usable, query_bind rfl, bind_of_ok added] at failed
      cases failed

theorem undecided_expectedValue (D : σ → Option (Decision α ρ)) :
    Ensures (fun w : Ledger σ α ρ × ω => w.1.decision? = D)
      (expectedValue P (pure outcomes) valueOf s a) fun _ => True := by
  refine (ensures_query (Q := fun _ => True) fun _ _ _ _ => trivial).bind fun held _ => ?_
  cases held with
  | some x => exact (computes_pure x).ensures.imp fun _ _ => trivial
  | none =>
    refine (computes_pure outcomes).ensures.bind fun fs _ => ?_
    refine (computes_ofExcept _).ensures.bind fun ws _ => ?_
    refine (ensures_query (Q := fun _ => True) fun _ _ _ _ => trivial).bind fun discount _ => ?_
    refine (ensures_addTerms (Q := fun _ => True) ws 0 (fun _ _ held _ => held) fun f _ =>
      ensures_query fun _ _ _ _ => trivial).bind fun x _ => ?_
    rintro ⟨l, c⟩ held
    exact ⟨(funext fun s' => l.decision?_enterExpected s s' a x).trans held, fun _ _ => trivial⟩

theorem repeatable_expectedValue (decided : ∀ f ∈ outcomes, l.isSolved f = true) :
    Repeatable l (expectedValue P (pure outcomes) valueOf s a : LedgerM σ α ρ ω ρ) where
  enters := enters_expectedValue (enters_pure outcomes) fun _ => enters_query _
  undecided := undecided_expectedValue
  recalled w w' x given w'' grown :=
    expectedValue_of_stored (grown.expected s a x (expected?_of_expectedValue given)) w''.2
  failing w w' e grown given := by
    have same := expectedValue_of_decided (fun f member => grown.isSolved (decided f member)) given
    subst same
    exact given

end Expected

theorem decide_again {m : LedgerM σ α ρ ω (Decision α ρ)} (repeatable : Repeatable l m) {s : σ}
    {f : ω → ω} {w : Ledger σ α ρ × ω} (grown : l.Extends w.1) (vacant : w.1.decision? s = none) :
    let step : LedgerM σ α ρ ω Unit := do
      let d ← m
      LedgerM.decide s d
      onContext f
    (∃ e w', step w = (.error e, w') ∧ step w' = (.error e, w') ∧
        w'.1.decision? = w.1.decision?) ∨
      ∃ w', step w = (.ok (), w') ∧ w'.1.isSolved s = true ∧
        ∀ w'', w'.1.Extends w''.1 → step w'' = (.error (.alreadySolved s), w'') := by
  intro step
  have undecided := (repeatable.undecided w.1.decision? w rfl).1
  rcases ran : m w with ⟨result, l', c'⟩
  rw [ran] at undecided
  cases result with
  | error e =>
    refine .inl ⟨e, (l', c'), bind_of_error ran, ?_, undecided⟩
    exact bind_of_error (repeatable.failing w (l', c') e grown ran)
  | ok d =>
    have free : l'.decision? s = none := (congrFun undecided s).trans vacant
    have stored : (l'.publish s d).2.decision? s = some d := by
      rw [Ledger.decision?_publish, if_pos rfl, free]
      rfl
    refine .inr ⟨((l'.publish s d).2, f c'), ?_, Ledger.isSolved_iff.2 ⟨d, stored⟩, ?_⟩
    · exact (bind_of_ok ran).trans (bind_of_ok (decide_of_vacant d free))
    · rintro ⟨l'', c''⟩ later
      have between := (l'.extends_publish s d).trans later
      have again := repeatable.recalled w (l', c') d ran (l'', c'') between
      exact (bind_of_ok again).trans (bind_of_error (decide_of_stored d (later.decided s d stored)))

end LedgerM

def Explicit.stuck [Scalar ρ] : Explicit ρ where
  maxHorizon := none
  domain := #[[0, 1], [0]]
  terminal := []
  offers := [(⟨0, 0⟩, ⟨0, [(0, [⟨0, 1, 1⟩])]⟩)]

namespace Backward

open LedgerM

variable {P : Problem σ α ρ} {config : Config ρ} {spaces : List (StateSpace σ)} {left : Nat}

-- What can be kept as outcomes of the first state is decided from the start: between it and the
-- horizon there is no state at all.
theorem solved_of_mem_kept {first f : σ} {rest : List σ} {a : α} {l : Ledger σ α ρ}
    (complete : Complete P config spaces)
    (begins : order config spaces config.horizon = first :: rest)
    (seeded : ∀ s ∈ statesOf spaces config.horizon, l.isSolved s = true)
    (outcome : f ∈ kept P config spaces first a) : l.isSolved f = true := by
  have listed := complete.mem_statesOf_of_mem_kept outcome
  obtain ⟨period, inside⟩ := complete.period_of_mem listed
  rcases Nat.lt_or_eq_of_le inside with below | last
  · have later : f ∈ order config spaces config.horizon :=
      (mem_order (Nat.le_refl _)).2 ⟨_, by omega, below, listed⟩
    have sorted := pairwise_order complete (Nat.le_refl config.horizon)
    rw [begins] at later sorted
    rcases List.mem_cons.1 later with rfl | later
    · omega
    · have := (List.pairwise_cons.1 sorted).1 f later
      omega
  · rw [last] at listed
    exact seeded f listed

variable [Scalar ρ]

theorem enters_solveIn (s : σ) : Enters (solveIn P config spaces s) := by
  unfold solveIn
  split
  · refine (enters_evaluateAll _ fun a => ?_).bind fun _ => ?_
    · exact enters_expectedValue (enters_pure _) fun _ => enters_query _
    · exact (enters_ofExcept _).bind fun d =>
        (enters_decide s d).bind fun _ => enters_onContext _
  · exact enters_pure ()

theorem solveState_again {s : σ} {next : StateSpace σ} {w : Ledger σ α ρ × Tally}
    (found : spaces[P.period s + 1]? = some next)
    (decided : ∀ a, ∀ f ∈ kept P config spaces s a, w.1.isSolved f = true)
    (vacant : w.1.decision? s = none) :
    let step := solveState P config next s
    (∃ e w', step w = (.error e, w') ∧ step w' = (.error e, w') ∧
        w'.1.decision? = w.1.decision?) ∨
      ∃ w', step w = (.ok (), w') ∧ w'.1.isSolved s = true ∧
        ∀ w'', w'.1.Extends w''.1 → step w'' = (.error (.alreadySolved s), w'') := by
  have evaluated : ∀ a ∈ P.actions s, Repeatable w.1 (evaluate P config next s a) := by
    intro a _
    rw [evaluate_of_next found]
    exact repeatable_expectedValue (decided a)
  have decision : Repeatable w.1 (do
      let candidates ← evaluateAll (evaluate P config next s) (P.actions s)
      LedgerM.ofExcept (choose config.direction s candidates)) :=
    (repeatable_evaluateAll evaluated).bind fun _ => repeatable_ofExcept _
  have again := decide_again decision (f := Tally.addSolved) (.refl w.1) vacant
  simp only [bind_assoc] at again
  exact again

/-- A pass that has failed, made once more: it fails in the same way if nothing was decided, and
else because its first state was. -/
theorem solveDown_again {w w' : Ledger σ α ρ × Tally} {e : SolveError σ α}
    (complete : Complete P config spaces)
    (seeded : ∀ s ∈ statesOf spaces config.horizon, w.1.isSolved s = true)
    (vacant : ∀ s, P.period s < config.horizon → w.1.decision? s = none)
    (failed : solveDown P config spaces w = (.error e, w')) :
    ∃ first, (order config spaces config.horizon).head? = some first ∧
      P.period first < config.horizon ∧
      (solveDown P config spaces w' = (.error e, w') ∧ w'.1.decision? = w.1.decision? ∨
        solveDown P config spaces w' = (.error (.alreadySolved first), w') ∧
          w'.1.isSolved first = true) := by
  have flat := solveDown_eq_forEach (α := α) complete (Nat.le_refl config.horizon)
  rw [Nat.sub_self, List.drop_zero] at flat
  rw [flat] at failed ⊢
  cases begins : order config spaces config.horizon with
  | nil =>
    rw [begins] at failed
    cases failed
  | cons first rest =>
    have member : first ∈ order config spaces config.horizon := by
      rw [begins]
      exact List.mem_cons_self
    obtain ⟨t, -, below, listed⟩ := (mem_order (Nat.le_refl _)).1 member
    have period := (complete.period_of_mem listed).1
    rw [← period] at below
    obtain ⟨next, found, -⟩ := complete.exists_space (t := P.period first + 1) below
    have step : solveIn P config spaces first = solveState P config next first := by
      rw [solveIn, found]
    have others : Enters (forEach (solveIn P config spaces) rest) :=
      enters_forEach rest enters_solveIn
    rw [begins, forEach, step] at failed
    refine ⟨first, rfl, below, ?_⟩
    rw [forEach, step]
    rcases solveState_again found
        (fun a f outcome => solved_of_mem_kept complete begins seeded outcome)
        (vacant first below) with ⟨e', w₁, ran, again, same⟩ | ⟨w₁, ran, solved, later⟩
    · rw [bind_of_error ran] at failed
      cases failed
      exact .inl ⟨bind_of_error again, same⟩
    · rw [bind_of_ok ran] at failed
      have grown := others w₁
      rw [failed] at grown
      exact .inr ⟨bind_of_error (later w' grown), grown.isSolved solved⟩

def ranFrom (P : Problem σ α ρ) (config : Config ρ) (spaces : List (StateSpace σ))
    (w : Ledger σ α ρ × Tally) : Except (SolveError σ α) Unit × Backward σ α ρ :=
  let ran := solveDown P config spaces w
  (ran.1, ⟨P, config, spaces, ran.2.1, ran.2.2, phaseOf 0 false ran.1⟩)

theorem run_of_generated (l : Ledger σ α ρ) (c : Tally) :
    (⟨P, config, spaces, l, c, .generated⟩ : Backward σ α ρ).run =
      ranFrom P config spaces (l, c) := by
  have prepared : (⟨P, config, spaces, l, c, .generated⟩ : Backward σ α ρ).prepare =
      (.ok (), ⟨P, config, spaces, l, c, .generated⟩) := by
    rw [prepare, if_neg (by rintro ⟨⟩)]
  exact runUntil_of_prepare prepared 0 false

theorem ranFrom_of_failed {w w' : Ledger σ α ρ × Tally} {e : SolveError σ α}
    (failed : solveDown P config spaces w = (.error e, w')) :
    ranFrom P config spaces w = (.error e, ⟨P, config, spaces, w'.1, w'.2, .generated⟩) := by
  rw [ranFrom, failed]
  rfl

theorem after_replicate {b : Backward σ α ρ} {c : Call} (same : b.call c = b) (n : Nat) :
    b.after (List.replicate n c) = b := by
  induction n with
  | zero => rfl
  | succ n ih => rwa [List.replicate_succ, Backward.after, List.foldl_cons, same]

section Runs

variable [Hashable σ] [Hashable α] {b : Backward σ α ρ} {e : SolveError σ α}

theorem exists_ranFrom_of_new (lawful : P.Lawful) (new : Backward.new P config = .ok b) :
    ∃ w : Ledger σ α ρ × Tally,
      (∀ s ∈ statesOf (generatedSpaces P config) config.horizon, w.1.isSolved s = true) ∧
        (∀ s, P.period s < config.horizon → w.1.decision? s = none) ∧
          b.run = ranFrom P config (generatedSpaces P config) w := by
  obtain ⟨tally, prepared⟩ := prepare_start lawful config
  rw [← (new_eq_ok_iff.1 new).2.2] at prepared
  refine ⟨(seeded P config tally).2, fun s listed => ?_, fun s early => ?_,
    runUntil_of_prepare prepared 0 false⟩
  · rw [Ledger.isSolved, decision?_seeded lawful, if_pos listed]
    rfl
  · rw [decision?_seeded lawful, if_neg]
    intro listed
    have period := ((complete_generatedSpaces lawful config).period_of_mem listed).1
    exact absurd period (Nat.ne_of_lt early)

-- A first run never meets a state that it has decided itself.
theorem ne_alreadySolved_of_run (lawful : P.Lawful) (new : Backward.new P config = .ok b)
    (failed : b.run.1 = .error e) (s : σ) : e ≠ .alreadySolved s := by
  rintro rfl
  obtain ⟨n, s', attempted⟩ := attemptDown_error ((run_of_new lawful new).1.symm.trans failed)
  rcases Problem.attempt_error attempted with ⟨_, _, same⟩ | ⟨_, same⟩ | ⟨_, same⟩ <;> cases same

theorem run_again (lawful : P.Lawful) (new : Backward.new P config = .ok b)
    (failed : b.run.1 = .error e) :
    let after := b.run.2
    ∃ first, (order config after.spaces config.horizon).head? = some first ∧
      P.period first < config.horizon ∧
      (after.run = (.error e, after) ∧
          (∀ s, P.period s < config.horizon → after.ledger.isSolved s = false) ∨
        after.run = (.error (.alreadySolved first), after) ∧
          after.ledger.isSolved first = true) := by
  obtain ⟨w, atHorizon, below, ran⟩ := exists_ranFrom_of_new lawful new
  rcases passed : solveDown P config (generatedSpaces P config) w with ⟨outcome, l, c⟩
  rw [ran, ranFrom, passed] at failed
  change outcome = .error e at failed
  subst failed
  rw [ran, ranFrom_of_failed passed]
  obtain ⟨first, begins, early, outcome⟩ :=
    solveDown_again (complete_generatedSpaces lawful config) atHorizon below passed
  refine ⟨first, begins, early, ?_⟩
  dsimp only
  rw [run_of_generated]
  rcases outcome with ⟨same, undecided⟩ | ⟨stopped, solved⟩
  · refine .inl ⟨ranFrom_of_failed same, fun s before => ?_⟩
    rw [Ledger.isSolved, undecided, below s before]
    rfl
  · exact .inr ⟨ranFrom_of_failed stopped, solved⟩

/-- A run that has failed on a new recursion, made any number of times again. Nothing changes any
more, neither an entry of the ledger nor the phase nor a count. The same error is reported exactly
when nothing was decided before it occurred; else every further run reports that the first state in
the order of the passes was solved before. -/
theorem run_after_failed_run (lawful : P.Lawful) (new : Backward.new P config = .ok b)
    (failed : b.run.1 = .error e) :
    let after := b.run.2
    ∃ first, (order config after.spaces config.horizon).head? = some first ∧
      (after.ledger.isSolved first = true ↔
        ∃ s, P.period s < config.horizon ∧ after.ledger.isSolved s = true) ∧
      ∀ n, let later := after.after (List.replicate n .run)
        later = after ∧ later.run.2 = after ∧
          (later.run.1 = .error e ↔ after.ledger.isSolved first = false) ∧
          (after.ledger.isSolved first = true → later.run.1 = .error (.alreadySolved first)) := by
  intro after
  obtain ⟨first, begins, early, verdict⟩ := run_again lawful new failed
  have unchanged : after.call .run = after := by
    change b.run.2.run.2 = b.run.2
    rcases verdict with ⟨same, -⟩ | ⟨same, -⟩ <;> rw [same]
  refine ⟨first, begins, ⟨fun solved => ⟨first, early, solved⟩, ?_⟩, fun n => ?_⟩
  · rintro ⟨s, before, solved⟩
    rcases verdict with ⟨-, undecided⟩ | ⟨-, decided⟩
    · rw [undecided s before] at solved
      cases solved
    · exact decided
  · rw [after_replicate unchanged n]
    refine ⟨rfl, unchanged, ?_⟩
    rcases verdict with ⟨same, undecided⟩ | ⟨stopped, decided⟩
    · have vacant : after.ledger.isSolved first = false := undecided first early
      rw [same, vacant]
      exact ⟨⟨fun _ => rfl, fun _ => rfl⟩, fun solved => by cases solved⟩
    · have decided : after.ledger.isSolved first = true := decided
      rw [stopped, decided]
      refine ⟨⟨fun same => ?_, fun vacant => by cases vacant⟩, fun _ => rfl⟩
      have twice := (Except.error.inj same).symm
      exact absurd twice (ne_alreadySolved_of_run lawful new failed first)

end Runs

-- The first state is decided before the second one fails, so later runs fail at the first.
theorem run_after_failed_run_stuck :
    let b : Backward Node Int Float := start Explicit.stuck.problem (.exact 1)
    let after := b.run.2
    Backward.new Explicit.stuck.problem (.exact 1) = .ok b ∧
      b.run.1 = .error (.noFeasibleAction ⟨0, 1⟩) ∧ after.ledger.isSolved ⟨0, 0⟩ = true ∧
      ∀ n, let later := after.after (List.replicate n .run)
        later.run.1 = .error (.alreadySolved ⟨0, 0⟩) ∧ later.run.2 = after := by
  intro b after
  have new : Backward.new (Explicit.stuck : Explicit Float).problem (.exact 1) = .ok b := rfl
  have failed : b.run.1 = .error (.noFeasibleAction ⟨0, 1⟩) :=
    failure?_eq_some.1 (by decide +kernel)
  have solved : after.ledger.isSolved ⟨0, 0⟩ = true := by decide +kernel
  obtain ⟨first, begins, -, again⟩ := run_after_failed_run Explicit.stuck.lawful new failed
  have same : first = ⟨0, 0⟩ := by
    have listed : (order (.exact 1 : Config Float) after.spaces 1).head? = some ⟨0, 0⟩ := by
      decide +kernel
    exact Option.some.inj (begins.symm.trans listed)
  subst same
  exact ⟨new, failed, solved, fun n => ⟨(again n).2.2.2 solved, (again n).2.1⟩⟩

theorem failed_run_reports_another_error :
    let b : Backward Node Int Float := start Explicit.stuck.problem (.exact 1)
    failure? b.run.1 = some (.noFeasibleAction ⟨0, 1⟩) ∧
      failure? b.run.2.run.1 = some (.alreadySolved ⟨0, 0⟩) := by
  decide +kernel

end Backward

end Horizon
