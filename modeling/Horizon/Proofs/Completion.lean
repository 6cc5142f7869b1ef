import Horizon.Proofs.History

/-! Which runs leave states without a decision although they report success.

The terminal values are entered when the first run begins, but only if the states have not been
generated by then. After a call that generates them no state is ever decided (`Barren`), and a run
succeeds only if there is no state to decide. A run after a partial run succeeds without deciding
anything more. In every other history a run that succeeds has decided all states
(`run_completes_iff`).
-/

set_option autoImplicit false

namespace Horizon.Backward

open LedgerM

def runsFirst (horizon : Nat) : List Call → Bool
  | [] => true
  | .generateStates :: _ => false
  | .run :: _ => true
  | .runToPeriod target :: rest => target < horizon || runsFirst horizon rest

theorem runsFirst_append_run (horizon : Nat) (calls : List Call) :
    runsFirst horizon (calls ++ [.run]) = runsFirst horizon calls := by
  induction calls with
  | nil => rfl
  | cons c rest ih =>
    cases c with
    | generateStates => rfl
    | run => rfl
    | runToPeriod target => exact congrArg (decide (target < horizon) || ·) ih

variable {σ α ρ : Type} [DecidableEq σ] [DecidableEq α] {P : Problem σ α ρ} {config : Config ρ}
  {b : Backward σ α ρ}

/-- Nothing is decided, and the terminal values will not be entered any more. -/
structure Barren (b : Backward σ α ρ) : Prop where
  begun : b.phase ≠ .uninitialized
  vacant : ∀ s, b.ledger.decision? s = none

theorem seedTerminal_of_none {spaces : List (StateSpace σ)} (complete : Complete P config spaces)
    (none : statesOf spaces config.horizon = []) (w : Ledger σ α ρ × Tally) :
    seedTerminal P spaces w = (.ok (), w) := by
  obtain ⟨last, isLast, -, states⟩ := complete.exists_last
  unfold seedTerminal
  rw [isLast]
  change forEach _ last.enumerated w = _
  rw [← states, none]
  rfl

theorem valueFunction_eq_ok_iff {t : Nat} {space : StateSpace σ}
    (found : b.spaces[t]? = some space) :
    (∃ table, b.valueFunction t = .ok table) ↔
      ∀ s ∈ statesOf b.spaces t, b.ledger.isSolved s = true := by
  have entered : ∀ s, (∃ row, entry b.ledger s = .ok row) ↔ b.ledger.isSolved s = true := by
    intro s
    rw [entry, Ledger.isSolved]
    cases b.ledger.decision? s with
    | none => exact ⟨by rintro ⟨row, ⟨⟩⟩, by rintro ⟨⟩⟩
    | some d => exact ⟨fun _ => rfl, fun _ => ⟨_, rfl⟩⟩
  rw [valueFunction, statesOf, found]
  constructor
  · rintro ⟨table, done⟩ s member
    exact (entered s).1 (exists_ok_of_mapM done s member)
  · intro solved
    exact exists_mapM_of_exists fun s member => (entered s).2 (solved s member)

theorem isApproximate_iff : b.isApproximate = true ↔ ∃ p, b.phase = .solved p true := by
  rw [isApproximate]
  cases b.phase with
  | uninitialized => simp
  | generated => simp
  | solved p approximate => simp

variable [Scalar ρ]

theorem after_append_run (calls : List Call) :
    b.after (calls ++ [.run]) = (b.after calls).run.2 := by
  rw [after, List.foldl_append]
  rfl

section Run

variable [Hashable σ] {target : Nat} {approximate : Bool} {l : Ledger σ α ρ} {t : Tally}
  {ran : Except (SolveError σ α) Unit × Ledger σ α ρ × Tally}

-- A first decision needs one at the horizon, which no pass makes.
theorem Ran.vacant (lawful : P.Lawful) (came : Ran P config b target approximate l t ran)
    (vacant : ∀ s, l.decision? s = none) (s : σ) : ran.2.1.decision? s = none := by
  have complete := complete_generatedSpaces lawful config
  have early : ∀ s, ran.2.1.isSolved s = true → P.period s < config.horizon := by
    intro s solved
    obtain ⟨⟨u, -, below, listed⟩, -⟩ := came.swept.grows.new s (vacant s) solved
    rwa [(complete.period_of_mem listed).1]
  rcases ran.2.1.vacant_or_solved s with none | solved
  · exact none
  · obtain ⟨f, last, decided⟩ :=
      came.swept.descending.exists_solved complete solved (early s solved) (Nat.le_refl _)
    have below := early f decided
    rw [(complete.period_of_mem last).1] at below
    exact absurd below (Nat.lt_irrefl _)

theorem Ran.eq_ok_iff (lawful : P.Lawful) (came : Ran P config b target approximate l t ran)
    (vacant : ∀ s, l.decision? s = none) :
    ran.1 = .ok () ↔
      ∀ u, target ≤ u → u < config.horizon → statesOf (generatedSpaces P config) u = [] := by
  constructor
  · intro done u above below
    refine List.eq_nil_iff_forall_not_mem.2 fun s listed => ?_
    obtain ⟨-, a, acted⟩ := came.swept.complete done s ⟨u, above, below, listed⟩
    have solved := Ledger.isSolved_of_action acted
    rw [Ledger.isSolved, came.vacant lawful vacant s] at solved
    cases solved
  · intro empty
    rw [came.swept.idle]
    rintro s ⟨u, above, below, listed⟩
    rw [empty u above below] at listed
    cases listed

end Run

variable [Hashable σ] [Hashable α]

theorem barren_generateStates : Barren (start P config).generateStates := by
  obtain ⟨tally, generated⟩ := generateStates_start P config
  rw [generated]
  exact ⟨by rintro ⟨⟩, Ledger.decision?_empty _ _⟩

variable [Scalar.Grounded ρ]

section Lawful

variable (lawful : P.Lawful)

include lawful

theorem Barren.call (barren : Barren b) (staged : Staged P config b) (c : Call) :
    Barren (b.call c) := by
  rcases b.answer_cases c with rfl | same | ⟨target, approximate, runs, same⟩
  · rw [Backward.call, answer, generateStates, if_neg barren.begun]
    exact barren
  · rwa [same]
  · by_cases solved : ∃ p a, b.phase = .solved p a
    · obtain ⟨p, a, solved⟩ := solved
      rwa [call_of_solved solved]
    · have unsolved : ∀ p a, b.phase ≠ .solved p a := fun p a phase => solved ⟨p, a, phase⟩
      rw [staged.config_eq] at runs
      obtain ⟨l, t, ran, came⟩ := staged.ran lawful unsolved runs.le_horizon approximate
      have vacant := came.vacant lawful
      rw [came.readied.same barren.begun] at vacant
      rw [Backward.call, same, came.result]
      refine ⟨?_, vacant barren.vacant⟩
      cases ran.1 with
      | error e => rintro ⟨⟩
      | ok _ => rintro ⟨⟩

theorem Barren.after (barren : Barren b) (staged : Staged P config b) (calls : List Call) :
    Barren (b.after calls) := by
  induction calls generalizing b with
  | nil => exact barren
  | cons c rest ih => exact ih (barren.call lawful staged c) (staged.call lawful c).1

theorem decision?_of_first_run {target : Nat} (inside : target ≤ config.horizon)
    (approximate : Bool) {s : σ} (member : s ∈ statesOf (generatedSpaces P config) config.horizon) :
    ((start P config).runUntil target approximate).2.ledger.decision? s =
      some ⟨P.terminal s, none⟩ := by
  obtain ⟨l, t, ran, came⟩ := staged_start.ran lawful unsolved_start inside approximate
  rw [came.result]
  exact came.swept.grows.kept s _ (came.readied.seeded rfl s member)

omit [Scalar.Grounded ρ] in
theorem runUntil_generateStates_of_none (target : Nat) (approximate : Bool)
    (none : statesOf (generatedSpaces P config) config.horizon = []) :
    (start P config).generateStates.runUntil target approximate =
      (start P config).runUntil target approximate := by
  obtain ⟨tally, generated⟩ := generateStates_start P config
  have phase : (start P config).phase = .uninitialized := rfl
  have prepared : (start P config).prepare = (.ok (), ⟨P, config, generatedSpaces P config,
      .empty config.storage config.discount, tally, .generated⟩) := by
    rw [prepare, if_pos phase, generated]
    dsimp only [perform]
    rw [seedTerminal_of_none (complete_generatedSpaces lawful config) none]
  rw [runUntil_of_prepare prepared target approximate, generated]
  exact runUntil_of_prepare rfl target approximate

/-- Generating the states by a call of its own makes every run after it another one, unless no state
is enumerated for the horizon. It decides nothing: it succeeds only when there is nothing to decide
in the periods that it goes through, while the run on a new recursion at least enters the terminal
values. Generating the states again makes no difference. -/
theorem run_after_generateStates (new : Backward.new P config = .ok b) {c : Call} {target : Nat}
    {approximate : Bool} (runs : Runs config.horizon c target approximate) :
    let spaces := b.generateStates.spaces
    let early := b.generateStates.answer c
    let direct := b.answer c
    b.generateStates.generateStates = b.generateStates ∧
      (early.1 = .ok () ↔ ∀ t, target ≤ t → t < config.horizon → statesOf spaces t = []) ∧
      (∀ s, early.2.ledger.decision? s = none) ∧
      (∀ s ∈ statesOf spaces config.horizon,
        direct.2.ledger.decision? s = some ⟨P.terminal s, none⟩) ∧
      (early = direct ↔ statesOf spaces config.horizon = []) := by
  have fresh := (new_eq_ok_iff.1 new).2.2
  subst fresh
  have staged : Staged P config (start P config).generateStates := staged_start.generateStates.1
  have barren : Barren (start P config).generateStates := barren_generateStates
  obtain ⟨tally, generated⟩ := generateStates_start P config
  rw [generated] at staged barren
  obtain ⟨l, t, ran, came⟩ := staged.ran lawful (by rintro p a ⟨⟩) runs.le_horizon approximate
  have vacant : ∀ s, l.decision? s = none := by
    rw [came.readied.same barren.begun]
    exact barren.vacant
  intro spaces early direct
  have states : spaces = generatedSpaces P config := congrArg Backward.spaces generated
  have ranDirect : direct = (start P config).runUntil target approximate := runs.answer_eq
  have ranEarly : early = (start P config).generateStates.runUntil target approximate := by
    change (start P config).generateStates.answer c = _
    rw [generated]
    exact runs.answer_eq
  rw [states, ranEarly, ranDirect, generated]
  refine ⟨rfl, ?_, ?_, fun s => decision?_of_first_run lawful runs.le_horizon approximate, ?_, ?_⟩
  · rw [came.result]
    exact came.eq_ok_iff lawful vacant
  · rw [came.result]
    exact came.vacant lawful vacant
  · intro same
    refine List.eq_nil_iff_forall_not_mem.2 fun s member => ?_
    have entered := decision?_of_first_run lawful runs.le_horizon approximate member
    rw [← same, came.result] at entered
    cases (came.vacant lawful vacant s).symm.trans entered
  · rw [← generated]
    exact runUntil_generateStates_of_none lawful target approximate

end Lawful

-- On `Explicit.uneven` a run succeeds, and fails when the states have been generated before.
theorem run_after_generateStates_uneven :
    let b : Backward Node Int Float := start Explicit.uneven.problem (.exact 2)
    Backward.new Explicit.uneven.problem (.exact 2) = .ok b ∧ Runs 2 .run 0 false ∧
      b.run.1 = .ok () ∧ b.generateStates.run.1 ≠ .ok () ∧
      ∀ s, b.generateStates.run.2.ledger.decision? s = none := by
  intro b
  have new : Backward.new (Explicit.uneven : Explicit Float).problem (.exact 2) = .ok b := rfl
  obtain ⟨-, succeeds, vacant, -⟩ := run_after_generateStates Explicit.uneven.lawful new .full
  refine ⟨new, .full, run_uneven, fun done => ?_, vacant⟩
  have first : statesOf b.generateStates.spaces 0 ≠ [] := by decide +kernel
  exact first (succeeds.1 done 0 (Nat.le_refl 0) (by decide))

theorem generateStates_changes_run :
    let b : Backward Node Int Float := start Explicit.uneven.problem (.exact 2)
    b.run.2.phase = .solved 0 false ∧ b.generateStates.run.2.phase = .generated := by
  decide +kernel

section Lawful

variable (lawful : P.Lawful)

include lawful

theorem isSolved_after_first_run {c : Call} {target : Nat} {approximate : Bool}
    (runs : Runs config.horizon c target approximate) (rest : List Call) {s : σ}
    (member : s ∈ statesOf (generatedSpaces P config) config.horizon) :
    ((start P config).after (c :: rest)).ledger.isSolved s = true := by
  have entered := decision?_of_first_run lawful runs.le_horizon approximate member
  rw [← runs.answer_eq] at entered
  obtain ⟨-, later⟩ := (staged_start.call lawful c).1.after lawful rest
  exact Ledger.isSolved_iff.2 ⟨_, later.kept s _ entered⟩

theorem after_of_runsFirst {calls : List Call} (first : runsFirst config.horizon calls = true) :
    ((start P config).after calls).phase = .uninitialized ∨
      ∀ s ∈ statesOf (generatedSpaces P config) config.horizon,
        ((start P config).after calls).ledger.isSolved s = true := by
  induction calls with
  | nil => exact .inl rfl
  | cons c rest ih =>
    cases c with
    | generateStates => cases first
    | run => exact .inr fun s => isSolved_after_first_run lawful .full rest
    | runToPeriod target =>
      by_cases below : target < config.horizon
      · exact .inr fun s => isSolved_after_first_run lawful (.partly target below) rest
      · have later : runsFirst config.horizon rest = true := by simpa [runsFirst, below] using first
        have same : (start P config).call (.runToPeriod target) = start P config :=
          call_of_beyond (Nat.le_of_not_lt below)
        rw [after, List.foldl_cons, same]
        exact ih later

theorem barren_after_of_not_runsFirst {calls : List Call}
    (first : runsFirst config.horizon calls = false) : Barren ((start P config).after calls) := by
  induction calls with
  | nil => cases first
  | cons c rest ih =>
    cases c with
    | generateStates =>
      exact barren_generateStates.after lawful staged_start.generateStates.1 rest
    | run => cases first
    | runToPeriod target =>
      by_cases below : target < config.horizon
      · simp [runsFirst, below] at first
      · have later : runsFirst config.horizon rest = false := by
          simpa [runsFirst, below] using first
        have same : (start P config).call (.runToPeriod target) = start P config :=
          call_of_beyond (Nat.le_of_not_lt below)
        rw [after, List.foldl_cons, same]
        exact ih later

-- What is decided at the horizon was entered by the first run, or there is nothing to enter.
theorem solved_atHorizon_iff {calls : List Call}
    (begun : ((start P config).after calls).phase ≠ .uninitialized) :
    (∀ s ∈ statesOf ((start P config).after calls).spaces config.horizon,
        ((start P config).after calls).ledger.isSolved s = true) ↔
      runsFirst config.horizon calls = true ∨
        statesOf ((start P config).after calls).spaces config.horizon = [] := by
  have spaces : ((start P config).after calls).spaces = generatedSpaces P config :=
    congrArg Backward.spaces ((staged_start.after lawful calls).1.begun begun)
  rw [spaces]
  cases first : runsFirst config.horizon calls with
  | true =>
    refine ⟨fun _ => .inl rfl, fun _ => ?_⟩
    rcases after_of_runsFirst lawful first with early | decided
    · exact absurd early begun
    · exact decided
  | false =>
    have vacant := (barren_after_of_not_runsFirst lawful first).vacant
    constructor
    · intro solved
      refine .inr (List.eq_nil_iff_forall_not_mem.2 fun s listed => ?_)
      have held := solved s listed
      rw [Ledger.isSolved, vacant s] at held
      cases held
    · rintro (never | empty)
      · cases never
      · rw [empty]
        exact fun s listed => absurd listed List.not_mem_nil

theorem phase_of_run (staged : Staged P config b) (done : b.run.1 = .ok ())
    (exact : b.isApproximate = false) : b.run.2.phase = .solved 0 false := by
  cases phase : b.phase with
  | solved p approximate =>
    obtain ⟨c, runs⟩ := staged.reached p approximate phase
    rw [isApproximate, phase] at exact
    subst exact
    cases runs
    rwa [run, runUntil_of_solved phase]
  | uninitialized | generated =>
    have unsolved : ∀ p a, b.phase ≠ .solved p a := by
      rw [phase]
      rintro p a ⟨⟩
    obtain ⟨l, t, ran, came⟩ := staged.ran lawful unsolved (Nat.zero_le _) false
    rw [run, came.result] at done ⊢
    rw [done]
    rfl

omit [Scalar.Grounded ρ] in
theorem valueFunction_of_solved (staged : Staged P config b) (solved : b.phase = .solved 0 false) :
    (∀ t ≤ config.horizon, ∃ table, b.valueFunction t = .ok table) ↔
      ∀ s ∈ statesOf b.spaces config.horizon, b.ledger.isSolved s = true := by
  have spaces : b.spaces = generatedSpaces P config :=
    congrArg Backward.spaces (staged.begun (begun_of_solved solved))
  have each : ∀ t ≤ config.horizon, (∃ table, b.valueFunction t = .ok table) ↔
      ∀ s ∈ statesOf b.spaces t, b.ledger.isSolved s = true := by
    intro t inside
    obtain ⟨space, found, -⟩ := (complete_generatedSpaces lawful config).exists_space inside
    rw [← spaces] at found
    exact valueFunction_eq_ok_iff found
  constructor
  · intro all
    exact (each config.horizon (Nat.le_refl _)).1 (all _ (Nat.le_refl _))
  · intro last t inside
    refine (each t inside).2 fun s listed => ?_
    rcases Nat.lt_or_eq_of_le inside with below | rfl
    · rw [spaces] at listed
      obtain ⟨a, acted⟩ :=
        (staged.decided 0 false solved).complete s ⟨t, Nat.zero_le t, below, listed⟩
      exact Ledger.isSolved_of_action acted
    · exact last s listed

/-- When a run reports success, it has solved all periods, and every table from zero to the horizon
can be read, unless a partial run came before, or the states were generated before the first run
and there are states at the horizon. After a partial run it changes nothing. -/
theorem run_completes_iff (new : Backward.new P config = .ok b) (calls : List Call)
    (done : (b.after calls).run.1 = .ok ()) :
    let before := b.after calls
    let after := before.run.2
    ((after.phase = .solved 0 false ∧
        ∀ t ≤ config.horizon, ∃ table, after.valueFunction t = .ok table) ↔
      before.isApproximate = false ∧ (runsFirst config.horizon calls = true ∨
        statesOf after.spaces config.horizon = [])) ∧
      (before.isApproximate = true → after = before) := by
  have fresh := (new_eq_ok_iff.1 new).2.2
  subst fresh
  intro before after
  obtain ⟨staged, -⟩ : Staged P config before ∧ _ := staged_start.after lawful calls
  by_cases partly : before.isApproximate = true
  · obtain ⟨p, phase⟩ := isApproximate_iff.1 partly
    have same : after = before := congrArg Prod.snd (runUntil_of_solved phase 0 false)
    refine ⟨⟨?_, ?_⟩, fun _ => same⟩
    · rintro ⟨final, -⟩
      rw [same, phase] at final
      cases final
    · rintro ⟨exact, -⟩
      rw [partly] at exact
      cases exact
  · have exact : before.isApproximate = false := eq_false_of_ne_true partly
    have final : after.phase = .solved 0 false := phase_of_run lawful staged done exact
    have tables := valueFunction_of_solved lawful (staged.call lawful .run).1 final
    -- the run is one more call of the history
    have begun : ((start P config).after (calls ++ [.run])).phase ≠ .uninitialized := by
      rw [after_append_run]
      exact begun_of_solved final
    have last := solved_atHorizon_iff lawful begun
    rw [after_append_run, runsFirst_append_run] at last
    refine ⟨⟨fun complete => ⟨exact, last.1 (tables.1 complete.2)⟩,
      fun first => ⟨final, tables.2 (last.2 first.2)⟩⟩, fun approximate => ?_⟩
    exact absurd approximate partly

end Lawful

-- Two runs to period 1 of `Explicit.uneven`, the second of them by a call of `run`.
theorem run_completes_iff_uneven :
    let b : Backward Node Int Float := start Explicit.uneven.problem (.exact 2)
    let before := b.after [.runToPeriod 1]
    Backward.new Explicit.uneven.problem (.exact 2) = .ok b ∧ before.run.1 = .ok () ∧
      before.run.2 = before ∧ ¬(before.run.2.phase = .solved 0 false ∧
        ∀ t ≤ 2, ∃ table, before.run.2.valueFunction t = .ok table) := by
  intro b before
  have new : Backward.new (Explicit.uneven : Explicit Float).problem (.exact 2) = .ok b := rfl
  have approximate : before.isApproximate = true := by decide +kernel
  have done : before.run.1 = .ok () := by
    obtain ⟨p, phase⟩ := isApproximate_iff.1 approximate
    rw [run, runUntil_of_solved phase]
  obtain ⟨completes, unchanged⟩ :=
    run_completes_iff Explicit.uneven.lawful new [.runToPeriod 1] done
  refine ⟨new, done, unchanged approximate, fun complete => ?_⟩
  cases approximate.symm.trans (completes.1 complete).1

theorem run_after_partial_run :
    let b : Backward Node Int Float := start Explicit.uneven.problem (.exact 2)
    let after := (b.after [.runToPeriod 1]).run
    after.1.toOption = some () ∧ after.2.phase = .solved 1 true ∧
      ⟨0, 0⟩ ∈ statesOf after.2.spaces 0 ∧ after.2.ledger.isSolved ⟨0, 0⟩ = false := by
  decide +kernel

end Horizon.Backward
