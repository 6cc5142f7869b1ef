import Horizon.Proofs.Passes

/-! Histories of calls on one backward recursion.

A recursion is asked to generate its states and to run, fully or to a period, any number of times
and in any order, and a run may stop at an error half way. Each call leaves it `Staged`: what it
holds was entered from the horizon down, and once it is solved to a period, the periods from there
on are complete and those below are untouched. What a call enters no later call takes back, and on a
solved recursion no call does anything.
-/

set_option autoImplicit false

namespace Horizon

def Phase.rank : Phase → Nat
  | .uninitialized => 0
  | .generated => 1
  | .solved _ _ => 2

namespace Backward

open LedgerM
open Ledger (Grows)

variable {σ α ρ : Type} [DecidableEq σ] [DecidableEq α] {P : Problem σ α ρ} {config : Config ρ}
  {b : Backward σ α ρ}

structure Advances (b next : Backward σ α ρ) : Prop where
  rank_le : b.phase.rank ≤ next.phase.rank
  kept : ∀ s d, b.ledger.decision? s = some d → next.ledger.decision? s = some d

theorem Advances.trans {b' b'' : Backward σ α ρ} (first : Advances b b')
    (second : Advances b' b'') :
    Advances b b'' :=
  ⟨Nat.le_trans first.rank_le second.rank_le,
    fun s d stored => second.kept s d (first.kept s d stored)⟩

theorem Advances.refl (b : Backward σ α ρ) : Advances b b :=
  ⟨Nat.le_refl _, fun _ _ => id⟩

theorem unsolved_start [Hashable σ] [Hashable α] (p : Nat) (approximate : Bool) :
    (start P config).phase ≠ .solved p approximate := by
  rintro ⟨⟩

theorem begun_of_solved {p : Nat} {approximate : Bool} (solved : b.phase = .solved p approximate) :
    b.phase ≠ .uninitialized := by
  rw [solved]
  rintro ⟨⟩

inductive Call where
  | generateStates
  | run
  | runToPeriod (target : Nat)
  deriving DecidableEq

variable [Scalar ρ]

def answer (b : Backward σ α ρ) : Call → Except (SolveError σ α) Unit × Backward σ α ρ
  | .generateStates => (.ok (), b.generateStates)
  | .run => b.run
  | .runToPeriod target => b.runToPeriod target

def call (b : Backward σ α ρ) (c : Call) : Backward σ α ρ :=
  (b.answer c).2

def after (b : Backward σ α ρ) (calls : List Call) : Backward σ α ρ :=
  calls.foldl call b

inductive Runs (horizon : Nat) : Call → Nat → Bool → Prop where
  | full : Runs horizon .run 0 false
  | partly (target : Nat) (below : target < horizon) :
    Runs horizon (.runToPeriod target) target true

theorem Runs.le_horizon {horizon target : Nat} {c : Call} {approximate : Bool}
    (runs : Runs horizon c target approximate) : target ≤ horizon := by
  cases runs with
  | full => exact Nat.zero_le horizon
  | partly _ below => exact Nat.le_of_lt below

theorem Runs.answer_eq {target : Nat} {approximate : Bool} {c : Call}
    (runs : Runs b.config.horizon c target approximate) :
    b.answer c = b.runUntil target approximate := by
  cases runs with
  | full => rfl
  | partly _ below => rw [answer, runToPeriod, if_neg (Nat.not_le_of_lt below)]

theorem call_of_beyond {target : Nat} (beyond : b.config.horizon ≤ target) :
    b.call (.runToPeriod target) = b := by
  rw [call, answer, runToPeriod, if_pos beyond]

-- Besides generating the states there is one thing that calls do.
theorem answer_cases (b : Backward σ α ρ) (c : Call) :
    c = .generateStates ∨ b.call c = b ∨ ∃ target approximate,
      Runs b.config.horizon c target approximate ∧ b.answer c = b.runUntil target approximate := by
  cases c with
  | generateStates => exact .inl rfl
  | run => exact .inr (.inr ⟨0, false, .full, rfl⟩)
  | runToPeriod target =>
    by_cases beyond : b.config.horizon ≤ target
    · exact .inr (.inl (call_of_beyond beyond))
    · have runs := Runs.partly target (Nat.lt_of_not_le beyond)
      exact .inr (.inr ⟨target, true, runs, runs.answer_eq⟩)

section Solved

variable {p : Nat} {approximate : Bool}

theorem runUntil_of_solved (solved : b.phase = .solved p approximate) (target : Nat)
    (partly : Bool) : b.runUntil target partly = (.ok (), b) := by
  rw [runUntil, solved]

theorem call_of_solved (solved : b.phase = .solved p approximate) (c : Call) : b.call c = b := by
  rcases b.answer_cases c with rfl | same | ⟨target, partly, -, same⟩
  · rw [call, answer, generateStates, if_neg (begun_of_solved solved)]
  · exact same
  · rw [call, same, runUntil_of_solved solved]

theorem after_of_solved (solved : b.phase = .solved p approximate) (calls : List Call) :
    b.after calls = b := by
  induction calls with
  | nil => rfl
  | cons c rest ih => rwa [after, List.foldl_cons, call_of_solved solved]

end Solved

section Run

variable [Hashable σ] {target : Nat} {approximate : Bool} {c : Call}

/-- The periods from `p` on are complete, and nothing is decided below. -/
structure DecidedFrom (P : Problem σ α ρ) (config : Config ρ) (l : Ledger σ α ρ) (p : Nat) :
    Prop where
  complete : ∀ s, Between config (generatedSpaces P config) p s → ∃ a, l.action s = .ok a
  below : ∀ s, l.isSolved s = true → p ≤ P.period s

structure Readied (P : Problem σ α ρ) (config : Config ρ) (b : Backward σ α ρ)
    (l : Ledger σ α ρ) : Prop where
  descending : Descending P config (generatedSpaces P config) l
  kept : ∀ s d, b.ledger.decision? s = some d → l.decision? s = some d
  seeded : b.phase = .uninitialized →
    ∀ s ∈ statesOf (generatedSpaces P config) config.horizon,
      l.decision? s = some ⟨P.terminal s, none⟩
  same : b.phase ≠ .uninitialized → l = b.ledger

/-- What a run comes to: with the ledger `l` its pass begins, and ends as `ran` says. -/
structure Ran (P : Problem σ α ρ) (config : Config ρ) (b : Backward σ α ρ) (target : Nat)
    (approximate : Bool) (l : Ledger σ α ρ) (t : Tally)
    (ran : Except (SolveError σ α) Unit × Ledger σ α ρ × Tally) : Prop where
  readied : Readied P config b l
  swept : Swept P config (generatedSpaces P config)
    (Between config (generatedSpaces P config) target) (l, t) ran
  result : b.runUntil target approximate = (ran.1, ⟨P, config, generatedSpaces P config, ran.2.1,
    ran.2.2, phaseOf target approximate ran.1⟩)

variable {l : Ledger σ α ρ} {t : Tally}
  {ran : Except (SolveError σ α) Unit × Ledger σ α ρ × Tally}

-- Below the target nothing was decided before: else some state at the target had been decided too,
-- and the pass would not have succeeded.
theorem Ran.decidedFrom (lawful : P.Lawful) (came : Ran P config b target approximate l t ran)
    (runs : Runs config.horizon c target approximate) (done : ran.1 = .ok ()) :
    DecidedFrom P config ran.2.1 target := by
  have complete := complete_generatedSpaces lawful config
  have all := came.swept.complete done
  refine ⟨fun s between => (all s between).2, fun s solved => ?_⟩
  rcases l.vacant_or_solved s with vacant | before
  · obtain ⟨⟨u, above, -, listed⟩, -⟩ := came.swept.grows.new s vacant solved
    rwa [(complete.period_of_mem listed).1]
  · cases runs with
    | full => exact Nat.zero_le _
    | partly _ below =>
      refine Nat.le_of_not_lt fun early => ?_
      obtain ⟨f, listed, decided⟩ :=
        came.readied.descending.exists_solved complete before early (Nat.le_of_lt below)
      have vacant := (all f ⟨target, Nat.le_refl _, below, listed⟩).1
      rw [Ledger.isSolved, vacant] at decided
      cases decided

theorem Ran.advances (came : Ran P config b target approximate l t ran)
    (unsolved : ∀ p a, b.phase ≠ .solved p a) :
    Advances b (b.runUntil target approximate).2 := by
  rw [came.result]
  refine ⟨?_, fun s d stored => came.swept.grows.kept s d (came.readied.kept s d stored)⟩
  have before : b.phase.rank ≤ 1 := by
    cases phase : b.phase with
    | solved p a => exact absurd phase (unsolved p a)
    | uninitialized => exact Nat.zero_le 1
    | generated => exact Nat.le_refl 1
  refine Nat.le_trans before ?_
  cases ran.1 with
  | error e => exact Nat.le_refl 1
  | ok _ => exact Nat.le_succ 1

end Run

variable [Hashable σ] [Hashable α]

structure Staged (P : Problem σ α ρ) (config : Config ρ) (b : Backward σ α ρ) : Prop where
  config_eq : b.config = config
  untouched : b.phase = .uninitialized → b = start P config
  begun : b.phase ≠ .uninitialized →
    b = ⟨P, config, generatedSpaces P config, b.ledger, b.tally, b.phase⟩
  descending : Descending P config (generatedSpaces P config) b.ledger
  reached : ∀ p approximate, b.phase = .solved p approximate →
    ∃ c, Runs config.horizon c p approximate
  decided : ∀ p approximate, b.phase = .solved p approximate → DecidedFrom P config b.ledger p

theorem staged_start : Staged P config (start P config) where
  config_eq := rfl
  untouched _ := rfl
  begun early := absurd rfl early
  descending := by
    refine .of_none (Ledger.expected?_empty _ _) fun s solved => ?_
    rw [start, Ledger.isSolved, Ledger.decision?_empty] at solved
    cases solved
  reached p approximate solved := absurd solved (unsolved_start p approximate)
  decided p approximate solved := absurd solved (unsolved_start p approximate)

theorem Staged.generateStates (staged : Staged P config b) :
    Staged P config b.generateStates ∧ Advances b b.generateStates := by
  by_cases phase : b.phase = .uninitialized
  · have fresh := staged.untouched phase
    subst fresh
    obtain ⟨tally, generated⟩ := generateStates_start P config
    rw [generated]
    refine ⟨⟨rfl, fun early => ?_, fun _ => rfl, staged.descending, fun p a solved => ?_,
      fun p a solved => ?_⟩, Nat.zero_le 1, fun _ _ => id⟩
    · cases early
    · cases solved
    · cases solved
  · have same : b.generateStates = b := by rw [Backward.generateStates, if_neg phase]
    rw [same]
    exact ⟨staged, .refl b⟩

theorem expected?_seeded (P : Problem σ α ρ) (config : Config ρ) (tally : Tally) (s : σ) (a : α) :
    (seeded P config tally).2.1.expected? s a = none := by
  have seeds : Ensures (fun w : Ledger σ α ρ × Tally => ∀ s a, w.1.expected? s a = none)
      (seedTerminal P (generatedSpaces P config)) fun _ => True := by
    unfold seedTerminal
    split
    · refine ensures_forEach fun f _ => ?_
      rintro ⟨l, c⟩ none
      refine ⟨fun s a => ?_, fun _ _ => trivial⟩
      rcases l.vacant_or_solved f with vacant | solved
      · rw [decide_of_vacant _ vacant]
        exact (l.expected?_publish f s a _).trans (none s a)
      · obtain ⟨d, stored⟩ := Ledger.isSolved_iff.1 solved
        rw [decide_of_stored _ stored]
        exact none s a
    · exact (computes_pure ()).ensures.imp fun _ _ => trivial
  exact (seeds _ fun s a => Ledger.expected?_empty _ _ s a).1 s a

section Lawful

variable (lawful : P.Lawful)

include lawful

theorem decision?_seeded (tally : Tally) (s : σ) :
    (seeded P config tally).2.1.decision? s =
      if s ∈ statesOf (generatedSpaces P config) config.horizon then some ⟨P.terminal s, none⟩
      else none := by
  have complete := complete_generatedSpaces lawful config
  rw [(seeded_settles lawful config tally).2.decided, decisionsOf]
  by_cases member : s ∈ statesOf (generatedSpaces P config) config.horizon
  · have period := (complete.period_of_mem member).1
    rw [if_pos member, period, if_pos ⟨member, Nat.le_refl _⟩, Nat.sub_self]
    rfl
  · rw [if_neg member, if_neg]
    rintro ⟨listed, late⟩
    have inside := (complete.period_of_mem listed).2
    rw [Nat.le_antisymm inside late] at listed
    exact member listed

theorem descending_seeded (tally : Tally) :
    Descending P config (generatedSpaces P config) (seeded P config tally).2.1 := by
  refine .of_none (expected?_seeded P config tally) fun s solved => ?_
  rw [Ledger.isSolved, decision?_seeded lawful] at solved
  split at solved
  · next member =>
    exact Nat.le_of_eq ((complete_generatedSpaces lawful config).period_of_mem member).1.symm
  · cases solved

theorem Staged.prepare (staged : Staged P config b) (unsolved : ∀ p a, b.phase ≠ .solved p a) :
    ∃ l c, b.prepare = (.ok (), ⟨P, config, generatedSpaces P config, l, c, .generated⟩) ∧
      Readied P config b l := by
  cases phase : b.phase with
  | solved p a => exact absurd phase (unsolved p a)
  | generated =>
    have begun : b.phase ≠ .uninitialized := by
      rw [phase]
      rintro ⟨⟩
    refine ⟨b.ledger, b.tally, ?_, staged.descending, fun _ _ => id,
      fun early => absurd early begun, fun _ => rfl⟩
    have same := staged.begun begun
    rw [phase] at same
    rw [Backward.prepare, if_neg begun, ← same]
  | uninitialized =>
    have fresh := staged.untouched phase
    subst fresh
    obtain ⟨tally, prepared⟩ := prepare_start lawful config
    refine ⟨_, _, prepared, descending_seeded lawful tally, fun s d stored => ?_,
      fun _ s member => ?_, fun late => absurd phase late⟩
    · rw [start, Ledger.decision?_empty] at stored
      cases stored
    · rw [decision?_seeded lawful, if_pos member]

variable {c : Call} {p target : Nat} {approximate : Bool}

theorem Ran.staged {l : Ledger σ α ρ} {t : Tally}
    {ran : Except (SolveError σ α) Unit × Ledger σ α ρ × Tally}
    (came : Ran P config b target approximate l t ran)
    (runs : Runs config.horizon c target approximate) :
    Staged P config (b.runUntil target approximate).2 := by
  have decided := came.decidedFrom lawful runs
  have descending := came.swept.descending
  rw [came.result]
  rcases ran with ⟨outcome, l', t'⟩
  cases outcome with
  | error e =>
    refine ⟨rfl, fun early => ?_, fun _ => rfl, descending, fun p a reached => ?_,
      fun p a reached => ?_⟩
    · cases early
    · cases reached
    · cases reached
  | ok _ =>
    refine ⟨rfl, fun early => ?_, fun _ => rfl, descending, fun p a reached => ?_,
      fun p a reached => ?_⟩
    · cases early
    · cases reached
      exact ⟨c, runs⟩
    · cases reached
      exact decided rfl

variable [Scalar.Grounded ρ]

theorem Staged.ran (staged : Staged P config b) (unsolved : ∀ p a, b.phase ≠ .solved p a)
    (inside : target ≤ config.horizon) (approximate : Bool) :
    ∃ l t ran, Ran P config b target approximate l t ran := by
  obtain ⟨l, t, prepared, readied⟩ := staged.prepare lawful unsolved
  have swept := swept_pass (w := (l, t)) (complete_generatedSpaces lawful config) inside approximate
    readied.descending
  exact ⟨l, t, _, readied, swept, runUntil_of_prepare prepared target approximate⟩

-- What one call preserves.
theorem Staged.call (staged : Staged P config b) (c : Call) :
    Staged P config (b.call c) ∧ Advances b (b.call c) := by
  rcases b.answer_cases c with rfl | same | ⟨target, approximate, runs, same⟩
  · exact staged.generateStates
  · rw [same]
    exact ⟨staged, .refl b⟩
  · by_cases solved : ∃ p a, b.phase = .solved p a
    · obtain ⟨p, a, solved⟩ := solved
      rw [call_of_solved solved]
      exact ⟨staged, .refl b⟩
    · have unsolved : ∀ p a, b.phase ≠ .solved p a := fun p a phase => solved ⟨p, a, phase⟩
      rw [staged.config_eq] at runs
      obtain ⟨l, t, ran, came⟩ := staged.ran lawful unsolved runs.le_horizon approximate
      rw [Backward.call, same]
      exact ⟨came.staged lawful runs, came.advances unsolved⟩

theorem Staged.after (staged : Staged P config b) (calls : List Call) :
    Staged P config (b.after calls) ∧ Advances b (b.after calls) := by
  induction calls generalizing b with
  | nil => exact ⟨staged, .refl b⟩
  | cons c rest ih =>
    obtain ⟨next, first⟩ := staged.call lawful c
    obtain ⟨last, later⟩ := ih next
    exact ⟨last, first.trans later⟩

theorem Staged.runs_of_call (staged : Staged P config b) (unsolved : ∀ p a, b.phase ≠ .solved p a)
    (solved : (b.call c).phase = .solved p approximate) : Runs config.horizon c p approximate := by
  rcases b.answer_cases c with rfl | same | ⟨target, partly, runs, same⟩
  · rw [Backward.call, answer, Backward.generateStates] at solved
    split at solved
    · cases solved
    · exact absurd solved (unsolved p approximate)
  · rw [same] at solved
    exact absurd solved (unsolved p approximate)
  · rw [staged.config_eq] at runs
    obtain ⟨l, t, ⟨outcome, w⟩, came⟩ := staged.ran lawful unsolved runs.le_horizon partly
    rw [Backward.call, same, came.result] at solved
    cases outcome with
    | error e => cases solved
    | ok _ =>
      cases solved
      exact runs

-- Somewhere in a history that ends solved is the call that solved it.
theorem Staged.exists_run (staged : Staged P config b) (unsolved : ∀ p a, b.phase ≠ .solved p a)
    {calls : List Call} (solved : (b.after calls).phase = .solved p approximate) :
    ∃ earlier c later, calls = earlier ++ c :: later ∧
      (∀ q a, (b.after earlier).phase ≠ .solved q a) ∧
      (b.after (earlier ++ [c])).phase = .solved p approximate ∧
      Runs config.horizon c p approximate := by
  induction calls generalizing b with
  | nil => exact absurd solved (unsolved p approximate)
  | cons c rest ih =>
    by_cases next : ∃ q a, (b.call c).phase = .solved q a
    · obtain ⟨q, a, reached⟩ := next
      have final : (b.call c).phase = .solved p approximate := by
        rw [← after_of_solved reached rest]
        exact solved
      exact ⟨[], c, rest, rfl, unsolved, final, staged.runs_of_call lawful unsolved final⟩
    · obtain ⟨earlier, c', later, same, before, reached, runs⟩ :=
        ih (staged.call lawful c).1 (fun q a phase => next ⟨q, a, phase⟩) solved
      exact ⟨c :: earlier, c', later, congrArg (c :: ·) same, before, reached, runs⟩

end Lawful

omit [Scalar ρ] in
theorem nothing_known_start {space : StateSpace σ} (member : space ∈ (start P config).spaces) :
    space.enumerated = [] ∧ ∀ s, space.contains s = false := by
  obtain ⟨t, -, rfl⟩ := List.mem_map.1 member
  refine ⟨rfl, fun s => ?_⟩
  simp [StateSpace.empty, StateSpace.contains, Store.contains]

/-- Whatever calls are made on a new recursion, and whether or not they fail: as long as nothing has
begun, no state is known and none decided. The periods after a decided state are complete. A solved
recursion is complete from the period it was solved to, with actions, and has no decision below it;
it is marked as approximate exactly when the call that solved it was a partial run, and no further
call changes it. Phases only advance, and decisions stay as they are. -/
theorem history_invariant [Scalar.Grounded ρ] (lawful : P.Lawful)
    (new : Backward.new P config = .ok b) (calls : List Call) :
    let now := b.after calls
    (now.phase = .uninitialized →
      (∀ space ∈ now.spaces, space.enumerated = [] ∧ ∀ s, space.contains s = false) ∧
        ∀ s, now.ledger.decision? s = none) ∧
      (∀ s, now.ledger.isSolved s = true →
        ∀ u, P.period s < u → u < config.horizon → ∀ s' ∈ statesOf now.spaces u,
          now.ledger.isSolved s' = true) ∧
      (∀ p approximate, now.phase = .solved p approximate →
        (∀ u, p ≤ u → u < config.horizon → ∀ s ∈ statesOf now.spaces u,
          ∃ a, now.ledger.action s = .ok a) ∧
        (∀ s, P.period s < p → now.ledger.decision? s = none) ∧
        (∃ earlier c later, calls = earlier ++ c :: later ∧
          (∀ q a, (b.after earlier).phase ≠ .solved q a) ∧
          (b.after (earlier ++ [c])).phase = .solved p approximate ∧
          (approximate = true ↔ ∃ target, c = .runToPeriod target)) ∧
        ∀ more, now.after more = now) ∧
      ∀ more, now.phase.rank ≤ (now.after more).phase.rank ∧
        ∀ s d, now.ledger.decision? s = some d → (now.after more).ledger.decision? s = some d := by
  have fresh := (new_eq_ok_iff.1 new).2.2
  subst fresh
  intro now
  obtain ⟨staged, -⟩ := staged_start.after lawful calls
  have spaces : now.phase ≠ .uninitialized → now.spaces = generatedSpaces P config :=
    fun begun => congrArg Backward.spaces (staged.begun begun)
  refine ⟨fun early => ?_, fun s solved u above below s' listed => ?_,
    fun p approximate solved => ⟨fun u above below s listed => ?_, fun s early => ?_, ?_, ?_⟩,
    fun more => ?_⟩
  · have untouched : now = start P config := staged.untouched early
    rw [untouched]
    exact ⟨fun space => nothing_known_start, Ledger.decision?_empty _ _⟩
  · by_cases early : now.phase = .uninitialized
    · have untouched : now = start P config := staged.untouched early
      rw [untouched, start, Ledger.isSolved, Ledger.decision?_empty] at solved
      cases solved
    · rw [spaces early] at listed
      exact staged.descending.later s solved u above below s' listed
  · rw [spaces (begun_of_solved solved)] at listed
    exact (staged.decided p approximate solved).complete s ⟨u, above, below, listed⟩
  · rcases now.ledger.vacant_or_solved s with vacant | decided
    · exact vacant
    · have above := (staged.decided p approximate solved).below s decided
      exact absurd early (Nat.not_lt_of_le above)
  · obtain ⟨earlier, c, later, same, before, reached, runs⟩ :=
      staged_start.exists_run lawful unsolved_start solved
    refine ⟨earlier, c, later, same, before, reached, ?_⟩
    cases runs with
    | full => simp
    | partly target _ => exact ⟨fun _ => ⟨p, rfl⟩, fun _ => rfl⟩
  · exact after_of_solved solved
  · obtain ⟨-, advances⟩ := staged.after lawful more
    exact ⟨advances.rank_le, advances.kept⟩

-- A partial run of `Explicit.uneven` that is followed by other calls.
theorem history_invariant_uneven :
    let b : Backward Node Int Float := start Explicit.uneven.problem (.exact 2)
    let now := b.after [.runToPeriod 2, .runToPeriod 1, .generateStates, .run]
    Backward.new Explicit.uneven.problem (.exact 2) = .ok b ∧ now.phase = .solved 1 true ∧
      (∀ s ∈ statesOf now.spaces 1, ∃ a, now.ledger.action s = .ok a) ∧
      ∀ s, s.period < 1 → now.ledger.decision? s = none := by
  intro b now
  have new : Backward.new (Explicit.uneven : Explicit Float).problem (.exact 2) = .ok b := rfl
  have solved : now.phase = .solved 1 true := by decide +kernel
  obtain ⟨-, -, invariant, -⟩ := history_invariant Explicit.uneven.lawful new
    [.runToPeriod 2, .runToPeriod 1, .generateStates, .run]
  obtain ⟨complete, below, -⟩ := invariant 1 true solved
  exact ⟨new, solved, complete 1 (Nat.le_refl 1) (by decide), below⟩

end Backward

end Horizon
