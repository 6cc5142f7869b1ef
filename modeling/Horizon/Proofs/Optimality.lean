import Mathlib.Tactic.Ring
import Horizon.Proofs.Rational
import Horizon.Proofs.Agreement

/-! Solved policies are optimal.

What a policy collects is read off the courses that events may take (`courses`): each has a chance,
the product of the chances of its outcomes, and a discounted value. The chances add up to one, so
the expected value of a policy obeys the recursion of Bellman with its own actions
(`expectedReturn_succ`), and induction on the periods left compares it with the optimal values.
-/

set_option autoImplicit false

namespace Horizon

variable {σ α : Type}

namespace Problem

/-- The courses that events may take under a policy when a number of periods is left, each with its
chance and its discounted value. -/
def courses (P : Problem σ α ℚ) (discount : ℚ) (policy : σ → α) : Nat → σ → List (ℚ × ℚ)
  | 0, s => [(1, P.terminal s)]
  | left + 1, s =>
    let a := policy s
    (P.outcomes s a).flatMap fun f =>
      (courses P discount policy left f).map fun c =>
        (P.share s a (P.outcomes s a) f * c.1, P.immediate s a f + discount * c.2)

def expectedReturn (P : Problem σ α ℚ) (discount : ℚ) (policy : σ → α) (left : Nat) (s : σ) : ℚ :=
  ((P.courses discount policy left s).map fun c => c.1 * c.2).sum

def Feasible (P : Problem σ α ℚ) (horizon : Nat) (policy : σ → α) : Prop :=
  ∀ t < horizon, ∀ s ∈ P.domain t, policy s ∈ P.actions s

def Massive (P : Problem σ α ℚ) (horizon : Nat) : Prop :=
  ∀ t < horizon, ∀ s ∈ P.domain t, ∀ a ∈ P.actions s, P.Weighable s a (P.outcomes s a)

section Following

variable {P : Problem σ α ℚ} {discount : ℚ} {horizon : Nat} {policy : σ → α}

theorem expectation_congr {value value' : σ → ℚ} {s : σ} {a : α} {finals : List σ}
    (each : ∀ f ∈ finals, value f = value' f) :
    P.expectation discount value s a finals = P.expectation discount value' s a finals := by
  rw [expectation_eq_sum, expectation_eq_sum]
  apply congrArg List.sum
  apply List.map_congr_left
  intro f member
  rw [each f member]

theorem sum_map_courses_succ (h : ℚ × ℚ → ℚ) (left : Nat) (s : σ) :
    ((P.courses discount policy (left + 1) s).map h).sum =
      ((P.outcomes s (policy s)).map fun f =>
        ((P.courses discount policy left f).map fun c =>
          h (P.share s (policy s) (P.outcomes s (policy s)) f * c.1,
            P.immediate s (policy s) f + discount * c.2)).sum).sum := by
  rw [courses, List.map_flatMap, List.flatMap_def, List.sum_flatten, List.map_map]
  apply congrArg List.sum
  apply List.map_congr_left
  intro f _
  rw [Function.comp, List.map_map]
  rfl

theorem sum_step (share immediate : ℚ) (courses : List (ℚ × ℚ)) :
    (courses.map fun c => share * c.1 * (immediate + discount * c.2)).sum =
      share * (immediate * (courses.map Prod.fst).sum +
        discount * (courses.map fun c => c.1 * c.2).sum) := by
  induction courses with
  | nil => simp
  | cons c rest ih =>
    simp only [List.map_cons, List.sum_cons, ih]
    ring

variable (closed : P.Closed horizon) (massive : P.Massive horizon)
  (feasible : P.Feasible horizon policy) {left : Nat} {s : σ}

include closed feasible in
theorem mem_domain_of_outcome (inside : left + 1 ≤ horizon)
    (member : s ∈ P.domain (horizon - (left + 1))) {f : σ}
    (outcome : f ∈ P.outcomes s (policy s)) : f ∈ P.domain (horizon - left) := by
  have taken := feasible _ (by omega) s member
  have next := closed _ (by omega) s member _ taken f outcome
  rwa [show horizon - (left + 1) + 1 = horizon - left by omega] at next

include closed massive feasible

theorem sum_chances (inside : left ≤ horizon) (member : s ∈ P.domain (horizon - left)) :
    ((P.courses discount policy left s).map Prod.fst).sum = 1 := by
  induction left generalizing s with
  | zero => simp [courses]
  | succ left ih =>
    have weighable := massive _ (by omega) s member _ (feasible _ (by omega) s member)
    have later : ∀ f ∈ P.outcomes s (policy s),
        ((P.courses discount policy left f).map Prod.fst).sum = 1 :=
      fun f outcome => ih (by omega) (mem_domain_of_outcome closed feasible inside member outcome)
    rw [sum_map_courses_succ, ← weighable.sum_share]
    apply congrArg List.sum
    apply List.map_congr_left
    intro f outcome
    rw [List.sum_map_mul_left, later f outcome, mul_one]

theorem expectedReturn_succ (inside : left + 1 ≤ horizon)
    (member : s ∈ P.domain (horizon - (left + 1))) :
    P.expectedReturn discount policy (left + 1) s =
      P.expectation discount (P.expectedReturn discount policy left) s (policy s)
        (P.outcomes s (policy s)) := by
  -- the immediate value is collected on all courses after an outcome, whose chances sum to one
  rw [expectedReturn, sum_map_courses_succ, expectation_eq_sum]
  apply congrArg List.sum
  apply List.map_congr_left
  intro f outcome
  have next := mem_domain_of_outcome closed feasible inside member outcome
  rw [sum_step, sum_chances closed massive feasible (by omega) next, mul_one]
  rfl

end Following

/-- What a successful run says of a problem whose outcomes are all kept. -/
structure Solved (P : Problem σ α ℚ) (config : Config ℚ) (kept : σ → α → List σ) : Prop where
  closed : P.Closed config.horizon
  discount_nonneg : 0 ≤ config.discount
  kept_eq : ∀ t < config.horizon, ∀ s ∈ P.domain t, ∀ a ∈ P.actions s, kept s a = P.outcomes s a
  solvable : ∀ t < config.horizon, ∀ s ∈ P.domain t,
    P.Solvable config kept (config.horizon - (t + 1)) s

namespace Solved

variable {P : Problem σ α ℚ} {config : Config ℚ} {kept : σ → α → List σ} {policy : σ → α}
  {left : Nat} {s : σ} (solved : P.Solved config kept)

include solved

theorem massive : P.Massive config.horizon := by
  intro t before s member a feasible
  have weighable := (solved.solvable t before s member).weighable a feasible
  rwa [solved.kept_eq t before s member a feasible] at weighable

theorem solvable_left (inside : left + 1 ≤ config.horizon)
    (member : s ∈ P.domain (config.horizon - (left + 1))) : P.Solvable config kept left s := by
  have solvable := solved.solvable _ (by omega) s member
  rwa [show config.horizon - (config.horizon - (left + 1) + 1) = left by omega] at solvable

-- By induction on the periods left. A policy may lose against the optimal values in two ways, in
-- the values of its outcomes and in its action.
theorem not_improves (feasible : P.Feasible config.horizon policy) (inside : left ≤ config.horizon)
    (member : s ∈ P.domain (config.horizon - left)) :
    config.direction.improves (P.expectedReturn config.discount policy left s)
      (P.optimal config kept left s).value = false := by
  induction left generalizing s with
  | zero =>
    have terminal : P.expectedReturn config.discount policy 0 s = P.terminal s := by
      simp [expectedReturn, courses]
    rw [terminal]
    exact config.direction.improves_irrefl _
  | succ left ih =>
    have taken := feasible _ (by omega) s member
    have outcomes := solved.kept_eq _ (by omega) s member _ taken
    have weighable := solved.massive _ (by omega) s member _ taken
    have later : config.direction.improves (P.expectedReturn config.discount policy (left + 1) s)
        (P.actionValue config kept left s (policy s)) = false := by
      rw [expectedReturn_succ solved.closed solved.massive feasible inside member, actionValue,
        outcomes]
      apply improves_expectation weighable solved.discount_nonneg _
      intro f outcome
      exact ih (by omega) (mem_domain_of_outcome solved.closed feasible inside member outcome)
    obtain ⟨a, first, attained⟩ := (solved.solvable_left inside member).isFirstBest
    have best : config.direction.improves (P.actionValue config kept left s (policy s))
        (P.optimal config kept (left + 1) s).value = false := by
      rw [attained]
      exact first.unbeaten (List.mem_map_of_mem taken)
    exact config.direction.not_improves_trans _ _ _ rfl later best

theorem expectedReturn_eq (feasible : P.Feasible config.horizon policy)
    (taken : ∀ left, left + 1 ≤ config.horizon → ∀ s ∈ P.domain (config.horizon - (left + 1)),
      (P.optimal config kept (left + 1) s).action = some (policy s))
    (inside : left ≤ config.horizon) (member : s ∈ P.domain (config.horizon - left)) :
    P.expectedReturn config.discount policy left s = (P.optimal config kept left s).value := by
  induction left generalizing s with
  | zero => simp [expectedReturn, courses, optimal]
  | succ left ih =>
    have action := taken left inside s member
    obtain ⟨a, -, attained⟩ := (solved.solvable_left inside member).isFirstBest
    rw [attained] at action
    cases action
    rw [expectedReturn_succ solved.closed solved.massive feasible inside member, attained,
      actionValue, solved.kept_eq _ (by omega) s member _ (feasible _ (by omega) s member)]
    apply expectation_congr
    intro f outcome
    exact ih (by omega) (mem_domain_of_outcome solved.closed feasible inside member outcome)

end Solved

end Problem

variable [DecidableEq σ] [DecidableEq α]

namespace Backward

/-- The policy that is stored: the action of a state, the idle one where none is stored. -/
def policy {ρ : Type} (b : Backward σ α ρ) (s : σ) : α :=
  match b.ledger.action s with
  | .ok a => a
  | .error _ => b.problem.idle s

variable [Hashable σ] [Hashable α] {P : Problem σ α ℚ} {config : Config ℚ}

section Run

variable (lawful : P.Lawful) (closed : P.Closed config.horizon)
  (states : config.stateSampling.isExhaustive = true)
  (outcomes : config.outcomeSampling.isExhaustive = true) {b : Backward σ α ℚ}
  (new : Backward.new P config = .ok b) (done : b.run.1 = .ok ())

include lawful closed states outcomes new done in
theorem solved_of_run : P.Solved config (kept P config (generatedSpaces P config)) where
  closed := closed
  discount_nonneg := by
    have factor := Config.isFactor_of_validate (new_eq_ok_iff.1 new).1
    rw [Scalar.isFactor, Bool.and_eq_true, Rational.lt_iff] at factor
    exact factor.1.le
  kept_eq t before s member a feasible := by
    rw [kept_eq_kept lawful closed states before member feasible]
    exact if_pos outcomes
  solvable t before s member :=
    (run_eq_ok_iff lawful new).1 done t before s
      ((mem_statesOf_generatedSpaces lawful states before.le).2 member)

include lawful states new done

theorem value_of_run {t : Nat} (inside : t ≤ config.horizon) {s : σ} (member : s ∈ P.domain t) :
    b.run.2.ledger.value s = .ok (P.optimal config
      (kept P config (generatedSpaces P config)) (config.horizon - t) s).value := by
  have listed := (mem_statesOf_generatedSpaces lawful states inside).2 member
  rw [Ledger.value, decision?_of_run lawful new done inside listed]

theorem policy_of_run {t : Nat} (before : t < config.horizon) {s : σ} (member : s ∈ P.domain t) :
    b.run.2.policy s ∈ P.actions s ∧ b.run.2.ledger.action s = .ok (b.run.2.policy s) ∧
      (P.optimal config (kept P config (generatedSpaces P config)) (config.horizon - t) s).action =
        some (b.run.2.policy s) := by
  have listed := (mem_statesOf_generatedSpaces lawful states before.le).2 member
  have stored := decision?_of_run lawful new done before.le listed
  obtain ⟨a, first, attained⟩ :=
    ((run_eq_ok_iff lawful new).1 done t before s listed).isFirstBest
  rw [show config.horizon - (t + 1) + 1 = config.horizon - t by omega] at attained
  obtain ⟨_, feasible, same⟩ := List.mem_map.1 first.mem
  cases same
  have action : b.run.2.ledger.action s = .ok a := by
    rw [Ledger.action, stored, attained]
  have taken : b.run.2.policy s = a := by
    rw [policy, action]
  rw [taken]
  exact ⟨feasible, action, by rw [attained]⟩

end Run

/-- After a successful run no policy does better from any state of the domain than its value, in
the direction that was asked for, and the policy that is stored does as well from all of them. -/
theorem run_is_optimal (lawful : P.Lawful) (closed : P.Closed config.horizon)
    (states : config.stateSampling.isExhaustive = true)
    (outcomes : config.outcomeSampling.isExhaustive = true) {b : Backward σ α ℚ}
    (new : Backward.new P config = .ok b) (done : b.run.1 = .ok ()) :
    let after := b.run.2
    (∀ policy, P.Feasible config.horizon policy → ∀ t ≤ config.horizon, ∀ s ∈ P.domain t,
      ∃ value, after.ledger.value s = .ok value ∧ config.direction.improves
        (P.expectedReturn config.discount policy (config.horizon - t) s) value = false) ∧
      P.Feasible config.horizon after.policy ∧
      (∀ t < config.horizon, ∀ s ∈ P.domain t, after.ledger.action s = .ok (after.policy s)) ∧
      ∀ t ≤ config.horizon, ∀ s ∈ P.domain t, after.ledger.value s =
        .ok (P.expectedReturn config.discount after.policy (config.horizon - t) s) := by
  have solved := solved_of_run lawful closed states outcomes new done
  have periods : ∀ t ≤ config.horizon, config.horizon - (config.horizon - t) = t := by omega
  have feasible : P.Feasible config.horizon b.run.2.policy :=
    fun t before s member => (policy_of_run lawful states new done before member).1
  refine ⟨fun policy feasible t inside s member => ?_, feasible,
    fun t before s member => (policy_of_run lawful states new done before member).2.1,
    fun t inside s member => ?_⟩
  · refine ⟨_, value_of_run lawful states new done inside member, ?_⟩
    exact solved.not_improves feasible (Nat.sub_le _ _) (by rwa [periods t inside])
  · have attained := solved.expectedReturn_eq feasible (fun left bound s member => ?_)
      (Nat.sub_le config.horizon t) (by rwa [periods t inside] : s ∈ _)
    · rw [value_of_run lawful states new done inside member, attained]
    · have optimal := (policy_of_run lawful states new done (by omega) member).2.2
      rwa [periods (left + 1) bound] at optimal

-- The stored policy on `Explicit.uneven` is feasible, and no feasible policy does better from the
-- start.
theorem run_is_optimal_uneven :
    let P : Problem Node Int ℚ := Explicit.uneven.problem
    let after := (start P (.exact 2)).run.2
    (start P (.exact 2)).run.1 = .ok () ∧ P.Feasible 2 after.policy ∧
      after.ledger.value ⟨0, 0⟩ = .ok (P.expectedReturn 1 after.policy 2 ⟨0, 0⟩) ∧
      ∀ policy, P.Feasible 2 policy → ∃ value, after.ledger.value ⟨0, 0⟩ = .ok value ∧
        value ≤ P.expectedReturn 1 policy 2 ⟨0, 0⟩ := by
  have new : Backward.new (Explicit.uneven : Explicit ℚ).problem (.exact 2) =
      .ok (start Explicit.uneven.problem (.exact 2)) := rfl
  have done : (start (Explicit.uneven : Explicit ℚ).problem (.exact 2)).run.1 = .ok () :=
    eq_ok_of_toOption (by decide +kernel)
  have member : (⟨0, 0⟩ : Node) ∈ (Explicit.uneven : Explicit ℚ).problem.domain 0 := by decide
  obtain ⟨best, feasible, -, attained⟩ :=
    run_is_optimal Explicit.uneven.lawful Explicit.closed_uneven rfl rfl new done
  refine ⟨done, feasible, attained 0 (by decide) _ member, fun policy feasible => ?_⟩
  obtain ⟨value, stored, least⟩ := best policy feasible 0 (by decide) _ member
  exact ⟨value, stored, (Direction.improves_eq_false_iff .minimize _ _).1 least⟩

end Backward

end Horizon
