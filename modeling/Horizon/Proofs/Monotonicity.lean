import Mathlib.Algebra.Order.Ring.Cast
import Horizon.Proofs.BackwardRun
import Horizon.Proofs.ForwardRun
import Horizon.Proofs.Kernel
import Horizon.Proofs.Shape

/-! Values grow with what is collected.

Two problems of one shape decide for different actions in general, but each of them has compared the
action that the other one takes, so their values compare as those of one and the same action
(`IsFirstBest.le_of_le`). By induction on the periods left, whatever is solved for the problem that
collects less has no greater value there (`optimal_le`). The costs of lot sizing are averages with
masses that do not depend on the coefficients, so they grow with these.
-/

set_option autoImplicit false

namespace Horizon

theorem IsFirstBest.le_of_le {α : Type} {direction : Direction} {as : List α} {v v' : α → ℚ}
    {best best' : α × ℚ} (first : IsFirstBest direction (as.map fun a => (a, v a)) best)
    (first' : IsFirstBest direction (as.map fun a => (a, v' a)) best')
    (each : ∀ a ∈ as, v a ≤ v' a) : best.2 ≤ best'.2 := by
  obtain ⟨a, feasible, rfl⟩ := List.mem_map.1 first.mem
  obtain ⟨a', feasible', rfl⟩ := List.mem_map.1 first'.mem
  have unbeaten := first.unbeaten (List.mem_map_of_mem feasible')
  have unbeaten' := first'.unbeaten (List.mem_map_of_mem feasible)
  rw [Direction.improves_eq_false_iff] at unbeaten unbeaten'
  -- two minima are compared at the action of the second, two maxima at the action of the first
  cases direction with
  | minimize => exact unbeaten.trans (each a' feasible')
  | maximize => exact (each a feasible).trans unbeaten'

theorem Config.discount_nonneg {config : Config ℚ} (valid : config.validate = .ok ()) :
    0 ≤ config.discount := by
  have factor := Config.isFactor_of_validate valid
  rw [Scalar.isFactor, Bool.and_eq_true, Rational.lt_iff] at factor
  exact factor.1.le

theorem Ledger.value_eq_ok_iff {σ α ρ : Type} [DecidableEq σ] [DecidableEq α] {l : Ledger σ α ρ}
    {s : σ} {x : ρ} : l.value s = .ok x ↔ ∃ d, l.decision? s = some d ∧ d.value = x := by
  rw [Ledger.value]
  cases l.decision? s <;> simp

theorem Forward.attemptRun_eq_ok_iff {σ α ρ : Type} [Scalar ρ] {P : Problem σ α ρ}
    {config : Config ρ} {s : σ} {x : ρ} :
    Forward.attemptRun P config s = .ok x ↔ P.period s ≤ config.horizon ∧
      ∃ d, P.attempt config (Forward.kept P config) (config.horizon - P.period s) s = .ok d ∧
        d.value = x := by
  rw [Forward.attemptRun]
  split
  · next beyond =>
    constructor
    · intro done
      cases done
    · rintro ⟨within, -⟩
      omega
  · next within =>
    cases P.attempt config (Forward.kept P config) (config.horizon - P.period s) s with
    | error e =>
      constructor
      · intro done
        cases done
      · rintro ⟨-, d, attempted, -⟩
        cases attempted
    | ok d =>
      constructor
      · intro done
        cases done
        exact ⟨Nat.le_of_not_lt within, d, rfl, rfl⟩
      · rintro ⟨-, d', attempted, rfl⟩
        cases attempted
        rfl

namespace Problem

section Attempts

variable {σ α ρ : Type} [Scalar ρ] {P : Problem σ α ρ} {s : σ} {a : α}

-- An action has a value only if its outcomes have values.
theorem exists_value_of_appraise {discount : ρ} {value : σ → Except (SolveError σ α) ρ}
    {finals : List σ} {x : ρ} (done : P.appraise discount value s a finals = .ok x) :
    ∀ f ∈ finals, ∃ y, value f = .ok y := by
  intro f member
  obtain ⟨ws, weighed, done⟩ := exists_of_bind_eq_ok done
  obtain ⟨terms, worked, -⟩ := exists_of_bind_eq_ok done
  rw [(weights_eq_ok_iff.1 weighed).2, ← List.map_prod_left_eq_zip] at worked
  obtain ⟨y, added⟩ := exists_ok_of_mapM worked _ (List.mem_map_of_mem member)
  obtain ⟨z, known, -⟩ := exists_of_bind_eq_ok added
  exact ⟨z, known⟩

variable {config : Config ρ} {kept : σ → α → List σ} {left : Nat} {d : Decision α ρ}

theorem exists_attempt_of_attempt_succ (done : P.attempt config kept (left + 1) s = .ok d) :
    ∀ a ∈ P.actions s, ∀ f ∈ kept s a, ∃ d, P.attempt config kept left f = .ok d := by
  intro a feasible f outcome
  rw [attempt_succ] at done
  obtain ⟨candidates, valued, -⟩ := exists_of_bind_eq_ok done
  obtain ⟨x, worth⟩ := exists_ok_of_mapM_paired valued a feasible
  obtain ⟨y, known⟩ := exists_value_of_appraise worth f outcome
  obtain ⟨d, attempted, -⟩ := exists_of_bind_eq_ok known
  exact ⟨d, attempted⟩

variable [Scalar.Ranked ρ]

theorem optimal_of_attempt (done : P.attempt config kept left s = .ok d) :
    d = P.optimal config kept left s := by
  induction left generalizing s d with
  | zero => exact (Except.ok.inj done).symm
  | succ left ih =>
    refine ((attempt_succ_eq_ok_iff fun a feasible f outcome => ?_).1 done).2
    obtain ⟨d', decided⟩ := exists_attempt_of_attempt_succ done a feasible f outcome
    rw [decided, ih decided]

-- A state that is decided could be decided, after its outcomes.
theorem solvable_of_attempt (done : P.attempt config kept (left + 1) s = .ok d) :
    P.Solvable config kept left s ∧ ∀ a ∈ P.actions s, ∀ f ∈ kept s a,
      P.attempt config kept left f = .ok (P.optimal config kept left f) := by
  have decided : ∀ a ∈ P.actions s, ∀ f ∈ kept s a,
      P.attempt config kept left f = .ok (P.optimal config kept left f) := by
    intro a feasible f outcome
    obtain ⟨d', decided⟩ := exists_attempt_of_attempt_succ done a feasible f outcome
    rw [decided, optimal_of_attempt decided]
  exact ⟨((attempt_succ_eq_ok_iff decided).1 done).1, decided⟩

end Attempts

variable {σ α : Type} {P P' : Problem σ α ℚ}

/-- Two problems of one shape, the first of which collects no more than the second: not on the way
to an outcome, and not at the end. -/
structure Below (P P' : Problem σ α ℚ) : Prop extends P.SameShape P' where
  immediate : ∀ s, ∀ a ∈ P.actions s, ∀ f ∈ P.outcomes s a, P.immediate s a f ≤ P'.immediate s a f
  terminal : ∀ s, P.terminal s ≤ P'.terminal s

namespace Below

variable (below : P.Below P')

include below

theorem expectation_le {discount : ℚ} (nonneg : 0 ≤ discount) {s : σ} {a : α}
    (feasible : a ∈ P.actions s) {finals : List σ} (outcomes : ∀ f ∈ finals, f ∈ P.outcomes s a)
    (weighable : P.Weighable s a finals) {value value' : σ → ℚ}
    (each : ∀ f ∈ finals, value f ≤ value' f) :
    P.expectation discount value s a finals ≤ P'.expectation discount value' s a finals := by
  have shares : P'.share s a finals = P.share s a finals := by
    funext f
    rw [share, share, below.probability_eq]
  rw [expectation_eq_sum, expectation_eq_sum, shares]
  apply List.sum_le_sum
  intro f member
  have collected := below.immediate s a feasible f (outcomes f member)
  have later := mul_le_mul_of_nonneg_left (each f member) nonneg
  exact mul_le_mul_of_nonneg_left (add_le_add collected later) (weighable.share_nonneg member)

/-- By induction on the periods left. The problems may take different actions everywhere; what both
have in common is the actions that they compare, and the outcomes these have. -/
theorem optimal_le {config : Config ℚ} (nonneg : 0 ≤ config.discount) {kept : σ → α → List σ}
    (inside : ∀ s a, ∀ f ∈ kept s a, f ∈ P.outcomes s a) {left : Nat} {s : σ} {d d' : Decision α ℚ}
    (done : P.attempt config kept left s = .ok d)
    (done' : P'.attempt config kept left s = .ok d') : d.value ≤ d'.value := by
  induction left generalizing s d d' with
  | zero =>
    cases done
    cases done'
    exact below.terminal s
  | succ left ih =>
    obtain ⟨solvable, decided⟩ := solvable_of_attempt done
    obtain ⟨solvable', decided'⟩ := solvable_of_attempt done'
    obtain ⟨a, first, best⟩ := solvable.isFirstBest
    obtain ⟨a', first', best'⟩ := solvable'.isFirstBest
    rw [optimal_of_attempt done, optimal_of_attempt done', best, best']
    rw [below.actions_eq] at first' decided'
    refine first.le_of_le first' fun b feasible => ?_
    refine below.expectation_le nonneg feasible (inside s b) (solvable.weighable b feasible) ?_
    intro f outcome
    exact ih (decided b feasible f outcome) (decided' b feasible f outcome)

end Below

variable [DecidableEq σ] [DecidableEq α] [Hashable σ] [Hashable α]

/-- What is solved for both problems has no greater value for the first: the states of a backward
run, and those that a forward run decides after any calls before it. -/
structure ValuedBelow (P P' : Problem σ α ℚ) (config : Config ℚ) : Prop where
  backward : ∀ b b', Backward.new P config = .ok b → Backward.new P' config = .ok b' →
    b.run.1 = .ok () → b'.run.1 = .ok () →
      b'.run.2.spaces = b.run.2.spaces ∧
        ∀ t ≤ config.horizon, ∀ s ∈ Backward.statesOf b.run.2.spaces t, ∃ x x',
          b.run.2.ledger.value s = .ok x ∧ b'.run.2.ledger.value s = .ok x' ∧ x ≤ x'
  forward : ∀ r r', Forward.new P config = .ok r → Forward.new P' config = .ok r' →
    ∀ (earlier earlier' : List σ) (s : σ),
      let ran := (r.runAll earlier).2.run s
      let ran' := (r'.runAll earlier').2.run s
      (∀ x x', ran.1 = .ok x → ran'.1 = .ok x' → x ≤ x') ∧
        ∀ f x x', ran.2.ledger.value f = .ok x → ran'.2.ledger.value f = .ok x' → x ≤ x'

theorem Below.valuedBelow (below : P.Below P') (lawful : P.Lawful) (config : Config ℚ) :
    P.ValuedBelow P' config := by
  have lawful' : P'.Lawful := below.toSameShape.lawful lawful
  constructor
  · intro b b' new new' done done'
    have nonneg := Config.discount_nonneg (Backward.new_eq_ok_iff.1 new).1
    have generated := below.toSameShape.generatedSpaces_eq config
    have spaces := (Backward.run_of_new lawful new).2.1
    have spaces' := (Backward.run_of_new lawful' new').2.1
    rw [generated] at spaces'
    refine ⟨spaces'.trans spaces.symm, fun t inside s member => ?_⟩
    rw [spaces] at member
    have attempted := Backward.attempt_of_run lawful new done inside member
    have stored := Backward.decision?_of_run lawful new done inside member
    rw [← generated] at member
    have attempted' := Backward.attempt_of_run lawful' new' done' inside member
    have stored' := Backward.decision?_of_run lawful' new' done' inside member
    rw [generated, below.toSameShape.kept_eq] at attempted' stored'
    refine ⟨_, _, Ledger.value_eq_ok_iff.2 ⟨_, stored, rfl⟩,
      Ledger.value_eq_ok_iff.2 ⟨_, stored', rfl⟩, ?_⟩
    exact below.optimal_le nonneg (fun s a f outcome =>
      (Backward.mem_outcomes_of_mem_kept outcome).1) attempted attempted'
  · intro r r' new new' earlier earlier' s
    have nonneg := Config.discount_nonneg (Forward.new_eq_ok_iff.1 new).1
    have ordered : ∀ (left : Nat) (f : σ) (d d' : Decision α ℚ),
        P.attempt config (Forward.kept P config) left f = .ok d →
          P'.attempt config (Forward.kept P' config) left f = .ok d' → d.value ≤ d'.value := by
      intro left f d d' done done'
      rw [Forward.kept, below.toSameShape.outcomesKept_eq] at done'
      exact below.optimal_le nonneg (fun s a f outcome => mem_of_mem_keepOutcomes outcome) done
        done'
    have sound := ((Forward.sound_of_new new).runAll lawful earlier).2
    have sound' := ((Forward.sound_of_new new').runAll lawful' earlier').2
    obtain ⟨given, after⟩ := sound.run lawful s
    obtain ⟨given', after'⟩ := sound'.run lawful' s
    constructor
    · intro x x' ran ran'
      obtain ⟨-, d, done, rfl⟩ := Forward.attemptRun_eq_ok_iff.1 (given.symm.trans ran)
      obtain ⟨-, d', done', rfl⟩ := Forward.attemptRun_eq_ok_iff.1 (given'.symm.trans ran')
      rw [below.period_eq] at done'
      exact ordered _ s d d' done done'
    · intro f x x' known known'
      obtain ⟨d, stored, rfl⟩ := Ledger.value_eq_ok_iff.1 known
      obtain ⟨d', stored', rfl⟩ := Ledger.value_eq_ok_iff.1 known'
      have done := (after.faithful.decided f d stored).2
      have done' := (after'.faithful.decided f d' stored').2
      rw [below.period_eq] at done'
      exact ordered _ f d d' done done'

end Problem

structure Costs.Below (c c' : Costs ℚ) : Prop where
  fixed : c.fixed ≤ c'.fixed
  unit : c.unit ≤ c'.unit
  holding : c.holding ≤ c'.holding
  penalty : c.penalty ≤ c'.penalty

theorem Costs.Below.ofPeriod_le {c c' : Costs ℚ} (below : c.Below c') (quantity rest : Int) :
    c.ofPeriod quantity rest ≤ c'.ofPeriod quantity rest := by
  have positivePart_nonneg : ∀ n : Int, 0 ≤ (Scalar.positivePart n : ℚ) :=
    fun n => Int.cast_nonneg (le_max_right n 0)
  have holding := mul_le_mul_of_nonneg_right below.holding (positivePart_nonneg rest)
  have penalty := mul_le_mul_of_nonneg_right below.penalty (positivePart_nonneg (-rest))
  unfold Costs.ofPeriod
  refine add_le_add (add_le_add ?_ holding) penalty
  split
  · next ordered =>
    have quantity_nonneg : 0 ≤ (Scalar.ofInt quantity : ℚ) := Int.cast_nonneg ordered.le
    exact add_le_add below.fixed (mul_le_mul_of_nonneg_right below.unit quantity_nonneg)
  · exact le_refl _

namespace LotSizing

variable {m : LotSizing ℚ} {costs : Costs ℚ} (below : m.costs.Below costs)

include below

theorem weigh_le (o : Order) {ends : List (Int × ℚ)} (nonneg : ∀ e ∈ ends, 0 ≤ e.2) (mass : ℚ)
    {weighted weighted' : ℚ} (le : weighted ≤ weighted') :
    let least := m.weigh o (mass, weighted) ends
    let raised := LotSizing.weigh { m with costs := costs } o (mass, weighted') ends
    raised.1 = least.1 ∧ least.2 ≤ raised.2 := by
  induction ends generalizing mass weighted weighted' with
  | nil => exact ⟨rfl, le⟩
  | cons e rest ih =>
    have each := mul_le_mul_of_nonneg_left (below.ofPeriod_le o.quantity e.1)
      (nonneg e List.mem_cons_self)
    exact ih (fun e' member => nonneg e' (List.mem_cons_of_mem e member)) _ (add_le_add le each)

variable (masses : ∀ d ∈ m.demand, ∀ p ∈ d.masses, 0 ≤ p)

include masses

-- The costs that are averaged are larger, and their weights are the same.
theorem cost_le (l : Level) (o : Order) (f : Level) :
    m.cost l o f ≤ LotSizing.cost { m with costs := costs } l o f := by
  have averaged : ∀ ends : List (Int × ℚ), (∀ e ∈ ends, 0 ≤ e.2) →
      (if Scalar.lt 0 (m.weigh o (0, 0) ends).1 then
          (m.weigh o (0, 0) ends).2 / (m.weigh o (0, 0) ends).1
        else m.costs.ofPeriod o.quantity f.inventory) ≤
      let raised := LotSizing.weigh { m with costs := costs } o (0, 0) ends
      if Scalar.lt 0 raised.1 then raised.2 / raised.1
        else costs.ofPeriod o.quantity f.inventory := by
    intro ends nonneg
    obtain ⟨mass, weighted⟩ := weigh_le below o nonneg 0 (le_refl (0 : ℚ))
    dsimp only at mass weighted ⊢
    rw [mass]
    split
    · next positive =>
      rw [Rational.lt_iff] at positive
      exact div_le_div_of_nonneg_right weighted positive.le
    · exact below.ofPeriod_le o.quantity f.inventory
  refine averaged _ fun e landed => ?_
  split at landed
  · next d found =>
    obtain ⟨k, listed, -⟩ := mem_landing.1 landed
    have member := Tabulated.mem_masses_of_mem_support (e := (k, e.2)) listed
    exact masses d (Array.mem_of_getElem? found) e.2 member
  · exact absurd landed List.not_mem_nil

theorem below_withCosts : m.problem.Below (LotSizing.problem { m with costs := costs }) where
  period_eq := rfl
  actions_eq := rfl
  outcomes_eq := rfl
  probability_eq := rfl
  domain_eq := rfl
  fingerprint_eq := rfl
  immediate l o _ f _ := cost_le below masses l o f
  terminal _ := le_refl _

end LotSizing

/-- Of two problems that differ in the values they collect, one of which collects no more than the
other wherever an action may lead, neither that one's backward run nor its forward runs find greater
values, whether values are to be small or large. So no coefficient of lot sizing can be raised such
that the expected cost of a state gets lower. -/
theorem values_are_monotone {σ α : Type} [DecidableEq σ] [DecidableEq α] [Hashable σ] [Hashable α]
    {P P' : Problem σ α ℚ} (lawful : P.Lawful) (below : P.Below P') (config : Config ℚ) :
    P.ValuedBelow P' config ∧
      ∀ (m : LotSizing ℚ) (costs : Costs ℚ), m.costs.Below costs →
        (∀ d ∈ m.demand, ∀ p ∈ d.masses, 0 ≤ p) →
          m.problem.ValuedBelow (LotSizing.problem { m with costs := costs }) config := by
  constructor
  · exact below.valuedBelow lawful config
  · intro m costs raised masses
    exact (LotSizing.below_withCosts raised masses).valuedBelow m.lawful config

def Explicit.unevenRaised : Explicit ℚ :=
  { uneven with terminal := [(1, 5)] }

theorem Explicit.below_unevenRaised :
    (uneven : Explicit ℚ).problem.Below unevenRaised.problem where
  period_eq := rfl
  actions_eq := rfl
  outcomes_eq := rfl
  probability_eq := rfl
  domain_eq := rfl
  fingerprint_eq := rfl
  immediate s a _ f _ := le_refl _
  terminal n := by
    change ([(1, (4 : ℚ))].lookup n.x).getD 0 ≤ ([(1, (5 : ℚ))].lookup n.x).getD 0
    by_cases one : n.x = 1
    · rw [one]
      decide +kernel
    · have other : (n.x == 1) = false := by simpa using one
      simp [List.lookup_cons, other]

-- A larger value at the end, and a larger cost of placing an order.
theorem values_are_monotone_uneven :
    let P : Problem Node Int ℚ := Explicit.uneven.problem
    let P' : Problem Node Int ℚ := Explicit.unevenRaised.problem
    let m : LotSizing ℚ := .oneUnit
    let raised : LotSizing ℚ := { m with costs := ⟨2, 1, 1, 1⟩ }
    (Backward.start P (.exact 2)).run.1 = .ok () ∧ (Backward.start P' (.exact 2)).run.1 = .ok () ∧
      P.ValuedBelow P' (.exact 2) ∧ (Backward.start m.problem (.exact 1)).run.1 = .ok () ∧
      (Backward.start raised.problem (.exact 1)).run.1 = .ok () ∧
      m.problem.ValuedBelow raised.problem (.exact 1) := by
  intro P P' m raised
  have masses : ∀ d ∈ m.demand, ∀ p ∈ d.masses, 0 ≤ p := by
    intro d listed p member
    rw [List.mem_singleton.1 (Array.mem_toList_iff.2 listed)] at member
    rw [List.mem_singleton.1 (Array.mem_toList_iff.2 member)]
    exact zero_le_one
  have costs : m.costs.Below ⟨2, 1, 1, 1⟩ :=
    ⟨by decide +kernel, le_refl _, le_refl _, le_refl _⟩
  have uneven := values_are_monotone Explicit.uneven.lawful Explicit.below_unevenRaised
  exact ⟨eq_ok_of_toOption (by decide +kernel), eq_ok_of_toOption (by decide +kernel),
    (uneven (.exact 2)).1, eq_ok_of_toOption (by decide +kernel),
    eq_ok_of_toOption (by decide +kernel), (uneven (.exact 1)).2 m ⟨2, 1, 1, 1⟩ costs masses⟩

end Horizon
