import Horizon.Proofs.Admissible
import Horizon.Proofs.Agreement
import Horizon.Proofs.Coverage
import Horizon.Proofs.Exploration
import Horizon.Proofs.Kernel
import Horizon.Proofs.PartialRun
import Horizon.Proofs.Selection

/-! Lot sizing is always solved.

Every level has an order, whatever its inventory, and the smallest is the idle one. The outcomes
that count carry mass: all of them do together, sampling the states keeps or adds some with mass,
and sampling the outcomes keeps one at least. So every run succeeds, partial ones and forward ones
included, and decides for feasible orders (`always_solved`). A run asks for the orders of the levels
within the bounds, and of the level that a forward run begins with, and these must be few enough for
a list: far below the bounds they may wrap around and be too many (`orders_are_too_many`).
-/

set_option autoImplicit false

namespace Horizon

section Solvable

variable {σ α ρ : Type} [DecidableEq σ] [DecidableEq α] [Scalar ρ] [Scalar.Ranked ρ]
  {P : Problem σ α ρ} {config : Config ρ}

omit [DecidableEq σ] [DecidableEq α] in
theorem Problem.Solvable.exists_action {kept : σ → α → List σ} {left : Nat} {s : σ}
    (solvable : P.Solvable config kept left s) :
    ∃ x, ∃ a ∈ P.actions s, P.optimal config kept (left + 1) s = ⟨x, some a⟩ := by
  obtain ⟨a, first, same⟩ := solvable.isFirstBest
  obtain ⟨b, feasible, here⟩ := List.mem_map.1 first.mem
  cases here
  exact ⟨_, a, feasible, same⟩

omit [DecidableEq σ] [DecidableEq α] in
-- By induction on the periods left; the outcomes of a state are one period later.
theorem Forward.attempt_of_solvable (lawful : P.Lawful)
    (solvable : ∀ left s, P.period s + (left + 1) = config.horizon →
      P.Solvable config (Forward.kept P config) left s) {left : Nat} {s : σ}
    (inside : P.period s + left = config.horizon) :
    P.attempt config (Forward.kept P config) left s =
      .ok (P.optimal config (Forward.kept P config) left s) := by
  induction left generalizing s with
  | zero => rfl
  | succ left ih =>
    refine (Problem.attempt_succ_eq_ok_iff fun a _ f outcome => ?_).2 ⟨solvable left s inside, rfl⟩
    have next := lawful.period_of_mem_outcomesKept outcome
    exact ih (by omega)

theorem Forward.run_of_solvable [Hashable σ] [Hashable α] (lawful : P.Lawful)
    {r : Forward σ α ρ} (new : Forward.new P config = .ok r)
    (solvable : ∀ left s, P.period s + (left + 1) = config.horizon →
      P.Solvable config (Forward.kept P config) left s)
    (earlier : List σ) {s : σ} (inside : P.period s ≤ config.horizon) :
    ∃ x, ((r.runAll earlier).2.run s).1 = .ok x := by
  have sound := ((sound_of_new new).runAll lawful earlier).2
  rw [(sound.run lawful s).1, attemptRun, if_neg (Nat.not_lt.2 inside),
    attempt_of_solvable lawful solvable (Nat.add_sub_cancel' inside)]
  exact ⟨_, rfl⟩

namespace Backward

section Solves

variable [Hashable σ]

/-- A run succeeds. It has generated the states and gone through the periods from its target on, and
decides their states for actions that they have. -/
structure Solves (P : Problem σ α ρ) (config : Config ρ) (target : Nat) (approximate : Bool)
    (ran : Except (SolveError σ α) Unit × Backward σ α ρ) : Prop where
  done : ran.1 = .ok ()
  spaces_eq : ran.2.spaces = generatedSpaces P config
  phase_eq : ran.2.phase = .solved target approximate
  feasible : ∀ t, target ≤ t → t < config.horizon →
    ∀ s ∈ statesOf (generatedSpaces P config) t,
      ∃ a ∈ P.actions s, ran.2.ledger.action s = .ok a

omit [DecidableEq α] [Scalar.Ranked ρ] in
-- By induction on the period. What a sample lacks is added from the outcomes of the period before.
theorem mem_domain_of_mem_generatedSpaces (closed : P.Closed config.horizon) {t : Nat}
    (inside : t ≤ config.horizon) {s : σ} (listed : s ∈ statesOf (generatedSpaces P config) t)
    (lawful : P.Lawful) : s ∈ P.domain t := by
  cases sampled : config.stateSampling.isExhaustive with
  | true => exact (mem_statesOf_generatedSpaces lawful sampled inside).1 listed
  | false =>
    induction t generalizing s with
    | zero =>
      rw [statesOf_zero sampled, List.mem_eraseDups] at listed
      exact StateSpace.mem_domain_of_mem_sampledDomain listed
    | succ t ih =>
      obtain ⟨added, same, all⟩ := statesOf_succ (P := P) sampled inside
      rw [same, List.mem_append, List.mem_eraseDups] at listed
      rcases listed with drawn | later
      · exact StateSpace.mem_domain_of_mem_sampledDomain drawn
      · obtain ⟨-, s', listed', a, feasible, -, outcome⟩ := (all s).1 later
        exact closed t inside s' (ih (Nat.le_of_succ_le inside) listed') a feasible s outcome

end Solves

variable [Hashable σ] [Hashable α] {b : Backward σ α ρ} (lawful : P.Lawful)
  (new : Backward.new P config = .ok b)
  (solvable : ∀ t < config.horizon, ∀ s ∈ statesOf (generatedSpaces P config) t,
    P.Solvable config (kept P config (generatedSpaces P config)) (config.horizon - (t + 1)) s)

include lawful new solvable

theorem solves_run : Solves P config 0 false b.run := by
  have done := (run_eq_ok_iff lawful new).2 solvable
  have phase : b.run.2.phase = .solved 0 false := by
    rw [run] at done ⊢
    rw [phase_runUntil_of_new lawful new, done]
    rfl
  refine ⟨done, (run_of_new lawful new).2.1, phase, fun t _ below s member => ?_⟩
  obtain ⟨x, a, feasible, best⟩ := (solvable t below s member).exists_action
  refine ⟨a, feasible, ?_⟩
  rw [Ledger.action, decision?_of_run lawful new done below.le member,
    show config.horizon - t = config.horizon - (t + 1) + 1 by omega, best]

theorem solves_runToPeriod
    (idle : ∀ t < config.horizon, ∀ s ∈ statesOf (generatedSpaces P config) t,
      P.idle s ∈ P.actions s) {target : Nat} (below : target < config.horizon) :
    Solves P config target true (b.runToPeriod target) := by
  have done : (b.runToPeriod target).1 = .ok () := by
    refine (runToPeriod_eq_ok_iff lawful new below).2
      ⟨fun t inside _ => solvable t inside, fun s member => ?_⟩
    exact (solvable target below s member).weighable _ (idle target below s member)
  have phase : (b.runToPeriod target).2.phase = .solved target true := by
    have config_eq : b.config = config := by rw [(new_eq_ok_iff.1 new).2.2]; rfl
    rw [runToPeriod, config_eq, if_neg (Nat.not_le_of_lt below)] at done ⊢
    rw [phase_runUntil_of_new lawful new, done]
    rfl
  refine ⟨done, (runToPeriod_of_new lawful new below).2.1, phase,
    fun t above inside s member => ?_⟩
  obtain ⟨best, atTarget⟩ := decision?_of_runToPeriod lawful new below done member
  rcases Nat.eq_or_lt_of_le above with rfl | later
  · refine ⟨P.idle s, idle target below s member, ?_⟩
    rw [Ledger.action, atTarget rfl]
  · obtain ⟨x, a, feasible, decided⟩ := (solvable t inside s member).exists_action
    refine ⟨a, feasible, ?_⟩
    rw [Ledger.action, best later,
      show config.horizon - t = config.horizon - (t + 1) + 1 by omega, decided]

end Backward

end Solvable

namespace LotSizing

section Weighed

variable {m : LotSizing ℚ} {config : Config ℚ} (bounds : m.least ≤ m.greatest)
  (represented : m.Representable) (normalized : ∀ d ∈ m.demand, d.Normalized)
  (within : config.horizon ≤ m.demand.size)
  (massive : config.outcomeSampling.isExhaustive = true ∨
    ∀ d ∈ m.demand, ∀ p ∈ d.masses, 0 < p)

include represented normalized within massive

-- Whether outcomes are sampled or not, one with mass is kept.
theorem weighable_keepOutcomes {l : Level} {o : Order} (inside : l.period < config.horizon)
    {candidates : List Level} (outcomes : ∀ f ∈ candidates, f ∈ m.ends l o)
    (some : ∃ f ∈ candidates, 0 < m.probability l o f) :
    m.problem.Weighable l o
      (m.problem.keepOutcomes config.outcomeSampling config.seed l o candidates) := by
  have found := Array.getElem?_eq_getElem (lt_of_lt_of_le inside within)
  have listed := Array.mem_of_getElem? found
  have distribution := normalized _ listed
  have words := represented.hasWords found
  refine Problem.weighable_of_pos (fun f _ => ?_) ?_
  · rw [Scalar.isMass, Bool.and_eq_true, Rational.le_iff]
    exact ⟨rfl, probability_nonneg found words distribution.nonneg⟩
  · simp only [Rational.lt_iff]
    rcases massive with exhaustive | positive
    · rw [Problem.keepOutcomes, if_pos exhaustive]
      exact some
    · obtain ⟨g, candidate, -⟩ := some
      obtain ⟨f, kept⟩ := List.exists_mem_of_ne_nil _ (m.problem.keepOutcomes_ne_nil
        config.outcomeSampling config.seed l o (List.ne_nil_of_mem candidate))
      exact ⟨f, kept, probability_pos_of_mem_ends found words distribution.nonneg
        (positive _ listed) (outcomes f (Problem.mem_of_mem_keepOutcomes kept))⟩

omit massive in
theorem exists_outcome {l : Level} (inside : l.period < config.horizon) (o : Order) :
    ∃ f ∈ m.ends l o, 0 < m.probability l o f := by
  have found := Array.getElem?_eq_getElem (lt_of_lt_of_le inside within)
  have distribution := normalized _ (Array.mem_of_getElem? found)
  exact exists_probability_pos found (represented.hasWords found) distribution.nonneg
    distribution.exists_pos

theorem weighable_outcomesKept {l : Level} (inside : l.period < config.horizon) (o : Order) :
    m.problem.Weighable l o (Forward.kept m.problem config l o) :=
  weighable_keepOutcomes represented normalized within massive inside (fun _ outcome => outcome)
    (exists_outcome represented normalized within inside o)

include bounds

theorem weighable_kept {l : Level} {t : Nat} (inside : t < config.horizon)
    (listed : l ∈ Backward.statesOf (Backward.generatedSpaces m.problem config) t) {o : Order}
    (feasible : o ∈ m.orders l) :
    m.problem.Weighable l o
      (Backward.kept m.problem config (Backward.generatedSpaces m.problem config) l o) := by
  have complete := Backward.complete_generatedSpaces (lawful m) config
  obtain ⟨rfl, -⟩ := complete.period_of_mem listed
  cases sampled : config.stateSampling.isExhaustive with
  | true =>
    have inDomain :=
      (Backward.mem_statesOf_generatedSpaces (lawful m) sampled inside.le).1 listed
    rw [Backward.kept_eq_kept (lawful m) (closed m bounds _) sampled inside inDomain feasible]
    exact weighable_outcomesKept represented normalized within massive inside o
  | false =>
    obtain ⟨next, found, -⟩ := complete.exists_space (t := m.problem.period l + 1) inside
    have some := Backward.exists_known_outcome (lawful m) sampled listed inside feasible
      (by
        obtain ⟨f, outcome, positive⟩ :=
          exists_outcome represented normalized within inside o
        exact ⟨f, outcome, (Rational.lt_iff _ _).2 positive⟩) found
    simp only [Rational.lt_iff] at some
    rw [Backward.kept, found]
    exact weighable_keepOutcomes represented normalized within massive inside
      (fun f member => (List.mem_filter.1 member).1) some

end Weighed

structure Answers {ρ : Type} (m : LotSizing ρ) (l : Level) : Prop where
  orders : m.listsOrders l = true
  ends : m.hasEnds l.period = true

/-- The levels of the periods below a horizon can be listed, and so can their orders. -/
structure Listable {ρ : Type} (m : LotSizing ρ) (horizon : Nat) : Prop where
  levels : m.listsLevels = true
  orders : ∀ t < horizon, ∀ l ∈ m.levels t, m.listsOrders l = true

theorem hasEnds_of_bounds {ρ : Type} {m : LotSizing ρ} (bounds : m.least ≤ m.greatest) (t : Nat) :
    m.hasEnds t = true := by
  rw [hasEnds, decide_eq_true bounds, Bool.true_or]

variable {m : LotSizing ℚ} {config : Config ℚ}

-- What follows the level that a run begins with is within the bounds.
theorem answers_of_reaches (bounds : m.least ≤ m.greatest) (listable : m.Listable config.horizon)
    {l f : Level} (first : l.period < config.horizon → m.listsOrders l = true)
    (reaches : Relation.ReflTransGen (Forward.Leads m.problem config) l f)
    (inside : f.period < config.horizon) : m.Answers f := by
  refine ⟨?_, hasEnds_of_bounds bounds _⟩
  rcases Relation.ReflTransGen.cases_tail reaches with rfl | ⟨g, -, below, o, -, outcome⟩
  · exact first inside
  · obtain ⟨-, -, -, e, -, leads⟩ := mem_ends.1 (Problem.mem_of_mem_keepOutcomes outcome)
    have within := clamp_bounds bounds (wrap (g.inventory + o.quantity - e.1))
    rw [leads] at within
    exact listable.orders f.period inside f (mem_levels.2 ⟨rfl, within⟩)

theorem solvable_of_weighable {kept : Level → Order → List Level} {left : Nat} {l : Level}
    (weighable : ∀ o ∈ m.orders l, m.problem.Weighable l o (kept l o)) :
    m.problem.Solvable config kept left l where
  feasible := List.ne_nil_of_mem (idleOrder_mem_orders m l)
  weighable := weighable
  number _ _ := rfl

def scarce : LotSizing ℚ :=
  ⟨⟨2, 1, 1, 5⟩, #[⟨-1, #[1 / 2, 1 / 2]⟩, ⟨1, #[1 / 4, 1 / 2, 1 / 4]⟩], -1, 0, some 1⟩

def coarse (horizon : Nat) : Config ℚ :=
  { Backward.oneState horizon with outcomeSampling := .random 2 }

end LotSizing

end Horizon
