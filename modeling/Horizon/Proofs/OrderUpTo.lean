import Horizon.Proofs.DemandAverage
import Horizon.Proofs.KConvexity
import Horizon.Proofs.Optimality
import Horizon.Proofs.ReorderPolicy

/-! Lot sizing without a capacity is solved by raising the inventory to one level per period.

The cost of an order splits into the fixed cost and the cost of the position it leads to
(`expectation_eq_orderCost`). The latter is `K`-convex when the values of the next period are
(`kConvexOn_positionCost`), and then so are the values of the period itself; by induction from the
horizon down they all are (`kConvexOn_valueLeft`). So each period has a level to which orders are
placed, and the policy that is read off its table reproduces them (`run_orders_up_to`). Where the
largest orders wrap around it does not (`not_all_order_up_to`).
-/

set_option autoImplicit false

namespace Horizon.LotSizing

open Tabulated

variable {m : LotSizing ℚ} {d : Tabulated ℚ} {t : Nat} {x q : Int} {discount : ℚ}
  {value : Int → ℚ}

/-- What it costs to have raised the inventory to a position, at the unit cost and with the costs
of holding and owing, when the inventories left after the demand have a value. -/
def positionCost (m : LotSizing ℚ) (d : Tabulated ℚ) (discount : ℚ) (value : Int → ℚ)
    (position : Int) : ℚ :=
  m.costs.unit * position + (d.support.map fun e =>
    e.2 * (m.costs.holding * Scalar.positivePart (position - e.1) +
      m.costs.penalty * Scalar.positivePart (-(position - e.1)) +
      discount * value (position - e.1))).sum

theorem sum_map_mul_add (xs : List (Int × ℚ)) (c : ℚ) (g : Int × ℚ → ℚ) :
    (xs.map fun e => e.2 * (c + g e)).sum =
      c * (xs.map Prod.snd).sum + (xs.map fun e => e.2 * g e).sum := by
  induction xs with
  | nil => simp
  | cons e rest ih =>
    simp only [List.map_cons, List.sum_cons, ih]
    ring

theorem ofPeriod_eq (costs : Costs ℚ) (nonneg : 0 ≤ q) (rest : Int) :
    costs.ofPeriod q rest = ((if 0 < q then costs.fixed else 0) + costs.unit * q) +
      (costs.holding * Scalar.positivePart rest + costs.penalty * Scalar.positivePart (-rest)) := by
  have units : (if 0 < q then costs.fixed + costs.unit * (Scalar.ofInt q : ℚ) else 0) =
      (if 0 < q then costs.fixed else 0) + costs.unit * q := by
    split
    · rfl
    · obtain rfl : q = 0 := by omega
      simp
  rw [Costs.ofPeriod, units]
  ring

theorem Keeps.unwrapped (keeps : m.Keeps d x q) (words : m.HasWords d)
    (normalized : d.Normalized) : m.Unwrapped d ⟨t, x⟩ ⟨q⟩ where
  toHasWords := words
  rest demand inside := by
    obtain ⟨least, greatest, represented⟩ := words
    obtain ⟨above, below⟩ := keeps.bounds_of_mem_values normalized represented inside
    exact ⟨least.1.trans above, below.trans greatest.2⟩

section Keeps

variable (found : m.demand[t]? = some d) (words : m.HasWords d) (normalized : d.Normalized)
  (keeps : m.Keeps d x q)

include found words normalized keeps

-- No inventory is set to a bound, and the masses sum to one.
theorem expectation_of_keeps (value : Level → ℚ) :
    m.problem.expectation discount value ⟨t, x⟩ ⟨q⟩ (m.ends ⟨t, x⟩ ⟨q⟩) =
      (d.support.map fun e => e.2 *
        (m.costs.ofPeriod q (x + q - e.1) + discount * value ⟨t + 1, x + q - e.1⟩)).sum := by
  rw [expectation_eq_average found normalized.nonneg (keeps.unwrapped words normalized),
    normalized.sum_eq, div_one]
  refine congrArg List.sum (List.map_congr_left fun e listed => ?_)
  obtain ⟨above, below⟩ := keeps.bounds_of_mem_values normalized words.represented
    (words.represented.mem_values_of_mem_support listed)
  simp only [clamp_of_mem above below]

theorem expectation_eq_orderCost (nonneg : 0 ≤ q) (value : Level → ℚ) :
    m.problem.expectation discount value ⟨t, x⟩ ⟨q⟩ (m.ends ⟨t, x⟩ ⟨q⟩) =
      orderCost m.costs.fixed m.costs.unit
        (m.positionCost d discount fun y => value ⟨t + 1, y⟩) x q := by
  rw [expectation_of_keeps found words normalized keeps]
  simp only [ofPeriod_eq m.costs nonneg, add_assoc ((if 0 < q then m.costs.fixed else 0) + _)]
  rw [sum_map_mul_add, map_snd_support, normalized.sum_eq, orderCost, positionCost]
  push_cast
  ring

end Keeps

structure Chargeable (costs : Costs ℚ) : Prop where
  fixed : 0 ≤ costs.fixed
  holding : 0 ≤ costs.holding
  penalty : 0 ≤ costs.penalty

theorem kConvexOn_positionCost (charges : Chargeable m.costs) (fits : m.Fits d)
    (represented : d.Representable) (positive : 0 ≤ discount) (atMost : discount ≤ 1)
    (convex : KConvexOn m.costs.fixed m.least m.greatest value) :
    KConvexOn m.costs.fixed (m.least + d.greatest) (m.greatest + d.least)
      (m.positionCost d discount value) := by
  have future : KConvexOn m.costs.fixed m.least m.greatest fun y =>
      m.costs.holding * Scalar.positivePart y + m.costs.penalty * Scalar.positivePart (-y) +
        discount * value y := by
    have charged := kConvexOn_charge charges.holding charges.penalty m.least m.greatest
    refine (charged.add (convex.mul positive)).of_le ?_
    rw [zero_add]
    exact mul_le_of_le_one_left charges.fixed atMost
  have each : ∀ e ∈ d.support, KConvexOn m.costs.fixed (m.least + d.greatest)
      (m.greatest + d.least) fun y =>
        m.costs.holding * Scalar.positivePart (y - e.1) +
          m.costs.penalty * Scalar.positivePart (-(y - e.1)) + discount * value (y - e.1) := by
    intro e listed
    obtain ⟨above, below⟩ := (represented.mem_values_iff fits.normalized.isEmpty_masses).1
      (represented.mem_values_of_mem_support listed)
    exact (future.shift e.1).mono (by omega) (by omega)
  have expected := kConvexOn_sum (fun e => fits.normalized.nonneg_of_mem_support) each
  rw [map_snd_support, fits.normalized.sum_eq, one_mul] at expected
  exact ((kConvexOn_linear m.costs.unit _ _).add expected).of_le (by rw [zero_add])

/-- An instance of 64 bits without a capacity, every demand of which fits, and a configuration that
minimizes its cost over all outcomes. -/
structure Unrestricted (m : LotSizing ℚ) (config : Config ℚ) (kept : Level → Order → List Level) :
    Prop where
  charges : Chargeable m.costs
  represented : m.Representable
  uncapped : m.capacity = none
  fits : ∀ t < config.horizon, ∃ d, m.demand[t]? = some d ∧ m.Fits d
  direction_eq : config.direction = .minimize
  positive : 0 ≤ config.discount
  atMost : config.discount ≤ 1
  kept_eq : ∀ t < config.horizon, ∀ l ∈ m.levels t, ∀ o ∈ m.orders l, kept l o = m.ends l o

section Unrestricted

variable {config : Config ℚ} {kept : Level → Order → List Level} {left : Nat}

def valueLeft (m : LotSizing ℚ) (config : Config ℚ) (kept : Level → Order → List Level)
    (left : Nat) (x : Int) : ℚ :=
  (m.problem.optimal config kept left ⟨config.horizon - left, x⟩).value

def positionLeft (m : LotSizing ℚ) (config : Config ℚ) (kept : Level → Order → List Level)
    (d : Tabulated ℚ) (left : Nat) (position : Int) : ℚ :=
  m.positionCost d config.discount (m.valueLeft config kept left) position

def OrdersLeft (m : LotSizing ℚ) (config : Config ℚ) (kept : Level → Order → List Level)
    (d : Tabulated ℚ) (left : Nat) (x : Int) : Prop :=
  Orders m.costs.fixed (m.least + d.greatest) (m.greatest + d.least)
    (m.positionLeft config kept d left) x

variable (unrestricted : m.Unrestricted config kept)

section Level

variable (inside : left + 1 ≤ config.horizon)
  (found : m.demand[config.horizon - (left + 1)]? = some d) (fits : m.Fits d)
  (above : m.least ≤ x) (below : x ≤ m.greatest)

include unrestricted inside found fits above below

theorem actionValue_eq {q : Int} (smallest : max 0 (m.least + d.greatest - x) ≤ q)
    (largest : q ≤ m.greatest + d.least - x) :
    m.problem.Weighable ⟨config.horizon - (left + 1), x⟩ ⟨q⟩
        (kept ⟨config.horizon - (left + 1), x⟩ ⟨q⟩) ∧
      m.problem.actionValue config kept left ⟨config.horizon - (left + 1), x⟩ ⟨q⟩ =
        orderCost m.costs.fixed m.costs.unit (m.positionLeft config kept d left) x q := by
  have keeps : m.Keeps d x q := ⟨by omega, by omega⟩
  have words := unrestricted.represented.hasWords found
  have feasible : (⟨q⟩ : Order) ∈ m.orders ⟨config.horizon - (left + 1), x⟩ := by
    rw [orders_eq found fits words.represented unrestricted.uncapped above below]
    exact List.mem_map_of_mem (mem_ascending.2 ⟨smallest, largest⟩)
  have outcomes := unrestricted.kept_eq (config.horizon - (left + 1)) (by omega) _
    (mem_levels.2 ⟨rfl, above, below⟩) _ feasible
  rw [outcomes, Problem.actionValue, outcomes,
    expectation_eq_orderCost found words fits.normalized keeps (by omega)]
  have positive : 0 < d.masses.toList.sum := by
    rw [fits.normalized.sum_eq]
    exact zero_lt_one
  have unwrapped := keeps.unwrapped words fits.normalized (t := config.horizon - (left + 1))
  refine ⟨weighable_ends found fits.normalized.nonneg unwrapped positive, ?_⟩
  simp only [show config.horizon - (left + 1) + 1 = config.horizon - left by omega]
  rfl

omit inside in
theorem orders_level : m.orders ⟨config.horizon - (left + 1), x⟩ =
    (ascending (max 0 (m.least + d.greatest - x)) (m.greatest + d.least - x)).map Order.mk :=
  orders_eq found fits (unrestricted.represented.hasWords found).represented
    unrestricted.uncapped above below

theorem solvable_level :
    m.problem.Solvable config kept left ⟨config.horizon - (left + 1), x⟩ := by
  have orders := orders_level unrestricted found fits above below
  refine ⟨fun none => ?_, fun a feasible => ?_, fun _ _ => rfl⟩
  · have nonneg := fits.nonneg
    have spread := fits.spread
    have member : max 0 (m.least + d.greatest - x) ∈
        ascending (max 0 (m.least + d.greatest - x)) (m.greatest + d.least - x) :=
      mem_ascending.2 ⟨Int.le_refl _, by omega⟩
    rw [List.map_eq_nil_iff.1 (orders.symm.trans none)] at member
    cases member
  · change a ∈ m.orders _ at feasible
    rw [orders] at feasible
    obtain ⟨q, member, rfl⟩ := List.mem_map.1 feasible
    obtain ⟨smallest, largest⟩ := mem_ascending.1 member
    exact (actionValue_eq unrestricted inside found fits above below smallest largest).1

-- The first best order is the first minimum of the cost over the quantities that are allowed.
theorem optimal_eq_of_firstMinimum {q : Int}
    (minimum : FirstMinimum (max 0 (m.least + d.greatest - x)) (m.greatest + d.least - x)
      (orderCost m.costs.fixed m.costs.unit (m.positionLeft config kept d left) x) q) :
    m.problem.optimal config kept (left + 1) ⟨config.horizon - (left + 1), x⟩ =
      ⟨orderCost m.costs.fixed m.costs.unit (m.positionLeft config kept d left) x q,
        some ⟨q⟩⟩ := by
  obtain ⟨a, first, attained⟩ :=
    (solvable_level unrestricted inside found fits above below).isFirstBest
  have orders : m.problem.actions ⟨config.horizon - (left + 1), x⟩ = _ :=
    orders_level unrestricted found fits above below
  rw [orders, List.map_map, unrestricted.direction_eq] at first
  obtain ⟨q', same, minimum'⟩ := firstMinimum_of_isFirstBest first
  have value : ∀ q, max 0 (m.least + d.greatest - x) ≤ q → q ≤ m.greatest + d.least - x →
      m.problem.actionValue config kept left ⟨config.horizon - (left + 1), x⟩ ⟨q⟩ =
        orderCost m.costs.fixed m.costs.unit (m.positionLeft config kept d left) x q :=
    fun q smallest largest =>
      (actionValue_eq unrestricted inside found fits above below smallest largest).2
  obtain rfl := (minimum'.congr value).unique minimum
  rw [attained, ← value q' minimum.above minimum.below]
  cases same
  rfl

section Orders

variable {S : Int}

theorem optimal_of_orders
    (convex : KConvexOn m.costs.fixed (m.least + d.greatest) (m.greatest + d.least)
      (m.positionLeft config kept d left))
    (minimum : FirstMinimum (m.least + d.greatest) (m.greatest + d.least)
      (m.positionLeft config kept d left) S)
    (orders : m.OrdersLeft config kept d left x) :
    m.problem.optimal config kept (left + 1) ⟨config.horizon - (left + 1), x⟩ =
      ⟨m.costs.fixed - m.costs.unit * x + m.positionLeft config kept d left S,
        some ⟨S - x⟩⟩ := by
  have nonneg := unrestricted.charges.fixed
  rw [optimal_eq_of_firstMinimum unrestricted inside found fits above below
    (firstMinimum_of_orders nonneg convex minimum _ orders),
    orderCost_up_to _ (orders.lt nonneg convex minimum)]

theorem optimal_of_not_orders (stays : ¬m.OrdersLeft config kept d left x) :
    m.problem.optimal config kept (left + 1) ⟨config.horizon - (left + 1), x⟩ =
      ⟨m.positionLeft config kept d left x - m.costs.unit * x, some ⟨0⟩⟩ := by
  have nonneg := fits.nonneg
  rw [optimal_eq_of_firstMinimum unrestricted inside found fits above below
    (firstMinimum_of_not_orders _ stays (by omega)), orderCost_zero]

end Orders

end Level

theorem positions_nonempty (fits : m.Fits d) : m.least + d.greatest ≤ m.greatest + d.least := by
  have spread := fits.spread
  omega

include unrestricted

theorem kConvexOn_positionLeft (fits : m.Fits d) (represented : d.Representable)
    (convex : KConvexOn m.costs.fixed m.least m.greatest (m.valueLeft config kept left)) :
    KConvexOn m.costs.fixed (m.least + d.greatest) (m.greatest + d.least)
      (m.positionLeft config kept d left) :=
  kConvexOn_positionCost unrestricted.charges fits represented unrestricted.positive
    unrestricted.atMost convex

-- By induction on the periods left. At the horizon all values are zero.
theorem kConvexOn_valueLeft (inside : left ≤ config.horizon) :
    KConvexOn m.costs.fixed m.least m.greatest (m.valueLeft config kept left) := by
  induction left with
  | zero =>
    intro x y z above before after below
    have terminal : ∀ x, m.valueLeft config kept 0 x = 0 := fun _ => rfl
    rw [terminal, terminal, terminal]
    have step : (0 : ℚ) ≤ y - x := sub_nonneg.2 (Int.cast_le.2 before.le)
    have cost := mul_nonneg step unrestricted.charges.fixed
    simpa using cost
  | succ left ih =>
    obtain ⟨d, found, fits⟩ := unrestricted.fits (config.horizon - (left + 1)) (by omega)
    have represented := (unrestricted.represented.hasWords found).represented
    have convex := kConvexOn_positionLeft unrestricted fits represented (ih (by omega))
    obtain ⟨S, minimum⟩ :=
      exists_firstMinimum (m.positionLeft config kept d left) (positions_nonempty fits)
    have nonneg := fits.nonneg
    -- with the worth of the units on hand added, the values are those of the positions
    have positions : KConvexOn m.costs.fixed m.least m.greatest fun x =>
        m.valueLeft config kept (left + 1) x + m.costs.unit * x := by
      refine kConvexOn_of_best unrestricted.charges.fixed convex minimum (by omega)
        (fun x above below orders => ?_) (fun x above below stays => ?_)
      · rw [valueLeft,
          optimal_of_orders unrestricted inside found fits above below convex minimum orders]
        ring
      · rw [valueLeft, optimal_of_not_orders unrestricted inside found fits above below stays]
        ring
    have values := positions.add (kConvexOn_linear (-m.costs.unit) m.least m.greatest)
    simpa using values

theorem exists_raisesTo (inside : left + 1 ≤ config.horizon) :
    ∃ S Ordered quantity, ReorderPolicy.RaisesTo m.least m.greatest S Ordered quantity ∧
      ∀ x, m.least ≤ x → x ≤ m.greatest →
        (m.problem.optimal config kept (left + 1) ⟨config.horizon - (left + 1), x⟩).action =
          some ⟨quantity x⟩ := by
  classical
  obtain ⟨d, found, fits⟩ := unrestricted.fits (config.horizon - (left + 1)) (by omega)
  have nonneg := unrestricted.charges.fixed
  have represented := (unrestricted.represented.hasWords found).represented
  have convex := kConvexOn_positionLeft unrestricted fits represented
    (kConvexOn_valueLeft unrestricted (Nat.le_of_succ_le inside))
  obtain ⟨S, minimum⟩ :=
    exists_firstMinimum (m.positionLeft config kept d left) (positions_nonempty fits)
  refine ⟨S, m.OrdersLeft config kept d left,
    fun x => if m.OrdersLeft config kept d left x then S - x else 0,
    ⟨fun x _ _ orders => ⟨Orders.lt nonneg convex minimum orders, if_pos orders⟩,
      fun x _ _ stays => if_neg stays,
      fun x y le orders => Orders.of_le nonneg convex minimum orders le⟩, fun x above below => ?_⟩
  dsimp only
  split
  · next orders =>
    rw [optimal_of_orders unrestricted inside found fits above below convex minimum orders]
  · next stays =>
    rw [optimal_of_not_orders unrestricted inside found fits above below stays]

end Unrestricted

section Run

variable {costs : Costs ℚ} {demand : Array (Tabulated ℚ)} {least greatest : Int}

theorem of_new (made : LotSizing.new costs demand least greatest = .ok m) :
    m = ⟨costs, demand, least, greatest, none⟩ ∧ Chargeable costs ∧ least ≤ greatest := by
  simp only [LotSizing.new, guard_eq_ok_iff] at made
  obtain ⟨usable, -, bounds, made⟩ := made
  cases made
  have mass : costs.toList.all Scalar.isMass = true := by simpa using usable
  simp only [Costs.toList, List.all_cons, Scalar.isMass, Scalar.isFinite, Bool.true_and,
    Bool.and_eq_true, Rational.le_iff] at mass
  obtain ⟨fixed, -, holding, penalty, -⟩ := mass
  exact ⟨rfl, ⟨fixed, holding, penalty⟩, Int.not_lt.1 bounds⟩

variable {config : Config ℚ} {b : Backward Level Order ℚ}
  (made : LotSizing.new costs demand least greatest = .ok m) (represented : m.Representable)
  (fits : ∀ d ∈ m.demand, m.Fits d) (direction : config.direction = .minimize)
  (states : config.stateSampling.isExhaustive = true)
  (outcomes : config.outcomeSampling.isExhaustive = true)
  (new : Backward.new m.problem config = .ok b)

theorem demand_found (new : Backward.new m.problem config = .ok b) {t : Nat}
    (before : t < config.horizon) : ∃ d, m.demand[t]? = some d := by
  have checked := (Backward.new_eq_ok_iff.1 new).2.1
  have enough : config.horizon ≤ m.demand.size := by
    change config.checkHorizon (some m.demand.size) = .ok () at checked
    rw [Config.checkHorizon] at checked
    split at checked
    · cases checked
    · omega
  exact ⟨_, Array.getElem?_eq_getElem (Nat.lt_of_lt_of_le before enough)⟩

include made represented fits direction states outcomes new

theorem unrestricted_of_new :
    m.Unrestricted config (Backward.kept m.problem config
      (Backward.generatedSpaces m.problem config)) := by
  obtain ⟨rfl, charges, bounds⟩ := of_new made
  have factor := Config.isFactor_of_validate (Backward.new_eq_ok_iff.1 new).1
  rw [Scalar.isFactor, Bool.and_eq_true, Rational.lt_iff, Rational.le_iff] at factor
  refine ⟨charges, represented, rfl, fun t before => ?_, direction, factor.1.le, factor.2,
    fun t before l member o feasible => ?_⟩
  · obtain ⟨d, found⟩ := demand_found new before
    exact ⟨d, found, fits d (Array.mem_of_getElem? found)⟩
  · have same := Backward.kept_eq_kept (lawful _) (closed _ bounds config.horizon) states before
      member feasible
    exact same.trans (if_pos outcomes)

theorem run_succeeds : b.run.1 = .ok () := by
  have unrestricted := unrestricted_of_new made represented fits direction states outcomes new
  refine (Backward.run_eq_ok_iff (lawful m) new).2 fun t before l listed => ?_
  obtain ⟨rfl, above, below⟩ := mem_levels.1
    ((Backward.mem_statesOf_generatedSpaces (lawful m) states before.le).1 listed)
  obtain ⟨d, found⟩ := demand_found new before
  have fit : m.Fits d := fits d (Array.mem_of_getElem? found)
  have period : config.horizon - (config.horizon - (l.period + 1) + 1) = l.period := by omega
  have inside : config.horizon - (l.period + 1) + 1 ≤ config.horizon := by omega
  rw [← period] at found
  have solvable := solvable_level unrestricted inside found fit above below
  rwa [period] at solvable

-- The quantities that a successful run orders in a period.
theorem action_of_run {t : Nat} (before : t < config.horizon) {x : Int} (above : m.least ≤ x)
    (below : x ≤ m.greatest) {o : Order}
    (ordered : (m.problem.optimal config (Backward.kept m.problem config
      (Backward.generatedSpaces m.problem config)) (config.horizon - t) ⟨t, x⟩).action = some o) :
    b.run.2.ledger.action ⟨t, x⟩ = .ok o := by
  have done := run_succeeds made represented fits direction states outcomes new
  have listed := (Backward.mem_statesOf_generatedSpaces (lawful m) states before.le).2
    (mem_levels.2 ⟨rfl, above, below⟩ : (⟨t, x⟩ : Level) ∈ m.levels t)
  rw [Ledger.action, Backward.decision?_of_run (lawful m) new done before.le listed]
  generalize m.problem.optimal config _ _ _ = decision at ordered ⊢
  obtain ⟨value, action⟩ := decision
  cases ordered
  rfl

theorem tabulates_of_run {t : Nat} (before : t < config.horizon) {quantity : Int → Int}
    (ordered : ∀ x, m.least ≤ x → x ≤ m.greatest →
      (m.problem.optimal config (Backward.kept m.problem config
        (Backward.generatedSpaces m.problem config)) (config.horizon - t) ⟨t, x⟩).action =
          some ⟨quantity x⟩) :
    ∃ table, b.run.2.valueFunction t = .ok table ∧
      ReorderPolicy.Tabulates table t m.least m.greatest quantity := by
  have done := run_succeeds made represented fits direction states outcomes new
  have level := fun l =>
    (Backward.mem_statesOf_generatedSpaces (s := l) (lawful m) states before.le).trans mem_levels
  refine ⟨_, Backward.valueFunction_of_run (lawful m) new done before.le, fun entry member => ?_,
    fun x above below => ?_⟩
  · obtain ⟨⟨period, x⟩, listed, rfl⟩ := List.mem_map.1 member
    obtain ⟨rfl, above, below⟩ := (level _).1 listed
    exact ⟨x, above, below, rfl, ordered x above below⟩
  · exact ⟨_, List.mem_map_of_mem ((level ⟨t, x⟩).2 ⟨rfl, above, below⟩), rfl,
      ordered x above below⟩

end Run

def mixed : LotSizing ℚ :=
  ⟨⟨2, 1, 1, 5⟩, #[⟨0, #[1 / 2, 1 / 2]⟩, ⟨1, #[1 / 4, 1 / 2, 1 / 4]⟩], -2, 4, none⟩

def immense : LotSizing ℚ :=
  ⟨⟨1, 0, 1, 1⟩, #[.point (2 ^ 63 - 8)], -5, 5, none⟩

def boundless : LotSizing ℚ :=
  ⟨⟨1, 0, 1, 1⟩, #[.point 0], -2 ^ 61, 2 ^ 61, none⟩

end Horizon.LotSizing
