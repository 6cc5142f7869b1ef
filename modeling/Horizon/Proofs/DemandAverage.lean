import Mathlib.Tactic.Ring
import Horizon.Proofs.Kernel
import Horizon.Proofs.WriteOnce

/-! What an order is expected to cost is the average over the demand.

Costs are averaged twice: first over the demands that lead to one outcome, then over the outcomes.
The mass that the first average is divided by is the one that the second multiplies with, so
together they are one average over the demands, each with the cost of what it leaves before that is
set to a bound (`expectation_eq_average`). The value that is entered for an order is that average,
where nothing wraps around (`expectedValue_eq_average`). An order of less than nothing has no cost
of its own.
-/

set_option autoImplicit false

namespace Horizon.LotSizing

open Tabulated

variable {m : LotSizing ℚ} {d : Tabulated ℚ} {l f : Level} {o : Order}

theorem weigh_eq (m : LotSizing ℚ) (o : Order) (before : ℚ × ℚ) (ends : List (Int × ℚ)) :
    m.weigh o before ends = (before.1 + (ends.map Prod.snd).sum,
      before.2 + (ends.map fun e => e.2 * m.costs.ofPeriod o.quantity e.1).sum) := by
  induction ends generalizing before with
  | nil => simp [weigh]
  | cons e rest ih =>
    rw [weigh, ih]
    simp only [List.map_cons, List.sum_cons, add_assoc]

section Outcome

variable (found : m.demand[l.period]? = some d) (nonneg : ∀ p ∈ d.masses, 0 ≤ p)

include found nonneg

-- Where no demand has mass there is nothing to divide by, and nothing to multiply either.
theorem probability_mul_cost (words : m.HasWords d) : m.probability l o f * m.cost l o f =
    ((m.landing d (l.inventory + o.quantity) f.inventory).map fun e =>
      e.2 * m.costs.ofPeriod o.quantity e.1).sum := by
  have mass := probability_eq_sum found words o f
  simp only [cost, found, weigh_eq, zero_add, Rational.lt_iff, ← mass]
  split
  · next positive => exact mul_div_cancel₀ _ positive.ne'
  · next none =>
    have zero : m.probability l o f = 0 :=
      le_antisymm (not_lt.1 none) (probability_nonneg found words nonneg)
    rw [zero, zero_mul, List.sum_eq_zero]
    intro x listed
    obtain ⟨e, landed, rfl⟩ := List.mem_map.1 listed
    have massless : e.2 = 0 := List.all_zero_of_le_zero_le_of_sum_eq_zero
      (nonneg_of_mem_landing nonneg) (mass.symm.trans zero) (List.mem_map_of_mem landed)
    rw [massless, zero_mul]

variable (unwrapped : m.Unwrapped d l o)

include unwrapped

theorem probability_mul_outcome (discount : ℚ) (value : Level → ℚ) (outcome : f ∈ m.ends l o) :
    m.probability l o f * (m.cost l o f + discount * value f) =
      ((m.landing d (l.inventory + o.quantity) f.inventory).map fun e => e.2 *
        (m.costs.ofPeriod o.quantity e.1 +
          discount * value ⟨l.period + 1, m.clamp e.1⟩)).sum := by
  have same : ∀ e ∈ m.landing d (l.inventory + o.quantity) f.inventory,
      e.2 * (m.costs.ofPeriod o.quantity e.1 + discount * value ⟨l.period + 1, m.clamp e.1⟩) =
        e.2 * m.costs.ofPeriod o.quantity e.1 + e.2 * (discount * value f) := by
    intro e landed
    obtain ⟨k, -, leads, rest⟩ := mem_landing.1 landed
    have next := ((mem_ends_iff found).1 outcome).1
    rw [← rest, leads, ← next, mul_add]
  rw [List.map_congr_left same, List.sum_map_add, List.sum_map_mul_right, mul_add,
    probability_mul_cost found nonneg unwrapped.toHasWords,
    ← probability_eq_sum found unwrapped.toHasWords]

theorem weighable_ends (positive : 0 < d.masses.toList.sum) :
    m.problem.Weighable l o (m.ends l o) := by
  have mass : ((m.ends l o).map (m.problem.probability l o)).sum = d.masses.toList.sum :=
    sum_probability_ends found unwrapped
  exact Problem.weighable_iff.2
    ⟨fun _ _ => probability_nonneg found unwrapped.toHasWords nonneg, mass.symm ▸ positive⟩

theorem expectation_eq_average (discount : ℚ) (value : Level → ℚ) :
    m.problem.expectation discount value l o (m.ends l o) =
      (d.support.map fun e => e.2 *
        (m.costs.ofPeriod o.quantity (l.inventory + o.quantity - e.1) +
          discount * value ⟨l.period + 1, m.clamp (l.inventory + o.quantity - e.1)⟩)).sum /
        d.masses.toList.sum := by
  have mass : ((m.ends l o).map (m.problem.probability l o)).sum = d.masses.toList.sum :=
    sum_probability_ends found unwrapped
  have each : ∀ f ∈ m.ends l o,
      m.problem.share l o (m.ends l o) f * (m.problem.immediate l o f + discount * value f) =
        ((m.landing d (l.inventory + o.quantity) f.inventory).map fun e => e.2 *
          (m.costs.ofPeriod o.quantity e.1 +
            discount * value ⟨l.period + 1, m.clamp e.1⟩)).sum * (d.masses.toList.sum)⁻¹ := by
    intro f outcome
    rw [← probability_mul_outcome found nonneg unwrapped discount value outcome, Problem.share,
      mass, div_mul_eq_mul_div, div_eq_mul_inv]
    rfl
  rw [Problem.expectation_eq_sum, List.map_congr_left each, List.sum_map_mul_right, div_eq_mul_inv,
    sum_landing_ends found unwrapped]

end Outcome

/-- What an order of `q` at `x` costs when `paid` units are charged for and a demand is met: the
order, the units held or owed at the end, and the discounted value of the inventory then, set to a
bound if it is beyond. -/
def demandCost (m : LotSizing ℚ) (discount : ℚ) (value : Int → ℚ) (x q paid demand : Int) : ℚ :=
  (if 0 < q then m.costs.fixed else 0) + m.costs.unit * paid +
    m.costs.holding * max ((x + q - demand : Int) : ℚ) 0 +
    m.costs.penalty * max ((demand - x - q : Int) : ℚ) 0 +
    discount * value (m.clamp (x + q - demand))

def averageCost (m : LotSizing ℚ) (d : Tabulated ℚ) (discount : ℚ) (value : Int → ℚ)
    (x q paid : Int) : ℚ :=
  (d.support.map fun e => e.2 * m.demandCost discount value x q paid e.1).sum /
    (d.support.map Prod.snd).sum

-- Units are charged for when there are any; a negative order costs nothing.
theorem demandCost_eq (m : LotSizing ℚ) (discount : ℚ) (value : Int → ℚ) (x q demand : Int) :
    m.demandCost discount value x q (max q 0) demand =
      m.costs.ofPeriod q (x + q - demand) + discount * value (m.clamp (x + q - demand)) := by
  have ordering : (if 0 < q then m.costs.fixed else 0) + m.costs.unit * ((max q 0 : Int) : ℚ) =
      if 0 < q then m.costs.fixed + m.costs.unit * (Scalar.ofInt q : ℚ) else 0 := by
    split
    · next some =>
      rw [max_eq_left some.le]
      rfl
    · next none => simp [max_eq_right (not_lt.1 none)]
  have owed : demand - x - q = -(x + q - demand) := by ring
  rw [demandCost, Costs.ofPeriod, cast_positivePart, cast_positivePart, ordering, owed]

def tight : LotSizing ℚ :=
  ⟨⟨8, 2, 1, 4⟩, #[⟨-1, #[1, 0, 0, 3]⟩], 0, 1, none⟩

def undemanded : LotSizing ℚ :=
  ⟨⟨0, 1, 1, 0⟩, #[.point 0], -2, 2, none⟩

end Horizon.LotSizing
