import Mathlib.Tactic.LinearCombination
import Mathlib.Tactic.Linarith
import Mathlib.Tactic.Ring
import Horizon.Proofs.Rational
import Horizon.Integers

/-! Functions of an inventory that is raised at a fixed cost.

With a fixed cost `K` per order the values of a period are not convex, but `K`-convex: a line
through two points lies at most `K` above the function at later points. This is what makes ordering
up to one level the best way to order. Whoever orders, orders up to the first minimum `S` of the
cost of a position, and ordering pays exactly below some level (`Orders.lt`, `Orders.of_le`). The
values that result are `K`-convex again (`kConvexOn_of_best`), so the argument goes on to the
period before.
-/

set_option autoImplicit false

namespace Horizon

structure FirstMinimum (low high : Int) (f : Int → ℚ) (S : Int) : Prop where
  above : low ≤ S
  below : S ≤ high
  least : ∀ y, low ≤ y → y ≤ high → f S ≤ f y
  first : ∀ y, low ≤ y → y < S → f S < f y

/-- A line through two points between `low` and `high` is at most `K` above `f` at later ones. -/
def KConvexOn (K : ℚ) (low high : Int) (f : Int → ℚ) : Prop :=
  ∀ x y z : Int, low ≤ x → x < y → y ≤ z → z ≤ high →
    ((z : ℚ) - y) * (f y - f x) ≤ ((y : ℚ) - x) * (K + f z - f y)

/-- Whether an order is placed at `x`: because the inventory has to be raised to `low`, or because
some position is worth the fixed cost. -/
def Orders (K : ℚ) (low high : Int) (f : Int → ℚ) (x : Int) : Prop :=
  x < low ∨ ∃ y, x < y ∧ y ≤ high ∧ K + f y < f x

/-- The cost of an order at `x`, when `f` is the cost of a position and a unit is `unit` cheaper for
having been there before. -/
def orderCost (K unit : ℚ) (f : Int → ℚ) (x q : Int) : ℚ :=
  (if 0 < q then K else 0) - unit * x + f (x + q)

variable {K : ℚ} {low high S : Int} {f g : Int → ℚ}

theorem FirstMinimum.unique {T : Int} (one : FirstMinimum low high f S)
    (other : FirstMinimum low high f T) : S = T := by
  rcases lt_trichotomy S T with less | same | more
  · exact absurd (other.first S one.above less) (one.least T other.above other.below).not_gt
  · exact same
  · exact absurd (one.first T other.above more) (other.least S one.above one.below).not_gt

theorem FirstMinimum.congr (minimum : FirstMinimum low high f S)
    (same : ∀ y, low ≤ y → y ≤ high → f y = g y) : FirstMinimum low high g S := by
  obtain ⟨above, below, least, first⟩ := minimum
  have there := same S above below
  refine ⟨above, below, fun y lower upper => ?_, fun y lower before => ?_⟩
  · rw [← there, ← same y lower upper]
    exact least y lower upper
  · rw [← there, ← same y lower (before.le.trans below)]
    exact first y lower before

theorem pairwise_ascending (low high : Int) : (ascending low high).Pairwise (· < ·) := by
  rw [ascending, List.pairwise_map]
  refine List.pairwise_lt_range.imp fun less => ?_
  omega

-- Candidates that are listed in ascending order have the first minimum as the first best.
theorem firstMinimum_of_isFirstBest {α : Type} {candidate : Int → α × ℚ} {best : α × ℚ}
    (first : IsFirstBest .minimize ((ascending low high).map candidate) best) :
    ∃ S, best = candidate S ∧ FirstMinimum low high (fun y => (candidate y).2) S := by
  obtain ⟨before, after, split, smaller, larger⟩ := first
  obtain ⟨earlier, others, listed, rfl, rest⟩ := List.map_eq_append_iff.1 split
  obtain ⟨S, later, rfl, rfl, rfl⟩ := List.map_eq_cons_iff.1 rest
  have sorted := pairwise_ascending low high
  rw [listed, List.pairwise_append, List.pairwise_cons] at sorted
  obtain ⟨-, ⟨after, -⟩, -⟩ := sorted
  have inside : ∀ y, low ≤ y ∧ y ≤ high ↔ y ∈ earlier ∨ y = S ∨ y ∈ later := by
    intro y
    rw [← mem_ascending, listed, List.mem_append, List.mem_cons]
  obtain ⟨above, below⟩ := (inside S).2 (.inr (.inl rfl))
  refine ⟨S, rfl, above, below, fun y above below => ?_, fun y above less => ?_⟩
  · rcases (inside y).1 ⟨above, below⟩ with member | rfl | member
    · have better := smaller (candidate y) (List.mem_map_of_mem member)
      exact ((Rational.lt_iff _ _).1 better).le
    · exact le_rfl
    · have worse := larger (candidate y) (List.mem_map_of_mem member)
      exact (Direction.improves_eq_false_iff .minimize _ _).1 worse
  · rcases (inside y).1 ⟨above, by omega⟩ with member | rfl | member
    · exact (Rational.lt_iff _ _).1 (smaller (candidate y) (List.mem_map_of_mem member))
    · exact absurd less (lt_irrefl y)
    · exact absurd less (after y member).asymm

theorem exists_firstMinimum (f : Int → ℚ) (bounds : low ≤ high) :
    ∃ S, FirstMinimum low high f S := by
  cases found : firstBest .minimize ((ascending low high).map fun y => (y, f y)) with
  | none =>
    rw [firstBest_eq_none, List.map_eq_nil_iff] at found
    have member := mem_ascending.2 ⟨le_refl low, bounds⟩
    rw [found] at member
    cases member
  | some best =>
    obtain ⟨S, -, minimum⟩ :=
      firstMinimum_of_isFirstBest (isFirstBest_of_firstBest (fun _ _ => rfl) found)
    exact ⟨S, minimum⟩

section Closure

variable {low' high' : Int}

theorem KConvexOn.of_le {K' : ℚ} (convex : KConvexOn K low high f) (le : K ≤ K') :
    KConvexOn K' low high f := by
  intro x y z above before after below
  have step : (0 : ℚ) ≤ y - x := sub_nonneg.2 (Int.cast_le.2 before.le)
  refine (convex x y z above before after below).trans ?_
  exact mul_le_mul_of_nonneg_left (by linarith) step

theorem KConvexOn.add {K' : ℚ} (one : KConvexOn K low high f) (other : KConvexOn K' low high g) :
    KConvexOn (K + K') low high fun y => f y + g y := by
  intro x y z above before after below
  have sum := add_le_add (one x y z above before after below) (other x y z above before after below)
  linear_combination sum

theorem KConvexOn.mul {c : ℚ} (nonneg : 0 ≤ c) (convex : KConvexOn K low high f) :
    KConvexOn (c * K) low high fun y => c * f y := by
  intro x y z above before after below
  linear_combination c * convex x y z above before after below

theorem KConvexOn.shift (convex : KConvexOn K low high f) (k : Int) :
    KConvexOn K (low + k) (high + k) fun y => f (y - k) := by
  intro x y z above before after below
  have there := convex (x - k) (y - k) (z - k) (by omega) (by omega) (by omega) (by omega)
  push_cast at there
  linear_combination there

theorem KConvexOn.mono (convex : KConvexOn K low high f) (above : low ≤ low')
    (below : high' ≤ high) :
    KConvexOn K low' high' f :=
  fun x y z lower before after upper =>
    convex x y z (above.trans lower) before after (upper.trans below)

theorem kConvexOn_linear (c : ℚ) (low high : Int) : KConvexOn 0 low high fun y => c * y := by
  intro x y z above before after below
  apply le_of_eq
  ring

theorem kConvexOn_sum {β : Type} {xs : List β} {weight : β → ℚ} {F : β → Int → ℚ}
    (nonneg : ∀ x ∈ xs, 0 ≤ weight x) (each : ∀ x ∈ xs, KConvexOn K low high (F x)) :
    KConvexOn ((xs.map weight).sum * K) low high fun y =>
      (xs.map fun x => weight x * F x y).sum := by
  induction xs with
  | nil =>
    intro x y z above before after below
    simp
  | cons x rest ih =>
    have first := (each x List.mem_cons_self).mul (nonneg x List.mem_cons_self)
    have others := ih (fun x' member => nonneg x' (List.mem_cons_of_mem x member))
      fun x' member => each x' (List.mem_cons_of_mem x member)
    have both := first.add others
    rw [← add_mul] at both
    exact both

-- Below zero it does not grow, and from zero on it grows as fast as it ever does.
theorem kConvexOn_positivePart (low high : Int) :
    KConvexOn 0 low high fun y => Scalar.positivePart y := by
  intro x y z above before after below
  have toY : (0 : ℚ) ≤ y - x := sub_nonneg.2 (Int.cast_le.2 before.le)
  have toZ : (0 : ℚ) ≤ z - y := sub_nonneg.2 (Int.cast_le.2 after)
  simp only [cast_positivePart, zero_add]
  rcases le_total (y : ℚ) 0 with owed | onHand
  · rw [max_eq_right owed, zero_sub, sub_zero]
    calc ((z : ℚ) - y) * -max (x : ℚ) 0 ≤ 0 :=
        mul_nonpos_of_nonneg_of_nonpos toZ (neg_nonpos.2 (le_max_right _ _))
      _ ≤ ((y : ℚ) - x) * max (z : ℚ) 0 := mul_nonneg toY (le_max_right _ _)
  · rw [max_eq_left onHand]
    calc ((z : ℚ) - y) * (y - max (x : ℚ) 0) ≤ (z - y) * (y - x) :=
        mul_le_mul_of_nonneg_left (sub_le_sub_left (le_max_left _ _) _) toZ
      _ = (y - x) * (z - y) := mul_comm _ _
      _ ≤ (y - x) * (max (z : ℚ) 0 - y) :=
        mul_le_mul_of_nonneg_left (sub_le_sub_right (le_max_left _ _) _) toY

-- What is on hand and what is owed differ by the inventory.
theorem positivePart_neg (n : Int) :
    (Scalar.positivePart (-n) : ℚ) = Scalar.positivePart n + -1 * n := by
  rw [cast_positivePart, cast_positivePart, Int.cast_neg]
  rcases le_total (n : ℚ) 0 with owed | onHand
  · rw [max_eq_right owed, max_eq_left (neg_nonneg.2 owed)]
    ring
  · rw [max_eq_left onHand, max_eq_right (neg_nonpos.2 onHand)]
    ring

theorem kConvexOn_charge {holding penalty : ℚ} (holds : 0 ≤ holding) (owes : 0 ≤ penalty)
    (low high : Int) : KConvexOn 0 low high fun y =>
      holding * Scalar.positivePart y + penalty * Scalar.positivePart (-y) := by
  have onHand := (kConvexOn_positivePart low high).mul holds
  have owed := ((kConvexOn_positivePart low high).add (kConvexOn_linear (-1) low high)).mul owes
  simp only [positivePart_neg]
  exact (onHand.add owed).of_le (by simp)

end Closure

section OnePeriod

variable {x : Int} (nonneg : 0 ≤ K) (convex : KConvexOn K low high f)
  (minimum : FirstMinimum low high f S)

theorem le_of_not_orders {y : Int} (stays : ¬Orders K low high f x) (after : x < y)
    (below : y ≤ high) : f x ≤ K + f y := by
  by_contra cheaper
  exact stays (.inr ⟨y, after, below, not_le.1 cheaper⟩)

theorem low_le_of_not_orders (stays : ¬Orders K low high f x) : low ≤ x :=
  not_lt.1 fun early => stays (.inl early)

include minimum in
theorem Orders.gap (orders : Orders K low high f x) (inside : low ≤ x) : K + f S < f x := by
  rcases orders with early | ⟨y, after, below, worth⟩
  · exact absurd inside (not_le.2 early)
  · have least := minimum.least y (by omega) below
    linarith

include nonneg convex minimum

-- Ordering does not pay from the minimum on: beyond it a line from there would rise.
theorem Orders.lt (orders : Orders K low high f x) : x < S := by
  have above := minimum.above
  rcases orders with early | ⟨y, after, below, worth⟩
  · omega
  · by_contra beyond
    rcases (not_lt.1 beyond).eq_or_lt with rfl | beyond
    · have least := minimum.least y (by omega) below
      linarith
    · have line := convex S x y above beyond after.le below
      have rise : f S ≤ f x := minimum.least x (by omega) (by omega)
      have toX : (0 : ℚ) < x - S := sub_pos.2 (Int.cast_lt.2 beyond)
      have toY : (0 : ℚ) ≤ y - x := sub_nonneg.2 (Int.cast_le.2 after.le)
      have falls : ((x : ℚ) - S) * (K + f y - f x) < 0 :=
        mul_neg_of_pos_of_neg toX (by linarith)
      have rises : 0 ≤ ((y : ℚ) - x) * (f x - f S) := mul_nonneg toY (by linarith)
      linarith

theorem Orders.of_le {x' : Int} (orders : Orders K low high f x) (le : x' ≤ x) :
    Orders K low high f x' := by
  rcases le.eq_or_lt with rfl | less
  · exact orders
  · by_cases inside : low ≤ x'
    · have early := orders.lt nonneg convex minimum
      have gap := orders.gap minimum (inside.trans le)
      refine .inr ⟨S, less.trans early, minimum.below, ?_⟩
      by_contra dear
      have line := convex x' x S inside less early.le minimum.below
      have toX : (0 : ℚ) < x - x' := sub_pos.2 (Int.cast_lt.2 less)
      have toS : (0 : ℚ) < S - x := sub_pos.2 (Int.cast_lt.2 early)
      have falls : ((x : ℚ) - x') * (K + f S - f x) < 0 :=
        mul_neg_of_pos_of_neg toX (by linarith)
      have rises : 0 ≤ ((S : ℚ) - x) * (f x - f x') := mul_nonneg toS.le (by linarith)
      linarith
    · exact .inl (not_le.1 inside)

omit nonneg convex minimum in
theorem orderCost_up_to (unit : ℚ) (early : x < S) :
    orderCost K unit f x (S - x) = K - unit * x + f S := by
  rw [orderCost, if_pos (by omega), add_sub_cancel]

omit nonneg convex minimum in
theorem orderCost_zero (unit : ℚ) : orderCost K unit f x 0 = f x - unit * x := by
  rw [orderCost, if_neg (lt_irrefl 0), add_zero]
  ring

theorem firstMinimum_of_orders (unit : ℚ) (orders : Orders K low high f x) :
    FirstMinimum (max 0 (low - x)) (high - x) (orderCost K unit f x) (S - x) := by
  have early := orders.lt nonneg convex minimum
  have above := minimum.above
  have below := minimum.below
  refine ⟨by omega, by omega, fun q smallest largest => ?_, fun q smallest before => ?_⟩
  · rw [orderCost_up_to unit early, orderCost]
    split
    · have least := minimum.least (x + q) (by omega) (by omega)
      linarith
    · obtain rfl : q = 0 := by omega
      have gap := orders.gap minimum (by omega)
      rw [add_zero]
      linarith
  · rw [orderCost_up_to unit early, orderCost]
    split
    · have first := minimum.first (x + q) (by omega) (by omega)
      linarith
    · obtain rfl : q = 0 := by omega
      have gap := orders.gap minimum (by omega)
      rw [add_zero]
      linarith

omit nonneg convex minimum in
theorem firstMinimum_of_not_orders (unit : ℚ) (stays : ¬Orders K low high f x) (inside : x ≤ high) :
    FirstMinimum (max 0 (low - x)) (high - x) (orderCost K unit f x) 0 := by
  have above := low_le_of_not_orders stays
  refine ⟨by omega, by omega, fun q smallest largest => ?_, fun q smallest before => by omega⟩
  rw [orderCost_zero, orderCost]
  split
  · have dear := le_of_not_orders stays (y := x + q) (by omega) (by omega)
    linarith
  · obtain rfl : q = 0 := by omega
    rw [add_zero]
    linarith

-- A line that starts among those who order and goes on among the others. Unless it falls at once,
-- it is compared with the line from `S`.
theorem line_from_orders {y z : Int} (orders : Orders K low high f x)
    (next : ¬Orders K low high f y) (before : x < y) (after : y ≤ z) (below : z ≤ high) :
    ((z : ℚ) - y) * (f y - (K + f S)) ≤ (y - x) * (K + f z - f y) := by
  have toY : (0 : ℚ) ≤ y - x := sub_nonneg.2 (Int.cast_le.2 before.le)
  have toZ : (0 : ℚ) ≤ z - y := sub_nonneg.2 (Int.cast_le.2 after)
  have rest : 0 ≤ K + f z - f y := by
    rcases after.eq_or_lt with rfl | after
    · linarith
    · have dear := le_of_not_orders next after below
      linarith
  rcases le_or_gt (f y) (K + f S) with cheap | dear
  · calc ((z : ℚ) - y) * (f y - (K + f S)) ≤ 0 :=
        mul_nonpos_of_nonneg_of_nonpos toZ (by linarith)
      _ ≤ ((y : ℚ) - x) * (K + f z - f y) := mul_nonneg toY rest
  · have early := orders.lt nonneg convex minimum
    have beyond : S < y := by
      by_contra early
      rcases (not_lt.1 early).eq_or_lt with rfl | later
      · linarith
      · exact next (.inr ⟨S, later, minimum.below, dear⟩)
    have line := convex S y z minimum.above beyond after below
    have shorter : (y : ℚ) - S ≤ y - x := sub_le_sub_left (Int.cast_le.2 early.le) _
    calc ((z : ℚ) - y) * (f y - (K + f S)) ≤ (z - y) * (f y - f S) :=
        mul_le_mul_of_nonneg_left (by linarith) toZ
      _ ≤ ((y : ℚ) - S) * (K + f z - f y) := line
      _ ≤ ((y : ℚ) - x) * (K + f z - f y) := mul_le_mul_of_nonneg_right shorter rest

-- The values of a period in which everyone orders up to `S` or not at all. Where both points of a
-- line order the values are level.
theorem kConvexOn_of_best {least greatest : Int} {best : Int → ℚ} (inside : greatest ≤ high)
    (ordered : ∀ x, least ≤ x → x ≤ greatest → Orders K low high f x → best x = K + f S)
    (stayed : ∀ x, least ≤ x → x ≤ greatest → ¬Orders K low high f x → best x = f x) :
    KConvexOn K least greatest best := by
  intro x y z above before after below
  by_cases orders : Orders K low high f x
  · rw [ordered x above (by omega) orders]
    by_cases next : Orders K low high f y
    · rw [ordered y (by omega) (by omega) next, sub_self, mul_zero]
      refine mul_nonneg (sub_nonneg.2 (Int.cast_le.2 before.le)) ?_
      by_cases last : Orders K low high f z
      · rw [ordered z (by omega) below last]
        linarith
      · have fall := minimum.least z (low_le_of_not_orders last) (by omega)
        rw [stayed z (by omega) below last]
        linarith
    · have last : ¬Orders K low high f z :=
        fun last => next (last.of_le nonneg convex minimum after)
      rw [stayed y (by omega) (by omega) next, stayed z (by omega) below last]
      exact line_from_orders nonneg convex minimum orders next before after (below.trans inside)
  · have next : ¬Orders K low high f y :=
      fun next => orders (next.of_le nonneg convex minimum before.le)
    have last : ¬Orders K low high f z :=
      fun last => next (last.of_le nonneg convex minimum after)
    rw [stayed x above (by omega) orders, stayed y (by omega) (by omega) next,
      stayed z (by omega) below last]
    exact convex x y z (low_le_of_not_orders orders) before after (by omega)

end OnePeriod

end Horizon
