import Horizon.Proofs.Binary64
import Horizon.Proofs.Kernel

/-! The law of what an order leads to is that of the demand, carried along.

Where nothing wraps around, the outcomes of an order are the states that its demands lead to, from
the greatest inventory down: higher demands lead to lower inventories, so those that are set to one
bound follow each other (`ends_eq_destutter`). The mass of a state is that of the demands that lead
to it, whether it is looked up or summed (`probability_same`), and none is lost. What wraps around
lands at the wrong bound (`outcomes_wrap_around`).
-/

set_option autoImplicit false

namespace Horizon.LotSizing

open Tabulated

variable {ρ : Type}

def arriving [Scalar ρ] (m : LotSizing ρ) (d : Tabulated ρ) (position inventory : Int) : ρ :=
  Scalar.total ((d.support.filter fun e => m.clamp (position - e.1) = inventory).map Prod.snd)

/-- The outcomes of an order at a level and their masses are those of the demands. -/
structure FollowsDemand [Scalar ρ] (m : LotSizing ρ) (d : Tabulated ρ) (l : Level) (o : Order) :
    Prop where
  /-- Going through the demands, a state is listed when it is not the one listed last. -/
  ends_eq : m.ends l o = (d.values.map (m.leadsTo l o)).destutter (· ≠ ·)
  descending : (m.ends l o).Pairwise fun f g => g.inventory < f.inventory
  mem_ends_iff : ∀ f, f ∈ m.ends l o ↔ ∃ demand ∈ d.values, m.leadsTo l o demand = f
  known : ∀ f ∈ m.ends l o, f ∈ m.levels (l.period + 1)
  /-- Also where no demand leads. -/
  probability_same : ∀ f,
    Scalar.Same (m.probability l o f) (m.arriving d (l.inventory + o.quantity) f.inventory)
  total_eq : Scalar.Exact ρ →
    Scalar.total ((m.ends l o).map (m.probability l o)) = Scalar.total d.masses.toList

section Ends

variable {m : LotSizing ρ} {d : Tabulated ρ} {l : Level} {o : Order}
  (found : m.demand[l.period]? = some d) (unwrapped : m.Unwrapped d l o)

include found unwrapped

theorem mem_ends_iff_leadsTo {f : Level} :
    f ∈ m.ends l o ↔ ∃ demand ∈ d.values, m.leadsTo l o demand = f := by
  rw [mem_ends_iff found, ← unwrapped.represented.map_fst_support]
  constructor
  · rintro ⟨next, e, listed, leads⟩
    refine ⟨e.1, List.mem_map_of_mem listed, ?_⟩
    rw [leadsTo, ← unwrapped.wrap_eq listed, leads, ← next]
  · rintro ⟨demand, listed, rfl⟩
    obtain ⟨e, entry, rfl⟩ := List.mem_map.1 listed
    exact ⟨rfl, e, entry, congrArg m.clamp (unwrapped.wrap_eq entry)⟩

variable [Scalar ρ]

omit found in
theorem arriving_eq_total (inventory : Int) :
    m.arriving d (l.inventory + o.quantity) inventory =
      Scalar.total ((m.landing d (l.inventory + o.quantity) inventory).map Prod.snd) := by
  have same : ∀ e ∈ d.support,
      decide (m.clamp (wrap (l.inventory + o.quantity - e.1)) = inventory) =
        decide (m.clamp (l.inventory + o.quantity - e.1) = inventory) := by
    intro e listed
    rw [unwrapped.wrap_eq listed]
  rw [landing_eq_map_filter, List.map_map, List.filter_congr same]
  rfl

-- At most one demand leads strictly inside the bounds. Its mass is looked up, not added to zero.
theorem arriving_eq (f : Level) :
    m.arriving d (l.inventory + o.quantity) f.inventory = m.probability l o f ∨
      m.arriving d (l.inventory + o.quantity) f.inventory = 0 + m.probability l o f := by
  rw [arriving_eq_total unwrapped]
  simp only [probability, found]
  split
  · next inside =>
    rw [landing_of_isInside unwrapped.toHasWords inside, pmf]
    cases d.mass? (wrap (l.inventory + o.quantity - f.inventory)) with
    | none => exact .inl rfl
    | some p => exact .inr rfl
  · exact .inl rfl

theorem probability_same [Scalar.Unital ρ] (f : Level) :
    Scalar.Same (m.probability l o f) (m.arriving d (l.inventory + o.quantity) f.inventory) := by
  rcases arriving_eq found unwrapped f with same | same
  · exact .inl same.symm
  · rw [same]
    exact (Scalar.Unital.zero_add_same _).imp Eq.symm And.symm

end Ends

def erratic : LotSizing Float :=
  ⟨⟨1, 1, 1, 1⟩, #[⟨-2, #[0.125, 0, 0.5, 0.25, 0.125]⟩], -1, 1, some 0⟩

def stagnant : LotSizing ℚ :=
  ⟨⟨1, 1, 1, 1⟩, #[.point 0], 0, 2, none⟩

end Horizon.LotSizing
