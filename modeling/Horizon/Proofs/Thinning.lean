import Horizon.Proofs.Selection
import Horizon.StateSpace

/-! What a sampling keeps of a range.

The kept indices ascend and lie in the range. All are kept when the sampling is exhaustive or the
range is not longer than the sample; otherwise draws keep at most as many indices as the sample has,
and midpoints keep exactly that many, as evenly spaced as whole numbers allow. So the kept elements
of a list are in its order, and there are some when the list has any.
-/

set_option autoImplicit false

namespace Horizon

namespace Sampling

theorem dropRepeats_sublist (xs : List Nat) : (dropRepeats xs).Sublist xs := by
  fun_induction dropRepeats xs with
  | case1 x rest ih => exact ih.cons x
  | case2 x y rest other ih => exact ih.cons_cons x
  | case3 xs _ => exact .refl xs

theorem pairwise_dropRepeats {xs : List Nat} (sorted : xs.Pairwise (· ≤ ·)) :
    (dropRepeats xs).Pairwise (· < ·) := by
  fun_induction dropRepeats xs with
  | case1 x rest ih => exact ih sorted.tail
  | case2 x y rest other ih =>
    obtain ⟨below, tail⟩ := List.pairwise_cons.1 sorted
    obtain ⟨least, -⟩ := List.pairwise_cons.1 tail
    refine List.pairwise_cons.2 ⟨fun n member => ?_, ih tail⟩
    have first := below y List.mem_cons_self
    rcases List.mem_cons.1 (mem_dropRepeats.1 member) with rfl | later
    · omega
    · have := least n later
      omega
  | case3 xs short =>
    rcases xs with _ | ⟨x, _ | ⟨y, rest⟩⟩
    · exact .nil
    · exact List.pairwise_singleton _ x
    · exact (short x y rest rfl).elim

theorem pairwise_randomIndices (length size : Nat) (seed : UInt64) :
    (randomIndices length size seed).Pairwise (· < ·) := by
  apply pairwise_dropRepeats
  have sorted := @List.pairwise_mergeSort Nat (fun m n => decide (m ≤ n))
    (by simpa using fun _ _ _ => Nat.le_trans) (by simpa using Nat.le_total)
    ((Random.KeyStream.ofSeed seed).draws length size)
  simpa using sorted

theorem length_randomIndices_le (length size : Nat) (seed : UInt64) :
    (randomIndices length size seed).length ≤ size := by
  have shorter := (dropRepeats_sublist
    (((Random.KeyStream.ofSeed seed).draws length size).mergeSort (· ≤ ·))).length_le
  rwa [List.length_mergeSort, Random.KeyStream.length_draws] at shorter

def midpoint (length size i : Nat) : Nat :=
  (2 * i + 1) * length / (2 * size)

theorem midpointIndices_eq_map (length size : Nat) :
    midpointIndices length size = (List.range size).map (midpoint length size) :=
  rfl

@[simp] theorem length_midpointIndices (length size : Nat) :
    (midpointIndices length size).length = size := by
  simp [midpointIndices_eq_map]

theorem getElem?_midpointIndices {length size i n : Nat} :
    (midpointIndices length size)[i]? = some n ↔ i < size ∧ midpoint length size i = n := by
  rw [midpointIndices_eq_map, List.getElem?_map]
  by_cases inside : i < size
  · simp [inside]
  · simp [inside]

theorem div_lt_div_of_add_le {m n d : Nat} (positive : 0 < d) (apart : m + d ≤ n) :
    m / d < n / d := by
  have next := Nat.div_le_div_right (c := d) apart
  rwa [Nat.add_div_right m positive] at next

theorem pairwise_midpointIndices {length size : Nat} (positive : 0 < size)
    (longer : size ≤ length) : (midpointIndices length size).Pairwise (· < ·) := by
  rw [midpointIndices_eq_map, List.pairwise_map]
  refine List.pairwise_lt_range.imp fun {i j} before => ?_
  refine div_lt_div_of_add_le (by omega) ?_
  calc (2 * i + 1) * length + 2 * size
    _ ≤ (2 * i + 1) * length + 2 * length := by omega
    _ = (2 * i + 1 + 2) * length := (Nat.add_mul _ _ _).symm
    _ ≤ (2 * j + 1) * length := Nat.mul_le_mul_right length (by omega)

theorem ceiling_div {m d : Nat} (positive : 0 < d) (inexact : 0 < m % d) :
    (m + d - 1) / d = m / d + 1 := by
  have rest : (d - 1) % d = d - 1 := Nat.mod_eq_of_lt (by omega)
  rw [show m + d - 1 = m + (d - 1) by omega, Nat.add_div positive, rest,
    Nat.div_eq_of_lt (by omega : d - 1 < d), if_pos (by omega)]

-- The numerators are twice the length apart, that is, the quotient and a remainder of less than the
-- denominator, which makes a difference of one at most, and none where nothing is left over.
theorem midpoint_succ {length size : Nat} (positive : 0 < size) (i : Nat) :
    midpoint length size (i + 1) = midpoint length size i + length / size ∨
      midpoint length size (i + 1) = midpoint length size i + (length + size - 1) / size := by
  have apart : (2 * (i + 1) + 1) * length = (2 * i + 1) * length + 2 * length :=
    Nat.add_mul (2 * i + 1) 2 length
  have next : midpoint length size (i + 1) = midpoint length size i + length / size +
      if 2 * size ≤ (2 * i + 1) * length % (2 * size) + 2 * (length % size) then 1 else 0 := by
    rw [midpoint, apart, Nat.add_div (by omega), Nat.mul_div_mul_left _ _ Nat.two_pos,
      Nat.mul_mod_mul_left, midpoint]
  split at next
  · next carried =>
    have below : (2 * i + 1) * length % (2 * size) < 2 * size := Nat.mod_lt _ (by omega)
    rw [ceiling_div positive (by omega)]
    exact .inr next
  · exact .inl next

variable (s : Sampling) {length period : Nat} (seed : UInt64)

theorem sizeAt_pos (period : Nat) : 0 < s.sizeAt period :=
  Nat.le_max_left _ _

theorem select_of_whole (whole : s.isExhaustive = true ∨ length ≤ s.sizeAt period) :
    s.select length period seed = List.range length := by
  unfold select
  split
  · next none => simp [none]
  · rw [if_pos (by simpa using whole)]

theorem select_of_random (random : s.scheme = .random) (longer : s.sizeAt period < length) :
    s.select length period seed = randomIndices length (s.sizeAt period) seed := by
  unfold select
  rw [if_neg (by omega), if_neg (by simp [isExhaustive, random, longer]), random]

theorem select_of_midpoints (midpoints : s.scheme = .midpoints)
    (longer : s.sizeAt period < length) :
    s.select length period seed = midpointIndices length (s.sizeAt period) := by
  unfold select
  rw [if_neg (by omega), if_neg (by simp [isExhaustive, midpoints, longer]), midpoints]

theorem pairwise_select (length period : Nat) (seed : UInt64) :
    (s.select length period seed).Pairwise (· < ·) := by
  by_cases whole : s.isExhaustive = true ∨ length ≤ s.sizeAt period
  · rw [s.select_of_whole seed whole]
    exact List.pairwise_lt_range
  · have longer : s.sizeAt period < length := by simp at whole; omega
    cases scheme : s.scheme with
    | exhaustive => simp [isExhaustive, scheme] at whole
    | random =>
      rw [s.select_of_random seed scheme longer]
      exact pairwise_randomIndices _ _ seed
    | midpoints =>
      rw [s.select_of_midpoints seed scheme longer]
      exact pairwise_midpointIndices (s.sizeAt_pos period) (Nat.le_of_lt longer)

theorem select_eq_nil_iff : s.select length period seed = [] ↔ length = 0 := by
  constructor
  · intro none
    rcases Nat.eq_zero_or_pos length with empty | positive
    · exact empty
    · exact absurd none (s.select_spec period seed positive).1
  · rintro rfl
    rfl

theorem lt_of_mem_select {i : Nat} (kept : i ∈ s.select length period seed) : i < length := by
  rcases Nat.eq_zero_or_pos length with rfl | positive
  · cases kept
  · exact (s.select_spec period seed positive).2 i kept

theorem filterMap_range {σ : Type} (xs : List σ) :
    (List.range xs.length).filterMap (xs[·]?) = xs := by
  induction xs with
  | nil => rfl
  | cons x rest ih => simpa [List.range_succ_eq_map, List.filterMap_map, Function.comp_def] using ih

theorem pick_eq {σ : Type} (xs : List σ) :
    s.pick xs period seed = (s.select xs.length period seed).filterMap (xs[·]?) := by
  unfold pick
  split
  · next whole => rw [s.select_of_whole seed (.inl whole), filterMap_range]
  · simp

end Sampling

/-- The elements at some indices: each index hits one, they are in the order of the list, and there
are some when the list has any. -/
structure TakenAt {σ : Type} (xs : List σ) (indices : List Nat) (taken : List σ) : Prop where
  hits : taken.map some = indices.map (xs[·]?)
  sublist : taken.Sublist xs
  nonempty : xs ≠ [] → taken ≠ []

theorem Sampling.takenAt_pick {σ : Type} (s : Sampling) (xs : List σ) (period : Nat)
    (seed : UInt64) :
    TakenAt xs (s.select xs.length period seed) (s.pick xs period seed) := by
  obtain ⟨places, same⟩ : ∃ places : List (Fin xs.length),
      places.map Fin.val = s.select xs.length period seed :=
    ⟨(s.select xs.length period seed).pmap Fin.mk fun i => s.lt_of_mem_select seed,
      by simp [List.map_pmap]⟩
  have picked : s.pick xs period seed = places.map (xs[·]) := by
    rw [pick_eq, ← same, List.filterMap_map, ← List.filterMap_eq_map]
    congr 1
    funext i
    simp
  refine ⟨?_, ?_, s.pick_ne_nil period seed⟩
  · simp [picked, ← same]
  · have increasing := s.pairwise_select xs.length period seed
    rw [← same, List.pairwise_map] at increasing
    rw [picked]
    exact List.map_getElem_sublist increasing

variable {σ α ρ : Type} [DecidableEq σ]

theorem StateSpace.sampledDomain_eq (space : StateSpace σ) (P : Problem σ α ρ) :
    space.sampledDomain P = space.sampling.pick (P.domain space.period) space.period
      (Random.mixSeed space.seed (UInt64.ofNat space.period)) := by
  unfold sampledDomain Sampling.pick
  split <;> rfl

omit [DecidableEq σ] in
theorem Problem.keepOutcomes_eq_pick (P : Problem σ α ρ) (sampling : Sampling) (seed : UInt64)
    (s : σ) (a : α) (candidates : List σ) :
    P.keepOutcomes sampling seed s a candidates =
      sampling.pick candidates (P.period s) (Random.mixSeed seed (P.fingerprint s a)) := by
  unfold keepOutcomes Sampling.pick
  split <;> rfl

/-- What a sampling selects of a range of some length in a period. -/
structure Sampling.Selects (s : Sampling) (length period : Nat) (seed : UInt64) : Prop where
  increasing : (s.select length period seed).Pairwise (· < ·)
  inside : ∀ i ∈ s.select length period seed, i < length
  empty_iff : s.select length period seed = [] ↔ length = 0
  whole : s.isExhaustive = true ∨ length ≤ s.sizeAt period →
    s.select length period seed = List.range length
  drawn : s.scheme = .random → s.sizeAt period < length →
    1 ≤ (s.select length period seed).length ∧
      (s.select length period seed).length ≤ s.sizeAt period
  counted : s.scheme = .midpoints → s.sizeAt period < length →
    (s.select length period seed).length = s.sizeAt period
  seedless : s.scheme = .midpoints → s.sizeAt period < length →
    ∀ seed', s.select length period seed' = s.select length period seed
  /-- Neighbours are apart by the quotient of length and size, rounded down or up. -/
  spaced : s.scheme = .midpoints → s.sizeAt period < length → ∀ i m n : Nat,
    (s.select length period seed)[i]? = some m → (s.select length period seed)[i + 1]? = some n →
      n = m + length / s.sizeAt period ∨
        n = m + (length + s.sizeAt period - 1) / s.sizeAt period

theorem Sampling.selects (s : Sampling) (length period : Nat) (seed : UInt64) :
    s.Selects length period seed where
  increasing := s.pairwise_select length period seed
  inside _ := s.lt_of_mem_select seed
  empty_iff := s.select_eq_nil_iff seed
  whole := s.select_of_whole seed
  drawn random longer := by
    refine ⟨List.length_pos_iff.2 ?_, ?_⟩
    · rw [Ne, s.select_eq_nil_iff]
      omega
    · rw [s.select_of_random seed random longer]
      exact length_randomIndices_le _ _ seed
  counted midpoints longer := by
    rw [s.select_of_midpoints seed midpoints longer, length_midpointIndices]
  seedless midpoints longer seed' := by
    rw [s.select_of_midpoints seed midpoints longer, s.select_of_midpoints seed' midpoints longer]
  spaced midpoints longer i m n := by
    rw [s.select_of_midpoints seed midpoints longer, getElem?_midpointIndices,
      getElem?_midpointIndices]
    rintro ⟨-, rfl⟩ ⟨-, rfl⟩
    exact midpoint_succ (s.sizeAt_pos period) i

/-- A sampling selects ascending indices of a range, some when there are any: all of them, at most
as many as its size, or just as many and evenly spaced. So the sample of a domain and the kept
outcomes of a pair are what stands at the selected indices, none of which is out of range, in its
order. -/
theorem samples_are_sublists :
    (∀ (s : Sampling) (length period : Nat) (seed : UInt64), s.Selects length period seed) ∧
      (∀ (P : Problem σ α ρ) (space : StateSpace σ),
        TakenAt (P.domain space.period)
          (space.sampling.select (P.domain space.period).length space.period
            (Random.mixSeed space.seed (UInt64.ofNat space.period)))
          (space.sampledDomain P)) ∧
      ∀ (P : Problem σ α ρ) (s : Sampling) (seed : UInt64) (state : σ) (a : α)
        (candidates : List σ),
        TakenAt candidates
          (s.select candidates.length (P.period state)
            (Random.mixSeed seed (P.fingerprint state a)))
          (P.keepOutcomes s seed state a candidates) := by
  refine ⟨Sampling.selects, fun P space => ?_, fun P s seed state a candidates => ?_⟩
  · rw [space.sampledDomain_eq]
    exact space.sampling.takenAt_pick _ _ _
  · rw [P.keepOutcomes_eq_pick]
    exact s.takenAt_pick _ _ _

end Horizon
