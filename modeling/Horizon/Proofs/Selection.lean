import Horizon.Problem

/-! A sampling keeps something of what is not empty.

Draws and midpoints are indices of the range they are taken from, and there is at least one of
them, because the number of elements that are kept is never less than one.
-/

set_option autoImplicit false

namespace Horizon

namespace Random.KeyStream

variable {bound : Nat}

theorem scaled_lt (positive : 0 < bound) (word : UInt64) :
    word.toNat * bound / UInt64.size < bound := by
  rw [Nat.div_lt_iff_lt_mul (by decide), Nat.mul_comm bound]
  exact Nat.mul_lt_mul_of_pos_right word.toNat_lt positive

theorem below_lt (positive : 0 < bound) (fuel : Nat) (s : KeyStream) :
    (s.below bound fuel).1 < bound := by
  induction fuel generalizing s with
  | zero =>
    rw [below]
    exact scaled_lt positive s.next.1
  | succ fuel ih =>
    rw [below]
    dsimp only
    split
    · exact scaled_lt positive s.next.1
    · exact ih s.next.2

theorem draws_succ (count : Nat) (s : KeyStream) :
    s.draws bound (count + 1) =
      (s.below bound 1024).1 :: (s.below bound 1024).2.draws bound count := by
  rw [draws]

theorem length_draws (bound count : Nat) (s : KeyStream) :
    (s.draws bound count).length = count := by
  induction count generalizing s with
  | zero => rfl
  | succ count ih => rw [draws_succ, List.length_cons, ih]

theorem lt_of_mem_draws (positive : 0 < bound) {count n : Nat} {s : KeyStream}
    (drawn : n ∈ s.draws bound count) : n < bound := by
  induction count generalizing s with
  | zero => cases drawn
  | succ count ih =>
    rw [draws_succ] at drawn
    rcases List.mem_cons.1 drawn with first | later
    · rw [first]
      exact below_lt positive 1024 s
    · exact ih later

end Random.KeyStream

namespace Sampling

theorem mem_dropRepeats {n : Nat} {xs : List Nat} : n ∈ dropRepeats xs ↔ n ∈ xs := by
  fun_induction dropRepeats xs with
  | case1 x rest ih => simp [ih]
  | case2 x y rest other ih => simp [ih]
  | case3 xs _ => exact Iff.rfl

theorem mem_randomIndices {length size n : Nat} {seed : UInt64} :
    n ∈ randomIndices length size seed ↔
      n ∈ (Random.KeyStream.ofSeed seed).draws length size := by
  rw [randomIndices, mem_dropRepeats, List.mem_mergeSort]

theorem lt_of_mem_midpointIndices {length size n : Nat} (positive : 0 < length)
    (member : n ∈ midpointIndices length size) : n < length := by
  obtain ⟨i, inside, rfl⟩ := List.mem_map.1 member
  have before : i < size := List.mem_range.1 inside
  rw [Nat.div_lt_iff_lt_mul (by omega), Nat.mul_comm length]
  exact Nat.mul_lt_mul_of_pos_right (by omega) positive

variable (s : Sampling) {length : Nat} (period : Nat) (seed : UInt64)

/-- What is selected from a range that is not empty is not empty, and belongs to it. -/
theorem select_spec (positive : 0 < length) :
    s.select length period seed ≠ [] ∧ ∀ i ∈ s.select length period seed, i < length := by
  have some : 0 < s.sizeAt period := Nat.lt_of_lt_of_le Nat.one_pos (Nat.le_max_left _ _)
  have all : List.range length ≠ [] ∧ ∀ i ∈ List.range length, i < length :=
    ⟨by simpa using Nat.ne_of_gt positive, fun _ => List.mem_range.1⟩
  unfold select
  rw [if_neg (Nat.ne_of_gt positive)]
  dsimp only
  split
  · exact all
  · split
    · exact all
    · refine ⟨fun none => ?_, fun i member => ?_⟩
      · have drawn : ∀ n, n ∉ (Random.KeyStream.ofSeed seed).draws length (s.sizeAt period) := by
          intro n member
          have kept := mem_randomIndices.2 member
          rw [none] at kept
          cases kept
        have count := Random.KeyStream.length_draws length (s.sizeAt period)
          (Random.KeyStream.ofSeed seed)
        rw [List.eq_nil_iff_forall_not_mem.2 drawn] at count
        exact Nat.ne_of_lt some count
      · exact Random.KeyStream.lt_of_mem_draws positive (mem_randomIndices.1 member)
    · refine ⟨fun none => ?_, fun i => lt_of_mem_midpointIndices positive⟩
      have count := congrArg List.length none
      simp only [midpointIndices, List.length_map, List.length_range, List.length_nil] at count
      omega

theorem pick_ne_nil {σ : Type} {xs : List σ} (some : xs ≠ []) : s.pick xs period seed ≠ [] := by
  unfold pick
  split
  · exact some
  · intro none
    have positive : 0 < xs.toArray.size := by
      rw [List.size_toArray]
      exact List.length_pos_iff.2 some
    obtain ⟨selected, inside⟩ := s.select_spec period seed positive
    obtain ⟨i, rest, same⟩ := List.exists_cons_of_ne_nil selected
    have member : i ∈ s.select xs.toArray.size period seed := by
      rw [same]
      exact List.mem_cons_self
    have lost := List.filterMap_eq_nil_iff.1 none i member
    rw [getElem?_pos _ i (inside i member)] at lost
    cases lost

end Sampling

theorem Problem.keepOutcomes_ne_nil {σ α ρ : Type} (P : Problem σ α ρ) (sampling : Sampling)
    (seed : UInt64) (s : σ) (a : α) {candidates : List σ} (some : candidates ≠ []) :
    P.keepOutcomes sampling seed s a candidates ≠ [] := by
  unfold keepOutcomes
  split
  · exact some
  · exact sampling.pick_ne_nil _ _ some

end Horizon
