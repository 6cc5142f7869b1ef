import Horizon.Forward
import Horizon.Proofs.Stores

/-! What entering a state does to a frontier.

A state that is entered in a period of the frontier is known there afterwards, and the count of
generated states grows when it was unknown, so it is the number of known states (`size_enter`).
-/

set_option autoImplicit false

namespace Horizon.Frontier

variable {σ : Type} [DecidableEq σ]

theorem spaces_enter (f : Frontier σ) (t : Nat) (s : σ) :
    (f.enter t s).spaces = f.spaces.modify t fun space => (space.mention s).2 := by
  have unchanged : (∀ space, f.spaces[t]? = some space → space.contains s = true) →
      f.spaces = f.spaces.modify t fun space => (space.mention s).2 := by
    intro known
    apply Array.ext_getElem?
    intro u
    rw [Array.getElem?_modify]
    by_cases here : t = u
    · subst here
      cases found : f.spaces[t]? with
      | none => simp
      | some space => simp [StateSpace.mention_of_contains (known space found)]
    · rw [if_neg here]
  unfold enter
  cases found : f.spaces[t]? with
  | none =>
    refine unchanged fun space other => ?_
    cases found.symm.trans other
  | some space =>
    dsimp only
    by_cases known : space.contains s = true
    · rw [known]
      refine unchanged fun space' other => ?_
      cases found.symm.trans other
      exact known
    · simp [known]

theorem tally_enter (f : Frontier σ) (t : Nat) (s : σ) :
    (f.enter t s).tally =
      match f.spaces[t]? with
      | some space => if space.contains s then f.tally else f.tally.addGenerated 1
      | none => f.tally := by
  unfold enter
  cases f.spaces[t]? with
  | none => rfl
  | some space =>
    dsimp only
    cases space.contains s <;> rfl

theorem getElem?_enter (f : Frontier σ) (t : Nat) (s : σ) (u : Nat) :
    (f.enter t s).spaces[u]? =
      if t = u then f.spaces[u]?.map fun space => (space.mention s).2 else f.spaces[u]? := by
  rw [spaces_enter, Array.getElem?_modify]

theorem size_spaces_enter (f : Frontier σ) (t : Nat) (s : σ) :
    (f.enter t s).spaces.size = f.spaces.size := by
  rw [spaces_enter, Array.size_modify]

def contains (f : Frontier σ) (t : Nat) (s : σ) : Bool :=
  match f.spaces[t]? with
  | some space => space.contains s
  | none => false

theorem contains_enter (f : Frontier σ) (t : Nat) (s : σ) (u : Nat) (s' : σ) :
    (f.enter t s).contains u s' = true ↔
      f.contains u s' = true ∨ t = u ∧ s = s' ∧ t < f.spaces.size := by
  unfold contains
  rw [getElem?_enter]
  by_cases here : t = u
  · subst here
    rw [if_pos rfl]
    cases found : f.spaces[t]? with
    | none =>
      have outside := Array.getElem?_eq_none_iff.1 found
      simp [Nat.not_lt.2 outside]
    | some space =>
      have inside := (Array.getElem?_eq_some_iff.1 found).1
      simp [StateSpace.contains_mention, inside, or_comm]
  · simp [here]

theorem exists_mem_states {f : Frontier σ} {s : σ} :
    (∃ space ∈ f.spaces, s ∈ space.states) ↔ ∃ t, f.contains t s = true := by
  constructor
  · rintro ⟨space, member, listed⟩
    obtain ⟨t, found⟩ := Array.mem_iff_getElem?.1 member
    refine ⟨t, ?_⟩
    rw [contains, found]
    exact (space.members.mem_keys s).1 listed
  · rintro ⟨t, known⟩
    unfold contains at known
    split at known
    · next space found =>
      exact ⟨space, Array.mem_of_getElem? found, (space.members.mem_keys s).2 known⟩
    · cases known

def size (f : Frontier σ) : Nat :=
  (f.spaces.toList.map StateSpace.size).sum

-- Only the changed period counts.
theorem sum_size_modify {spaces : List (StateSpace σ)} {t : Nat} {space : StateSpace σ}
    (found : spaces[t]? = some space) (change : StateSpace σ → StateSpace σ) :
    ((spaces.modify t change).map StateSpace.size).sum + space.size =
      (spaces.map StateSpace.size).sum + (change space).size := by
  induction spaces generalizing t with
  | nil => cases found
  | cons first rest ih =>
    cases t with
    | zero =>
      cases found
      simp only [List.modify_zero_cons, List.map_cons, List.sum_cons]
      omega
    | succ t =>
      have later := ih found
      simp only [List.modify_succ_cons, List.map_cons, List.sum_cons]
      omega

theorem size_enter {f : Frontier σ} {t : Nat} (inside : t < f.spaces.size) (s : σ) :
    (f.enter t s).size = if f.contains t s then f.size else f.size + 1 := by
  obtain ⟨space, found⟩ : ∃ space, f.spaces[t]? = some space :=
    ⟨_, Array.getElem?_eq_getElem inside⟩
  have listed : f.spaces.toList[t]? = some space := by rwa [Array.getElem?_toList]
  have changed := sum_size_modify listed fun space => (space.mention s).2
  rw [StateSpace.size_mention] at changed
  rw [size, spaces_enter, Array.toList_modify, contains, found, size]
  dsimp only
  split at changed
  · next known =>
    rw [if_pos known]
    omega
  · next unknown =>
    rw [if_neg unknown]
    omega

theorem generated_enter {f : Frontier σ} {t : Nat} (inside : t < f.spaces.size) (s : σ) :
    (f.enter t s).tally.generated =
      if f.contains t s then f.tally.generated else f.tally.generated + 1 := by
  obtain ⟨space, found⟩ : ∃ space, f.spaces[t]? = some space :=
    ⟨_, Array.getElem?_eq_getElem inside⟩
  rw [tally_enter, contains, found]
  dsimp only
  split <;> rfl

theorem solved_enter (f : Frontier σ) (t : Nat) (s : σ) :
    (f.enter t s).tally.solved = f.tally.solved := by
  rw [tally_enter]
  split
  · split <;> rfl
  · rfl

theorem reused_enter (f : Frontier σ) (t : Nat) (s : σ) :
    (f.enter t s).tally.reused = f.tally.reused := by
  rw [tally_enter]
  split
  · split <;> rfl
  · rfl

end Horizon.Frontier
