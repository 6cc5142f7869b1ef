import Horizon.Config
import Horizon.Problem
import Horizon.Random.Mix

/-! The known states of one period.

A state becomes known when it is first mentioned and stays known. Those that became known as part
of the domain, or as outcomes added to it, are also listed in the order of their first mention;
this list is what a solver goes through.
-/

set_option autoImplicit false

namespace Horizon

structure StateSpace (σ : Type) [DecidableEq σ] where
  period : Nat
  sampling : Sampling
  seed : UInt64
  members : Store σ Unit
  /-- The states that came in through `extend`, in order. -/
  enumerated : List σ

namespace StateSpace

variable {σ α ρ : Type} [DecidableEq σ]

@[inline] def empty [Hashable σ] (period : Nat) (storage : StorageConfig) (sampling : Sampling)
    (seed : UInt64) : StateSpace σ :=
  ⟨period, sampling, seed, .ofConfig storage hash, []⟩

@[inline] def contains (space : StateSpace σ) (s : σ) : Bool :=
  space.members.contains s

def size (space : StateSpace σ) : Nat :=
  space.members.size

def isEmpty (space : StateSpace σ) : Bool :=
  space.members.isEmpty

def states (space : StateSpace σ) : List σ :=
  space.members.keys

def mention (space : StateSpace σ) (s : σ) : Bool × StateSpace σ :=
  if space.contains s then (false, space)
  else
    match space with
    | ⟨period, sampling, seed, members, enumerated⟩ =>
      (true, ⟨period, sampling, seed, members.insertNew s (), enumerated⟩)

/-- Make states known, and gather the new ones in front of `fresh`, last first. -/
def mentionAll (space : StateSpace σ) (fresh : List σ) : List σ → List σ × StateSpace σ
  | [] => (fresh, space)
  | s :: rest =>
    match space.mention s with
    | (true, space) => space.mentionAll (s :: fresh) rest
    | (false, space) => space.mentionAll fresh rest

/-- Make states known and append the new ones to the enumeration; how many they were. -/
def extend (space : StateSpace σ) (states : List σ) : Nat × StateSpace σ :=
  match space.mentionAll [] states with
  | (fresh, space) =>
    (fresh.length, { space with enumerated := space.enumerated ++ fresh.reverse })

def sampledDomain (space : StateSpace σ) (P : Problem σ α ρ) : List σ :=
  let domain := P.domain space.period
  if space.sampling.isExhaustive then domain
  else
    space.sampling.pick domain space.period
      (Random.mixSeed space.seed (UInt64.ofNat space.period))

def materialize (space : StateSpace σ) (P : Problem σ α ρ) : Nat × StateSpace σ :=
  space.extend (space.sampledDomain P)

theorem fst_mention (space : StateSpace σ) (s : σ) : (space.mention s).1 = !space.contains s := by
  rw [mention]
  split <;> simp_all

theorem mention_of_contains {space : StateSpace σ} {s : σ} (known : space.contains s = true) :
    (space.mention s).2 = space := by
  rw [mention, if_pos known]

theorem enumerated_mention (space : StateSpace σ) (s : σ) :
    (space.mention s).2.enumerated = space.enumerated := by
  rw [mention]
  split <;> rfl

theorem contains_mention (space : StateSpace σ) (s s' : σ) :
    (space.mention s).2.contains s' = (s == s' || space.contains s') := by
  rw [mention]
  split
  · by_cases h : s = s' <;> simp_all
  · exact Store.contains_insertNew _ _ _ _

theorem size_mention (space : StateSpace σ) (s : σ) :
    (space.mention s).2.size = if space.contains s then space.size else space.size + 1 := by
  rw [mention]
  split
  · rfl
  · rename_i h
    rw [size, Store.size_insertNew]
    exact if_neg h

end StateSpace

end Horizon
