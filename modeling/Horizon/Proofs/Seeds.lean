import Mathlib.Data.FinEnum
import Mathlib.Data.Nat.ModEq
import Mathlib.Data.Nat.Prime.Basic
import Horizon.Proofs.Lawful
import Horizon.Proofs.Thinning

/-! Seeds of different draws are different.

Scrambling a word takes turns of two steps, and each of them can be undone: exclusive or with its
own upper part leaves the highest bits of a word as they are, and an odd factor can be cancelled
modulo a power of two. There are finitely many words, so a mixed seed runs through all of them as
its seed or its salt does.
-/

set_option autoImplicit false

namespace Horizon

namespace Random

theorem xor_shiftRight_injective (count : UInt64) (shifts : 0 < count.toNat % 64) :
    Function.Injective fun word : UInt64 => word ^^^ word >>> count := by
  intro x y same
  have fixed : x ^^^ y = (x ^^^ y) >>> count := by
    apply UInt64.xor_eq_zero_iff.1
    have regrouped : x ^^^ x >>> count ^^^ (y ^^^ y >>> count) = 0 :=
      UInt64.xor_eq_zero_iff.2 same
    rw [UInt64.shiftRight_xor, ← regrouped]
    ac_rfl
  -- only zero is its own upper part
  have quotient : (x ^^^ y).toNat = (x ^^^ y).toNat / 2 ^ (count.toNat % 64) := by
    have numbers := congrArg UInt64.toNat fixed
    simpa only [UInt64.toNat_shiftRight, Nat.shiftRight_eq_div_pow] using numbers
  have doubled : 2 ≤ 2 ^ (count.toNat % 64) := Nat.le_self_pow (by omega) 2
  have halved : (x ^^^ y).toNat / 2 ^ (count.toNat % 64) ≤ (x ^^^ y).toNat / 2 :=
    Nat.div_le_div_left doubled (by decide)
  apply UInt64.xor_eq_zero_iff.1
  apply UInt64.toNat_inj.1
  simp only [UInt64.toNat_zero]
  omega

theorem mul_odd_injective (factor : UInt64) (odd : factor.toNat % 2 = 1) :
    Function.Injective fun word : UInt64 => word * factor := by
  intro x y same
  have coprime : Nat.Coprime (2 ^ 64) factor.toNat :=
    Nat.Coprime.pow_left 64 (Nat.coprime_two_left.2 (Nat.odd_iff.2 odd))
  have products : x.toNat * factor.toNat ≡ y.toNat * factor.toNat [MOD 2 ^ 64] := by
    have numbers := congrArg UInt64.toNat same
    simpa only [UInt64.toNat_mul, Nat.ModEq] using numbers
  apply UInt64.toNat_inj.1
  apply Nat.ModEq.eq_of_lt_of_lt
  · exact products.cancel_right_of_coprime coprime
  · exact x.toNat_lt
  · exact y.toNat_lt

theorem scramble_injective : Function.Injective scramble := by
  intro x y same
  apply xor_shiftRight_injective 30 (by decide)
  apply mul_odd_injective 0xBF58476D1CE4E5B9 (by decide)
  apply xor_shiftRight_injective 27 (by decide)
  apply mul_odd_injective 0x94D049BB133111EB (by decide)
  apply xor_shiftRight_injective 31 (by decide)
  exact same

theorem mixSeed_seed_injective (salt : UInt64) :
    Function.Injective fun seed => mixSeed seed salt := by
  intro x y same
  exact (UInt64.xor_left_inj _).1 (scramble_injective same)

theorem mixSeed_salt_injective (seed : UInt64) : Function.Injective (mixSeed seed) := by
  intro x y same
  apply mul_odd_injective 0x9E3779B97F4A7C15 (by decide)
  exact (UInt64.xor_right_inj _).1 (scramble_injective same)

end Random

variable {σ α ρ : Type}

def Problem.drawSeed (P : Problem σ α ρ) (seed : UInt64) (s : σ) (a : α) : UInt64 :=
  Random.mixSeed seed (P.fingerprint s a)

def StateSpace.drawSeed [DecidableEq σ] (space : StateSpace σ) : UInt64 :=
  Random.mixSeed space.seed (UInt64.ofNat space.period)

theorem StateSpace.drawSeed_ne [DecidableEq σ] {space space' : StateSpace σ}
    (same : space.seed = space'.seed) (short : space.period < UInt64.size)
    (short' : space'.period < UInt64.size) (different : space.period ≠ space'.period) :
    space.drawSeed ≠ space'.drawSeed := by
  intro equal
  unfold drawSeed at equal
  rw [same] at equal
  have salts := congrArg UInt64.toNat (Random.mixSeed_salt_injective space'.seed equal)
  rw [UInt64.toNat_ofNat_of_lt' short, UInt64.toNat_ofNat_of_lt' short'] at salts
  exact different salts

/-- Mixing is a bijection in the seed and in the salt. The sample of a domain and the kept outcomes
of a pair are drawn from mixed seeds, so the domains of two periods are drawn from different ones,
and so are the outcomes of two pairs whose hashes differ. -/
theorem draw_seeds_are_distinct [DecidableEq σ] :
    (∀ salt, Function.Bijective fun seed => Random.mixSeed seed salt) ∧
      (∀ seed, Function.Bijective (Random.mixSeed seed)) ∧
      (∀ (P : Problem σ α ρ) (space : StateSpace σ), space.sampledDomain P =
        space.sampling.pick (P.domain space.period) space.period space.drawSeed) ∧
      (∀ space space' : StateSpace σ, space.seed = space'.seed →
        space.period < UInt64.size → space'.period < UInt64.size →
          space.period ≠ space'.period → space.drawSeed ≠ space'.drawSeed) ∧
      (∀ (P : Problem σ α ρ) (sampling : Sampling) (seed : UInt64) (s : σ) (a : α)
        (candidates : List σ), P.keepOutcomes sampling seed s a candidates =
          sampling.pick candidates (P.period s) (P.drawSeed seed s a)) ∧
      ∀ (P : Problem σ α ρ) (seed : UInt64) (s s' : σ) (a a' : α),
        P.fingerprint s a ≠ P.fingerprint s' a' →
          P.drawSeed seed s a ≠ P.drawSeed seed s' a' := by
  refine ⟨?_, ?_, ?_, ?_, ?_, ?_⟩
  · intro salt
    exact (Random.mixSeed_seed_injective salt).bijective_of_finite
  · intro seed
    exact (Random.mixSeed_salt_injective seed).bijective_of_finite
  · intro P space
    exact space.sampledDomain_eq P
  · intro space space'
    exact StateSpace.drawSeed_ne
  · intro P sampling seed s a candidates
    exact P.keepOutcomes_eq_pick sampling seed s a candidates
  · intro P seed s s' a a' different equal
    exact different (Random.mixSeed_salt_injective seed equal)

theorem draw_seeds_are_distinct_near :
    let P : Problem Node Int Float := Explicit.uneven.problem
    let first : StateSpace Node := .empty 1 .default (.midpoints 2) 12345
    let second : StateSpace Node := .empty (UInt32.size + 1) .default (.midpoints 2) 12345
    (first.seed = second.seed ∧ first.period < UInt64.size ∧ second.period < UInt64.size ∧
        first.period ≠ second.period ∧ P.fingerprint ⟨0, 0⟩ 0 ≠ P.fingerprint ⟨0, 0⟩ 1) ∧
      first.drawSeed ≠ second.drawSeed ∧
        P.drawSeed 12345 ⟨0, 0⟩ 0 ≠ P.drawSeed 12345 ⟨0, 0⟩ 1 := by
  intro P first second
  have hashes : P.fingerprint ⟨0, 0⟩ 0 ≠ P.fingerprint ⟨0, 0⟩ 1 := by decide
  obtain ⟨-, -, -, domains, -, outcomes⟩ :=
    draw_seeds_are_distinct (σ := Node) (α := Int) (ρ := Float)
  have periods : first.period ≠ second.period := by decide
  have short : second.period < UInt64.size := by decide
  exact ⟨⟨rfl, by decide, short, periods, hashes⟩,
    domains first second rfl (by decide) short periods, outcomes P 12345 _ _ _ _ hashes⟩

end Horizon
