import Mathlib.Data.Set.Finite.Lemmas
import Horizon.Proofs.Binary64
import Horizon.Proofs.Failures
import Horizon.Proofs.WriteOnce

/-! An expected value is a weighted average.

Weights fail only where a mass cannot be used or there is none at all (`weights_error_iff`).
Otherwise, on exact numbers, they are the masses over a positive number and sum to one
(`renormalizes_weights`), so the value of an action is an average of what its outcomes are worth.
Those without mass have weight zero and do not count, and it does not matter in which order they are
listed (`averages_expectation`).
-/

set_option autoImplicit false

namespace Horizon

open LedgerM

variable {σ α ρ : Type} {s : σ} {a : α} {finals : List σ}

namespace Problem

section Failing

variable [Scalar ρ]

def Degenerate (P : Problem σ α ρ) (s : σ) (a : α) (finals : List σ) : Prop :=
  (∃ f ∈ finals, Scalar.lt (P.probability s a f) 0 = true ∨
    Scalar.isFinite (P.probability s a f) = false) ∨
    Scalar.Same (Scalar.total (finals.map (P.probability s a))) 0

variable [Scalar.Additive ρ] [Scalar.Comparable ρ] {P : Problem σ α ρ}

theorem Weighable.not_degenerate (weighable : P.Weighable s a finals) :
    ¬P.Degenerate s a finals := by
  rintro (⟨f, member, below | infinite⟩ | none)
  · have finite := weighable.finite f member
    simp [Scalar.Comparable.lt_zero_iff _ finite, weighable.nonnegative f member] at below
  · simp [weighable.finite f member] at infinite
  · have masses : ∀ p ∈ finals.map (P.probability s a), Scalar.le 0 p = true := by
      simpa using weighable.nonnegative
    simp [← Scalar.total_le_zero_iff masses, weighable.positive] at none

theorem weighable_of_not_degenerate (usable : ¬P.Degenerate s a finals) :
    P.Weighable s a finals := by
  have finite : ∀ f ∈ finals, Scalar.isFinite (P.probability s a f) = true := by
    intro f member
    rw [← Bool.not_eq_false]
    exact fun infinite => usable (.inl ⟨f, member, .inr infinite⟩)
  have nonnegative : ∀ f ∈ finals, Scalar.le 0 (P.probability s a f) = true := by
    intro f member
    rw [← Bool.not_eq_false, ← Scalar.Comparable.lt_zero_iff _ (finite f member)]
    exact fun below => usable (.inl ⟨f, member, .inl below⟩)
  have masses : ∀ p ∈ finals.map (P.probability s a), Scalar.le 0 p = true := by
    simpa using nonnegative
  refine ⟨finite, nonnegative, ?_⟩
  rw [Bool.eq_false_iff]
  intro none
  exact usable (.inr ((Scalar.total_le_zero_iff masses).1 none))

theorem weights_error_iff :
    P.weights s a finals = .error (.degenerate s a) ↔ P.Degenerate s a finals := by
  constructor
  · intro failed
    by_contra usable
    rw [weights_eq_ok_iff.2 ⟨weighable_of_not_degenerate usable, rfl⟩] at failed
    cases failed
  · intro degenerate
    cases weighed : P.weights s a finals with
    | error e => rw [weights_error weighed]
    | ok ws => exact absurd degenerate (weights_eq_ok_iff.1 weighed).1.not_degenerate

end Failing

section Average

variable {P Q : Problem σ α ℚ} {discount : ℚ} {value : σ → ℚ} {x : ℚ}

/-- Weights are the masses of outcomes over a positive number, and they sum to one. Multiplying all
masses with one positive number leaves them as they are. -/
structure Renormalizes (P : Problem σ α ℚ) (s : σ) (a : α) (finals : List σ) (ws : List ℚ) :
    Prop where
  nonneg : ∀ w ∈ ws, 0 ≤ w
  sum_eq : ws.sum = 1
  proportional : ∃ mass > 0, finals.map (P.probability s a) = ws.map (mass * ·)
  scaled : ∀ Q : Problem σ α ℚ, ∀ c > 0,
    (∀ f ∈ finals, Q.probability s a f = c * P.probability s a f) →
      Q.weights s a finals = .ok ws

theorem weights_eq_shares {ws : List ℚ} (weighed : P.weights s a finals = .ok ws) :
    ws = finals.map (P.share s a finals) := by
  rw [(weights_eq_ok_iff.1 weighed).2, Rational.total_eq_sum]
  rfl

section Scaled

variable {c : ℚ} (times : ∀ f ∈ finals, Q.probability s a f = c * P.probability s a f)

include times

theorem sum_scaled :
    (finals.map (Q.probability s a)).sum = c * (finals.map (P.probability s a)).sum := by
  rw [List.map_congr_left times, List.sum_map_mul_left]

theorem Weighable.scaled (weighable : P.Weighable s a finals) (positive : 0 < c) :
    Q.Weighable s a finals := by
  obtain ⟨nonneg, some⟩ := weighable_iff.1 weighable
  refine weighable_iff.2 ⟨fun f member => ?_, ?_⟩
  · rw [times f member]
    exact mul_nonneg positive.le (nonneg f member)
  · rw [sum_scaled times]
    exact mul_pos positive some

theorem share_scaled (positive : 0 < c) {f : σ} (member : f ∈ finals) :
    Q.share s a finals f = P.share s a finals f := by
  rw [share, share, sum_scaled times, times f member]
  exact mul_div_mul_left _ _ positive.ne'

end Scaled

theorem renormalizes_weights {ws : List ℚ} (weighed : P.weights s a finals = .ok ws) :
    P.Renormalizes s a finals ws := by
  have weighable := (weights_eq_ok_iff.1 weighed).1
  obtain rfl := weights_eq_shares weighed
  refine
    { nonneg := fun w listed => ?_
      sum_eq := weighable.sum_share
      proportional := ⟨_, weighable.sum_pos, ?_⟩
      scaled := fun Q c positive times => ?_ }
  · obtain ⟨f, member, rfl⟩ := List.mem_map.1 listed
    exact weighable.share_nonneg member
  · rw [List.map_map]
    exact List.map_congr_left fun f _ => (mul_div_cancel₀ _ weighable.sum_pos.ne').symm
  · have given := weights_eq_ok_iff.2 ⟨weighable.scaled times positive, rfl⟩
    rw [given, weights_eq_shares given,
      List.map_congr_left fun f member => share_scaled times positive member]

def worths (P : Problem σ α ℚ) (discount : ℚ) (value : σ → ℚ) (s : σ) (a : α) (finals : List σ) :
    Set ℚ :=
  {x | ∃ f ∈ finals, 0 < P.probability s a f ∧ P.immediate s a f + discount * value f = x}

theorem finite_worths : (P.worths discount value s a finals).Finite := by
  apply Set.Finite.subset
    (List.finite_toSet (finals.map fun f => P.immediate s a f + discount * value f))
  rintro x ⟨f, member, -, rfl⟩
  exact List.mem_map.2 ⟨f, member, rfl⟩

theorem nonempty_worths (weighable : P.Weighable s a finals) :
    (P.worths discount value s a finals).Nonempty := by
  have some : (finals.map fun _ => (0 : ℚ)).sum < (finals.map (P.probability s a)).sum := by
    simpa using weighable.sum_pos
  obtain ⟨f, member, positive⟩ := List.exists_lt_of_sum_lt _ _ some
  exact ⟨_, f, member, positive, rfl⟩

-- Where there is no mass there is no weight.
theorem Weighable.share_mul_le (weighable : P.Weighable s a finals) {f : σ} (member : f ∈ finals)
    {y : ℚ} (le : 0 < P.probability s a f → x ≤ y) :
    P.share s a finals f * x ≤ P.share s a finals f * y := by
  rcases ((weighable_iff.1 weighable).1 f member).eq_or_lt with none | positive
  · simp [share, ← none]
  · exact mul_le_mul_of_nonneg_left (le positive) (weighable.share_nonneg member)

theorem Weighable.sum_share_mul (weighable : P.Weighable s a finals) (x : ℚ) :
    (finals.map fun f => P.share s a finals f * x).sum = x := by
  rw [List.sum_map_mul_right, weighable.sum_share, one_mul]

theorem Weighable.le_expectation (weighable : P.Weighable s a finals)
    (least : x ∈ lowerBounds (P.worths discount value s a finals)) :
    x ≤ P.expectation discount value s a finals := by
  calc x = (finals.map fun f => P.share s a finals f * x).sum := (weighable.sum_share_mul x).symm
    _ ≤ (finals.map fun f =>
          P.share s a finals f * (P.immediate s a f + discount * value f)).sum := by
        apply List.sum_le_sum
        intro f member
        exact weighable.share_mul_le member fun positive => least ⟨f, member, positive, rfl⟩
    _ = P.expectation discount value s a finals := (expectation_eq_sum P discount value).symm

theorem Weighable.expectation_le (weighable : P.Weighable s a finals)
    (greatest : x ∈ upperBounds (P.worths discount value s a finals)) :
    P.expectation discount value s a finals ≤ x := by
  calc P.expectation discount value s a finals
      = (finals.map fun f =>
          P.share s a finals f * (P.immediate s a f + discount * value f)).sum :=
        expectation_eq_sum P discount value
    _ ≤ (finals.map fun f => P.share s a finals f * x).sum := by
        apply List.sum_le_sum
        intro f member
        exact weighable.share_mul_le member fun positive => greatest ⟨f, member, positive, rfl⟩
    _ = x := weighable.sum_share_mul x

theorem Weighable.exists_isLeast_le (weighable : P.Weighable s a finals) :
    ∃ low, IsLeast (P.worths discount value s a finals) low ∧
      low ≤ P.expectation discount value s a finals := by
  obtain ⟨low, listed, le⟩ :=
    Set.exists_min_image _ id finite_worths (nonempty_worths weighable)
  exact ⟨low, ⟨listed, fun y => le y⟩, weighable.le_expectation fun y => le y⟩

theorem Weighable.exists_isGreatest_ge (weighable : P.Weighable s a finals) :
    ∃ high, IsGreatest (P.worths discount value s a finals) high ∧
      P.expectation discount value s a finals ≤ high := by
  obtain ⟨high, listed, le⟩ :=
    Set.exists_max_image _ id finite_worths (nonempty_worths weighable)
  exact ⟨high, ⟨listed, fun y => le y⟩, weighable.expectation_le fun y => le y⟩

theorem Weighable.perm {finals' : List σ} (weighable : P.Weighable s a finals)
    (same : finals'.Perm finals) : P.Weighable s a finals' := by
  obtain ⟨nonneg, positive⟩ := weighable_iff.1 weighable
  refine weighable_iff.2 ⟨fun f member => nonneg f (same.mem_iff.1 member), ?_⟩
  rw [(same.map _).sum_eq]
  exact positive

theorem expectation_perm {finals' : List σ} (same : finals'.Perm finals) :
    P.expectation discount value s a finals' = P.expectation discount value s a finals := by
  have shares : P.share s a finals' = P.share s a finals := by
    funext f
    rw [share, share, (same.map _).sum_eq]
  rw [expectation_eq_sum, expectation_eq_sum, shares, (same.map _).sum_eq]

/-- What an expected value is when the outcomes that are kept have weights. It is the average of
what they are worth, so it lies between the least and the greatest that one with mass is worth; and
in whatever order they are listed, it is worked out and entered. -/
structure Averages [DecidableEq σ] [DecidableEq α] {ω : Type} (P : Problem σ α ℚ) (discount : ℚ)
    (successor : σ → LedgerM σ α ℚ ω ℚ) (value : σ → ℚ) (s : σ) (a : α) (finals : List σ)
    (ws : List ℚ) (I : Ledger σ α ℚ × ω → Prop) (x : ℚ) : Prop where
  average : x = ((finals.zip ws).map fun e =>
    e.2 * (P.immediate s a e.1 + discount * value e.1)).sum
  least : ∃ low, IsLeast (P.worths discount value s a finals) low ∧ low ≤ x
  greatest : ∃ high, IsGreatest (P.worths discount value s a finals) high ∧ x ≤ high
  given : ∀ finals', finals'.Perm finals → ∀ outcomes, Computes I outcomes (.ok finals') →
    ∀ w, I w → (expectedValue P outcomes successor s a w).1 = .ok x ∧
      (expectedValue P outcomes successor s a w).2.1.expected? s a = some x

theorem averages_expectation [DecidableEq σ] [DecidableEq α] {ω : Type}
    {I : Ledger σ α ℚ × ω → Prop} {successor : σ → LedgerM σ α ℚ ω ℚ} {ws : List ℚ}
    (weighed : P.weights s a finals = .ok ws) (steady : Steady I discount)
    (vacant : ∀ w, I w → w.1.expected? s a = none)
    (successors : ∀ f ∈ finals, Computes I (successor f) (.ok (value f))) :
    P.Averages discount successor value s a finals ws I
      (P.expectation discount value s a finals) := by
  have weighable := (weights_eq_ok_iff.1 weighed).1
  refine
    { average := by rw [weights_eq_shares weighed, total_terms, expectation_eq_sum]
      least := weighable.exists_isLeast_le
      greatest := weighable.exists_isGreatest_ge
      given := fun finals' same outcomes listed w held => ?_ }
  have computed : (expectedValue P outcomes successor s a w).1 =
      P.appraise discount (fun f => .ok (value f)) s a finals' :=
    steady.expectedValue_eq_appraise vacant listed
      (fun f member => successors f (same.mem_iff.1 member)) held
  have worth : (expectedValue P outcomes successor s a w).1 =
      .ok (P.expectation discount value s a finals) := by
    rw [computed, ← expectation_perm same]
    exact (appraise_eq_ok_iff fun f _ => rfl).2 ⟨weighable.perm same, rfl⟩
  exact ⟨worth, expected?_of_expectedValue (Prod.ext worth rfl)⟩

end Average

end Problem

/-- Weights fail exactly where some mass is below zero or not finite or their sum is zero. On exact
numbers they are otherwise shares of the mass, and an expected value that is worked out with them,
from successors that succeed and do not enter it themselves, is a weighted average. -/
theorem weights_make_averages [DecidableEq σ] [DecidableEq α] [Scalar ρ] [Scalar.Additive ρ]
    [Scalar.Comparable ρ] (Q : Problem σ α ρ) (P : Problem σ α ℚ) (s : σ) (a : α)
    (finals : List σ) :
    (Q.weights s a finals = .error (.degenerate s a) ↔ Q.Degenerate s a finals) ∧
      (¬Q.Degenerate s a finals → ∃ ws, Q.weights s a finals = .ok ws) ∧
      ∀ ws, P.weights s a finals = .ok ws → P.Renormalizes s a finals ws ∧
        ∀ {ω : Type} {I : Ledger σ α ℚ × ω → Prop} {discount : ℚ}
          {successor : σ → LedgerM σ α ℚ ω ℚ} {value : σ → ℚ},
          Steady I discount → (∀ w, I w → w.1.expected? s a = none) →
            (∀ f ∈ finals, Computes I (successor f) (.ok (value f))) →
              ∃ x, P.Averages discount successor value s a finals ws I x := by
  refine ⟨Problem.weights_error_iff, fun usable => ?_, fun ws weighed => ?_⟩
  · exact ⟨_, Problem.weights_eq_ok_iff.2 ⟨Problem.weighable_of_not_degenerate usable, rfl⟩⟩
  · refine ⟨Problem.renormalizes_weights weighed, ?_⟩
    intro ω I discount successor value steady vacant successors
    exact ⟨P.expectation discount value s a finals,
      Problem.averages_expectation weighed steady vacant successors⟩

def Explicit.lopsided : Explicit ℚ :=
  ⟨none, #[[0], [0, 1, 2]], [], [(⟨0, 0⟩, ⟨0, [(0, [⟨0, 2, 5⟩, ⟨1, 0, 9⟩, ⟨2, 6, 1⟩])]⟩)]⟩

def Explicit.overdrawn : Explicit Float :=
  ⟨none, #[[0], [0, 1, 2]], [], [(⟨0, 0⟩, ⟨0, [(0, [⟨0, 2, 5⟩, ⟨1, 0, 9⟩, ⟨2, -1, 1⟩])]⟩)]⟩

-- Every outcome is worth its position in the end. They are listed in another order.
theorem weights_make_averages_lopsided :
    let Q : Problem Node Int Float := Explicit.overdrawn.problem
    let P : Problem Node Int ℚ := Explicit.lopsided.problem
    let finals : List Node := [⟨1, 0⟩, ⟨1, 1⟩, ⟨1, 2⟩]
    let ledger : Ledger Node Int ℚ := .empty .default 1
    let worked := expectedValue P (pure [⟨1, 2⟩, ⟨1, 0⟩, ⟨1, 1⟩])
      (fun f => LedgerM.ofExcept (.ok (f.x : ℚ))) ⟨0, 0⟩ 0 (ledger, ())
    Q.weights ⟨0, 0⟩ 0 finals = .error (.degenerate ⟨0, 0⟩ 0) ∧
      P.weights ⟨0, 0⟩ 0 finals = .ok [1 / 4, 0, 3 / 4] ∧
      P.Renormalizes ⟨0, 0⟩ 0 finals [1 / 4, 0, 3 / 4] ∧
      worked.1 = .ok (7 / 2) ∧ worked.2.1.expected? ⟨0, 0⟩ 0 = some (7 / 2) := by
  intro Q P finals ledger worked
  have below : Q.Degenerate ⟨0, 0⟩ 0 finals :=
    .inl ⟨⟨1, 2⟩, by decide, .inl (by decide)⟩
  have weighed : P.weights ⟨0, 0⟩ 0 finals = .ok [1 / 4, 0, 3 / 4] :=
    eq_ok_of_toOption (by decide +kernel)
  obtain ⟨fails, -, averages⟩ := weights_make_averages Q P ⟨0, 0⟩ 0 finals
  obtain ⟨renormalizes, averages⟩ := averages _ weighed
  let I : Ledger Node Int ℚ × Unit → Prop :=
    fun w => w.1.discount = 1 ∧ w.1.expected? ⟨0, 0⟩ 0 = none
  have steady : Steady I 1 := ⟨fun _ => And.left, fun _ _ held _ _ _ => held⟩
  obtain ⟨x, average⟩ := averages steady (fun _ => And.right)
    fun f _ => computes_ofExcept (.ok (f.x : ℚ))
  have known : x = 7 / 2 := average.average.trans (by decide +kernel)
  subst known
  have order : [⟨1, 2⟩, ⟨1, 0⟩, ⟨1, 1⟩].Perm finals := by decide
  exact ⟨fails.2 below, weighed, renormalizes,
    average.given _ order _ (computes_pure _) (ledger, ()) ⟨rfl, Ledger.expected?_empty _ _ _ _⟩⟩

end Horizon
