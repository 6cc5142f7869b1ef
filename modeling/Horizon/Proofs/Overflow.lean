import Horizon.Proofs.Demand
import Horizon.Proofs.Values
import Horizon.Proofs.WriteOnce

/-! Shares of masses in binary64.

Masses are divided by their sum, which may be infinity although each of them is finite. Then every
share is a zero, and so is an expected value that is worked out with them. Otherwise the share of
the greatest mass is above zero, however many masses there are: when a sum has grown to `2 ^ 54`
times a bound of the masses, adding one more is rounded away. So masses up to `2 ^ 969` have a
finite sum.
-/

set_option autoImplicit false

namespace Horizon

namespace Binary64

open Float.Model UnpackedFloat

theorem rounded_absorbs {k : ℤ} (inside : -1074 ≤ k) :
    rounded (2 ^ (k + 54) + 2 ^ k) = 2 ^ (k + 54) := by
  have unit : (2 : ℚ) ^ (k + 2) = 4 * 2 ^ k := by
    rw [zpow_add₀ two_ne_zero, mul_comm]
    norm_num
  have great : (2 : ℚ) ^ (k + 54) = 2 ^ 52 * 2 ^ (k + 2) := by
    rw [two_pow_mul_zpow]
    congr 1
    push_cast
    ring
  have scaled : ((2 : ℚ) ^ (k + 54) + 2 ^ k) / 2 ^ (k + 2) = 2 ^ 52 + 1 / 4 := by
    have nonzero := (two_zpow_pos k).ne'
    rw [great, unit]
    field_simp
  have floor : ⌊((2 : ℚ) ^ (k + 54) + 2 ^ k) / 2 ^ (k + 2)⌋ = (2 ^ 52 : Nat) := by
    rw [scaled]
    norm_num
  have place : lastPlace (2 ^ (k + 54) + 2 ^ k) = k + 2 := by
    rw [lastPlace, log_eq_of_floor_eq (by decide) floor, Nat.log2_two_pow]
    omega
  have down : nearest (2 ^ 52 + 1 / 4) = 2 ^ 52 := by
    norm_num [nearest]
  rw [rounded, place, scaled, down, great]
  norm_num

theorem rounded_add_le {q r : ℚ} {k : ℤ} (nonneg : 0 ≤ q + r) (inside : -1074 ≤ k)
    (sum : q ≤ 2 ^ (k + 54)) (mass : r ≤ 2 ^ k) : rounded (q + r) ≤ 2 ^ (k + 54) :=
  (rounded_mono nonneg (add_le_add sum mass)).trans_eq (rounded_absorbs inside)

section Masses

variable {x y : Float}

theorem mass_cases (mass : Scalar.isMass x = true) :
    x.toModel.unpack = .zero .negative ∨ Unsigned x ∧ value x < limit := by
  obtain ⟨finite, above⟩ := (Bool.and_eq_true _ _).mp mass
  suffices x.toModel.unpack = .zero .negative ∨ Unsigned x from
    this.imp_right fun unsigned => ⟨unsigned, unsigned.isFinite_iff.1 finite⟩
  rcases nonnegative_cases ((zero_le_iff x).1 above) with
    ⟨_ | _, zero⟩ | infinite | ⟨m, e, large, number⟩
  · exact .inl zero
  · right
    rw [Unsigned, zero]
    trivial
  · right
    apply unsigned_of_positive
    rw [infinite]
    trivial
  · right
    apply unsigned_of_positive
    rw [number]
    trivial

theorem add_negative_zero (unsigned : Unsigned x) (zero : y.toModel.unpack = .zero .negative) :
    x + y = x := by
  have sum : x + y = Float.ofModel (pack
      (x.toModel.unpack.add Format.binary64 y.toModel.unpack)) := rfl
  have same : x.toModel.unpack.add Format.binary64 (.zero .negative) = x.toModel.unpack := by
    rcases unsigned_cases unsigned with none | infinite | ⟨m, e, large, number⟩
    · rw [none]
      rfl
    · rw [infinite]
      rfl
    · rw [number]
      rfl
  rw [sum, zero, same, pack_unpack_eq]

theorem value_add_mass (unsigned : Unsigned x) (mass : Scalar.isMass y = true) :
    Unsigned (x + y) ∧ value (x + y) = min (rounded (value x + value y)) limit := by
  rcases mass_cases mass with zero | ⟨unsigned', -⟩
  · have none : value y = 0 := by rw [value, zero, worth_zero]
    have kept : rounded (value x) = value x := rounded_worth unsigned
    rw [add_negative_zero unsigned zero, none, add_zero, kept]
    exact ⟨unsigned, (min_eq_left unsigned.value_le_limit).symm⟩
  · exact value_add unsigned unsigned'

-- The sum starts at zero, and a negative zero among the masses leaves it as it is.
theorem unsigned_total {xs : List Float} (masses : ∀ x ∈ xs, Scalar.isMass x = true) :
    Unsigned (Scalar.total xs) :=
  List.foldlRecOn xs (· + ·) value_zero.1 fun _ unsigned x member =>
    (value_add_mass unsigned (masses x member)).1

-- The bound is kept by each addition, so the length of the list does not matter.
theorem value_total_le {xs : List Float} {k : ℤ} (inside : -1074 ≤ k)
    (masses : ∀ x ∈ xs, Scalar.isMass x = true) (bounded : ∀ x ∈ xs, value x ≤ 2 ^ k) :
    value (Scalar.total xs) ≤ 2 ^ (k + 54) := by
  refine (List.foldlRecOn (motive := fun sum => Unsigned sum ∧ value sum ≤ 2 ^ (k + 54))
    xs (· + ·) ?_ ?_).2
  · exact ⟨value_zero.1, value_zero.2.trans_le (two_zpow_pos _).le⟩
  · rintro sum ⟨unsigned, below⟩ x member
    obtain ⟨unsigned', added⟩ := value_add_mass unsigned (masses x member)
    refine ⟨unsigned', added.trans_le ((min_le_left _ _).trans ?_)⟩
    exact rounded_add_le (add_nonneg (value_nonneg sum) (value_nonneg x)) inside below
      (bounded x member)

theorem isFinite_total {xs : List Float} (masses : ∀ x ∈ xs, Scalar.isMass x = true)
    (bounded : ∀ x ∈ xs, value x ≤ 2 ^ 969) : Scalar.isFinite (Scalar.total xs) = true := by
  refine (unsigned_total masses).isFinite_iff.2 ?_
  have below := value_total_le (k := 969) (by decide) masses (by exact_mod_cast bounded)
  exact below.trans_lt (zpow_lt_zpow_right₀ one_lt_two (by decide))

theorem value_total_pos {xs : List Float} (masses : ∀ x ∈ xs, Scalar.isMass x = true)
    (some : Scalar.le (Scalar.total xs) Zero.zero = false) : 0 < value (Scalar.total xs) := by
  obtain ⟨plain, zero⟩ := value_zero
  have above : ¬Scalar.le (Scalar.total xs) 0.0 = true := by
    rw [Bool.not_eq_true]
    exact some
  rw [le_iff (unsigned_total masses) plain, zero, not_le] at above
  exact above

theorem unsigned_of_value_pos (mass : Scalar.isMass x = true) (positive : 0 < value x) :
    Unsigned x ∧ value x < limit := by
  refine (mass_cases mass).resolve_left fun zero => ?_
  rw [value, zero] at positive
  exact lt_irrefl _ positive

theorem zero_lt_iff_value (unsigned : Unsigned x) : Scalar.lt Zero.zero x = true ↔ 0 < value x := by
  obtain ⟨plain, zero⟩ := value_zero
  have below := lt_iff plain unsigned
  rwa [zero] at below

theorem same_zero_of_value (mass : Scalar.isMass x = true) (zero : value x = 0) :
    Scalar.Same x Zero.zero := by
  refine (same_zero_iff x).2 ?_
  rcases mass_cases mass with negative | ⟨unsigned, -⟩
  · exact ⟨_, negative⟩
  · exact ⟨_, unpack_eq_zero unsigned zero⟩

theorem exists_value_pos {xs : List Float} (masses : ∀ x ∈ xs, Scalar.isMass x = true)
    (some : Scalar.le (Scalar.total xs) Zero.zero = false) : ∃ x ∈ xs, 0 < value x := by
  by_contra none
  push Not at none
  have zeros : ∀ x ∈ xs, Scalar.Same x Zero.zero := fun x member =>
    same_zero_of_value (masses x member) ((none x member).antisymm (value_nonneg x))
  have below := (Scalar.total_le_zero_iff_zeros masses).2 zeros
  exact Bool.false_ne_true (some.symm.trans below)

theorem exists_max_value {xs : List Float} (nonempty : xs ≠ []) :
    ∃ x ∈ xs, ∀ y ∈ xs, value y ≤ value x :=
  Set.exists_max_image {x | x ∈ xs} value (List.finite_toSet xs)
    (List.exists_mem_of_ne_nil xs nonempty)

-- The least power of two above a number.
theorem Unsigned.exists_scale (unsigned : Unsigned x) (positive : 0 < value x) :
    ∃ k : ℤ, -1074 ≤ k ∧ 2 ^ (k - 1) ≤ value x ∧ value x < 2 ^ k := by
  have inside := (Int.zpow_le_iff_le_log one_lt_two positive).1 (unsigned.least_le_value positive)
  refine ⟨Int.log 2 (value x) + 1, by omega, ?_, Int.lt_zpow_succ_log_self one_lt_two (value x)⟩
  rw [add_sub_cancel_right]
  exact Int.zpow_log_le_self one_lt_two positive

/-- With a finite sum, the share of the greatest mass is at least `2 ^ (-55)`. -/
theorem exists_great_share {xs : List Float} (masses : ∀ x ∈ xs, Scalar.isMass x = true)
    (some : Scalar.le (Scalar.total xs) Zero.zero = false)
    (finite : Scalar.isFinite (Scalar.total xs) = true) :
    ∃ x ∈ xs, Unsigned (x / Scalar.total xs) ∧ 2 ^ (-55 : ℤ) ≤ value (x / Scalar.total xs) := by
  obtain ⟨y, listed, above⟩ := exists_value_pos masses some
  obtain ⟨x, member, greatest⟩ := exists_max_value (List.ne_nil_of_mem listed)
  have positive : 0 < value x := above.trans_le (greatest y listed)
  have sum := value_total_pos masses some
  have unsigned := unsigned_total masses
  obtain ⟨unsigned', finite'⟩ := unsigned_of_value_pos (masses x member) positive
  obtain ⟨k, inside, lower, upper⟩ := unsigned'.exists_scale positive
  have bounded : value (Scalar.total xs) ≤ 2 ^ (k + 54) :=
    value_total_le inside masses fun y listed => (greatest y listed).trans upper.le
  have ratio : 2 ^ (-55 : ℤ) ≤ value x / value (Scalar.total xs) :=
    calc (2 : ℚ) ^ (-55 : ℤ) = 2 ^ (k - 1) / 2 ^ (k + 54) := by
          rw [← zpow_sub₀ two_ne_zero]
          congr 1
          ring
      _ ≤ value x / value (Scalar.total xs) := div_le_div₀ positive.le lower sum bounded
  have kept : rounded (2 ^ (-55 : ℤ)) = 2 ^ (-55 : ℤ) := by
    simpa using rounded_eq_self (m := 1) (e := -55) (by decide) (by decide)
  obtain ⟨plain, share⟩ :=
    value_div unsigned' unsigned finite' (unsigned.isFinite_iff.1 finite) positive sum
  refine ⟨x, member, plain, share ▸ le_min ?_ ?_⟩
  · exact kept.ge.trans (rounded_mono (two_zpow_pos _).le ratio)
  · exact zpow_le_zpow_right₀ one_le_two (by decide)

theorem share_of_infinite {total : Float} (mass : Scalar.isMass x = true)
    (unsigned : Unsigned total) (infinite : Scalar.isFinite total = false) :
    Scalar.Same (x / total) Zero.zero := by
  have sum : total.toModel.unpack = .infinity .positive := by
    refine unsigned.infinite_or_lt.resolve_right fun below => ?_
    rw [unsigned.isFinite_iff.2 below] at infinite
    cases infinite
  have quotient : ∃ sign, x.toModel.unpack.div Format.binary64 (.infinity .positive) =
      .zero sign := by
    rcases mass_cases mass with negative | ⟨unsigned', finite⟩
    · rw [negative]
      exact ⟨.negative, rfl⟩
    · rcases unsigned_cases unsigned' with zero | infinite | ⟨m, e, large, number⟩
      · rw [zero]
        exact ⟨.positive, rfl⟩
      · rw [value, infinite] at finite
        exact absurd finite (lt_irrefl _)
      · rw [number]
        exact ⟨.positive, rfl⟩
  obtain ⟨sign, zero⟩ := quotient
  refine (same_zero_iff _).2 ⟨sign, ?_⟩
  rw [unpack_div, sum, zero, unpack_pack_zero]

theorem same_zero_mul {w : Float} (zero : Scalar.Same w Zero.zero)
    (finite : Scalar.isFinite x = true) : Scalar.Same (w * x) Zero.zero := by
  obtain ⟨sign, none⟩ := (same_zero_iff w).1 zero
  have product : ∃ sign', (UnpackedFloat.zero sign).mul Format.binary64 x.toModel.unpack =
      .zero sign' := by
    have known : x.toModel.unpack.isFinite = true := finite
    revert known
    rcases x.toModel.unpack with s | _ | s | ⟨s, m, e, large⟩
    · exact nofun
    · exact nofun
    · exact fun _ => ⟨_, rfl⟩
    · exact fun _ => ⟨_, rfl⟩
  obtain ⟨sign', zero'⟩ := product
  refine (same_zero_iff _).2 ⟨sign', ?_⟩
  rw [unpack_mul, none, zero', unpack_pack_zero]

theorem not_pos_of_same_zero (zero : Scalar.Same x Zero.zero) : Scalar.lt Zero.zero x = false := by
  obtain ⟨sign, none⟩ := (same_zero_iff x).1 zero
  rw [Bool.eq_false_iff, Ne, zero_lt_iff, none]
  exact id

end Masses

end Binary64

open Binary64

/-- Shares of masses, where the sum of the masses may be infinite. -/
structure Shares {ρ : Type} [Scalar ρ] (masses shares : List ρ) : Prop where
  pos_iff : (∃ w ∈ shares, Scalar.lt 0 w = true) ↔ Scalar.isFinite (Scalar.total masses) = true
  zeros : Scalar.isFinite (Scalar.total masses) = false → ∀ w ∈ shares, Scalar.Same w 0

theorem shares_of_masses {masses : List Float} (usable : ∀ m ∈ masses, Scalar.isMass m = true)
    (some : Scalar.le (Scalar.total masses) Zero.zero = false) :
    Shares masses (masses.map (· / Scalar.total masses)) := by
  have vanish : Scalar.isFinite (Scalar.total masses) = false →
      ∀ w ∈ masses.map (· / Scalar.total masses), Scalar.Same w Zero.zero := by
    intro infinite w member
    obtain ⟨m, given, rfl⟩ := List.mem_map.1 member
    exact share_of_infinite (usable m given) (unsigned_total usable) infinite
  refine ⟨⟨?_, fun finite => ?_⟩, vanish⟩
  · rintro ⟨w, member, positive⟩
    by_contra infinite
    have zero := vanish (Bool.not_eq_true _ ▸ infinite) w member
    exact Bool.false_ne_true ((not_pos_of_same_zero zero).symm.trans positive)
  · obtain ⟨m, given, unsigned, great⟩ := exists_great_share usable some finite
    exact ⟨_, List.mem_map_of_mem given,
      (zero_lt_iff_value unsigned).2 ((two_zpow_pos _).trans_le great)⟩

namespace Problem

variable {σ α : Type} {P : Problem σ α Float} {s : σ} {a : α} {finals : List σ}

/-- Whatever finite numbers the outcomes are worth, the expected value is worked out, and is a
zero. -/
def Vanishes [DecidableEq σ] [DecidableEq α] (P : Problem σ α Float) (s : σ) (a : α)
    (finals : List σ) : Prop :=
  ∀ {ω : Type} (l : Ledger σ α Float) (c : ω) (value : σ → Float), l.expected? s a = none →
    (∀ f ∈ finals, Scalar.isFinite (P.immediate s a f + l.discount * value f) = true) →
    ∃ x, (LedgerM.expectedValue P (pure finals) (fun f => LedgerM.ofExcept (.ok (value f))) s a
      (l, c)).1 = .ok x ∧ Scalar.Same x Zero.zero

theorem Weighable.isMass (weighable : P.Weighable s a finals) :
    ∀ m ∈ finals.map (P.probability s a), Scalar.isMass m = true := by
  intro m member
  obtain ⟨f, outcome, rfl⟩ := List.mem_map.1 member
  exact (Bool.and_eq_true _ _).mpr ⟨weighable.finite f outcome, weighable.nonnegative f outcome⟩

theorem shares_of_weights {ws : List Float} (weighed : P.weights s a finals = .ok ws) :
    Shares (finals.map (P.probability s a)) ws := by
  obtain ⟨weighable, rfl⟩ := weights_eq_ok_iff.1 weighed
  have shares := shares_of_masses weighable.isMass weighable.positive
  rwa [List.map_map] at shares

theorem expectation_of_infinite {discount : Float} {value : σ → Float}
    (weighable : P.Weighable s a finals)
    (infinite : Scalar.isFinite (Scalar.total (finals.map (P.probability s a))) = false)
    (finite : ∀ f ∈ finals, Scalar.isFinite (P.immediate s a f + discount * value f) = true) :
    Scalar.Same (P.expectation discount value s a finals) Zero.zero := by
  refine Scalar.total_zeros fun x member => ?_
  obtain ⟨f, outcome, rfl⟩ := List.mem_map.1 member
  have usable := weighable.isMass _ (List.mem_map_of_mem outcome)
  exact same_zero_mul (share_of_infinite usable (unsigned_total weighable.isMass) infinite)
    (finite f outcome)

theorem vanishes_of_infinite [DecidableEq σ] [DecidableEq α] (weighable : P.Weighable s a finals)
    (infinite : Scalar.isFinite (Scalar.total (finals.map (P.probability s a))) = false) :
    P.Vanishes s a finals := by
  intro ω l c value vacant finite
  refine ⟨P.expectation l.discount value s a finals, ?_,
    expectation_of_infinite weighable infinite finite⟩
  rw [LedgerM.expectedValue_eq_appraise vacant]
  exact (appraise_eq_ok_iff fun f _ => rfl).2 ⟨weighable, rfl⟩

end Problem

theorem Tabulated.shares_of_ofMasses {offset : Int} {masses : Array Float} {d : Tabulated Float}
    (built : ofMasses offset masses = .ok d) : Shares masses.toList d.masses.toList := by
  obtain ⟨usable, some, rfl⟩ := ofMasses_ok_iff.1 built
  rw [Array.toList_map]
  exact shares_of_masses (fun m member => usable m (Array.mem_toList_iff.1 member)) some

open Tabulated

/-- Renormalizing leaves a positive share exactly when the sum of the masses is finite, which masses
up to `2 ^ 969` make sure of. With an infinite sum all shares are zeros, and the expected value that
is worked out with such weights is a zero too. -/
theorem shares_vanish_on_overflow {σ α : Type} [DecidableEq σ] [DecidableEq α]
    (P : Problem σ α Float) (s : σ) (a : α) (finals : List σ) :
    (∀ (offset : Int) (masses : Array Float) (d : Tabulated Float),
      ofMasses offset masses = .ok d → Shares masses.toList d.masses.toList) ∧
    (∀ ws, P.weights s a finals = .ok ws → Shares (finals.map (P.probability s a)) ws ∧
      (Scalar.isFinite (Scalar.total (finals.map (P.probability s a))) = false →
        P.Vanishes s a finals)) ∧
    ∀ masses : List Float, (∀ m ∈ masses, Scalar.isMass m = true ∧ value m ≤ 2 ^ 969) →
      Scalar.isFinite (Scalar.total masses) = true := by
  refine ⟨fun _ _ _ => shares_of_ofMasses, fun ws weighed => ?_, fun masses small => ?_⟩
  · have weighable := (Problem.weights_eq_ok_iff.1 weighed).1
    exact ⟨Problem.shares_of_weights weighed, Problem.vanishes_of_infinite weighable⟩
  · exact isFinite_total (fun m member => (small m member).1) fun m member => (small m member).2

def Explicit.huge : Explicit Float :=
  ⟨none, #[[0], [0, 1]], [], [(⟨0, 0⟩, ⟨0, [(0, [⟨0, 1e308, 1⟩, ⟨1, 1e308, 1⟩])]⟩)]⟩

-- The outcomes are worth one each, and nothing later.
theorem shares_vanish_on_overflow_huge :
    let masses : Array Float := #[0.0, 1e308, 7e307]
    let P : Problem Node Int Float := Explicit.huge.problem
    let finals : List Node := [⟨1, 0⟩, ⟨1, 1⟩]
    let ledger : Ledger Node Int Float := .empty .default 1
    (∃ d, ofMasses 3 masses = .ok d ∧ ∃ m ∈ d.masses.toList, Scalar.lt Zero.zero m = true) ∧
    (∃ ws, P.weights ⟨0, 0⟩ 0 finals = .ok ws ∧ ∀ w ∈ ws, Scalar.Same w Zero.zero) ∧
    (∃ x, (LedgerM.expectedValue P (pure finals) (fun _ => LedgerM.ofExcept (.ok 0)) ⟨0, 0⟩ 0
      (ledger, ())).1 = .ok x ∧ Scalar.Same x Zero.zero) ∧
    Scalar.isFinite (Scalar.total [1.0, (0.0 : Float), 1.0]) = true := by
  intro masses P finals ledger
  obtain ⟨tables, weights, small⟩ := shares_vanish_on_overflow P ⟨0, 0⟩ 0 finals
  have built : ofMasses 3 masses = .ok ⟨3, masses.map (· / Scalar.total masses.toList)⟩ :=
    ofMasses_ok_iff.2 ⟨by decide +kernel, by decide +kernel, rfl⟩
  have finite : Scalar.isFinite (Scalar.total masses.toList) = true := by decide +kernel
  have weighable : P.Weighable ⟨0, 0⟩ 0 finals :=
    ⟨by decide +kernel, by decide +kernel, by decide +kernel⟩
  have weighed := Problem.weights_eq_ok_iff.2 ⟨weighable, rfl⟩
  have infinite : Scalar.isFinite (Scalar.total (finals.map (P.probability ⟨0, 0⟩ 0))) = false := by
    decide +kernel
  obtain ⟨shares, vanishes⟩ := weights _ weighed
  refine ⟨⟨_, built, (tables _ _ _ built).pos_iff.2 finite⟩,
    ⟨_, weighed, shares.zeros infinite⟩, ?_, ?_⟩
  · exact vanishes infinite ledger () (fun _ => 0) (Ledger.expected?_empty _ _ _ _)
      (by decide +kernel)
  · have one : value 1.0 ≤ 2 ^ 969 := value_one.2.trans_le (one_le_pow₀ one_le_two)
    have zero : value 0.0 ≤ 2 ^ 969 := value_zero.2.trans_le (by positivity)
    refine small _ ?_
    simp only [List.mem_cons, List.not_mem_nil, or_false, forall_eq_or_imp, forall_eq]
    exact ⟨⟨by decide +kernel, one⟩, ⟨by decide +kernel, zero⟩, by decide +kernel, one⟩

theorem huge_masses_without_share :
    let masses : Array Float := #[1e308, 1e308]
    let P : Problem Node Int Float := Explicit.huge.problem
    let finals : List Node := [⟨1, 0⟩, ⟨1, 1⟩]
    (∀ m ∈ masses.toList, Scalar.isMass m = true) ∧
    (∃ d, ofMasses 0 masses = .ok d ∧ ¬∃ m ∈ d.masses.toList, Scalar.lt Zero.zero m = true) ∧
    (∀ f ∈ finals, Scalar.isMass (P.probability ⟨0, 0⟩ 0 f) = true) ∧
    ∃ ws, P.weights ⟨0, 0⟩ 0 finals = .ok ws ∧ ¬∃ w ∈ ws, Scalar.lt Zero.zero w = true := by
  intro masses P finals
  have built : ofMasses 0 masses = .ok ⟨0, masses.map (· / Scalar.total masses.toList)⟩ :=
    ofMasses_ok_iff.2 ⟨by decide +kernel, by decide +kernel, rfl⟩
  have weighable : P.Weighable ⟨0, 0⟩ 0 finals :=
    ⟨by decide +kernel, by decide +kernel, by decide +kernel⟩
  exact ⟨by decide +kernel, ⟨_, built, by decide +kernel⟩, by decide +kernel,
    ⟨_, Problem.weights_eq_ok_iff.2 ⟨weighable, rfl⟩, by decide +kernel⟩⟩

end Horizon
