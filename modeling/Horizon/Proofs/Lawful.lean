import Horizon.Config
import Horizon.Explicit
import Horizon.Inventory.LotSizing

/-! Which configurations pass, which problems are lawful, and which of their domains are closed.

Problems given by tables and lot sizing both lead from a period to the next. The domain of a lot
sizing problem is closed besides: wherever an order and a demand lead from a level of the domain,
the inventory is set to a bound when it is beyond it.
-/

set_option autoImplicit false

namespace Horizon

/-- Every outcome that an action of the domain has in the periods below a horizon is in the domain
of the next period. -/
def Problem.Closed {σ α ρ : Type} (P : Problem σ α ρ) (horizon : Nat) : Prop :=
  ∀ t < horizon, ∀ s ∈ P.domain t, ∀ a ∈ P.actions s, ∀ f ∈ P.outcomes s a, f ∈ P.domain (t + 1)

section Sampling

variable {σ α ρ : Type}

theorem Sampling.mem_of_mem_pick {sampling : Sampling} {xs : List σ} {period : Nat} {seed : UInt64}
    {x : σ} (picked : x ∈ sampling.pick xs period seed) : x ∈ xs := by
  unfold pick at picked
  split at picked
  · exact picked
  · obtain ⟨i, -, found⟩ := List.mem_filterMap.1 picked
    rw [List.getElem?_toArray] at found
    exact List.mem_of_getElem? found

theorem Problem.mem_of_mem_keepOutcomes {P : Problem σ α ρ} {sampling : Sampling} {seed : UInt64}
    {s f : σ} {a : α} {candidates : List σ}
    (kept : f ∈ P.keepOutcomes sampling seed s a candidates) : f ∈ candidates := by
  unfold keepOutcomes at kept
  split at kept
  · exact kept
  · exact Sampling.mem_of_mem_pick kept

theorem Problem.Lawful.period_of_mem_outcomesKept {P : Problem σ α ρ} (lawful : P.Lawful)
    {sampling : Sampling} {seed : UInt64} {s f : σ} {a : α}
    (kept : f ∈ P.outcomesKept sampling seed s a) : P.period f = P.period s + 1 :=
  lawful.period_outcomes s a f (mem_of_mem_keepOutcomes kept)

end Sampling

theorem guard_eq_ok_iff {ε β : Type} {c : Prop} [Decidable c] {e : ε} {k : PUnit → Except ε β}
    {x : β} : (if c then throw e >>= k else k ()) = .ok x ↔ ¬c ∧ k () = .ok x := by
  split
  · next failed => exact ⟨nofun, fun both => absurd failed both.1⟩
  · next passed => exact ⟨fun done => ⟨passed, done⟩, fun both => both.2⟩

theorem bind_eq_ok_iff {ε : Type} {first second : Except ε Unit} :
    (first >>= fun _ => second) = .ok () ↔ first = .ok () ∧ second = .ok () := by
  cases first with
  | error e => exact ⟨nofun, nofun⟩
  | ok _ => simp [bind, Except.bind]

namespace Config

variable {ρ : Type} [Scalar ρ] {config : Config ρ}

omit [Scalar ρ] in
theorem validateSampling_eq_ok_iff {label : String} {s : Sampling} :
    (validateSampling label s : Except (ConfigError ρ) Unit) = .ok () ↔ s.validate = .ok () := by
  rw [validateSampling]
  cases s.validate with
  | error e => simp
  | ok _ => simp

theorem validate_eq_ok_iff :
    config.validate = .ok () ↔
      config.horizon ≠ 0 ∧ Scalar.isFactor config.discount = true ∧
        config.monitorInterval ≠ some 0 ∧ config.stateSampling.validate = .ok () ∧
          config.outcomeSampling.validate = .ok () ∧ config.storage.kind.isValid = true := by
  rw [validate]
  simp [guard_eq_ok_iff, bind_eq_ok_iff, validateSampling_eq_ok_iff, StorageConfig.validate]

theorem isFactor_of_validate (valid : config.validate = .ok ()) :
    Scalar.isFactor config.discount = true :=
  (validate_eq_ok_iff.1 valid).2.1

-- Both recursions are made in this way.
theorem checked_eq_ok_iff {β : Type} {limit : Option Nat} {made x : β} :
    (do
      config.validate
      config.checkHorizon limit
      return made) = Except.ok x ↔
      config.validate = .ok () ∧ config.checkHorizon limit = .ok () ∧ x = made := by
  cases config.validate with
  | error e => exact ⟨nofun, nofun⟩
  | ok _ =>
    cases config.checkHorizon limit with
    | error e => exact ⟨nofun, nofun⟩
    | ok _ =>
      constructor
      · intro done
        exact ⟨rfl, rfl, (Except.ok.inj done).symm⟩
      · rintro ⟨-, -, rfl⟩
        rfl

end Config

variable {ρ : Type}

theorem Explicit.lawful [Scalar ρ] (e : Explicit ρ) : e.problem.Lawful where
  period_domain t s member := by
    obtain ⟨x, -, rfl⟩ := List.mem_map.1 member
    rfl
  period_outcomes s a f member := by
    obtain ⟨b, -, rfl⟩ := List.mem_map.1 member
    rfl

/-- A problem of two periods. Its first decision is between a sure outcome and two of uneven mass.
The state at position two, outside the domain, may lead to one without actions. -/
def Explicit.uneven [Scalar ρ] : Explicit ρ where
  maxHorizon := some 2
  domain := #[[0], [0, 1], [0, 1]]
  terminal := [(1, Scalar.ofInt 4)]
  offers := [
    (⟨0, 0⟩, ⟨0, [(0, [⟨0, 1, 1⟩]), (1, [⟨0, 1, Scalar.ofInt 2⟩, ⟨1, Scalar.ofInt 3, 0⟩])]⟩),
    (⟨1, 0⟩, ⟨0, [(0, [⟨0, 1, Scalar.ofInt 3⟩])]⟩),
    (⟨1, 1⟩, ⟨0, [(0, [⟨1, 1, 0⟩]), (1, [⟨0, 1, 1⟩])]⟩),
    (⟨0, 2⟩, ⟨0, [(0, [⟨0, 1, 1⟩]), (1, [⟨2, 1, 1⟩])]⟩)]

theorem Explicit.closed_uneven [Scalar ρ] : (uneven : Explicit ρ).problem.Closed 2 := by
  unfold Problem.Closed
  exact of_decide_eq_true rfl

namespace LotSizing

theorem mem_dropRepeats {β : Type} [DecidableEq β] {last : Option β} {xs : List β} {x : β}
    (other : last ≠ some x) : x ∈ dropRepeats last xs ↔ x ∈ xs := by
  induction xs generalizing last with
  | nil => rfl
  | cons y rest ih =>
    rw [dropRepeats, List.mem_cons]
    split
    · next same =>
      have differs : x ≠ y := fun equal => other (equal ▸ same)
      simp [ih other, differs]
    · by_cases equal : x = y
      · simp [equal]
      · simp [equal, ih (fun same => equal (Option.some.inj same).symm)]

theorem mem_ends {m : LotSizing ρ} {l f : Level} {o : Order} : f ∈ m.ends l o ↔
    ∃ d, m.demand[l.period]? = some d ∧ f.period = l.period + 1 ∧
      ∃ e ∈ d.support, m.clamp (wrap (l.inventory + o.quantity - e.1)) = f.inventory := by
  rw [ends]
  cases m.demand[l.period]? with
  | none => simp
  | some d =>
    dsimp only
    rw [mem_dropRepeats (Option.some_ne_none f).symm, List.mem_map]
    constructor
    · rintro ⟨e, listed, rfl⟩
      exact ⟨d, rfl, rfl, e, listed, rfl⟩
    · rintro ⟨d', same, period, e, listed, leads⟩
      cases same
      exact ⟨e, listed, congr (congrArg Level.mk period.symm) leads⟩

theorem clamp_bounds {m : LotSizing ρ} (bounds : m.least ≤ m.greatest) (x : Int) :
    m.least ≤ m.clamp x ∧ m.clamp x ≤ m.greatest := by
  rw [clamp]
  omega

theorem mem_levels {m : LotSizing ρ} {t : Nat} {l : Level} :
    l ∈ m.levels t ↔ l.period = t ∧ m.least ≤ l.inventory ∧ l.inventory ≤ m.greatest := by
  rw [levels, List.mem_map]
  constructor
  · rintro ⟨x, inside, rfl⟩
    exact ⟨rfl, mem_descending.1 inside⟩
  · rintro ⟨rfl, inside⟩
    exact ⟨l.inventory, mem_descending.2 inside, rfl⟩

variable [Scalar ρ]

theorem lawful (m : LotSizing ρ) : m.problem.Lawful where
  period_domain _ _ member := (mem_levels.1 member).1
  period_outcomes _ _ _ member := by
    obtain ⟨-, -, next, -⟩ := mem_ends.1 member
    exact next

theorem closed (m : LotSizing ρ) (bounds : m.least ≤ m.greatest) (horizon : Nat) :
    m.problem.Closed horizon := by
  intro t _ l member o _ f outcome
  obtain ⟨d, -, next, e, -, leads⟩ := mem_ends.1 outcome
  have here : l.period = t := (mem_levels.1 member).1
  have inside := clamp_bounds bounds (wrap (l.inventory + o.quantity - e.1))
  rw [leads] at inside
  exact mem_levels.2 ⟨by omega, inside⟩

inductive Built : LotSizing ρ → Prop where
  | new {costs : Costs ρ} {demand : Array (Tabulated ρ)} {least greatest : Int} {m : LotSizing ρ} :
    LotSizing.new costs demand least greatest = .ok m → Built m
  | withCapacity {m m' : LotSizing ρ} {capacity : Int} :
    Built m → m.withCapacity capacity = .ok m' → Built m'

theorem Built.bounds {m : LotSizing ρ} (built : Built m) : m.least ≤ m.greatest := by
  induction built with
  | new made =>
    simp only [LotSizing.new, guard_eq_ok_iff] at made
    obtain ⟨-, -, ordered, made⟩ := made
    cases made
    exact Int.not_lt.1 ordered
  | withCapacity _ bounded ih =>
    rw [LotSizing.withCapacity] at bounded
    split at bounded
    · cases bounded
    · cases bounded
      exact ih

def oneUnit : LotSizing ρ :=
  ⟨⟨1, 1, 1, 1⟩, #[.point 1], 0, 2, none⟩

end LotSizing

end Horizon
