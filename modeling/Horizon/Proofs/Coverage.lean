import Horizon.Proofs.Binary64
import Horizon.Proofs.Failures
import Horizon.Proofs.History
import Horizon.Proofs.Sequence

/-! Sampled periods cover the actions of the periods before them.

From the first period up, each period lists its sample and then the outcomes that were added for the
states before it: where no outcome with mass of an action is in the sample, all its outcomes are
added (`Missed`). The states that are added are covered in turn. So, unless outcomes are sampled as
well, every action of a listed state that has an outcome with mass at all keeps one, and its masses
can be used.
-/

set_option autoImplicit false

namespace Horizon

variable {σ α ρ : Type} [DecidableEq σ]

def Problem.sampleAt [Hashable σ] (P : Problem σ α ρ) (config : Config ρ) (t : Nat) : List σ :=
  StateSpace.sampledDomain (.empty t config.storage config.stateSampling config.seed) P

def Problem.drawn [Hashable σ] (P : Problem σ α ρ) (config : Config ρ) (t : Nat) : StateSpace σ :=
  ((StateSpace.empty t config.storage config.stateSampling config.seed).materialize P).2

theorem StateSpace.contains_empty [Hashable σ] (t : Nat) (storage : StorageConfig)
    (sampling : Sampling) (seed : UInt64) (s : σ) :
    (StateSpace.empty t storage sampling seed : StateSpace σ).contains s = false := by
  simp [StateSpace.empty, StateSpace.contains, Store.contains]

theorem Problem.enumerated_drawn [Hashable σ] (P : Problem σ α ρ) (config : Config ρ) (t : Nat) :
    (P.drawn config t).enumerated = (P.sampleAt config t).eraseDups := by
  rw [drawn, StateSpace.materialize, StateSpace.enumerated_extend, newOnes_eq_eraseDups, sampleAt,
    List.filter_eq_self.2 fun s _ => by rw [StateSpace.contains_empty]; rfl]
  rfl

theorem Problem.contains_drawn [Hashable σ] (P : Problem σ α ρ) (config : Config ρ) (t : Nat)
    (s : σ) : (P.drawn config t).contains s = decide (s ∈ P.sampleAt config t) := by
  rw [drawn, StateSpace.materialize, StateSpace.contains_extend, StateSpace.contains_empty,
    Bool.false_or, sampleAt]

namespace Backward

variable [Scalar ρ] {P : Problem σ α ρ} {config : Config ρ}

/-- None of the outcomes with mass that a pair has is in a sample of the next period. -/
def Missed (P : Problem σ α ρ) (sample : List σ) (s : σ) (a : α) : Prop :=
  ∀ f ∈ P.outcomes s a, f ∈ sample → Scalar.lt 0 (P.probability s a f) = false

theorem getElem?_coverAfter {current next : StateSpace σ} {spaces : List (StateSpace σ)} {i : Nat}
    (found : spaces[i]? = some next) :
    ∃ before, (current :: (coverAfter P current spaces).2)[i]? = some before ∧
      (coverAfter P current spaces).2[i]? = some (next.extend (uncovered P before next)).2 := by
  induction spaces generalizing current i with
  | nil => cases found
  | cons first rest ih =>
    cases i with
    | zero =>
      cases found
      exact ⟨current, rfl, rfl⟩
    | succ i => exact ih found

section Generated

variable [Hashable σ]

omit [Scalar ρ] in
theorem getElem?_drawn {t : Nat} (inside : t ≤ config.horizon) :
    (materializeAll P (emptySpaces config)).2[t]? = some (P.drawn config t) := by
  rw [materializeAll_eq_map, emptySpaces, List.map_map, List.getElem?_map,
    List.getElem?_range (Nat.lt_succ_of_le inside)]
  rfl

theorem isCovered_drawn {t : Nat} {s : σ} {a : α} :
    isCovered P (P.drawn config t) s a = false ↔ Missed P (P.sampleAt config t) s a := by
  rw [isCovered, List.any_eq_false, Missed]
  refine forall₂_congr fun f _ => ?_
  rw [P.contains_drawn, Bool.and_eq_true, decide_eq_true_iff, not_and, Bool.not_eq_true]

theorem mem_uncovered_drawn {t : Nat} {before : StateSpace σ} {f : σ} :
    f ∈ uncovered P before (P.drawn config t) ↔ ∃ s ∈ before.enumerated, ∃ a ∈ P.actions s,
      Missed P (P.sampleAt config t) s a ∧ f ∈ P.outcomes s a := by
  simp only [uncovered, List.mem_flatMap]
  refine exists_congr fun s => and_congr_right fun _ => exists_congr fun a => and_congr_right
    fun _ => ?_
  rw [← isCovered_drawn]
  cases isCovered P (P.drawn config t) s a <;> simp

variable (sampled : config.stateSampling.isExhaustive = false)

include sampled

theorem exists_generatedSpaces : ∃ rest : List (StateSpace σ),
    (∀ t < config.horizon, rest[t]? = some (P.drawn config (t + 1))) ∧
      generatedSpaces P config =
        P.drawn config 0 :: (coverAfter P (P.drawn config 0) rest).2 := by
  have each : ∀ t ≤ config.horizon,
      (materializeAll P (emptySpaces config)).2[t]? = some (P.drawn config t) :=
    fun _ => getElem?_drawn
  rw [generatedSpaces, if_neg (by simp [sampled])]
  generalize (materializeAll P (emptySpaces config)).2 = spaces at each ⊢
  cases spaces with
  | nil => cases each 0 (Nat.zero_le _)
  | cons first rest =>
    cases each 0 (Nat.zero_le _)
    exact ⟨rest, fun t inside => each (t + 1) inside, rfl⟩

-- A period is its sample, extended for what the period before it has in the end.
theorem generatedSpaces_succ {t : Nat} (inside : t < config.horizon) :
    ∃ before, (generatedSpaces P config)[t]? = some before ∧
      (generatedSpaces P config)[t + 1]? = some
        ((P.drawn config (t + 1)).extend (uncovered P before (P.drawn config (t + 1)))).2 := by
  obtain ⟨rest, each, same⟩ := exists_generatedSpaces (P := P) sampled
  rw [same]
  exact getElem?_coverAfter (each t inside)

theorem statesOf_zero :
    statesOf (generatedSpaces P config) 0 = (P.sampleAt config 0).eraseDups := by
  obtain ⟨rest, -, same⟩ := exists_generatedSpaces (P := P) sampled
  rw [same, statesOf]
  exact P.enumerated_drawn config 0

theorem statesOf_succ {t : Nat} (inside : t < config.horizon) :
    ∃ added, statesOf (generatedSpaces P config) (t + 1) =
        (P.sampleAt config (t + 1)).eraseDups ++ added ∧
      ∀ f, f ∈ added ↔ f ∉ P.sampleAt config (t + 1) ∧
        ∃ s ∈ statesOf (generatedSpaces P config) t, ∃ a ∈ P.actions s,
          Missed P (P.sampleAt config (t + 1)) s a ∧ f ∈ P.outcomes s a := by
  obtain ⟨before, found, next⟩ := generatedSpaces_succ (P := P) sampled inside
  refine ⟨newOnes (P.drawn config (t + 1)).contains
    (uncovered P before (P.drawn config (t + 1))), ?_, fun f => ?_⟩
  · rw [statesOf, next]
    dsimp only
    rw [StateSpace.enumerated_extend, P.enumerated_drawn]
  · rw [mem_newOnes, statesOf, found, P.contains_drawn, decide_eq_false_iff_not, and_comm,
      mem_uncovered_drawn]

theorem mem_statesOf_of_mem_sampleAt {t : Nat} (inside : t ≤ config.horizon) {s : σ}
    (drawn : s ∈ P.sampleAt config t) : s ∈ statesOf (generatedSpaces P config) t := by
  cases t with
  | zero =>
    rw [statesOf_zero sampled]
    exact List.mem_eraseDups.2 drawn
  | succ t =>
    obtain ⟨added, same, -⟩ := statesOf_succ (P := P) sampled inside
    rw [same]
    exact List.mem_append_left _ (List.mem_eraseDups.2 drawn)

theorem covered {t : Nat} (inside : t < config.horizon) {s : σ}
    (listed : s ∈ statesOf (generatedSpaces P config) t) {a : α} (feasible : a ∈ P.actions s) :
    (∃ f ∈ P.outcomes s a, f ∈ P.sampleAt config (t + 1) ∧
        Scalar.lt 0 (P.probability s a f) = true) ∨
      ∀ f ∈ P.outcomes s a, f ∈ statesOf (generatedSpaces P config) (t + 1) := by
  by_cases missed : Missed P (P.sampleAt config (t + 1)) s a
  · obtain ⟨added, same, all⟩ := statesOf_succ (P := P) sampled inside
    refine .inr fun f outcome => ?_
    by_cases drawn : f ∈ P.sampleAt config (t + 1)
    · exact mem_statesOf_of_mem_sampleAt sampled inside drawn
    · rw [same]
      exact List.mem_append_right _ ((all f).2 ⟨drawn, s, listed, a, feasible, missed, outcome⟩)
  · simp only [Missed, not_forall, Bool.not_eq_false] at missed
    obtain ⟨f, outcome, drawn, positive⟩ := missed
    exact .inl ⟨f, outcome, drawn, positive⟩

end Generated

section Weighed

variable [DecidableEq α] {spaces : List (StateSpace σ)}

theorem failsOnly_solveDown (complete : Complete P config spaces)
    (weighable : ∀ t < config.horizon, ∀ s ∈ statesOf spaces t, ∀ a ∈ P.actions s,
      P.Weighable s a (kept P config spaces s a)) :
    LedgerM.FailsOnly (fun e => ∀ s a, e ≠ .degenerate s a) (solveDown P config spaces) := by
  have flat := solveDown_eq_forEach (α := α) complete (Nat.le_refl config.horizon)
  rw [Nat.sub_self, List.drop_zero] at flat
  rw [flat]
  refine LedgerM.failsOnly_forEach fun s member => ?_
  obtain ⟨t, -, below, listed⟩ := (mem_order (Nat.le_refl _)).1 member
  unfold solveIn
  split
  · next next found =>
    have evaluated : ∀ a ∈ P.actions s, LedgerM.FailsOnly (fun e => ∀ s a, e ≠ .degenerate s a)
        (evaluate P config next s a) := by
      intro a feasible
      rw [evaluate_of_next found]
      refine LedgerM.failsOnly_expectedValue (fun e failed => ?_) fun f _ => ?_
      · have weighed := Problem.weights_eq_ok_iff.2 ⟨weighable t below s listed a feasible, rfl⟩
        rw [weighed] at failed
        cases failed
      · refine LedgerM.failsOnly_query fun l e missing => ?_
        unfold Ledger.value at missing
        split at missing
        · cases missing
        · cases missing
          rintro s a ⟨⟩
    refine (LedgerM.failsOnly_evaluateAll evaluated).bind fun candidates => ?_
    refine (LedgerM.failsOnly_ofExcept fun e failed => ?_).bind fun d => ?_
    · rcases LedgerM.choose_error failed with ⟨a, rfl⟩ | rfl <;> rintro s' a' ⟨⟩
    · have other : ∀ s' a', (.alreadySolved s : SolveError σ α) ≠ .degenerate s' a' := by
        rintro s' a' ⟨⟩
      exact (LedgerM.failsOnly_decide other d).bind fun _ => LedgerM.failsOnly_onContext _
  · exact LedgerM.failsOnly_pure ()

variable [Hashable σ]

theorem Staged.ne_degenerate [Hashable α] {b : Backward σ α ρ} (lawful : P.Lawful)
    (staged : Staged P config b)
    (weighable : ∀ t < config.horizon, ∀ s ∈ statesOf (generatedSpaces P config) t,
      ∀ a ∈ P.actions s, P.Weighable s a (kept P config (generatedSpaces P config) s a))
    (s : σ) (a : α) : b.run.1 ≠ .error (.degenerate s a) := by
  intro failed
  by_cases solved : ∃ p approximate, b.phase = .solved p approximate
  · obtain ⟨p, approximate, phase⟩ := solved
    rw [run, runUntil_of_solved phase] at failed
    cases failed
  · obtain ⟨l, c, prepared, -⟩ :=
      staged.prepare lawful fun p a phase => solved ⟨p, a, phase⟩
    rw [run, runUntil_of_prepare prepared] at failed
    exact failsOnly_solveDown (complete_generatedSpaces lawful config) weighable (l, c) _ failed s a
      rfl

variable [Scalar.Additive ρ]

/-- The masses of every action of a listed state can be used, and one of its outcomes has some. -/
def Massive (P : Problem σ α ρ) (config : Config ρ) (spaces : List (StateSpace σ)) : Prop :=
  ∀ t < config.horizon, ∀ s ∈ statesOf spaces t, ∀ a ∈ P.actions s,
    (∀ f ∈ P.outcomes s a, Scalar.isMass (P.probability s a f) = true) ∧
      ∃ f ∈ P.outcomes s a, Scalar.lt 0 (P.probability s a f) = true

omit [DecidableEq α] [Scalar.Additive ρ] in
-- Whichever way a pair is covered, an outcome with mass is known for it.
theorem exists_known_outcome (lawful : P.Lawful)
    (sampled : config.stateSampling.isExhaustive = false) {s : σ}
    (listed : s ∈ statesOf (generatedSpaces P config) (P.period s))
    (inside : P.period s < config.horizon) {a : α} (feasible : a ∈ P.actions s)
    (massive : ∃ f ∈ P.outcomes s a, Scalar.lt 0 (P.probability s a f) = true)
    {next : StateSpace σ} (found : (generatedSpaces P config)[P.period s + 1]? = some next) :
    ∃ f ∈ (P.outcomes s a).filter next.contains, Scalar.lt 0 (P.probability s a f) = true := by
  have known : ∀ f, f ∈ statesOf (generatedSpaces P config) (P.period s + 1) →
      next.contains f = true := by
    intro f member
    rw [statesOf, found] at member
    exact (((complete_generatedSpaces lawful config).laid.orderly found).known f).2 member
  obtain ⟨f, outcome, positive⟩ := massive
  rcases covered sampled inside listed feasible with ⟨g, outcome', drawn, positive'⟩ | all
  · have member := mem_statesOf_of_mem_sampleAt sampled inside drawn
    exact ⟨g, List.mem_filter.2 ⟨outcome', known g member⟩, positive'⟩
  · exact ⟨f, List.mem_filter.2 ⟨outcome, known f (all f outcome)⟩, positive⟩

omit [DecidableEq α] in
theorem weighable_of_massive (lawful : P.Lawful)
    (sampled : config.stateSampling.isExhaustive = false)
    (exact : config.outcomeSampling.isExhaustive = true)
    (massive : Massive P config (generatedSpaces P config)) {t : Nat} (inside : t < config.horizon)
    {s : σ} (listed : s ∈ statesOf (generatedSpaces P config) t) {a : α}
    (feasible : a ∈ P.actions s) :
    P.Weighable s a (kept P config (generatedSpaces P config) s a) := by
  have complete := complete_generatedSpaces lawful config
  obtain ⟨usable, some⟩ := massive t inside s listed a feasible
  obtain ⟨rfl, -⟩ := complete.period_of_mem listed
  obtain ⟨next, found, -⟩ := complete.exists_space (t := P.period s + 1) inside
  have finals : kept P config (generatedSpaces P config) s a =
      (P.outcomes s a).filter next.contains := by
    rw [kept, found]
    dsimp only
    rw [Problem.keepOutcomes, if_pos exact]
  rw [finals]
  exact Problem.weighable_of_pos (fun g member => usable g (List.mem_filter.1 member).1)
    (exists_known_outcome lawful sampled listed inside feasible some found)

variable [Hashable α] {b : Backward σ α ρ}

/-- What generating the states makes of sampled periods. Each period lists its sample in order and
then the states that were added, none of them twice, and knows no others. Every action of a listed
state has an outcome with mass in the sample of the next period, or all its outcomes are listed
there; and only the outcomes of actions of the second kind are added. So a run, after whatever
calls, does not fail for lack of mass, when outcomes are not sampled, masses can be used, and every
action of a listed state has an outcome with mass. -/
theorem generateStates_covers (lawful : P.Lawful) (new : Backward.new P config = .ok b)
    (sampled : config.stateSampling.isExhaustive = false) :
    let spaces := b.generateStates.spaces
    let sample := P.sampleAt config
    (∀ t ≤ config.horizon, ∃ space added, spaces[t]? = some space ∧
        statesOf spaces t = (sample t).eraseDups ++ added ∧ (statesOf spaces t).Nodup ∧
        (∀ s, space.contains s = true ↔ s ∈ statesOf spaces t) ∧
        (∀ f ∈ added, f ∉ sample t) ∧ (t = 0 → added = [])) ∧
      (∀ t < config.horizon, ∀ s ∈ statesOf spaces t, ∀ a ∈ P.actions s,
        (∃ f ∈ P.outcomes s a, f ∈ sample (t + 1) ∧ Scalar.lt 0 (P.probability s a f) = true) ∨
          ∀ f ∈ P.outcomes s a, f ∈ statesOf spaces (t + 1)) ∧
      (∀ t < config.horizon, ∀ f ∈ statesOf spaces (t + 1), f ∉ sample (t + 1) →
        ∃ s ∈ statesOf spaces t, ∃ a ∈ P.actions s,
          Missed P (sample (t + 1)) s a ∧ f ∈ P.outcomes s a) ∧
      (config.outcomeSampling.isExhaustive = true → Massive P config spaces →
        ∀ calls s a, (b.after calls).run.1 ≠ .error (.degenerate s a)) := by
  obtain ⟨tally, generated⟩ := generateStates_of_new new
  have fresh := (new_eq_ok_iff.1 new).2.2
  subst fresh
  have complete : Complete P config (generatedSpaces P config) :=
    complete_generatedSpaces lawful config
  rw [generated]
  dsimp only
  refine ⟨fun t inside => ?_, fun t inside s listed a feasible =>
    covered sampled inside listed feasible, fun t inside f listed outside => ?_,
    fun exact massive calls => ?_⟩
  · obtain ⟨space, found, orderly, states, -⟩ := complete.exists_space inside
    have known : ∀ s, space.contains s = true ↔ s ∈ statesOf (generatedSpaces P config) t := by
      rw [states]
      exact orderly.known
    have distinct : (statesOf (generatedSpaces P config) t).Nodup := states ▸ orderly.distinct
    cases t with
    | zero =>
      refine ⟨space, [], found, ?_, distinct, known, nofun, fun _ => rfl⟩
      rw [statesOf_zero sampled, List.append_nil]
    | succ t =>
      obtain ⟨added, same, all⟩ := statesOf_succ (P := P) sampled inside
      exact ⟨space, added, found, same, distinct, known, fun f member => ((all f).1 member).1,
        nofun⟩
  · obtain ⟨added, same, all⟩ := statesOf_succ (P := P) sampled inside
    rw [same, List.mem_append, List.mem_eraseDups] at listed
    exact ((all f).1 (listed.resolve_left outside)).2
  · obtain ⟨staged, -⟩ : Staged P config ((start P config).after calls) ∧ _ :=
      staged_start.after lawful calls
    exact staged.ne_degenerate lawful fun t inside s listed a feasible =>
      weighable_of_massive lawful sampled exact massive inside listed feasible

end Weighed

def oneState (horizon : Nat) : Config ρ :=
  { Config.exact horizon with stateSampling := .midpoints 1 }

-- The sample of period one leaves out the only outcome of an action, which is added for it.
theorem generateStates_covers_uneven :
    let P : Problem Node Int Float := Explicit.uneven.problem
    let b : Backward Node Int Float := start P (oneState 2)
    let spaces := b.generateStates.spaces
    Backward.new P (oneState 2) = .ok b ∧
      (oneState 2 : Config Float).stateSampling.isExhaustive = false ∧
      P.sampleAt (oneState 2) 1 = [⟨1, 1⟩] ∧ statesOf spaces 1 = [⟨1, 1⟩, ⟨1, 0⟩] ∧
      (∃ s ∈ statesOf spaces 0, ∃ a ∈ P.actions s,
        Missed P (P.sampleAt (oneState 2) 1) s a ∧ ⟨1, 0⟩ ∈ P.outcomes s a) ∧
      ∀ calls s a, (b.after calls).run.1 ≠ .error (.degenerate s a) := by
  intro P b spaces
  have new : Backward.new P (oneState 2) = .ok b := rfl
  have sampled : (oneState 2 : Config Float).stateSampling.isExhaustive = false := rfl
  obtain ⟨-, -, added, massed⟩ := generateStates_covers Explicit.uneven.lawful new sampled
  have listed : statesOf spaces 1 = [⟨1, 1⟩, ⟨1, 0⟩] := by decide +kernel
  have sample : P.sampleAt (oneState 2) 1 = [⟨1, 1⟩] := by decide +kernel
  have massive : Massive P (oneState 2) spaces := by
    unfold Massive
    decide +kernel
  refine ⟨new, sampled, sample, listed, ?_, massed rfl massive⟩
  exact added 0 (by decide) ⟨1, 0⟩ (by rw [listed]; decide) (by rw [sample]; decide)

end Backward

end Horizon
