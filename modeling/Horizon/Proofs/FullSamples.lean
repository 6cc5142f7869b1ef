import Horizon.Proofs.Sequence
import Horizon.Proofs.Storage
import Horizon.Proofs.Thinning

/-! A sampling that keeps everything changes nothing.

Where a sample is as large as what it is taken of, the same states are enumerated and the same
outcomes count as without a sampling. The states of a closed domain are then covered as they are, so
none are added for their actions. What a recursion answers, and all it has entered, is the same,
also where it fails.
-/

set_option autoImplicit false

namespace Horizon

open LedgerM

variable {σ α ρ : Type}

def Sampling.KeepsAll (s : Sampling) (length period : Nat) : Prop :=
  s.isExhaustive = true ∨ length ≤ s.sizeAt period

theorem Sampling.KeepsAll.pick_eq {s : Sampling} {xs : List σ} {period : Nat}
    (whole : s.KeepsAll xs.length period) (seed : UInt64) : s.pick xs period seed = xs := by
  rw [Sampling.pick_eq, s.select_of_whole seed whole, filterMap_range]

theorem Sampling.KeepsAll.of_le {s : Sampling} {length length' period : Nat}
    (whole : s.KeepsAll length period) (shorter : length' ≤ length) : s.KeepsAll length' period :=
  whole.imp_right shorter.trans

instance (s : Sampling) (length period : Nat) : Decidable (s.KeepsAll length period) :=
  inferInstanceAs (Decidable (_ ∨ _))

def Config.unsampled (config : Config ρ) : Config ρ :=
  { config with stateSampling := .exhaustive, outcomeSampling := .exhaustive }

/-- The samples of a configuration are as large as the domains, and as the outcomes of each action
of a state of a domain. -/
structure Problem.KeptWhole (P : Problem σ α ρ) (config : Config ρ) : Prop where
  domains : ∀ t ≤ config.horizon, config.stateSampling.KeepsAll (P.domain t).length t
  outcomes : ∀ t < config.horizon, ∀ s ∈ P.domain t, ∀ a ∈ P.actions s,
    config.outcomeSampling.KeepsAll (P.outcomes s a).length t

section Sequencing

variable [DecidableEq σ] [DecidableEq α] {ω : Type}

theorem LedgerM.evaluateAll_congr {evaluate evaluate' : α → LedgerM σ α ρ ω ρ} {as : List α}
    (each : ∀ a ∈ as, evaluate a = evaluate' a) :
    evaluateAll evaluate as = evaluateAll evaluate' as := by
  induction as with
  | nil => rfl
  | cons a rest ih =>
    rw [evaluateAll, evaluateAll, each a List.mem_cons_self,
      ih fun b member => each b (List.mem_cons_of_mem a member)]

variable [Scalar ρ] {P : Problem σ α ρ} {successor successor' : σ → LedgerM σ α ρ ω ρ}

theorem LedgerM.addTerms_congr {finals : List σ} (each : ∀ f ∈ finals, successor f = successor' f)
    (discount : ρ) (s : σ) (a : α) (sum : ρ) (weights : List ρ) :
    addTerms P successor discount s a sum finals weights =
      addTerms P successor' discount s a sum finals weights := by
  induction finals generalizing sum weights with
  | nil => rfl
  | cons f rest ih =>
    cases weights with
    | nil => rfl
    | cons w others =>
      rw [addTerms, addTerms, each f List.mem_cons_self]
      simp only [ih fun g member => each g (List.mem_cons_of_mem f member)]

theorem LedgerM.expectedValue_congr {finals : List σ}
    (each : ∀ f ∈ finals, successor f = successor' f) (s : σ) (a : α) :
    expectedValue P (pure finals) successor s a = expectedValue P (pure finals) successor' s a := by
  unfold expectedValue
  simp only [pure_bind, addTerms_congr each]

end Sequencing

namespace StateSpace

variable [DecidableEq σ]

def unsampled (space : StateSpace σ) : StateSpace σ :=
  { space with sampling := .exhaustive }

@[simp] theorem contains_unsampled (space : StateSpace σ) (s : σ) :
    space.unsampled.contains s = space.contains s :=
  rfl

theorem mention_unsampled (space : StateSpace σ) (s : σ) :
    space.unsampled.mention s = ((space.mention s).1, (space.mention s).2.unsampled) := by
  unfold mention
  rw [contains_unsampled]
  split <;> rfl

theorem mentionAll_unsampled (space : StateSpace σ) (fresh xs : List σ) :
    space.unsampled.mentionAll fresh xs =
      ((space.mentionAll fresh xs).1, (space.mentionAll fresh xs).2.unsampled) := by
  induction xs generalizing space fresh with
  | nil => rfl
  | cons s rest ih =>
    rw [mentionAll_cons, mentionAll_cons, mention_unsampled, ih]
    rfl

theorem extend_unsampled (space : StateSpace σ) (xs : List σ) :
    space.unsampled.extend xs = ((space.extend xs).1, (space.extend xs).2.unsampled) := by
  unfold extend
  rw [mentionAll_unsampled]
  rfl

theorem sameStates_unsampled (space : StateSpace σ) : space.SameStates space.unsampled :=
  ⟨rfl, rfl, fun _ => rfl, rfl, rfl⟩

structure Lists (P : Problem σ α ρ) (t : Nat) (space : StateSpace σ) : Prop where
  listed : ∀ s ∈ space.enumerated, s ∈ P.domain t
  known : ∀ s ∈ P.domain t, space.contains s = true

end StateSpace

open StateSpace

def ListsFrom [DecidableEq σ] (P : Problem σ α ρ) (t : Nat) (spaces : List (StateSpace σ)) : Prop :=
  ∀ (i : Nat) (space : StateSpace σ), spaces[i]? = some space → space.Lists P (t + i)

section ListsFrom

variable [DecidableEq σ] {P : Problem σ α ρ} {t : Nat} {space : StateSpace σ}
  {spaces : List (StateSpace σ)}

theorem ListsFrom.head (lists : ListsFrom P t (space :: spaces)) : space.Lists P t :=
  lists 0 space rfl

theorem ListsFrom.tail (lists : ListsFrom P t (space :: spaces)) : ListsFrom P (t + 1) spaces := by
  intro i next found
  have here := lists (i + 1) next found
  rwa [show t + 1 + i = t + (i + 1) by omega]

end ListsFrom

namespace Backward

variable [DecidableEq σ] {P : Problem σ α ρ} {config : Config ρ}

section Generation

theorem materializeAll_unsampled {spaces : List (StateSpace σ)}
    (whole : ∀ space ∈ spaces, space.unsampled.sampledDomain P = space.sampledDomain P) :
    materializeAll P (spaces.map unsampled) =
      ((materializeAll P spaces).1, (materializeAll P spaces).2.map unsampled) := by
  induction spaces with
  | nil => rfl
  | cons space rest ih =>
    have first : space.unsampled.materialize P =
        ((space.materialize P).1, (space.materialize P).2.unsampled) := by
      rw [materialize, materialize, whole space List.mem_cons_self, extend_unsampled]
    rw [List.map_cons, materializeAll, materializeAll, first,
      ih fun next member => whole next (List.mem_cons_of_mem space member)]
    rfl

variable [Hashable σ]

theorem emptySpaces_unsampled (config : Config ρ) :
    (emptySpaces config.unsampled : List (StateSpace σ)) =
      (emptySpaces config).map unsampled := by
  simp [emptySpaces, Config.unsampled, StateSpace.unsampled, StateSpace.empty]

theorem sampledDomain_empty (whole : P.KeptWhole config) {t : Nat} (inside : t ≤ config.horizon) :
    (StateSpace.empty t config.storage config.stateSampling config.seed).sampledDomain P =
      P.domain t := by
  rw [sampledDomain_eq]
  exact (whole.domains t inside).pick_eq _

theorem materializeAll_emptySpaces_unsampled (whole : P.KeptWhole config) :
    materializeAll P (emptySpaces config.unsampled) =
      ((materializeAll P (emptySpaces config)).1,
        (materializeAll P (emptySpaces config)).2.map unsampled) := by
  rw [emptySpaces_unsampled]
  apply materializeAll_unsampled
  intro space member
  obtain ⟨t, inside, rfl⟩ := List.mem_map.1 member
  rw [sampledDomain_empty whole (Nat.le_of_lt_succ (List.mem_range.1 inside))]
  rfl

theorem listsFrom_materializeAll (whole : P.KeptWhole config) :
    ListsFrom P 0 (materializeAll P (emptySpaces config)).2 := by
  intro t space found
  rw [materializeAll_eq_map, emptySpaces, List.map_map, List.getElem?_map] at found
  obtain ⟨i, inside, rfl⟩ := Option.map_eq_some_iff.1 found
  obtain ⟨bound, rfl⟩ := List.getElem?_eq_some_iff.1 inside
  rw [List.length_range] at bound
  rw [List.getElem_range, Function.comp, materialize, sampledDomain_empty whole (by omega),
    Nat.zero_add]
  constructor
  · intro s member
    rw [enumerated_extend, List.mem_append, mem_newOnes] at member
    exact member.elim (fun none => absurd none List.not_mem_nil) And.left
  · intro s member
    rw [contains_extend]
    simp [member]

variable [Scalar ρ]

omit [Hashable σ] in
-- The outcomes of the actions of one period are known in the next, so there is nothing to add.
theorem coverAfter_of_closed {horizon t : Nat} (closed : P.Closed horizon)
    {current : StateSpace σ} {spaces : List (StateSpace σ)} (short : t + spaces.length ≤ horizon)
    (lists : ListsFrom P t (current :: spaces)) : coverAfter P current spaces = (0, spaces) := by
  induction spaces generalizing t current with
  | nil => rfl
  | cons next rest ih =>
    rw [List.length_cons] at short
    have known : ∀ f ∈ uncovered P current next, next.contains f = true := by
      intro f added
      obtain ⟨s, listed, added⟩ := List.mem_flatMap.1 added
      obtain ⟨a, feasible, added⟩ := List.mem_flatMap.1 added
      have member := lists.head.listed s listed
      split at added
      · exact absurd added List.not_mem_nil
      · exact lists.tail.head.known f (closed t (by omega) s member a feasible f added)
    rw [coverAfter, extend_of_known known]
    dsimp only
    rw [ih (by omega) lists.tail, Nat.zero_add]

omit [Hashable σ] in
theorem coverAll_of_closed {horizon : Nat} (closed : P.Closed horizon)
    {spaces : List (StateSpace σ)} (short : spaces.length ≤ horizon + 1)
    (lists : ListsFrom P 0 spaces) : coverAll P spaces = (0, spaces) := by
  cases spaces with
  | nil => rfl
  | cons first rest =>
    rw [coverAll, coverAfter_of_closed closed (by simpa using short) lists]

end Generation

section Passes

variable [DecidableEq α] [Scalar ρ] (lawful : P.Lawful) (whole : P.KeptWhole config)

include lawful whole

theorem evaluate_unsampled (next : StateSpace σ) {t : Nat} (inside : t < config.horizon) {s : σ}
    (member : s ∈ P.domain t) {a : α} (feasible : a ∈ P.actions s) :
    evaluate P config.unsampled next.unsampled s a = evaluate P config next s a := by
  have all : config.outcomeSampling.KeepsAll ((P.outcomes s a).filter next.contains).length
      (P.period s) := by
    rw [lawful.period_domain t s member]
    exact (whole.outcomes t inside s member a feasible).of_le (List.length_filter_le _ _)
  unfold evaluate
  rw [P.keepOutcomes_eq_pick, P.keepOutcomes_eq_pick, all.pick_eq]
  rfl

theorem solveState_unsampled (next : StateSpace σ) {t : Nat} (inside : t < config.horizon) {s : σ}
    (member : s ∈ P.domain t) :
    solveState P config.unsampled next.unsampled s = solveState P config next s := by
  unfold solveState
  rw [evaluateAll_congr fun a => evaluate_unsampled lawful whole next inside member]
  rfl

theorem solveDown_unsampled {t : Nat} {spaces : List (StateSpace σ)}
    (short : t + spaces.length ≤ config.horizon + 1) (lists : ListsFrom P t spaces) :
    solveDown P config.unsampled (spaces.map unsampled) = solveDown P config spaces := by
  induction spaces generalizing t with
  | nil => rfl
  | cons current rest ih =>
    cases rest with
    | nil => rfl
    | cons next rest =>
      simp only [List.length_cons] at short ih
      have later := ih (by omega) lists.tail
      rw [List.map_cons] at later
      rw [List.map_cons, List.map_cons, solveDown, solveDown, later]
      congr 1
      funext _
      exact forEach_congr fun s listed =>
        solveState_unsampled lawful whole next (by omega) (lists.head.listed s listed)

omit [Scalar ρ] lawful whole in
theorem seedTerminal_unsampled (P : Problem σ α ρ) (spaces : List (StateSpace σ)) :
    seedTerminal P (spaces.map unsampled) = seedTerminal P spaces := by
  unfold seedTerminal
  rw [List.getLast?_map]
  cases spaces.getLast? <;> rfl

end Passes

section Calls

variable [DecidableEq α]

def unsampled (b : Backward σ α ρ) : Backward σ α ρ :=
  { b with config := b.config.unsampled, spaces := b.spaces.map StateSpace.unsampled }

theorem perform_unsampled (b : Backward σ α ρ) (act : LedgerM σ α ρ Tally Unit) :
    b.unsampled.perform act = ((b.perform act).1, (b.perform act).2.unsampled) :=
  rfl

/-- A recursion that has not begun, or whose periods list their domains. -/
structure ListsDomains [Hashable σ] (P : Problem σ α ρ) (config : Config ρ) (b : Backward σ α ρ) :
    Prop where
  problem_eq : b.problem = P
  config_eq : b.config = config
  vacant : b.phase = .uninitialized → b.spaces = emptySpaces config
  length_eq : b.spaces.length = config.horizon + 1
  lists : b.phase ≠ .uninitialized → ListsFrom P 0 b.spaces

variable [Hashable σ] [Scalar ρ] {b : Backward σ α ρ}

omit [Scalar ρ] in
theorem ListsDomains.perform (lists : ListsDomains P config b) (act : LedgerM σ α ρ Tally Unit) :
    ListsDomains P config (b.perform act).2 :=
  ⟨lists.problem_eq, lists.config_eq, lists.vacant, lists.length_eq, lists.lists⟩

-- The sampled recursion goes through its periods once more than the other one, to no effect.
theorem ListsDomains.generateStates (lists : ListsDomains P config b)
    (closed : P.Closed config.horizon) (whole : P.KeptWhole config) :
    b.unsampled.generateStates = b.generateStates.unsampled ∧
      ListsDomains P config b.generateStates ∧ b.generateStates.phase ≠ .uninitialized := by
  obtain ⟨P, config, spaces, l, tally, phase⟩ := b
  obtain ⟨rfl, rfl, vacant, length, listed⟩ := lists
  dsimp only at *
  by_cases fresh : phase = .uninitialized
  · subst fresh
    obtain rfl := vacant rfl
    have found := listsFrom_materializeAll whole
    have count : (materializeAll P (emptySpaces config)).2.length = config.horizon + 1 := by
      rw [materializeAll_eq_map, List.length_map, length]
    have generated : Backward.generateStates ⟨P, config, emptySpaces config, l, tally,
        .uninitialized⟩ = ⟨P, config, (materializeAll P (emptySpaces config)).2, l,
          tally.addGenerated (materializeAll P (emptySpaces config)).1, .generated⟩ := by
      unfold Backward.generateStates
      simp only [if_true, coverAll_of_closed closed (Nat.le_of_eq count) found, ite_self,
        Nat.add_zero]
    refine ⟨?_, ?_, ?_⟩
    · rw [generated, Backward.generateStates]
      simp only [unsampled, if_true, ← emptySpaces_unsampled,
        materializeAll_emptySpaces_unsampled whole]
      rfl
    · rw [generated]
      exact ⟨rfl, rfl, by simp, count, fun _ => found⟩
    · simp [generated]
  · have same : Backward.generateStates ⟨P, config, spaces, l, tally, phase⟩ =
        ⟨P, config, spaces, l, tally, phase⟩ := if_neg fresh
    rw [same]
    exact ⟨if_neg fresh, ⟨rfl, rfl, vacant, length, listed⟩, fresh⟩

theorem ListsDomains.prepare (lists : ListsDomains P config b)
    (closed : P.Closed config.horizon) (whole : P.KeptWhole config) :
    b.unsampled.prepare = (b.prepare.1, b.prepare.2.unsampled) ∧
      ListsDomains P config b.prepare.2 ∧ b.prepare.2.phase ≠ .uninitialized := by
  obtain ⟨same, listed, begun⟩ := lists.generateStates closed whole
  unfold Backward.prepare
  by_cases fresh : b.phase = .uninitialized
  · rw [if_pos fresh, if_pos (show b.unsampled.phase = .uninitialized from fresh)]
    dsimp only
    rw [same]
    have seeds : seedTerminal b.generateStates.unsampled.problem b.generateStates.unsampled.spaces =
        seedTerminal b.generateStates.problem b.generateStates.spaces :=
      seedTerminal_unsampled _ _
    rw [seeds, perform_unsampled]
    exact ⟨rfl, listed.perform _, begun⟩
  · rw [if_neg fresh, if_neg (show ¬b.unsampled.phase = .uninitialized from fresh)]
    exact ⟨rfl, lists, fresh⟩

theorem ListsDomains.run (lists : ListsDomains P config b) (lawful : P.Lawful)
    (closed : P.Closed config.horizon) (whole : P.KeptWhole config) :
    b.unsampled.run = (b.run.1, b.run.2.unsampled) ∧ ListsDomains P config b.run.2 := by
  obtain ⟨prepared, listed, begun⟩ := lists.prepare closed whole
  have phase : b.unsampled.phase = b.phase := rfl
  unfold Backward.run Backward.runUntil
  rw [phase, prepared]
  split
  · exact ⟨rfl, lists⟩
  · generalize b.prepare = ready at listed begun
    obtain ⟨result, c⟩ := ready
    cases result with
    | error e => exact ⟨rfl, listed⟩
    | ok _ =>
      dsimp only at listed begun
      have solved : solveDown c.unsampled.problem c.unsampled.config (c.unsampled.spaces.drop 0) =
          solveDown c.problem c.config (c.spaces.drop 0) := by
        have short : 0 + c.spaces.length ≤ config.horizon + 1 := by
          rw [listed.length_eq, Nat.zero_add]
        have down := solveDown_unsampled lawful whole short (listed.lists begun)
        rwa [← listed.problem_eq, ← listed.config_eq] at down
      have last := listed.perform (solveDown c.problem c.config (c.spaces.drop 0))
      have kept : (c.perform (solveDown c.problem c.config (c.spaces.drop 0))).2.phase ≠
          .uninitialized := begun
      simp only [Bool.false_eq_true, if_false]
      rw [solved, perform_unsampled]
      generalize c.perform (solveDown c.problem c.config (c.spaces.drop 0)) = ran at last kept
      obtain ⟨outcome, d⟩ := ran
      cases outcome with
      | error e => exact ⟨rfl, last⟩
      | ok _ => exact ⟨rfl, last.problem_eq, last.config_eq, nofun, last.length_eq,
          fun _ => last.lists kept⟩

def Call.IsFull : Call → Prop
  | .runToPeriod _ => False
  | _ => True

theorem ListsDomains.answer (lists : ListsDomains P config b) (lawful : P.Lawful)
    (closed : P.Closed config.horizon) (whole : P.KeptWhole config) {c : Call} (full : c.IsFull) :
    b.unsampled.answer c = ((b.answer c).1, (b.answer c).2.unsampled) ∧
      ListsDomains P config (b.answer c).2 := by
  cases c with
  | generateStates =>
    obtain ⟨same, listed, -⟩ := lists.generateStates closed whole
    exact ⟨congrArg (Prod.mk _) same, listed⟩
  | run => exact lists.run lawful closed whole
  | runToPeriod target => exact full.elim

theorem ListsDomains.after (lists : ListsDomains P config b) (lawful : P.Lawful)
    (closed : P.Closed config.horizon) (whole : P.KeptWhole config) {calls : List Call}
    (full : ∀ c ∈ calls, c.IsFull) :
    b.unsampled.after calls = (b.after calls).unsampled ∧
      ListsDomains P config (b.after calls) := by
  induction calls generalizing b with
  | nil => exact ⟨rfl, lists⟩
  | cons c rest ih =>
    obtain ⟨same, listed⟩ := lists.answer lawful closed whole (full c List.mem_cons_self)
    have next : b.unsampled.call c = (b.call c).unsampled := congrArg Prod.snd same
    change (b.unsampled.call c).after rest = _ ∧ _
    rw [next]
    exact ih listed fun d member => full d (List.mem_cons_of_mem c member)

omit [Scalar ρ] in
theorem listsDomains_start [Hashable α] (P : Problem σ α ρ) (config : Config ρ) :
    ListsDomains P config (start P config) where
  problem_eq := rfl
  config_eq := rfl
  vacant _ := rfl
  length_eq := by simp [start, emptySpaces]
  lists begun := absurd rfl begun

omit [Scalar ρ] in
theorem start_unsampled [Hashable α] (P : Problem σ α ρ) (config : Config ρ) :
    start P config.unsampled = (start P config).unsampled := by
  unfold start
  rw [emptySpaces_unsampled]
  rfl

omit [Hashable σ] [Scalar ρ] in
theorem sameTables_unsampled (b : Backward σ α ρ) : b.SameTables b.unsampled where
  phase_eq := rfl
  statistics_eq := rfl
  table_eq t := by
    unfold valueFunction
    rw [unsampled, List.getElem?_map]
    cases b.spaces[t]? <;> rfl
  spaces t := by
    rw [unsampled, List.getElem?_map]
    cases b.spaces[t]? with
    | none => exact .none
    | some space => exact .some space.sameStates_unsampled
  ledger := ⟨fun _ => rfl, fun _ => rfl, fun _ _ => rfl, rfl, rfl⟩

end Calls

end Backward

section Forward

variable [DecidableEq σ] [DecidableEq α]

def Frontier.unsampled (f : Frontier σ) : Frontier σ :=
  ⟨f.spaces.map StateSpace.unsampled, f.tally⟩

theorem Frontier.enter_unsampled (f : Frontier σ) (t : Nat) (s : σ) :
    f.unsampled.enter t s = (f.enter t s).unsampled := by
  have spaces : (f.unsampled.enter t s).spaces = (f.enter t s).unsampled.spaces := by
    apply Array.ext_getElem?
    intro i
    rw [getElem?_enter, unsampled, unsampled, Array.getElem?_map, Array.getElem?_map,
      getElem?_enter]
    split
    · cases f.spaces[i]? with
      | none => rfl
      | some space => simp [mention_unsampled]
    · rfl
  have tally : (f.unsampled.enter t s).tally = (f.enter t s).unsampled.tally := by
    rw [tally_enter, unsampled, unsampled, Array.getElem?_map, tally_enter]
    cases f.spaces[t]? <;> rfl
  generalize f.unsampled.enter t s = entered at spaces tally ⊢
  obtain ⟨_, _⟩ := entered
  dsimp only at spaces tally
  rw [spaces, tally]

namespace Forward

variable [Scalar ρ] {P : Problem σ α ρ} {config : Config ρ}

-- By induction on the periods left: the outcomes that are asked for next are in the next domain.
theorem valueOf_unsampled (lawful : P.Lawful) (closed : P.Closed config.horizon)
    (whole : P.KeptWhole config) {left : Nat} (short : left ≤ config.horizon) {s : σ}
    (member : s ∈ P.domain (config.horizon - left)) :
    valueOf P config.unsampled left s = valueOf P config left s := by
  induction left generalizing s with
  | zero => rfl
  | succ left ih =>
    have inside : config.horizon - (left + 1) < config.horizon := by omega
    have evaluated : ∀ a ∈ P.actions s,
        expectedValue P (pure (P.outcomesKept config.unsampled.outcomeSampling config.unsampled.seed
          s a)) (valueOf P config.unsampled left) s a =
        expectedValue P (pure (P.outcomesKept config.outcomeSampling config.seed s a))
          (valueOf P config left) s a := by
      intro a feasible
      have all : config.outcomeSampling.KeepsAll (P.outcomes s a).length (P.period s) := by
        rw [lawful.period_domain _ s member]
        exact whole.outcomes _ inside s member a feasible
      rw [Problem.outcomesKept, Problem.outcomesKept, P.keepOutcomes_eq_pick,
        P.keepOutcomes_eq_pick, all.pick_eq]
      refine expectedValue_congr (fun f outcome => ih (by omega) ?_) s a
      have next := closed _ inside s member a feasible f outcome
      rwa [show config.horizon - (left + 1) + 1 = config.horizon - left by omega] at next
    unfold valueOf
    dsimp only
    rw [evaluateAll_congr evaluated]
    rfl

structure Unsampled (P : Problem σ α ρ) (config : Config ρ) (r r' : Forward σ α ρ) : Prop where
  problem_eq : r.problem = P
  problem_eq' : r'.problem = P
  config_eq : r.config = config
  config_eq' : r'.config = config.unsampled
  frontier_eq : r'.frontier = r.frontier.unsampled
  ledger : r.ledger.Alike r'.ledger

variable {r r' : Forward σ α ρ}

theorem Unsampled.run (both : Unsampled P config r r') (lawful : P.Lawful)
    (closed : P.Closed config.horizon) (whole : P.KeptWhole config) {s : σ} {t : Nat}
    (inside : t ≤ config.horizon) (member : s ∈ P.domain t) :
    (r.run s).1 = (r'.run s).1 ∧ Unsampled P config (r.run s).2 (r'.run s).2 := by
  obtain ⟨P, config, f, l⟩ := r
  obtain ⟨P', config', f', l'⟩ := r'
  obtain ⟨rfl, problem, rfl, configured, frontier, ledger⟩ := both
  dsimp only at *
  subst problem configured frontier
  have period := lawful.period_domain t s member
  have started : ¬config.horizon < P'.period s := by omega
  have same := valueOf_unsampled lawful closed whole (Nat.sub_le config.horizon (P'.period s))
    (by rwa [show config.horizon - (config.horizon - P'.period s) = t by omega] : s ∈ _)
  have agree : Agree (fun f f' => f' = f.unsampled)
      (valueOf P' config (config.horizon - P'.period s) s)
      (valueOf P' config.unsampled (config.horizon - P'.period s) s) := by
    rw [← same]
    exact agree_valueOf (fun t s f _ same => same ▸ f.enter_unsampled t s)
      (fun step f _ same => same ▸ rfl) (config.horizon - P'.period s) s
  obtain ⟨result, entered, known⟩ := agree (l, f) (l', f.unsampled) ⟨ledger, rfl⟩
  unfold Forward.run
  dsimp only
  rw [if_neg started, if_neg (show ¬config.unsampled.horizon < P'.period s from started)]
  exact ⟨result, rfl, rfl, rfl, rfl, known, entered⟩

theorem Unsampled.runAll (both : Unsampled P config r r') (lawful : P.Lawful)
    (closed : P.Closed config.horizon) (whole : P.KeptWhole config) {initials : List σ}
    (inside : ∀ s ∈ initials, ∃ t ≤ config.horizon, s ∈ P.domain t) :
    (r.runAll initials).1 = (r'.runAll initials).1 ∧
      Unsampled P config (r.runAll initials).2 (r'.runAll initials).2 := by
  induction initials generalizing r r' with
  | nil => exact ⟨rfl, both⟩
  | cons s rest ih =>
    obtain ⟨t, bound, member⟩ := inside s List.mem_cons_self
    obtain ⟨result, next⟩ := both.run lawful closed whole bound member
    obtain ⟨results, last⟩ := ih next fun s' later => inside s' (List.mem_cons_of_mem s later)
    exact ⟨congrArg₂ List.cons result results, last⟩

omit [Scalar ρ] in
theorem Unsampled.sameTables (both : Unsampled P config r r') : r.SameTables r' where
  statistics_eq := by
    rw [statistics, statistics, both.frontier_eq, both.ledger.evaluations_eq]
    rfl
  spaces t := by
    rw [both.frontier_eq, Frontier.unsampled, Array.getElem?_map]
    cases r.frontier.spaces[t]? with
    | none => exact .none
    | some space => exact .some space.sameStates_unsampled
  ledger := both.ledger.sameEntries

omit [Scalar ρ] in
theorem unsampled_start [Hashable σ] [Hashable α] (P : Problem σ α ρ) (config : Config ρ) :
    Unsampled P config (start P config) (start P config.unsampled) where
  problem_eq := rfl
  problem_eq' := rfl
  config_eq := rfl
  config_eq' := rfl
  frontier_eq := by
    unfold start Frontier.unsampled
    rw [Backward.emptySpaces_unsampled, List.map_toArray]
  ledger := .empty _ _ _ _ _ _ config.discount

end Forward

end Forward

theorem Config.validate_unsampled [Scalar ρ] {config : Config ρ}
    (valid : config.validate = .ok ()) : config.unsampled.validate = .ok () := by
  obtain ⟨horizon, discount, monitor, -, -, storage⟩ := validate_eq_ok_iff.1 valid
  exact validate_eq_ok_iff.2 ⟨horizon, discount, monitor, rfl, rfl, storage⟩

variable [DecidableEq σ] [DecidableEq α] [Hashable σ] [Hashable α] [Scalar ρ]

/-- Samples that are as large as the domains and the outcomes they are taken of change nothing, when
the domain is closed. However often the states are generated and the recursion is run over all its
periods, it answers as without samplings, and its phase, enumerations, decisions, expected values
and counts are the same. So do runs of the forward recursion from states of the domain. -/
theorem full_samples_change_nothing (P : Problem σ α ρ) (config : Config ρ) (lawful : P.Lawful)
    (closed : P.Closed config.horizon) (whole : P.KeptWhole config) :
    (∀ b : Backward σ α ρ, Backward.new P config = .ok b →
      ∃ b', Backward.new P config.unsampled = .ok b' ∧
        ∀ calls, (∀ c ∈ calls, c.IsFull) → (b.after calls).SameTables (b'.after calls) ∧
          ∀ c : Backward.Call, c.IsFull →
            ((b.after calls).answer c).1 = ((b'.after calls).answer c).1) ∧
      ∀ r : Forward σ α ρ, Forward.new P config = .ok r →
        ∃ r', Forward.new P config.unsampled = .ok r' ∧
          ∀ initials, (∀ s ∈ initials, ∃ t ≤ config.horizon, s ∈ P.domain t) →
            (r.runAll initials).1 = (r'.runAll initials).1 ∧
              (r.runAll initials).2.SameTables (r'.runAll initials).2 := by
  constructor
  · intro b new
    obtain ⟨valid, horizon, rfl⟩ := Backward.new_eq_ok_iff.1 new
    refine ⟨_, Backward.new_eq_ok_iff.2 ⟨Config.validate_unsampled valid, horizon, rfl⟩,
      fun calls full => ?_⟩
    have started := Backward.listsDomains_start P config
    obtain ⟨same, listed⟩ := started.after lawful closed whole full
    rw [Backward.start_unsampled, same]
    refine ⟨Backward.sameTables_unsampled _, fun c isFull => ?_⟩
    rw [(listed.answer lawful closed whole isFull).1]
  · intro r new
    obtain ⟨valid, horizon, rfl⟩ := Forward.new_eq_ok_iff.1 new
    refine ⟨_, Forward.new_eq_ok_iff.2 ⟨Config.validate_unsampled valid, horizon, rfl⟩,
      fun initials inside => ?_⟩
    obtain ⟨results, last⟩ :=
      (Forward.unsampled_start P config).runAll lawful closed whole inside
    exact ⟨results, last.sameTables⟩

-- Samples of two, of at most two nodes in a period and at most two branches of an action.
theorem full_samples_change_nothing_uneven :
    let P : Problem Node Int Float := Explicit.uneven.problem
    let config : Config Float :=
      { Config.exact 2 with stateSampling := .random 2, outcomeSampling := .midpoints 2 }
    P.KeptWhole config ∧ ∃ b b' : Backward Node Int Float,
      Backward.new P config = .ok b ∧ Backward.new P (.exact 2) = .ok b' ∧
      (b.after [.run]).ledger.isSolved ⟨0, 0⟩ = true ∧
      (b.after [.run]).SameTables (b'.after [.run]) := by
  intro P config
  have whole : P.KeptWhole config := ⟨by decide +kernel, by decide +kernel⟩
  obtain ⟨backward, -⟩ := full_samples_change_nothing P config Explicit.uneven.lawful
    Explicit.closed_uneven whole
  have valid : config.validate.toOption = some () := by decide +kernel
  have new : Backward.new P config = .ok (Backward.start P config) :=
    Backward.new_eq_ok_iff.2 ⟨eq_ok_of_toOption valid, rfl, rfl⟩
  obtain ⟨b', new', same⟩ := backward _ new
  have full : ∀ c ∈ [Backward.Call.run], c.IsFull := by simp [Backward.Call.IsFull]
  exact ⟨whole, _, b', new, new', by decide +kernel, (same [.run] full).1⟩

end Horizon
