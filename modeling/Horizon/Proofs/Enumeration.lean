import Horizon.Backward
import Horizon.Proofs.Lawful

/-! What the spaces of the periods hold before anything is decided.

Extending a space appends the states that were unknown, in the order of their first mention
(`enumerated_extend`). Starting from nothing, each period then lists exactly the states it knows,
without repeats and all of them in that period (`Orderly`); generating the states of a backward
recursion ends with such spaces, whatever was sampled and added.
-/

set_option autoImplicit false

namespace Horizon

variable {σ α ρ : Type} [DecidableEq σ]

def newOnes (known : σ → Bool) : List σ → List σ
  | [] => []
  | s :: rest =>
    if known s then newOnes known rest else s :: newOnes (fun s' => s == s' || known s') rest

-- The unknown elements of a list, each at its first occurrence.
theorem newOnes_eq_eraseDups (known : σ → Bool) (xs : List σ) :
    newOnes known xs = (xs.filter fun s => !known s).eraseDups := by
  induction xs generalizing known with
  | nil => rfl
  | cons s rest ih =>
    rw [newOnes]
    by_cases held : known s = true
    · rw [if_pos held, ih, List.filter_cons_of_neg (by simp [held])]
    · rw [if_neg held, ih, List.filter_cons_of_pos (by simp [held]), List.eraseDups_cons,
        List.filter_filter]
      simp only [Bool.not_or, Bool.beq_comm]

theorem mem_newOnes {known : σ → Bool} {xs : List σ} {s : σ} :
    s ∈ newOnes known xs ↔ s ∈ xs ∧ known s = false := by
  rw [newOnes_eq_eraseDups, List.mem_eraseDups, List.mem_filter, Bool.not_eq_true']

theorem nodup_newOnes (known : σ → Bool) (xs : List σ) : (newOnes known xs).Nodup := by
  induction xs generalizing known with
  | nil => exact .nil
  | cons x rest ih =>
    unfold newOnes
    split
    · exact ih known
    · refine List.nodup_cons.2 ⟨fun member => ?_, ih _⟩
      have unknown := (mem_newOnes.1 member).2
      simp at unknown

namespace StateSpace

variable {P : Problem σ α ρ}

def Framed (space space' : StateSpace σ) : Prop :=
  space'.period = space.period ∧ space'.sampling = space.sampling ∧ space'.seed = space.seed

theorem Framed.trans {space space' space'' : StateSpace σ} (first : Framed space space')
    (second : Framed space' space'') : Framed space space'' :=
  ⟨second.1.trans first.1, second.2.1.trans first.2.1, second.2.2.trans first.2.2⟩

theorem framed_mention (space : StateSpace σ) (s : σ) : Framed space (space.mention s).2 := by
  unfold mention
  split <;> exact ⟨rfl, rfl, rfl⟩

theorem mentionAll_cons (space : StateSpace σ) (fresh : List σ) (s : σ) (rest : List σ) :
    space.mentionAll fresh (s :: rest) =
      (space.mention s).2.mentionAll (if space.contains s then fresh else s :: fresh) rest := by
  rw [mentionAll]
  have isNew := space.fst_mention s
  split
  · next space' mentioned =>
    rw [mentioned] at isNew
    rw [mentioned, if_neg (by simpa using isNew.symm)]
  · next space' mentioned =>
    rw [mentioned] at isNew
    rw [mentioned, if_pos (by simpa using isNew.symm)]

theorem fst_mentionAll (space : StateSpace σ) (fresh xs : List σ) :
    (space.mentionAll fresh xs).1 = (newOnes space.contains xs).reverse ++ fresh := by
  induction xs generalizing space fresh with
  | nil => rfl
  | cons s rest ih =>
    rw [mentionAll_cons, ih, newOnes]
    by_cases held : space.contains s = true
    · have same : (space.mention s).2.contains = space.contains := by
        funext s'
        rw [contains_mention]
        by_cases equal : s = s'
        · subst equal
          simp [held]
        · simp [equal]
      rw [if_pos held, if_pos held, same]
    · have grown : (space.mention s).2.contains = fun s' => s == s' || space.contains s' := by
        funext s'
        exact contains_mention space s s'
      rw [if_neg held, if_neg held, grown, List.reverse_cons, List.append_assoc,
        List.singleton_append]

theorem enumerated_mentionAll (space : StateSpace σ) (fresh xs : List σ) :
    (space.mentionAll fresh xs).2.enumerated = space.enumerated := by
  induction xs generalizing space fresh with
  | nil => rfl
  | cons s rest ih => rw [mentionAll_cons, ih, enumerated_mention]

theorem contains_mentionAll (space : StateSpace σ) (fresh xs : List σ) (s : σ) :
    (space.mentionAll fresh xs).2.contains s = (space.contains s || decide (s ∈ xs)) := by
  induction xs generalizing space fresh with
  | nil => simp [mentionAll]
  | cons x rest ih =>
    rw [mentionAll_cons, ih, contains_mention]
    by_cases same : x = s
    · simp [same]
    · have other : (x == s) = false := by simpa using same
      simp [other, Ne.symm same]

theorem framed_mentionAll (space : StateSpace σ) (fresh xs : List σ) :
    Framed space (space.mentionAll fresh xs).2 := by
  induction xs generalizing space fresh with
  | nil => exact ⟨rfl, rfl, rfl⟩
  | cons s rest ih =>
    rw [mentionAll_cons]
    exact (space.framed_mention s).trans (ih (space.mention s).2 _)

theorem fst_extend (space : StateSpace σ) (xs : List σ) :
    (space.extend xs).1 = (newOnes space.contains xs).length := by
  simp [extend, fst_mentionAll]

-- The new states are appended in the order of their first mention.
theorem enumerated_extend (space : StateSpace σ) (xs : List σ) :
    (space.extend xs).2.enumerated = space.enumerated ++ newOnes space.contains xs := by
  simp only [extend, fst_mentionAll, enumerated_mentionAll, List.append_nil, List.reverse_reverse]

theorem extend_of_known {space : StateSpace σ} {xs : List σ}
    (known : ∀ s ∈ xs, space.contains s = true) : space.extend xs = (0, space) := by
  have mentioned : space.mentionAll [] xs = ([], space) := by
    induction xs with
    | nil => rfl
    | cons s rest ih =>
      have first := known s List.mem_cons_self
      rw [mentionAll_cons, mention_of_contains first, if_pos first]
      exact ih fun f member => known f (List.mem_cons_of_mem s member)
  rw [extend, mentioned]
  simp

theorem contains_extend (space : StateSpace σ) (xs : List σ) (s : σ) :
    (space.extend xs).2.contains s = (space.contains s || decide (s ∈ xs)) :=
  contains_mentionAll space [] xs s

theorem framed_extend (space : StateSpace σ) (xs : List σ) :
    Framed space (space.extend xs).2 :=
  framed_mentionAll space [] xs

/-- A space of a period that lists exactly the states it knows, once each, all of them in the
period. -/
structure Orderly (P : Problem σ α ρ) (t : Nat) (space : StateSpace σ) : Prop where
  period_eq : space.period = t
  known : ∀ s, space.contains s = true ↔ s ∈ space.enumerated
  distinct : space.enumerated.Nodup
  inPeriod : ∀ s ∈ space.enumerated, P.period s = t

theorem orderly_empty [Hashable σ] (t : Nat) (storage : StorageConfig) (sampling : Sampling)
    (seed : UInt64) : Orderly P t (.empty t storage sampling seed : StateSpace σ) where
  period_eq := rfl
  known s := by simp [empty, contains, Store.contains]
  distinct := .nil
  inPeriod s member := absurd member List.not_mem_nil

theorem Orderly.extend {t : Nat} {space : StateSpace σ} (orderly : Orderly P t space)
    {xs : List σ} (inPeriod : ∀ s ∈ xs, P.period s = t) :
    Orderly P t (space.extend xs).2 where
  period_eq := (framed_extend space xs).1.trans orderly.period_eq
  known s := by
    rw [contains_extend, enumerated_extend, List.mem_append, mem_newOnes, ← orderly.known]
    cases space.contains s <;> simp
  distinct := by
    rw [enumerated_extend, List.nodup_append]
    refine ⟨orderly.distinct, nodup_newOnes _ _, fun s listed s' member same => ?_⟩
    have unknown := (mem_newOnes.1 member).2
    rw [← same, (orderly.known s).2 listed] at unknown
    cases unknown
  inPeriod s member := by
    rw [enumerated_extend, List.mem_append, mem_newOnes] at member
    rcases member with listed | ⟨member, -⟩
    · exact orderly.inPeriod s listed
    · exact inPeriod s member

theorem mem_domain_of_mem_sampledDomain {space : StateSpace σ} {s : σ}
    (member : s ∈ space.sampledDomain P) : s ∈ P.domain space.period := by
  unfold sampledDomain at member
  split at member
  · exact member
  · exact Sampling.mem_of_mem_pick member

theorem Orderly.materialize {t : Nat} {space : StateSpace σ} (lawful : P.Lawful)
    (orderly : Orderly P t space) : Orderly P t (space.materialize P).2 := by
  apply orderly.extend
  intro s member
  rw [← orderly.period_eq]
  exact lawful.period_domain _ s (mem_domain_of_mem_sampledDomain member)

end StateSpace

open StateSpace

def Laid (P : Problem σ α ρ) : Nat → List (StateSpace σ) → Prop
  | _, [] => True
  | t, space :: rest => Orderly P t space ∧ Laid P (t + 1) rest

theorem Laid.orderly {P : Problem σ α ρ} {t i : Nat} {spaces : List (StateSpace σ)}
    {space : StateSpace σ} (laid : Laid P t spaces) (found : spaces[i]? = some space) :
    Orderly P (t + i) space := by
  induction spaces generalizing t i with
  | nil => cases found
  | cons first rest ih =>
    cases i with
    | zero =>
      cases found
      exact laid.1
    | succ i =>
      have there := ih laid.2 found
      rwa [Nat.add_right_comm] at there

theorem Laid.drop {P : Problem σ α ρ} {t : Nat} {spaces : List (StateSpace σ)}
    (laid : Laid P t spaces) (n : Nat) : Laid P (t + n) (spaces.drop n) := by
  induction n generalizing t spaces with
  | zero => exact laid
  | succ n ih =>
    cases spaces with
    | nil => trivial
    | cons first rest =>
      have later := ih laid.2
      rwa [Nat.add_right_comm] at later

theorem laid_emptySpaces [Hashable σ] (P : Problem σ α ρ) (config : Config ρ) :
    Laid P 0 (emptySpaces config) := by
  have consecutive : ∀ n t, Laid P t ((List.range' t n).map fun t =>
      (.empty t config.storage config.stateSampling config.seed : StateSpace σ)) := by
    intro n
    induction n with
    | zero => exact fun _ => trivial
    | succ n ih =>
      intro t
      rw [List.range'_succ, List.map_cons]
      exact ⟨orderly_empty t _ _ _, ih (t + 1)⟩
  rw [emptySpaces, List.range_eq_range']
  exact consecutive _ 0

namespace Backward

variable {P : Problem σ α ρ}

theorem materializeAll_eq_map (P : Problem σ α ρ) (spaces : List (StateSpace σ)) :
    (materializeAll P spaces).2 = spaces.map fun space => (space.materialize P).2 := by
  induction spaces with
  | nil => rfl
  | cons space rest ih =>
    rw [List.map_cons, ← ih]
    rfl

theorem laid_materializeAll (lawful : P.Lawful) {t : Nat} {spaces : List (StateSpace σ)}
    (laid : Laid P t spaces) : Laid P t (materializeAll P spaces).2 := by
  induction spaces generalizing t with
  | nil => trivial
  | cons space rest ih => exact ⟨laid.1.materialize lawful, ih laid.2⟩

variable [Scalar ρ]

theorem period_of_mem_uncovered (lawful : P.Lawful) {t : Nat} {current next : StateSpace σ}
    (inPeriod : ∀ s ∈ current.enumerated, P.period s = t) {f : σ}
    (member : f ∈ uncovered P current next) : P.period f = t + 1 := by
  obtain ⟨s, listed, member⟩ := List.mem_flatMap.1 member
  obtain ⟨a, -, member⟩ := List.mem_flatMap.1 member
  rw [← inPeriod s listed]
  split at member
  · exact absurd member List.not_mem_nil
  · exact lawful.period_outcomes s a f member

theorem laid_coverAfter (lawful : P.Lawful) {t : Nat} {current : StateSpace σ}
    {spaces : List (StateSpace σ)} (orderly : Orderly P t current) (laid : Laid P (t + 1) spaces) :
    Laid P (t + 1) (coverAfter P current spaces).2 := by
  induction spaces generalizing t current with
  | nil => trivial
  | cons next rest ih =>
    -- what is added to `next` is covered in turn, so `next` goes on in its extended form
    have covered : Orderly P (t + 1) (next.extend (uncovered P current next)).2 :=
      laid.1.extend fun f member => period_of_mem_uncovered lawful orderly.inPeriod member
    exact ⟨covered, ih covered laid.2⟩

theorem laid_coverAll (lawful : P.Lawful) {t : Nat} {spaces : List (StateSpace σ)}
    (laid : Laid P t spaces) : Laid P t (coverAll P spaces).2 := by
  cases spaces with
  | nil => trivial
  | cons first rest => exact ⟨laid.1, laid_coverAfter lawful laid.1 laid.2⟩

theorem length_coverAfter (P : Problem σ α ρ) (current : StateSpace σ)
    (spaces : List (StateSpace σ)) : (coverAfter P current spaces).2.length = spaces.length := by
  induction spaces generalizing current with
  | nil => rfl
  | cons next rest ih => exact congrArg (· + 1) (ih _)

theorem length_coverAll (P : Problem σ α ρ) (spaces : List (StateSpace σ)) :
    (coverAll P spaces).2.length = spaces.length := by
  cases spaces with
  | nil => rfl
  | cons first rest => exact congrArg (· + 1) (length_coverAfter P first rest)

def generatedSpaces [Hashable σ] (P : Problem σ α ρ) (config : Config ρ) : List (StateSpace σ) :=
  let spaces := (materializeAll P (emptySpaces config)).2
  if config.stateSampling.isExhaustive then spaces else (coverAll P spaces).2

theorem laid_generatedSpaces [Hashable σ] (lawful : P.Lawful) (config : Config ρ) :
    Laid P 0 (generatedSpaces P config) := by
  have laid := laid_materializeAll lawful (laid_emptySpaces P config)
  unfold generatedSpaces
  split
  · exact laid
  · exact laid_coverAll lawful laid

theorem length_generatedSpaces [Hashable σ] (P : Problem σ α ρ) (config : Config ρ) :
    (generatedSpaces P config).length = config.horizon + 1 := by
  have length : (materializeAll P (emptySpaces config)).2.length = config.horizon + 1 := by
    rw [materializeAll_eq_map, List.length_map, emptySpaces, List.length_map, List.length_range]
  unfold generatedSpaces
  split
  · exact length
  · rw [length_coverAll, length]

theorem mem_enumerated_iff_of_exhaustive [Hashable σ] {config : Config ρ}
    (exhaustive : config.stateSampling.isExhaustive = true) {t : Nat} {space : StateSpace σ}
    (found : (generatedSpaces P config)[t]? = some space) {s : σ} :
    s ∈ space.enumerated ↔ s ∈ P.domain t := by
  rw [generatedSpaces, if_pos exhaustive, materializeAll_eq_map, emptySpaces, List.map_map,
    List.getElem?_map] at found
  obtain ⟨i, inside, rfl⟩ := Option.map_eq_some_iff.1 found
  obtain ⟨-, rfl⟩ := List.getElem?_eq_some_iff.1 inside
  rw [List.getElem_range, Function.comp, materialize, enumerated_extend, List.mem_append,
    mem_newOnes, sampledDomain]
  simp [StateSpace.empty, exhaustive, contains, Store.contains]

end Backward

end Horizon
