import Horizon.Proofs.Computation
import Horizon.Proofs.Enumeration
import Horizon.Proofs.Stores

/-! What does not depend on where entries are stored.

Stores are `Alike` when their look-ups are, and so are the ledgers and the spaces that are made of
such stores. Two computations `Agree` when they give the same wherever they begin in ledgers that
are alike, and leave ledgers that are alike. This is closed under everything that recursions are
composed of.
-/

set_option autoImplicit false

namespace Horizon

namespace Store

variable {κ ν : Type} [DecidableEq κ]

def Alike (s s' : Store κ ν) : Prop :=
  ∀ key, s.get? key = s'.get? key

namespace Alike

variable {s s' : Store κ ν}

theorem ofConfig (storage storage' : StorageConfig) (hash hash' : κ → UInt64) :
    (Store.ofConfig storage hash : Store κ ν).Alike (.ofConfig storage' hash') := by
  intro key
  rw [get?_ofConfig, get?_ofConfig]

theorem insertNew (alike : s.Alike s') (key : κ) (value : ν) :
    (s.insertNew key value).Alike (s'.insertNew key value) := by
  intro key'
  rw [get?_insertNew, get?_insertNew, alike key, alike key']

theorem perm_toList (alike : s.Alike s') : s.toList.Perm s'.toList :=
  perm_of_lookup s'.distinct_keys fun key => (alike key).trans (s'.lookup_toList key).symm

theorem size_eq (alike : s.Alike s') : s.size = s'.size := by
  rw [size_eq_length_toList, size_eq_length_toList, alike.perm_toList.length_eq]

end Alike

end Store

variable {σ α ρ : Type} [DecidableEq σ]

structure StateSpace.Alike (space space' : StateSpace σ) : Prop where
  period_eq : space.period = space'.period
  sampling_eq : space.sampling = space'.sampling
  seed_eq : space.seed = space'.seed
  members : space.members.Alike space'.members
  enumerated_eq : space.enumerated = space'.enumerated

namespace StateSpace.Alike

variable {space space' : StateSpace σ} {P : Problem σ α ρ}

theorem empty (h h' : Hashable σ) (t : Nat) (storage storage' : StorageConfig)
    (sampling : Sampling) (seed : UInt64) :
    (@StateSpace.empty σ _ h t storage sampling seed).Alike
      (@StateSpace.empty σ _ h' t storage' sampling seed) :=
  ⟨rfl, rfl, rfl, .ofConfig storage storage' _ _, rfl⟩

theorem contains_eq (alike : space.Alike space') : space.contains = space'.contains := by
  funext s
  rw [contains, contains, Store.contains, Store.contains, alike.members s]

theorem size_eq (alike : space.Alike space') : space.size = space'.size :=
  alike.members.size_eq

theorem states_eq (alike : space.Alike space') :
    (space.states : Multiset σ) = (space'.states : Multiset σ) :=
  Multiset.coe_eq_coe.2 (alike.members.perm_toList.map Prod.fst)

theorem mention (alike : space.Alike space') (s : σ) :
    (space.mention s).2.Alike (space'.mention s).2 := by
  unfold StateSpace.mention
  rw [alike.contains_eq]
  split
  · exact alike
  · exact ⟨alike.period_eq, alike.sampling_eq, alike.seed_eq, alike.members.insertNew s (),
      alike.enumerated_eq⟩

theorem mentionAll (alike : space.Alike space') (fresh xs : List σ) :
    (space.mentionAll fresh xs).1 = (space'.mentionAll fresh xs).1 ∧
      (space.mentionAll fresh xs).2.Alike (space'.mentionAll fresh xs).2 := by
  induction xs generalizing space space' fresh with
  | nil => exact ⟨rfl, alike⟩
  | cons s rest ih =>
    rw [mentionAll_cons, mentionAll_cons, alike.contains_eq]
    exact ih (alike.mention s) _

theorem extend (alike : space.Alike space') (xs : List σ) :
    (space.extend xs).1 = (space'.extend xs).1 ∧
      (space.extend xs).2.Alike (space'.extend xs).2 := by
  obtain ⟨fresh, known⟩ := alike.mentionAll [] xs
  refine ⟨congrArg List.length fresh, known.period_eq, known.sampling_eq, known.seed_eq,
    known.members, ?_⟩
  rw [enumerated_extend, enumerated_extend, alike.enumerated_eq, alike.contains_eq]

theorem materialize (alike : space.Alike space') :
    (space.materialize P).1 = (space'.materialize P).1 ∧
      (space.materialize P).2.Alike (space'.materialize P).2 := by
  have same : space.sampledDomain P = space'.sampledDomain P := by
    rw [sampledDomain, sampledDomain, alike.period_eq, alike.sampling_eq, alike.seed_eq]
  rw [StateSpace.materialize, StateSpace.materialize, same]
  exact alike.extend _

end StateSpace.Alike

abbrev SpacesAlike (spaces spaces' : List (StateSpace σ)) : Prop :=
  List.Forall₂ StateSpace.Alike spaces spaces'

theorem spacesAlike_emptySpaces (h h' : Hashable σ) (config : Config ρ) (storage : StorageConfig) :
    SpacesAlike (@emptySpaces σ ρ _ h config)
      (@emptySpaces σ ρ _ h' { config with storage := storage }) := by
  unfold emptySpaces
  rw [SpacesAlike, List.forall₂_map_left_iff, List.forall₂_map_right_iff, List.forall₂_same]
  exact fun t _ => .empty h h' t _ _ _ _

theorem SpacesAlike.getElem? {spaces spaces' : List (StateSpace σ)}
    (alike : SpacesAlike spaces spaces') (t : Nat) :
    Option.Rel StateSpace.Alike spaces[t]? spaces'[t]? := by
  induction alike generalizing t with
  | nil => exact .none
  | cons first _ ih =>
    cases t with
    | zero => exact .some first
    | succ t => exact ih t

section Generation

variable {P : Problem σ α ρ} {spaces spaces' : List (StateSpace σ)}

theorem SpacesAlike.materializeAll (alike : SpacesAlike spaces spaces') :
    (Backward.materializeAll P spaces).1 = (Backward.materializeAll P spaces').1 ∧
      SpacesAlike (Backward.materializeAll P spaces).2 (Backward.materializeAll P spaces').2 := by
  induction alike with
  | nil => exact ⟨rfl, .nil⟩
  | cons first _ ih =>
    obtain ⟨count, space⟩ := first.materialize (P := P)
    exact ⟨congrArg₂ (· + ·) count ih.1, .cons space ih.2⟩

variable [Scalar ρ]

theorem uncovered_eq {current current' next next' : StateSpace σ} (alike : current.Alike current')
    (following : next.Alike next') :
    Backward.uncovered P current next = Backward.uncovered P current' next' := by
  unfold Backward.uncovered Backward.isCovered
  rw [alike.enumerated_eq, following.contains_eq]

theorem SpacesAlike.coverAfter {current current' : StateSpace σ} (first : current.Alike current')
    (alike : SpacesAlike spaces spaces') :
    (Backward.coverAfter P current spaces).1 = (Backward.coverAfter P current' spaces').1 ∧
      SpacesAlike (Backward.coverAfter P current spaces).2
        (Backward.coverAfter P current' spaces').2 := by
  induction alike generalizing current current' with
  | nil => exact ⟨rfl, .nil⟩
  | cons following _ ih =>
    have added := uncovered_eq (P := P) first following
    obtain ⟨count, next⟩ := following.extend (Backward.uncovered P current _)
    obtain ⟨counts, rest⟩ := ih next
    rw [Backward.coverAfter, Backward.coverAfter, ← added]
    exact ⟨congrArg₂ (· + ·) count counts, .cons next rest⟩

theorem SpacesAlike.coverAll (alike : SpacesAlike spaces spaces') :
    (Backward.coverAll P spaces).1 = (Backward.coverAll P spaces').1 ∧
      SpacesAlike (Backward.coverAll P spaces).2 (Backward.coverAll P spaces').2 := by
  cases alike with
  | nil => exact ⟨rfl, .nil⟩
  | cons first rest =>
    obtain ⟨count, others⟩ := SpacesAlike.coverAfter (P := P) first rest
    exact ⟨count, .cons first others⟩

end Generation

variable [DecidableEq α] {ω β γ : Type}

structure Ledger.Alike (l l' : Ledger σ α ρ) : Prop where
  expected : l.expected.Alike l'.expected
  decided : l.decided.Alike l'.decided
  discount_eq : l.discount = l'.discount
  evaluations_eq : l.evaluations = l'.evaluations
  transitions_eq : l.transitions = l'.transitions

namespace Ledger.Alike

variable {l l' : Ledger σ α ρ}

theorem empty (h h' : Hashable σ) (k k' : Hashable α) (storage storage' : StorageConfig)
    (discount : ρ) :
    (@Ledger.empty σ α ρ _ _ h k storage discount).Alike
      (@Ledger.empty σ α ρ _ _ h' k' storage' discount) :=
  ⟨.ofConfig storage storage' _ _, .ofConfig storage storage' _ _, rfl, rfl, rfl⟩

theorem expected?_eq (alike : l.Alike l') (s : σ) (a : α) : l.expected? s a = l'.expected? s a :=
  alike.expected (s, a)

theorem decision?_eq (alike : l.Alike l') (s : σ) : l.decision? s = l'.decision? s :=
  alike.decided s

theorem value_eq (alike : l.Alike l') (s : σ) : l.value s = l'.value s := by
  rw [value, value, alike.decision?_eq]

theorem action_eq (alike : l.Alike l') (s : σ) : l.action s = l'.action s := by
  rw [action, action, alike.decision?_eq]

theorem solvedCount_eq (alike : l.Alike l') : l.solvedCount = l'.solvedCount :=
  alike.decided.size_eq

theorem enterExpected (alike : l.Alike l') (s : σ) (a : α) (x : ρ) :
    (l.enterExpected s a x).1 = (l'.enterExpected s a x).1 ∧
      (l.enterExpected s a x).2.Alike (l'.enterExpected s a x).2 := by
  unfold Ledger.enterExpected
  rw [alike.expected?_eq]
  split
  · exact ⟨rfl, alike⟩
  · exact ⟨rfl, alike.expected.insertNew (s, a) x, alike.decided, alike.discount_eq,
      congrArg (· + 1) alike.evaluations_eq, alike.transitions_eq⟩

theorem publish (alike : l.Alike l') (s : σ) (d : Decision α ρ) :
    (l.publish s d).1 = (l'.publish s d).1 ∧ (l.publish s d).2.Alike (l'.publish s d).2 := by
  unfold Ledger.publish
  rw [alike.decision?_eq]
  split
  · exact ⟨rfl, alike⟩
  · exact ⟨rfl, alike.expected, alike.decided.insertNew s d, alike.discount_eq,
      alike.evaluations_eq, alike.transitions_eq⟩

theorem decide (alike : l.Alike l') (s : σ) (d : Decision α ρ) :
    (l.decide s d).1 = (l'.decide s d).1 ∧ (l.decide s d).2.Alike (l'.decide s d).2 := by
  obtain ⟨same, entered⟩ := alike.publish s d
  unfold Ledger.decide
  rcases published : l.publish s d with ⟨⟨stored, isNew⟩, next⟩
  rcases published' : l'.publish s d with ⟨⟨stored', isNew'⟩, next'⟩
  rw [published, published'] at same entered
  cases same
  cases isNew with
  | true => exact ⟨rfl, entered⟩
  | false => exact ⟨rfl, entered⟩

theorem collect (alike : l.Alike l') (s : σ) (a : α) (f : σ) :
    (l.collect s a f).Alike (l'.collect s a f) :=
  ⟨alike.expected, alike.decided, alike.discount_eq, alike.evaluations_eq,
    congrArg ((s, a, f) :: ·) alike.transitions_eq⟩

end Ledger.Alike

namespace LedgerM

def Matching (S : ω → ω → Prop) (w w' : Ledger σ α ρ × ω) : Prop :=
  w.1.Alike w'.1 ∧ S w.2 w'.2

/-- Two computations that give the same wherever ledgers and contexts match, and keep them so. -/
def Agree (S : ω → ω → Prop) (m m' : LedgerM σ α ρ ω β) : Prop :=
  ∀ w w', Matching S w w' → (m w).1 = (m' w').1 ∧ Matching S (m w).2 (m' w').2

section Agree

variable {S : ω → ω → Prop}

theorem agree_pure (x : β) : Agree (σ := σ) (α := α) (ρ := ρ) S (pure x) (pure x) :=
  fun _ _ same => ⟨rfl, same⟩

theorem agree_ofExcept (e : Except (SolveError σ α) β) :
    Agree (ρ := ρ) S (ofExcept e) (ofExcept e) :=
  fun _ _ same => ⟨rfl, same⟩

theorem agree_query {f : Ledger σ α ρ → Except (SolveError σ α) β}
    (answers : ∀ l l', l.Alike l' → f l = f l') : Agree S (query f) (query f) :=
  fun w w' same => ⟨answers w.1 w'.1 same.1, same⟩

theorem agree_onLedger {f : Ledger σ α ρ → β × Ledger σ α ρ}
    (kept : ∀ l l', l.Alike l' → (f l).1 = (f l').1 ∧ (f l).2.Alike (f l').2) :
    Agree S (onLedger f) (onLedger f) := by
  rintro ⟨l, c⟩ ⟨l', c'⟩ ⟨alike, matching⟩
  obtain ⟨same, next⟩ := kept l l' alike
  exact ⟨congrArg Except.ok same, next, matching⟩

theorem agree_onContext {f : ω → ω} (kept : ∀ c c', S c c' → S (f c) (f c')) :
    Agree (σ := σ) (α := α) (ρ := ρ) S (onContext f) (onContext f) :=
  fun w w' same => ⟨rfl, same.1, kept w.2 w'.2 same.2⟩

theorem agree_decide (s : σ) (d : Decision α ρ) : Agree S (LedgerM.decide s d) (.decide s d) := by
  rintro ⟨l, c⟩ ⟨l', c'⟩ ⟨alike, matching⟩
  obtain ⟨same, next⟩ := alike.decide s d
  exact ⟨same, next, matching⟩

theorem Agree.bind {m m' : LedgerM σ α ρ ω β} {f f' : β → LedgerM σ α ρ ω γ} (first : Agree S m m')
    (second : ∀ x, Agree S (f x) (f' x)) : Agree S (m >>= f) (m' >>= f') := by
  intro w w' matching
  obtain ⟨same, next⟩ := first w w' matching
  rcases ran : m w with ⟨result, v⟩
  rcases ran' : m' w' with ⟨result', v'⟩
  rw [ran, ran'] at same next
  obtain rfl : result = result' := same
  cases result with
  | error e =>
    rw [bind_of_error ran, bind_of_error ran']
    exact ⟨rfl, next⟩
  | ok x =>
    rw [bind_of_ok ran, bind_of_ok ran']
    exact second x v v' next

theorem agree_forEach {step step' : β → LedgerM σ α ρ ω Unit} (xs : List β)
    (each : ∀ x, Agree S (step x) (step' x)) : Agree S (forEach step xs) (forEach step' xs) := by
  induction xs with
  | nil => exact agree_pure ()
  | cons x rest ih => exact (each x).bind fun _ => ih

theorem agree_evaluateAll {evaluate evaluate' : α → LedgerM σ α ρ ω ρ} (as : List α)
    (each : ∀ a, Agree S (evaluate a) (evaluate' a)) :
    Agree S (evaluateAll evaluate as) (evaluateAll evaluate' as) := by
  induction as with
  | nil => exact agree_pure []
  | cons a rest ih => exact (each a).bind fun _ => ih.bind fun _ => agree_pure _

variable [Scalar ρ] {P : Problem σ α ρ} {successor successor' : σ → LedgerM σ α ρ ω ρ} {s : σ}
  {a : α}

theorem agree_addTerms (successors : ∀ f, Agree S (successor f) (successor' f)) (discount sum : ρ)
    (fs : List σ) (ws : List ρ) :
    Agree S (addTerms P successor discount s a sum fs ws)
      (addTerms P successor' discount s a sum fs ws) := by
  induction fs generalizing sum ws with
  | nil => exact agree_pure sum
  | cons f rest ih =>
    cases ws with
    | nil => exact agree_pure sum
    | cons w others =>
      have collected := agree_onLedger (S := S) (f := fun l : Ledger σ α ρ => ((), l.collect s a f))
        fun _ _ alike => ⟨rfl, alike.collect s a f⟩
      exact (successors f).bind fun _ => collected.bind fun _ => ih _ others

theorem agree_expectedValue (successors : ∀ f, Agree S (successor f) (successor' f))
    (finals : List σ) :
    Agree S (expectedValue P (pure finals) successor s a)
      (expectedValue P (pure finals) successor' s a) := by
  refine (agree_query fun _ _ alike => congrArg Except.ok (alike.expected?_eq s a)).bind ?_
  intro held
  cases held with
  | some x => exact agree_pure x
  | none =>
    refine (agree_pure finals).bind fun outcomes => (agree_ofExcept _).bind fun weights => ?_
    refine (agree_query fun _ _ alike => congrArg Except.ok alike.discount_eq).bind fun discount =>
      ?_
    refine (agree_addTerms successors discount 0 outcomes weights).bind fun x => ?_
    exact agree_onLedger fun _ _ alike => alike.enterExpected s a x

end Agree

end LedgerM

end Horizon
