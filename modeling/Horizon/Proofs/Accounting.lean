import Horizon.Proofs.Exploration
import Horizon.Proofs.Sequence
import Horizon.Proofs.Statistics

/-! Every pair is worked out once.

The collected transitions are those of the pairs that have been entered, and of the pairs that are
being worked out (`Booked`). A pair is entered once its outcomes have been gone through, so nothing
is left over when a computation succeeds. Forward, a value that is asked for makes a state known
that was unknown, or it is looked up; apart from the calls themselves, values are asked for once for
every transition (`Balanced`).
-/

set_option autoImplicit false

namespace Horizon

open LedgerM

variable {σ α ρ : Type} [DecidableEq σ] [DecidableEq α]

def transitionsOf (outcomes : σ → α → List σ) (pair : σ × α) : List (σ × α × σ) :=
  (outcomes pair.1 pair.2).map fun f => (pair.1, pair.2, f)

namespace Ledger

/-- What has been collected are the transitions of the pairs that have been entered, and `extra`
ones. -/
def Booked (outcomes : σ → α → List σ) (extra : List (σ × α × σ)) (l : Ledger σ α ρ) : Prop :=
  l.transitions.Perm (l.expected.keys.flatMap (transitionsOf outcomes) ++ extra)

variable {outcomes : σ → α → List σ} {extra extra' : List (σ × α × σ)} {l : Ledger σ α ρ} {s : σ}
  {a : α}

theorem Booked.perm (booked : l.Booked outcomes extra) (same : extra.Perm extra') :
    l.Booked outcomes extra' :=
  List.Perm.trans booked (same.append_left _)

theorem Booked.collect (booked : l.Booked outcomes extra) (s : σ) (a : α) (f : σ) :
    (l.collect s a f).Booked outcomes ((s, a, f) :: extra) :=
  (List.Perm.cons _ booked).trans List.perm_middle.symm

theorem Booked.publish (booked : l.Booked outcomes extra) (s : σ) (d : Decision α ρ) :
    (l.publish s d).2.Booked outcomes extra := by
  unfold Ledger.publish
  split <;> exact booked

-- The transitions of a pair that is entered are no longer extra.
theorem Booked.enterExpected
    (booked : l.Booked outcomes (transitionsOf outcomes (s, a) ++ extra))
    (vacant : l.expected? s a = none) (x : ρ) :
    (l.enterExpected s a x).2.Booked outcomes extra := by
  have absent : l.expected.contains (s, a) = false := congrArg Option.isSome vacant
  have keys := (Store.perm_keys_insertNew absent x).flatMap_right (transitionsOf outcomes)
  rw [List.flatMap_cons] at keys
  rw [Ledger.enterExpected, vacant]
  refine List.Perm.trans booked (.trans ?_ (keys.symm.append_right extra))
  rw [List.append_assoc, ← List.append_assoc, ← List.append_assoc]
  exact List.perm_append_comm.append_right extra

theorem transitions_enterExpected (l : Ledger σ α ρ) (s : σ) (a : α) (x : ρ) :
    (l.enterExpected s a x).2.transitions = l.transitions := by
  unfold enterExpected
  split <;> rfl

theorem transitions_publish (l : Ledger σ α ρ) (s : σ) (d : Decision α ρ) :
    (l.publish s d).2.transitions = l.transitions := by
  unfold publish
  split <;> rfl

theorem booked_empty [Hashable σ] [Hashable α] (storage : StorageConfig) (discount : ρ) :
    (empty storage discount : Ledger σ α ρ).Booked outcomes [] := by
  rw [Booked, empty, Store.keys_ofConfig]
  exact .nil

theorem mem_expected_keys {pair : σ × α} :
    pair ∈ l.expected.keys ↔ (l.expected? pair.1 pair.2).isSome = true :=
  l.expected.mem_keys pair

theorem count_transitionsOf (outcomes : σ → α → List σ) (pair : σ × α) (s : σ) (a : α) (f : σ) :
    (transitionsOf outcomes pair).count (s, a, f) =
      if pair = (s, a) then (outcomes s a).count f else 0 := by
  split
  · next same =>
    subst same
    refine List.count_map_of_injective _ (fun f => (s, a, f)) (fun f f' same => ?_) f
    cases same
    rfl
  · next other =>
    refine List.count_eq_zero_of_not_mem fun listed => other ?_
    obtain ⟨f', -, same⟩ := List.mem_map.1 listed
    cases same
    rfl

theorem Booked.count_eq (booked : l.Booked outcomes []) (s : σ) (a : α) (f : σ) :
    l.transitions.count (s, a, f) =
      if (l.expected? s a).isSome = true then (outcomes s a).count f else 0 := by
  have distinct := l.expected.distinct_keys
  rw [List.Perm.count_eq booked, List.append_nil, List.count_flatMap,
    ← List.sum_toFinset _ distinct]
  simp only [Function.comp_apply, count_transitionsOf, Finset.sum_ite_eq', List.mem_toFinset,
    mem_expected_keys]

section Sums

variable {states : Finset σ} {feasible : σ → Finset α}
  (entered : ∀ s a, (l.expected? s a).isSome = true ↔ s ∈ states ∧ a ∈ feasible s)

include entered

theorem sum_expected_keys (count : σ × α → Nat) :
    (l.expected.keys.map count).sum = ∑ s ∈ states, ∑ a ∈ feasible s, count (s, a) := by
  rw [← List.sum_toFinset _ l.expected.distinct_keys]
  refine Finset.sum_finset_product _ states feasible fun pair => ?_
  rw [List.mem_toFinset, mem_expected_keys, entered]

theorem Booked.length_eq (booked : l.Booked outcomes []) :
    l.transitions.length = ∑ s ∈ states, ∑ a ∈ feasible s, (outcomes s a).length := by
  rw [List.Perm.length_eq booked, List.append_nil, List.length_flatMap, sum_expected_keys entered]
  simp only [transitionsOf, List.length_map]

theorem size_expected_eq : l.expected.size = ∑ s ∈ states, (feasible s).card := by
  have ones := sum_expected_keys entered fun _ => 1
  rw [List.map_const', List.sum_replicate_nat, Nat.mul_one] at ones
  simp only [Finset.card_eq_sum_ones]
  rw [Store.size_eq_length_keys, ones]

end Sums

/-- The pairs of `states` have been worked out once, and no others: each of their transitions has
been collected as often as its outcome is kept, and asking for their values again changes
nothing. -/
structure WorkedOnce [Scalar ρ] (P : Problem σ α ρ) (outcomes : σ → α → List σ) (states : Finset σ)
    (l : Ledger σ α ρ) : Prop where
  evaluations : l.evaluations = ∑ s ∈ states, (P.actions s).toFinset.card
  transitions : ∀ s a f, l.transitions.count (s, a, f) =
    if s ∈ states ∧ a ∈ P.actions s then (outcomes s a).count f else 0
  again : ∀ s ∈ states, ∀ a ∈ P.actions s, ∀ {ω : Type} (finals : LedgerM σ α ρ ω (List σ))
    (successor : σ → LedgerM σ α ρ ω ρ) (c : ω),
    (expectedValue P finals successor s a (l, c)).2 = (l, c)

theorem Booked.workedOnce [Scalar ρ] {P : Problem σ α ρ} {states : Finset σ}
    (booked : l.Booked outcomes []) (counted : l.Counted)
    (entered : ∀ s a, (l.expected? s a).isSome = true ↔ s ∈ states ∧ a ∈ P.actions s) :
    l.WorkedOnce P outcomes states where
  evaluations := by
    refine counted.trans (size_expected_eq fun s a => ?_)
    rw [entered, List.mem_toFinset]
  transitions s a f := by
    rw [booked.count_eq]
    exact if_congr (entered s a) rfl rfl
  again s member a feasible _ finals successor c := by
    obtain ⟨x, stored⟩ := Option.isSome_iff_exists.1 ((entered s a).2 ⟨member, feasible⟩)
    rw [expectedValue_of_stored stored]

def statesBelow (l : Ledger σ α ρ) (P : Problem σ α ρ) (horizon : Nat) : Finset σ :=
  (l.decided.keys.filter (P.isBelow horizon)).toFinset

theorem mem_statesBelow {P : Problem σ α ρ} {horizon : Nat} :
    s ∈ l.statesBelow P horizon ↔ P.period s < horizon ∧ l.isSolved s = true := by
  rw [statesBelow, List.mem_toFinset, List.mem_filter, Store.mem_keys, Problem.isBelow,
    decide_eq_true_eq]
  exact And.comm

end Ledger

namespace Forward

variable {P : Problem σ α ρ} {config : Config ρ} {extra : List (σ × α × σ)} {count : Nat}

structure Above (P : Problem σ α ρ) (t : Nat) (w w' : Ledger σ α ρ × Frontier σ) : Prop where
  entries : w.1.Extends w'.1
  expected : ∀ s a, P.period s < t → w'.1.expected? s a = w.1.expected? s a
  known : ∀ u s, u < t → w'.2.contains u s = w.2.contains u s

instance (t : Nat) : IsPreorder (Ledger σ α ρ × Frontier σ) (Above P t) where
  refl w := ⟨.refl w.1, fun _ _ _ => rfl, fun _ _ _ => rfl⟩
  trans _ _ _ first second := ⟨first.entries.trans second.entries,
    fun s a early => (second.expected s a early).trans (first.expected s a early),
    fun u s early => (second.known u s early).trans (first.known u s early)⟩

theorem Above.of_le {t u : Nat} (le : t ≤ u) {w w' : Ledger σ α ρ × Frontier σ}
    (above : Above P u w w') : Above P t w w' :=
  ⟨above.entries, fun s a early => above.expected s a (Nat.lt_of_lt_of_le early le),
    fun v s early => above.known v s (Nat.lt_of_lt_of_le early le)⟩

/-- Values have been asked for `count` times besides once for every collected transition, and each
time a state became known or its decision was looked up. -/
structure Balanced (P : Problem σ α ρ) (config : Config ρ) (extra : List (σ × α × σ)) (count : Nat)
    (w : Ledger σ α ρ × Frontier σ) : Prop where
  wide : w.2.spaces.size = config.horizon + 1
  booked : w.1.Booked (kept P config) extra
  balance : w.2.tally.generated + w.2.tally.reused = w.1.transitions.length + count

def Clear (t : Nat) (w : Ledger σ α ρ × Frontier σ) : Prop :=
  ∀ u s, t ≤ u → w.2.contains u s = true → w.1.isSolved s = true

structure Idle (P : Problem σ α ρ) (config : Config ρ) (t : Nat) (extra : List (σ × α × σ))
    (count : Nat) (w : Ledger σ α ρ × Frontier σ) : Prop where
  balanced : Balanced P config extra count w
  clear : Clear t w

/-- From the period of `s` on, `s` alone is being worked on. -/
structure Working (P : Problem σ α ρ) (config : Config ρ) (s : σ) (extra : List (σ × α × σ))
    (count : Nat) (w : Ledger σ α ρ × Frontier σ) : Prop where
  balanced : Balanced P config extra count w
  clear : Clear (P.period s + 1) w
  others : ∀ s', w.2.contains (P.period s) s' = true → w.1.isSolved s' = true ∨ s' = s

theorem Balanced.reuse {l : Ledger σ α ρ} {f : Frontier σ}
    (balanced : Balanced P config extra count (l, f)) :
    Balanced P config extra (count + 1) (l, f.count Tally.addReused) :=
  ⟨balanced.wide, balanced.booked, by
    have before : f.tally.generated + f.tally.reused = l.transitions.length + count :=
      balanced.balance
    change f.tally.generated + (f.tally.reused + 1) = l.transitions.length + (count + 1)
    omega⟩

theorem Balanced.enter {l : Ledger σ α ρ} {f : Frontier σ} {t : Nat} {s : σ}
    (balanced : Balanced P config extra count (l, f)) (inside : t ≤ config.horizon)
    (unknown : f.contains t s = false) :
    Balanced P config extra (count + 1) (l, f.enter t s) := by
  have wide : f.spaces.size = config.horizon + 1 := balanced.wide
  have before : f.tally.generated + f.tally.reused = l.transitions.length + count :=
    balanced.balance
  have placed : t < f.spaces.size := by omega
  refine ⟨(f.size_spaces_enter t s).trans wide, balanced.booked, ?_⟩
  rw [Frontier.generated_enter placed, Frontier.reused_enter, unknown]
  dsimp only
  rw [if_neg Bool.false_ne_true]
  omega

theorem Balanced.collect {w : Ledger σ α ρ × Frontier σ}
    (balanced : Balanced P config extra (count + 1) w) (s : σ) (a : α) (o : σ) :
    Balanced P config ((s, a, o) :: extra) count (collected s a o w) := by
  refine ⟨balanced.wide, balanced.booked.collect s a o, ?_⟩
  have before := balanced.balance
  change w.2.tally.generated + w.2.tally.reused = w.1.transitions.length + 1 + count
  omega

theorem Balanced.perm {w : Ledger σ α ρ × Frontier σ} {extra' : List (σ × α × σ)}
    (balanced : Balanced P config extra count w) (same : extra.Perm extra') :
    Balanced P config extra' count w :=
  ⟨balanced.wide, balanced.booked.perm same, balanced.balance⟩

theorem Balanced.enterExpected {l : Ledger σ α ρ} {f : Frontier σ} {s : σ} {a : α}
    (balanced : Balanced P config (transitionsOf (kept P config) (s, a) ++ extra) count (l, f))
    (vacant : l.expected? s a = none) (x : ρ) :
    Balanced P config extra count ((l.enterExpected s a x).2, f) := by
  refine ⟨balanced.wide, balanced.booked.enterExpected vacant x, ?_⟩
  rw [Ledger.transitions_enterExpected]
  exact balanced.balance

theorem Balanced.publish {l : Ledger σ α ρ} {f : Frontier σ}
    (balanced : Balanced P config extra count (l, f)) (s : σ) (d : Decision α ρ) :
    Balanced P config extra count ((l.publish s d).2, f) := by
  refine ⟨balanced.wide, balanced.booked.publish s d, ?_⟩
  rw [Ledger.transitions_publish]
  exact balanced.balance

theorem Working.enterExpected {l : Ledger σ α ρ} {f : Frontier σ} {s : σ} {a : α} (x : ρ)
    (working : Working P config s (transitionsOf (kept P config) (s, a) ++ extra) count (l, f))
    (vacant : l.expected? s a = none) :
    Working P config s extra count ((l.enterExpected s a x).2, f) := by
  have entries := l.extends_enterExpected s a x
  refine ⟨working.balanced.enterExpected vacant x, fun u s' late known => ?_, fun s' known => ?_⟩
  · exact entries.isSolved (working.clear u s' late known)
  · exact (working.others s' known).imp_left entries.isSolved

theorem above_enterExpected (l : Ledger σ α ρ) (f : Frontier σ) (s : σ) (a : α) (x : ρ) :
    Above P (P.period s) (l, f) ((l.enterExpected s a x).2, f) := by
  refine ⟨l.extends_enterExpected s a x, fun s' a' early => ?_, fun _ _ _ => rfl⟩
  rw [Ledger.expected?_enterExpected, if_neg]
  rintro ⟨⟩
  exact absurd early (Nat.lt_irrefl _)

theorem above_publish (l : Ledger σ α ρ) (f g : Frontier σ) (same : g.contains = f.contains)
    (s : σ) (d : Decision α ρ) (t : Nat) : Above P t (l, f) ((l.publish s d).2, g) :=
  ⟨l.extends_publish s d, fun s' a _ => l.expected?_publish s s' a d,
    fun u s' _ => congrFun (congrFun same u) s'⟩

theorem Working.publish {l : Ledger σ α ρ} {f g : Frontier σ} {s : σ} (d : Decision α ρ)
    (working : Working P config s extra count (l, f))
    (same : g.contains = f.contains)
    (balanced : Balanced P config extra count ((l.publish s d).2, g)) :
    Idle P config (P.period s) extra count ((l.publish s d).2, g) := by
  refine ⟨balanced, fun u s' late known => ?_⟩
  have entries := l.extends_publish s d
  dsimp only at known ⊢
  rw [same] at known
  rcases Nat.eq_or_lt_of_le late with rfl | later
  · rcases working.others s' known with solved | rfl
    · exact entries.isSolved solved
    · exact l.isSolved_publish s' d
  · exact entries.isSolved (working.clear u s' later known)

theorem balanced_decidedOr {t : Nat} {s : σ} {solve : LedgerM σ α ρ (Frontier σ) ρ}
    (vacant : Fulfils (Above P t)
      (fun w => Idle P config t extra count w ∧ w.1.decision? s = none) solve
      fun _ => Idle P config t extra (count + 1)) :
    Fulfils (Above P t) (Idle P config t extra count) (decidedOr s solve)
      fun _ => Idle P config t extra (count + 1) := by
  rintro ⟨l, f⟩ idle
  cases stored : l.decision? s with
  | some d =>
    rw [decidedOr, query_bind stored]
    exact ⟨⟨.refl l, fun _ _ _ => rfl, fun _ _ _ => rfl⟩,
      fun _ _ => ⟨idle.balanced.reuse, idle.clear⟩⟩
  | none =>
    rw [decidedOr, query_bind stored]
    exact vacant (l, f) ⟨idle, stored⟩

theorem balanced_enter {s : σ} (inside : P.period s ≤ config.horizon) :
    Fulfils (Above P (P.period s))
      (fun w => Idle P config (P.period s) extra count w ∧ w.1.decision? s = none)
      (onContext (Frontier.enter · (P.period s) s))
      fun _ => Working P config s extra (count + 1) := by
  refine fulfils_onContext fun l f held => ?_
  obtain ⟨⟨balanced, clear⟩, undecided⟩ := held
  have unknown : f.contains (P.period s) s = false := by
    refine Bool.eq_false_iff.2 fun known => ?_
    have solved : l.isSolved s = true := clear _ s (Nat.le_refl _) known
    rw [Ledger.isSolved, undecided] at solved
    cases solved
  refine ⟨⟨.refl l, fun _ _ _ => rfl, fun u s' early => ?_⟩, balanced.enter inside unknown,
    fun u s' late known => ?_, fun s' known => ?_⟩
  · rw [Bool.eq_iff_iff, Frontier.contains_enter]
    exact or_iff_left fun here => absurd here.1 (Nat.ne_of_gt early)
  · rcases (f.contains_enter _ s u s').1 known with old | ⟨rfl, -, -⟩
    · exact clear u s' (Nat.le_of_succ_le late) old
    · exact absurd late (Nat.not_succ_le_self _)
  · rcases (f.contains_enter _ s _ s').1 known with old | ⟨-, same, -⟩
    · exact .inl (clear _ s' (Nat.le_refl _) old)
    · exact .inr same.symm

variable [Scalar ρ]

-- The pair that is being worked out stays vacant, since the periods after it are worked on only.
theorem balanced_evaluation {s : σ} {a : α} {successor : σ → LedgerM σ α ρ (Frontier σ) ρ}
    (successors : ∀ o ∈ kept P config s a, ∀ extra count, Fulfils (Above P (P.period s + 1))
      (Idle P config (P.period s + 1) extra count) (successor o)
      fun _ => Idle P config (P.period s + 1) extra (count + 1)) :
    Fulfils (Above P (P.period s)) (Working P config s extra count)
      (expectedValue P (pure (kept P config s a)) successor s a)
      fun _ => Working P config s extra count := by
  refine fulfils_expectedValue (I := fun done w =>
    Working P config s (done.map (fun o => (s, a, o)) ++ extra) count w ∧
      w.1.expected? s a = none) ?_ ?_ ?_ ?_
  · exact fun _ working _ => working
  · exact fun _ working vacant => ⟨working, vacant⟩
  · intro done o member
    have stable : ∀ w w', Above P (P.period s + 1) w w' →
        ((∀ s', w.2.contains (P.period s) s' = true → w.1.isSolved s' = true ∨ s' = s) ∧
          w.1.expected? s a = none) →
        (∀ s', w'.2.contains (P.period s) s' = true → w'.1.isSolved s' = true ∨ s' = s) ∧
          w'.1.expected? s a = none := by
      rintro w w' above ⟨others, vacant⟩
      refine ⟨fun s' known => ?_, (above.expected s a (Nat.lt_succ_self _)).trans vacant⟩
      rw [above.known _ s' (Nat.lt_succ_self _)] at known
      exact (others s' known).imp_left above.entries.isSolved
    refine (((successors o member _ _).keeping stable).along fun _ _ =>
      Above.of_le (Nat.le_succ _)).imp
      (fun w held => ⟨⟨held.1.balanced, held.1.clear⟩, held.1.others, held.2⟩) ?_
    rintro _ w ⟨idle, others, vacant⟩
    exact ⟨⟨w.1.extends_collect s a o, fun _ _ _ => rfl, fun _ _ _ => rfl⟩,
      ⟨idle.balanced.collect s a o, idle.clear, others⟩, vacant⟩
  · rintro l f x ⟨⟨balanced, clear, others⟩, vacant⟩
    have transitions : ((kept P config s a).reverse.map fun o => (s, a, o)).Perm
        (transitionsOf (kept P config) (s, a)) := (List.reverse_perm _).map _
    refine ⟨above_enterExpected l f s a x, Working.enterExpected x ?_ vacant⟩
    exact ⟨balanced.perm (transitions.append_right extra), clear, others⟩

omit [Scalar ρ] in
theorem balanced_publish (s : σ) (d : Decision α ρ) :
    Fulfils (Above P (P.period s)) (Working P config s extra count)
      (onLedger fun l : Ledger σ α ρ => l.publish s d)
      fun _ => Idle P config (P.period s) extra count :=
  fulfils_onLedger fun l f working => ⟨above_publish l f f rfl s d _,
    working.publish d rfl (working.balanced.publish s d)⟩

omit [Scalar ρ] in
theorem balanced_countSolved (t : Nat) :
    Fulfils (Above P t) (Idle P config t extra count)
      (onContext (Frontier.count · Tally.addSolved)) fun _ => Idle P config t extra count :=
  fulfils_onContext fun l _ idle => ⟨⟨.refl l, fun _ _ _ => rfl, fun _ _ _ => rfl⟩,
    ⟨idle.balanced.wide, idle.balanced.booked, idle.balanced.balance⟩, idle.clear⟩

-- By induction on the periods left.
theorem balanced_valueOf (lawful : P.Lawful) (left : Nat) (s : σ)
    (inside : P.period s + left = config.horizon) :
    Fulfils (Above P (P.period s)) (Idle P config (P.period s) extra count)
      (valueOf P config left s) fun _ => Idle P config (P.period s) extra (count + 1) := by
  induction left generalizing s extra count with
  | zero =>
    have last : config.horizon = P.period s := inside.symm
    unfold valueOf
    rw [last]
    refine balanced_decidedOr ((balanced_enter (by omega)).bind fun _ => ?_)
    exact (balanced_publish s _).bind fun _ => fulfils_pure fun _ held => held
  | succ left ih =>
    have period : config.horizon - (left + 1) = P.period s := by omega
    unfold valueOf
    rw [period]
    refine balanced_decidedOr ((balanced_enter (by omega)).bind fun _ => ?_)
    refine Fulfils.bind (fulfils_evaluateAll_of_invariant fun a _ =>
      balanced_evaluation fun o member extra count => ?_) fun candidates => ?_
    · have next := lawful.period_of_mem_outcomesKept member
      rw [← next]
      exact ih o (by omega)
    · refine ((fulfils_ofExcept _).imp (fun _ => id) fun _ _ held => held.1).bind fun d => ?_
      refine (balanced_publish s d).bind fun entered => ?_
      obtain ⟨d', isNew⟩ := entered
      cases isNew with
      | true => exact (balanced_countSolved _).bind fun _ => fulfils_pure fun _ held => held
      | false => exact fulfils_pure fun _ held => held

omit [Scalar ρ] in
theorem idle_start [Hashable σ] [Hashable α] :
    Idle P config 0 [] 0 ((start P config).ledger, (start P config).frontier) := by
  refine ⟨⟨(fitted_start (P := P)).wide, Ledger.booked_empty _ _, rfl⟩, fun u s _ known => ?_⟩
  dsimp only at known
  rw [contains_start] at known
  cases known

omit [Scalar ρ] in
-- The periods before `t` are as they were.
theorem Idle.restart {w w' : Ledger σ α ρ × Frontier σ} {t count' : Nat}
    (idle : Idle P config 0 extra count w) (above : Above P t w w')
    (after : Idle P config t extra count' w') : Idle P config 0 extra count' w' := by
  refine ⟨after.balanced, fun u s _ known => ?_⟩
  rcases Nat.lt_or_ge u t with early | late
  · rw [above.known u s early] at known
    exact above.entries.isSolved (idle.clear u s (Nat.zero_le u) known)
  · exact after.clear u s late known

theorem Idle.run (lawful : P.Lawful) {r : Forward σ α ρ} (fitted : Fitted P config r)
    (idle : Idle P config 0 extra count (r.ledger, r.frontier)) {s : σ} {x : ρ}
    (done : (r.run s).1 = .ok x) :
    Idle P config 0 extra (count + 1) ((r.run s).2.ledger, (r.run s).2.frontier) := by
  obtain ⟨problem, configuration, f, l⟩ := r
  obtain ⟨problem_eq, config_eq, -⟩ := fitted
  change problem = P at problem_eq
  change configuration = config at config_eq
  subst problem_eq config_eq
  unfold Forward.run at done ⊢
  dsimp only at done ⊢
  split at done
  · cases done
  · next within =>
    rw [if_neg within]
    have here : Idle problem configuration (problem.period s) extra count (l, f) :=
      ⟨idle.balanced, fun u s' _ known => idle.clear u s' (Nat.zero_le u) known⟩
    obtain ⟨above, given⟩ := balanced_valueOf lawful
      (configuration.horizon - problem.period s) s (by omega) (l, f) here
    exact idle.restart above (given x done)

theorem Idle.runAll (lawful : P.Lawful) {r : Forward σ α ρ} (fitted : Fitted P config r)
    {initials : List σ} (idle : Idle P config 0 extra count (r.ledger, r.frontier))
    (done : ∀ result ∈ (r.runAll initials).1, ∃ x, result = .ok x) :
    Idle P config 0 extra (count + initials.length)
      ((r.runAll initials).2.ledger, (r.runAll initials).2.frontier) := by
  induction initials generalizing r count with
  | nil => exact idle
  | cons s rest ih =>
    obtain ⟨x, given⟩ := done _ List.mem_cons_self
    have next := idle.run lawful fitted given
    have still : Fitted P config (r.run s).2 := (fitted.run (fun _ => True) lawful trivial).1
    have last := ih still next fun result later => done result (List.mem_cons_of_mem _ later)
    rwa [Nat.add_assoc, Nat.add_comm 1, ← List.length_cons] at last

theorem valueOf_of_stored {l : Ledger σ α ρ} {s : σ} {d : Decision α ρ}
    (stored : l.decision? s = some d) (left : Nat) (f : Frontier σ) :
    valueOf P config left s (l, f) = (.ok d.value, l, f.count Tally.addReused) := by
  cases left with
  | zero =>
    rw [valueOf, decidedOr, query_bind stored]
    rfl
  | succ left =>
    rw [valueOf, decidedOr, query_bind stored]
    rfl

-- The value of a decided state is looked up.
theorem ledger_run_of_solved {r : Forward σ α ρ} {s : σ}
    (solved : r.ledger.isSolved s = true) : (r.run s).2.ledger = r.ledger := by
  obtain ⟨problem, configuration, f, l⟩ := r
  obtain ⟨d, stored⟩ := Ledger.isSolved_iff.1 solved
  unfold Forward.run
  dsimp only at stored ⊢
  split
  · rfl
  · rw [valueOf_of_stored stored]

theorem ledger_runAll_of_solved {r : Forward σ α ρ} {more : List σ}
    (solved : ∀ s ∈ more, r.ledger.isSolved s = true) : (r.runAll more).2.ledger = r.ledger := by
  induction more generalizing r with
  | nil => rfl
  | cons s rest ih =>
    have first := ledger_run_of_solved (solved s List.mem_cons_self)
    have still : ∀ s' ∈ rest, (r.run s).2.ledger.isSolved s' = true := by
      intro s' listed
      rw [first]
      exact solved s' (List.mem_cons_of_mem s listed)
    exact (ih still).trans first

omit [Scalar ρ] in
-- At rest, the pairs that have been entered are those of the decided states.
theorem entered_iff {Initial : σ → Prop} {w : Ledger σ α ρ × Frontier σ}
    (explored : Explored P config Initial w) (clear : Clear 0 w) (s : σ) (a : α) :
    (w.1.expected? s a).isSome = true ↔
      P.period s < config.horizon ∧ w.1.isSolved s = true ∧ a ∈ P.actions s := by
  constructor
  · intro entered
    obtain ⟨below, feasible, known⟩ := explored.owned s a entered
    exact ⟨below, clear _ s (Nat.zero_le _) known, feasible⟩
  · rintro ⟨below, solved, feasible⟩
    exact explored.evaluated s solved below a feasible

end Forward

namespace Backward

variable {P : Problem σ α ρ} {config : Config ρ} {spaces : List (StateSpace σ)}
  {extra : List (σ × α × σ)}

def Extending (w w' : Ledger σ α ρ × Tally) : Prop :=
  w.1.Extends w'.1

instance : IsPreorder (Ledger σ α ρ × Tally) Extending where
  refl w := .refl w.1
  trans _ _ _ first second := Ledger.Extends.trans first second

def Scheduled (P : Problem σ α ρ) (config : Config ρ) (spaces : List (StateSpace σ)) (s : σ)
    (a : α) : Prop :=
  (P.period s < config.horizon ∧ s ∈ statesOf spaces (P.period s)) ∧ a ∈ P.actions s

structure Tidy (P : Problem σ α ρ) (config : Config ρ) (spaces : List (StateSpace σ))
    (extra : List (σ × α × σ)) (w : Ledger σ α ρ × Tally) : Prop where
  booked : w.1.Booked (kept P config spaces) extra
  owned : ∀ s a, (w.1.expected? s a).isSome = true → Scheduled P config spaces s a

theorem Tidy.publish {l : Ledger σ α ρ} {t t' : Tally} (tidy : Tidy P config spaces extra (l, t))
    (s : σ) (d : Decision α ρ) : Tidy P config spaces extra ((l.publish s d).2, t') := by
  refine ⟨tidy.booked.publish s d, fun s' a entered => ?_⟩
  dsimp only at entered
  rw [Ledger.expected?_publish] at entered
  exact tidy.owned s' a entered

theorem tidy_decide (s : σ) (d : Decision α ρ) :
    Fulfils Extending (Tidy P config spaces extra) (LedgerM.decide s d)
      fun _ => Tidy P config spaces extra := by
  rintro ⟨l, t⟩ tidy
  cases stored : l.decision? s with
  | none =>
    rw [decide_of_vacant d stored]
    exact ⟨l.extends_publish s d, fun _ _ => tidy.publish s d⟩
  | some d' =>
    rw [decide_of_stored d stored]
    exact ⟨.refl l, fun _ _ => tidy⟩

theorem tidy_addSolved : Fulfils Extending (Tidy P config spaces extra)
    (LedgerM.onContext Tally.addSolved : LedgerM σ α ρ Tally Unit)
    fun _ => Tidy P config spaces extra :=
  fulfils_onContext fun l _ tidy => ⟨.refl l, tidy.booked, tidy.owned⟩

variable [Scalar ρ] {next : StateSpace σ} {s : σ} {a : α}

theorem tidy_evaluate (found : spaces[P.period s + 1]? = some next)
    (scheduled : Scheduled P config spaces s a) :
    Fulfils Extending (Tidy P config spaces extra) (evaluate P config next s a)
      fun _ w => Tidy P config spaces extra w ∧ (w.1.expected? s a).isSome = true := by
  rw [evaluate_of_next found]
  refine fulfils_expectedValue (I := fun done w =>
    Tidy P config spaces (done.map (fun o => (s, a, o)) ++ extra) w ∧
      w.1.expected? s a = none) ?_ ?_ ?_ ?_
  · exact fun _ tidy entered => ⟨tidy, entered⟩
  · exact fun _ tidy vacant => ⟨tidy, vacant⟩
  · refine fun done f _ => (fulfils_query _).imp (fun _ => id) ?_
    rintro _ w ⟨⟨tidy, vacant⟩, -⟩
    exact ⟨w.1.extends_collect s a f, ⟨tidy.booked.collect s a f, tidy.owned⟩, vacant⟩
  · rintro l t x ⟨tidy, vacant⟩
    have transitions : ((kept P config spaces s a).reverse.map fun o => (s, a, o)).Perm
        (transitionsOf (kept P config spaces) (s, a)) := (List.reverse_perm _).map _
    have booked := tidy.booked.perm (transitions.append_right extra)
    refine ⟨l.extends_enterExpected s a x, ⟨booked.enterExpected vacant x,
      fun s' b entered => ?_⟩, l.isSome_enterExpected s a x⟩
    rcases Ledger.isSome_or_of_enterExpected entered with old | pair
    · exact tidy.owned s' b old
    · cases pair
      exact scheduled

theorem tidy_solveState (found : spaces[P.period s + 1]? = some next)
    (below : P.period s < config.horizon) (listed : s ∈ statesOf spaces (P.period s)) :
    Fulfils Extending (Tidy P config spaces extra) (solveState P config next s)
      fun _ w => Tidy P config spaces extra w ∧
        ∀ a ∈ P.actions s, (w.1.expected? s a).isSome = true := by
  have stable : ∀ (a : α) (w w' : Ledger σ α ρ × Tally), Extending w w' →
      (w.1.expected? s a).isSome = true → (w'.1.expected? s a).isSome = true :=
    fun _ _ _ grown entered => Ledger.Extends.isSome_expected grown entered
  have all : ∀ w w' : Ledger σ α ρ × Tally, Extending w w' →
      (∀ a ∈ P.actions s, (w.1.expected? s a).isSome = true) →
        ∀ a ∈ P.actions s, (w'.1.expected? s a).isSome = true :=
    fun w w' grown entered a feasible => stable a w w' grown (entered a feasible)
  refine Fulfils.bind (fulfils_evaluateAll stable fun a feasible =>
    tidy_evaluate found ⟨⟨below, listed⟩, feasible⟩) fun candidates => ?_
  refine ((fulfils_ofExcept _).imp (fun _ => id) fun _ _ held => held.1).bind fun d => ?_
  refine ((tidy_decide s d).keeping all).bind fun _ => ?_
  exact tidy_addSolved.keeping all

omit [Scalar ρ] [DecidableEq α] in
theorem mem_order_iff (complete : Complete P config spaces) {s : σ} :
    s ∈ order config spaces config.horizon ↔
      P.period s < config.horizon ∧ s ∈ statesOf spaces (P.period s) := by
  rw [mem_order (Nat.le_refl _), Nat.sub_self]
  constructor
  · rintro ⟨t, -, below, listed⟩
    obtain ⟨rfl, -⟩ := complete.period_of_mem listed
    exact ⟨below, listed⟩
  · rintro ⟨below, listed⟩
    exact ⟨_, Nat.zero_le _, below, listed⟩

theorem tidy_solveDown (complete : Complete P config spaces) :
    Fulfils Extending (Tidy P config spaces extra) (solveDown P config spaces)
      fun _ w => Tidy P config spaces extra w ∧
        ∀ s ∈ order config spaces config.horizon,
          ∀ a ∈ P.actions s, (w.1.expected? s a).isSome = true := by
  have sequence := solveDown_eq_forEach complete (Nat.le_refl config.horizon)
  rw [Nat.sub_self, List.drop_zero] at sequence
  rw [sequence]
  refine fulfils_forEach (fun s w w' grown entered a feasible => ?_) fun s scheduled => ?_
  · exact Ledger.Extends.isSome_expected grown (entered a feasible)
  · obtain ⟨below, listed⟩ := (mem_order_iff complete).1 scheduled
    obtain ⟨next, found, -⟩ := complete.exists_space (t := P.period s + 1) below
    rw [solveIn, found]
    exact tidy_solveState found below listed

omit [Scalar ρ] in
theorem tidy_seedTerminal : Fulfils Extending (Tidy P config spaces extra)
    (seedTerminal P spaces) fun _ => Tidy P config spaces extra := by
  unfold seedTerminal
  split
  · exact fulfils_forEach_of_invariant fun s _ => tidy_decide s _
  · exact fulfils_pure fun _ tidy => tidy

omit [Scalar ρ] in
theorem tidy_empty [Hashable σ] [Hashable α] (storage : StorageConfig) (discount : ρ) (t : Tally) :
    Tidy P config spaces [] (Ledger.empty storage discount, t) := by
  refine ⟨Ledger.booked_empty _ _, fun s a entered => ?_⟩
  dsimp only at entered
  rw [Ledger.expected?_empty] at entered
  cases entered

theorem tidy_run [Hashable σ] [Hashable α] (lawful : P.Lawful) {b : Backward σ α ρ}
    (new : Backward.new P config = .ok b) (done : b.run.1 = .ok ()) :
    let now := b.run.2
    now.phase = .solved 0 false ∧ Complete P config now.spaces ∧
      now.ledger.Booked (kept P config now.spaces) [] ∧
      ∀ s a, (now.ledger.expected? s a).isSome = true ↔ Scheduled P config now.spaces s a := by
  intro now
  have complete := complete_generatedSpaces lawful config
  obtain ⟨tally, prepared⟩ := prepare_start lawful config
  rw [← (new_eq_ok_iff.1 new).2.2] at prepared
  have ran : b.run = _ := runUntil_of_prepare prepared 0 false
  have started : Tidy P config (generatedSpaces P config) [] (seeded P config tally).2 :=
    (tidy_seedTerminal _ (tidy_empty config.storage config.discount tally)).2 ()
      (seeded_settles lawful config tally).1
  have solved : now.phase = _ := congrArg (fun r => r.2.phase) ran
  rw [ran] at done
  obtain ⟨tidy, entered⟩ := (tidy_solveDown complete _ started).2 () done
  have spaces : now.spaces = generatedSpaces P config := (run_of_new lawful new).2.1
  have ledger : now.ledger = _ := congrArg (fun r => r.2.ledger) ran
  rw [spaces, ledger]
  refine ⟨solved.trans (congrArg (phaseOf 0 false) done), complete, tidy.booked,
    fun s a => ⟨tidy.owned s a, ?_⟩⟩
  rintro ⟨scheduled, feasible⟩
  exact entered s ((mem_order_iff complete).2 scheduled) a feasible

end Backward

section Work

open Backward (Call statesOf)

variable [Scalar ρ] [Hashable σ] [Hashable α] {P : Problem σ α ρ} {config : Config ρ}

end Work

end Horizon
