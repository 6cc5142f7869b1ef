import Horizon.Proofs.BackwardRun

/-! What the passes of a backward recursion enter, whatever passes before them have left behind.

Nothing is known here of the values in the ledger, only from where they came: an expected value or a
decision is there because a state of the next period was decided before, and a period is begun when
those after it are complete (`Descending`). A pass keeps this, whether it succeeds or stops at an
error. It changes no decision, and it succeeds only if it has itself decided every state it goes
through (`Swept`).
-/

set_option autoImplicit false

namespace Horizon

/-- Zero is at most zero, so outcomes without mass cannot be weighed. -/
class Scalar.Grounded (ρ : Type) [Scalar ρ] : Prop where
  zero_le_zero : Scalar.le (0 : ρ) 0 = true

instance : Scalar.Grounded Float := ⟨by decide⟩

variable {σ α ρ : Type}

section Candidates

variable [Scalar ρ] {s : σ}

theorem Problem.weights_ne_nil [Scalar.Grounded ρ] {P : Problem σ α ρ} {a : α} {finals : List σ}
    {ws : List ρ} (weighed : P.weights s a finals = .ok ws) : finals ≠ [] := by
  rintro rfl
  have positive := (weights_eq_ok_iff.1 weighed).1.positive
  rw [show Scalar.total ([].map (P.probability s a)) = 0 from rfl,
    Scalar.Grounded.zero_le_zero] at positive
  cases positive

theorem LedgerM.candidates_of_choose {direction : Direction} {candidates : List (α × ρ)}
    {d : Decision α ρ} (chosen : choose direction s candidates = .ok d) :
    candidates ≠ [] ∧ ∃ x a, d = ⟨x, some a⟩ := by
  constructor
  · rintro rfl
    cases chosen
  · unfold choose at chosen
    split at chosen
    · cases chosen
    · split at chosen
      · next a value _ =>
        cases chosen
        exact ⟨value, a, rfl⟩
      · cases chosen

end Candidates

variable [DecidableEq σ] [DecidableEq α]

namespace LedgerM

section Ensures

variable {ω β γ : Type} {I : Ledger σ α ρ × ω → Prop}

def Ensures (I : Ledger σ α ρ × ω → Prop) (m : LedgerM σ α ρ ω β) (Q : β → Prop) : Prop :=
  ∀ w, I w → I (m w).2 ∧ ∀ x, (m w).1 = .ok x → Q x

theorem Computes.ensures {m : LedgerM σ α ρ ω β} {result : Except (SolveError σ α) β}
    (computed : Computes I m result) : Ensures I m fun x => result = .ok x := by
  intro w held
  obtain ⟨given, kept⟩ := computed w held
  exact ⟨kept, fun x done => given.symm.trans done⟩

theorem ensures_query {f : Ledger σ α ρ → Except (SolveError σ α) β} {Q : β → Prop}
    (answered : ∀ w, I w → ∀ x, f w.1 = .ok x → Q x) : Ensures I (query f) Q :=
  fun w held => ⟨held, answered w held⟩

theorem Ensures.imp {m : LedgerM σ α ρ ω β} {Q R : β → Prop} (ensured : Ensures I m Q)
    (implies : ∀ x, Q x → R x) : Ensures I m R :=
  fun w held => ⟨(ensured w held).1, fun x done => implies x ((ensured w held).2 x done)⟩

theorem Ensures.bind {m : LedgerM σ α ρ ω β} {f : β → LedgerM σ α ρ ω γ} {Q : β → Prop}
    {R : γ → Prop} (first : Ensures I m Q) (second : ∀ x, Q x → Ensures I (f x) R) :
    Ensures I (m >>= f) R := by
  intro w held
  obtain ⟨kept, given⟩ := first w held
  rcases ran : m w with ⟨result, w'⟩
  rw [ran] at kept given
  cases result with
  | error e =>
    rw [bind_of_error ran]
    exact ⟨kept, fun x returned => by cases returned⟩
  | ok x =>
    rw [bind_of_ok ran]
    exact second x (given x rfl) w' kept

theorem ensures_evaluateAll {evaluate : α → LedgerM σ α ρ ω ρ} {Q : Prop} {as : List α}
    (each : ∀ a ∈ as, Ensures I (evaluate a) fun _ => Q) :
    Ensures I (evaluateAll evaluate as) fun candidates => candidates ≠ [] → Q := by
  induction as with
  | nil => exact (computes_pure []).ensures.imp fun x same => by simp_all
  | cons a rest ih =>
    have others := ih fun b member => each b (List.mem_cons_of_mem a member)
    refine (each a List.mem_cons_self).bind fun x holds => ?_
    refine others.bind fun xs _ => ?_
    exact (computes_pure _).ensures.imp fun _ _ _ => holds

theorem ensures_addTerms [Scalar ρ] {P : Problem σ α ρ} {successor : σ → LedgerM σ α ρ ω ρ}
    {discount : ρ} {s : σ} {a : α} {Q : σ → Prop} {finals : List σ} (ws : List ρ) (sum : ρ)
    (collect : ∀ l c, I (l, c) → ∀ f, I (l.collect s a f, c))
    (successors : ∀ f ∈ finals, Ensures I (successor f) fun _ => Q f) :
    Ensures I (addTerms P successor discount s a sum finals ws)
      fun _ => ∀ x ∈ finals.zip ws, Q x.1 := by
  induction finals generalizing ws sum with
  | nil => exact (computes_pure sum).ensures.imp fun _ _ x listed => by cases listed
  | cons f rest ih =>
    cases ws with
    | nil => exact (computes_pure sum).ensures.imp fun _ _ x listed => by cases listed
    | cons w others =>
      have collected : Ensures I (onLedger fun l : Ledger σ α ρ => ((), l.collect s a f))
          fun _ => True :=
        fun w held => ⟨collect w.1 w.2 held f, fun _ _ => trivial⟩
      refine (successors f List.mem_cons_self).bind fun future first => collected.bind fun _ _ => ?_
      refine (ih others _ fun g member => successors g (List.mem_cons_of_mem f member)).imp ?_
      intro _ later
      simpa [first] using later

theorem ensures_forEach {step : β → LedgerM σ α ρ ω Unit} {xs : List β}
    (each : ∀ x ∈ xs, Ensures I (step x) fun _ => True) :
    Ensures I (forEach step xs) fun _ => True := by
  induction xs with
  | nil => exact (computes_pure ()).ensures.imp fun _ _ => trivial
  | cons x rest ih =>
    refine (each x List.mem_cons_self).bind fun _ _ => ?_
    exact ih fun y member => each y (List.mem_cons_of_mem x member)

end Ensures

end LedgerM

namespace Ledger

variable {l l' l'' : Ledger σ α ρ} {s : σ}

theorem isSolved_iff : l.isSolved s = true ↔ ∃ d, l.decision? s = some d :=
  Option.isSome_iff_exists

theorem isSolved_of_action {a : α} (held : l.action s = .ok a) : l.isSolved s = true := by
  rw [isSolved]
  cases stored : l.decision? s with
  | none =>
    rw [action, stored] at held
    cases held
  | some d => rfl

theorem vacant_or_solved (l : Ledger σ α ρ) (s : σ) :
    l.decision? s = none ∨ l.isSolved s = true := by
  rw [isSolved]
  cases l.decision? s with
  | none => exact .inl rfl
  | some d => exact .inr rfl

structure Grows (Kind : σ → Prop) (l l' : Ledger σ α ρ) : Prop where
  kept : ∀ s d, l.decision? s = some d → l'.decision? s = some d
  new : ∀ s, l.decision? s = none → l'.isSolved s = true → Kind s ∧ ∃ a, l'.action s = .ok a

namespace Grows

variable {Kind Kind' : σ → Prop}

theorem of_same (same : ∀ s, l'.decision? s = l.decision? s) : Grows Kind l l' where
  kept s d held := (same s).trans held
  new s vacant solved := by
    rw [isSolved, same s, vacant] at solved
    cases solved

theorem solved (grows : Grows Kind l l') (held : l.isSolved s = true) : l'.isSolved s = true := by
  obtain ⟨d, stored⟩ := isSolved_iff.1 held
  exact isSolved_iff.2 ⟨d, grows.kept s d stored⟩

theorem vacant (grows : Grows Kind l l') (undecided : l'.decision? s = none) :
    l.decision? s = none := by
  rcases l.vacant_or_solved s with vacant | solved
  · exact vacant
  · have later := grows.solved solved
    rw [isSolved, undecided] at later
    cases later

theorem action {a : α} (grows : Grows Kind l l') (held : l.action s = .ok a) :
    l'.action s = .ok a := by
  cases stored : l.decision? s with
  | none =>
    rw [Ledger.action, stored] at held
    cases held
  | some d =>
    rw [Ledger.action, stored] at held
    rw [Ledger.action, grows.kept s d stored]
    exact held

theorem imp (grows : Grows Kind l l') (implies : ∀ s, Kind s → Kind' s) : Grows Kind' l l' where
  kept := grows.kept
  new s vacant solved := by
    obtain ⟨kind, acted⟩ := grows.new s vacant solved
    exact ⟨implies s kind, acted⟩

theorem trans (first : Grows Kind l l') (second : Grows Kind l' l'') : Grows Kind l l'' where
  kept s d held := second.kept s d (first.kept s d held)
  new s vacant solved := by
    rcases l'.vacant_or_solved s with between | between
    · exact second.new s between solved
    · obtain ⟨kind, a, held⟩ := first.new s vacant between
      exact ⟨kind, a, second.action held⟩

end Grows

theorem decision?_publish_of_vacant (vacant : l.decision? s = none) (d : Decision α ρ) (s' : σ) :
    (l.publish s d).2.decision? s' = if s = s' then some d else l.decision? s' := by
  rw [decision?_publish, vacant]
  rfl

theorem action_publish (vacant : l.decision? s = none) (x : ρ) (a : α) :
    (l.publish s ⟨x, some a⟩).2.action s = .ok a := by
  rw [action, decision?_publish_of_vacant vacant, if_pos rfl]

theorem Grows.publish (vacant : l.decision? s = none) (x : ρ) (a : α) :
    Grows (· = s) l (l.publish s ⟨x, some a⟩).2 where
  kept s' d held := by
    rw [decision?_publish_of_vacant vacant, if_neg]
    · exact held
    · rintro rfl
      rw [vacant] at held
      cases held
  new s' undecided solved := by
    by_cases same : s = s'
    · subst same
      exact ⟨rfl, a, action_publish vacant x a⟩
    · rw [isSolved, decision?_publish_of_vacant vacant, if_neg same, undecided] at solved
      cases solved

end Ledger

namespace Backward

open LedgerM
open Ledger (Grows)

variable {P : Problem σ α ρ} {config : Config ρ} {spaces : List (StateSpace σ)}

def Followed (P : Problem σ α ρ) (spaces : List (StateSpace σ)) (l : Ledger σ α ρ) (s : σ) : Prop :=
  ∃ f ∈ statesOf spaces (P.period s + 1), l.isSolved f = true

def CompleteAfter (config : Config ρ) (spaces : List (StateSpace σ)) (l : Ledger σ α ρ)
    (t : Nat) : Prop :=
  ∀ u, t < u → u < config.horizon → ∀ s ∈ statesOf spaces u, l.isSolved s = true

/-- What has been entered was entered from the horizon down. -/
structure Descending (P : Problem σ α ρ) (config : Config ρ) (spaces : List (StateSpace σ))
    (l : Ledger σ α ρ) : Prop where
  expected : ∀ s a x, l.expected? s a = some x → Followed P spaces l s
  followed : ∀ s, l.isSolved s = true → P.period s < config.horizon → Followed P spaces l s
  later : ∀ s, l.isSolved s = true → CompleteAfter config spaces l (P.period s)

-- Before any pass, only states at the horizon may have been decided.
theorem Descending.of_none {l : Ledger σ α ρ} (expected : ∀ s a, l.expected? s a = none)
    (late : ∀ s, l.isSolved s = true → config.horizon ≤ P.period s) :
    Descending P config spaces l where
  expected s a x entered := by
    rw [expected s a] at entered
    cases entered
  followed s solved below := absurd (late s solved) (Nat.not_le_of_lt below)
  later s solved u above below := by
    have := late s solved
    omega

section Growth

variable {Kind : σ → Prop} {l l' : Ledger σ α ρ} {s : σ}

theorem Followed.grow (followed : Followed P spaces l s) (grows : Grows Kind l l') :
    Followed P spaces l' s := by
  obtain ⟨f, listed, solved⟩ := followed
  exact ⟨f, listed, grows.solved solved⟩

theorem CompleteAfter.grow {t : Nat} (complete : CompleteAfter config spaces l t)
    (grows : Grows Kind l l') : CompleteAfter config spaces l' t :=
  fun u after before s listed => grows.solved (complete u after before s listed)

theorem Descending.of_same (descending : Descending P config spaces l)
    (same : ∀ s, l'.decision? s = l.decision? s)
    (expected : ∀ s a x, l'.expected? s a = some x → Followed P spaces l s) :
    Descending P config spaces l' := by
  have grows : Grows (fun _ => True) l l' := .of_same same
  have solved : ∀ s, l'.isSolved s = l.isSolved s := fun s => congrArg Option.isSome (same s)
  refine ⟨fun s a x entered => (expected s a x entered).grow grows, fun s held below => ?_,
    fun s held => ?_⟩
  · exact (descending.followed s (solved s ▸ held) below).grow grows
  · exact (descending.later s (solved s ▸ held)).grow grows

theorem Descending.publish (descending : Descending P config spaces l)
    (vacant : l.decision? s = none) (followed : Followed P spaces l s)
    (later : CompleteAfter config spaces l (P.period s)) (x : ρ) (a : α) :
    Descending P config spaces (l.publish s ⟨x, some a⟩).2 := by
  have grows := Grows.publish vacant x a
  have old : ∀ s', (l.publish s ⟨x, some a⟩).2.isSolved s' = true →
      s = s' ∨ l.isSolved s' = true := by
    intro s' solved
    by_cases same : s = s'
    · exact .inl same
    · rw [Ledger.isSolved, Ledger.decision?_publish_of_vacant vacant, if_neg same] at solved
      exact .inr solved
  refine ⟨fun s' b y entered => ?_, fun s' solved below => ?_, fun s' solved => ?_⟩
  · rw [Ledger.expected?_publish] at entered
    exact (descending.expected s' b y entered).grow grows
  · rcases old s' solved with rfl | solved
    · exact followed.grow grows
    · exact (descending.followed s' solved below).grow grows
  · rcases old s' solved with rfl | solved
    · exact later.grow grows
    · exact (descending.later s' solved).grow grows

-- The periods from a decided state on have a decided state each, up to the horizon.
theorem Descending.exists_solved (descending : Descending P config spaces l)
    (complete : Complete P config spaces) (solved : l.isSolved s = true) {t : Nat}
    (after : P.period s < t) (inside : t ≤ config.horizon) :
    ∃ f ∈ statesOf spaces t, l.isSolved f = true := by
  induction after with
  | refl => exact descending.followed s solved inside
  | step _ ih =>
    obtain ⟨f, listed, decided⟩ := ih (by omega)
    have period := (complete.period_of_mem listed).1
    have next := descending.followed f decided (by omega)
    rwa [Followed, period] at next

end Growth

section Evaluation

variable [Scalar ρ] [Scalar.Grounded ρ] {l : Ledger σ α ρ} {s : σ} {next : StateSpace σ}

structure Evaluating (P : Problem σ α ρ) (spaces : List (StateSpace σ)) (l : Ledger σ α ρ)
    (w : Ledger σ α ρ × Tally) : Prop where
  decided : ∀ s, w.1.decision? s = l.decision? s
  expected : ∀ s a x, w.1.expected? s a = some x → Followed P spaces l s

omit [Scalar ρ] [Scalar.Grounded ρ] in
theorem ensures_valueOf (f : σ) :
    Ensures (Evaluating P spaces l) (valueOf f) fun _ => l.isSolved f = true := by
  refine ensures_query fun w evaluating x known => ?_
  rw [Ledger.value, evaluating.decided f] at known
  rcases l.vacant_or_solved f with vacant | solved
  · rw [vacant] at known
    cases known
  · exact solved

theorem followed_of_weights {a : α} {ws : List ρ} (complete : Complete P config spaces)
    (weighed : P.weights s a (kept P config spaces s a) = .ok ws)
    (solved : ∀ x ∈ (kept P config spaces s a).zip ws, l.isSolved x.1 = true) :
    Followed P spaces l s := by
  obtain ⟨f, rest, same⟩ := List.exists_cons_of_ne_nil (Problem.weights_ne_nil weighed)
  have member : f ∈ kept P config spaces s a := by
    rw [same]
    exact List.mem_cons_self
  refine ⟨f, complete.mem_statesOf_of_mem_kept member, ?_⟩
  rw [(Problem.weights_eq_ok_iff.1 weighed).2, same, List.map_cons] at solved
  exact solved _ List.mem_cons_self

-- A value that is worked out needs an outcome with a weight, and the value of that outcome.
theorem ensures_evaluate (complete : Complete P config spaces)
    (found : spaces[P.period s + 1]? = some next) (a : α) :
    Ensures (Evaluating P spaces l) (evaluate P config next s a)
      fun _ => Followed P spaces l s := by
  rw [evaluate_of_next found]
  rintro ⟨l', c⟩ held
  cases entered : l'.expected? s a with
  | some x =>
    rw [expectedValue, query_bind entered]
    exact ⟨held, fun _ _ => held.expected s a x entered⟩
  | none =>
    rw [expectedValue, query_bind entered]
    have worked : Ensures (Evaluating P spaces l)
        (do
          let weights ← LedgerM.ofExcept (P.weights s a (kept P config spaces s a))
          let discount ← query fun l => .ok l.discount
          let value ← addTerms P valueOf discount s a 0 (kept P config spaces s a) weights
          onLedger fun l => l.enterExpected s a value)
        fun _ => Followed P spaces l s := by
      refine (computes_ofExcept _).ensures.bind fun ws weighed => ?_
      refine (ensures_query (Q := fun _ => True) fun _ _ _ _ => trivial).bind fun discount _ => ?_
      refine (ensures_addTerms ws 0 (fun _ _ evaluating _ =>
        ⟨evaluating.decided, evaluating.expected⟩) fun f _ => ensures_valueOf f).bind
          fun value solved => ?_
      have followed := followed_of_weights complete weighed solved
      rintro ⟨l', c⟩ evaluating
      refine ⟨⟨fun s' => ?_, fun s' a' x entered => ?_⟩, fun _ _ => followed⟩
      · exact (l'.decision?_enterExpected s s' a value).trans (evaluating.decided s')
      · rcases Ledger.expected?_or_of_enterExpected entered with old | ⟨same, -⟩
        · exact evaluating.expected s' a' x old
        · cases same
          exact followed
    exact worked (l', c) held

def Actable (P : Problem σ α ρ) (spaces : List (StateSpace σ)) (l : Ledger σ α ρ) (s : σ)
    (d : Decision α ρ) : Prop :=
  (∃ x a, d = ⟨x, some a⟩) ∧ Followed P spaces l s

theorem ensures_decision (complete : Complete P config spaces)
    (found : spaces[P.period s + 1]? = some next) :
    Ensures (Evaluating P spaces l)
      (do
        let candidates ← evaluateAll (evaluate P config next s) (P.actions s)
        LedgerM.ofExcept (choose config.direction s candidates))
      (Actable P spaces l s) := by
  have evaluated := ensures_evaluateAll fun a (_ : a ∈ P.actions s) =>
    ensures_evaluate (l := l) complete found a
  refine evaluated.bind fun candidates followed => ?_
  refine (computes_ofExcept _).ensures.imp fun d chosen => ?_
  obtain ⟨some, acted⟩ := candidates_of_choose chosen
  exact ⟨acted, followed some⟩

theorem ensures_idle (complete : Complete P config spaces)
    (found : spaces[P.period s + 1]? = some next) :
    Ensures (Evaluating P spaces l)
      (do
        let value ← evaluate P config next s (P.idle s)
        pure ⟨value, some (P.idle s)⟩)
      (Actable P spaces l s) := by
  refine (ensures_evaluate complete found (P.idle s)).bind fun x followed => ?_
  refine (computes_pure _).ensures.imp fun d same => ?_
  exact ⟨⟨x, P.idle s, (Except.ok.inj same).symm⟩, followed⟩

end Evaluation

/-- What a pass over the states of `Scope` makes of a ledger, and with which result. -/
structure Swept (P : Problem σ α ρ) (config : Config ρ) (spaces : List (StateSpace σ))
    (Scope : σ → Prop) (w : Ledger σ α ρ × Tally)
    (ran : Except (SolveError σ α) Unit × Ledger σ α ρ × Tally) : Prop where
  descending : Descending P config spaces ran.2.1
  grows : Grows Scope w.1 ran.2.1
  complete : ran.1 = .ok () → ∀ s, Scope s →
    w.1.decision? s = none ∧ ∃ a, ran.2.1.action s = .ok a
  idle : (∀ s, ¬Scope s) → ran = (.ok (), w)

namespace Swept

variable {Scope Scope' : σ → Prop} {w : Ledger σ α ρ × Tally}

theorem andThen {m m' : LedgerM σ α ρ Tally Unit} (first : Swept P config spaces Scope w (m w))
    (second : (m w).1 = .ok () → Swept P config spaces Scope' (m w).2 (m' (m w).2)) :
    Swept P config spaces (fun s => Scope s ∨ Scope' s) w ((do m; m') w) := by
  rcases ran : m w with ⟨result, w'⟩
  rw [ran] at first second
  cases result with
  | error e =>
    rw [bind_of_error ran]
    refine ⟨first.descending, first.grows.imp fun _ => .inl, fun done => ?_, fun none => ?_⟩
    · cases done
    · cases first.idle fun s scope => none s (.inl scope)
  | ok _ =>
    rw [bind_of_ok ran]
    have later := second rfl
    refine ⟨later.descending, (first.grows.imp fun _ => .inl).trans (later.grows.imp fun _ => .inr),
      fun done s scope => ?_, fun none => ?_⟩
    · rcases scope with before | after
      · obtain ⟨vacant, a, held⟩ := first.complete rfl s before
        exact ⟨vacant, a, later.grows.action held⟩
      · obtain ⟨vacant, acted⟩ := later.complete done s after
        exact ⟨first.grows.vacant vacant, acted⟩
    · have same := first.idle fun s scope => none s (.inl scope)
      rw [later.idle fun s scope => none s (.inr scope)]
      exact same

theorem of_iff {ran : Except (SolveError σ α) Unit × Ledger σ α ρ × Tally}
    (swept : Swept P config spaces Scope w ran) (same : ∀ s, Scope s ↔ Scope' s) :
    Swept P config spaces Scope' w ran where
  descending := swept.descending
  grows := swept.grows.imp fun s => (same s).1
  complete done s scope := swept.complete done s ((same s).2 scope)
  idle none := swept.idle fun s scope => none s ((same s).1 scope)

theorem nothing (descending : Descending P config spaces w.1) (empty : ∀ s, ¬Scope s) :
    Swept P config spaces Scope w (.ok (), w) :=
  ⟨descending, Grows.of_same fun _ => rfl, fun _ s scope => absurd scope (empty s), fun _ => rfl⟩

-- The step of every pass. Whether the state was decided before is only seen when its decision is
-- entered, so the evaluation comes first in either case.
theorem decide {decision : LedgerM σ α ρ Tally (Decision α ρ)} {s : σ}
    (decides : Ensures (Evaluating P spaces w.1) decision (Actable P spaces w.1 s))
    (descending : Descending P config spaces w.1)
    (later : CompleteAfter config spaces w.1 (P.period s)) :
    Swept P config spaces (· = s) w
      ((do
        let d ← decision
        LedgerM.decide s d
        LedgerM.onContext Tally.addSolved) w) := by
  obtain ⟨evaluated, actable⟩ := decides w ⟨fun _ => rfl, descending.expected⟩
  rcases ran : decision w with ⟨result, l, c⟩
  rw [ran] at evaluated actable
  have same : Grows (· = s) w.1 l := .of_same evaluated.decided
  have between : Descending P config spaces l :=
    descending.of_same evaluated.decided evaluated.expected
  cases result with
  | error e =>
    rw [bind_of_error ran]
    exact ⟨between, same, by rintro ⟨⟩, fun none => absurd rfl (none s)⟩
  | ok d =>
    obtain ⟨⟨x, a, rfl⟩, followed⟩ := actable d rfl
    rw [bind_of_ok ran]
    cases stored : l.decision? s with
    | some d' =>
      rw [bind_of_error (decide_of_stored _ stored)]
      exact ⟨between, same, by rintro ⟨⟩, fun none => absurd rfl (none s)⟩
    | none =>
      rw [bind_of_ok (decide_of_vacant _ stored)]
      refine ⟨between.publish stored (followed.grow same) (later.grow same) x a,
        same.trans (.publish stored x a), ?_, fun none => absurd rfl (none s)⟩
      rintro - s' rfl
      exact ⟨same.vacant stored, a, Ledger.action_publish stored x a⟩

theorem forEach {step : σ → LedgerM σ α ρ Tally Unit} {t : Nat} {xs : List σ}
    (each : ∀ s ∈ xs, ∀ w, Descending P config spaces w.1 → CompleteAfter config spaces w.1 t →
      Swept P config spaces (· = s) w (step s w))
    (descending : Descending P config spaces w.1) (later : CompleteAfter config spaces w.1 t) :
    Swept P config spaces (· ∈ xs) w (LedgerM.forEach step xs w) := by
  induction xs generalizing w with
  | nil => exact .nothing descending fun _ => List.not_mem_nil
  | cons s rest ih =>
    have first := each s List.mem_cons_self w descending later
    refine (first.andThen fun _ => ?_).of_iff fun _ => List.mem_cons.symm
    exact ih (fun s' member => each s' (List.mem_cons_of_mem s member)) first.descending
      (later.grow first.grows)

end Swept

def Between (config : Config ρ) (spaces : List (StateSpace σ)) (t : Nat) (s : σ) : Prop :=
  ∃ u, t ≤ u ∧ u < config.horizon ∧ s ∈ statesOf spaces u

theorem between_succ {left : Nat} (inside : left + 1 ≤ config.horizon) {s : σ} :
    Between config spaces (config.horizon - left) s ∨
        s ∈ statesOf spaces (config.horizon - (left + 1)) ↔
      Between config spaces (config.horizon - (left + 1)) s := by
  constructor
  · rintro (⟨u, above, below, listed⟩ | listed)
    · exact ⟨u, by omega, below, listed⟩
    · exact ⟨_, Nat.le_refl _, by omega, listed⟩
  · rintro ⟨u, above, below, listed⟩
    rcases Nat.eq_or_lt_of_le above with rfl | above
    · exact .inr listed
    · exact .inl ⟨u, by omega, below, listed⟩

section Period

variable {w : Ledger σ α ρ × Tally}

theorem Swept.atHorizon (descending : Descending P config spaces w.1) :
    Swept P config spaces (Between config spaces config.horizon) w (.ok (), w) := by
  refine .nothing descending ?_
  rintro s ⟨u, above, below, -⟩
  omega

theorem Swept.period {left : Nat} (complete : Complete P config spaces)
    (inside : left + 1 ≤ config.horizon) {current : StateSpace σ}
    (found : spaces[config.horizon - (left + 1)]? = some current)
    {later : LedgerM σ α ρ Tally Unit} {step : σ → LedgerM σ α ρ Tally Unit}
    (before : Swept P config spaces (Between config spaces (config.horizon - left)) w (later w))
    (each : ∀ s ∈ current.enumerated, ∀ w, Descending P config spaces w.1 →
      CompleteAfter config spaces w.1 (P.period s) → Swept P config spaces (· = s) w (step s w)) :
    Swept P config spaces (Between config spaces (config.horizon - (left + 1))) w
      ((do
        later
        LedgerM.forEach step current.enumerated) w) := by
  have states : statesOf spaces (config.horizon - (left + 1)) = current.enumerated := by
    rw [statesOf, found]
  have current_swept : (later w).1 = .ok () → Swept P config spaces (· ∈ current.enumerated)
      (later w).2 (LedgerM.forEach step current.enumerated (later w).2) := by
    intro done
    have after : CompleteAfter config spaces (later w).2.1 (config.horizon - (left + 1)) := by
      intro u above below s listed
      obtain ⟨-, a, held⟩ := before.complete done s ⟨u, by omega, below, listed⟩
      exact Ledger.isSolved_of_action held
    refine Swept.forEach (fun s member w descending after => ?_) before.descending after
    have period := (complete.period_of_mem (states ▸ member)).1
    rw [← period] at after
    exact each s member w descending after
  refine (before.andThen current_swept).of_iff fun s => ?_
  rw [← states]
  exact between_succ inside

end Period

section Passes

variable [Scalar ρ] [Scalar.Grounded ρ] {left : Nat} {w : Ledger σ α ρ × Tally}

theorem swept_solveState (complete : Complete P config spaces) {s : σ} {next : StateSpace σ}
    (found : spaces[P.period s + 1]? = some next) (descending : Descending P config spaces w.1)
    (later : CompleteAfter config spaces w.1 (P.period s)) :
    Swept P config spaces (· = s) w (solveState P config next s w) := by
  have decided := Swept.decide (ensures_decision complete found) descending later
  simp only [bind_assoc] at decided
  exact decided

theorem swept_solveIdle (complete : Complete P config spaces) {s : σ} {next : StateSpace σ}
    (found : spaces[P.period s + 1]? = some next) (descending : Descending P config spaces w.1)
    (later : CompleteAfter config spaces w.1 (P.period s)) :
    Swept P config spaces (· = s) w (solveIdle P config next s w) := by
  have decided := Swept.decide (ensures_idle complete found) descending later
  simp only [bind_assoc, pure_bind] at decided
  exact decided

theorem swept_solveDown (complete : Complete P config spaces) (inside : left ≤ config.horizon)
    (descending : Descending P config spaces w.1) :
    Swept P config spaces (Between config spaces (config.horizon - left)) w
      (solveDown P config (spaces.drop (config.horizon - left)) w) := by
  induction left with
  | zero =>
    obtain ⟨last, dropped⟩ := complete.drop_horizon
    rw [Nat.sub_zero, dropped]
    exact .atHorizon descending
  | succ left ih =>
    obtain ⟨current, next, rest, found, following, dropped, droppedNext⟩ :=
      complete.exists_pair inside
    rw [dropped, solveDown, ← droppedNext]
    refine Swept.period complete inside found (ih (by omega)) fun s member w descending later => ?_
    exact swept_solveState complete (following s member) descending later

/-- Every pass that a run makes, to whatever period and of either kind. -/
theorem swept_pass (complete : Complete P config spaces) {target : Nat}
    (inside : target ≤ config.horizon) (approximate : Bool)
    (descending : Descending P config spaces w.1) :
    Swept P config spaces (Between config spaces target) w
      (pass P config approximate (spaces.drop target) w) := by
  obtain ⟨left, fits, rfl⟩ : ∃ left ≤ config.horizon, target = config.horizon - left :=
    ⟨config.horizon - target, Nat.sub_le _ _, by omega⟩
  cases approximate with
  | false => exact swept_solveDown complete fits descending
  | true =>
    rw [pass, if_pos rfl]
    cases left with
    | zero =>
      obtain ⟨last, dropped⟩ := complete.drop_horizon
      rw [Nat.sub_zero, dropped]
      exact .atHorizon descending
    | succ left =>
      obtain ⟨current, next, rest, found, following, dropped, droppedNext⟩ :=
        complete.exists_pair fits
      rw [dropped, solveDownIdle, ← droppedNext]
      have before := swept_solveDown complete (Nat.le_of_succ_le fits) descending
      refine Swept.period complete fits found before fun s member w descending later => ?_
      exact swept_solveIdle complete (following s member) descending later

end Passes

end Backward

end Horizon
