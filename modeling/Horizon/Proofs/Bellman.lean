import Horizon.Proofs.Ranking

/-! Values by recursion on the periods left, without a ledger.

`kept` names the outcomes of a state and an action that count; backward and forward recursion
differ in it and in nothing else. `optimal` is the recursion of Bellman on values that are there;
`attempt` is the same recursion with all the ways in which it can fail. `Solvable` says when a
state can be decided, and `attempt_succ_eq_ok_iff` that it is then decided as `optimal` says.
-/

set_option autoImplicit false

namespace Horizon

section Lists

variable {ε β γ : Type}

theorem eq_ok_of_toOption {e : Except ε β} {x : β} (found : e.toOption = some x) : e = .ok x := by
  cases e with
  | error _ => cases found
  | ok _ =>
    cases found
    rfl

theorem exists_ok_of_all {results : List (Except ε β)}
    (all : results.all (fun result => result.toOption.isSome) = true) :
    ∀ result ∈ results, ∃ x, result = .ok x := by
  intro result listed
  have given := List.all_eq_true.1 all result listed
  cases result with
  | ok x => exact ⟨x, rfl⟩
  | error e => cases given

theorem mapM_eq_ok_of_forall {f : β → Except ε γ} {g : β → γ} {xs : List β}
    (each : ∀ x ∈ xs, f x = .ok (g x)) : xs.mapM f = .ok (xs.map g) := by
  induction xs with
  | nil => rfl
  | cons x rest ih =>
    rw [List.mapM_cons, each x List.mem_cons_self,
      ih fun y member => each y (List.mem_cons_of_mem x member)]
    rfl

theorem exists_ok_of_mapM {f : β → Except ε γ} {xs : List β} {ys : List γ}
    (done : xs.mapM f = .ok ys) : ∀ x ∈ xs, ∃ y, f x = .ok y := by
  induction xs generalizing ys with
  | nil => exact fun x member => absurd member List.not_mem_nil
  | cons x rest ih =>
    rw [List.mapM_cons] at done
    cases first : f x with
    | error e =>
      rw [first] at done
      cases done
    | ok y =>
      cases others : rest.mapM f with
      | error e =>
        rw [first, others] at done
        cases done
      | ok zs =>
        intro x' member
        rcases List.mem_cons.1 member with rfl | member
        · exact ⟨y, first⟩
        · exact ih others x' member

theorem exists_mapM_of_exists {f : β → Except ε γ} {xs : List β}
    (each : ∀ x ∈ xs, ∃ y, f x = .ok y) : ∃ ys, xs.mapM f = .ok ys := by
  induction xs with
  | nil => exact ⟨[], rfl⟩
  | cons x rest ih =>
    obtain ⟨y, first⟩ := each x List.mem_cons_self
    obtain ⟨ys, others⟩ := ih fun x' member => each x' (List.mem_cons_of_mem x member)
    rw [List.mapM_cons, first, others]
    exact ⟨y :: ys, rfl⟩

theorem mapM_congr_of_forall {f g : β → Except ε γ} {xs : List β} (each : ∀ x ∈ xs, f x = g x) :
    xs.mapM f = xs.mapM g := by
  induction xs with
  | nil => rfl
  | cons x rest ih =>
    rw [List.mapM_cons, List.mapM_cons, each x List.mem_cons_self,
      ih fun x' member => each x' (List.mem_cons_of_mem x member)]

theorem exists_of_bind_eq_ok {e : Except ε β} {f : β → Except ε γ} {y : γ}
    (done : (e >>= f) = .ok y) : ∃ x, e = .ok x ∧ f x = .ok y := by
  cases e with
  | error _ => cases done
  | ok x => exact ⟨x, rfl, done⟩

section Paired

variable {f : β → Except ε γ} {xs : List β}

theorem mapM_paired {g : β → γ} (each : ∀ x ∈ xs, f x = .ok (g x)) :
    (xs.mapM fun x => do return (x, ← f x)) = .ok (xs.map fun x => (x, g x)) := by
  apply mapM_eq_ok_of_forall
  intro x member
  rw [each x member]
  rfl

theorem exists_ok_of_mapM_paired {ys : List (β × γ)}
    (done : (xs.mapM fun x => do return (x, ← f x)) = .ok ys) : ∀ x ∈ xs, ∃ y, f x = .ok y := by
  intro x member
  obtain ⟨pair, given⟩ := exists_ok_of_mapM done x member
  obtain ⟨y, found, -⟩ := exists_of_bind_eq_ok given
  exact ⟨y, found⟩

end Paired

end Lists

namespace Problem

variable {σ α ρ : Type} [Scalar ρ]

/-- What an action is worth when its outcomes are `finals`: for each outcome its share of the mass
times the immediate value plus the discounted value of the outcome. -/
def expectation (P : Problem σ α ρ) (discount : ρ) (value : σ → ρ) (s : σ) (a : α)
    (finals : List σ) : ρ :=
  let mass := Scalar.total (finals.map (P.probability s a))
  Scalar.total (finals.map fun f =>
    P.probability s a f / mass * (P.immediate s a f + discount * value f))

structure Weighable (P : Problem σ α ρ) (s : σ) (a : α) (finals : List σ) : Prop where
  finite : ∀ f ∈ finals, Scalar.isFinite (P.probability s a f) = true
  nonnegative : ∀ f ∈ finals, Scalar.le 0 (P.probability s a f) = true
  positive : Scalar.le (Scalar.total (finals.map (P.probability s a))) 0 = false

theorem mass_eq_ok_iff {P : Problem σ α ρ} {s : σ} {a : α} {f : σ} {p : ρ} :
    P.mass s a f = .ok p ↔ Scalar.isFinite (P.probability s a f) = true ∧
      Scalar.le 0 (P.probability s a f) = true ∧ p = P.probability s a f := by
  rw [mass, Scalar.isMass]
  cases Scalar.isFinite (P.probability s a f) <;> cases Scalar.le 0 (P.probability s a f) <;>
    simp [eq_comm]

theorem weights_eq_ok_iff {P : Problem σ α ρ} {s : σ} {a : α} {finals : List σ} {ws : List ρ} :
    P.weights s a finals = .ok ws ↔ P.Weighable s a finals ∧
      ws = finals.map fun f =>
        P.probability s a f / Scalar.total (finals.map (P.probability s a)) := by
  constructor
  · intro done
    unfold weights at done
    cases masses : finals.mapM (P.mass s a) with
    | error e =>
      rw [masses] at done
      cases done
    | ok ps =>
      have usable := fun f member => exists_ok_of_mapM masses f member
      have exactly : ps = finals.map (P.probability s a) := by
        have each : ∀ f ∈ finals, P.mass s a f = .ok (P.probability s a f) := by
          intro f member
          obtain ⟨p, held⟩ := usable f member
          rw [held, (mass_eq_ok_iff.1 held).2.2]
        rw [mapM_eq_ok_of_forall each] at masses
        exact (Except.ok.inj masses).symm
      subst exactly
      simp only [masses, bind, Except.bind, pure, Except.pure] at done
      split at done
      · cases done
      · next positive =>
        refine ⟨⟨fun f member => ?_, fun f member => ?_, by simpa using positive⟩, ?_⟩
        · obtain ⟨p, held⟩ := usable f member
          exact (mass_eq_ok_iff.1 held).1
        · obtain ⟨p, held⟩ := usable f member
          exact (mass_eq_ok_iff.1 held).2.1
        · rw [← Except.ok.inj done, List.map_map]
          rfl
  · rintro ⟨weighable, rfl⟩
    have masses : finals.mapM (P.mass s a) = .ok (finals.map (P.probability s a)) :=
      mapM_eq_ok_of_forall fun f member =>
        mass_eq_ok_iff.2 ⟨weighable.finite f member, weighable.nonnegative f member, rfl⟩
    simp only [weights, masses, bind, Except.bind, weighable.positive, Bool.false_eq_true,
      if_false, pure, Except.pure, List.map_map]
    rfl

def term (P : Problem σ α ρ) (discount : ρ) (value : σ → Except (SolveError σ α) ρ) (s : σ) (a : α)
    (f : σ) (w : ρ) : Except (SolveError σ α) ρ := do
  let future ← value f
  return w * (P.immediate s a f + discount * future)

/-- The value of an action, from what is known of the values of its outcomes. The first thing that
is missing makes it fail. -/
def appraise (P : Problem σ α ρ) (discount : ρ) (value : σ → Except (SolveError σ α) ρ) (s : σ)
    (a : α) (finals : List σ) : Except (SolveError σ α) ρ := do
  let weights ← P.weights s a finals
  let terms ← (finals.zip weights).mapM fun x => P.term discount value s a x.1 x.2
  return Scalar.total terms

theorem total_terms (P : Problem σ α ρ) (discount : ρ) (value : σ → ρ) (s : σ) (a : α)
    (finals : List σ) (share : σ → ρ) :
    (finals.zip (finals.map share)).map (fun x =>
        x.2 * (P.immediate s a x.1 + discount * value x.1)) =
      finals.map fun f => share f * (P.immediate s a f + discount * value f) := by
  rw [List.map_zip_eq_zipWith, List.zipWith_map_right, List.zipWith_self]
  rfl

theorem appraise_of_known {P : Problem σ α ρ} {discount : ρ}
    {value : σ → Except (SolveError σ α) ρ} {known : σ → ρ} {s : σ} {a : α} {finals : List σ}
    (each : ∀ f ∈ finals, value f = .ok (known f)) {ws : List ρ}
    (weighed : P.weights s a finals = .ok ws) :
    P.appraise discount value s a finals = .ok (P.expectation discount known s a finals) := by
  have terms : (finals.zip ws).mapM (fun x => P.term discount value s a x.1 x.2) =
      .ok ((finals.zip ws).map fun x => x.2 * (P.immediate s a x.1 + discount * known x.1)) := by
    apply mapM_eq_ok_of_forall
    intro x member
    rw [term, each x.1 (List.of_mem_zip member).1]
    rfl
  simp only [appraise, weighed, bind, Except.bind, terms, pure, Except.pure]
  rw [(weights_eq_ok_iff.1 weighed).2, total_terms]
  rfl

theorem appraise_congr (P : Problem σ α ρ) (discount : ρ)
    {value value' : σ → Except (SolveError σ α) ρ} (s : σ) (a : α) {finals : List σ}
    (each : ∀ f ∈ finals, value f = value' f) :
    P.appraise discount value s a finals = P.appraise discount value' s a finals := by
  rw [appraise, appraise]
  cases P.weights s a finals with
  | error e => rfl
  | ok ws =>
    have terms : (finals.zip ws).mapM (fun x => P.term discount value s a x.1 x.2) =
        (finals.zip ws).mapM fun x => P.term discount value' s a x.1 x.2 := by
      apply mapM_congr_of_forall
      intro x member
      rw [term, term, each x.1 (List.of_mem_zip member).1]
    exact congrArg (· >>= fun terms => pure (Scalar.total terms)) terms

-- An action has a value exactly when the masses of its outcomes can be used.
theorem appraise_eq_ok_iff {P : Problem σ α ρ} {discount : ρ}
    {value : σ → Except (SolveError σ α) ρ} {known : σ → ρ} {s : σ} {a : α} {finals : List σ}
    {x : ρ} (each : ∀ f ∈ finals, value f = .ok (known f)) :
    P.appraise discount value s a finals = .ok x ↔
      P.Weighable s a finals ∧ x = P.expectation discount known s a finals := by
  constructor
  · intro done
    obtain ⟨ws, weighed, -⟩ := exists_of_bind_eq_ok done
    rw [appraise_of_known each weighed] at done
    exact ⟨(weights_eq_ok_iff.1 weighed).1, (Except.ok.inj done).symm⟩
  · rintro ⟨weighable, rfl⟩
    exact appraise_of_known each (weights_eq_ok_iff.2 ⟨weighable, rfl⟩)

/-- The best decision with a number of periods left: the value of the state and the first action
that attains it. A state without actions is left as at the end of the horizon. -/
def optimal (P : Problem σ α ρ) (config : Config ρ) (kept : σ → α → List σ) :
    Nat → σ → Decision α ρ
  | 0, s => ⟨P.terminal s, none⟩
  | left + 1, s =>
    let later := fun f => (optimal P config kept left f).value
    let candidates := (P.actions s).map fun a =>
      (a, P.expectation config.discount later s a (kept s a))
    match firstBest config.direction candidates with
    | some (a, value) => ⟨value, some a⟩
    | none => ⟨P.terminal s, none⟩

def actionValue (P : Problem σ α ρ) (config : Config ρ) (kept : σ → α → List σ) (left : Nat)
    (s : σ) (a : α) : ρ :=
  P.expectation config.discount (fun f => (P.optimal config kept left f).value) s a (kept s a)

/-- The decision with a number of periods left, or the first error on the way to it. -/
def attempt (P : Problem σ α ρ) (config : Config ρ) (kept : σ → α → List σ) :
    Nat → σ → Except (SolveError σ α) (Decision α ρ)
  | 0, s => .ok ⟨P.terminal s, none⟩
  | left + 1, s => do
    let later := fun f => do return (← attempt P config kept left f).value
    let candidates ← (P.actions s).mapM fun a => do
      return (a, ← P.appraise config.discount later s a (kept s a))
    LedgerM.choose config.direction s candidates

def attemptAction (P : Problem σ α ρ) (config : Config ρ) (kept : σ → α → List σ) (left : Nat)
    (s : σ) (a : α) : Except (SolveError σ α) ρ :=
  P.appraise config.discount (fun f => do return (← P.attempt config kept left f).value) s a
    (kept s a)

theorem attempt_succ (P : Problem σ α ρ) (config : Config ρ) (kept : σ → α → List σ) (left : Nat)
    (s : σ) :
    P.attempt config kept (left + 1) s =
      (do
        let candidates ← (P.actions s).mapM fun a => do
          return (a, ← P.attemptAction config kept left s a)
        LedgerM.choose config.direction s candidates) :=
  rfl

-- The induction is on the periods left; `Inside` carries where the recursion may ask.
theorem attempt_congr {P : Problem σ α ρ} {config : Config ρ} {kept kept' : σ → α → List σ}
    (Inside : Nat → σ → Prop)
    (same : ∀ left s, Inside (left + 1) s → ∀ a ∈ P.actions s, kept s a = kept' s a)
    (closed : ∀ left s, Inside (left + 1) s → ∀ a ∈ P.actions s, ∀ f ∈ kept s a, Inside left f)
    (left : Nat) (s : σ) (inside : Inside left s) :
    P.attempt config kept left s = P.attempt config kept' left s := by
  induction left generalizing s with
  | zero => rfl
  | succ left ih =>
    rw [attempt_succ, attempt_succ]
    refine congrArg (· >>= LedgerM.choose config.direction s) (mapM_congr_of_forall ?_)
    intro a feasible
    rw [attemptAction, attemptAction, ← same left s inside a feasible]
    have valued := P.appraise_congr config.discount s a fun f (member : f ∈ kept s a) => by
      show (do return (← P.attempt config kept left f).value) =
        (do return (← P.attempt config kept' left f).value : Except (SolveError σ α) ρ)
      rw [ih f (closed left s inside a feasible f member)]
    rw [valued]

/-- A state below the horizon can be decided: it has an action, and for each of its actions the
masses can be used and the value is a number. -/
structure Solvable (P : Problem σ α ρ) (config : Config ρ) (kept : σ → α → List σ) (left : Nat)
    (s : σ) : Prop where
  feasible : P.actions s ≠ []
  weighable : ∀ a ∈ P.actions s, P.Weighable s a (kept s a)
  number : ∀ a ∈ P.actions s, Scalar.isNaN (P.actionValue config kept left s a) = false

theorem optimal_succ_of_firstBest {P : Problem σ α ρ} {config : Config ρ} {kept : σ → α → List σ}
    {left : Nat} {s : σ} {best : α × ρ}
    (found : firstBest config.direction
      ((P.actions s).map fun a => (a, P.actionValue config kept left s a)) = some best) :
    P.optimal config kept (left + 1) s = ⟨best.2, some best.1⟩ := by
  unfold optimal
  simp only [actionValue] at found
  simp only [found]

section Decided

variable {P : Problem σ α ρ} {config : Config ρ} {kept : σ → α → List σ} {left : Nat} {s : σ}

theorem attemptAction_eq_ok_iff {a : α} {x : ρ}
    (decided : ∀ f ∈ kept s a, P.attempt config kept left f = .ok (P.optimal config kept left f)) :
    P.attemptAction config kept left s a = .ok x ↔
      P.Weighable s a (kept s a) ∧ x = P.actionValue config kept left s a := by
  apply appraise_eq_ok_iff
  intro f member
  rw [decided f member]
  rfl

theorem weighable_of_attempt {d : Decision α ρ}
    (decided : ∀ a ∈ P.actions s, ∀ f ∈ kept s a,
      P.attempt config kept left f = .ok (P.optimal config kept left f))
    (done : P.attempt config kept (left + 1) s = .ok d) :
    ∀ a ∈ P.actions s, P.Weighable s a (kept s a) := by
  intro a feasible
  rw [attempt_succ] at done
  obtain ⟨candidates, valued, -⟩ := exists_of_bind_eq_ok done
  obtain ⟨x, worth⟩ := exists_ok_of_mapM_paired valued a feasible
  exact ((attemptAction_eq_ok_iff (decided a feasible)).1 worth).1

theorem attempt_succ_of_weighable
    (decided : ∀ a ∈ P.actions s, ∀ f ∈ kept s a,
      P.attempt config kept left f = .ok (P.optimal config kept left f))
    (weighable : ∀ a ∈ P.actions s, P.Weighable s a (kept s a)) :
    P.attempt config kept (left + 1) s = LedgerM.choose config.direction s
      ((P.actions s).map fun a => (a, P.actionValue config kept left s a)) := by
  have valued := mapM_paired fun a (feasible : a ∈ P.actions s) =>
    (attemptAction_eq_ok_iff (decided a feasible)).2 ⟨weighable a feasible, rfl⟩
  rw [attempt_succ, valued]
  rfl

variable [Scalar.Ranked ρ]

-- When the outcomes are decided, a state is decided exactly if it can be, and in the best way.
theorem attempt_succ_eq_ok_iff {d : Decision α ρ}
    (decided : ∀ a ∈ P.actions s, ∀ f ∈ kept s a,
      P.attempt config kept left f = .ok (P.optimal config kept left f)) :
    P.attempt config kept (left + 1) s = .ok d ↔
      P.Solvable config kept left s ∧ d = P.optimal config kept (left + 1) s := by
  constructor
  · intro done
    have weighable := weighable_of_attempt decided done
    rw [attempt_succ_of_weighable decided weighable, LedgerM.choose_eq_ok_iff] at done
    obtain ⟨numbers, best, found, rfl⟩ := done
    refine ⟨⟨fun none => ?_, weighable, fun a feasible => ?_⟩, ?_⟩
    · rw [none] at found
      cases found
    · exact numbers (a, _) (List.mem_map_of_mem feasible)
    · exact (optimal_succ_of_firstBest found).symm
  · rintro ⟨solvable, rfl⟩
    rw [attempt_succ_of_weighable decided solvable.weighable, LedgerM.choose_eq_ok_iff]
    refine ⟨fun c member => ?_, ?_⟩
    · obtain ⟨a, feasible, rfl⟩ := List.mem_map.1 member
      exact solvable.number a feasible
    · cases found : firstBest config.direction
          ((P.actions s).map fun a => (a, P.actionValue config kept left s a)) with
      | none => exact absurd (List.map_eq_nil_iff.1 (firstBest_eq_none.1 found)) solvable.feasible
      | some best => exact ⟨best, rfl, optimal_succ_of_firstBest found⟩

-- The decision of a state that can be decided: its value is that of the first best action.
theorem Solvable.isFirstBest (solvable : P.Solvable config kept left s) :
    ∃ a, IsFirstBest config.direction
        ((P.actions s).map fun a => (a, P.actionValue config kept left s a))
        (a, P.actionValue config kept left s a) ∧
      P.optimal config kept (left + 1) s = ⟨P.actionValue config kept left s a, some a⟩ := by
  cases found : firstBest config.direction
      ((P.actions s).map fun a => (a, P.actionValue config kept left s a)) with
  | none => exact absurd (List.map_eq_nil_iff.1 (firstBest_eq_none.1 found)) solvable.feasible
  | some best =>
    have first := isFirstBest_of_firstBest (fun c member => by
      obtain ⟨a, feasible, rfl⟩ := List.mem_map.1 member
      exact solvable.number a feasible) found
    obtain ⟨a, -, rfl⟩ := List.mem_map.1 first.mem
    exact ⟨a, first, optimal_succ_of_firstBest found⟩

end Decided

end Problem

end Horizon
