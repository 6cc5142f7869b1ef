import Horizon.Proofs.Passes

/-! A pass as one sequence of states.

`order` lists the states below the horizon as they are decided, later periods first, and a pass over
the periods decides them one after the other (`solveDown_eq_forEach`).
-/

set_option autoImplicit false

namespace Horizon

variable {σ α ρ : Type} [DecidableEq σ] [DecidableEq α]

namespace LedgerM

variable {ω β : Type}

theorem forEach_append (step : β → LedgerM σ α ρ ω Unit) (xs ys : List β) :
    forEach step (xs ++ ys) = (do
      forEach step xs
      forEach step ys) := by
  induction xs with
  | nil => rfl
  | cons x rest ih =>
    rw [List.cons_append, forEach, ih, forEach, bind_assoc]

theorem forEach_congr {step step' : β → LedgerM σ α ρ ω Unit} {xs : List β}
    (each : ∀ x ∈ xs, step x = step' x) : forEach step xs = forEach step' xs := by
  induction xs with
  | nil => rfl
  | cons x rest ih =>
    rw [forEach, forEach, each x List.mem_cons_self,
      ih fun y member => each y (List.mem_cons_of_mem x member)]

end LedgerM

namespace Backward

open LedgerM

variable {P : Problem σ α ρ} {config : Config ρ} {spaces : List (StateSpace σ)} {left : Nat}

/-- The states below the horizon with at most `left` periods left, in the order in which they are
decided. -/
def order (config : Config ρ) (spaces : List (StateSpace σ)) : Nat → List σ
  | 0 => []
  | left + 1 => order config spaces left ++ statesOf spaces (config.horizon - (left + 1))

theorem mem_order {s : σ} (inside : left ≤ config.horizon) :
    s ∈ order config spaces left ↔ Between config spaces (config.horizon - left) s := by
  induction left with
  | zero =>
    refine ⟨fun member => absurd member List.not_mem_nil, ?_⟩
    rintro ⟨t, above, below, -⟩
    omega
  | succ left ih =>
    rw [order, List.mem_append, ih (Nat.le_of_succ_le inside)]
    exact between_succ inside

omit [DecidableEq α] in
-- Later periods come first.
theorem pairwise_order (complete : Complete P config spaces) (inside : left ≤ config.horizon) :
    (order config spaces left).Pairwise fun s s' => P.period s' ≤ P.period s := by
  induction left with
  | zero => exact .nil
  | succ left ih =>
    refine List.pairwise_append.2 ⟨ih (Nat.le_of_succ_le inside), ?_, fun s early s' late => ?_⟩
    · refine List.pairwise_of_forall_mem_list fun s listed s' listed' => ?_
      have same := (complete.period_of_mem listed).1
      exact Nat.le_of_eq ((complete.period_of_mem listed').1.trans same.symm)
    · obtain ⟨t, above, -, listed⟩ := (mem_order (Nat.le_of_succ_le inside)).1 early
      rw [(complete.period_of_mem listed).1, (complete.period_of_mem late).1]
      omega

variable [Scalar ρ]

def solveIn (P : Problem σ α ρ) (config : Config ρ) (spaces : List (StateSpace σ)) (s : σ) :
    LedgerM σ α ρ Tally Unit :=
  match spaces[P.period s + 1]? with
  | some next => solveState P config next s
  | none => pure ()

theorem solveDown_eq_forEach (complete : Complete P config spaces)
    (inside : left ≤ config.horizon) :
    solveDown P config (spaces.drop (config.horizon - left)) =
      forEach (solveIn P config spaces) (order config spaces left) := by
  induction left with
  | zero =>
    obtain ⟨last, dropped⟩ := complete.drop_horizon
    rw [Nat.sub_zero, dropped]
    rfl
  | succ left ih =>
    obtain ⟨current, next, rest, found, following, dropped, droppedNext⟩ :=
      complete.exists_pair inside
    have states : statesOf spaces (config.horizon - (left + 1)) = current.enumerated := by
      rw [statesOf, found]
    have same : forEach (solveIn P config spaces) current.enumerated =
        forEach (solveState P config next) current.enumerated :=
      forEach_congr fun s member => by rw [solveIn, following s member]
    rw [dropped, solveDown, ← droppedNext, ih (Nat.le_of_succ_le inside), order, forEach_append,
      states, same]

end Backward

end Horizon
