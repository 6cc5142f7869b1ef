import Horizon.Scalar

/-! The best of several candidates.

Candidates are offered one after the other and the champion is kept: a candidate replaces it when
it is strictly better, so among equals the first one stays. A value that is not a number is
turned away, because it compares with nothing.
-/

set_option autoImplicit false

namespace Horizon

inductive Direction where
  | minimize
  | maximize
  deriving Repr, DecidableEq, Inhabited

@[inline] def Direction.improves {ρ : Type} [Scalar ρ] (direction : Direction)
    (candidate incumbent : ρ) : Bool :=
  match direction with
  | .minimize => Scalar.lt candidate incumbent
  | .maximize => Scalar.lt incumbent candidate

structure Champion (α ρ : Type) where
  direction : Direction
  best : Option (α × ρ)

inductive Verdict where
  | won
  | lost
  | notNumber
  deriving Repr, DecidableEq

namespace Champion

variable {α ρ : Type} [Scalar ρ]

def vacant (direction : Direction) : Champion α ρ :=
  ⟨direction, none⟩

@[specialize] def offer (c : Champion α ρ) (candidate : α) (value : ρ) : Verdict × Champion α ρ :=
  if Scalar.isNaN value then (.notNumber, c)
  else
    match c.best with
    | none => (.won, { c with best := some (candidate, value) })
    | some (_, incumbent) =>
      if c.direction.improves value incumbent then
        (.won, { c with best := some (candidate, value) })
      else (.lost, c)

/-- Offer candidates in turn, up to one whose value is not a number. -/
@[specialize] def offerAll (c : Champion α ρ) : List (α × ρ) → Except α (Champion α ρ)
  | [] => .ok c
  | (candidate, value) :: rest =>
    match c.offer candidate value with
    | (.notNumber, _) => .error candidate
    | (_, c) => c.offerAll rest

end Champion

end Horizon
