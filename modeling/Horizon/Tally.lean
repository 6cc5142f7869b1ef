/-! Counts of what a solver has done. -/

set_option autoImplicit false

namespace Horizon

structure Tally where
  generated : Nat
  /-- States below the horizon that were decided. -/
  solved : Nat
  reused : Nat
  deriving Repr, DecidableEq

namespace Tally

def zero : Tally := ⟨0, 0, 0⟩

def addGenerated (t : Tally) (count : Nat) : Tally :=
  { t with generated := t.generated + count }

def addSolved (t : Tally) : Tally :=
  { t with solved := t.solved + 1 }

def addReused (t : Tally) : Tally :=
  { t with reused := t.reused + 1 }

end Tally

structure Statistics where
  generated : Nat
  solved : Nat
  reused : Nat
  evaluations : Nat
  deriving Repr, DecidableEq

end Horizon
