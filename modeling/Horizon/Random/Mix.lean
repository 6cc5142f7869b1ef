/-! Words made of other words.

A run has one base seed; every place that draws numbers salts it and scrambles the result, so the
draws of different places have nothing in common. `blend` makes one hash of two.
-/

set_option autoImplicit false

namespace Horizon.Random

def scramble (z : UInt64) : UInt64 :=
  let z := (z ^^^ (z >>> 30)) * 0xBF58476D1CE4E5B9
  let z := (z ^^^ (z >>> 27)) * 0x94D049BB133111EB
  z ^^^ (z >>> 31)

def mixSeed (seed salt : UInt64) : UInt64 :=
  scramble (seed ^^^ salt * 0x9E3779B97F4A7C15)

/-- A hash of a pair, from the hashes of its parts. -/
def blend (first second : UInt64) : UInt64 :=
  first * 2654435761 + second

end Horizon.Random
