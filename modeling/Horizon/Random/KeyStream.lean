/-! Uniform random numbers from a ChaCha key stream of twelve rounds.

A seed of 64 bits is expanded to a key of eight words. The stream is the concatenation of the
blocks 0, 1, 2, … of that key, read as words of 32 bits. A draw below a bound multiplies a word of
64 bits by the bound and keeps the high half; words whose low half falls into the incomplete last
part of the range are drawn again.
-/

set_option autoImplicit false

namespace Horizon.Random

abbrev Words (n : Nat) := Vector UInt32 n

def rotateLeft (x : UInt32) (count : UInt32) : UInt32 :=
  (x <<< count) ||| (x >>> (32 - count))

def quarterRound (a b c d : Fin 16) (v : Words 16) : Words 16 :=
  let va := v[a] + v[b]
  let vd := rotateLeft (v[d] ^^^ va) 16
  let vc := v[c] + vd
  let vb := rotateLeft (v[b] ^^^ vc) 12
  let va := va + vb
  let vd := rotateLeft (vd ^^^ va) 8
  let vc := vc + vd
  let vb := rotateLeft (vb ^^^ vc) 7
  (((v.set a va).set b vb).set c vc).set d vd

def doubleRound (v : Words 16) : Words 16 :=
  let v := quarterRound 3 7 11 15 (quarterRound 2 6 10 14 (quarterRound 1 5 9 13
    (quarterRound 0 4 8 12 v)))
  quarterRound 3 4 9 14 (quarterRound 2 7 8 13 (quarterRound 1 6 11 12
    (quarterRound 0 5 10 15 v)))

def blockInput (key : Words 8) (counter : UInt64) : Words 16 :=
  #v[0x61707865, 0x3320646e, 0x79622d32, 0x6b206574,
    key[0], key[1], key[2], key[3], key[4], key[5], key[6], key[7],
    counter.toUInt32, (counter >>> 32).toUInt32, 0, 0]

def block (key : Words 8) (counter : UInt64) : Words 16 :=
  let input := blockInput key counter
  let output := Nat.repeat doubleRound 6 input
  Vector.zipWith (· + ·) output input

def expandStep (s : UInt64) : UInt64 :=
  s * 6364136223846793005 + 11634580027462260723

def expandOutput (s : UInt64) : UInt32 :=
  let x := (((s >>> 18) ^^^ s) >>> 27).toUInt32
  let count := (s >>> 59).toUInt32
  (x >>> count) ||| (x <<< (32 - count))

def expandSeed (seed : UInt64) : Words 8 :=
  Vector.ofFn fun i => expandOutput (Nat.repeat expandStep (i + 1) seed)

/-- A key stream from some word on: the words left of the last block, and the next counter. -/
structure KeyStream where
  key : Words 8
  counter : UInt64
  pending : List UInt32

def KeyStream.ofSeed (seed : UInt64) : KeyStream :=
  ⟨expandSeed seed, 0, []⟩

def joinWords (low high : UInt32) : UInt64 :=
  low.toUInt64 ||| (high.toUInt64 <<< 32)

/-- The next two words, the lower one first. Words come in pairs, so a block is used up exactly. -/
def KeyStream.next (s : KeyStream) : UInt64 × KeyStream :=
  match s.pending with
  | low :: high :: rest => (joinWords low high, { s with pending := rest })
  | _ =>
    let words := block s.key s.counter
    (joinWords words[0] words[1],
      { s with counter := s.counter + 1, pending := words.toList.drop 2 })

/-- The greatest low half that a draw below `bound` accepts. -/
def acceptanceZone (bound : Nat) : Nat :=
  bound <<< (63 - bound.log2) - 1

/-- A number below `bound`. At least every second word is accepted, so `fuel` is for the proof that
the search ends. -/
def KeyStream.below (bound : Nat) : Nat → KeyStream → Nat × KeyStream
  | 0, s =>
    let (word, s) := s.next
    (word.toNat * bound / UInt64.size, s)
  | fuel + 1, s =>
    let (word, s) := s.next
    let product := word.toNat * bound
    if product % UInt64.size ≤ acceptanceZone bound then (product / UInt64.size, s)
    else KeyStream.below bound fuel s

def KeyStream.draws (bound : Nat) : Nat → KeyStream → List Nat
  | 0, _ => []
  | count + 1, s =>
    let (n, s) := s.below bound 1024
    n :: s.draws bound count

end Horizon.Random
