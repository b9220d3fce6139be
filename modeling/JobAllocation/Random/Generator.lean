import JobAllocation.Arithmetic
import JobAllocation.Random.ChaCha

/-!
# Seeded draws

A generator is a key stream and a place in it. Seeds that differ in one bit give unrelated keys,
because the key words are drawn from a permuted congruential sequence that starts at the seed.

A draw below a bound multiplies a word by the bound and takes the high half. Where the low half is
so close to its end that the next word could carry, that word decides. So most draws use one word
and a few use two.
-/
namespace JobAllocation

structure Generator where
  key : ChaCha.Key
  /-- How many words have been used. -/
  place : Nat

namespace Generator

/-- The next state of the sequence from which keys are drawn. -/
def advanceSeed (state : UInt64) : UInt64 := state * 6364136223846793005 + 11634580027462260723

/-- The key word that a state of the sequence gives. -/
def keyWord (state : UInt64) : UInt32 :=
  let x := (((state >>> 18) ^^^ state) >>> 27).toUInt32
  let turn := (state >>> 59).toUInt32
  (x >>> turn) ||| (x <<< (32 - turn))

/-- The generator of a seed. -/
def ofSeed (seed : Nat) : Generator where
  key := Vector.ofFn fun i => keyWord (Nat.repeat advanceSeed (i.val + 1) (UInt64.ofNat seed))
  place := 0

/-- The next word, as a number below 2^32. -/
def next (g : Generator) : Nat × Generator :=
  ((ChaCha.word g.key g.place).toNat, { g with place := g.place + 1 })

/-- A number below `bound`. -/
def below (bound : Nat) (g : Generator) : Nat × Generator :=
  let (x, g) := g.next
  let product := x * bound
  let high := product / 2 ^ 32
  let low := product % 2 ^ 32
  if 2 ^ 32 - bound < low then
    let (y, g) := g.next
    if 2 ^ 32 ≤ low + y * bound / 2 ^ 32 then (high + 1, g) else (high, g)
  else
    (high, g)

end Generator
end JobAllocation
