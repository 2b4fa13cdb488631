/-
The 32-bit Mersenne twister, `std::mt19937`.

The state is the window of the last 624 words; a draw computes the next
word from three of them and tempers it.
-/
import Mathlib.Data.Nat.Bitwise

namespace ThesisBench.Mersenne

/-- The `i`-th word of a seeded state, after the word `x`. -/
def seedWord (x i : Nat) : Nat := (1812433253 * (x ^^^ (x >>> 30)) + i) % 2 ^ 32

def seedFrom (x : Nat) : Nat → Nat → List Nat
  | 0, _ => []
  | count + 1, i => x :: seedFrom (seedWord x i) count (i + 1)

/-- `seed(value)` -/
def seed (value : Nat) : List Nat := seedFrom (value % 2 ^ 32) 624 1

/-- The word after the window. -/
def twist (window : List Nat) : Nat :=
  let y := (window.getD 0 0 / 2 ^ 31) * 2 ^ 31 + window.getD 1 0 % 2 ^ 31
  window.getD 397 0 ^^^ (y >>> 1) ^^^ (if y % 2 = 1 then 0x9908b0df else 0)

def temper (x : Nat) : Nat :=
  let y := x ^^^ (x >>> 11)
  let y := y ^^^ ((y <<< 7) &&& 0x9d2c5680)
  let y := y ^^^ ((y <<< 15) &&& 0xefc60000)
  y ^^^ (y >>> 18)

/-- `operator()` -/
def next (window : List Nat) : Nat × List Nat :=
  let x := twist window
  (temper x, window.tail ++ [x])

end ThesisBench.Mersenne
