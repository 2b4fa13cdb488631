/-
Random vertices: `UniDist` of `sources/gapbs/src/generator.h`, for
32-bit ids.

The raw values come from a generator whose greatest value is `rngMax`:
`2 ^ 32 - 1` for `std::mt19937`, which the `Generator` of edges uses, and
`2 ^ 64 - 1` for `std::mt19937_64`, which the `SourcePicker` uses. The
fields are unsigned 32-bit integers, and so is the raw value once it is
stored in `rand_num`.
-/
import ThesisBench.Gapbs.Graph
import Mathlib.Data.Finset.Range
import Mathlib.Data.Finset.Card

namespace ThesisBench.Gapbs

/-- Conversion to `uNodeID_`. -/
def uint32 (x : Nat) : Nat := x % 2 ^ 32

structure UniDist where
  noMod : Bool
  mod : Nat
  cutoff : Nat
  deriving DecidableEq, Repr

namespace UniDist

/-- The constructor; `max_value` is not negative. -/
def make (rngMax maxValue : Nat) : UniDist :=
  let mod := uint32 (maxValue + 1)
  let remainderSub1 := uint32 (rngMax % mod)
  { noMod := rngMax = uint32 maxValue
    mod
    cutoff :=
      if remainderSub1 = uint32 (mod + (2 ^ 32 - 1)) then 0
      else uint32 (rngMax - remainderSub1) }

variable (d : UniDist)

/-- Whether `operator()` stops with this `rand_num`. -/
def accepts (randNum : Nat) : Bool :=
  d.noMod || d.cutoff = 0 || randNum < d.cutoff

/-- What it returns then, as a `NodeID_`. -/
def result (randNum : Nat) : Int :=
  int32 (if d.noMod then randNum else (randNum % d.mod : Nat))

/-- `operator()`, with a bound on the values drawn: the result, and the
state of the generator after it. -/
def draw {ρ : Type} (rng : ρ → Nat × ρ) : Nat → ρ → Option (Int × ρ)
  | 0, _ => none
  | fuel + 1, state =>
      let (raw, state) := rng state
      if d.accepts (uint32 raw) then some (d.result (uint32 raw), state)
      else draw rng fuel state

/-- The raw values that are accepted and mapped to `v`. -/
def preimages (v : Int) : Finset Nat :=
  (Finset.range (2 ^ 32)).filter fun randNum => d.accepts randNum = true ∧ d.result randNum = v

/-- Every result below `n` comes from as many raw values, and no other
result from any. -/
structure Uniform (n : Nat) : Prop where
  card : ∀ v w : Nat, v < n → w < n → (d.preimages v).card = (d.preimages w).card
  inside : ∀ randNum < 2 ^ 32, d.accepts randNum = true →
    0 ≤ d.result randNum ∧ d.result randNum < n

end UniDist

end ThesisBench.Gapbs
