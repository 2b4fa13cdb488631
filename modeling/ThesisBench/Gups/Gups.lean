/-
Random table updates, `sources/gups/gups.c` compiled with OpenMP.

# Numbers

Table words and generator states are 64-bit words. Counts and offsets
are natural numbers; where one becomes the `int64_t` argument of
`HPCC_starts` it passes through 64 bits, and from 2^63 on it arrives
negative.

# The loop

Every thread runs 128 streams of the generator, each from its own
start, and applies every value it produces to two places of the table
by an atomic xor. A thread is the list of its atomic steps, and the
program's run is any interleaving of the threads.
-/
import ThesisBench.Lib.Interleave
import ThesisBench.Lib.XorLinear

namespace ThesisBench.Gups

open Interleave XorLinear

-- ======================================================== the generator

/-- `uint64_t` -/
abbrev Word := BitVec 64

def poly : Word := 7

def period : Nat := 1317624576693539401

/-- `(r << 1) ^ ((int64_t) r < 0 ? POLY : 0)` -/
def step (r : Word) : Word := (r <<< 1) ^^^ (if r.msb then poly else 0)

/-- `while (n < 0) n += PERIOD;` An `int64_t` needs eight rounds at
most. -/
def addPeriods : Nat → Int → Int
  | 0, n => n
  | k + 1, n => if n < 0 then addPeriods k (n + period) else n

/-- `while (n > PERIOD) n -= PERIOD;` -/
def subPeriods : Nat → Int → Int
  | 0, n => n
  | k + 1, n => if period < n then subPeriods k (n - period) else n

/-- The loop that fills `m2`. -/
def fillM2 : Nat → Word → List Word
  | 0, _ => []
  | k + 1, temp => temp :: fillM2 k (step (step temp))

/-- `for (i=62; i>=0; i--) if ((n >> i) & 1) break;` from `i - 1` down;
0 stands for a loop that found none, which like bit 0 leaves nothing to
do. -/
def topBit (n : Nat) : Nat → Nat
  | 0 => 0
  | i + 1 => if n.testBit i then i else topBit n i

/-- The square-and-multiply loop, `i` bits left. -/
def powLoop (n : Nat) (m2 : List Word) : Nat → Word → Word
  | 0, ran => ran
  | i + 1, ran =>
      let temp := spread ran 0 m2 0
      powLoop n m2 i (if n.testBit i then step temp else temp)

/-- `HPCC_starts` -/
def hpccStarts (n : Int) : Word :=
  let n := subPeriods 8 (addPeriods 8 n)
  if n = 0 then 1
  else powLoop n.toNat (fillM2 64 1) (topBit n.toNat 63) 2

/-- `while (test(x)) x = body(x);`, nothing if `fuel` rounds do not end
it. -/
def whileIn {α : Type} (test : α → Bool) (body : α → α) : Nat → α → Option α
  | 0, x => if test x then none else some x
  | fuel + 1, x => if test x then whileIn test body fuel (body x) else some x

/-- `HPCC_starts` with both of its open loops held to `fuel` rounds. -/
def hpccStartsIn (fuel : Nat) (n : Int) : Option Word := do
  let n ← whileIn (fun n : Int => n < 0) (fun n => n + period) fuel n
  let n ← whileIn (fun n : Int => (period : Int) < n) (fun n => n - period) fuel n
  some (if n = 0 then 1
    else powLoop n.toNat (fillM2 64 1) (topBit n.toNat 63) 2)

-- ============================================================= the loop

/-- What `real_main` makes of the requested number of updates. -/
def roundNupdate (nupdate : Nat) : Nat :=
  if nupdate % 128 ≠ 0 then
    let nupdate := nupdate / 128 * 128
    if nupdate = 0 then 128 else nupdate
  else nupdate

/-- `uint64_t` read as `int64_t`. -/
def toInt64 (a : Nat) : Int := (BitVec.ofNat 64 a).toInt

/-- The starts of a thread's 128 streams. -/
def startRan (nupdate nth tid : Nat) : List Word :=
  let updatesPerThread := nupdate / nth
  let startUpdate := tid * updatesPerThread
  (List.range 128).map fun j =>
    hpccStarts (toInt64 (startUpdate + (updatesPerThread / 128) * j))

/-- The values of `k` rounds over the streams, in order. -/
def rounds : Nat → List Word → List Word
  | 0, _ => []
  | k + 1, ran => ran.map step ++ rounds k (ran.map step)

/-- The values a thread applies. -/
def threadValues (nupdate nth tid : Nat) : List Word :=
  rounds (nupdate / nth / 128) (startRan nupdate nth tid)

/-- An atomic `Table[elm] ^= value`. -/
structure Update where
  elm : Nat
  value : Word
  deriving DecidableEq, Repr

/-- The two updates of one value. -/
def updates (tableSize : Nat) (r : Word) : List Update :=
  [⟨r.toNat % tableSize, r⟩, ⟨tableSize - 1 - r.toNat % tableSize, r⟩]

abbrev Table := Nat → Word

/-- `Table[i] = i;` -/
def initTable : Table := fun i => BitVec.ofNat 64 i

def Update.apply (t : Table) (u : Update) : Table :=
  fun i => if i = u.elm then t i ^^^ u.value else t i

/-- A table the parallel loop can end with. -/
def Runs (tableSize nupdate nth : Nat) (t : Table) : Prop :=
  ∃ s, Interleaves ((List.range nth).map fun tid =>
      (threadValues nupdate nth tid).flatMap (updates tableSize)) s
    ∧ t = s.foldl Update.apply initTable

/-- The number printed as `gups_updates`. -/
def gupsUpdates (nupdate : Nat) : Nat := nupdate

-- ======================================================= what it is for

/-- `step^1(1)`, ..., `step^nupdate(1)` -/
def stream (nupdate : Nat) : List Word :=
  (List.range nupdate).map fun k => step^[k + 1] 1

/-- The loop applies the values of the generator, each once, whatever
the threads do; the table is then the same for any number of them. -/
structure Exact (nupdate nth : Nat) : Prop where
  values : ((List.range nth).flatMap (threadValues nupdate nth)).Perm
    (stream nupdate)
  table : ∀ k t, Runs (2 ^ k) nupdate nth t →
    t = ((stream nupdate).flatMap (updates (2 ^ k))).foldl Update.apply initTable
  reported : gupsUpdates nupdate
    = ((List.range nth).flatMap (threadValues nupdate nth)).length

/-- The length of one stream. -/
def streamLength (nupdate nth : Nat) : Nat := nupdate / (128 * nth)

/-- The first stream start that does not fit `int64_t`. -/
def firstWrapped (nupdate nth : Nat) : Nat :=
  let q := streamLength nupdate nth
  q * ((2 ^ 63 + q - 1) / q)

/-- The streams divide the updates evenly, and every start fits
`int64_t` or the misplaced ones make up whole periods. -/
def Divides (nupdate nth : Nat) : Prop :=
  128 * nth ∣ nupdate
    ∧ (nupdate - streamLength nupdate nth < 2 ^ 63
      ∨ period ∣ nupdate - firstWrapped nupdate nth)

end ThesisBench.Gups
