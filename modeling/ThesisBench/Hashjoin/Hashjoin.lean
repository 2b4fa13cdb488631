/-
The hash join of `sources/hashjoin/src/hashjoin.c`.

Keys and counters are 64-bit words, sizes and subscripts natural numbers.
`htelms`, `hashtable` and `table` are arrays that `allocate` has zeroed.
It is given a number of bytes, a product in `size_t`, so an array may
have fewer elements than were asked for (`room`); an access outside has
no result. A `struct htelm *` is the subscript of the element it points
to, or NULL. `MurmurHash3_x64_128` is a parameter, the two words it
leaves for a key: nothing here depends on which they are.

The OpenMP loop gives every thread some of the iterations and a private
counter; the counters are added up at the end of the pass. Which thread
gets which iterations, and in which order they are added, is free, and
may change from pass to pass.
-/
import ThesisBench.Lib.Linked
import Mathlib.Algebra.Ring.Nat
import Mathlib.Data.Finset.Card

namespace ThesisBench.Hashjoin

/-- `uint64_t` and `size_t` -/
abbrev Word := BitVec 64

/-- `MurmurHash3_x64_128` of a key with `CONFIG_RAND_SEED`. -/
abbrev Murmur := Word → Word × Word

-- ================================================================ build

/-- `struct htelm` -/
structure Htelm where
  key : Word
  next : Option Nat
deriving DecidableEq, Repr

/-- The memory the build loop works on. -/
structure Memory where
  htelms : List Htelm
  hashtable : List (Option Nat)
  nconflicts : Word
deriving DecidableEq, Repr

/-- How many elements of `size` bytes are in the memory that
`allocate(.., n * size, ..)` gives. -/
def room (n size : Nat) : Nat := n * size % 2 ^ 64 / size

/-- The two zeroed arrays. -/
def Memory.allocated (hashsize innersize : Nat) : Memory :=
  ⟨List.replicate (room innersize 16) ⟨0, none⟩, List.replicate (room hashsize 8) none, 0⟩

/-- `hash` -/
def hash (murmur : Murmur) (key : Word) : Word := (murmur key).1

/-- `(i + 1) * CONFIG_INNER_KEY_STRIDE` -/
def innerKey (i : Nat) : Word := BitVec.ofNat 64 (i + 1) * 4

/-- `hash(key) % hashsize` -/
def bucketOf (murmur : Murmur) (hashsize : Nat) (key : Word) : Nat :=
  (hash murmur key).toNat % hashsize

/-- The body of the build loop. -/
def insertElement (murmur : Murmur) (hashsize : Nat) (m : Memory) (i : Nat) : Option Memory := do
  let key := innerKey i
  let idx := bucketOf murmur hashsize key
  let head ← m.hashtable[idx]?
  if i < m.htelms.length then
    some
      { htelms := m.htelms.set i ⟨key, head⟩
        hashtable := m.hashtable.set idx (some i)
        nconflicts := m.nconflicts + if head.isSome then 1 else 0 }
  else none

/-- The build loop. -/
def build (murmur : Murmur) (hashsize innersize : Nat) : Option Memory :=
  (List.range innersize).foldlM (insertElement murmur hashsize)
    (Memory.allocated hashsize innersize)

/-- `table[i].key = i` -/
def fillElement (table : List Word) (i : Nat) : Option (List Word) :=
  if i < table.length then some (table.set i (BitVec.ofNat 64 i)) else none

/-- The keys of the outer table, of elements of 128 bytes. -/
def fillTable (outersize : Nat) : Option (List Word) :=
  (List.range outersize).foldlM fillElement (List.replicate (room outersize 128) 0)

/-- `htelms[i]` -/
def Memory.elem (m : Memory) (i : Nat) : Htelm := m.htelms.getD i ⟨0, none⟩

/-- `hashtable[b]` -/
def Memory.head (m : Memory) (b : Nat) : Option Nat := m.hashtable.getD b none

/-- Where an element points. -/
def Memory.next (m : Memory) (i : Nat) : Option Nat := (m.elem i).next

-- ================================================================ probe

/-- One `while (e)` loop; nothing if it has not ended after `fuel`
rounds. -/
def probeChain (m : Memory) (fuel : Nat) (key : Word) (e : Option Nat) : Option Bool :=
  Linked.search m.next (fun i => (m.elem i).key == key) fuel e

/-- The body of the probe loop. -/
def probe (murmur : Murmur) (hashsize : Nat) (m : Memory) (table : List Word) (fuel : Nat)
    (count : Word) (i : Nat) : Option Word := do
  let key ← table[i]?
  let hash := murmur key
  let e ← m.hashtable[hash.1.toNat % hashsize]?
  let found ← probeChain m fuel key e
  let count := if found then count + 1 else count
  let e ← m.hashtable[hash.2.toNat % hashsize]?
  let found ← probeChain m fuel key e
  some (if found then count + 1 else count)

/-- A thread's iterations, counted from 0. -/
def probeThread (murmur : Murmur) (hashsize : Nat) (m : Memory) (table : List Word) (fuel : Nat)
    (iterations : List Nat) : Option Word :=
  iterations.foldlM (probe murmur hashsize m table fuel) 0

/-- One pass over the outer table: every thread's iterations, and the sum of
the private counters. -/
def probePass (murmur : Murmur) (hashsize : Nat) (m : Memory) (table : List Word) (fuel : Nat)
    (split : List (List Nat)) (count : Word) : Option Word := do
  let counts ← split.mapM (probeThread murmur hashsize m table fuel)
  some (counts.foldl (· + ·) count)

/-- The loop over `j`, with the split of each pass. -/
def probeAll (murmur : Murmur) (hashsize : Nat) (m : Memory) (table : List Word) (fuel : Nat)
    (splits : List (List (List Nat))) : Option Word :=
  splits.foldlM (fun count split => probePass murmur hashsize m table fuel split count) 0

/-- `nlookups` passes, each of which runs every iteration once. -/
structure Splits (nlookups outersize : Nat) where
  passes : List (List (List Nat))
  length : passes.length = nlookups
  each : ∀ split ∈ passes, split.flatten.Perm (List.range outersize)

-- ======================================================= what it is for

/-- The inner elements of a bucket, newest first. -/
def bucket (murmur : Murmur) (hashsize innersize b : Nat) : List Nat :=
  (List.range innersize).reverse.filter fun i =>
    bucketOf murmur hashsize (innerKey i) = b

/-- A key of the outer table. -/
def outerKey (i : Nat) : Word := BitVec.ofNat 64 i

/-- The matches of one outer key: none if no inner element has it, else one,
and another if both hash values lead to the same bucket. -/
def matchesOf (murmur : Murmur) (hashsize innersize i : Nat) : Nat :=
  if ∃ k < innersize, i = 4 * (k + 1) then
    1 + if (murmur (outerKey i)).2.toNat % hashsize
        = (murmur (outerKey i)).1.toNat % hashsize then 1 else 0
  else 0

/-- The number of buckets with an element. -/
def Memory.occupied (m : Memory) (hashsize : Nat) : Nat :=
  ((Finset.range hashsize).filter fun b => m.head b ≠ none).card

/-- The build partitions the inner elements into finite chains, newest
first, and counts the conflicts; the probes end with the number of matches
modulo 2^64, for any split of the passes among threads. -/
structure Joined (murmur : Murmur) (hashsize nlookups outersize innersize : Nat)
    (m : Memory) (table : List Word) : Prop where
  chains : ∀ b < hashsize, ∃ e, m.hashtable[b]? = some e
    ∧ Linked.Chain m.next e (bucket murmur hashsize innersize b)
  conflicts : m.nconflicts.toNat = innersize - m.occupied hashsize
  counts : ∀ splits : Splits nlookups outersize, ∃ fuel,
    probeAll murmur hashsize m table fuel splits.passes
      = some (BitVec.ofNat 64 (nlookups
        * ((List.range outersize).map (matchesOf murmur hashsize innersize)).sum))

/-- The loops get through, and have joined the tables. -/
def Joins (murmur : Murmur) (hashsize nlookups outersize innersize : Nat) : Prop :=
  ∃ m table, build murmur hashsize innersize = some m ∧ fillTable outersize = some table
    ∧ Joined murmur hashsize nlookups outersize innersize m table

end ThesisBench.Hashjoin
