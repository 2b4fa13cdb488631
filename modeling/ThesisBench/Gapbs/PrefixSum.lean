/-
The prefix sums of `sources/gapbs/src/builder.h`, slot by slot.

`PrefixSum` is one loop. `ParallelPrefixSum` goes over the degrees
twice: a parallel loop adds up every block, a serial one makes the block
sums into the totals before the blocks, and a second parallel loop scans
every block again, from that total on. The writes of a parallel loop
come in some order. Nothing is read that was not written, and every
access is checked.
-/
import ThesisBench.Gapbs.Builder

namespace ThesisBench.Gapbs

open Slots

/-- `PrefixSum` -/
def prefixSum (degrees : List Int) : Option (List Int) := do
  let (sums, total) ← (List.range degrees.length).foldlM
    (fun (st : List (Option Int) × Int) (n : Nat) => do
      let sums ← write st.1 n (some st.2)
      let d ← degrees[n]?
      pure (sums, st.2 + d))
    (List.replicate (degrees.length + 1) none, 0)
  let sums ← write sums degrees.length (some total)
  sums.mapM id

/-- `block_end` -/
def blockEnd (blockSize : Nat) (degrees : List Int) (block : Nat) : Nat :=
  min ((block + 1) * blockSize) degrees.length

/-- The loop that adds up `count` degrees from the `i`-th on. -/
def addUp (degrees : List Int) : Nat → Nat → Int → Option Int
  | _, 0, lsum => some lsum
  | i, count + 1, lsum => do
      let d ← degrees[i]?
      addUp degrees (i + 1) count (lsum + d)

/-- What the first loop writes to `local_sums[block]`. -/
def localSum (blockSize : Nat) (degrees : List Int) (block : Nat) : Option (Int × Int) := do
  let lsum ← addUp degrees (block * blockSize)
    (blockEnd blockSize degrees block - block * blockSize) 0
  pure (block, lsum)

/-- The writes to `prefix` of `count` degrees from the `i`-th on. -/
def rescan (degrees : List Int) : Nat → Nat → Int → Option (List (Int × Int))
  | _, 0, _ => some []
  | i, count + 1, localTotal => do
      let d ← degrees[i]?
      let rest ← rescan degrees (i + 1) count (localTotal + d)
      pure ((i, localTotal) :: rest)

/-- The writes of the second parallel loop for one block. -/
def rescanBlock (blockSize : Nat) (degrees bulk : List Int) (block : Nat) :
    Option (List (Int × Int)) := do
  let localTotal ← bulk[block]?
  rescan degrees (block * blockSize)
    (blockEnd blockSize degrees block - block * blockSize) localTotal

/-- `ParallelPrefixSum`, whose blocks have `blockSize` degrees; `w` and
`w'` are the orders of the two parallel loops' writes. The loop between
them is that of `PrefixSum`. -/
def ParallelPrefixSum (blockSize : Nat) (degrees : List Int) (out : Option (List Int)) :
    Prop :=
  let blocks := List.range (numBlocks blockSize degrees)
  match blocks.mapM (localSum blockSize degrees) with
  | none => out = none
  | some sums => ∃ w, w.Perm sums ∧
      match (storeAll (List.replicate blocks.length none) w).bind fun localSums =>
        (localSums.mapM id).bind prefixSum with
      | none => out = none
      | some bulk =>
          match blocks.mapM (rescanBlock blockSize degrees bulk) with
          | none => out = none
          | some writes => ∃ w', w'.Perm writes.flatten ∧ out = do
              let sums ← storeAll (List.replicate (degrees.length + 1) none) w'
              let total ← bulk[numBlocks blockSize degrees]?
              let sums ← write sums degrees.length (some total)
              sums.mapM id

end ThesisBench.Gapbs
