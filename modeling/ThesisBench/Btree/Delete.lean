/-
Deletion from the B+ tree of `sources/btree/btree.c`: `delete`,
`delete_entry` and the merge and borrow machinery under it.

`get_neighbor_index` answers the index of the left sibling and `-1`
when there is none; the C value is `(uint64_t) -1`, which no index
reaches, so an integer carries it. As in Insert.lean, the function that
ends a level's work (`coalesce_nodes`) takes the recursion it calls as
an argument.
-/
import ThesisBench.Btree.Insert

namespace ThesisBench.Btree

open CArray

/-- The recursive call `delete_entry(root, n, key, pointer)`. -/
abbrev DeleteEntry :=
  Heap → NodeId → NodeId → U64 → Ptr → Except Fault (Option NodeId × Heap)

/-- `get_neighbor_index` -/
def getNeighborIndex (h : Heap) (n : NodeId) : Except Fault Int := do
  let parent ← deref (h.nodes n).parent
  let i ← chk (scanWhile (fun p => decide (p ≠ .node n))
    (h.nodes parent).pointers 0 ((h.nodes parent).numKeys + 1))
  if i ≤ (h.nodes parent).numKeys then .ok ((i : Int) - 1)
  else .error .exitFailure

/-- The ghost side of `remove_entry_from_node`: count a removal one of
whose scans stopped outside the entries in use. -/
def Heap.noteStale (h : Heap) (stale : Bool) : Heap :=
  if stale then { h with misses := h.misses + 1 } else h

/-- `remove_entry_from_node`: both scans are unbounded in the source. -/
def removeEntryFromNode (order : Nat) (h : Heap) (n : NodeId) (key : U64)
    (pointer : Ptr) : Except Fault Heap := do
  let nd := h.nodes n
  let i ← chk (scanFor (fun k => decide (k = key)) nd.keys)
  let keys ← chk (shiftDown nd.keys i (nd.numKeys - (i + 1)))
  let numPointers := if nd.isLeaf then nd.numKeys else nd.numKeys + 1
  let j ← chk (scanFor (fun p => decide (p = pointer)) nd.pointers)
  let pointers ← chk (shiftDown nd.pointers j (numPointers - (j + 1)))
  let numKeys := nd.numKeys - 1
  let pointers ←
    if nd.isLeaf then chk (fill pointers .null numKeys (order - 1 - numKeys))
    else chk (fill pointers .null (numKeys + 1) (order - (numKeys + 1)))
  let h := h.noteStale (decide (nd.numKeys ≤ i) || decide (numPointers ≤ j))
  .ok (h.setNode n
    { nd with keys := keys, pointers := pointers, numKeys := numKeys })

/-- `adjust_root` -/
def adjustRoot (h : Heap) (root : NodeId) :
    Except Fault (Option NodeId × Heap) :=
  if 0 < (h.nodes root).numKeys then .ok (some root, h)
  else if (h.nodes root).isLeaf then .ok (none, freeNode h root)
  else do
    let p ← chk (h.nodes root).pointers[0]?
    let newRoot ← asNode p
    .ok (some newRoot, freeNode (h.setParent newRoot none) root)

/-- The first half of `coalesce_nodes`: pour node `n` into its left
neighbour. -/
def pour (order : Nat) (h : Heap) (n neighbor : NodeId) (kPrime : U64) :
    Except Fault Heap :=
  let nd := h.nodes n
  let nb := h.nodes neighbor
  let insertionIndex := nb.numKeys
  if nd.isLeaf then do
    let keys ← chk (copy nd.keys 0 nb.keys insertionIndex nd.numKeys)
    let pointers ← chk (copy nd.pointers 0 nb.pointers insertionIndex
      nd.numKeys)
    let chain ← chk nd.pointers[order - 1]?
    let pointers ← chk (put pointers (order - 1) chain)
    .ok (h.setNode neighbor
      { nb with keys := keys, pointers := pointers
                numKeys := nb.numKeys + nd.numKeys })
  else do
    let keys ← chk (put nb.keys insertionIndex kPrime)
    let keys ← chk (copy nd.keys 0 keys (insertionIndex + 1) nd.numKeys)
    let pointers ← chk (copy nd.pointers 0 nb.pointers
      (insertionIndex + 1) nd.numKeys)
    let last ← chk nd.pointers[nd.numKeys]?
    let pointers ← chk (put pointers (insertionIndex + 1 + nd.numKeys) last)
    let h := h.setNode neighbor
      { nb with keys := keys, pointers := pointers
                numKeys := nb.numKeys + 1 + nd.numKeys }
    let h := h.setNode n { nd with numKeys := 0 }
    adoptChildren h neighbor 0 (nb.numKeys + 1 + nd.numKeys + 1)

/-- `coalesce_nodes`: pour the right node of the pair into the left one,
remove the separator and the right node's pointer from the parent, then
release the right node. -/
def coalesceNodes (order : Nat) (deleteEntry : DeleteEntry) (h : Heap)
    (root n neighbor : NodeId) (neighborIndex : Int) (kPrime : U64) :
    Except Fault (Option NodeId × Heap) := do
  let (n, neighbor) := if neighborIndex = -1 then (neighbor, n) else (n, neighbor)
  let h ← pour order h n neighbor kPrime
  let parent ← deref (h.nodes n).parent
  let (root, h) ← deleteEntry h root parent kPrime (.node n)
  .ok (root, freeNode h n)

/-- The left-sibling half of `redistribute_nodes`: the neighbour's last
entry moves in front of `n`'s first. -/
def borrowFromLeft (h : Heap) (n neighbor parent : NodeId)
    (kPrimeIndex : Nat) (kPrime : U64) : Except Fault Heap := do
  let nd := h.nodes n
  let nb := h.nodes neighbor
  if nd.isLeaf then do
    let keys ← chk (shiftUp nd.keys 0 nd.numKeys)
    let pointers ← chk (shiftUp nd.pointers 0 nd.numKeys)
    let p ← chk nb.pointers[nb.numKeys - 1]?
    let pointers ← chk (put pointers 0 p)
    let nbPointers ← chk (put nb.pointers (nb.numKeys - 1) .null)
    let k ← chk nb.keys[nb.numKeys - 1]?
    let keys ← chk (put keys 0 k)
    let parentKeys ← chk (put (h.nodes parent).keys kPrimeIndex k)
    let h := h.setNode parent { h.nodes parent with keys := parentKeys }
    let h := h.setNode n
      { nd with keys := keys, pointers := pointers
                numKeys := nd.numKeys + 1 }
    .ok (h.setNode neighbor
      { nb with pointers := nbPointers, numKeys := nb.numKeys - 1 })
  else do
    let last ← chk nd.pointers[nd.numKeys]?
    let pointers ← chk (put nd.pointers (nd.numKeys + 1) last)
    let keys ← chk (shiftUp nd.keys 0 nd.numKeys)
    let pointers ← chk (shiftUp pointers 0 nd.numKeys)
    let p ← chk nb.pointers[nb.numKeys]?
    let pointers ← chk (put pointers 0 p)
    let tmp ← asNode p
    let nbPointers ← chk (put nb.pointers nb.numKeys .null)
    let keys ← chk (put keys 0 kPrime)
    let k ← chk nb.keys[nb.numKeys - 1]?
    let parentKeys ← chk (put (h.nodes parent).keys kPrimeIndex k)
    let h := h.setNode parent { h.nodes parent with keys := parentKeys }
    let h := h.setNode n
      { nd with keys := keys, pointers := pointers
                numKeys := nd.numKeys + 1 }
    let h := h.setNode neighbor
      { nb with pointers := nbPointers, numKeys := nb.numKeys - 1 }
    .ok (h.setParent tmp (some n))

/-- The right-sibling half of `redistribute_nodes`: the neighbour's
first entry moves behind `n`'s last, and the neighbour closes up. The
pointer slot the neighbour gives up keeps a stale copy. -/
def borrowFromRight (h : Heap) (n neighbor parent : NodeId)
    (kPrimeIndex : Nat) (kPrime : U64) : Except Fault Heap := do
  let nd := h.nodes n
  let nb := h.nodes neighbor
  if nd.isLeaf then do
    let k ← chk nb.keys[0]?
    let keys ← chk (put nd.keys nd.numKeys k)
    let p ← chk nb.pointers[0]?
    let pointers ← chk (put nd.pointers nd.numKeys p)
    let k1 ← chk nb.keys[1]?
    let parentKeys ← chk (put (h.nodes parent).keys kPrimeIndex k1)
    let nbKeys ← chk (shiftDown nb.keys 0 (nb.numKeys - 1))
    let nbPointers ← chk (shiftDown nb.pointers 0 (nb.numKeys - 1))
    let h := h.setNode parent { h.nodes parent with keys := parentKeys }
    let h := h.setNode n
      { nd with keys := keys, pointers := pointers
                numKeys := nd.numKeys + 1 }
    .ok (h.setNode neighbor
      { nb with keys := nbKeys, pointers := nbPointers
                numKeys := nb.numKeys - 1 })
  else do
    let keys ← chk (put nd.keys nd.numKeys kPrime)
    let p ← chk nb.pointers[0]?
    let pointers ← chk (put nd.pointers (nd.numKeys + 1) p)
    let tmp ← asNode p
    let k ← chk nb.keys[0]?
    let parentKeys ← chk (put (h.nodes parent).keys kPrimeIndex k)
    let nbKeys ← chk (shiftDown nb.keys 0 (nb.numKeys - 1))
    let nbPointers ← chk (shiftDown nb.pointers 0 nb.numKeys)
    let h := h.setNode parent { h.nodes parent with keys := parentKeys }
    let h := h.setNode n
      { nd with keys := keys, pointers := pointers
                numKeys := nd.numKeys + 1 }
    let h := h.setNode neighbor
      { nb with keys := nbKeys, pointers := nbPointers
                numKeys := nb.numKeys - 1 }
    .ok (h.setParent tmp (some n))

/-- `redistribute_nodes` -/
def redistributeNodes (h : Heap) (n neighbor : NodeId) (neighborIndex : Int)
    (kPrimeIndex : Nat) (kPrime : U64) : Except Fault Heap := do
  let parent ← deref (h.nodes n).parent
  if neighborIndex ≠ -1 then borrowFromLeft h n neighbor parent kPrimeIndex kPrime
  else borrowFromRight h n neighbor parent kPrimeIndex kPrime

/-- What `delete_entry` does once the entry is out of `n`. -/
def afterRemoval (order : Nat) (deleteEntry : DeleteEntry) (h : Heap)
    (root n : NodeId) : Except Fault (Option NodeId × Heap) :=
  if n = root then adjustRoot h root
  else
    let minKeys := if (h.nodes n).isLeaf then cut (order - 1) else cut order - 1
    if minKeys ≤ (h.nodes n).numKeys then .ok (some root, h)
    else do
      let neighborIndex ← getNeighborIndex h n
      let kPrimeIndex := if neighborIndex = -1 then 0 else neighborIndex.toNat
      let parent ← deref (h.nodes n).parent
      let kPrime ← chk (h.nodes parent).keys[kPrimeIndex]?
      let p ← chk (h.nodes parent).pointers[
        if neighborIndex = -1 then 1 else neighborIndex.toNat]?
      let neighbor ← asNode p
      let capacity := if (h.nodes n).isLeaf then order else order - 1
      if (h.nodes neighbor).numKeys + (h.nodes n).numKeys < capacity then
        coalesceNodes order deleteEntry h root n neighbor neighborIndex kPrime
      else do
        let h ← redistributeNodes h n neighbor neighborIndex kPrimeIndex kPrime
        .ok (some root, h)

/-- `delete_entry` -/
def deleteEntry (order : Nat) : Nat → DeleteEntry
  | 0, _, _, _, _, _ => .error .outOfFuel
  | fuel + 1, h, root, n, key, pointer => do
      let h ← removeEntryFromNode order h n key pointer
      afterRemoval order (deleteEntry order fuel) h root n

/-- `delete` -/
def delete (order : Nat) (h : Heap) (root : Option NodeId) (key : U64) :
    Except Fault (Option NodeId × Heap) := do
  let found ← find h root key
  match root, found with
  | some rt, (some keyRecord, some keyLeaf) => do
      let (root, h) ← deleteEntry order (h.carvedNodes + 1) h rt keyLeaf key
        (.record keyRecord)
      .ok (root, freeRecord h keyRecord)
  | _, _ => .ok (root, h)

end ThesisBench.Btree
