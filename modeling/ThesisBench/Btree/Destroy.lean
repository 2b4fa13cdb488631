/-
`destroy_tree` of `sources/btree/btree.c`, and what it means that every
object of the slabs is accounted for.

Records and nodes come from slabs that `mmap` hands out, but a leaf's
records are released with the C library's `free`. `free` of memory that
`malloc` did not hand out is undefined; here it is a fault.
-/
import ThesisBench.Btree.Ops
import ThesisBench.Btree.Invariant
import ThesisBench.Lib.FreeList

namespace ThesisBench.Btree

open FreeList

-- ========================================================== destroy_tree

/-- The C library's `free` on a word of a `pointers` block. -/
def libcFree : Ptr → Except Fault Unit
  | .null => .ok ()
  | .node _ | .record _ => .error .badFree

/-- `for (; i < i + k; i++) free(root->pointers[i]);` -/
def freePointers (h : Heap) (root : NodeId) (i : Nat) : Nat → Except Fault Unit
  | 0 => .ok ()
  | k + 1 => do
      let p ← chk (h.nodes root).pointers[i]?
      libcFree p
      freePointers h root (i + 1) k

/-- `for (; i < i + k; i++) destroy_tree_nodes(root->pointers[i]);` -/
def destroyChildren (destroy : Heap → NodeId → Except Fault Heap)
    (root : NodeId) (i : Nat) : Nat → Heap → Except Fault Heap
  | 0, h => .ok h
  | k + 1, h => do
      let p ← chk (h.nodes root).pointers[i]?
      let child ← asNode p
      let h ← destroy h child
      destroyChildren destroy root (i + 1) k h

/-- `destroy_tree_nodes` -/
def destroyTreeNodes : Nat → Heap → NodeId → Except Fault Heap
  | 0, _, _ => .error .outOfFuel
  | fuel + 1, h, root =>
      if (h.nodes root).isLeaf then do
        freePointers h root 0 (h.nodes root).numKeys
        .ok (freeNode h root)
      else do
        let h ← destroyChildren (destroyTreeNodes fuel) root 0
          ((h.nodes root).numKeys + 1) h
        .ok (freeNode h root)

/-- `destroy_tree` -/
def destroyTree (h : Heap) (root : Option NodeId) :
    Except Fault (Option NodeId × Heap) := do
  let root ← deref root
  let h ← destroyTreeNodes (h.carvedNodes + 1) h root
  .ok (none, h)

-- ============================================================= the calls

/-- A call of `insert`, `delete` or `destroy_tree`. -/
inductive LifeCall
  | call (c : Call)
  | destroyTree
  deriving DecidableEq, Repr

def LifeCall.run (order : Nat) (s : State) : LifeCall → Except Fault State
  | .call c => c.run order s
  | .destroyTree => do
      let (root, h) ← Btree.destroyTree s.heap s.root
      .ok ⟨root, h⟩

/-- A sequence of calls, first to last. -/
def lifeRuns (order : Nat) : List LifeCall → State → Except Fault State
  | [], s => .ok s
  | c :: cs, s => do
      let s ← c.run order s
      lifeRuns order cs s

-- ======================================================= every object once

/-- The objects that the tree at `root` uses: its nodes, and the records
in its leaves' slots. -/
inductive Live (h : Heap) : Option NodeId → List NodeId → List RecId → Prop
  | empty : Live h none [] []
  | tree {d : Nat} {n : NodeId} : Uniform h d n none →
      Live h (some n) (nodesUnder h d n)
        ((leavesUnder h d n).flatMap h.recordsOf)

/-- Every carved node is in the tree once or on `free_nodes` once, every
carved record is in one slot or on `free_recs` once, and the allocators
hand out none that is in use. -/
structure Accounted (s : State) (ns : List NodeId) (rs : List RecId) :
    Prop where
  live : Live s.heap s.root ns rs
  nodes : ∃ free, Linked (fun i => (s.heap.nodes i).next) s.heap.freeNodes free
    ∧ (ns ++ free).Perm (List.range s.heap.carvedNodes)
  recs : ∃ free, Linked (fun i => (s.heap.recs i).link) s.heap.freeRecs free
    ∧ (rs ++ free).Perm (List.range s.heap.carvedRecs)
  freshNode : ∀ n h', allocNode s.heap = .ok (n, h') → n ∉ ns
  freshRec : ∀ r h', allocRecord s.heap = .ok (r, h') → r ∉ rs

/-- Every call of the sequence succeeds and leaves every object
accounted for. -/
def AccountedThroughout (order : Nat) (cs : List LifeCall) : Prop :=
  ∀ pre, pre <+: cs → ∃ s ns rs,
    lifeRuns order pre State.empty = .ok s ∧ Accounted s ns rs

end ThesisBench.Btree
