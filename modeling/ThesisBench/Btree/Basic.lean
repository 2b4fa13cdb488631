/-
The B+ tree of `sources/btree/btree.c`: its memory, its slab
allocators, and lookup.

# Memory

The C program works on `struct node` and `struct record` objects reached
through raw pointers. A heap here is two address spaces, one per struct
type, each a total map from addresses to contents; NULL is `none` where
the C field is typed and `Ptr.null` in the `void *` array. Every access
the C program could get wrong answers a `Fault`: a NULL dereference, an
index outside a node's `keys` or `pointers` block, a `void *` read as
the other struct, a `free` of memory that `malloc` did not hand out, an
`exit`. The two blocks a node owns are `order - 1`
keys and `order` pointers, allocated zeroed, and they travel with the
node (`free(n->keys)` is the end of both and has no other effect here).

Integers that only count (`num_keys`, indices) are natural numbers;
keys and values are 64-bit words. `order` is a parameter everywhere, as
it is a global in the source.

# Slabs

`alloc_node` and `alloc_record` carve a fixed-size slab when their free
list is empty and otherwise pop it. The free lists are intrusive: a free
node is linked through `next`, a free record through the union member
that shares the bytes of `value`. `mmap` is assumed to succeed.
-/
import ThesisBench.Lib.CArray
import Mathlib.Data.Fin.Basic
import Mathlib.Order.Fin.Basic
import Mathlib.Algebra.Ring.Nat
import Mathlib.Order.Lattice

namespace ThesisBench.Btree

open CArray

-- ============================================================== memory

/-- `uint64_t` -/
abbrev U64 := Fin (2 ^ 64)

instance U64.neZero : NeZero (2 ^ 64) := ⟨by decide⟩

/-- The address of a `struct node`. -/
abbrev NodeId := Nat

/-- The address of a `struct record`. -/
abbrev RecId := Nat

/-- One entry of a node's `void ** pointers`. -/
inductive Ptr
  | null
  | node (n : NodeId)
  | record (r : RecId)
  deriving DecidableEq, Repr

/-- What stops the C program short. `outOfFuel` is the model's own: a
pointer chase longer than the number of nodes ever carved. -/
inductive Fault
  | nullDeref
  | outOfBounds
  | badCast
  | badFree
  | exitFailure
  | outOfFuel
  deriving DecidableEq, Repr

/-- `struct node` -/
structure Node where
  pointers : List Ptr
  keys : List U64
  parent : Option NodeId
  isLeaf : Bool
  numKeys : Nat
  next : Option NodeId
  deriving DecidableEq, Repr

/-- `struct record`: the union of `value` and `next`. -/
inductive Record
  | value (v : U64)
  | next (r : Option RecId)
  deriving DecidableEq, Repr

/-- The program's memory. `misses` is a ghost: it counts the searches
that the C code does not check, `get_left_index` running past the last
pointer of the parent and `remove_entry_from_node` stopping on a stale
slot. -/
structure Heap where
  nodes : NodeId → Node
  freeNodes : Option NodeId
  carvedNodes : Nat
  recs : RecId → Record
  freeRecs : Option RecId
  carvedRecs : Nat
  misses : Nat

/-- Fresh `mmap` memory: all bytes zero. -/
def zeroNode : Node :=
  { pointers := [], keys := [], parent := none, isLeaf := false
    numKeys := 0, next := none }

/-- Memory at program start. -/
def Heap.empty : Heap :=
  { nodes := fun _ => zeroNode, freeNodes := none, carvedNodes := 0
    recs := fun _ => .value 0, freeRecs := none, carvedRecs := 0
    misses := 0 }

/-- Overwrite one node. -/
def Heap.setNode (h : Heap) (n : NodeId) (nd : Node) : Heap :=
  { h with nodes := fun i => if i = n then nd else h.nodes i }

/-- Overwrite one record. -/
def Heap.setRec (h : Heap) (r : RecId) (rc : Record) : Heap :=
  { h with recs := fun i => if i = r then rc else h.recs i }

/-- `c->parent = p;` -/
def Heap.setParent (h : Heap) (c : NodeId) (p : Option NodeId) : Heap :=
  h.setNode c { h.nodes c with parent := p }

/-- A checked array access inside the program. -/
def chk {α : Type} : Option α → Except Fault α
  | some a => .ok a
  | none => .error .outOfBounds

/-- `(node *) p`, about to be dereferenced. -/
def asNode : Ptr → Except Fault NodeId
  | .node n => .ok n
  | .null => .error .nullDeref
  | .record _ => .error .badCast

/-- `(record *) p`, NULL allowed. -/
def asRecord : Ptr → Except Fault (Option RecId)
  | .record r => .ok (some r)
  | .null => .ok none
  | .node _ => .error .badCast

/-- A typed node pointer about to be dereferenced. -/
def deref : Option NodeId → Except Fault NodeId
  | some n => .ok n
  | none => .error .nullDeref

-- ================================================================ slabs

/-- `NODE_SLAB_GROW / sizeof(struct node)`: 256 KiB of 48-byte nodes. -/
def nodesPerSlab : Nat := 2 ^ 18 / 48

/-- `RECORD_SLAB_GROW / sizeof(struct record)`: 256 KiB of 8-byte
records. -/
def recsPerSlab : Nat := 2 ^ 18 / 8

/-- The carving loop of `alloc_node`: link `k` fresh nodes in front of
the free list. -/
def carveNodes : Nat → Heap → Heap
  | 0, h => h
  | k + 1, h =>
      carveNodes k
        { h.setNode h.carvedNodes
            { h.nodes h.carvedNodes with next := h.freeNodes } with
          freeNodes := some h.carvedNodes
          carvedNodes := h.carvedNodes + 1 }

/-- `node *nd = free_nodes; free_nodes = nd->next;` -/
def popNode (h : Heap) : Except Fault (NodeId × Heap) :=
  match h.freeNodes with
  | none => .error .nullDeref
  | some nd => .ok (nd, { h with freeNodes := (h.nodes nd).next })

/-- `alloc_node` -/
def allocNode (h : Heap) : Except Fault (NodeId × Heap) :=
  match h.freeNodes with
  | none => popNode (carveNodes nodesPerSlab h)
  | some _ => popNode h

/-- `free_node` -/
def freeNode (h : Heap) (n : NodeId) : Heap :=
  { h.setNode n { h.nodes n with next := h.freeNodes } with
    freeNodes := some n }

/-- Reading a record's bytes as the `next` link. -/
def Record.link : Record → Option RecId
  | .next r => r
  | .value _ => none

/-- The carving loop of `alloc_record`. -/
def carveRecs : Nat → Heap → Heap
  | 0, h => h
  | k + 1, h =>
      carveRecs k
        { h.setRec h.carvedRecs (.next h.freeRecs) with
          freeRecs := some h.carvedRecs
          carvedRecs := h.carvedRecs + 1 }

/-- `record *rec = free_recs; free_recs = rec->next;` -/
def popRec (h : Heap) : Except Fault (RecId × Heap) :=
  match h.freeRecs with
  | none => .error .nullDeref
  | some r => .ok (r, { h with freeRecs := (h.recs r).link })

/-- `alloc_record` -/
def allocRecord (h : Heap) : Except Fault (RecId × Heap) :=
  match h.freeRecs with
  | none => popRec (carveRecs recsPerSlab h)
  | some _ => popRec h

/-- `free_record` -/
def freeRecord (h : Heap) (r : RecId) : Heap :=
  { h.setRec r (.next h.freeRecs) with freeRecs := some r }

/-- `make_record` -/
def makeRecord (h : Heap) (value : U64) : Except Fault (RecId × Heap) := do
  let (r, h) ← allocRecord h
  .ok (r, h.setRec r (.value value))

/-- A node as `make_node` leaves it: zeroed blocks, no keys. -/
def blankNode (order : Nat) (isLeaf : Bool) : Node :=
  { pointers := List.replicate order .null
    keys := List.replicate (order - 1) 0
    parent := none, isLeaf := isLeaf, numKeys := 0, next := none }

/-- `make_node` -/
def makeNode (order : Nat) (h : Heap) : Except Fault (NodeId × Heap) := do
  let (n, h) ← allocNode h
  .ok (n, h.setNode n (blankNode order false))

/-- `make_leaf` -/
def makeLeaf (order : Nat) (h : Heap) : Except Fault (NodeId × Heap) := do
  let (n, h) ← makeNode order h
  .ok (n, h.setNode n { h.nodes n with isLeaf := true })

-- =============================================================== lookup

/-- `cut` -/
def cut (length : Nat) : Nat :=
  if length % 2 = 0 then length / 2 else length / 2 + 1

/-- The descent of `find_leaf`: at each internal node, pass every key
not above `key`, then follow the pointer there. -/
def findLeafFrom (h : Heap) (key : U64) : Nat → NodeId → Except Fault NodeId
  | 0, _ => .error .outOfFuel
  | fuel + 1, c =>
      if (h.nodes c).isLeaf then .ok c
      else do
        let i ← chk (scanWhile (fun k => decide (k ≤ key)) (h.nodes c).keys
          0 (h.nodes c).numKeys)
        let p ← chk (h.nodes c).pointers[i]?
        let c ← asNode p
        findLeafFrom h key fuel c

/-- `find_leaf` on a tree that is not empty. A pointer chase visits no
more nodes than were ever carved. -/
def findLeaf (h : Heap) (root : NodeId) (key : U64) : Except Fault NodeId :=
  findLeafFrom h key (h.carvedNodes + 1) root

/-- `find`: the record and, through `leaf_out`, the leaf that was
searched. -/
def find (h : Heap) (root : Option NodeId) (key : U64) :
    Except Fault (Option RecId × Option NodeId) :=
  match root with
  | none => .ok (none, none)
  | some root => do
      let leaf ← findLeaf h root key
      let i ← chk (scanWhile (fun k => decide (k ≠ key)) (h.nodes leaf).keys
        0 (h.nodes leaf).numKeys)
      if i = (h.nodes leaf).numKeys then .ok (none, some leaf)
      else do
        let p ← chk (h.nodes leaf).pointers[i]?
        let r ← asRecord p
        .ok (r, some leaf)

end ThesisBench.Btree
