/-
Sequences of calls on the B+ tree, and the finite map they stand for.

The program keeps one root pointer and passes it through every call
(`root = insert(root, ...)`), so a state is a root and the memory. The
map on the other side knows nothing of trees: an insert overwrites, a
delete removes, and deleting an absent key does nothing.
-/
import ThesisBench.Btree.Delete

namespace ThesisBench.Btree

-- ============================================================ the calls

/-- The program between two calls. -/
structure State where
  root : Option NodeId
  heap : Heap

/-- `root = NULL`, before any allocation. -/
def State.empty : State := ⟨none, Heap.empty⟩

/-- A call of `insert` or `delete`. -/
inductive Call
  | insert (key value : U64)
  | delete (key : U64)
  deriving DecidableEq, Repr

/-- Any call that changes the tree. `insertUnique` is `make_record`
followed by `insert_unique`, as in the loading loops of `main`. -/
inductive Op
  | call (c : Call)
  | insertUnique (key value : U64)
  deriving DecidableEq, Repr

def Call.run (order : Nat) (s : State) : Call → Except Fault State
  | .insert key value => do
      let (root, h) ← Btree.insert order s.heap s.root key value
      .ok ⟨root, h⟩
  | .delete key => do
      let (root, h) ← Btree.delete order s.heap s.root key
      .ok ⟨root, h⟩

def Op.run (order : Nat) (s : State) : Op → Except Fault State
  | .call c => c.run order s
  | .insertUnique key value => do
      let (r, h) ← makeRecord s.heap value
      let (root, h) ← Btree.insertUnique order h s.root key r
      .ok ⟨root, h⟩

/-- A sequence of calls, first to last. -/
def runs (order : Nat) : List Op → State → Except Fault State
  | [], s => .ok s
  | op :: ops, s => do
      let s ← op.run order s
      runs order ops s

/-- What a caller of `find` sees: the record it answers, if any. -/
def State.lookup (s : State) (key : U64) : Except Fault (Option Record) := do
  let (r, _) ← find s.heap s.root key
  .ok (r.map s.heap.recs)

-- ============================================================== the map

/-- A finite map from keys to values. -/
abbrev Contents := U64 → Option U64

/-- The map without keys. -/
def Contents.empty : Contents := fun _ => none

def Call.replay (m : Contents) : Call → Contents
  | .insert key value => Function.update m key (some value)
  | .delete key => Function.update m key none

def Op.replay (m : Contents) : Op → Contents
  | .call c => c.replay m
  | .insertUnique key value => Function.update m key (some value)

/-- Replaying a sequence of calls on the map. -/
def replay : List Op → Contents → Contents
  | [], m => m
  | op :: ops, m => replay ops (op.replay m)

/-- `insert_unique` may only be called with an absent key. -/
def Op.Legal (m : Contents) : Op → Prop
  | .call _ => True
  | .insertUnique key _ => m key = none

/-- Every call of the sequence is legal when its turn comes. -/
def Legal : List Op → Contents → Prop
  | [], _ => True
  | op :: ops, m => op.Legal m ∧ Legal ops (op.replay m)

/-- `insert` and `delete` may be called at any time. -/
theorem legal_calls (cs : List Call) (m : Contents) :
    Legal (cs.map .call) m := by
  induction cs generalizing m with
  | nil => trivial
  | cons c cs ih => exact ⟨trivial, ih _⟩

end ThesisBench.Btree
