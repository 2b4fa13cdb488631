/-
The second pass of the netlist constructor, at the grain of its atomic
operations.

`Netlist.lean` lets a connection take its slot and fill it in one step.
Here the `fetch_add` on `fanout_idx` and the write to the slot are two
steps with the other threads between them, and the thread keeps the slot
number in its local `idx`. The counters of both passes are
`atomic<unsigned>`, so they count modulo 2^32; a vector's slots hold a
null pointer until they are written, and a write outside the vector has no
result, no more than an access outside `_elements`. Which slot each write
went to is kept in a log beside the state.
-/
import ThesisBench.Canneal.Netlist

namespace ThesisBench.Canneal.Fanout

open Interleave

/-- `unsigned` -/
abbrev U32 := BitVec 32

-- =============================================================== pass 1

/-- `fanout_counts[conn_id].fetch_add(1)` -/
def count (hd : Header) (counts : Nat → U32) (conn : Nat) : Option (Nat → U32) :=
  if conn < hd.numElements then
    some (Function.update counts conn (counts conn + 1))
  else none

-- =============================================================== pass 2

inductive Op
  /-- `elem->item_name = std::to_string(id)` -/
  | name (id : Nat)
  /-- `elem->fanin.push_back(fanin_elem)` -/
  | push (id conn : Nat)
  /-- `idx = fanout_idx[conn_id].fetch_add(1)` -/
  | fetch (conn : Nat)
  /-- `fanin_elem->fanout[idx] = elem` -/
  | store (conn id : Nat)
  /-- `total_parsed.fetch_add(k)` -/
  | parsed (k : Nat)
  deriving DecidableEq, Repr

/-- The operations of a step of `Netlist.lean`. -/
def ops : Step → List Op
  | .name id => [.name id]
  | .fanin id conn => [.push id conn]
  | .fanout conn id => [.fetch conn, .store conn id]
  | .parsed k => [.parsed k]

/-- The elements while the threads work on them. -/
structure Building where
  itemName : Nat → Option Nat
  fanin : Nat → List Nat
  fanoutIdx : Nat → U32
  fanout : Nat → List (Option Nat)
  totalParsed : Nat
  log : List (Nat × Nat)

/-- The elements with their vectors sized. -/
def Building.sized (hd : Header) (counts : Nat → U32) : Building where
  itemName := fun _ => none
  fanin := fun _ => []
  fanoutIdx := fun _ => 0
  fanout := fun e => if e < hd.numElements then List.replicate (counts e).toNat none else []
  totalParsed := 0
  log := []

/-- `_elements[i].fanout.resize(fanout_counts[i])` for `i < _num_elements`.
The assertion that would keep `i` inside `_elements` is not compiled. -/
def Building.resize (hd : Header) (counts : Nat → U32) : Option Building :=
  if hd.numElements ≤ hd.chipSize then some (.sized hd counts) else none

/-- One operation of a thread whose local `idx` is given. -/
def Op.run (hd : Header) : Op → U32 → Building → Option (U32 × Building)
  | .name id, idx, m =>
      if id < hd.chipSize then
        some (idx, { m with itemName := Function.update m.itemName id (some id) })
      else none
  | .push id conn, idx, m =>
      if id < hd.chipSize ∧ conn < hd.chipSize then
        some (idx, { m with fanin := Function.update m.fanin id (m.fanin id ++ [conn]) })
      else none
  | .fetch conn, _, m =>
      if conn < hd.numElements then
        some (m.fanoutIdx conn,
          { m with fanoutIdx := Function.update m.fanoutIdx conn (m.fanoutIdx conn + 1) })
      else none
  | .store conn id, idx, m =>
      if idx.toNat < (m.fanout conn).length then
        some (idx, { m with
          fanout := Function.update m.fanout conn ((m.fanout conn).set idx.toNat (some id))
          log := (conn, idx.toNat) :: m.log })
      else none
  | .parsed k, idx, m => some (idx, { m with totalParsed := m.totalParsed + k })

/-- What a thread does for its records. -/
def threadOps (rs : List Record) : List Op := (threadSteps 0 rs).flatMap ops

/-- What the constructor can leave, and the counts of the first pass, when
every thread parses its lines of the division; `none` is an access outside
a table. -/
def Constructs (hd : Header) (division : List (List (List Byte)))
    (out : Option ((Nat → U32) × Building)) : Prop :=
  let records := division.map fun lines => lines.map lineRecord
  ∃ s₁, Interleaves (records.map fun rs => rs.flatMap Record.conns) s₁
    ∧ match (s₁.foldlM (count hd) fun _ => 0).bind fun counts =>
        (Building.resize hd counts).map fun m₀ => (counts, m₀) with
      | none => out = none
      | some (counts, m₀) => ∃ m,
          Runs (Op.run hd) (records.map fun rs => (0, threadOps rs)) m₀ m
          ∧ out = m.map fun m => (counts, m)

-- ======================================================= what it is for

/-- The line's ids are ids of elements. -/
def Valid (hd : Header) (r : Record) : Prop :=
  r.id < hd.numElements ∧ ∀ c ∈ r.conns, c < hd.numElements

/-- How often the file names element `e` as a connection. -/
def named (division : List (List (List Byte))) (e : Nat) : Nat :=
  (division.flatten.flatMap fun line => (lineRecord line).conns).count e

end ThesisBench.Canneal.Fanout
