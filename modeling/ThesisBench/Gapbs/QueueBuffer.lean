/-
The sliding queue with the buffers of its threads, one memory access at a
time: `sources/gapbs/src/sliding_queue.h`.

A flush reserves its block of the shared array with one atomic addition
and then copies its values one by one, while the other threads push and
flush. `local_queue[0..in)` is the list `localQueue`. A buffer may be made
at any time; `push_back` of the queue itself and `slide_window` are for
the code between two parallel regions. What was not written is `none`,
and a step that leaves an array does not happen.
-/
import ThesisBench.Lib.Slots

namespace ThesisBench.Gapbs.QueueBuffer

open Slots

variable {α : Type}

/-- `SlidingQueue` -/
structure Queue (α : Type) where
  shared : List (Option α)
  sharedIn : Nat
  outStart : Nat
  outEnd : Nat

/-- `reset()`, over an array with any contents. -/
def Queue.reset (shared : List (Option α)) : Queue α := ⟨shared, 0, 0, 0⟩

/-- `push_back` -/
def Queue.pushBack (q : Queue α) (x : α) : Option (Queue α) :=
  (write q.shared q.sharedIn (some x)).map fun shared =>
    { q with shared := shared, sharedIn := q.sharedIn + 1 }

/-- `slide_window` -/
def Queue.slideWindow (q : Queue α) : Queue α :=
  { q with outStart := q.outEnd, outEnd := q.sharedIn }

/-- From `begin()` to `end()`. -/
def Queue.window (q : Queue α) : Option (List (Option α)) := slice q.shared q.outStart q.outEnd

/-- Where a thread stands in a call. A flush inside `push_back` has the
value still to be pushed with it. -/
inductive At (α : Type)
  | idle
  /-- before `fetch_and_add` -/
  | flushing (after : Option α)
  /-- before the copy of the element `k` -/
  | copying (copyStart k : Nat) (after : Option α)
  /-- before `local_queue[in++] = to_add` -/
  | storing (toAdd : α)
  deriving DecidableEq, Repr

/-- A `QueueBuffer` and its thread. -/
structure Buffer (α : Type) where
  localSize : Nat
  localQueue : List α
  pc : At α

structure Config (α : Type) where
  queue : Queue α
  buffers : List (Buffer α)

inductive Event (α : Type)
  /-- the constructor of a `QueueBuffer` -/
  | construct (givenSize : Nat)
  /-- a call of the `push_back` of a buffer -/
  | push (i : Nat) (toAdd : α)
  /-- a call of `flush` -/
  | flush (i : Nat)
  /-- the next memory access of a thread -/
  | move (i : Nat)
  /-- the queue's own `push_back` -/
  | pushBack (toAdd : α)
  /-- `slide_window` -/
  | slide

-- ============================================================ the threads

def Buffer.idle (b : Buffer α) : Bool :=
  match b.pc with
  | .idle => true
  | _ => false

/-- `in == 0`, and not in a call. -/
def Buffer.flushed (b : Buffer α) : Bool := b.idle && b.localQueue.isEmpty

/-- The test of `push_back`. -/
def Buffer.push (b : Buffer α) (toAdd : α) : Buffer α :=
  { b with
    pc := if b.localQueue.length = b.localSize then .flushing (some toAdd)
      else .storing toAdd }

/-- After the copy. -/
def Buffer.emptied (b : Buffer α) (after : Option α) : Buffer α :=
  { b with
    localQueue := []
    pc := match after with
      | none => .idle
      | some toAdd => .storing toAdd }

/-- The next memory access. -/
def Buffer.move (b : Buffer α) (q : Queue α) : Option (Buffer α × Queue α) :=
  match b.pc with
  | .idle => none
  | .flushing after =>
      some ({ b with pc := .copying q.sharedIn 0 after },
        { q with sharedIn := q.sharedIn + b.localQueue.length })
  | .copying copyStart k after =>
      match b.localQueue[k]? with
      | none => some (b.emptied after, q)
      | some x =>
          (write q.shared (copyStart + k : Nat) (some x)).map fun shared =>
            ({ b with pc := .copying copyStart (k + 1) after }, { q with shared := shared })
  | .storing toAdd =>
      if b.localQueue.length < b.localSize then
        some ({ b with localQueue := b.localQueue ++ [toAdd], pc := .idle }, q)
      else none

-- ============================================================== the runs

def Config.allIdle (c : Config α) : Bool := c.buffers.all Buffer.idle

/-- All buffers are flushed. -/
def Config.flushed (c : Config α) : Bool := c.buffers.all Buffer.flushed

/-- A call of an idle thread. -/
def Config.call (c : Config α) (i : Nat) (f : Buffer α → Buffer α) : Option (Config α) := do
  let b ← c.buffers[i]?
  if b.idle then pure { c with buffers := c.buffers.set i (f b) } else none

def step (c : Config α) : Event α → Option (Config α)
  | .construct givenSize =>
      if 1 ≤ givenSize then some { c with buffers := c.buffers ++ [⟨givenSize, [], .idle⟩] }
      else none
  | .push i toAdd => c.call i fun b => b.push toAdd
  | .flush i => c.call i fun b => { b with pc := .flushing none }
  | .move i => do
      let b ← c.buffers[i]?
      let (b, q) ← b.move c.queue
      pure ⟨q, c.buffers.set i b⟩
  | .pushBack toAdd =>
      if c.allIdle then (c.queue.pushBack toAdd).map fun q => { c with queue := q } else none
  | .slide => if c.flushed then some { c with queue := c.queue.slideWindow } else none

def run (c : Config α) (events : List (Event α)) : Option (Config α) := events.foldlM step c

/-- The values that the calls push. -/
def pushes (events : List (Event α)) : List α :=
  events.filterMap fun
    | .push _ toAdd => some toAdd
    | .pushBack toAdd => some toAdd
    | _ => none

/-- No buffer yet. -/
def start (shared : List (Option α)) : Config α := ⟨.reset shared, []⟩

end ThesisBench.Gapbs.QueueBuffer
