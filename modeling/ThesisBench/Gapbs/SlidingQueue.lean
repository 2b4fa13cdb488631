/-
The queue of the searches: `sources/gapbs/src/sliding_queue.h`.

`shared` are the values pushed so far, `shared_in` being their number,
and an iterator is a position in it. The array has room for the number
of values that the constructor was given; a push or a flush that does
not fit does not happen.
-/

namespace ThesisBench.Gapbs

structure SlidingQueue where
  shared : List Nat
  outStart : Nat
  outEnd : Nat
  deriving DecidableEq, Repr

namespace SlidingQueue

/-- `reset` -/
def reset : SlidingQueue := ⟨[], 0, 0⟩

/-- From the iterator `i` up to `j`. -/
def between (q : SlidingQueue) (i j : Nat) : List Nat := (q.shared.take j).drop i

/-- From `begin()` to `end()`. -/
def window (q : SlidingQueue) : List Nat := q.between q.outStart q.outEnd

def slideWindow (q : SlidingQueue) : SlidingQueue :=
  { q with outStart := q.outEnd, outEnd := q.shared.length }

/-- `empty()` -/
def empty (q : SlidingQueue) : Bool := q.outStart = q.outEnd

/-- `QueueBuffer::flush` -/
def flush (q : SlidingQueue) (capacity : Nat) (buffer : List Nat) : Option SlidingQueue :=
  if q.shared.length + buffer.length ≤ capacity
  then some { q with shared := q.shared ++ buffer } else none

/-- `push_back` -/
def pushBack (q : SlidingQueue) (capacity v : Nat) : Option SlidingQueue := q.flush capacity [v]

/-- `local_size` -/
def localSize : Nat := 16384

/-- `QueueBuffer::push_back`, as a step of its own when it flushes; then
the value is still to be pushed. -/
def bufferPush (q : SlidingQueue) (capacity : Nat) (buffer : List Nat) (v : Nat) :
    Option (Bool × List Nat × SlidingQueue) :=
  if buffer.length = localSize then (q.flush capacity buffer).map fun q => (false, [], q)
  else some (true, buffer ++ [v], q)

variable {q q' : SlidingQueue} {capacity v : Nat} {buffer : List Nat}

/-- A flush that goes through appends the buffer. -/
theorem flush_spec (h : q.flush capacity buffer = some q') :
    q' = { q with shared := q.shared ++ buffer } := by
  unfold SlidingQueue.flush at h
  split at h
  case isTrue => exact (Option.some.inj h).symm
  case isFalse => cases h

end SlidingQueue

end ThesisBench.Gapbs
