/-
The bitmap of `sources/gapbs/src/bitmap.h`, one memory access at a time,
and the two ways in which `sources/gapbs/src/bfs.cc` sets its bits.

A bitmap is an array of 64-bit words. `set_bit_atomic` reads a word, sets
a bit in the value it read, and swaps the word for that if it is still
what it was; if not, it starts over. `set_bit` reads the word and writes
it back, and what others have written in between is lost.

`QueueToBitmap` uses the former, for any division of the queue among the
threads. `BUStep` uses the latter; its loop deals out 1024 vertices at a
time, a thread takes any number of these chunks one after the other, and
which of its vertices wake up is given. An access outside the array is
`none`.
-/
import ThesisBench.Lib.Parallel

namespace ThesisBench.Gapbs.Bitmap

open Parallel

-- ============================================================== the words

abbrev Word := BitVec 64

/-- From `start_` up to `end_`. -/
abbrev Words := List Word

/-- `kBitsPerWord` -/
def kBitsPerWord : Nat := 64

/-- `word_offset` -/
def wordOffset (n : Nat) : Nat := n / kBitsPerWord

/-- `bit_offset` -/
def bitOffset (n : Nat) : Nat := n &&& (kBitsPerWord - 1)

/-- `num_words` -/
def numWords (size : Nat) : Nat := (size + kBitsPerWord - 1) / kBitsPerWord

/-- `reset` -/
def reset (words : Words) : Words := words.map fun _ => 0#64

/-- `(uint64_t) 1l << bit_offset(pos)` -/
def bit (pos : Nat) : Word := 1#64 <<< bitOffset pos

/-- `get_bit` -/
def getBit (words : Words) (pos : Nat) : Option Bool :=
  words[wordOffset pos]?.map fun (w : Word) => (w >>> bitOffset pos) &&& 1#64 != 0#64

/-- The first `size` bits. -/
def contents (size : Nat) (words : Words) : List Bool :=
  (List.range size).map fun pos => (getBit words pos).getD false

-- ============================================================ the threads

/-- A thread with the bits that it has still to set; `held` is what it
has read of the word of the first. -/
structure Setter where
  id : Nat
  todo : List Nat
  held : Option Word
  deriving DecidableEq, Repr

/-- `set_bit_atomic`, a read or a `compare_and_swap` at a time. -/
def casNext : Setter → Words → Option (Setter × Words)
  | ⟨id, pos :: todo, none⟩, words =>
      words[wordOffset pos]?.map fun w => (⟨id, pos :: todo, some w⟩, words)
  | ⟨id, pos :: todo, some oldVal⟩, words =>
      words[wordOffset pos]?.map fun w =>
        if w = oldVal then (⟨id, todo, none⟩, words.set (wordOffset pos) (oldVal ||| bit pos))
        else (⟨id, pos :: todo, none⟩, words)
  | ⟨_, [], _⟩, _ => none

/-- `set_bit`, a read or a write at a time. -/
def setNext : Setter → Words → Option (Setter × Words)
  | ⟨id, pos :: todo, none⟩, words =>
      words[wordOffset pos]?.map fun w => (⟨id, pos :: todo, some w⟩, words)
  | ⟨id, pos :: todo, some oldVal⟩, words =>
      if wordOffset pos < words.length
      then some (⟨id, todo, none⟩, words.set (wordOffset pos) (oldVal ||| bit pos))
      else none
  | ⟨_, [], _⟩, _ => none

def casThreads : Tasks Words where
  State := Setter
  next := casNext
  done l := l.todo.isEmpty

def setThreads : Tasks Words where
  State := Setter
  next := setNext
  done l := l.todo.isEmpty

/-- `QueueToBitmap`, for a queue of the positions `queue`. -/
def queueToBitmap (queue : List Nat) : Prog Words :=
  .fork casThreads fun _ ts => ∃ shares : List (List Nat), shares.flatten.Perm queue
    ∧ ts = shares.mapIdx fun id share => ⟨id, share, none⟩

/-- The argument of `schedule(dynamic, 1024)`. -/
def chunkSize : Nat := 1024

/-- The iterations of a chunk. -/
def chunk (numNodes k : Nat) : List Nat :=
  List.range' (k * chunkSize) (min chunkSize (numNodes - k * chunkSize))

/-- What a thread with these chunks sets. -/
def awakeIn (numNodes : Nat) (awake : Nat → Bool) (chunks : List Nat) : List Nat :=
  (chunks.flatMap (chunk numNodes)).filter awake

/-- `BUStep` on `next`: the call of `reset`, then those of `set_bit`, when
`awake` are the vertices that find a parent. -/
def setAwake (numNodes : Nat) (awake : Nat → Bool) : Prog Words :=
  .seq (.act fun words words' => words' = reset words)
    (.fork setThreads fun _ ts => ∃ shares : List (List Nat),
      shares.flatten.Perm (List.range ((numNodes + chunkSize - 1) / chunkSize))
        ∧ ts = shares.mapIdx fun id chunks => ⟨id, awakeIn numNodes awake chunks, none⟩)

end ThesisBench.Gapbs.Bitmap
