/-
The netlist generator `datasets/fast_canneal_int.c`.

`main` prints the header line and lets every thread print the lines of
its share of the elements. A thread formats into a buffer of its own and
hands it to `fwrite` when it is nearly full and at its end; the writes
are in a critical section, so the file is some interleaving of whole
buffers. The team has the `omp_get_max_threads()` threads that the
shares were computed for.

`rand_r` is any sequence of values between 0 and `RAND_MAX`, one for
each thread, since each thread has its own seed.
-/
import ThesisBench.Canneal.Netlist
import ThesisBench.Lib.Digits

namespace ThesisBench.Canneal.Generator

open Digits Interleave

/-- A value of `rand_r`. -/
abbrev Rand := Fin (2 ^ 31)

/-- `'\t'` -/
def tab : Byte := 9

/-- The command line. -/
structure Args where
  x : Nat
  y : Nat
  numElements : Nat

/-- The arguments that `main` accepts. A product that does not fit `long`
is for `Overflows`. -/
def Args.valid (a : Args) : Prop :=
  ¬ (a.x ≤ 1 ∨ a.y ≤ 1 ∨ a.numElements ≥ a.x * a.y)

instance (a : Args) : Decidable a.valid := inferInstanceAs (Decidable (¬ _))

/-- `printf("%ld\t%ld\t%ld\n", num_elements, x, y)` -/
def Args.header (a : Args) : List Byte :=
  natText a.numElements ++ tab :: natText a.x ++ tab :: natText a.y ++ [newline]

/-- `((long)rand_r(&seed) * rand_r(&seed)) % num_elements`, and its sign
taken off -/
def conn (numElements : Nat) (r s : Rand) : Nat :=
  let conn := (((r.val : Int) * s.val).bmod (2 ^ 64)).tmod numElements
  if conn < 0 then (-conn).toNat else conn.toNat

/-- The five connections, from the values that `rand_r` answers from the
`k`-th call on. -/
def conns (numElements : Nat) (rand : Nat → Rand) (k : Nat) : List Nat :=
  (List.range 5).map fun j => conn numElements (rand (k + 2 * j)) (rand (k + 2 * j + 1))

/-- `int type = 1 + (rand_r(&seed) % 2)` -/
def type (r : Rand) : Nat := 1 + r.val % 2

/-- The text of a line, without its newline. -/
def text (i type : Nat) (conns : List Nat) : List Byte :=
  natText i ++ tab :: natText type ++ conns.flatMap fun conn => tab :: natText conn

/-- `buf_size` -/
@[irreducible] def bufSize : Nat := 64 * 1024 * 1024

/-- The calls of `rand_r` for one line. -/
def callsPerLine : Nat := 11

/-- The loop of a thread with its buffer, `k` calls of `rand_r` behind
it, and the writes it makes. -/
def writes (numElements : Nat) (rand : Nat → Rand) :
    (rounds i k : Nat) → (buffer : List Byte) → List (List Byte)
  | 0, _, _, buffer => if buffer.length > 0 then [buffer] else []
  | rounds + 1, i, k, buffer =>
      let buffer := buffer ++ text i (type (rand k)) (conns numElements rand (k + 1))
        ++ [newline]
      if buffer.length > bufSize - 512
      then buffer :: writes numElements rand rounds (i + 1) (k + callsPerLine) []
      else writes numElements rand rounds (i + 1) (k + callsPerLine) buffer

/-- What the calls of `sprintf` and the last assignment put out for one
line, one after the other. -/
def pieces (i type : Nat) (conns : List Nat) : List (List Byte) :=
  (natText i ++ tab :: natText type) :: (conns.map fun conn => tab :: natText conn)
    ++ [[newline]]

/-- The values that `buf_pos` takes in the loop of a thread. -/
def bufPositions (numElements : Nat) (rand : Nat → Rand) :
    (rounds i k bufPos : Nat) → List Nat
  | 0, _, _, bufPos => [bufPos]
  | rounds + 1, i, k, bufPos =>
      let line := pieces i (type (rand k)) (conns numElements rand (k + 1))
      let bufPos' := bufPos + (line.map List.length).sum
      line.scanl (fun pos piece => pos + piece.length) bufPos
        ++ if bufPos' > bufSize - 512
          then bufPositions numElements rand rounds (i + 1) (k + callsPerLine) 0
          else bufPositions numElements rand rounds (i + 1) (k + callsPerLine) bufPos'

/-- `chunk_size` -/
def Args.chunkSize (a : Args) (numThreads : Nat) : Nat :=
  (a.numElements + numThreads - 1) / numThreads

/-- The body of the parallel region. -/
def Args.threadWrites (a : Args) (numThreads : Nat) (rand : Nat → Nat → Rand)
    (tid : Nat) : List (List Byte) :=
  let start := tid * a.chunkSize numThreads
  let stop := min (start + a.chunkSize numThreads) a.numElements
  writes a.numElements (rand tid) (stop - start) start 0 []

/-- The values of `buf_pos` in thread `tid`. -/
def Args.threadPositions (a : Args) (numThreads : Nat) (rand : Nat → Nat → Rand)
    (tid : Nat) : List Nat :=
  let start := tid * a.chunkSize numThreads
  let stop := min (start + a.chunkSize numThreads) a.numElements
  bufPositions a.numElements (rand tid) (stop - start) start 0 0

/-- The files that `numThreads` threads can write. -/
def Args.Generates (a : Args) (numThreads : Nat) (rand : Nat → Nat → Rand)
    (file : List Byte) : Prop :=
  a.valid ∧ ∃ s,
    Interleaves ((List.range numThreads).map (a.threadWrites numThreads rand)) s
      ∧ file = a.header ++ s.flatten

/-- `x * y` or `num_elements + num_threads` does not fit `long`. -/
def Args.Overflows (a : Args) (numThreads : Nat) : Prop :=
  2 ^ 63 ≤ a.x * a.y ∨ 2 ^ 63 ≤ a.numElements + numThreads

/-- What the program can write; nothing is said (`none`) of a run whose
signed arithmetic overflows. -/
def Args.Writes (a : Args) (numThreads : Nat) (rand : Nat → Nat → Rand)
    (out : Option (List Byte)) : Prop :=
  a.valid ∧ ((a.Overflows numThreads ∧ out = none)
    ∨ ¬ a.Overflows numThreads ∧ ∃ file, a.Generates numThreads rand file ∧ out = some file)

/-- A file of the header and whole lines, one for each element, with its
type and five elements. -/
def Args.Complete (a : Args) (file : List Byte) : Prop :=
  ∃ (ids : List Nat) (ty : Nat → Nat) (conns : Nat → List Nat),
    ids.Perm (List.range a.numElements)
      ∧ file = a.header ++ render (ids.map fun i => text i (ty i) (conns i))
      ∧ ∀ i < a.numElements, (ty i = 1 ∨ ty i = 2) ∧ (conns i).length = 5
        ∧ ∀ c ∈ conns i, c < a.numElements

/-- The calls of `rand_r` that the thread of element `i` has made before
that element. -/
def Args.calls (a : Args) (numThreads i : Nat) : Nat :=
  callsPerLine * (i % a.chunkSize numThreads)

/-- The values that the thread of element `i` gets. -/
def Args.randOf (a : Args) (numThreads : Nat) (rand : Nat → Nat → Rand) (i : Nat) :
    Nat → Rand :=
  rand (i / a.chunkSize numThreads)

/-- The connections that the generator writes on the line of element `i`. -/
def Args.connsOf (a : Args) (numThreads : Nat) (rand : Nat → Nat → Rand) (i : Nat) :
    List Nat :=
  conns a.numElements (a.randOf numThreads rand i) (a.calls numThreads i + 1)

/-- How often the lines name element `e` as a connection. -/
def Args.named (a : Args) (numThreads : Nat) (rand : Nat → Nat → Rand) (e : Nat) : Nat :=
  ((List.range a.numElements).flatMap (a.connsOf numThreads rand)).count e

/-- The line of element `i`. -/
def Args.lineOf (a : Args) (numThreads : Nat) (rand : Nat → Nat → Rand) (i : Nat) :
    List Byte :=
  text i (type (a.randOf numThreads rand i (a.calls numThreads i)))
    (a.connsOf numThreads rand i)

/-- The file is the header and the lines of all elements, in some order. -/
def Args.Lines (a : Args) (numThreads : Nat) (rand : Nat → Nat → Rand)
    (file : List Byte) : Prop :=
  ∃ lines : List (List Byte), file = a.header ++ render lines
    ∧ lines.Perm ((List.range a.numElements).map (a.lineOf numThreads rand))

/-- One parsing thread makes of the file the header's numbers and every
element with the connections on its line. -/
def Args.Rebuilt (a : Args) (numThreads : Nat) (rand : Nat → Nat → Rand)
    (file : List Byte) : Prop :=
  ∃ m : Netlist,
    (∀ out, ConstructsFile file 1 out ↔ out = some (⟨a.numElements, a.x, a.y⟩, m))
      ∧ (∀ i < a.numElements,
          m.itemName i = some i ∧ m.fanin i = a.connsOf numThreads rand i)
      ∧ ∀ i, a.numElements ≤ i → i < a.x * a.y → m.fanin i = [] ∧ m.fanout i = []

end ThesisBench.Canneal.Generator
