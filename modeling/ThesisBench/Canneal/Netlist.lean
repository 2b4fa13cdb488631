/-
The parallel parser of `sources/canneal/netlist.cpp`.

# The body

The constructor maps the file, parses the header line and lets every
thread parse a part of the rest. The rest, the body, is a list of
bytes; a `const char *` into it is an offset. The byte before the body
is the header line's newline, and the bytes behind it, on the file's
last page, read as zero.

# Loops

`while (p < limit && c(p)) p++` is `advance`, which runs over the room
`limit - p`. The two loops of `fast_parse_long` and `skip_ws` have no
limit in the source; the zero behind the file's end stops them, so their
room is the rest of the body. Numbers are unbounded here: an id that
overflows `long` is far outside the tables.

# Passes

Both passes parse the same way. The first counts, for every element, the
connections that name it, in counters of 32 bits. Then the vectors are
sized, and the second pass pushes the connections of each line and gives
each connection a slot of the other side's vector. What a thread does is
a list of atomic steps, in the order of its lines. Two threads that have
lines of one element race: both write its name and push to its vector
with no synchronisation, and nothing is said of what they leave.
-/
import ThesisBench.Lib.Interleave
import Mathlib.Algebra.Ring.Nat

namespace ThesisBench.Canneal

open Interleave

-- ============================================================= the body

abbrev Byte := UInt8

/-- `'\n'` -/
def newline : Byte := 10

/-- The bytes after the header line. -/
abbrev Body := List Byte

/-- `*p` -/
def Body.get (b : Body) (p : Nat) : Byte := List.getD b p 0

/-- `*(p - 1)` -/
def Body.before (b : Body) (p : Nat) : Byte :=
  if p = 0 then newline else b.get (p - 1)

/-- `while (p < limit && c(p)) p++;` with `limit - p` as the room. -/
def advance (c : Nat → Bool) : Nat → Nat → Nat
  | 0, p => p
  | room + 1, p => if c p then advance c room (p + 1) else p

-- =============================================================== chunks

structure ChunkBounds where
  start : Nat
  stop : Nat
  deriving DecidableEq, Repr

/-- `get_chunk_bounds` -/
def getChunkBounds (b : Body) (tid nthreads : Nat) : ChunkBounds :=
  let fileEnd := b.length
  let chunkSize := b.length / nthreads
  let start := tid * chunkSize
  let stop := if tid = nthreads - 1 then fileEnd else (tid + 1) * chunkSize
  let start :=
    if tid ≠ 0 then
      advance (fun p => b.before p ≠ newline) (fileEnd - start) start
    else start
  let stop :=
    if tid ≠ nthreads - 1 then
      let q := advance (fun p => b.get p ≠ newline) (fileEnd - stop) stop
      if q < fileEnd then q + 1 else q
    else stop
  ⟨start, stop⟩

-- ============================================================== records

/-- `*p >= '0' && *p <= '9'` -/
def isDigit (c : Byte) : Bool := 48 ≤ c && c ≤ 57

/-- `*p == ' ' || *p == '\t'` -/
def isSpace (c : Byte) : Bool := c == 32 || c == 9

/-- The characters skipped in front of a line. -/
def isBlank (c : Byte) : Bool := c == newline || c == 13 || c == 32 || c == 9

/-- The loop of `fast_parse_long`. -/
def parseDigits (b : Body) : Nat → Nat → Nat → Nat × Nat
  | 0, val, p => (val, p)
  | room + 1, val, p =>
      if isDigit (b.get p) then
        parseDigits b room (val * 10 + ((b.get p).toNat - 48)) (p + 1)
      else (val, p)

/-- `fast_parse_long`: the number and the place behind it. -/
def fastParseLong (b : Body) (p : Nat) : Nat × Nat :=
  parseDigits b (b.length - p) 0 p

/-- `skip_ws` -/
def skipWs (b : Body) (p : Nat) : Nat :=
  advance (fun p => isSpace (b.get p)) (b.length - p) p

/-- What a line says: an element and the five it is connected to. -/
structure Record where
  id : Nat
  conns : List Nat
  deriving DecidableEq, Repr

/-- The loop over the connections. -/
def parseConns (b : Body) : Nat → Nat → List Nat × Nat
  | 0, p => ([], p)
  | k + 1, p =>
      let (connId, p) := fastParseLong b p
      let p := skipWs b p
      let (conns, p) := parseConns b k p
      (connId :: conns, p)

/-- `id \t type \t conn0 .. conn4`, the type ignored. -/
def parseRecord (b : Body) (p : Nat) : Record × Nat :=
  let (id, p) := fastParseLong b p
  let p := skipWs b p
  let (_, p) := fastParseLong b p
  let p := skipWs b p
  let (conns, p) := parseConns b 5 p
  (⟨id, conns⟩, p)

/-- The loop over a chunk's lines: for each the place where the parser
started and what it read. Every round passes a byte, which bounds the
rounds. -/
def parseLines (b : Body) (stop : Nat) : Nat → Nat → List (Nat × Record)
  | 0, _ => []
  | fuel + 1, lp =>
      if lp < stop then
        let lp := advance (fun p => isBlank (b.get p)) (stop - lp) lp
        if stop ≤ lp then []
        else
          let (record, p) := parseRecord b lp
          let p := advance (fun p => b.get p ≠ newline) (stop - p) p
          let p := if p < stop then p + 1 else p
          (lp, record) :: parseLines b stop fuel p
      else []

/-- What thread `tid` parses, in either pass. -/
def parseChunk (b : Body) (nthreads tid : Nat) : List (Nat × Record) :=
  let bounds := getChunkBounds b tid nthreads
  parseLines b bounds.stop (b.length + 1) bounds.start

-- ========================================================== the netlist

/-- `_num_elements` and `_chip_size`, from the header. -/
structure Header where
  numElements : Nat
  chipSize : Nat
  deriving DecidableEq, Repr

/-- `fanout_counts[conn].fetch_add(1)`, on an `unsigned` -/
def countStep (hd : Header) (counts : Nat → Nat) (conn : Nat) :
    Option (Nat → Nat) :=
  if conn < hd.numElements then
    some fun e => if e = conn then (counts e + 1) % 2 ^ 32 else counts e
  else none

/-- `_elements[i].fanout.resize(fanout_counts[i])` for the elements, which
gives the lengths of the vectors. -/
def resizeFanout (hd : Header) (counts : Nat → Nat) : Option (Nat → Nat) :=
  if hd.numElements ≤ hd.chipSize then some counts else none

/-- An atomic step of the second pass. -/
inductive Step
  /-- `elem->item_name = std::to_string(id)` -/
  | name (id : Nat)
  /-- `elem->fanin.push_back(fanin_elem)` -/
  | fanin (id conn : Nat)
  /-- `fanout_idx[conn].fetch_add(1)` and the write to that slot, which
  no other thread has -/
  | fanout (conn id : Nat)
  /-- `total_parsed.fetch_add(k)` -/
  | parsed (k : Nat)
  deriving DecidableEq, Repr

/-- What the constructor builds. `itemName` is the number that
`item_name` spells. -/
structure Netlist where
  itemName : Nat → Option Nat
  fanin : Nat → List Nat
  fanout : Nat → List Nat
  totalParsed : Nat

def Netlist.empty : Netlist := ⟨fun _ => none, fun _ => [], fun _ => [], 0⟩

/-- One step, with vectors of the lengths `sizes`; `none` is an access
outside a table or a vector. -/
def Step.run (hd : Header) (sizes : Nat → Nat) (m : Netlist) :
    Step → Option Netlist
  | .name id =>
      if id < hd.chipSize then
        some { m with
          itemName := fun e => if e = id then some id else m.itemName e }
      else none
  | .fanin id conn =>
      if id < hd.chipSize ∧ conn < hd.chipSize then
        some { m with
          fanin := fun e => if e = id then m.fanin e ++ [conn] else m.fanin e }
      else none
  | .fanout conn id =>
      if conn < hd.numElements ∧ (m.fanout conn).length < sizes conn then
        some { m with
          fanout := fun e => if e = conn then m.fanout e ++ [id] else m.fanout e }
      else none
  | .parsed k => some { m with totalParsed := m.totalParsed + k }

/-- The steps of one line. -/
def Record.steps (r : Record) : List Step :=
  .name r.id :: r.conns.flatMap fun conn => [.fanin r.id conn, .fanout conn r.id]

/-- The steps of one thread; `localCount` lines are behind it. -/
def threadSteps : Nat → List Record → List Step
  | localCount, [] => [.parsed (localCount % 5000000)]
  | localCount, r :: rs =>
      r.steps
        ++ ((if (localCount + 1) % 5000000 = 0 then [.parsed 5000000] else [])
          ++ threadSteps (localCount + 1) rs)

/-- The records of each thread. -/
def threadRecords (b : Body) (nthreads : Nat) : List (List Record) :=
  (List.range nthreads).map fun tid => (parseChunk b nthreads tid).map Prod.snd

/-- Two threads have lines of the same element. -/
def Races (threads : List (List Record)) : Prop :=
  ¬ threads.Pairwise fun rs rs' => ∀ r ∈ rs, ∀ r' ∈ rs', r.id ≠ r'.id

/-- What `nthreads` threads can make of the body: some interleaving of
the first pass, then some interleaving of the second. -/
def Constructs (hd : Header) (b : Body) (nthreads : Nat)
    (out : Option Netlist) : Prop :=
  Races (threadRecords b nthreads) ∨ ∃ s₁ s₂,
    Interleaves ((threadRecords b nthreads).map fun rs =>
      rs.flatMap Record.conns) s₁
    ∧ Interleaves ((threadRecords b nthreads).map (threadSteps 0)) s₂
    ∧ out = (s₁.foldlM (countStep hd) fun _ => 0).bind fun counts =>
        (resizeFanout hd counts).bind fun sizes =>
          s₂.foldlM (Step.run hd sizes) Netlist.empty

-- ============================================================== the file

/-- `_num_elements`, `_max_x` and `_max_y`, which are `unsigned`. -/
structure Grid where
  numElements : Nat
  maxX : Nat
  maxY : Nat
  deriving DecidableEq, Repr

/-- `_chip_size = _max_x * _max_y` -/
def Grid.chipSize (g : Grid) : Nat := g.maxX * g.maxY % 2 ^ 32

/-- The header line, and where the body starts. -/
def parseHeader (file : List Byte) : Grid × Nat :=
  let (numElements, p) := fastParseLong file 0
  let p := skipWs file p
  let (maxX, p) := fastParseLong file p
  let p := skipWs file p
  let (maxY, p) := fastParseLong file p
  let p := advance (fun p => Body.get file p ≠ newline) (file.length - p) p
  let p := if p < file.length then p + 1 else p
  (⟨numElements % 2 ^ 32, maxX % 2 ^ 32, maxY % 2 ^ 32⟩, p)

/-- The values of `int i` in `for (int i = 0; i < bound; i++)` with an
`unsigned` bound; past `2 ^ 31 - 1` the counter overflows. -/
def intLoop (bound : Nat) : Option (List Nat) :=
  if bound < 2 ^ 31 then some (List.range bound) else none

/-- `_elements[i_elem].present_loc.Set(&_locations[x][y]); i_elem++;` -/
def assignLocation (x : Nat) (s : List (Option (Nat × Nat)) × Nat) (y : Nat) :
    Option (List (Option (Nat × Nat)) × Nat) :=
  if s.2 < s.1.length then some (s.1.set s.2 (some (x, y)), (s.2 + 1) % 2 ^ 32) else none

/-- The loop over `y`. -/
def Grid.assignColumn (g : Grid) (s : List (Option (Nat × Nat)) × Nat) (x : Nat) :
    Option (List (Option (Nat × Nat)) × Nat) := do
  (← intLoop g.maxY).foldlM (assignLocation x) s

/-- The loops that assign the locations, to `_chip_size` elements. -/
def Grid.assignLocations (g : Grid) : Option (List (Option (Nat × Nat))) := do
  let s ← (← intLoop g.maxX).foldlM g.assignColumn (List.replicate g.chipSize none, 0)
  pure s.1

/-- What the constructor can make of a file; `none` is an access outside
a table. The assertion that the elements are fewer than the places is not
compiled, since `AtomicPtr.h` defines `NDEBUG`. -/
def ConstructsFile (file : List Byte) (nthreads : Nat)
    (out : Option (Grid × Netlist)) : Prop :=
  let (grid, dataStart) := parseHeader file
  if grid.assignLocations.isSome then
    ∃ m, Constructs ⟨grid.numElements, grid.chipSize⟩ (file.drop dataStart) nthreads m
      ∧ out = m.map fun m => (grid, m)
  else out = none

-- ============================================================ the lines

/-- A line of a netlist file, without its newline. -/
structure IsLine (l : List Byte) : Prop where
  newline : newline ∉ l
  nonblank : ∃ c ∈ l, isBlank c = false

/-- The body made of these lines. -/
def render (lines : List (List Byte)) : Body := lines.flatMap (· ++ [newline])

/-- The blanks in front of a line. -/
def indent (l : List Byte) : Nat := (l.takeWhile isBlank).length

/-- What a line says on its own. -/
def lineRecord (l : List Byte) : Record :=
  (parseRecord (l ++ [newline]) (indent l)).1

/-- What a parser should find in the lines, the first of them at offset
`p`. -/
def lineEvents : Nat → List (List Byte) → List (Nat × Record)
  | _, [] => []
  | p, l :: ls => (p + indent l, lineRecord l) :: lineEvents (p + l.length + 1) ls

/-- Every line is parsed by exactly one thread, whole and once, and
nothing else is. -/
def ParsedOnce (lines : List (List Byte)) (nthreads : Nat) : Prop :=
  ((List.range nthreads).flatMap (parseChunk (render lines) nthreads)).Perm
    (lineEvents 0 lines)

/-- Two netlists that differ at most in the order of the fanouts. -/
structure Netlist.Same (m n : Netlist) : Prop where
  itemName : m.itemName = n.itemName
  totalParsed : m.totalParsed = n.totalParsed
  fanout : ∀ e, (m.fanout e).Perm (n.fanout e)
  fanin : m.fanin = n.fanin

/-- Whatever `nthreads` threads construct is what one thread constructs. -/
def SameNetlist (hd : Header) (lines : List (List Byte)) (nthreads : Nat) :
    Prop :=
  ∀ out ref, Constructs hd (render lines) nthreads out →
    Constructs hd (render lines) 1 ref →
    (out = none ∧ ref = none)
      ∨ ∃ m n, out = some m ∧ ref = some n ∧ Netlist.Same m n

/-- Where line `i` starts. -/
def pos (lines : List (List Byte)) (i : Nat) : Nat :=
  (render (lines.take i)).length

/-- A line starts at offset `p`. -/
def LineStart (b : Body) (p : Nat) : Prop :=
  p < b.length ∧ b.before p = newline

/-- No chunk boundary falls on the first byte of a line. -/
def CutsInside (b : Body) (nthreads : Nat) : Prop :=
  ∀ k, 0 < k → k < nthreads → ¬ LineStart b (k * (b.length / nthreads))

/-- No chunk boundary comes between the starts of two lines of one
element. -/
def LinesTogether (lines : List (List Byte)) (nthreads : Nat) : Prop :=
  ∀ i j l l', i < j → lines[i]? = some l → lines[j]? = some l' →
    (lineRecord l).id = (lineRecord l').id → ∀ k, 0 < k → k < nthreads →
      ¬ (pos lines i < k * ((render lines).length / nthreads)
        ∧ k * ((render lines).length / nthreads) ≤ pos lines j)

end ThesisBench.Canneal
