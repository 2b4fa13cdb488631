/-
Edge lists as text: `WriteEL` of `sources/gapbs/src/writer.h`, `ReadInEL`
and `ReadInWEL` of `sources/gapbs/src/reader.h`, and the stream
operators of `NodeWeight` in `sources/gapbs/src/graph.h`.

The writer puts an edge on a line, its source, a blank and its
destination; of a weighted graph the destination is a vertex, a blank
and a weight. The readers do not look at lines. They take two numbers,
or three, and append an edge, until one of the numbers cannot be read.

The streams open, and writing to them does not fail. `NodeID` and
`WeightT` are `int32_t`. A variable that was never assigned is `none`,
and reading it is a fault.
-/
import ThesisBench.Gapbs.Graph
import ThesisBench.Gapbs.Reader
import ThesisBench.Lib.Numbers

namespace ThesisBench.Gapbs

open IStream

variable {δ : Type}

/-- The edges of a graph in the order in which they are written. -/
def CSRGraph.edges (g : CSRGraph δ) : List (Edge δ) :=
  (List.range g.numNodes).flatMap fun u => (g.outs u).map (Edge.mk u)

-- ============================================================ the writer

/-- Numbers on a line, with blanks between them. -/
def line : List Int → List (Int × UInt8)
  | [] => []
  | [x] => [(x, newline)]
  | x :: y :: l => (x, 32) :: line (y :: l)

/-- `operator<<` of `DestID_`, and the numbers it prints. -/
class TextID (δ : Type) [DestID δ] where
  put : δ → List UInt8
  fields : δ → List Int
  put_newline : ∀ d, put d ++ [newline] = spaced (line (fields d))
  fields_ne_nil : ∀ d, fields d ≠ []
  fields_fit : ∀ d, DestID.node d < 2 ^ 31 → ∀ x ∈ fields d, -2 ^ 31 ≤ x ∧ x ≤ 2 ^ 31 - 1

instance : TextID Nat where
  put v := intText v
  fields v := [(v : Int)]
  put_newline _ := by simp [line, spaced]
  fields_ne_nil _ := List.cons_ne_nil _ _
  fields_fit v hv x hx := by
    obtain rfl := List.mem_singleton.mp hx
    have hlt : v < 2 ^ 31 := hv
    omega

/-- `os << nw.v << " " << nw.w` -/
def NodeWeight.put (nw : NodeWeight) : List UInt8 :=
  intText nw.v ++ [32] ++ intText nw.w.toInt

instance : TextID NodeWeight where
  put := NodeWeight.put
  fields nw := [(nw.v : Int), nw.w.toInt]
  put_newline _ := by simp [NodeWeight.put, line, spaced]
  fields_ne_nil _ := List.cons_ne_nil _ _
  fields_fit nw hv x hx := by
    have hlt : nw.v < 2 ^ 31 := hv
    have hlo := nw.w.le_toInt
    have hhi := nw.w.toInt_lt
    cases List.mem_cons.mp hx with
    | inl h => omega
    | inr h =>
        obtain rfl := List.mem_singleton.mp h
        omega

variable [DestID δ] [TextID δ]

/-- `out << u << " " << v << std::endl` -/
def putEdge (u : Nat) (v : δ) : List UInt8 :=
  intText u ++ [32] ++ TextID.put v ++ [newline]

/-- `WriteEL` -/
def writeEL (g : CSRGraph δ) : Option (List UInt8) := do
  let texts ← (List.range g.numNodes).mapM fun u =>
    (g.outNeigh u).map fun neigh => neigh.flatMap (putEdge u)
  pure texts.flatten

-- =========================================================== the readers

/-- What `ReadInEL` works on. -/
structure ElState where
  input : IStream
  u : Option Int
  v : Option Int
  el : List (Int × Int)
  deriving DecidableEq, Repr

/-- `in >> u >> v` -/
def ElState.read (s : ElState) : ElState :=
  let u := getInt32 s.input s.u
  let v := getInt32 u.2 s.v
  { s with input := v.2, u := u.1, v := v.1 }

/-- The value of `in >> u >> v` as a condition. -/
def ElState.more (s : ElState) : Bool := !s.input.fail

/-- `el.push_back(Edge(u, v))`, and the condition of the next turn. -/
def ElState.turn (s : ElState) : Option ElState := do
  let edge := (← s.u, ← s.v)
  pure { s with el := s.el ++ [edge] }.read

def ElState.start (text : List UInt8) : ElState := ⟨ofText text, none, none, []⟩

/-- `none` when the reader faults or `fuel` turns were not enough. -/
def readInEL (fuel : Nat) (text : List UInt8) : Option (List (Int × Int)) :=
  (While.loop ElState.more ElState.turn fuel (ElState.start text).read).map ElState.el

/-- What `ReadInWEL` works on: `u`, the `NodeWeight` `v`, here `v` and
`w`, and `el`. -/
structure WelState where
  input : IStream
  u : Option Int
  v : Option Int
  w : Option Int
  el : List ReadEdge
  deriving DecidableEq, Repr

/-- `in >> u >> v`, where the latter is `is >> nw.v >> nw.w` -/
def WelState.read (s : WelState) : WelState :=
  let u := getInt32 s.input s.u
  let v := getInt32 u.2 s.v
  let w := getInt32 v.2 s.w
  { s with input := w.2, u := u.1, v := v.1, w := w.1 }

def WelState.more (s : WelState) : Bool := !s.input.fail

/-- `el.push_back(Edge(u, v))`, and the condition of the next turn. -/
def WelState.turn (s : WelState) : Option WelState := do
  let edge : ReadEdge := ⟨← s.u, ← s.v, ← s.w⟩
  pure { s with el := s.el ++ [edge] }.read

def WelState.start (text : List UInt8) : WelState := ⟨ofText text, none, none, none, []⟩

/-- `none` when the reader faults or `fuel` turns were not enough. -/
def readInWEL (fuel : Nat) (text : List UInt8) : Option (List ReadEdge) :=
  (While.loop WelState.more WelState.turn fuel (WelState.start text).read).map WelState.el

-- ======================================================= what they make of it

/-- The numbers two by two; a last one alone is dropped. -/
def pairs : List Int → List (Int × Int)
  | u :: v :: l => (u, v) :: pairs l
  | _ => []

/-- The numbers three by three; one or two last ones are dropped. -/
def triples : List Int → List ReadEdge
  | u :: v :: w :: l => ⟨u, v, w⟩ :: triples l
  | _ => []

end ThesisBench.Gapbs
