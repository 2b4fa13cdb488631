/-
Serialized graphs: `WriteSerializedGraph` of
`sources/gapbs/src/writer.h` and `ReadSerializedGraph` of
`sources/gapbs/src/reader.h`, for 32-bit vertices and weights and with
incoming edges (`invert`).

The file is the directed flag, the number of directed edges, the number
of vertices, the offsets and the neighbours; of a directed graph the
offsets and neighbours of the incoming edges follow. The writer takes as
many neighbours from the array as `num_edges_directed` says, which an
undirected graph has from its halved count. An access outside an array,
an element that was never written and a negative size are faults.

That the file's name ends in `.sg` or `.wsg` as its content does is taken
for granted, and so is that reads and writes transfer all bytes.
-/
import ThesisBench.Gapbs.InPlace
import ThesisBench.Lib.Codec

namespace ThesisBench.Gapbs

open Slots Serial

-- ========================================================= destinations

/-- The bytes of a `DestID_`. -/
class SerialID (δ : Type) [DestID δ] where
  codec : Codec δ
  valid : ∀ d : δ, DestID.node d < 2 ^ 31 → codec.Valid d

/-- A vertex is a `NodeID` that is not negative. -/
def getNode (bs : List UInt8) : Option Nat :=
  if leNat bs < 2 ^ 31 then some (leNat bs) else none

theorem getNode_leBytes {v : Nat} (hv : v < 2 ^ 31) : getNode (leBytes 4 v) = some v := by
  rw [getNode, leNat_leBytes (by omega), if_pos hv]

instance : SerialID Nat where
  codec := {
    width := 4
    encode := leBytes 4
    decode := getNode
    Valid := (· < 2 ^ 31)
    length_encode := length_leBytes 4
    decode_encode := fun _ => getNode_leBytes }
  valid _ hd := hd

/-- A vertex and its weight, four bytes each. -/
def NodeWeight.encode (d : NodeWeight) : List UInt8 := leBytes 4 d.v ++ leBytes 4 d.w.toNat

def NodeWeight.decode (bs : List UInt8) : Option NodeWeight :=
  (getNode (bs.take 4)).map fun v => ⟨v, BitVec.ofNat 32 (leNat (bs.drop 4))⟩

/-- A weighted neighbour is read from its bytes. -/
theorem NodeWeight.decode_encode {d : NodeWeight} (hd : d.v < 2 ^ 31) :
    NodeWeight.decode d.encode = some d := by
  have hlen := length_leBytes 4 d.v
  have hw : d.w.toNat < 256 ^ 4 := d.w.isLt
  rw [NodeWeight.decode, NodeWeight.encode, List.take_left' hlen, List.drop_left' hlen,
    getNode_leBytes hd, leNat_leBytes hw, BitVec.ofNat_toNat, BitVec.setWidth_eq]
  rfl

instance : SerialID NodeWeight where
  codec := {
    width := 8
    encode := NodeWeight.encode
    decode := NodeWeight.decode
    Valid := fun d => d.v < 2 ^ 31
    length_encode := fun d => by
      rw [NodeWeight.encode, List.length_append, length_leBytes, length_leBytes]
    decode_encode := fun _ => NodeWeight.decode_encode }
  valid _ hd := hd

variable {δ : Type} [DestID δ] [SerialID δ]

-- ============================================================== writing

/-- `VertexOffsets` of one direction -/
def vertexOffsets (numNodes : Nat) (g : Csr δ) : Option (List Int) :=
  (List.range (numNodes + 1)).mapM fun n => do
    let nStart ← g.index[n]?
    let first ← g.index[0]?
    pure (nStart - first)

/-- The bytes from `out_neigh(0).begin()` on of `count` elements; the
constructor of `Neighborhood` looks at the end of the first one too. -/
def neighBytes (count : Int) (g : Csr δ) : Option (List UInt8) := do
  let first ← g.index[0]?
  let _ ← g.index[1]?
  let elements ← slice g.neighs first (first + count)
  let elements ← elements.mapM id
  pure (elements.flatMap (SerialID.codec (δ := δ)).encode)

/-- One direction of the graph. -/
def writeCSR (numNodes : Nat) (count : Int) (g : Csr δ) : Option (List UInt8) := do
  let offsets ← vertexOffsets numNodes g
  let neighs ← neighBytes count g
  pure (offsets.flatMap int64.encode ++ neighs)

def writeSerializedGraph (g : CSRGraph δ) : Option (List UInt8) := do
  let edgesToWrite := g.numEdgesDirected
  let header := bool.encode g.directed ++ int64.encode edgesToWrite
    ++ int64.encode g.numNodes
  let outgoing ← writeCSR g.numNodes edgesToWrite g.outgoing
  if g.directed then
    let incoming ← writeCSR g.numNodes edgesToWrite g.incoming
    pure (header ++ outgoing ++ incoming)
  else pure (header ++ outgoing)

-- ============================================================== reading

/-- `offsets` and the neighbours of one direction, and `GenIndex`. -/
def readCSR (numNodes numEdges : Int) : FileReader (Csr δ) := do
  let offsets ← int64.getMany (numNodes + 1).toNat
  let neighs ← (SerialID.codec (δ := δ)).getMany numEdges.toNat
  pure ⟨genIndex offsets, neighs.map some⟩

def readSerializedGraph : FileReader (CSRGraph δ) := do
  let directed ← bool.get
  let numEdges ← int64.get
  let numNodes ← int64.get
  if numNodes < 0 ∨ numEdges < 0 then StateT.lift none
  else
    let outgoing ← readCSR numNodes numEdges
    if directed then
      let incoming ← readCSR numNodes numEdges
      StateT.lift (CSRGraph.ofDirected numNodes.toNat outgoing incoming)
    else StateT.lift (CSRGraph.undirected numNodes.toNat outgoing)

/-- What is written of the graph is read back as one with the same flag,
counts and neighbourhoods, and nothing of it is left over. -/
def CSRGraph.RoundTrips (g : CSRGraph δ) : Prop :=
  ∃ file g', writeSerializedGraph g = some file
    ∧ readSerializedGraph.run file = some (g', [])
    ∧ g'.directed = g.directed ∧ g'.numNodes = g.numNodes ∧ g'.numEdges = g.numEdges
    ∧ ∀ u < g.numNodes, g'.outNeigh u = g.outNeigh u ∧ g'.inNeigh u = g.inNeigh u

end ThesisBench.Gapbs
