/-
Synthetic edges: `Generator` of `sources/gapbs/src/generator.h`, for
32-bit ids.

The edges are made in blocks. The blocks are handed out to the threads
of a parallel region in any way, and a thread may take its blocks in any
order; each thread has a generator of random values, which it seeds anew
for every block. A thread's steps are the seeding and the edges, one by
one. Which of the two draws of a uniform edge comes first is up to the
compiler.

The memory holds the list of edges and the permutation of the ids. What
was not written is `none`, and a step that reads it, or that leaves an
array, does not happen.
-/
import ThesisBench.Gapbs.UniDist
import ThesisBench.Lib.Parallel

namespace ThesisBench.Gapbs

open Slots Parallel

/-- What the code uses of the standard library: a seeded engine with its
next raw value, and `std::shuffle`, which permutes. -/
structure RandomLib (ρ : Type) where
  seed : Nat → ρ
  next : ρ → Nat × ρ
  shuffle : ρ → List Int → List Int
  shuffle_perm : ∀ rng l, (shuffle rng l).Perm l

/-- `kRandSeed` -/
def kRandSeed : Nat := 27491095

/-- `default_seed`, of an engine that is not seeded -/
def defaultSeed : Nat := 5489

structure Generator where
  scale : Nat
  degree : Nat
  deriving DecidableEq, Repr

namespace Generator

def numNodes (g : Generator) : Nat := 2 ^ g.scale

def numEdges (g : Generator) : Nat := g.numNodes * g.degree

/-- `block_size` -/
def blockSize : Nat := 2 ^ 18

/-- The values of the loop variable `block`. -/
def blocks (g : Generator) : List Nat :=
  (List.range ((g.numEdges + blockSize - 1) / blockSize)).map (· * blockSize)

/-- The values of `e` for a block. -/
def edgesOf (g : Generator) (block : Nat) : List Nat :=
  List.range' block (min (block + blockSize) g.numEdges - block)

structure Memory where
  el : List (Option (Int × Int))
  permutation : List (Option Int)

-- ================================================================ threads

/-- A thread of the region: its engine, the blocks it has not begun, and
what is left of the one it is at. -/
structure Worker (ρ : Type) where
  id : Nat
  rng : ρ
  blocks : List Nat
  edges : List Nat

variable {ρ : Type} (lib : RandomLib ρ)

/-- The threads, when `edge` draws an edge. -/
def workers (g : Generator) (edge : ρ → Option ((Int × Int) × ρ)) : Tasks Memory where
  State := Worker ρ
  next w s :=
    match w.edges, w.blocks with
    | e :: edges, _ => do
        let (pair, rng) ← edge w.rng
        let el ← write s.el e (some pair)
        pure (⟨w.id, rng, w.blocks, edges⟩, { s with el := el })
    | [], block :: blocks =>
        some (⟨w.id, lib.seed (kRandSeed + block / blockSize), blocks, g.edgesOf block⟩, s)
    | [], [] => none
  done w := w.edges.isEmpty && w.blocks.isEmpty

/-- The parallel region: any number of threads, which share the blocks in
any way. -/
def region (g : Generator) (edge : ρ → Option ((Int × Int) × ρ)) : Prog Memory :=
  .fork (workers lib g edge) fun _ ts => ∃ shares : List (List Nat),
    shares.flatten.Perm g.blocks
      ∧ ts = shares.mapIdx fun id blocks => ⟨id, lib.seed defaultSeed, blocks, []⟩

-- ============================================================= the edges

/-- `Edge(udist(), udist())` -/
def uniformEdge (udist : UniDist) (leftFirst : Bool) (fuel : Nat) (rng : ρ) :
    Option ((Int × Int) × ρ) := do
  let (x, rng) ← udist.draw lib.next fuel rng
  let (y, rng) ← udist.draw lib.next fuel rng
  pure (if leftFirst then (x, y) else (y, x), rng)

/-- `MakeUniformEL` -/
def makeUniformEL (g : Generator) (leftFirst : Bool) (fuel : Nat) : Prog Memory :=
  region lib g
    (uniformEdge lib (UniDist.make (2 ^ 32 - 1) (g.numNodes - 1)) leftFirst fuel)

/-- `0.57*max`, `0.19*max` and again `0.19*max`, as unsigned integers -/
def rmatA : Nat := 2448131358

def rmatB : Nat := 816043786

def rmatC : Nat := 816043786

/-- One level of the recursive matrix: the bits for `src` and `dst`. -/
def rmatBits (randPoint : Nat) : Int × Int :=
  if randPoint < uint32 (rmatA + rmatB) then
    (0, if randPoint > rmatA then 1 else 0)
  else (1, if randPoint > uint32 (rmatA + rmatB + rmatC) then 1 else 0)

/-- `src` and `dst` grown by `depth` bits. -/
def rmatEdge : Nat → Int × Int → ρ → (Int × Int) × ρ
  | 0, pair, rng => (pair, rng)
  | depth + 1, (src, dst), rng =>
      let (raw, rng) := lib.next rng
      let bits := rmatBits (uint32 raw)
      rmatEdge depth (int32 (2 * src + bits.1), int32 (2 * dst + bits.2)) rng

/-- The identity permutation, one id a step. -/
def identityStep (n : Nat) (s : Memory) : Option Memory :=
  (write s.permutation n (some (n : Int))).map fun permutation =>
    { s with permutation := permutation }

/-- `std::shuffle` of the whole permutation. -/
def shuffled (s s' : Memory) : Prop :=
  ∃ l, s.permutation.mapM id = some l
    ∧ s' = { s with permutation := (lib.shuffle (lib.seed kRandSeed) l).map some }

def permuteStep (e : Nat) (s : Memory) : Option Memory := do
  let (u, v) ← fetch s.el e
  let u ← fetch s.permutation u
  let v ← fetch s.permutation v
  let el ← write s.el e (some (u, v))
  pure { s with el := el }

/-- `PermuteIDs` -/
def permuteIDs (g : Generator) : Prog Memory :=
  .seqs [
    .act fun s s' => s' = { s with permutation := List.replicate g.numNodes none },
    .forEach (once identityStep) (fun _ => List.range g.numNodes) fun n => (n, false),
    .act (shuffled lib),
    .forEach (once permuteStep) (fun _ => List.range g.numEdges) fun e => (e, false)]

/-- `MakeRMatEL` -/
def makeRMatEL (g : Generator) : Prog Memory :=
  .seq (region lib g fun rng => some (rmatEdge lib g.scale (0, 0) rng)) (permuteIDs lib g)

/-- The memory at the start: `el(num_edges_)` has not been written. -/
def start (g : Generator) : Memory := ⟨List.replicate g.numEdges none, []⟩

end Generator

end ThesisBench.Gapbs
