/-
The two algorithms for connected components: `Afforest` of
`sources/gapbs/src/cc.cc` and `ShiloachVishkin` of
`sources/gapbs/src/cc_sv.cc`.

Both keep an array `comp` that points every vertex at a vertex with a
smaller or equal number, and change it from parallel loops. Every
iteration of such a loop is a task, and every read of the array, every
write and every compare-and-swap is a step of its own, so the tasks
interleave in any way; that `change` is set in the step that writes the
array makes no difference, since no task reads it. Which label
`SampleFrequentElement` returns is left open.
-/
import ThesisBench.Gapbs.Graph
import ThesisBench.Lib.Parallel

namespace ThesisBench.Gapbs.Components

open Parallel

/-- The array of labels, and the one variable that the loops share
besides it. -/
structure Memory (ρ : Type) where
  comp : List Nat
  reg : ρ

variable {ρ : Type}

/-- `comp[x] = y` -/
def Memory.store (m : Memory ρ) (x y : Nat) : Option (Memory ρ) :=
  if x < m.comp.length then some { m with comp := m.comp.set x y } else none

-- =================================================== comp[n] = n

/-- The loop that points every vertex at itself. -/
def initialise (numNodes : Nat) : Prog (Memory ρ) :=
  .parallelFor (once fun n m => m.store n n) numNodes fun n => (n, false)

-- ================================================================= Link

/-- Where a call `Link(u, v, comp)` stands. -/
inductive LinkAt
  /-- before `p1 = comp[u]` -/
  | first
  /-- before `p2 = comp[v]` -/
  | second (p1 : Nat)
  /-- at the condition of the loop -/
  | test (p1 p2 : Nat)
  /-- before `compare_and_swap(comp[high], high, low)` -/
  | swap (high low : Nat)
  /-- before `comp[high]` of `p1 = comp[comp[high]]` -/
  | again (high low : Nat)
  /-- before the outer read of `p1 = comp[comp[high]]` -/
  | againFirst (p low : Nat)
  /-- before `p2 = comp[low]` -/
  | againSecond (p1 low : Nat)
  deriving DecidableEq, Repr

/-- `low = p1 + (p2 - high)` -/
def lowOf (p1 p2 high : Nat) : Nat := ((p1 : Int) + ((p2 : Int) - high)).toNat

/-- One step of `Link(u, v, comp)`; `none` in place of where the call
stands once it has returned. -/
def linkStep (u v : Nat) : LinkAt → Memory ρ → Option (Option LinkAt × Memory ρ)
  | .first, m => m.comp[u]?.map fun p1 => (some (.second p1), m)
  | .second p1, m => m.comp[v]?.map fun p2 => (some (.test p1 p2), m)
  | .test p1 p2, m =>
      if p1 = p2 then some (none, m)
      else
        let high := if p1 > p2 then p1 else p2
        let low := lowOf p1 p2 high
        m.comp[high]?.map fun pHigh =>
          if pHigh = low then (none, m)
          else if pHigh = high then (some (.swap high low), m)
          else (some (.again high low), m)
  | .swap high low, m => do
      let p ← m.comp[high]?
      if p = high then (m.store high low).map fun m => (none, m)
      else some (some (.again high low), m)
  | .again high low, m => m.comp[high]?.map fun p => (some (.againFirst p low), m)
  | .againFirst p low, m => m.comp[p]?.map fun p1 => (some (.againSecond p1 low), m)
  | .againSecond p1 low, m => m.comp[low]?.map fun p2 => (some (.test p1 p2), m)

/-- An iteration of a loop that links vertices. -/
inductive LinkTask
  /-- before the test `comp[u] == c` -/
  | check (u : Nat)
  /-- with the vertices `todo` still to link `u` with, and the call that
  is under way -/
  | links (u : Nat) (todo : List Nat) (call : Option (Nat × LinkAt))
  deriving DecidableEq, Repr

/-- The loops that link vertices; `rest u` are those that `u` is linked
with in the last of them. -/
def linking (rest : Nat → List Nat) : Tasks (Memory Nat) where
  State := LinkTask
  next
    | .check u, m => m.comp[u]?.map fun p =>
        if p = m.reg then (.links u [] none, m) else (.links u (rest u) none, m)
    | .links _ [] none, _ => none
    | .links u (v :: todo) none, m => some (.links u todo (some (v, .first)), m)
    | .links u todo (some (v, l)), m => (linkStep u v l m).map fun c =>
        (.links u todo (c.1.map fun l => (v, l)), c.2)
  done
    | .links _ [] none => true
    | _ => false

-- ============================================================= Compress

/-- Where an iteration of `Compress` stands. -/
inductive CompressAt
  /-- at the condition of the loop, before its three reads -/
  | test
  | testFirst (p : Nat)
  | testSecond (p q : Nat)
  /-- in the loop's body, before its two reads and the write -/
  | load
  | loadSecond (q : Nat)
  | write (p : Nat)
  | done
  deriving DecidableEq, Repr

/-- `while (comp[n] != comp[comp[n]]) comp[n] = comp[comp[n]];` -/
def compressing : Tasks (Memory ρ) where
  State := Nat × CompressAt
  next
    | (n, .test), m => m.comp[n]?.map fun p => ((n, .testFirst p), m)
    | (n, .testFirst p), m => m.comp[n]?.map fun q => ((n, .testSecond p q), m)
    | (n, .testSecond p q), m => m.comp[q]?.map fun p' =>
        if p = p' then ((n, .done), m) else ((n, .load), m)
    | (n, .load), m => m.comp[n]?.map fun q => ((n, .loadSecond q), m)
    | (n, .loadSecond q), m => m.comp[q]?.map fun p => ((n, .write p), m)
    | (n, .write p), m => (m.store n p).map fun m => ((n, .test), m)
    | (_, .done), _ => none
  done l := l.2 = .done

def compress (numNodes : Nat) : Prog (Memory ρ) :=
  .parallelFor compressing numNodes fun n => (n, .test)

-- ============================================================= Afforest

/-- `SampleFrequentElement`: the label of some vertex. -/
def SampleFrequentElement (m m' : Memory Nat) : Prop :=
  ∃ n c : Nat, m.comp[n]? = some c ∧ m' = { m with reg := c }

/-- What the last loop links `u` with. -/
def remaining (g : CSRGraph Nat) (neighborRounds u : Nat) : List Nat :=
  (g.outs u).drop neighborRounds ++ if g.directed then g.ins u else []

/-- A round of the sampling: every vertex is linked with its neighbour at
offset `r`, if there is one. -/
def sampleRound (g : CSRGraph Nat) (neighborRounds r : Nat) : Prog (Memory Nat) :=
  .parallelFor (linking (remaining g neighborRounds)) g.numNodes fun u =>
    .links u (((g.outs u).drop r).take 1) none

/-- The last loop. -/
def linkRemaining (g : CSRGraph Nat) (neighborRounds : Nat) : Prog (Memory Nat) :=
  .parallelFor (linking (remaining g neighborRounds)) g.numNodes .check

/-- `Afforest` -/
def afforest (g : CSRGraph Nat) (neighborRounds : Nat) : Prog (Memory Nat) :=
  .seq (initialise g.numNodes) <|
  .seq (.seqs ((List.range neighborRounds).map fun r =>
    .seq (sampleRound g neighborRounds r) (compress g.numNodes))) <|
  .seq (.act SampleFrequentElement) <|
  .seq (linkRemaining g neighborRounds) (compress g.numNodes)

-- ====================================================== ShiloachVishkin

/-- Where the treatment of an edge stands. -/
inductive HookAt
  /-- before `comp_u = comp[u]` -/
  | first
  /-- before `comp_v = comp[v]` -/
  | second (compU : Nat)
  /-- before `comp[high_comp]` -/
  | test (high low : Nat)
  /-- before `comp[high_comp] = low_comp` -/
  | write (high low : Nat)
  deriving DecidableEq, Repr

/-- One step of the treatment of the edge from `u` to `v`. -/
def hookStep (u v : Nat) : HookAt → Memory Bool → Option (Option HookAt × Memory Bool)
  | .first, m => m.comp[u]?.map fun compU => (some (.second compU), m)
  | .second compU, m => m.comp[v]?.map fun compV =>
      if compU = compV then (none, m)
      else
        let high := if compU > compV then compU else compV
        (some (.test high (lowOf compU compV high)), m)
  | .test high low, m => m.comp[high]?.map fun p =>
      if high = p then (some (.write high low), m) else (none, m)
  | .write high low, m =>
      ({ m with reg := true }.store high low).map fun m => (none, m)

/-- An iteration of the loop that hooks roots: the vertex, the neighbours
it has still to look at, and the one it looks at. -/
structure HookTask where
  u : Nat
  todo : List Nat
  call : Option (Nat × HookAt)
  deriving DecidableEq, Repr

def hooking : Tasks (Memory Bool) where
  State := HookTask
  next
    | ⟨_, [], none⟩, _ => none
    | ⟨u, v :: todo, none⟩, m => some (⟨u, todo, some (v, .first)⟩, m)
    | ⟨u, todo, some (v, l)⟩, m => (hookStep u v l m).map fun c =>
        (⟨u, todo, c.1.map fun l => (v, l)⟩, c.2)
  done l := l.todo = [] && l.call = none

def hook (g : CSRGraph Nat) : Prog (Memory Bool) :=
  .parallelFor hooking g.numNodes fun u => ⟨u, g.outs u, none⟩

/-- `change = b` -/
def setChange (b : Bool) : Prog (Memory Bool) :=
  .act fun m m' => m' = { m with reg := b }

/-- `ShiloachVishkin` -/
def shiloachVishkin (g : CSRGraph Nat) : Prog (Memory Bool) :=
  .seq (initialise g.numNodes) <|
  .seq (setChange true) <|
  .loop (fun m => m.reg) <|
    .seq (setChange false) (.seq (hook g) (compress g.numNodes))

end ThesisBench.Gapbs.Components
