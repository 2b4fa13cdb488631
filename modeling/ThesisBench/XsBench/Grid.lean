/-
The energy grids: `generate_energy_grid` and
`initialization_do_not_profile_set_grid_ptrs` of
`sources/xsbench/src/GridInit.c`, and the searches of
`sources/xsbench/src/CalculateXS.c`.

Of a grid point only its energy is kept, and of the interpolation the
index of its lower point. The counts are of type `long`, but `gpmatrix`
counts the points of the grids in an `int`, and so are the indices into a
nuclide's grid: an `int` that overflows, and an access outside an array,
is `none`.
-/
import ThesisBench.Lib.Bracket
import Mathlib.Algebra.Ring.Nat
import Mathlib.Order.Lattice

namespace ThesisBench.XsBench

open Bisection

variable {E : Type} [LinearOrder E]

/-- The grids of the nuclides, sorted by energy, with two different
energies to begin with. -/
structure NuclideGrids (E : Type) [LinearOrder E] where
  nGridpoints : Nat
  grids : List (List E)
  two_le : 2 ≤ nGridpoints
  length_eq : ∀ A ∈ grids, A.length = nGridpoints
  sorted : ∀ A ∈ grids, A.Pairwise (· ≤ ·)
  smallest_ne : ∀ A ∈ grids, A[0]? ≠ A[1]?

namespace NuclideGrids

variable (g : NuclideGrids E)

/-- `n_isotopes` -/
def nIsotopes : Nat := g.grids.length

-- ====================================================== the unionized grid

/-- `gpmatrix`: where the rows begin. The loop counts `int i` up to
`m * n`. -/
def gpmatrix (m n : Nat) : Option (List Nat) :=
  if m * n < 2 ^ 31 then some ((List.range (m * n)).filter fun i => i % n = 0) else none

/-- `generate_energy_grid`: the points are copied to the first row of a
matrix and sorted there. -/
def generateEnergyGrid : Option (List E) := do
  let nGridSorted ← gpmatrix g.nIsotopes g.nGridpoints
  let _ ← nGridSorted[0]?
  pure (g.grids.flatten.mergeSort fun a b => decide (a ≤ b))

/-- `idx_low[i]` and `energy_high[i]` -/
structure Cursor (E : Type) where
  idxLow : Nat
  energyHigh : E
  deriving DecidableEq, Repr

/-- The loop over `int i` that sets `energy_high`. -/
def cursors : Option (List (Cursor E)) :=
  if g.nIsotopes < 2 ^ 31 then g.grids.mapM fun A => (A[1]?).map (Cursor.mk 0) else none

/-- The body of the loop over the nuclides, for one of them. -/
def advance (n : Nat) (unionizedEnergy : E) (A : List E) (c : Cursor E) : Option (Cursor E) :=
  if unionizedEnergy < c.energyHigh then some c
  else if c.idxLow = n - 2 then some c
  else if c.idxLow + 2 < 2 ^ 31 then (A[c.idxLow + 2]?).map (Cursor.mk (c.idxLow + 1))
  else none

def advanceAll (n : Nat) (unionizedEnergy : E) :
    List (List E) → List (Cursor E) → Option (List (Cursor E))
  | A :: grids, c :: cs => do
      let c ← advance n unionizedEnergy A c
      let cs ← advanceAll n unionizedEnergy grids cs
      pure (c :: cs)
  | _, _ => some []

/-- The loop over the unionized grid: the row `xs_ptrs` of each point. -/
def sweep : List E → List (Cursor E) → Option (List (List Nat))
  | [], _ => some []
  | unionizedEnergy :: energies, cs => do
      let cs ← advanceAll g.nGridpoints unionizedEnergy g.grids cs
      let rows ← sweep energies cs
      pure (cs.map Cursor.idxLow :: rows)

/-- `initialization_do_not_profile_set_grid_ptrs` -/
def setGridPtrs (energyGrid : List E) : Option (List (List Nat)) := do
  g.sweep energyGrid (← g.cursors)

-- ============================================================= the lookup

/-- `grid_search(n, quarry, A)`, and `grid_search_nuclide` from the first
point to the last. -/
def gridSearch (n : Nat) (quarry : E) (A : List E) : Option Nat := halve A quarry n 0 (n - 1)

/-- The check of `calculate_micro_xs` that the index is not the last. -/
def lowOf (idx : Nat) : Nat := if idx = g.nGridpoints - 1 then idx - 1 else idx

/-- The lower point of the nuclide path. -/
def nuclideLow (pEnergy : E) (nuc : Nat) : Option Nat := do
  let A ← g.grids[nuc]?
  let idx ← gridSearch g.nGridpoints pEnergy A
  pure (g.lowOf idx)

/-- The lower point of the unionized path. -/
def unionizedLow (pEnergy : E) (nuc : Nat) : Option Nat := do
  let energyGrid ← g.generateEnergyGrid
  let rows ← g.setGridPtrs energyGrid
  let idx ← gridSearch (g.nIsotopes * g.nGridpoints) pEnergy energyGrid
  let xsPtrs ← rows[idx]?
  let ptr ← xsPtrs[nuc]?
  pure (g.lowOf ptr)

end NuclideGrids

end ThesisBench.XsBench
