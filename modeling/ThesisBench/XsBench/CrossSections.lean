/-
The lookups of cross sections: `generate_hash_table` of
`sources/xsbench/src/GridInit.c`, `calculate_micro_xs` and
`calculate_macro_xs` of `CalculateXS.c`, the materials of `Materials.c`
and an event of `run_event_based_simulation` of `Simulation.c`, over the
rational numbers.

A lookup finds the lower point of each nuclide by one of three kinds of
grid. The hash grid divides the energies from 0 to 1 into bins of one
width, which hold each nuclide's lower point at their lower end; its loop
over the bins is parallel, but a bin's row is written by one iteration
only. The concentrations are a parameter, and so is what the division by
the distance of two points of one energy gives.
-/
import ThesisBench.Lib.Slots
import ThesisBench.XsBench.Grid
import Mathlib.Algebra.Order.Ring.Rat
import Mathlib.Algebra.Field.Rat
import Mathlib.Data.Rat.Floor

namespace ThesisBench.XsBench

open Bisection Slots

-- ============================================================ the points

structure NuclideGridPoint where
  energy : ℚ
  totalXs : ℚ
  elasticXs : ℚ
  absorbtionXs : ℚ
  fissionXs : ℚ
  nuFissionXs : ℚ
  deriving DecidableEq, Repr

/-- The fields that are looked up, in the order of `xs_vector`. -/
def NuclideGridPoint.xs (p : NuclideGridPoint) : List ℚ :=
  [p.totalXs, p.elasticXs, p.absorbtionXs, p.fissionXs, p.nuFissionXs]

/-- The nuclides' grids with their cross sections. -/
structure CrossSections where
  grids : NuclideGrids ℚ
  nuclideGrids : List (List NuclideGridPoint)
  grids_eq : grids.grids = nuclideGrids.map fun A => A.map NuclideGridPoint.energy

inductive GridType
  | unionized
  | nuclide
  | hash
  deriving DecidableEq, Repr

/-- `energy_grid`; the hash grid has no energies. -/
structure EnergyGrid where
  energies : List ℚ
  xsPtrs : List (List Nat)
  deriving DecidableEq

-- ========================================================= the hash grid

/-- Conversion to `int`. -/
def asInt (x : Nat) : Option Nat := if x < 2 ^ 31 then some x else none

/-- `e * du` -/
def binEnergy (hashBins e : Nat) : ℚ := e * (1 / hashBins)

/-- `p_energy / du`, truncated; the energy is not negative -/
def hashIdx (hashBins : Nat) (pEnergy : ℚ) : Int := ⌊pEnergy / (1 / hashBins)⌋

namespace NuclideGrids

variable (g : NuclideGrids ℚ)

/-- The row `xs_ptrs` of a bin. -/
def hashRow (hashBins e : Nat) : Option (List Nat) :=
  g.grids.mapM fun A => do asInt (← gridSearch g.nGridpoints (binEnergy hashBins e) A)

/-- `generate_hash_table` -/
def generateHashTable (hashBins : Nat) : Option EnergyGrid := do
  let xsPtrs ← (List.range hashBins).mapM (g.hashRow hashBins)
  pure ⟨[], xsPtrs⟩

/-- `u_high` -/
def upperBound (hashBins : Nat) (energyGrid : EnergyGrid) (idx : Int) (nuc : Nat) : Option Nat := do
  if idx = hashBins - 1 then asInt (g.nGridpoints - 1)
  else asInt ((← (← read energyGrid.xsPtrs (idx + 1))[nuc]?) + 1)

/-- `lower`, from the two bounds -/
def lowerPoint (A : List ℚ) (pEnergy : ℚ) (uLow uHigh : Nat) : Option Nat := do
  let eLow ← A[uLow]?
  let eHigh ← A[uHigh]?
  if pEnergy ≤ eLow then some 0
  else if pEnergy ≥ eHigh then asInt (g.nGridpoints - 1)
  else asInt (← halve A pEnergy g.nGridpoints uLow uHigh)

/-- The lower point of the hash path. -/
def hashLow (hashBins : Nat) (energyGrid : EnergyGrid) (idx : Int) (pEnergy : ℚ) (nuc : Nat) :
    Option Nat := do
  let A ← g.grids[nuc]?
  let uLow ← (← read energyGrid.xsPtrs idx)[nuc]?
  let uHigh ← g.upperBound hashBins energyGrid idx nuc
  let lower ← g.lowerPoint A pEnergy uLow uHigh
  pure (g.lowOf lower)

-- ============================================================ the lookups

/-- What `real_main` prepares before the simulation. -/
def prepare (hashBins : Nat) : GridType → Option EnergyGrid
  | .unionized => do
      let energies ← g.generateEnergyGrid
      let xsPtrs ← g.setGridPtrs energies
      pure ⟨energies, xsPtrs⟩
  | .nuclide => some ⟨[], []⟩
  | .hash => g.generateHashTable hashBins

/-- `idx` of `calculate_macro_xs` -/
def lookupIdx (hashBins : Nat) (energyGrid : EnergyGrid) (pEnergy : ℚ) : GridType → Option Int
  | .unionized =>
      (gridSearch (g.nIsotopes * g.nGridpoints) pEnergy energyGrid.energies).map Int.ofNat
  | .nuclide => some (-1)
  | .hash => some (hashIdx hashBins pEnergy)

/-- The index of `low` in `calculate_micro_xs`. -/
def microLow (hashBins : Nat) (energyGrid : EnergyGrid) (idx : Int) (pEnergy : ℚ) (nuc : Nat) :
    GridType → Option Nat
  | .nuclide => g.nuclideLow pEnergy nuc
  | .unionized => do
      let ptr ← (← read energyGrid.xsPtrs idx)[nuc]?
      pure (g.lowOf ptr)
  | .hash => g.hashLow hashBins energyGrid idx pEnergy nuc

end NuclideGrids

/-- `f`, the interpolation factor -/
def factor (byZero pEnergy : ℚ) (low high : NuclideGridPoint) : ℚ :=
  if high.energy - low.energy = 0 then byZero
  else (high.energy - pEnergy) / (high.energy - low.energy)

/-- `xs_vector` -/
def interpolate (byZero pEnergy : ℚ) (low high : NuclideGridPoint) : List ℚ :=
  List.zipWith (fun h l => h - factor byZero pEnergy low high * (h - l)) high.xs low.xs

namespace CrossSections

variable (c : CrossSections) (byZero : ℚ) (hashBins : Nat) (gridType : GridType)

/-- `calculate_micro_xs` -/
def calculateMicroXs (energyGrid : EnergyGrid) (pEnergy : ℚ) (idx : Int) (nuc : Nat) :
    Option (List ℚ) := do
  let i ← c.grids.microLow hashBins energyGrid idx pEnergy nuc gridType
  let A ← c.nuclideGrids[nuc]?
  let low ← A[i]?
  let high ← A[i + 1]?
  pure (interpolate byZero pEnergy low high)

/-- `calculate_macro_xs`, for a material as a list of its nuclides with
their concentrations -/
def calculateMacroXs (energyGrid : EnergyGrid) (pEnergy : ℚ) (mat : List (Nat × ℚ)) :
    Option (List ℚ) := do
  let idx ← c.grids.lookupIdx hashBins energyGrid pEnergy gridType
  mat.foldlM (fun macroXs (pNuc, conc) => do
    let xs ← c.calculateMicroXs byZero hashBins gridType energyGrid pEnergy idx pNuc
    pure (List.zipWith (fun m x => m + x * conc) macroXs xs)) (List.replicate 5 0)

end CrossSections

-- ========================================================== the materials

/-- `load_num_nucs` -/
def loadNumNucs (nIsotopes : Nat) : List Nat :=
  [if nIsotopes = 68 then 34 else 321, 5, 4, 4, 27, 21, 21, 21, 21, 21, 9, 9]

def mats0Sml : List Nat :=
  [58, 59, 60, 61, 40, 42, 43, 44, 45, 46, 1, 2, 3, 7, 8, 9, 10, 29, 57, 47, 48, 0, 62, 15, 33, 34,
    52, 53, 54, 55, 56, 18, 23, 41]

def mats0Lrg : List Nat := mats0Sml ++ (List.range (321 - 34)).map fun i => 68 + i

/-- `mats1` to `mats11` -/
def matsRest : List (List Nat) :=
  [[63, 64, 65, 66, 67],
   [24, 41, 4, 5],
   [24, 41, 4, 5],
   [19, 20, 21, 22, 35, 36, 37, 38, 39, 25, 27, 28, 29, 30, 31, 32, 26, 49, 50, 51, 11, 12, 13, 14,
     6, 16, 17],
   [24, 41, 4, 5, 19, 20, 21, 22, 35, 36, 37, 38, 39, 25, 49, 50, 51, 11, 12, 13, 14],
   [24, 41, 4, 5, 19, 20, 21, 22, 35, 36, 37, 38, 39, 25, 49, 50, 51, 11, 12, 13, 14],
   [24, 41, 4, 5, 19, 20, 21, 22, 35, 36, 37, 38, 39, 25, 49, 50, 51, 11, 12, 13, 14],
   [24, 41, 4, 5, 19, 20, 21, 22, 35, 36, 37, 38, 39, 25, 49, 50, 51, 11, 12, 13, 14],
   [24, 41, 4, 5, 19, 20, 21, 22, 35, 36, 37, 38, 39, 25, 49, 50, 51, 11, 12, 13, 14],
   [24, 41, 4, 5, 63, 64, 65, 66, 67],
   [24, 41, 4, 5, 63, 64, 65, 66, 67]]

/-- `memcpy` of the first `n` ids -/
def copyIds (mats : List Nat) (n : Nat) : Option (List Nat) :=
  if n ≤ mats.length then some (mats.take n) else none

/-- `load_mats` -/
def loadMats (nIsotopes : Nat) : Option (List (List Nat)) :=
  let mats0 := if nIsotopes = 68 then mats0Sml else mats0Lrg
  ((mats0 :: matsRest).zip (loadNumNucs nIsotopes)).mapM fun (mats, n) => copyIds mats n

-- ============================================================= the events

/-- `rn`: the value and the next seed -/
def rn (seed : Nat) : ℚ × Nat :=
  let n1 : Nat := 16807 * seed % 2 ^ 64 % 2147483647
  (n1 / 2147483647, n1)

/-- `dist` -/
def dist : List ℚ :=
  [140 / 1000, 52 / 1000, 275 / 1000, 134 / 1000, 154 / 1000, 64 / 1000, 66 / 1000, 55 / 1000,
    8 / 1000, 15 / 1000, 25 / 1000, 13 / 1000]

/-- The sum from `dist[i]` down to `dist[1]`. -/
def running (i : Nat) : ℚ := ((List.range' 1 i).map fun j => dist.getD j 0).sum

/-- `pick_mat`: the material and the next seed -/
def pickMat (seed : Nat) : Nat × Nat :=
  let (roll, seed) := rn seed
  (((List.range 12).find? fun i => roll < running i).getD 0, seed)

/-- The energy and the material of event `i`. -/
def sample (i : Nat) : ℚ × Nat :=
  let seed := (i + 1) * 13371337 % 2 ^ 64
  let (pEnergy, seed) := rn seed
  (pEnergy, (pickMat seed).1)

/-- The macroscopic cross sections of event `i`. -/
def CrossSections.event (c : CrossSections) (byZero : ℚ) (concs : Nat → Nat → ℚ) (hashBins : Nat)
    (gridType : GridType) (i : Nat) : Option (List ℚ) := do
  let energyGrid ← c.grids.prepare hashBins gridType
  let mats ← loadMats c.grids.nIsotopes
  let (pEnergy, mat) := sample i
  let nucs ← mats[mat]?
  c.calculateMacroXs byZero hashBins gridType energyGrid pEnergy
    (nucs.mapIdx fun j nuc => (nuc, concs mat j))

end ThesisBench.XsBench
