/-
The routing cost of a placed netlist: `netlist_elem.cpp`,
`calculate_delta_routing_cost` of `annealer_thread.cpp` and
`total_routing_cost` of `netlist.cpp`.

The source adds up `fabs` of differences of `int` coordinates in a
`double`; here the sums are integers, and the total is halved as integers
are. A placement gives each element the location its `present_loc` points
to. `AtomicPtr::Swap` is taken as a whole (`Swap.lean` has its steps).
-/
import Mathlib.Algebra.BigOperators.Group.List.Basic
import Mathlib.Algebra.Order.Group.Unbundled.Int
import Mathlib.Logic.Equiv.Basic
import Mathlib.Algebra.Ring.Nat
import Mathlib.Algebra.Ring.Int.Defs

namespace ThesisBench.Canneal.Cost

/-- `location_t` -/
structure Location where
  x : Int
  y : Int
deriving DecidableEq, Repr

/-- The elements and their connections: `j` is as often a fanin of `i` as
`i` is a fanout of `j`. -/
structure Netlist where
  numElements : Nat
  fanin : Nat → List Nat
  fanout : Nat → List Nat
  fanin_lt : ∀ i < numElements, ∀ j ∈ fanin i, j < numElements
  fanout_lt : ∀ i < numElements, ∀ j ∈ fanout i, j < numElements
  mutually : ∀ i < numElements, ∀ j < numElements, (fanin i).count j = (fanout j).count i

/-- `present_loc`, element by element. -/
abbrev Placement := Nat → Location

/-- `fabs(a.x - b.x)` and `fabs(a.y - b.y)` -/
def distance (a b : Location) : Int := |a.x - b.x| + |a.y - b.y|

/-- `netlist_elem::routing_cost_given_loc` -/
def routingCostGivenLoc (n : Netlist) (p : Placement) (elem : Nat) (loc : Location) : Int :=
  let faninCost := ((n.fanin elem).map fun j => distance loc (p j)).sum
  let fanoutCost := ((n.fanout elem).map fun j => distance loc (p j)).sum
  faninCost + fanoutCost

/-- `netlist_elem::swap_cost` -/
def swapCost (n : Netlist) (p : Placement) (elem : Nat) (oldLoc newLoc : Location) : Int :=
  let noSwap := ((n.fanin elem).map fun j => distance oldLoc (p j)).sum
    + ((n.fanout elem).map fun j => distance oldLoc (p j)).sum
  let yesSwap := ((n.fanin elem).map fun j => distance newLoc (p j)).sum
    + ((n.fanout elem).map fun j => distance newLoc (p j)).sum
  yesSwap - noSwap

/-- `annealer_thread::calculate_delta_routing_cost` -/
def calculateDeltaRoutingCost (n : Netlist) (p : Placement) (a b : Nat) : Int :=
  swapCost n p a (p a) (p b) + swapCost n p b (p b) (p a)

/-- `netlist::total_routing_cost` -/
def totalRoutingCost (n : Netlist) (p : Placement) : Int :=
  ((List.range n.numElements).map fun i => routingCostGivenLoc n p i (p i)).sum / 2

/-- `netlist::swap_locations` -/
def swapLocations (p : Placement) (a b : Nat) : Placement :=
  Function.update (Function.update p a (p b)) b (p a)

/-- The connections between two elements, in both directions. -/
def between (n : Netlist) (a b : Nat) : Nat := (n.fanin a).count b + (n.fanin b).count a

/-- The connections of an element to itself. -/
def selfConnections (n : Netlist) (a : Nat) : Nat := (n.fanin a).count a

end ThesisBench.Canneal.Cost
