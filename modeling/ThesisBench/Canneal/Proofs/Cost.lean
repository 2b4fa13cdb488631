/-
When the annealer's delta is the change of the total.

The total counts each connection from both of its ends, so it is the cost
of a layout with symmetric weights, and the delta is what moving each of
the two elements alone would change. The two differ by the connections the
elements have with each other, each counted as if it vanished, and by
those an element has with itself, each counted as if it appeared.
-/
import ThesisBench.Canneal.Cost
import ThesisBench.Lib.Layout
import ThesisBench.Lib.Pull
import Mathlib.Algebra.BigOperators.Group.Finset.Basic
import Mathlib.Algebra.BigOperators.Group.Finset.Lemmas
import Mathlib.Algebra.BigOperators.Group.Finset.Sigma

namespace ThesisBench.Canneal.Cost

open Layout

variable {n : Netlist} {p : Placement} {a b : Nat}

-- ============================================================ distances

theorem distance_comm (x y : Location) : distance x y = distance y x := by
  unfold distance
  rw [abs_sub_comm x.x, abs_sub_comm x.y]

theorem distance_self (x : Location) : distance x x = 0 := by
  unfold distance
  rw [sub_self, sub_self, abs_zero, add_zero]

/-- Only equal places are at no distance. -/
theorem distance_eq_zero {x y : Location} : distance x y = 0 ↔ x = y := by
  constructor
  · intro h
    unfold distance at h
    have hx := abs_nonneg (x.x - y.x)
    have hy := abs_nonneg (x.y - y.y)
    have h₁ : |x.x - y.x| = 0 := by omega
    have h₂ : |x.y - y.y| = 0 := by omega
    obtain ⟨x₁, x₂⟩ := x
    obtain ⟨y₁, y₂⟩ := y
    rw [abs_eq_zero, sub_eq_zero] at h₁ h₂
    simp only at h₁ h₂
    rw [h₁, h₂]
  · rintro rfl
    exact distance_self x

-- ============================================================== weights

/-- The connections of two elements as both of them count them. -/
def weight (n : Netlist) (i j : Nat) : Int := (n.fanin i).count j + (n.fanin j).count i

theorem weight_comm (i j : Nat) : weight n i j = weight n j i := by
  unfold weight
  exact add_comm _ _

/-- Both vectors of an element together. -/
theorem sum_fanin_fanout {i : Nat} (hi : i < n.numElements) (f : Nat → Int) :
    ((n.fanin i).map f).sum + ((n.fanout i).map f).sum
      = ∑ j ∈ Finset.range n.numElements, weight n i j * f j := by
  rw [Pull.sum_map_count fun j hj => Finset.mem_range.mpr (n.fanin_lt i hi j hj),
    Pull.sum_map_count fun j hj => Finset.mem_range.mpr (n.fanout_lt i hi j hj),
    ← Finset.sum_add_distrib]
  refine Finset.sum_congr rfl fun j hj => ?_
  rw [← n.mutually j (Finset.mem_range.mp hj) i hi]
  unfold weight
  rw [nsmul_eq_mul, nsmul_eq_mul]
  exact (add_mul _ _ _).symm

/-- `swap_cost` is what moving the element alone costs. -/
theorem swapCost_eq_moveCost {i : Nat} (hi : i < n.numElements) (x y : Location) :
    swapCost n p i x y = moveCost (Finset.range n.numElements) (weight n) distance p i x y := by
  unfold swapCost moveCost
  dsimp only
  rw [sum_fanin_fanout hi, sum_fanin_fanout hi, ← Finset.sum_sub_distrib]
  exact Finset.sum_congr rfl fun j _ => (mul_sub _ _ _).symm

/-- Each connection is counted from both ends. -/
theorem cost_even : cost (Finset.range n.numElements) (weight n) distance p
    = 2 * ∑ i ∈ Finset.range n.numElements, ∑ j ∈ Finset.range n.numElements,
        ((n.fanin i).count j : Int) * distance (p i) (p j) := by
  have hflip : ∑ i ∈ Finset.range n.numElements, ∑ j ∈ Finset.range n.numElements,
        ((n.fanin j).count i : Int) * distance (p i) (p j)
      = ∑ i ∈ Finset.range n.numElements, ∑ j ∈ Finset.range n.numElements,
        ((n.fanin i).count j : Int) * distance (p i) (p j) := by
    rw [Finset.sum_comm]
    refine Finset.sum_congr rfl fun i _ => Finset.sum_congr rfl fun j _ => ?_
    rw [distance_comm]
  unfold cost weight
  simp only [add_mul, Finset.sum_add_distrib]
  rw [hflip, two_mul]

/-- The total is half the cost, and there is nothing to round. -/
theorem two_mul_totalRoutingCost : 2 * totalRoutingCost n p
    = cost (Finset.range n.numElements) (weight n) distance p := by
  have hsum : ((List.range n.numElements).map fun i => routingCostGivenLoc n p i (p i)).sum
      = cost (Finset.range n.numElements) (weight n) distance p := by
    unfold cost
    rw [Pull.sum_map_count fun j hj => Finset.mem_range.mpr (List.mem_range.mp hj)]
    refine Finset.sum_congr rfl fun i hi => ?_
    have hi := Finset.mem_range.mp hi
    rw [List.count_eq_one_of_mem List.nodup_range (List.mem_range.mpr hi), one_nsmul]
    exact sum_fanin_fanout hi _
  unfold totalRoutingCost
  rw [hsum, cost_even]
  omega

/-- Swapping locations composes the placement with a transposition. -/
theorem swapLocations_eq (p : Placement) (a b : Nat) :
    swapLocations p a b = p ∘ Equiv.swap a b := by
  funext i
  unfold swapLocations
  rw [Function.comp_apply]
  by_cases hb : i = b
  · subst hb
    rw [Function.update_self, Equiv.swap_apply_right]
  · rw [Function.update_of_ne hb]
    by_cases ha : i = a
    · subst ha
      rw [Function.update_self, Equiv.swap_apply_left]
    · rw [Function.update_of_ne ha, Equiv.swap_apply_of_ne_of_ne ha hb]

-- ============================================================= the delta

/-- How far the delta is off. -/
theorem calculateDeltaRoutingCost_eq (ha : a < n.numElements) (hb : b < n.numElements)
    (hab : a ≠ b) : calculateDeltaRoutingCost n p a b
      = totalRoutingCost n (swapLocations p a b) - totalRoutingCost n p
        + 2 * distance (p a) (p b)
          * (selfConnections n a + selfConnections n b - between n a b : Int) := by
  have hswap := cost_swap (s := Finset.range n.numElements) (w := weight n) (p := p)
    weight_comm distance_comm distance_self (Finset.mem_range.mpr ha) (Finset.mem_range.mpr hb) hab
  rw [← swapLocations_eq, ← two_mul_totalRoutingCost, ← two_mul_totalRoutingCost,
    ← swapCost_eq_moveCost ha, ← swapCost_eq_moveCost hb] at hswap
  unfold calculateDeltaRoutingCost
  have hself : weight n a a + weight n b b - 2 * weight n a b
      = 2 * (selfConnections n a + selfConnections n b - between n a b : Int) := by
    unfold weight selfConnections between
    push_cast
    ring
  rw [hself] at hswap
  refine mul_left_cancel₀ (two_ne_zero (α := Int)) ?_
  linear_combination -hswap

/-- The delta is the change of the total exactly when the two elements have
as many connections with each other as with themselves, or stand at the
same place. -/
theorem calculateDeltaRoutingCost_iff (n : Netlist) (p : Placement) (a b : Nat)
    (ha : a < n.numElements) (hb : b < n.numElements) (hab : a ≠ b) :
    calculateDeltaRoutingCost n p a b
        = totalRoutingCost n (swapLocations p a b) - totalRoutingCost n p
      ↔ between n a b = selfConnections n a + selfConnections n b ∨ p a = p b := by
  rw [calculateDeltaRoutingCost_eq ha hb hab, add_eq_left, mul_eq_zero, mul_eq_zero]
  simp only [distance_eq_zero, OfNat.ofNat_ne_zero, false_or]
  rw [or_comm]
  refine or_congr ?_ Iff.rfl
  omega

-- ======================================================= three elements

/-- Element 0 has the only connection, to element 1. -/
def three : Netlist where
  numElements := 3
  fanin := fun i => if i = 0 then [1] else []
  fanout := fun i => if i = 1 then [0] else []
  fanin_lt := by decide
  fanout_lt := by decide
  mutually := by decide

/-- Places in a row. -/
def row : Placement := fun i => ⟨i, 0⟩

/-- Elements without a connection between them. -/
theorem calculateDeltaRoutingCost_iff_apart :
    calculateDeltaRoutingCost three row 0 2
      = totalRoutingCost three (swapLocations row 0 2) - totalRoutingCost three row :=
  (calculateDeltaRoutingCost_iff three row 0 2 (by decide) (by decide) (by decide)).mpr
    (Or.inl (by decide))

/-- Two elements that are connected: the total stays at 1, the delta is
-2. -/
theorem not_calculateDeltaRoutingCost :
    ¬ calculateDeltaRoutingCost three row 0 1
      = totalRoutingCost three (swapLocations row 0 1) - totalRoutingCost three row := by
  decide

end ThesisBench.Canneal.Cost
