/-
Layouts: what the connections between placed items cost, and how the cost
changes when two items change places.

Every ordered pair of items has a weight and every two places have a
distance; weight and distance are symmetric and a place has no distance
from itself. The cost of a layout is the weighted sum over all ordered
pairs. An estimate that moves each of the two items alone, with the other
still where it was, sees the pairs of the two items with a third one
rightly (`cost_swap`); it is off by the weights of the two items with each
other and with themselves.
-/
import Mathlib.Algebra.BigOperators.Group.Finset.Basic
import Mathlib.Algebra.BigOperators.Ring.Finset
import Mathlib.Logic.Equiv.Basic
import Mathlib.Tactic.LinearCombination
import Mathlib.Tactic.Ring

namespace ThesisBench.Layout

variable {ι X : Type _} [DecidableEq ι]

/-- The cost of all pairs of items of `s`. -/
def cost (s : Finset ι) (w : ι → ι → ℤ) (d : X → X → ℤ) (p : ι → X) : ℤ :=
  ∑ i ∈ s, ∑ j ∈ s, w i j * d (p i) (p j)

/-- What moving one item from `x` to `y` changes, all others in place. -/
def moveCost (s : Finset ι) (w : ι → ι → ℤ) (d : X → X → ℤ) (p : ι → X) (i : ι) (x y : X) : ℤ :=
  ∑ j ∈ s, w i j * (d y (p j) - d x (p j))

variable {s : Finset ι} {w : ι → ι → ℤ} {d : X → X → ℤ} {p : ι → X} {a b : ι}

/-- A sum with two of its terms in front. -/
theorem sum_two (ha : a ∈ s) (hb : b ∈ s) (hab : a ≠ b) (f : ι → ℤ) :
    ∑ i ∈ s, f i = f a + f b + ∑ i ∈ (s.erase a).erase b, f i := by
  rw [← Finset.add_sum_erase s f ha,
    ← Finset.add_sum_erase (s.erase a) f (Finset.mem_erase.mpr ⟨hab.symm, hb⟩), add_assoc]

/-- The cost, seen from two of the items. -/
theorem cost_two (hw : ∀ i j, w i j = w j i) (hd : ∀ x y, d x y = d y x) (ha : a ∈ s)
    (hb : b ∈ s) (hab : a ≠ b) : cost s w d p
      = w a a * d (p a) (p a) + w b b * d (p b) (p b) + 2 * (w a b * d (p a) (p b))
        + 2 * ∑ j ∈ (s.erase a).erase b, (w a j * d (p a) (p j) + w b j * d (p b) (p j))
        + ∑ i ∈ (s.erase a).erase b, ∑ j ∈ (s.erase a).erase b, w i j * d (p i) (p j) := by
  unfold cost
  rw [sum_two ha hb hab]
  have hinner : ∀ i, ∑ j ∈ s, w i j * d (p i) (p j)
      = w i a * d (p i) (p a) + w i b * d (p i) (p b)
        + ∑ j ∈ (s.erase a).erase b, w i j * d (p i) (p j) :=
    fun i => sum_two ha hb hab _
  have hcols : ∑ i ∈ (s.erase a).erase b, (w i a * d (p i) (p a) + w i b * d (p i) (p b))
      = ∑ j ∈ (s.erase a).erase b, (w a j * d (p a) (p j) + w b j * d (p b) (p j)) := by
    refine Finset.sum_congr rfl fun i _ => ?_
    rw [hw i a, hw i b, hd (p i) (p a), hd (p i) (p b)]
  simp only [hinner, Finset.sum_add_distrib] at hcols ⊢
  rw [hw b a, hd (p b) (p a)]
  linear_combination hcols

/-- Two items change places: twice the estimate for each of them, less what
the estimates get wrong about the two themselves. -/
theorem cost_swap (hw : ∀ i j, w i j = w j i) (hd : ∀ x y, d x y = d y x)
    (hz : ∀ x, d x x = 0) (ha : a ∈ s) (hb : b ∈ s) (hab : a ≠ b) :
    cost s w d (p ∘ Equiv.swap a b) - cost s w d p
      = 2 * (moveCost s w d p a (p a) (p b) + moveCost s w d p b (p b) (p a))
        - 2 * (d (p a) (p b) * (w a a + w b b - 2 * w a b)) := by
  have hsame : ∀ i ∈ (s.erase a).erase b, (p ∘ Equiv.swap a b) i = p i := by
    intro i hi
    obtain ⟨hib, hi⟩ := Finset.mem_erase.mp hi
    obtain ⟨hia, -⟩ := Finset.mem_erase.mp hi
    rw [Function.comp_apply, Equiv.swap_apply_of_ne_of_ne hia hib]
  have hat : (p ∘ Equiv.swap a b) a = p b := by
    rw [Function.comp_apply, Equiv.swap_apply_left]
  have hbt : (p ∘ Equiv.swap a b) b = p a := by
    rw [Function.comp_apply, Equiv.swap_apply_right]
  have hrows : ∑ j ∈ (s.erase a).erase b, (w a j * d ((p ∘ Equiv.swap a b) a)
        ((p ∘ Equiv.swap a b) j) + w b j * d ((p ∘ Equiv.swap a b) b) ((p ∘ Equiv.swap a b) j))
      = ∑ j ∈ (s.erase a).erase b, (w a j * d (p b) (p j) + w b j * d (p a) (p j)) := by
    refine Finset.sum_congr rfl fun j hj => ?_
    rw [hat, hbt, hsame j hj]
  have hrest : ∑ i ∈ (s.erase a).erase b, ∑ j ∈ (s.erase a).erase b,
        w i j * d ((p ∘ Equiv.swap a b) i) ((p ∘ Equiv.swap a b) j)
      = ∑ i ∈ (s.erase a).erase b, ∑ j ∈ (s.erase a).erase b, w i j * d (p i) (p j) := by
    refine Finset.sum_congr rfl fun i hi => Finset.sum_congr rfl fun j hj => ?_
    rw [hsame i hi, hsame j hj]
  have hmove : moveCost s w d p a (p a) (p b) + moveCost s w d p b (p b) (p a)
      = d (p a) (p b) * (w a a + w b b - 2 * w a b)
        + ∑ j ∈ (s.erase a).erase b, (w a j * d (p b) (p j) + w b j * d (p a) (p j))
        - ∑ j ∈ (s.erase a).erase b, (w a j * d (p a) (p j) + w b j * d (p b) (p j)) := by
    unfold moveCost
    rw [← Finset.sum_add_distrib, sum_two ha hb hab, add_sub_assoc, ← Finset.sum_sub_distrib,
      hz, hz, hw b a, hd (p b) (p a)]
    congr 1
    · ring
    · exact Finset.sum_congr rfl fun j _ => by ring
  rw [cost_two hw hd ha hb hab, cost_two hw hd ha hb hab, hrows, hrest, hmove, hat, hbt, hz, hz,
    hd (p b) (p a)]
  ring

end ThesisBench.Layout
