/-
Forests of natural numbers.

A function that never goes up, `f x ≤ x`, points every number at its
parent, and the numbers that point at themselves are the roots. Two
changes of a pointer matter: a root that is hung below a smaller number
joins two trees (`root_link`), and a number that is moved to a smaller
one of its own tree leaves every root as it is (`root_move`).
-/
import Mathlib.Logic.Function.Basic
import Mathlib.Order.Basic
import Mathlib.Data.Nat.Init
import Mathlib.Tactic.Common

namespace ThesisBench.Forest

/-- Where the pointers lead from `x`. -/
def root (f : Nat → Nat) (x : Nat) : Nat :=
  if f x < x then root f (f x) else x

variable {f : Nat → Nat} {x y : Nat}

/-- A number that points lower has its parent's root. -/
theorem root_of_lt (h : f x < x) : root f x = root f (f x) := by
  rw [root, if_pos h]

theorem root_of_fixed (h : f x = x) : root f x = x := by
  rw [root, if_neg (by omega)]

/-- A root is no larger than what it is the root of. -/
theorem root_le (f : Nat → Nat) (x : Nat) : root f x ≤ x := by
  induction x using Nat.strong_induction_on with
  | _ x ih =>
      by_cases h : f x < x
      · have hle := ih (f x) h
        rw [root_of_lt h]
        omega
      · have heq : root f x = x := by rw [root, if_neg h]
        exact Nat.le_of_eq heq

/-- A number and its parent have one root. -/
theorem root_parent (hf : ∀ x, f x ≤ x) (x : Nat) : root f (f x) = root f x := by
  by_cases h : f x < x
  · rw [root_of_lt h]
  · have hx : f x = x := by
      have hle := hf x
      omega
    rw [hx]

/-- A root points at itself. -/
theorem root_fixed (hf : ∀ x, f x ≤ x) (x : Nat) : f (root f x) = root f x := by
  induction x using Nat.strong_induction_on with
  | _ x ih =>
      by_cases h : f x < x
      · rw [root_of_lt h]
        exact ih (f x) h
      · have hx : f x = x := by
          have hle := hf x
          omega
        rw [root_of_fixed hx, hx]

theorem root_root (hf : ∀ x, f x ≤ x) (x : Nat) : root f (root f x) = root f x :=
  root_of_fixed (root_fixed hf x)

/-- A relation that holds between a number and its parent holds between
a number and its root. -/
theorem root_rel {r : Nat → Nat → Prop} (hr : ∀ x, r x x)
    (htrans : ∀ x y z, r x y → r y z → r x z) (hf : ∀ x, r x (f x)) (x : Nat) :
    r x (root f x) := by
  induction x using Nat.strong_induction_on with
  | _ x ih =>
      by_cases h : f x < x
      · rw [root_of_lt h]
        exact htrans x (f x) _ (hf x) (ih (f x) h)
      · rw [root, if_neg h]
        exact hr x

/-- Pointers still lead down after one is turned to a smaller number. -/
theorem update_le (hf : ∀ x, f x ≤ x) (h : y ≤ x) (z : Nat) :
    Function.update f x y z ≤ z := by
  by_cases hz : z = x
  · subst hz
    rw [Function.update_self]
    exact h
  · rw [Function.update_of_ne hz]
    exact hf z

/-- A root hung below a smaller number. -/
theorem root_link {high low : Nat} (hroot : f high = high) (hlow : low < high) (z : Nat) :
    root (Function.update f high low) z
      = if root f z = high then root f low else root f z := by
  have hne : root f low ≠ high := by
    have hle := root_le f low
    omega
  induction z using Nat.strong_induction_on with
  | _ z ih =>
      by_cases hz : z = high
      · subst hz
        have hself : Function.update f z low z = low := Function.update_self ..
        rw [root_of_lt (by rw [hself]; exact hlow), hself, ih low hlow, if_neg hne,
          root_of_fixed hroot, if_pos rfl]
      · have hother : Function.update f high low z = f z := Function.update_of_ne hz ..
        by_cases hlt : f z < z
        · rw [root_of_lt (by rw [hother]; exact hlt), hother, ih (f z) hlt, root_of_lt hlt]
        · rw [root, hother, if_neg hlt, root, if_neg hlt, if_neg hz]

/-- Numbers with one root keep one root. -/
theorem root_link_eq {high low : Nat} (hroot : f high = high) (hlow : low < high)
    (h : root f x = root f y) :
    root (Function.update f high low) x = root (Function.update f high low) y := by
  rw [root_link hroot hlow, root_link hroot hlow, h]

/-- A number moved to a smaller one of its own tree. -/
theorem root_move {n a : Nat} (ha : a < n) (hroot : root f a = root f n) (z : Nat) :
    root (Function.update f n a) z = root f z := by
  induction z using Nat.strong_induction_on with
  | _ z ih =>
      by_cases hz : z = n
      · subst hz
        have hself : Function.update f z a z = a := Function.update_self ..
        rw [root_of_lt (by rw [hself]; exact ha), hself, ih a ha, hroot]
      · have hother : Function.update f n a z = f z := Function.update_of_ne hz ..
        by_cases hlt : f z < z
        · rw [root_of_lt (by rw [hother]; exact hlt), hother, ih (f z) hlt, root_of_lt hlt]
        · rw [root, hother, if_neg hlt, root, if_neg hlt]

end ThesisBench.Forest
