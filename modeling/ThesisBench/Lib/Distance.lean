/-
Walks and distances.

`Walk r s k x` is a walk of `k` steps of the relation `r` from `s` to
`x`, and `Dist r s k x` says that `k` is the length of a shortest one. A
search that goes level by level rests on three facts: every level is
reached from the one before (`Dist.pred`), a step leads at most one
level further (`Dist.succ`), and no level below an inhabited one is
empty (`Dist.below`). What such a search has found when it comes to a
level, and what it has found in the end, is `Dist.found`.
-/
import Mathlib.Order.Bounds.Basic
import Mathlib.Order.Lattice.Nat
import Mathlib.Tactic.Common

namespace ThesisBench.Distance

variable {α : Type _}

inductive Walk (r : α → α → Prop) (s : α) : Nat → α → Prop
  | nil : Walk r s 0 s
  | snoc {k : Nat} {x y : α} : Walk r s k x → r x y → Walk r s (k + 1) y

/-- `k` is the distance from `s` to `x`. -/
def Dist (r : α → α → Prop) (s : α) (k : Nat) (x : α) : Prop :=
  IsLeast {k | Walk r s k x} k

variable {r : α → α → Prop} {s x y : α} {j k : Nat}

theorem Walk.trans (hx : Walk r s j x) (hy : Walk r x k y) : Walk r s (j + k) y := by
  induction hy with
  | nil => exact hx
  | snoc _ hxy ih => exact ih.snoc hxy

theorem Dist.unique (hj : Dist r s j x) (hk : Dist r s k x) : j = k :=
  IsLeast.unique hj hk

/-- What a walk leads to has a distance, and no longer one. -/
theorem Walk.exists_dist (h : Walk r s k x) : ∃ j ≤ k, Dist r s j x :=
  ⟨sInf {k | Walk r s k x}, Nat.sInf_le h, Nat.sInf_mem ⟨k, h⟩, fun _ hi => Nat.sInf_le hi⟩

theorem dist_start (r : α → α → Prop) (s : α) : Dist r s 0 s :=
  ⟨.nil, fun _ _ => Nat.zero_le _⟩

theorem Dist.eq_start (h : Dist r s 0 x) : x = s := by
  cases h.1
  rfl

theorem Dist.succ (h : Dist r s k x) (hxy : r x y) : ∃ j ≤ k + 1, Dist r s j y :=
  (h.1.snoc hxy).exists_dist

/-- The last step of a shortest walk comes from the level before. -/
theorem Dist.pred (h : Dist r s (k + 1) y) : ∃ x, Dist r s k x ∧ r x y := by
  cases h.1 with
  | snoc hx hxy =>
      refine ⟨_, ⟨hx, fun j hj => ?_⟩, hxy⟩
      have hle : k + 1 ≤ j + 1 := h.2 (hj.snoc hxy)
      omega

/-- Every level below an inhabited one is inhabited. -/
theorem Dist.below (h : Dist r s k x) (hj : j ≤ k) : ∃ y, Dist r s j y := by
  induction k generalizing x with
  | zero =>
      have hj : j = 0 := by omega
      exact ⟨x, hj ▸ h⟩
  | succ k ih =>
      by_cases hjk : j = k + 1
      · exact ⟨x, hjk ▸ h⟩
      · obtain ⟨y, hy, -⟩ := h.pred
        exact ih hy (by omega)

/-- Where every step from what is done has been found, and what was found
below level `d` is done, nothing up to level `d` is missing. -/
theorem Dist.found (found done : α → Prop) {d : Nat} (hstart : found s)
    (hclosed : ∀ x y, done x → r x y → found y)
    (hdone : ∀ x j, found x → Dist r s j x → j < d → done x)
    (h : Dist r s k x) (hk : k ≤ d) : found x := by
  induction k generalizing x with
  | zero => exact h.eq_start ▸ hstart
  | succ k ih =>
      obtain ⟨y, hy, hyx⟩ := h.pred
      exact hclosed y x (hdone y k (ih hy (by omega)) hy (by omega)) hyx

end ThesisBench.Distance
