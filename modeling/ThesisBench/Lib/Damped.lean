/-
Vectors under a map that damps differences.

A map brings any two vectors nearer, by a factor below one in the sum of
the absolute differences. Then how far a vector moves says how far it is
from a vector that stays (`away_fixed_le`), and when the map is linear
but for a constant there is a vector that stays (`exists_fixed`).
-/
import Mathlib.Algebra.Order.BigOperators.Group.Finset
import Mathlib.LinearAlgebra.FiniteDimensional.Basic
import Mathlib.Tactic.Linarith

namespace ThesisBench.Damped

variable {ι K : Type*} [Fintype ι] [Field K] [LinearOrder K]

/-- How far two vectors are from each other. -/
def away (x y : ι → K) : K := ∑ i, |x i - y i|

theorem away_comm (x y : ι → K) : away x y = away y x :=
  Finset.sum_congr rfl fun i _ => abs_sub_comm (x i) (y i)

variable [IsStrictOrderedRing K]

theorem away_nonneg (x y : ι → K) : 0 ≤ away x y := Finset.sum_nonneg fun _ _ => abs_nonneg _

theorem away_le_add (x y z : ι → K) : away x z ≤ away x y + away y z := by
  unfold away
  rw [← Finset.sum_add_distrib]
  exact Finset.sum_le_sum fun i _ => abs_sub_le (x i) (y i) (z i)

/-- Vectors that are nothing apart are equal. -/
theorem eq_of_away_le_zero {x y : ι → K} (h : away x y ≤ 0) : x = y := by
  have hzero : away x y = 0 := le_antisymm h (away_nonneg x y)
  funext i
  have hi := (Finset.sum_eq_zero_iff_of_nonneg fun i _ => abs_nonneg _).mp hzero i
    (Finset.mem_univ i)
  exact sub_eq_zero.mp (abs_eq_zero.mp hi)

/-- The map `f` brings vectors nearer by the factor `d`. -/
def Damps (f : (ι → K) → ι → K) (d : K) : Prop := ∀ x y, away (f x) (f y) ≤ d * away x y

variable {f : (ι → K) → ι → K} {d : K}

/-- A vector is no further from the fixed one than its own move tells. -/
theorem Damps.away_fixed_le (h : Damps f d) {x : ι → K} (hx : f x = x) (y : ι → K) :
    (1 - d) * away y x ≤ away (f y) y := by
  have hmove := h y x
  rw [hx] at hmove
  have htri := away_le_add y (f y) x
  rw [away_comm y (f y)] at htri
  linarith

/-- A vector moves no further than its way to the fixed one allows. -/
theorem Damps.moves_le (h : Damps f d) {x : ι → K} (hx : f x = x) (y : ι → K) :
    away (f y) y ≤ (1 + d) * away y x := by
  have hmove := h y x
  rw [hx] at hmove
  have htri := away_le_add (f y) x y
  rw [away_comm x y] at htri
  linarith

/-- With a factor below 1 there is one fixed vector. -/
theorem Damps.fixed_unique (h : Damps f d) (hd : d < 1) {x y : ι → K} (hx : f x = x)
    (hy : f y = y) : y = x := by
  have hle := h.away_fixed_le hx y
  have hzero : away (f y) y = 0 := by
    rw [hy]
    exact Finset.sum_eq_zero fun i _ => by rw [sub_self, abs_zero]
  refine eq_of_away_le_zero ?_
  rw [hzero] at hle
  have hpos : 0 < 1 - d := sub_pos.mpr hd
  exact nonpos_of_mul_nonpos_right hle hpos

/-- Of a linear map with a constant. -/
theorem exists_fixed (L : (ι → K) →ₗ[K] ι → K) (b : ι → K) (hd : d < 1)
    (h : Damps (fun x => b + L x) d) : ∃ x, b + L x = x := by
  have hinj : Function.Injective (LinearMap.id - L : (ι → K) →ₗ[K] ι → K) := by
    rw [← LinearMap.ker_eq_bot, LinearMap.ker_eq_bot']
    intro x hx
    have hfix : L x = x := (sub_eq_zero.mp hx).symm
    -- a vector that the linear part keeps is as far from zero as its image
    have hdamp := h x 0
    have hsame : away (b + L x) (b + L 0) = away x 0 := by
      refine Finset.sum_congr rfl fun i _ => ?_
      rw [map_zero, hfix, Pi.add_apply, Pi.add_apply, add_sub_add_left_eq_sub]
    dsimp only at hdamp
    rw [hsame] at hdamp
    have hpos : 0 < 1 - d := sub_pos.mpr hd
    have hle : (1 - d) * away x 0 ≤ 0 := by linarith
    exact eq_of_away_le_zero (nonpos_of_mul_nonpos_right hle hpos)
  obtain ⟨x, hx⟩ := LinearMap.injective_iff_surjective.mp hinj b
  refine ⟨x, ?_⟩
  have hx : x - L x = b := hx
  rw [← hx, sub_add_cancel]

end ThesisBench.Damped
