/-
The interval of a sorted list that a value falls in.

`Brackets A x j` says that `x` belongs between the elements `j` and
`j + 1`, where the first interval also takes what is below the list, and
the last one what is above. A sorted list has one such interval for each
value, and halving finds it.
-/
import Mathlib.Data.List.Basic
import Mathlib.Order.Defs.LinearOrder
import Mathlib.Tactic.Common
import Mathlib.Order.Lattice

namespace ThesisBench.Bisection

variable {E : Type} [LinearOrder E] {A : List E} {x : E} {j k : Nat}

/-- The search between `lower` and `upper`. -/
def halve (A : List E) (x : E) : Nat → Nat → Nat → Option Nat
  | 0, _, _ => none
  | fuel + 1, lower, upper =>
      if upper - lower > 1 then do
        let e ← A[lower + (upper - lower) / 2]?
        if e > x then halve A x fuel lower (lower + (upper - lower) / 2)
        else halve A x fuel (lower + (upper - lower) / 2) upper
      else some lower

structure Brackets (A : List E) (x : E) (j : Nat) : Prop where
  lt : j + 1 < A.length
  le : j = 0 ∨ ∃ e, A[j]? = some e ∧ e ≤ x
  gt : j + 2 = A.length ∨ ∃ e, A[j + 1]? = some e ∧ x < e

omit [LinearOrder E] in
theorem exists_get (h : j < A.length) : ∃ e, A[j]? = some e :=
  ⟨_, List.getElem?_eq_getElem h⟩

/-- In a sorted list a later element is no smaller. -/
theorem getElem?_le (hA : A.Pairwise (· ≤ ·)) (hjk : j ≤ k) {e f : E} (he : A[j]? = some e)
    (hf : A[k]? = some f) : e ≤ f := by
  obtain ⟨hj, rfl⟩ := List.getElem?_eq_some_iff.mp he
  obtain ⟨hk, rfl⟩ := List.getElem?_eq_some_iff.mp hf
  rcases Nat.lt_or_eq_of_le hjk with hlt | rfl
  · exact List.pairwise_iff_getElem.mp hA j k hj hk hlt
  · exact le_refl _

/-- Of two places of one number neither is before the other. -/
theorem Brackets.not_lt (hA : A.Pairwise (· ≤ ·)) (h : Brackets A x j) (h' : Brackets A x k) :
    ¬ j < k := by
  intro hjk
  rcases h'.le with hk | ⟨f, hf, hfx⟩
  · omega
  · rcases h.gt with hj | ⟨e, he, hxe⟩
    · have hlt := h'.lt
      omega
    · exact absurd (lt_of_lt_of_le hxe (le_trans (getElem?_le hA hjk he hf) hfx)) (lt_irrefl x)

theorem Brackets.unique (hA : A.Pairwise (· ≤ ·)) (h : Brackets A x j) (h' : Brackets A x k) :
    j = k :=
  Nat.le_antisymm (Nat.le_of_not_lt (h'.not_lt hA h)) (Nat.le_of_not_lt (h.not_lt hA h'))

/-- Halving keeps the place between the two ends, and ends at it. -/
theorem halve_spec (fuel : Nat) : ∀ lower upper : Nat, lower < upper → upper < A.length →
    upper - lower ≤ fuel →
    ∃ j, halve A x fuel lower upper = some j ∧ lower ≤ j ∧ j < upper
      ∧ (j = lower ∨ ∃ e, A[j]? = some e ∧ e ≤ x)
      ∧ (j + 1 = upper ∨ ∃ e, A[j + 1]? = some e ∧ x < e) := by
  induction fuel with
  | zero =>
      intro lower upper hlt _ hfuel
      omega
  | succ fuel ih =>
      intro lower upper hlt hin hfuel
      rw [halve]
      split
      case isTrue hlen =>
        have hget : A[lower + (upper - lower) / 2]? = some A[lower + (upper - lower) / 2] :=
          List.getElem?_eq_getElem (by omega)
        rw [hget, Option.bind_eq_bind, Option.bind_some]
        split
        case isTrue hgt =>
          obtain ⟨j, heq, hle, hj, hlow, hhigh⟩ := ih lower
            (lower + (upper - lower) / 2) (by omega) (by omega) (by omega)
          refine ⟨j, heq, hle, by omega, hlow, Or.inr ?_⟩
          rcases hhigh with hend | hhigh
          · exact ⟨_, by rw [hend]; exact hget, hgt⟩
          · exact hhigh
        case isFalse hge =>
          obtain ⟨j, heq, hle, hj, hlow, hhigh⟩ := ih
            (lower + (upper - lower) / 2) upper (by omega) (by omega) (by omega)
          refine ⟨j, heq, by omega, hj, Or.inr ?_, hhigh⟩
          rcases hlow with rfl | hlow
          · exact ⟨_, hget, le_of_not_gt hge⟩
          · exact hlow
      case isFalse hlen =>
        exact ⟨lower, rfl, Nat.le_refl _, hlt, Or.inl rfl, Or.inl (by omega)⟩

/-- Halving the whole list. -/
theorem halve_brackets (hA : 2 ≤ A.length) :
    ∃ j, halve A x A.length 0 (A.length - 1) = some j ∧ Brackets A x j := by
  obtain ⟨j, heq, -, hlt, hle, hgt⟩ := halve_spec (A := A) (x := x) A.length 0 (A.length - 1)
    (by omega) (by omega) (by omega)
  refine ⟨j, heq, by omega, hle, ?_⟩
  rcases hgt with hend | hgt
  · exact Or.inl (by omega)
  · exact Or.inr hgt

end ThesisBench.Bisection
