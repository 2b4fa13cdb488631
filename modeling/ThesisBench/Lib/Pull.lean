/-
What is pulled is what was pushed.

Every place has a list of places it pulls from and a list of places that
pull from it, with repetition, and the two say the same. Then the sum of
all that is pulled is the sum of what each place gives, as often as it is
pulled from (`sum_pull`).
-/
import Mathlib.Algebra.BigOperators.Group.Finset.Basic
import Mathlib.Algebra.BigOperators.Group.Finset.Sigma

namespace ThesisBench.Pull

variable {α M : Type*} [DecidableEq α] [AddCommMonoid M] {V : Finset α}

/-- A sum over a list, place by place. -/
theorem sum_map_count {l : List α} (hl : ∀ v ∈ l, v ∈ V) (f : α → M) :
    (l.map f).sum = ∑ v ∈ V, l.count v • f v := by
  rw [Finset.sum_list_map_count]
  refine Finset.sum_subset (fun v hv => hl v (List.mem_toFinset.mp hv)) fun v _ hv => ?_
  rw [List.count_eq_zero.mpr fun h => hv (List.mem_toFinset.mpr h), zero_nsmul]

/-- Counting each element of a list by its value counts them all. -/
theorem sum_count {l : List α} (hl : ∀ v ∈ l, v ∈ V) : ∑ v ∈ V, l.count v = l.length := by
  rw [← Finset.sum_subset (fun v hv => hl v (List.mem_toFinset.mp hv)) fun v _ hv =>
    List.count_eq_zero.mpr fun h => hv (List.mem_toFinset.mpr h)]
  exact List.sum_toFinset_count_eq_length l

/-- What is pulled along all edges is what is pushed along them. -/
theorem sum_pull {ins outs : α → List α} (hins : ∀ u ∈ V, ∀ v ∈ ins u, v ∈ V)
    (houts : ∀ v ∈ V, ∀ u ∈ outs v, u ∈ V)
    (hcount : ∀ u ∈ V, ∀ v ∈ V, (ins u).count v = (outs v).count u) (f : α → M) :
    ∑ u ∈ V, ((ins u).map f).sum = ∑ v ∈ V, (outs v).length • f v :=
  calc ∑ u ∈ V, ((ins u).map f).sum
      = ∑ u ∈ V, ∑ v ∈ V, (ins u).count v • f v :=
        Finset.sum_congr rfl fun u hu => sum_map_count (hins u hu) f
    _ = ∑ v ∈ V, ∑ u ∈ V, (ins u).count v • f v := Finset.sum_comm
    _ = ∑ v ∈ V, ∑ u ∈ V, (outs v).count u • f v :=
        Finset.sum_congr rfl fun v hv => Finset.sum_congr rfl fun u hu => by
          rw [hcount u hu v hv]
    _ = ∑ v ∈ V, (outs v).length • f v :=
        Finset.sum_congr rfl fun v hv => by
          rw [← sum_count (houts v hv), Finset.sum_nsmul_assoc]

end ThesisBench.Pull
