/-
Counting shortest paths.

A route is the list of the vertices of a walk, and `sigma r s t` is the
number of shortest routes from `s` to `t`. The routes of a given length
are counted by their last step and by their first one; for the shortest
ones both sums run over the vertices next to the end point that are one
level nearer to the other (`sigma_last`, `sigma_first`).

`dependency r V s v` is the share that `v` has in the shortest routes
from `s`, summed over their ends. It satisfies a recursion over the
vertices one level further (`dependency_eq`), which is what lets it be
accumulated level by level.
-/
import Mathlib.Algebra.BigOperators.Field
import Mathlib.Algebra.Field.Rat
import Mathlib.Algebra.Order.Field.Rat
import Mathlib.Data.Set.Card
import Mathlib.Tactic.FieldSimp
import ThesisBench.Lib.Distance

namespace ThesisBench.Paths

open Distance
open scoped Classical

variable {α : Type _} {r : α → α → Prop} {V : Finset α} {s t u v w : α} {j k : Nat}
  {l : List α}

-- =============================================================== routes

def IsRoute (r : α → α → Prop) (s t : α) (l : List α) : Prop :=
  l.IsChain r ∧ l.head? = some s ∧ l.getLast? = some t

def IsShortest (r : α → α → Prop) (s t : α) (l : List α) : Prop :=
  IsRoute r s t l ∧ ∀ l', IsRoute r s t l' → l.length ≤ l'.length

/-- The number of shortest paths from `s` to `t`. -/
noncomputable def sigma (r : α → α → Prop) (s t : α) : Nat := {l | IsShortest r s t l}.ncard

/-- A route of one vertex starts and ends in it. -/
theorem isRoute_singleton : IsRoute r s t [u] ↔ u = s ∧ u = t := by
  simp [IsRoute]

/-- A longer route is a shorter one with one step more. -/
theorem isRoute_snoc (hl : l ≠ []) :
    IsRoute r s t (l ++ [u]) ↔ u = t ∧ ∃ v, IsRoute r s v l ∧ r v u := by
  obtain ⟨x, hx⟩ : ∃ x, l.getLast? = some x := ⟨_, List.getLast?_eq_some_getLast hl⟩
  simp only [IsRoute, List.isChain_append, List.head?_append_of_ne_nil l hl, hx,
    List.getLast?_append, List.getLast?_singleton, List.head?_cons, Option.some_or,
    Option.some.injEq, Option.mem_def]
  constructor
  · rintro ⟨⟨hchain, -, hstep⟩, hhead, hu⟩
    exact ⟨hu, x, ⟨hchain, hhead, rfl⟩, hstep x rfl u rfl⟩
  · rintro ⟨hu, y, ⟨hchain, hhead, rfl⟩, hstep⟩
    refine ⟨⟨hchain, List.isChain_singleton u, ?_⟩, hhead, hu⟩
    rintro _ rfl _ rfl
    exact hstep

theorem IsRoute.length_pos (h : IsRoute r s t l) : 0 < l.length := by
  refine List.length_pos_of_ne_nil ?_
  rintro rfl
  cases h.2.1

-- ================================================= routes of one length

/-- The routes of `k` steps from `s` to `t`, inside `V`. -/
noncomputable def routes (V : Finset α) (r : α → α → Prop) (s : α) : Nat → α → Finset (List α)
  | 0, t => if t = s then {[s]} else ∅
  | k + 1, t => (V.filter (r · t)).biUnion fun u => (routes V r s k u).image (· ++ [t])

/-- The routes of `k` steps have `k + 1` vertices. -/
theorem mem_routes (hV : ∀ x y, r x y → x ∈ V ∧ y ∈ V) :
    l ∈ routes V r s k t ↔ IsRoute r s t l ∧ l.length = k + 1 := by
  induction k generalizing l t with
  | zero =>
      rw [routes]
      constructor
      · intro h
        split at h
        case isTrue hts =>
          rw [Finset.mem_singleton] at h
          subst h hts
          exact ⟨isRoute_singleton.mpr ⟨rfl, rfl⟩, rfl⟩
        case isFalse => cases h
      · rintro ⟨hl, hlen⟩
        obtain ⟨u, rfl⟩ := List.length_eq_one_iff.mp hlen
        obtain ⟨rfl, rfl⟩ := isRoute_singleton.mp hl
        rw [if_pos rfl]
        exact Finset.mem_singleton_self _
  | succ k ih =>
      simp only [routes, Finset.mem_biUnion, Finset.mem_filter, Finset.mem_image]
      constructor
      · rintro ⟨u, ⟨-, hut⟩, l, hl, rfl⟩
        obtain ⟨hroute, hlen⟩ := ih.mp hl
        have hne : l ≠ [] := List.ne_nil_of_length_pos hroute.length_pos
        refine ⟨(isRoute_snoc hne).mpr ⟨rfl, u, hroute, hut⟩, ?_⟩
        rw [List.length_append, hlen, List.length_singleton]
      · rintro ⟨hroute, hlen⟩
        rcases List.eq_nil_or_concat l with rfl | ⟨l, x, rfl⟩
        · cases hlen
        · rw [List.concat_eq_append] at hroute hlen ⊢
          rw [List.length_append, List.length_singleton] at hlen
          have hne : l ≠ [] := List.ne_nil_of_length_pos (by omega)
          obtain ⟨rfl, u, hu, hux⟩ := (isRoute_snoc hne).mp hroute
          exact ⟨u, ⟨(hV u x hux).1, hux⟩, l, ih.mpr ⟨hu, by omega⟩, rfl⟩

/-- There is a route of `k` steps where there is a walk of `k` steps. -/
theorem routes_nonempty (hV : ∀ x y, r x y → x ∈ V ∧ y ∈ V) :
    (routes V r s k t).Nonempty ↔ Walk r s k t := by
  induction k generalizing t with
  | zero =>
      rw [routes]
      split
      case isTrue hts =>
        subst hts
        exact ⟨fun _ => .nil, fun _ => Finset.singleton_nonempty _⟩
      case isFalse hts =>
        refine ⟨fun h => absurd h Finset.not_nonempty_empty, fun h => ?_⟩
        cases h
        exact absurd rfl hts
  | succ k ih =>
      simp only [routes, Finset.biUnion_nonempty, Finset.mem_filter, Finset.image_nonempty]
      constructor
      · rintro ⟨u, ⟨-, hut⟩, hu⟩
        exact (ih.mp hu).snoc hut
      · intro h
        cases h with
        | snoc hu hut => exact ⟨_, ⟨(hV _ _ hut).1, hut⟩, ih.mpr hu⟩

/-- A route ends in one vertex only. -/
theorem card_routes_last (hV : ∀ x y, r x y → x ∈ V ∧ y ∈ V) :
    (routes V r s (k + 1) t).card = ∑ u ∈ V with r u t, (routes V r s k u).card := by
  rw [routes, Finset.card_biUnion]
  · refine Finset.sum_congr rfl fun u _ => Finset.card_image_of_injective _ ?_
    exact fun l l' h => List.append_cancel_right h
  · intro u _ v _ hne
    refine Finset.disjoint_left.mpr fun l hu hv => hne ?_
    obtain ⟨lu, hlu, rfl⟩ := Finset.mem_image.mp hu
    obtain ⟨lv, hlv, heq⟩ := Finset.mem_image.mp hv
    have hlast := ((mem_routes hV).mp hlu).1.2.2
    rw [← List.append_cancel_right heq, ((mem_routes hV).mp hlv).1.2.2] at hlast
    exact (Option.some.inj hlast).symm

/-- The only route without a step leads from a vertex to itself. -/
theorem card_routes_zero : (routes V r s 0 t).card = if t = s then 1 else 0 := by
  rw [routes]
  split <;> rfl

/-- Routes are counted by their first step. -/
theorem card_routes_first (hV : ∀ x y, r x y → x ∈ V ∧ y ∈ V) :
    (routes V r s (k + 1) t).card = ∑ w ∈ V with r s w, (routes V r w k t).card := by
  induction k generalizing t with
  | zero =>
      rw [card_routes_last hV]
      simp only [card_routes_zero, Finset.sum_ite_eq', Finset.sum_ite_eq, Finset.mem_filter]
      by_cases hst : r s t
      · rw [if_pos ⟨(hV s t hst).1, hst⟩, if_pos ⟨(hV s t hst).2, hst⟩]
      · rw [if_neg fun h => hst h.2, if_neg fun h => hst h.2]
  | succ k ih =>
      rw [card_routes_last hV]
      calc ∑ u ∈ V with r u t, (routes V r s (k + 1) u).card
          = ∑ u ∈ V with r u t, ∑ w ∈ V with r s w, (routes V r w k u).card :=
            Finset.sum_congr rfl fun u _ => ih
        _ = ∑ w ∈ V with r s w, ∑ u ∈ V with r u t, (routes V r w k u).card := Finset.sum_comm
        _ = ∑ w ∈ V with r s w, (routes V r w (k + 1) t).card :=
            Finset.sum_congr rfl fun w _ => (card_routes_last hV).symm

-- ====================================================== shortest routes

/-- The shortest paths are the routes of the right length. -/
theorem sigma_eq_card (hV : ∀ x y, r x y → x ∈ V ∧ y ∈ V) (h : Dist r s k t) :
    sigma r s t = (routes V r s k t).card := by
  have hset : {l | IsShortest r s t l} = (routes V r s k t : Set (List α)) := by
    obtain ⟨l₀, hl₀⟩ := (routes_nonempty hV).mpr h.1
    rw [mem_routes hV] at hl₀
    have hleast : ∀ l, IsRoute r s t l → k + 1 ≤ l.length := by
      intro l hl
      have hpos := hl.length_pos
      have hmem : l ∈ routes V r s (l.length - 1) t := (mem_routes hV).mpr ⟨hl, by omega⟩
      have hle : k ≤ l.length - 1 := h.2 ((routes_nonempty hV).mp ⟨l, hmem⟩)
      omega
    ext l
    rw [Finset.mem_coe, mem_routes hV]
    constructor
    · rintro ⟨hl, hmin⟩
      have hle := hmin l₀ hl₀.1
      have hge := hleast l hl
      exact ⟨hl, by omega⟩
    · rintro ⟨hl, hlen⟩
      exact ⟨hl, fun l' hl' => hlen ▸ hleast l' hl'⟩
  rw [sigma, hset, Set.ncard_coe_finset]

/-- One shortest path leads from a vertex to itself. -/
theorem sigma_self (hV : ∀ x y, r x y → x ∈ V ∧ y ∈ V) (s : α) : sigma r s s = 1 := by
  rw [sigma_eq_card hV (dist_start r s), card_routes_zero, if_pos rfl]

/-- A vertex that is reached has a shortest path. -/
theorem sigma_pos (hV : ∀ x y, r x y → x ∈ V ∧ y ∈ V) (h : Dist r s k t) : 0 < sigma r s t := by
  rw [sigma_eq_card hV h]
  exact Finset.card_pos.mpr ((routes_nonempty hV).mpr h.1)

/-- A vertex that is not reached has none. -/
theorem sigma_unreachable (hV : ∀ x y, r x y → x ∈ V ∧ y ∈ V) (h : ∀ k, ¬ Walk r s k t) :
    sigma r s t = 0 := by
  have hset : {l | IsShortest r s t l} = ∅ := by
    refine Set.eq_empty_iff_forall_notMem.mpr fun l hl => ?_
    have hpos := hl.1.length_pos
    have hmem : l ∈ routes V r s (l.length - 1) t := (mem_routes hV).mpr ⟨hl.1, by omega⟩
    exact h _ ((routes_nonempty hV).mp ⟨l, hmem⟩)
  rw [sigma, hset, Set.ncard_empty]

/-- Shortest paths are counted by their last step. -/
theorem sigma_last (hV : ∀ x y, r x y → x ∈ V ∧ y ∈ V) (h : Dist r s (k + 1) t) :
    sigma r s t = ∑ u ∈ V with r u t ∧ Dist r s k u, sigma r s u := by
  rw [sigma_eq_card hV h, card_routes_last hV, ← Finset.filter_filter]
  refine (Finset.sum_subset_zero_on_sdiff (Finset.filter_subset _ _) ?_ ?_).symm
  · intro u hu
    obtain ⟨hmem, hnot⟩ := Finset.mem_sdiff.mp hu
    refine Finset.card_eq_zero.mpr (Finset.not_nonempty_iff_eq_empty.mp fun hne => hnot ?_)
    -- a shorter way to `u` would be a shorter way to `t`
    refine Finset.mem_filter.mpr ⟨hmem, (routes_nonempty hV).mp hne, fun j hj => ?_⟩
    have hle : k + 1 ≤ j + 1 := h.2 (hj.snoc (Finset.mem_filter.mp hmem).2)
    omega
  · intro u hu
    exact sigma_eq_card hV (Finset.mem_filter.mp hu).2

theorem sigma_first (hV : ∀ x y, r x y → x ∈ V ∧ y ∈ V) (h : Dist r s (k + 1) t) :
    sigma r s t = ∑ w ∈ V with r s w ∧ Dist r w k t, sigma r w t := by
  rw [sigma_eq_card hV h, card_routes_first hV, ← Finset.filter_filter]
  refine (Finset.sum_subset_zero_on_sdiff (Finset.filter_subset _ _) ?_ ?_).symm
  · intro w hw
    obtain ⟨hmem, hnot⟩ := Finset.mem_sdiff.mp hw
    refine Finset.card_eq_zero.mpr (Finset.not_nonempty_iff_eq_empty.mp fun hne => hnot ?_)
    refine Finset.mem_filter.mpr ⟨hmem, (routes_nonempty hV).mp hne, fun j hj => ?_⟩
    have hstep : Walk r s (0 + 1) w := Walk.nil.snoc (Finset.mem_filter.mp hmem).2
    have hle : k + 1 ≤ 0 + 1 + j := h.2 (hstep.trans hj)
    omega
  · intro w hw
    exact sigma_eq_card hV (Finset.mem_filter.mp hw).2

-- ========================================================= dependencies

/-- `v` is on a shortest route from `s` to `t`. -/
def Between (r : α → α → Prop) (s v t : α) : Prop :=
  ∃ i j, Dist r s i v ∧ Dist r v j t ∧ Dist r s (i + j) t

noncomputable def dependency (r : α → α → Prop) (V : Finset α) (s v : α) : ℚ :=
  ∑ t ∈ V with t ≠ v ∧ Between r s v t, (sigma r s v * sigma r v t / sigma r s t : ℚ)

/-- Nothing depends on a vertex that is not reached. -/
theorem dependency_unreachable (h : ∀ k, ¬ Walk r s k v) : dependency r V s v = 0 := by
  refine Finset.sum_eq_zero fun t ht => ?_
  obtain ⟨i, -, hi, -⟩ := (Finset.mem_filter.mp ht).2.2
  exact absurd hi.1 (h i)

/-- The part of `dependency` that does not depend on how `v` is reached. -/
noncomputable def share (r : α → α → Prop) (s v t : α) : ℚ :=
  if Between r s v t then (sigma r v t : ℚ) / sigma r s t else 0

/-- The paths to a vertex are a factor of its dependency. -/
theorem dependency_eq_share :
    dependency r V s v = sigma r s v * ∑ t ∈ V with t ≠ v, share r s v t := by
  rw [dependency, ← Finset.filter_filter, Finset.sum_filter, Finset.mul_sum]
  refine Finset.sum_congr rfl fun t _ => ?_
  unfold share
  split
  · rw [mul_div_assoc]
  · rw [mul_zero]

/-- One level further, and still on the way. -/
theorem Between.next (hv : Dist r s k v) (hvw : r v w) (hw : Dist r w j t)
    (ht : Dist r s (k + (j + 1)) t) : Dist r s (k + 1) w ∧ Between r s w t := by
  have hdist : Dist r s (k + 1) w := by
    refine ⟨hv.1.snoc hvw, fun i hi => ?_⟩
    have hle : k + (j + 1) ≤ i + j := ht.2 (hi.trans hw.1)
    omega
  refine ⟨hdist, k + 1, j, hdist, hw, ?_⟩
  rwa [Nat.add_assoc, Nat.add_comm 1 j]

/-- And back. -/
theorem Between.prev (hv : Dist r s k v) (hvw : r v w) (hw : Dist r s (k + 1) w)
    (h : Between r s w t) :
    ∃ j, Dist r w j t ∧ Dist r v (j + 1) t ∧ Dist r s (k + (j + 1)) t := by
  obtain ⟨i, j, hi, hj, ht⟩ := h
  have hik := hi.unique hw
  subst hik
  have ht' : Dist r s (k + (j + 1)) t := by rwa [Nat.add_comm j 1, ← Nat.add_assoc]
  refine ⟨j, hj, ⟨?_, fun i hi => ?_⟩, ht'⟩
  · have hstep : Walk r v (0 + 1 + j) t := (Walk.nil.snoc hvw).trans hj.1
    rwa [Nat.zero_add, Nat.add_comm] at hstep
  · have hle : k + (j + 1) ≤ k + i := ht'.2 (hv.1.trans hi)
    omega

/-- What a vertex shares is the sum over the vertices one level further. -/
theorem share_eq (hV : ∀ x y, r x y → x ∈ V ∧ y ∈ V) (hv : Dist r s k v) (hne : t ≠ v) :
    share r s v t = ∑ w ∈ V with r v w ∧ Dist r s (k + 1) w, share r s w t := by
  by_cases h : Between r s v t
  · obtain ⟨i, j, hi, hj, ht⟩ := h
    have hik := hi.unique hv
    subst hik
    obtain _ | j := j
    · exact absurd hj.eq_start hne
    have hset : ((V.filter fun w => r v w ∧ Dist r s (i + 1) w).filter fun w => Between r s w t)
        = V.filter fun w => r v w ∧ Dist r w j t := by
      ext w
      simp only [Finset.mem_filter, and_assoc, and_congr_right_iff]
      intro _ hvw
      constructor
      · rintro ⟨hw, hbetween⟩
        obtain ⟨j', hj', -, ht'⟩ := Between.prev hv hvw hw hbetween
        have hjj := ht.unique ht'
        have : j' = j := by omega
        exact this ▸ hj'
      · exact fun hw => Between.next hv hvw hw ht
    rw [share, if_pos ⟨i, j + 1, hi, hj, ht⟩, sigma_first hV hj, ← hset, Nat.cast_sum,
      Finset.sum_div, Finset.sum_filter]
    rfl
  · rw [share, if_neg h]
    refine (Finset.sum_eq_zero fun w hw => ?_).symm
    obtain ⟨-, hvw, hdist⟩ := Finset.mem_filter.mp hw
    refine if_neg fun hbetween => h ?_
    obtain ⟨j, -, hj, ht⟩ := Between.prev hv hvw hdist hbetween
    exact ⟨k, j + 1, hv, hj, ht⟩

theorem share_self (hV : ∀ x y, r x y → x ∈ V ∧ y ∈ V) (h : Dist r s k w) :
    share r s w w = 1 / sigma r s w := by
  rw [share, if_pos ⟨k, 0, h, dist_start r w, h⟩, sigma_self hV, Nat.cast_one]

/-- Nothing lies between `s` and a nearer vertex. -/
theorem share_back (hv : Dist r s k v) (hw : Dist r s (k + 1) w) : share r s w v = 0 := by
  refine if_neg ?_
  rintro ⟨i, j, hi, -, hij⟩
  have hik := hi.unique hw
  have hkij := hij.unique hv
  omega

/-- The recurrence of Brandes: dependencies are summed level by level, from
the last one on. -/
theorem dependency_eq (hV : ∀ x y, r x y → x ∈ V ∧ y ∈ V) (hv : Dist r s k v) :
    dependency r V s v = ∑ w ∈ V with r v w ∧ Dist r s (k + 1) w,
      (sigma r s v : ℚ) / sigma r s w * (1 + dependency r V s w) := by
  have hsum : ∑ t ∈ V with t ≠ v, share r s v t
      = ∑ w ∈ V with r v w ∧ Dist r s (k + 1) w, ∑ t ∈ V with t ≠ v, share r s w t := by
    rw [Finset.sum_comm]
    exact Finset.sum_congr rfl fun t ht => share_eq hV hv (Finset.mem_filter.mp ht).2
  rw [dependency_eq_share, hsum, Finset.mul_sum]
  refine Finset.sum_congr rfl fun w hw => ?_
  obtain ⟨hwV, hvw, hdist⟩ := Finset.mem_filter.mp hw
  have hpos : (sigma r s w : ℚ) ≠ 0 := by
    have := sigma_pos hV hdist
    exact Nat.cast_ne_zero.mpr (by omega)
  have hall : ∑ t ∈ V with t ≠ v, share r s w t
      = 1 / sigma r s w + ∑ t ∈ V with t ≠ w, share r s w t := by
    have hback := share_back hv hdist
    have hself := share_self hV hdist
    simp only [Finset.filter_ne', Finset.sum_erase _ hback, ← hself, Finset.add_sum_erase _ _ hwV]
  rw [hall, dependency_eq_share]
  field_simp

end ThesisBench.Paths
