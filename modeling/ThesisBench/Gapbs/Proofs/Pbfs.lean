/-
`PBFS` counts the shortest paths.

The levels are kept one after the other in the queue, and `depth_index`
has where each of them starts, after an extra first entry (`Searched`).
When the search stands at level `k`, the vertices up to that level have
their distances and the numbers of their shortest paths, and the bits
that are set are those of the edges from a level below `k` to the next.
-/
import Mathlib.Algebra.BigOperators.Group.Finset.Basic
import ThesisBench.Gapbs.Bfs
import ThesisBench.Gapbs.Proofs.Level
import ThesisBench.Lib.Paths

namespace ThesisBench.Gapbs.Brandes

open Parallel Distance Paths
open Bfs (IsEdge)

variable {g : CSRGraph Nat} {m m' : Memory} {s k u v p : Nat} {levels : List (List Nat)}

theorem Simple.isEdge_lt (hg : Simple g) :
    ∀ x y, IsEdge g x y → x ∈ Finset.range g.numNodes ∧ y ∈ Finset.range g.numNodes :=
  fun _ _ h => ⟨Finset.mem_range.mpr h.1, Finset.mem_range.mpr (hg.outs_lt h.1 h.2)⟩

-- =============================================================== levels

/-- Where level `i` starts in the queue. -/
def startOf (levels : List (List Nat)) (i : Nat) : Nat := (levels.take i).flatten.length

/-- The lists of the vertices of each level. -/
def IsLevels (g : CSRGraph Nat) (s : Nat) (levels : List (List Nat)) : Prop :=
  ∀ i l, levels[i]? = some l →
    l.Nodup ∧ ∀ v, v ∈ l ↔ v < g.numNodes ∧ Dist (IsEdge g) s i v

/-- One more level does not move the starts of the others. -/
theorem startOf_append {new : List Nat} {i : Nat} (hi : i ≤ levels.length) :
    startOf (levels ++ [new]) i = startOf levels i := by
  rw [startOf, List.take_append_of_le_length hi, startOf]

/-- A level starts where the one before it ends. -/
theorem startOf_succ {l : List Nat} {i : Nat} (h : levels[i]? = some l) :
    startOf levels (i + 1) = startOf levels i + l.length := by
  obtain ⟨hi, rfl⟩ := List.getElem?_eq_some_iff.mp h
  rw [startOf, List.take_succ_eq_append_getElem hi, List.flatten_append, List.length_append,
    List.flatten_singleton, startOf]

/-- A level is between its start and the next one's. -/
theorem between_eq {q : SlidingQueue} (hq : q.shared = levels.flatten) {l : List Nat} {i : Nat}
    (h : levels[i]? = some l) : q.between (startOf levels i) (startOf levels (i + 1)) = l := by
  obtain ⟨hi, rfl⟩ := List.getElem?_eq_some_iff.mp h
  have hsplit : levels.flatten
      = (levels.take i).flatten ++ (levels[i] ++ (levels.drop (i + 1)).flatten) := by
    rw [← List.flatten_cons, ← List.drop_eq_getElem_cons hi, ← List.flatten_append,
      List.take_append_drop]
  rw [SlidingQueue.between, hq, startOf_succ h, hsplit, startOf, ← List.append_assoc,
    ← List.length_append, List.take_left, List.drop_left]

theorem mem_flatten_levels (hl : IsLevels g s levels) (hv : v ∈ levels.flatten) :
    ∃ i < levels.length, v < g.numNodes ∧ Dist (IsEdge g) s i v := by
  obtain ⟨l, hmem, hv⟩ := List.mem_flatten.mp hv
  obtain ⟨i, hi⟩ := List.getElem?_of_mem hmem
  exact ⟨i, (List.getElem?_eq_some_iff.mp hi).1, ((hl i l hi).2 v).mp hv⟩

-- ======================================================== the invariant

/-- What is known of a vertex when the search stands at level `k`. -/
def Known (g : CSRGraph Nat) (s k : Nat) (m : Memory) (v : Nat) : Prop :=
  (∃ j ≤ k, Dist (IsEdge g) s j v ∧ m.dep v = j ∧ m.cnt v = sigma (IsEdge g) s v)
    ∨ ((∀ j ≤ k, ¬ Dist (IsEdge g) s j v) ∧ m.dep v = -1 ∧ m.cnt v = 0)

/-- The edge at offset `p` leads from level `j` to the next. -/
def Leads (g : CSRGraph Nat) (s j p : Nat) : Prop :=
  ∃ u v, u < g.numNodes ∧ (p, v) ∈ outRefs g u ∧ Dist (IsEdge g) s j u
    ∧ Dist (IsEdge g) s (j + 1) v

structure Searched (g : CSRGraph Nat) (s k : Nat) (levels : List (List Nat)) (m : Memory) :
    Prop where
  depths : m.depths.length = g.numNodes
  pathCounts : m.pathCounts.length = g.numNodes
  succ : m.succ.length = g.numEdgesDirected.toNat
  depth : m.depth = k
  known : ∀ v < g.numNodes, Known g s k m v
  bit : ∀ p, m.bit p = true ↔ ∃ j < k, Leads g s j p
  length : levels.length = k + 1
  isLevels : IsLevels g s levels
  shared : m.queue.shared = levels.flatten
  nodup : m.queue.shared.Nodup
  outStart : m.queue.outStart = startOf levels k
  outEnd : m.queue.outEnd = startOf levels (k + 1)
  depthIndex : m.depthIndex = 0 :: (List.range k).map (startOf levels)

theorem Searched.window (h : Searched g s k levels m) : levels[k]? = some m.queue.window := by
  have hlt : k < levels.length := by
    rw [h.length]
    omega
  rw [SlidingQueue.window, h.outStart, h.outEnd]
  have hk : levels[k]? = some levels[k] := List.getElem?_eq_getElem hlt
  rw [between_eq h.shared hk, hk]

/-- The window holds the vertices at the present distance. -/
theorem Searched.mem_window (h : Searched g s k levels m) :
    v ∈ m.queue.window ↔ v < g.numNodes ∧ Dist (IsEdge g) s k v :=
  (h.isLevels k _ h.window).2 v

theorem Searched.dep_shared (h : Searched g s k levels m) (hv : v ∈ m.queue.shared) :
    v < g.numNodes ∧ ∃ j : Nat, m.dep v = j := by
  rw [h.shared] at hv
  obtain ⟨i, hi, hlt, hdist⟩ := mem_flatten_levels h.isLevels hv
  rw [h.length] at hi
  rcases h.known v hlt with ⟨j, -, -, hdep, -⟩ | ⟨hnone, -⟩
  · exact ⟨hlt, j, hdep⟩
  · exact absurd hdist (hnone i (by omega))

-- ============================================================= one level

/-- A level begins. -/
theorem Searched.ready (h : Searched g s k levels m) :
    Ready g { m with depth := m.depth + 1 } where
  depths := h.depths
  pathCounts := h.pathCounts
  succ := h.succ
  depth := by
    show m.depth + 1 ≠ -1
    rw [h.depth]
    omega
  unused v hv := by
    show m.dep v ≠ m.depth + 1
    rw [h.depth]
    rcases h.known v hv with ⟨j, hj, -, hdep, -⟩ | ⟨-, hdep, -⟩
    · rw [hdep]
      omega
    · rw [hdep]
      omega
  shared v hv := by
    obtain ⟨hlt, j, hdep⟩ := h.dep_shared hv
    refine ⟨hlt, ?_⟩
    show m.dep v ≠ -1
    rw [hdep]
    omega
  nodup := h.nodup

variable {new : List Nat}

/-- What it finds is the next level. -/
theorem Searched.found (h : Searched g s k levels m)
    (he : Expanded g { m with depth := m.depth + 1 } m' new) :
    v ∈ new ↔ v < g.numNodes ∧ Dist (IsEdge g) s (k + 1) v := by
  rw [he.found]
  refine and_congr_right fun hv => ⟨?_, fun hdist => ⟨?_, ?_⟩⟩
  · rintro ⟨hdep, u, hu, hout⟩
    obtain ⟨hlt, hdist⟩ := h.mem_window.mp hu
    obtain ⟨j, hj, hdist'⟩ := hdist.succ (y := v) ⟨hlt, hout⟩
    rcases h.known v hv with ⟨i, -, -, hdep', -⟩ | ⟨hnone, -⟩
    · have hdep : m.dep v = -1 := hdep
      omega
    · have hjk : ¬ j ≤ k := fun hjk => hnone j hjk hdist'
      have heq : j = k + 1 := by omega
      exact heq ▸ hdist'
  · show m.dep v = -1
    rcases h.known v hv with ⟨j, hj, hdist', -⟩ | ⟨-, hdep, -⟩
    · have := hdist.unique hdist'
      omega
    · exact hdep
  · obtain ⟨u, hu, hedge⟩ := hdist.pred
    exact ⟨u, h.mem_window.mpr ⟨hedge.1, hu⟩, hedge.2⟩

/-- The counts of the level before add up to those of the next. -/
theorem Searched.sum_window (hg : Simple g) (h : Searched g s k levels m)
    (hv : Dist (IsEdge g) s (k + 1) v) :
    ((m.queue.window.filter fun u => v ∈ g.outs u).map m.cnt).sum = sigma (IsEdge g) s v := by
  classical
  have hnd : (m.queue.window.filter fun u => v ∈ g.outs u).Nodup :=
    (h.isLevels k _ h.window).1.filter _
  rw [← List.sum_toFinset _ hnd, sigma_last hg.isEdge_lt hv, Nat.cast_sum]
  refine Finset.sum_congr ?_ fun u hu => ?_
  · ext u
    rw [List.mem_toFinset, List.mem_filter, h.mem_window, decide_eq_true_eq, Finset.mem_filter,
      Finset.mem_range]
    constructor
    · rintro ⟨⟨hu, hdist⟩, hout⟩
      exact ⟨hu, ⟨hu, hout⟩, hdist⟩
    · rintro ⟨hu, hedge, hdist⟩
      exact ⟨⟨hu, hdist⟩, hedge.2⟩
  · obtain ⟨-, -, hdist⟩ := Finset.mem_filter.mp hu
    have hlt := Finset.mem_range.mp (Finset.mem_filter.mp hu).1
    rcases h.known u hlt with ⟨j, -, -, -, hcnt⟩ | ⟨hnone, -⟩
    · exact hcnt
    · exact absurd hdist (hnone k (Nat.le_refl k))

/-- What is known of a vertex after the next level. -/
theorem Searched.known_next (hg : Simple g) (h : Searched g s k levels m)
    (he : Expanded g { m with depth := m.depth + 1 } m' new) (hv : v < g.numNodes) :
    Known g s (k + 1) m' v := by
  have hdep : m'.dep v = if v ∈ new then m.depth + 1 else m.dep v := he.dep v hv
  have hcnt : m'.cnt v = m.cnt v + if v ∈ new then
      ((m.queue.window.filter fun u => v ∈ g.outs u).map m.cnt).sum else 0 := he.cnt v hv
  by_cases hnew : v ∈ new
  · have hdist := ((h.found he).mp hnew).2
    rw [if_pos hnew] at hdep hcnt
    refine .inl ⟨k + 1, Nat.le_refl _, hdist, ?_, ?_⟩
    · rw [hdep, h.depth, Nat.cast_add, Nat.cast_one]
    · rw [hcnt, h.sum_window hg hdist]
      rcases h.known v hv with ⟨j, hj, hdist', -⟩ | ⟨-, -, hzero⟩
      · have := hdist.unique hdist'
        omega
      · rw [hzero, zero_add]
  · rw [if_neg hnew] at hdep hcnt
    rw [add_zero] at hcnt
    rcases h.known v hv with ⟨j, hj, hdist, hdep', hcnt'⟩ | ⟨hnone, hdep', hcnt'⟩
    · exact .inl ⟨j, by omega, hdist, hdep.trans hdep', hcnt.trans hcnt'⟩
    · refine .inr ⟨fun j hj hdist => ?_, hdep.trans hdep', hcnt.trans hcnt'⟩
      by_cases hjk : j ≤ k
      · exact hnone j hjk hdist
      · have heq : j = k + 1 := by omega
        exact hnew ((h.found he).mpr ⟨hv, heq ▸ hdist⟩)

/-- Which bits are set after the next level. -/
theorem Searched.bit_next (hg : Simple g) (h : Searched g s k levels m)
    (he : Expanded g { m with depth := m.depth + 1 } m' new) :
    m'.bit p = true ↔ ∃ j < k + 1, Leads g s j p := by
  have hbit : m'.bit p = true ↔ m.bit p = true
      ∨ ∃ u ∈ m.queue.window, ∃ v ∈ new, (p, v) ∈ outRefs g u := he.bit p
  rw [hbit, h.bit]
  constructor
  · rintro (⟨j, hj, hleads⟩ | ⟨u, hu, v, hv, href⟩)
    · exact ⟨j, by omega, hleads⟩
    · obtain ⟨hlt, hdist⟩ := h.mem_window.mp hu
      exact ⟨k, by omega, u, v, hlt, href, hdist, ((h.found he).mp hv).2⟩
  · rintro ⟨j, hj, hleads⟩
    by_cases hjk : j < k
    · exact .inl ⟨j, hjk, hleads⟩
    · have heq : j = k := by omega
      subst heq
      obtain ⟨u, v, hlt, href, hdist, hdist'⟩ := hleads
      have hvlt : v < g.numNodes := hg.outs_lt hlt (mem_outs_of_ref href)
      exact .inr ⟨u, h.mem_window.mpr ⟨hlt, hdist⟩, v, (h.found he).mpr ⟨hvlt, hdist'⟩, href⟩

/-- The vertices at the next distance are the next level. -/
theorem IsLevels.append (hl : IsLevels g s levels) (hlen : levels.length = k + 1)
    (hnd : new.Nodup) (hnew : ∀ v, v ∈ new ↔ v < g.numNodes ∧ Dist (IsEdge g) s (k + 1) v) :
    IsLevels g s (levels ++ [new]) := by
  intro i l hi
  by_cases hlt : i < levels.length
  · rw [List.getElem?_append_left hlt] at hi
    exact hl i l hi
  · have hbound := (List.getElem?_eq_some_iff.mp hi).1
    rw [List.length_append, List.length_singleton] at hbound
    have heq : i = levels.length := by omega
    rw [heq, List.getElem?_concat_length, Option.some.injEq] at hi
    subst hi
    rw [heq, hlen]
    exact ⟨hnd, hnew⟩

/-- After a level the search stands at the next. -/
theorem Searched.next (hg : Simple g) (h : Searched g s k levels m)
    (he : Expanded g { m with depth := m.depth + 1 } m' new) :
    Searched g s (k + 1) (levels ++ [new]) m'.endLevel := by
  have hshared : m'.queue.shared = m.queue.shared ++ new := by rw [he.frame]
  have hstart : m'.queue.outStart = m.queue.outStart := by rw [he.frame]
  have hend : m'.queue.outEnd = m.queue.outEnd := by rw [he.frame]
  have hindex : m'.depthIndex = m.depthIndex := by rw [he.frame]
  have hdepth : m'.depth = m.depth + 1 := by rw [he.frame]
  constructor
  case depths => exact he.depths
  case pathCounts => exact he.pathCounts
  case succ => exact he.succ
  case depth =>
    show m'.depth = _
    rw [hdepth, h.depth, Nat.cast_add, Nat.cast_one]
  case known =>
    intro v hv
    have hknown : Known g s (k + 1) m' v := h.known_next hg he hv
    exact hknown
  case bit =>
    intro p
    have hbit : m'.bit p = true ↔ ∃ j < k + 1, Leads g s j p := h.bit_next hg he
    exact hbit
  case length => rw [List.length_append, h.length, List.length_singleton]
  case isLevels => exact h.isLevels.append h.length he.nodup fun v => h.found he
  case shared =>
    show m'.queue.shared = _
    rw [hshared, h.shared, List.flatten_append, List.flatten_singleton]
  case nodup =>
    show m'.queue.shared.Nodup
    rw [hshared]
    refine h.nodup.append he.nodup fun v hv hnew => ?_
    obtain ⟨-, j, hdep⟩ := h.dep_shared hv
    have hfree : m.dep v = -1 := ((he.found v).mp hnew).2.1
    omega
  case outStart =>
    show m'.queue.outEnd = _
    rw [hend, h.outEnd, startOf_append (by rw [h.length])]
  case outEnd =>
    show m'.queue.shared.length = _
    rw [hshared, h.shared, startOf, List.take_of_length_le, List.flatten_append,
      List.flatten_singleton]
    rw [List.length_append, h.length, List.length_singleton]
  case depthIndex =>
    show m'.depthIndex ++ [m'.queue.outStart] = _
    rw [hindex, hstart, h.depthIndex, h.outStart, List.range_succ, List.map_append,
      List.map_singleton, List.cons_append, startOf_append (by rw [h.length]; omega)]
    congr 2
    refine List.map_congr_left fun i hi => (startOf_append ?_).symm
    have := List.mem_range.mp hi
    rw [h.length]
    omega

-- ================================================================= PBFS

/-- What an iteration of `Brandes` prepares. -/
structure Reset (g : CSRGraph Nat) (m : Memory) : Prop where
  pathCounts : m.pathCounts = List.replicate g.numNodes 0
  succ : m.succ = List.replicate g.numEdgesDirected.toNat false
  depthIndex : m.depthIndex = []
  queue : m.queue = .reset

theorem getD_replicate {α : Type} (n : Nat) (x d : α) (i : Nat) :
    (List.replicate n x).getD i d = if i < n then x else d := by
  rw [List.getD_eq_getElem?_getD, List.getElem?_replicate]
  split <;> rfl

theorem isLevels_start (hs : s < g.numNodes) : IsLevels g s [[s]] := by
  intro i l hi
  have hi0 : i = 0 := by
    have := (List.getElem?_eq_some_iff.mp hi).1
    rw [List.length_singleton] at this
    omega
  subst hi0
  cases hi
  refine ⟨List.nodup_singleton s, fun v => ?_⟩
  rw [List.mem_singleton]
  constructor
  · rintro rfl
    exact ⟨hs, dist_start _ _⟩
  · exact fun h => h.2.eq_start

/-- The search begins with the source alone. -/
theorem start_total (hg : Simple g) (hs : s < g.numNodes) (hm : Reset g m) :
    Total (start g s) m fun m' => Searched g s 0 [[s]] m' ∧ m'.scores = m.scores := by
  have hlen : m.pathCounts.length = g.numNodes := by rw [hm.pathCounts, List.length_replicate]
  have hpush : m.queue.pushBack g.numNodes s = some ⟨[s], 0, 0⟩ := by
    rw [hm.queue]
    refine if_pos ?_
    show 0 + 1 ≤ g.numNodes
    omega
  refine total_act ⟨_, _, hlen.symm ▸ hs, hs, hpush, rfl⟩ ?_
  rintro m' ⟨q, -, -, hq, rfl⟩
  cases hpush.symm.trans hq
  refine ⟨?_, rfl⟩
  constructor
  case depths => exact List.length_set.trans List.length_replicate
  case pathCounts => exact List.length_set.trans hlen
  case succ =>
    show m.succ.length = _
    rw [hm.succ, List.length_replicate]
  case depth => rfl
  case known =>
    intro v hv
    have hdep : ((List.replicate g.numNodes (-1 : Int)).set s 0).getD v 0
        = if v = s then 0 else (List.replicate g.numNodes (-1 : Int)).getD v 0 :=
      Slots.getD_set (by rwa [List.length_replicate]) 0 0 v
    have hcnt : (m.pathCounts.set s 1).getD v 0 = if v = s then 1 else m.pathCounts.getD v 0 :=
      Slots.getD_set (hlen.symm ▸ hs) 1 0 v
    by_cases hvs : v = s
    · subst hvs
      rw [if_pos rfl] at hdep hcnt
      refine .inl ⟨0, Nat.le_refl 0, dist_start _ _, hdep, ?_⟩
      rw [sigma_self hg.isEdge_lt, Nat.cast_one]
      exact hcnt
    · rw [if_neg hvs] at hdep hcnt
      rw [getD_replicate, if_pos hv] at hdep
      have hzero : m.pathCounts.getD v 0 = 0 := by rw [hm.pathCounts, getD_replicate, if_pos hv]
      refine .inr ⟨fun j hj hdist => ?_, hdep, hcnt.trans hzero⟩
      have hj0 : j = 0 := by omega
      subst hj0
      exact hvs hdist.eq_start
  case bit =>
    intro p
    have hbit : m.succ.getD p false = false := by
      rw [hm.succ, getD_replicate, ite_self]
    refine ⟨fun h => absurd (hbit.symm.trans h) Bool.false_ne_true, ?_⟩
    rintro ⟨j, hj, -⟩
    omega
  case length => rfl
  case isLevels => exact isLevels_start hs
  case shared => rfl
  case nodup => exact List.nodup_singleton s
  case outStart => rfl
  case outEnd => rfl
  case depthIndex =>
    show m.depthIndex ++ [0] = _
    rw [hm.depthIndex]
    rfl

/-- The queue never outgrows the graph. -/
theorem Searched.length_le (h : Searched g s k levels m) :
    m.queue.shared.length ≤ g.numNodes := by
  have hsub : m.queue.shared ⊆ List.range g.numNodes := fun v hv =>
    List.mem_range.mpr (h.dep_shared hv).1
  have hle := (h.nodup.subperm hsub).length_le
  rwa [List.length_range] at hle

theorem Searched.outEnd_eq (h : Searched g s k levels m) :
    m.queue.outEnd = m.queue.shared.length := by
  rw [h.outEnd, h.shared, startOf, List.take_of_length_le (by rw [h.length])]

theorem Searched.outStart_le (h : Searched g s k levels m) :
    m.queue.outStart ≤ m.queue.outEnd := by
  rw [h.outStart, h.outEnd, startOf_succ h.window]
  omega

/-- The levels end with an empty window. -/
theorem levels_total (hg : Simple g) (h : Searched g s k levels m) :
    Total (Brandes.levels g) m fun m' => (∃ k levels, Searched g s k levels m'
      ∧ m'.queue.empty = true) ∧ m'.scores = m.scores := by
  refine total_loop (fun m' => (∃ k levels, Searched g s k levels m') ∧ m'.scores = m.scores)
    (fun m' => g.numNodes - m'.queue.outStart) ?_ ?_ ⟨⟨k, levels, h⟩, rfl⟩
  · rintro m₁ ⟨⟨k, levels, h⟩, hscores⟩ hgo
    have hne : m₁.queue.outStart ≠ m₁.queue.outEnd := by
      intro heq
      simp only [SlidingQueue.empty, heq, decide_true, Bool.not_true, Bool.false_eq_true] at hgo
    refine Total.seq (q := fun m₂ => m₂ = { m₁ with depth := m₁.depth + 1 })
      (total_act ⟨_, rfl⟩ fun _ hm₂ => hm₂) ?_
    rintro m₂ rfl
    refine (level_total hg h.ready).seq fun m₃ ⟨new, he⟩ => total_act ⟨_, rfl⟩ ?_
    rintro m₄ rfl
    have hnext := h.next hg he
    refine ⟨⟨⟨k + 1, _, hnext⟩, ?_⟩, ?_⟩
    · have hsame : m₃.scores = m₁.scores := by rw [he.frame]
      exact hsame.trans hscores
    · have hend : m₃.queue.outEnd = m₁.queue.outEnd := by rw [he.frame]
      have hle := h.length_le
      have hends := h.outEnd_eq
      have hstart := h.outStart_le
      show g.numNodes - m₃.queue.outEnd < _
      omega
  · rintro m₁ ⟨⟨k, levels, h⟩, hscores⟩ hstop
    exact ⟨⟨k, levels, h, by simpa using hstop⟩, hscores⟩

/-- What `PBFS` leaves. -/
structure Counted (g : CSRGraph Nat) (s k : Nat) (levels : List (List Nat)) (m : Memory) :
    Prop where
  pathCounts : m.pathCounts.length = g.numNodes
  succ : m.succ.length = g.numEdgesDirected.toNat
  cnt : ∀ v < g.numNodes, m.cnt v = sigma (IsEdge g) s v
  bit : ∀ p, m.bit p = true ↔ ∃ j, Leads g s j p
  length : levels.length = k + 1
  isLevels : IsLevels g s levels
  below : ∀ j v, v < g.numNodes → Dist (IsEdge g) s j v → j < k
  shared : m.queue.shared = levels.flatten
  depthIndex : m.depthIndex = 0 :: (List.range (k + 1)).map (startOf levels)

/-- An empty window ends the search with everything counted. -/
theorem Searched.counted (hg : Simple g) (hs : s < g.numNodes) (h : Searched g s k levels m)
    (hempty : m.queue.empty = true) : Counted g s k levels m.pushBegin := by
  have hwindow : m.queue.window = [] := by
    have heq : m.queue.outStart = m.queue.outEnd := of_decide_eq_true hempty
    rw [SlidingQueue.window, SlidingQueue.between, heq]
    exact List.drop_eq_nil_of_le (List.length_take_le _ _)
  have hbelow : ∀ j v, v < g.numNodes → Dist (IsEdge g) s j v → j < k := by
    intro j v hv hdist
    by_contra hge
    obtain ⟨w, hw⟩ := hdist.below (Nat.le_of_not_lt hge)
    have hwlt : w < g.numNodes := by
      obtain _ | k := k
      · exact hw.eq_start ▸ hs
      · obtain ⟨x, -, hedge⟩ := hw.pred
        exact hg.outs_lt hedge.1 hedge.2
    have hmem := h.mem_window.mpr ⟨hwlt, hw⟩
    rw [hwindow] at hmem
    cases hmem
  constructor
  case pathCounts => exact h.pathCounts
  case succ => exact h.succ
  case cnt =>
    intro v hv
    show m.cnt v = _
    rcases h.known v hv with ⟨j, -, -, -, hcnt⟩ | ⟨hnone, -, hcnt⟩
    · exact hcnt
    · rw [hcnt, sigma_unreachable hg.isEdge_lt, Nat.cast_zero]
      intro i hwalk
      obtain ⟨j, -, hdist⟩ := hwalk.exists_dist
      exact hnone j (Nat.le_of_lt (hbelow j v hv hdist)) hdist
  case bit =>
    intro p
    refine (h.bit p).trans ⟨fun ⟨j, _, hleads⟩ => ⟨j, hleads⟩, fun ⟨j, hleads⟩ =>
      ⟨j, ?_, hleads⟩⟩
    obtain ⟨u, v, hu, -, hdist, -⟩ := hleads
    exact hbelow j u hu hdist
  case length => exact h.length
  case isLevels => exact h.isLevels
  case below => exact hbelow
  case shared => exact h.shared
  case depthIndex =>
    show m.depthIndex ++ [m.queue.outStart] = _
    rw [h.depthIndex, h.outStart, List.range_succ, List.map_append, List.map_singleton,
      List.cons_append]

/-- `PBFS` ends with depths, path counts and levels. -/
theorem pbfs_total (hg : Simple g) (hs : s < g.numNodes) (hm : Reset g m) :
    Total (pbfs g s) m fun m' => (∃ k levels, Counted g s k levels m')
      ∧ m'.scores = m.scores := by
  refine (start_total hg hs hm).seq fun m₁ ⟨h₁, hs₁⟩ => ?_
  refine (levels_total hg h₁).seq fun m₂ ⟨⟨k, levels, h₂, hempty⟩, hs₂⟩ => ?_
  refine total_act ⟨_, rfl⟩ ?_
  rintro m₃ rfl
  exact ⟨⟨k, levels, h₂.counted hg hs hempty⟩, hs₂.trans hs₁⟩

end ThesisBench.Gapbs.Brandes
