/-
Where the edges of a simple graph stand in the array of all neighbours.

The neighbours of `u` follow those of the vertices before it, so an edge
is known by its offset (`refs_inj`). The offsets are below the number of
directed edges (`refs_lt`): of an undirected graph `num_edges` is half of
the array, rounded down, and nothing is lost because every edge stands
there twice.
-/
import Mathlib.Algebra.BigOperators.Intervals
import ThesisBench.Gapbs.Brandes
import ThesisBench.Lib.Adjacency

namespace ThesisBench.Gapbs.Brandes

variable {g : CSRGraph Nat} {u v w p : Nat}

theorem Simple.outs_lt (hg : Simple g) (hu : u < g.numNodes) (hv : v ∈ g.outs u) :
    v < g.numNodes := by
  obtain ⟨l, hl, hlt⟩ := hg.outNeigh u hu
  rw [CSRGraph.outs, hl, Option.getD_some] at hv
  exact hlt v hv

-- ============================================================== offsets

/-- Where the neighbours of `u` start. -/
def offset (g : CSRGraph Nat) (u : Nat) : Nat := ∑ i ∈ Finset.range u, (g.outs i).length

/-- The neighbours of a vertex start where those before it end. -/
theorem offset_succ (u : Nat) : offset g (u + 1) = offset g u + (g.outs u).length :=
  Finset.sum_range_succ _ _

/-- The neighbours of later vertices start later. -/
theorem offset_mono (h : u ≤ w) : offset g u ≤ offset g w :=
  Finset.sum_le_sum_of_subset (Finset.range_mono h)

theorem Simple.index_eq (hg : Simple g) (hu : u ≤ g.numNodes) :
    g.outgoing.index.getD u 0 - g.outgoing.index.getD 0 0 = offset g u := by
  induction u with
  | zero => simp [offset]
  | succ u ih =>
      obtain ⟨l, hl, -⟩ := hg.outNeigh u (by omega)
      have hlen := CSRGraph.length_outs hl
      have ih := ih (by omega)
      rw [CSRGraph.outDegree] at hlen
      rw [offset_succ, Nat.cast_add]
      omega

/-- The neighbours of a vertex with their offsets. -/
theorem Simple.outRefs_eq (hg : Simple g) (hu : u < g.numNodes) :
    outRefs g u = (g.outs u).mapIdx fun j v => (offset g u + j, v) := by
  unfold outRefs
  rw [hg.index_eq (by omega)]
  rfl

theorem Simple.mem_outRefs (hg : Simple g) (hu : u < g.numNodes) :
    (p, v) ∈ outRefs g u ↔ ∃ j, p = offset g u + j ∧ (g.outs u)[j]? = some v := by
  rw [hg.outRefs_eq hu, List.mem_iff_getElem?]
  simp only [List.getElem?_mapIdx, Option.map_eq_some_iff, Prod.mk.injEq]
  constructor
  · rintro ⟨j, w, hw, rfl, rfl⟩
    exact ⟨j, rfl, hw⟩
  · rintro ⟨j, rfl, hj⟩
    exact ⟨j, v, hj, rfl, rfl⟩

/-- Without the offsets they are the neighbours. -/
theorem map_outRefs : (outRefs g u).map Prod.snd = g.outs u := by
  refine List.ext_getElem? fun j => ?_
  unfold outRefs
  rw [List.getElem?_map, List.getElem?_mapIdx, Option.map_map]
  exact Option.map_id'

/-- Offsets of a vertex lie between its start and the next. -/
theorem refs_between (hg : Simple g) (hu : u < g.numNodes) (h : (p, v) ∈ outRefs g u) :
    offset g u ≤ p ∧ p < offset g (u + 1) := by
  obtain ⟨j, rfl, hj⟩ := (hg.mem_outRefs hu).mp h
  have hlt := (List.getElem?_eq_some_iff.mp hj).1
  rw [offset_succ]
  omega

/-- The offset of an edge tells both of its ends. -/
theorem refs_inj (hg : Simple g) (hu : u < g.numNodes) (hw : w < g.numNodes) {v' : Nat}
    (h : (p, v) ∈ outRefs g u) (h' : (p, v') ∈ outRefs g w) : u = w ∧ v = v' := by
  have huw : u = w := by
    have hp := refs_between hg hu h
    have hp' := refs_between hg hw h'
    rcases Nat.lt_trichotomy u w with hlt | heq | hlt
    · have := offset_mono (g := g) (Nat.succ_le_of_lt hlt)
      rw [Nat.succ_eq_add_one] at this
      omega
    · exact heq
    · have := offset_mono (g := g) (Nat.succ_le_of_lt hlt)
      rw [Nat.succ_eq_add_one] at this
      omega
  subst huw
  obtain ⟨i, hi, hv⟩ := (hg.mem_outRefs hu).mp h
  obtain ⟨j, hj, hv'⟩ := (hg.mem_outRefs hu).mp h'
  have hij : i = j := by omega
  subst hij
  exact ⟨rfl, Option.some.inj (hv.symm.trans hv')⟩

-- ================================================== the number of edges

/-- An undirected graph has an even number of directed edges. -/
theorem Simple.even_offset (hg : Simple g) (hdir : g.directed = false) :
    Even (offset g g.numNodes) := by
  have hlists : Adjacency.Lists g.numNodes g.outs :=
    ⟨fun u hu => hg.nodup u hu, fun u hu v hv => hg.outs_lt hu hv⟩
  exact hlists.even_sum_length (fun u hu => hg.loopless u hu)
    (fun u hu v hv => hg.symm hdir u hu v hv)

/-- The number of edges is the last offset. -/
theorem Simple.numEdgesDirected_eq (hg : Simple g) :
    g.numEdgesDirected = offset g g.numNodes := by
  obtain ⟨size, hsize, hnum⟩ := hg.numEdges
  obtain ⟨last, hlast, hsize⟩ := Option.bind_eq_some_iff.mp hsize
  obtain ⟨first, hfirst, hsize⟩ := Option.bind_eq_some_iff.mp hsize
  have hindex := hg.index_eq (Nat.le_refl g.numNodes)
  rw [List.getD_eq_getElem?_getD, List.getD_eq_getElem?_getD, hlast, hfirst, Option.getD_some,
    Option.getD_some] at hindex
  have hsize : last - first = size := Option.some.inj hsize
  unfold CSRGraph.numEdgesDirected
  rw [hnum]
  cases hdir : g.directed with
  | true =>
      rw [if_pos rfl, if_pos rfl]
      omega
  | false =>
      obtain ⟨k, hk⟩ := hg.even_offset hdir
      rw [if_neg Bool.false_ne_true, if_neg Bool.false_ne_true]
      have htdiv : size.tdiv 2 = k := by
        have : size = 2 * (k : Int) := by omega
        rw [this, Int.mul_tdiv_cancel_left _ (by decide)]
      omega

/-- Offsets are below the number of edges. -/
theorem refs_lt (hg : Simple g) (hu : u < g.numNodes) (h : (p, v) ∈ outRefs g u) :
    p < g.numEdgesDirected.toNat := by
  have hp := (refs_between hg hu h).2
  have hle := offset_mono (g := g) (Nat.succ_le_of_lt hu)
  rw [hg.numEdgesDirected_eq, Int.toNat_natCast]
  rw [Nat.succ_eq_add_one] at hle
  omega

end ThesisBench.Gapbs.Brandes
