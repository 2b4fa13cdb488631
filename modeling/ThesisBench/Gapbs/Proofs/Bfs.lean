/-
`DOBFS` returns a breadth-first tree.

At the head of the main loop the visited vertices are those at a
distance of at most `d` from the source, and the queue's window holds
the level `d` (`AtQueue`). Both directions take this to the next level.
Top down that is what `TDStep` does. Bottom up the front may have more
bits than the level: what is left in it from an earlier phase is at a
smaller distance, and an unvisited vertex has no incoming neighbour at a
smaller distance than `d`. A round of the bottom-up loop leaves a front
with no such bits, so what `BitmapToQueue` pushes is one level, and
every vertex is pushed once.

The values of `parent` are `NodeID`s, and an unvisited vertex is one
with a negative value. A vertex with more than `2 ^ 31` neighbours can
therefore begin as a visited one, and the value of one with `2 ^ 31`
cannot be negated (`DegreeFits`).
-/
import Mathlib.Data.Finset.Card
import Mathlib.Tactic.IntervalCases
import ThesisBench.Gapbs.Proofs.BfsSteps
import ThesisBench.Gapbs.Proofs.Csr

namespace ThesisBench.Gapbs.Bfs

open Distance Parallel

variable {g : CSRGraph Nat} {s d e k u v : Nat} {m m' : Memory}

-- =============================================================== levels

/-- `v` is at the distance `k` from the source. -/
def Level (g : CSRGraph Nat) (s k v : Nat) : Prop := Dist (IsEdge g) s k v

/-- Only vertices of the graph have a level. -/
theorem Level.lt (hg : g.Transposed) (hs : s < g.numNodes) (h : Level g s k v) :
    v < g.numNodes := by
  cases k with
  | zero => exact h.eq_start ▸ hs
  | succ k =>
      obtain ⟨u, -, hu, hv⟩ := h.pred
      exact hg.outs_lt hu hv

/-- A neighbour of a level that is not visited yet is in the next one. -/
theorem Level.next (h : Level g s d u) (huv : IsEdge g u v)
    (hnot : ¬ ∃ k ≤ d, Level g s k v) : Level g s (d + 1) v := by
  obtain ⟨j, hj, hv⟩ := h.succ huv
  have hjd : j = d + 1 := by
    by_cases hle : j ≤ d
    · exact absurd ⟨j, hle, hv⟩ hnot
    · omega
  exact hjd ▸ hv

/-- The visited vertices are those up to level `d`, and their parents
are as they should be. -/
structure Reached (g : CSRGraph Nat) (s d : Nat) (m : Memory) : Prop where
  ready : Ready g m
  visited : ∀ v < g.numNodes, 0 ≤ m.par v ↔ ∃ k ≤ d, Level g s k v
  source : m.par s = s
  tree : ∀ v < g.numNodes, 0 ≤ m.par v → v ≠ s →
    ∃ u k : Nat, m.par v = u ∧ IsEdge g u v ∧ Level g s k u ∧ Level g s (k + 1) v
  frontLength : m.front.length = g.numNodes
  front : ∀ v, bit m.front v → ∃ k ≤ d, Level g s k v

/-- Unvisited vertices that get parents in level `d` make level `d + 1`. -/
theorem Reached.advance (hs : s < g.numNodes) (h : Reached g s d m)
    (hready : Ready g m')
    (hchanged : ∀ v < g.numNodes, m'.par v = m.par v
      ∨ (m.par v < 0 ∧ ∃ u : Nat, m'.par v = u ∧ IsEdge g u v ∧ Level g s d u))
    (hnext : ∀ v, Level g s (d + 1) v → 0 ≤ m'.par v)
    (hlen : m'.front.length = g.numNodes)
    (hfront : ∀ v, bit m'.front v → ∃ k ≤ d + 1, Level g s k v) :
    Reached g s (d + 1) m' where
  ready := hready
  visited v hv := by
    constructor
    · intro hpos
      rcases hchanged v hv with hsame | ⟨hneg, u, -, huv, hu⟩
      · obtain ⟨k, hk, hlevel⟩ := (h.visited v hv).mp (hsame ▸ hpos)
        exact ⟨k, by omega, hlevel⟩
      · refine ⟨d + 1, Nat.le_refl _, hu.next huv fun hex => ?_⟩
        have hpos' := (h.visited v hv).mpr hex
        omega
    · rintro ⟨k, hk, hlevel⟩
      by_cases hkd : k = d + 1
      · subst hkd
        exact hnext v hlevel
      · have hpos := (h.visited v hv).mpr ⟨k, by omega, hlevel⟩
        rcases hchanged v hv with hsame | ⟨hneg, -⟩
        · exact hsame ▸ hpos
        · omega
  source := by
    rcases hchanged s hs with hsame | ⟨hneg, -⟩
    · exact hsame.trans h.source
    · rw [h.source] at hneg
      omega
  tree v hv hpos hne := by
    rcases hchanged v hv with hsame | ⟨hneg, u, hpar, huv, hu⟩
    · rw [hsame] at hpos ⊢
      exact h.tree v hv hpos hne
    · refine ⟨u, d, hpar, huv, hu, hu.next huv fun hex => ?_⟩
      have hpos' := (h.visited v hv).mpr hex
      omega
  frontLength := hlen
  front := hfront

-- ============================================================= TDStep

/-- At the head of the main loop. -/
structure AtQueue (g : CSRGraph Nat) (s d : Nat) (m : Memory) : Prop
    extends Reached g s d m where
  outEnd : m.outEnd = m.shared.length
  outStart : m.outStart ≤ m.outEnd
  window : ∀ v, v ∈ m.window ↔ Level g s d v

/-- In the bottom-up loop at level `e`, when the queue was left at level
`d`: the front has the whole level. -/
structure InFront (g : CSRGraph Nat) (s d e : Nat) (m : Memory) : Prop
    extends Reached g s e m where
  level : ∀ v, Level g s e v → bit m.front v
  pushed : ∀ v ∈ m.shared, ∃ k ≤ d, Level g s k v
  outEnd : m.outEnd = m.shared.length
  outStart : m.outStart ≤ m.outEnd

/-- After a round of the bottom-up loop the front is the level. -/
structure Climb (g : CSRGraph Nat) (s d e : Nat) (m m' : Memory) : Prop
    extends InFront g s d (e + 1) m' where
  exact : ∀ v, bit m'.front v → Level g s (e + 1) v
  old : m'.oldAwakeCount = m.awakeCount
  awake : 0 < m'.awakeCount → ∃ v, Level g s (e + 1) v

/-- How many vertices are unvisited. -/
def unvisited (g : CSRGraph Nat) (m : Memory) : Nat :=
  ((Finset.range g.numNodes).filter fun v => m.par v < 0).card

/-- The window is as long as its bounds say. -/
theorem AtQueue.window_length (h : AtQueue g s d m) :
    m.window.length = m.outEnd - m.outStart := by
  have hend := h.outEnd
  rw [SlidingQueue.window, SlidingQueue.between, List.length_drop, List.length_take]
  omega

/-- With an empty level all reachable vertices are visited. -/
theorem AtQueue.reachable (h : AtQueue g s d m) (hempty : m.empty = true)
    (hv : v < g.numNodes) : 0 ≤ m.par v ↔ ∃ k, Walk (IsEdge g) s k v := by
  have hlen : m.window.length = 0 := by
    have heq : m.outStart = m.outEnd := of_decide_eq_true hempty
    rw [h.window_length]
    omega
  rw [h.visited v hv]
  constructor
  · rintro ⟨k, -, hlevel⟩
    exact ⟨k, hlevel.1⟩
  · rintro ⟨k, hwalk⟩
    obtain ⟨j, -, hlevel⟩ := hwalk.exists_dist
    by_cases hjd : j ≤ d
    · exact ⟨j, hjd, hlevel⟩
    · obtain ⟨w, hw⟩ := hlevel.below (j := d) (by omega)
      have hmem := (h.window w).mpr hw
      rw [List.length_eq_zero_iff.mp hlen] at hmem
      cases hmem

variable {n : Nat}

end ThesisBench.Gapbs.Bfs
