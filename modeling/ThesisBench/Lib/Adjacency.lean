/-
Counting the entries of adjacency lists.

The lists of the vertices below `n`, each without repetition, are a set
of pairs (`arcs`). Swapping the ends of the pairs shows that a graph and
its transpose have equally many entries, and that the entries of a
symmetric graph without loops are even in number.
-/
import Mathlib.Algebra.BigOperators.Intervals
import Mathlib.Data.ZMod.Basic

namespace ThesisBench.Adjacency

variable {n : Nat} {g h : Nat → List Nat}

/-- Lists without repetition over the vertices below `n`. -/
structure Lists (n : Nat) (g : Nat → List Nat) : Prop where
  nodup : ∀ u < n, (g u).Nodup
  lt : ∀ u < n, ∀ v ∈ g u, v < n

/-- The pairs that the lists stand for. -/
def arcs (n : Nat) (g : Nat → List Nat) : Finset (Nat × Nat) :=
  (Finset.range n ×ˢ Finset.range n).filter fun e => e.2 ∈ g e.1

/-- The arcs lead from a vertex to one in its list. -/
theorem mem_arcs {e : Nat × Nat} :
    e ∈ arcs n g ↔ (e.1 < n ∧ e.2 < n) ∧ e.2 ∈ g e.1 := by
  rw [arcs, Finset.mem_filter, Finset.mem_product, Finset.mem_range, Finset.mem_range]

/-- Where no list holds a vertex twice, the arcs are as many as the list
entries. -/
theorem Lists.card_arcs (hg : Lists n g) :
    (arcs n g).card = ∑ u ∈ Finset.range n, (g u).length := by
  rw [arcs, Finset.card_filter, Finset.sum_product]
  refine Finset.sum_congr rfl fun u hu => ?_
  have hu := Finset.mem_range.mp hu
  rw [← Finset.card_filter, ← List.toFinset_card_of_nodup (hg.nodup u hu)]
  congr 1
  ext v
  rw [Finset.mem_filter, Finset.mem_range, List.mem_toFinset]
  exact and_iff_right_of_imp (hg.lt u hu v)

/-- A graph and its transpose have equally many entries. -/
theorem Lists.sum_length_transpose (hg : Lists n g) (hh : Lists n h)
    (htr : ∀ u < n, ∀ v < n, v ∈ g u ↔ u ∈ h v) :
    ∑ u ∈ Finset.range n, (g u).length = ∑ u ∈ Finset.range n, (h u).length := by
  rw [← hg.card_arcs, ← hh.card_arcs]
  have hswap : (arcs n g).map (Equiv.prodComm Nat Nat).toEmbedding = arcs n h := by
    ext ⟨v, u⟩
    rw [Finset.mem_map_equiv, mem_arcs, mem_arcs]
    constructor
    · rintro ⟨⟨hu, hv⟩, hmem⟩
      exact ⟨⟨hv, hu⟩, (htr u hu v hv).mp hmem⟩
    · rintro ⟨⟨hv, hu⟩, hmem⟩
      exact ⟨⟨hu, hv⟩, (htr u hu v hv).mpr hmem⟩
  rw [← hswap, Finset.card_map]

/-- Every entry of a symmetric graph without loops has its inverse. -/
theorem Lists.even_sum_length (hg : Lists n g) (hloop : ∀ u < n, u ∉ g u)
    (hsymm : ∀ u < n, ∀ v ∈ g u, u ∈ g v) :
    Even (∑ u ∈ Finset.range n, (g u).length) := by
  have hsum : ∑ _e ∈ arcs n g, (1 : ZMod 2) = 0 := by
    refine Finset.sum_involution (fun e _ => e.swap) ?_ ?_ ?_ ?_
    · intro e _
      decide
    · rintro ⟨u, v⟩ he - heq
      obtain ⟨⟨hu, -⟩, hv⟩ := mem_arcs.mp he
      have huv : v = u := congrArg Prod.fst heq
      subst huv
      exact hloop v hu hv
    · rintro ⟨u, v⟩ he
      obtain ⟨⟨hu, hv⟩, hmem⟩ := mem_arcs.mp he
      exact mem_arcs.mpr ⟨⟨hv, hu⟩, hsymm u hu v hmem⟩
    · exact fun e _ => Prod.swap_swap e
  rw [Finset.sum_const, nsmul_one, hg.card_arcs] at hsum
  exact (ZMod.natCast_eq_zero_iff_even).mp hsum

end ThesisBench.Adjacency
