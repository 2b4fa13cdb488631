/-
Both kinds of grid interpolate in the same interval.

The sweep moves a nuclide's index by at most one for each point of the
unionized grid. It cannot fall behind: the points of the nuclide that it
has not passed are all still to come, in their order (`Cursor.At.ahead`),
because a sorted grid is a sublist of the sorted union. So the index in
the row of the point that a lookup finds brackets the energy in the
nuclide's grid too, and a sorted grid has one such index.

The `int` that counts the points of the matrix decides how large the
grids may be.
-/
import ThesisBench.XsBench.Grid
import Mathlib.Data.List.Sort
import Mathlib.Data.List.Forall2

namespace ThesisBench.XsBench.NuclideGrids

open Bisection

variable {E : Type} [LinearOrder E] {g : NuclideGrids E} {A us : List E} {u p : E}
  {c : Cursor E} {idx : Nat}

-- ============================================================== the sweep

/-- A nuclide's place before the points `us`. -/
structure Cursor.At (A us : List E) (c : Cursor E) : Prop where
  high : A[c.idxLow + 1]? = some c.energyHigh
  behind : c.idxLow = 0 ∨ ∃ e, A[c.idxLow]? = some e ∧ ∀ u ∈ us, e ≤ u
  ahead : c.idxLow + 2 = A.length ∨ (A.drop (c.idxLow + 1)).Sublist us

/-- What stands in the row of the point `u`, which the points `us`
follow. -/
structure Entry (A : List E) (u : E) (us : List E) (idx : Nat) : Prop where
  lt : idx + 1 < A.length
  behind : idx = 0 ∨ ∃ e, A[idx]? = some e ∧ e ≤ u
  ahead : idx + 2 = A.length ∨ (A.drop (idx + 1)).Sublist us

/-- What a nuclide's place says about the row it is written to. -/
theorem Cursor.At.entry (h : c.At A us) (hle : c.idxLow = 0 ∨ ∃ e, A[c.idxLow]? = some e ∧ e ≤ u) :
    Entry A u us c.idxLow where
  lt := (List.getElem?_eq_some_iff.mp h.high).1
  behind := hle
  ahead := h.ahead

omit [LinearOrder E] in
theorem drop_eq_cons {j : Nat} {e : E} (h : A[j]? = some e) : A.drop j = e :: A.drop (j + 1) := by
  obtain ⟨hj, rfl⟩ := List.getElem?_eq_some_iff.mp h
  exact List.drop_eq_getElem_cons hj

/-- A point of the sweep, for one nuclide. -/
theorem Cursor.At.advance (hA : A.length < 2 ^ 31) (hus : (u :: us).Pairwise (· ≤ ·))
    (h : c.At A (u :: us)) :
    ∃ c', NuclideGrids.advance A.length u A c = some c' ∧ c'.At A us
      ∧ Entry A u us c'.idxLow := by
  have hin := (List.getElem?_eq_some_iff.mp h.high).1
  have hbehind : c.idxLow = 0 ∨ ∃ e, A[c.idxLow]? = some e ∧ ∀ v ∈ us, e ≤ v := by
    rcases h.behind with h0 | ⟨e, he, hle⟩
    · exact Or.inl h0
    · exact Or.inr ⟨e, he, fun v hv => hle v (List.mem_cons_of_mem _ hv)⟩
  have hle : c.idxLow = 0 ∨ ∃ e, A[c.idxLow]? = some e ∧ e ≤ u := by
    rcases h.behind with h0 | ⟨e, he, hle⟩
    · exact Or.inl h0
    · exact Or.inr ⟨e, he, hle u (List.mem_cons_self ..)⟩
  unfold NuclideGrids.advance
  split
  case isTrue hlt =>
    have hahead : c.idxLow + 2 = A.length ∨ (A.drop (c.idxLow + 1)).Sublist us := by
      rcases h.ahead with hend | hsub
      · exact Or.inl hend
      · -- the point is before the next one of the nuclide
        rw [drop_eq_cons h.high] at hsub ⊢
        cases hsub with
        | cons _ hsub => exact Or.inr hsub
        | cons_cons => exact absurd hlt (lt_irrefl _)
    have hc : c.At A us := ⟨h.high, hbehind, hahead⟩
    exact ⟨c, rfl, hc, hc.entry hle⟩
  case isFalse hge =>
    split
    case isTrue hend =>
      have hc : c.At A us := ⟨h.high, hbehind, Or.inl (by omega)⟩
      exact ⟨c, rfl, hc, hc.entry hle⟩
    case isFalse hend =>
      have hget : A[c.idxLow + 2]? = some A[c.idxLow + 2] := List.getElem?_eq_getElem (by omega)
      have hsub : (A.drop (c.idxLow + 1)).Sublist (u :: us) := by
        rcases h.ahead with hlast | hsub
        · omega
        · exact hsub
      rw [if_pos (by omega), hget, Option.map_some]
      have hc : Cursor.At A us ⟨c.idxLow + 1, A[c.idxLow + 2]⟩ := by
        refine ⟨hget, Or.inr ⟨c.energyHigh, h.high, fun v hv => ?_⟩, Or.inr ?_⟩
        · exact le_trans (le_of_not_gt hge) ((List.pairwise_cons.mp hus).1 v hv)
        · rw [drop_eq_cons h.high] at hsub
          cases hsub with
          | cons _ hsub => exact (List.sublist_cons_self _ _).trans hsub
          | cons_cons _ hsub => exact hsub
      exact ⟨_, rfl, hc, hc.entry (Or.inr ⟨c.energyHigh, h.high, le_of_not_gt hge⟩)⟩

/-- A point of the sweep, for all nuclides. -/
theorem advanceAll_spec {n : Nat} (hn : n < 2 ^ 31) (hus : (u :: us).Pairwise (· ≤ ·))
    {grids : List (List E)} {cs : List (Cursor E)} (hlen : ∀ A ∈ grids, A.length = n)
    (h : List.Forall₂ (fun A c => Cursor.At A (u :: us) c) grids cs) :
    ∃ cs', advanceAll n u grids cs = some cs'
      ∧ List.Forall₂ (fun A c => Cursor.At A us c) grids cs'
      ∧ List.Forall₂ (fun A idx => Entry A u us idx) grids (cs'.map Cursor.idxLow) := by
  induction h with
  | nil => exact ⟨[], rfl, .nil, .nil⟩
  | @cons A c grids cs hc _ ih =>
      have hA := hlen A (List.mem_cons_self ..)
      obtain ⟨c', hadv, hc', hentry⟩ := hc.advance (by omega) hus
      obtain ⟨cs', hall, hcs', hentries⟩ := ih fun B hB => hlen B (List.mem_cons_of_mem _ hB)
      rw [hA] at hadv
      refine ⟨c' :: cs', ?_, .cons hc' hcs', .cons hentry hentries⟩
      simp only [advanceAll, hadv, hall, Option.bind_eq_bind, Option.bind_some]
      rfl

/-- The sweep writes a row for each point, with a place for each nuclide. -/
theorem sweep_spec (hn : g.nGridpoints < 2 ^ 31) (us : List E) (hus : us.Pairwise (· ≤ ·)) :
    ∀ {cs : List (Cursor E)}, List.Forall₂ (fun A c => Cursor.At A us c) g.grids cs →
    ∃ rows, g.sweep us cs = some rows
      ∧ ∀ e u, us[e]? = some u → ∃ row, rows[e]? = some row
        ∧ List.Forall₂ (fun A idx => Entry A u (us.drop (e + 1)) idx) g.grids row := by
  induction us with
  | nil =>
      intro cs _
      refine ⟨[], rfl, fun e u he => ?_⟩
      cases he
  | cons v us ih =>
      intro cs h
      obtain ⟨cs', hall, hcs', hentries⟩ := advanceAll_spec hn hus g.length_eq h
      obtain ⟨rows, hrows, hrest⟩ := ih (List.pairwise_cons.mp hus).2 hcs'
      refine ⟨cs'.map Cursor.idxLow :: rows, ?_, fun e u he => ?_⟩
      · simp only [sweep, hall, hrows, Option.bind_eq_bind, Option.bind_some]
        rfl
      · cases e with
        | zero =>
            cases he
            exact ⟨_, rfl, hentries⟩
        | succ e => exact hrest e u he

-- ====================================================== the unionized grid

/-- The energies of the unionized grid. -/
def union (g : NuclideGrids E) : List E := g.grids.flatten.mergeSort fun a b => decide (a ≤ b)

theorem union_perm : g.union.Perm g.grids.flatten := List.mergeSort_perm _ _

theorem union_sorted : g.union.Pairwise (· ≤ ·) := by
  unfold union
  refine (List.pairwise_mergeSort ?_ ?_ _).imp fun {a b} hab => of_decide_eq_true hab
  · intro a b c hab hbc
    exact decide_eq_true (le_trans (of_decide_eq_true hab) (of_decide_eq_true hbc))
  · intro a b
    rw [Bool.or_eq_true, decide_eq_true_eq, decide_eq_true_eq]
    exact le_total a b

/-- The union is as long as all grids together. -/
theorem length_union : g.union.length = g.nIsotopes * g.nGridpoints := by
  have hsum : ∀ grids : List (List E), (∀ A ∈ grids, A.length = g.nGridpoints) →
      grids.flatten.length = grids.length * g.nGridpoints := by
    intro grids hlen
    induction grids with
    | nil => rw [List.length_nil, Nat.zero_mul, List.flatten_nil, List.length_nil]
    | cons A grids ih =>
        rw [List.flatten_cons, List.length_append, hlen A (List.mem_cons_self ..),
          ih fun B hB => hlen B (List.mem_cons_of_mem _ hB), List.length_cons, Nat.succ_mul,
          Nat.add_comm]
  rw [union_perm.length_eq, hsum g.grids g.length_eq]
  rfl

/-- A grid is in the union, in its order. -/
theorem sublist_union (hA : A ∈ g.grids) : A.Sublist g.union := by
  have hsub : A.Subperm g.union :=
    ((List.sublist_flatten_of_mem hA).subperm).trans union_perm.symm.subperm
  exact List.sublist_of_subperm_of_pairwise hsub (g.sorted A hA) union_sorted

/-- The second energy of a grid is above the first of the union. -/
theorem first_lt_second (hA : A ∈ g.grids) {a b : E} (ha : g.union[0]? = some a)
    (hb : A[1]? = some b) : a < b := by
  obtain ⟨hlt, -⟩ := List.getElem?_eq_some_iff.mp hb
  have h0 : A[0]? = some A[0] := List.getElem?_eq_getElem (by omega)
  have hle : A[0] ≤ b := getElem?_le (g.sorted A hA) (Nat.zero_le 1) h0 hb
  have hne : A[0] ≠ b := by
    intro heq
    exact g.smallest_ne A hA (by rw [h0, hb, heq])
  obtain ⟨k, hk⟩ := List.getElem?_of_mem ((sublist_union hA).subset (List.getElem_mem
    (show 0 < A.length by omega)))
  exact lt_of_le_of_lt (getElem?_le union_sorted (Nat.zero_le k) ha hk) (lt_of_le_of_ne hle hne)

/-- The sweep starts with every nuclide at its first point. -/
theorem cursors_spec (hn : g.nIsotopes < 2 ^ 31) :
    ∃ cs, g.cursors = some cs
      ∧ List.Forall₂ (fun A c => Cursor.At A g.union c) g.grids cs := by
  have hall : ∀ grids : List (List E), (∀ A ∈ grids, A ∈ g.grids) →
      ∃ cs, (grids.mapM fun A => (A[1]?).map (Cursor.mk 0)) = some cs
        ∧ List.Forall₂ (fun A c => Cursor.At A g.union c) grids cs := by
    intro grids hmem
    induction grids with
    | nil => exact ⟨[], rfl, .nil⟩
    | cons A grids ih =>
        obtain ⟨cs, hcs, hforall⟩ := ih fun B hB => hmem B (List.mem_cons_of_mem _ hB)
        have hA := hmem A (List.mem_cons_self ..)
        have hlen := g.length_eq A hA
        have htwo := g.two_le
        have hget : A[1]? = some A[1] := List.getElem?_eq_getElem (by omega)
        have hat : Cursor.At A g.union ⟨0, A[1]⟩ :=
          ⟨hget, Or.inl rfl, Or.inr ((List.drop_sublist 1 A).trans (sublist_union hA))⟩
        refine ⟨⟨0, A[1]⟩ :: cs, ?_, .cons hat hforall⟩
        rw [List.mapM_cons, hget, hcs]
        rfl
  obtain ⟨cs, hcs, hforall⟩ := hall g.grids fun A hA => hA
  exact ⟨cs, by rw [cursors, if_pos hn, hcs], hforall⟩

-- ============================================================ the lookups

/-- The entry in the row that brackets the energy brackets it too. -/
theorem Entry.brackets (hA : A ∈ g.grids) {e : Nat} (he : Brackets g.union p e)
    (hu : g.union[e]? = some u) (h : Entry A u (g.union.drop (e + 1)) idx) :
    Brackets A p idx := by
  refine ⟨h.lt, ?_, ?_⟩
  · rcases h.behind with h0 | ⟨a, ha, hau⟩
    · exact Or.inl h0
    · rcases he.le with rfl | ⟨v, hv, hvp⟩
      · -- nothing of the grid but its first point is at or below the first of the union
        by_cases h0 : idx = 0
        · exact Or.inl h0
        · have hlen := h.lt
          obtain ⟨b, hone⟩ : ∃ b, A[1]? = some b := exists_get (by omega)
          have hlt := first_lt_second hA hu hone
          have hle := getElem?_le (g.sorted A hA) (Nat.one_le_iff_ne_zero.mpr h0) hone ha
          exact absurd (lt_of_lt_of_le hlt (le_trans hle hau)) (lt_irrefl u)
      · cases hu.symm.trans hv
        exact Or.inr ⟨a, ha, le_trans hau hvp⟩
  · rcases h.ahead with hend | hsub
    · exact Or.inl hend
    · rcases he.gt with hlast | ⟨v, hv, hpv⟩
      · have hlen := hsub.length_le
        have hlt := h.lt
        rw [List.length_drop, List.length_drop] at hlen
        exact Or.inl (by omega)
      · obtain ⟨b, hget⟩ := exists_get h.lt
        rw [drop_eq_cons hget] at hsub
        obtain ⟨k, hk⟩ := List.getElem?_of_mem (hsub.subset (List.mem_cons_self ..))
        rw [List.getElem?_drop] at hk
        exact Or.inr ⟨_, hget, lt_of_lt_of_le hpv (getElem?_le union_sorted (by omega) hv hk)⟩

/-- A place found by the search is not moved back. -/
theorem lowOf_of_brackets (hA : A ∈ g.grids) (h : Brackets A p idx) : g.lowOf idx = idx := by
  have hlt := h.lt
  rw [g.length_eq A hA] at hlt
  rw [lowOf, if_neg (by omega)]

/-- The search in a nuclide's own grid finds its place. -/
theorem nuclideLow_spec {nuc : Nat} (hA : g.grids[nuc]? = some A) (p : E) :
    ∃ idx, Brackets A p idx ∧ gridSearch g.nGridpoints p A = some idx
      ∧ g.nuclideLow p nuc = some idx := by
  have hmem := List.mem_of_getElem? hA
  have hlen := g.length_eq A hmem
  have htwo := g.two_le
  obtain ⟨idx, hidx, hbrackets⟩ := halve_brackets (A := A) (x := p) (by omega)
  rw [hlen] at hidx
  refine ⟨idx, hbrackets, hidx, ?_⟩
  have hsearch : gridSearch g.nGridpoints p A = some idx := hidx
  simp only [nuclideLow, hA, Option.bind_eq_bind, Option.bind_some, hsearch,
    lowOf_of_brackets hmem hbrackets]
  rfl

/-- The energy grid is the sorted union when its size is an `int`. -/
theorem generateEnergyGrid_spec (hpos : 1 ≤ g.nIsotopes)
    (hsize : g.nIsotopes * g.nGridpoints < 2 ^ 31) : g.generateEnergyGrid = some g.union := by
  have htwo := g.two_le
  have hprod : 0 < g.nIsotopes * g.nGridpoints := Nat.mul_pos hpos (by omega)
  have hfirst : ∃ i, ((List.range (g.nIsotopes * g.nGridpoints)).filter
      fun i => i % g.nGridpoints = 0)[0]? = some i := by
    refine ⟨_, List.getElem?_eq_getElem (List.length_pos_of_mem (a := 0) ?_)⟩
    exact List.mem_filter.mpr ⟨List.mem_range.mpr hprod, decide_eq_true (Nat.zero_mod _)⟩
  obtain ⟨i, hi⟩ := hfirst
  rw [generateEnergyGrid, gpmatrix, if_pos hsize, Option.bind_eq_bind, Option.bind_some, hi]
  rfl

/-- With points that an `int` counts, the unionized path finds a
bracketing index. -/
theorem unionizedLow_spec {nuc : Nat} (hA : g.grids[nuc]? = some A)
    (hsize : g.nIsotopes * g.nGridpoints < 2 ^ 31) (p : E) :
    ∃ idx, Brackets A p idx ∧ g.unionizedLow p nuc = some idx := by
  have hmem := List.mem_of_getElem? hA
  have hpos : 1 ≤ g.nIsotopes := List.length_pos_of_mem hmem
  have htwo := g.two_le
  have hlong : g.nGridpoints ≤ g.nIsotopes * g.nGridpoints := Nat.le_mul_of_pos_left _ hpos
  have hmany : g.nIsotopes ≤ g.nIsotopes * g.nGridpoints := Nat.le_mul_of_pos_right _ (by omega)
  obtain ⟨cs, hcs, hat⟩ := cursors_spec (g := g) (by omega)
  obtain ⟨rows, hrows, hentries⟩ := sweep_spec (by omega) g.union union_sorted hat
  obtain ⟨e, hsearch, he⟩ := halve_brackets (A := g.union) (x := p)
    (by rw [length_union]; omega)
  rw [length_union] at hsearch
  obtain ⟨u, hu⟩ := exists_get (Nat.lt_of_succ_lt he.lt)
  obtain ⟨row, hrow, hforall⟩ := hentries e u hu
  obtain ⟨idx, hidx, hentry⟩ : ∃ idx, row[nuc]? = some idx
      ∧ Entry A u (g.union.drop (e + 1)) idx := by
    have hlt : nuc < row.length := by
      rw [← hforall.length_eq]
      exact (List.getElem?_eq_some_iff.mp hA).1
    obtain ⟨hin, rfl⟩ := List.getElem?_eq_some_iff.mp hA
    exact ⟨row[nuc], List.getElem?_eq_getElem hlt, hforall.get hin hlt⟩
  have hbrackets := hentry.brackets hmem he hu
  refine ⟨idx, hbrackets, ?_⟩
  have hset : g.setGridPtrs g.union = some rows := by
    rw [setGridPtrs, hcs]
    exact hrows
  have hfind : gridSearch (g.nIsotopes * g.nGridpoints) p g.union = some e := hsearch
  simp only [unionizedLow, generateEnergyGrid_spec hpos hsize, Option.bind_eq_bind,
    Option.bind_some, hset, hfind, hrow, hidx, lowOf_of_brackets hmem hbrackets]
  rfl

/-- An energy grid whose size is no `int` is not built. -/
theorem unionizedLow_none (hsize : ¬ g.nIsotopes * g.nGridpoints < 2 ^ 31) (p : E) (nuc : Nat) :
    g.unionizedLow p nuc = none := by
  rw [unionizedLow, generateEnergyGrid, gpmatrix, if_neg hsize]
  rfl

-- ============================================================= the result

/-- Both paths find the same lower point for every nuclide, exactly when
an `int` counts the points of all grids. -/
theorem unionizedLow_eq_nuclideLow_iff (g : NuclideGrids E) (p : E) :
    (∀ nuc < g.nIsotopes, ∃ A idx, g.grids[nuc]? = some A
        ∧ gridSearch g.nGridpoints p A = some idx
        ∧ g.nuclideLow p nuc = some idx ∧ g.unionizedLow p nuc = some idx)
      ↔ g.nIsotopes * g.nGridpoints < 2 ^ 31 := by
  constructor
  · intro h
    by_contra hsize
    have hpos : 0 < g.nIsotopes := by
      by_contra hzero
      rw [Nat.eq_zero_of_not_pos hzero, Nat.zero_mul] at hsize
      exact hsize (by decide)
    obtain ⟨A, idx, -, -, -, hfound⟩ := h 0 hpos
    rw [unionizedLow_none hsize] at hfound
    cases hfound
  · intro hsize nuc hnuc
    have hA : g.grids[nuc]? = some g.grids[nuc] := List.getElem?_eq_getElem hnuc
    obtain ⟨idx, hidx, hsearch, hlow⟩ := nuclideLow_spec hA p
    obtain ⟨idx', hidx', hfound⟩ := unionizedLow_spec hA hsize p
    have hsorted := g.sorted _ (List.getElem_mem hnuc)
    exact ⟨_, idx, hA, hsearch, hlow, hidx.unique hsorted hidx' ▸ hfound⟩

/-- One nuclide, with the energies `0`, `1`, and so on. -/
def oneNuclide (n : Nat) (hn : 2 ≤ n) : NuclideGrids Nat where
  nGridpoints := n
  grids := [List.range n]
  two_le := hn
  length_eq A hA := by rw [List.mem_singleton.mp hA, List.length_range]
  sorted A hA := by
    rw [List.mem_singleton.mp hA]
    exact List.pairwise_le_range
  smallest_ne A hA := by
    rw [List.mem_singleton.mp hA, List.getElem?_range (by omega), List.getElem?_range (by omega)]
    exact fun h => Nat.zero_ne_one (Option.some.inj h)

/-- The union of one nuclide is its own grid. -/
theorem union_oneNuclide {n : Nat} (hn : 2 ≤ n) : (oneNuclide n hn).union = List.range n := by
  have hflat : (oneNuclide n hn).grids.flatten = List.range n := List.append_nil _
  rw [union, hflat]
  refine List.mergeSort_of_pairwise (List.pairwise_le_range.imp fun {a b} hab => ?_)
  exact decide_eq_true hab

/-- One turn of the sweep over a single nuclide. -/
theorem sweep_oneNuclide_cons {n : Nat} (hn : 2 ≤ n) (u : Nat) (us : List Nat)
    (c : Cursor Nat) :
    (oneNuclide n hn).sweep (u :: us) [c]
      = (advance n u (List.range n) c).bind fun c =>
          ((oneNuclide n hn).sweep us [c]).map ([c.idxLow] :: ·) := by
  have hall : advanceAll n u (oneNuclide n hn).grids [c]
      = (advance n u (List.range n) c).map fun c => [c] := by
    show advanceAll n u [List.range n] [c] = _
    rw [advanceAll]
    cases advance n u (List.range n) c <;> rfl
  rw [sweep, show (oneNuclide n hn).nGridpoints = n from rfl, hall]
  cases advance n u (List.range n) c with
  | none => rfl
  | some c => cases hsweep : (oneNuclide n hn).sweep us [c] <;> simp [hsweep]

/-- From the second point on the nuclide's index moves with every one. At
the point `2^31 - 1` the index of the next energy is no `int`. -/
theorem sweep_oneNuclide {n : Nat} (hn : 2 ≤ n) (hlong : 2 ^ 31 < n) : ∀ (d k : Nat),
    1 ≤ k → k + d + 1 = 2 ^ 31 →
    (oneNuclide n hn).sweep (List.range' k (n - k)) [⟨k - 1, k⟩] = none := by
  intro d
  induction d with
  | zero =>
      intro k hk hd
      have hstep : advance n k (List.range n) ⟨k - 1, k⟩ = none := by
        unfold advance
        rw [if_neg (lt_irrefl k), if_neg (show k - 1 ≠ n - 2 by omega),
          if_neg (show ¬ k - 1 + 2 < 2 ^ 31 by omega)]
      rw [show n - k = n - k - 1 + 1 by omega, List.range'_succ, sweep_oneNuclide_cons, hstep,
        Option.bind_none]
  | succ d ih =>
      intro k hk hd
      have hget : (List.range n)[k - 1 + 2]? = some (k + 1) := by
        rw [List.getElem?_range (by omega), show k - 1 + 2 = k + 1 by omega]
      have hstep : advance n k (List.range n) ⟨k - 1, k⟩ = some ⟨k, k + 1⟩ := by
        unfold advance
        rw [if_neg (lt_irrefl k), if_neg (show k - 1 ≠ n - 2 by omega),
          if_pos (show k - 1 + 2 < 2 ^ 31 by omega), hget, Option.map_some, Nat.sub_add_cancel hk]
      have hnext := ih (k + 1) (by omega) (by omega)
      rw [Nat.add_sub_cancel, Nat.sub_add_eq] at hnext
      rw [show n - k = n - k - 1 + 1 by omega, List.range'_succ, sweep_oneNuclide_cons, hstep,
        Option.bind_some, hnext, Option.map_none]

/-- The loop that fills `xs_ptrs` leaves the range of an `int`. -/
theorem setGridPtrs_oneNuclide {n : Nat} (hn : 2 ≤ n) (hlong : 2 ^ 31 < n) :
    (oneNuclide n hn).setGridPtrs (oneNuclide n hn).union = none := by
  have hcursors : (oneNuclide n hn).cursors = some [⟨0, 1⟩] := by
    have hsecond : (List.range n)[1]? = some 1 := List.getElem?_range (by omega)
    rw [cursors, if_pos (show (oneNuclide n hn).nIsotopes < 2 ^ 31 from (by decide : 1 < 2 ^ 31))]
    show ([List.range n].mapM fun A => (A[1]?).map (Cursor.mk 0)) = _
    rw [List.mapM_cons, hsecond]
    rfl
  have hfirst : advance n 0 (List.range n) ⟨0, 1⟩ = some ⟨0, 1⟩ := if_pos Nat.zero_lt_one
  have hrest : (oneNuclide n hn).sweep (List.range' 1 (n - 1)) [⟨0, 1⟩] = none :=
    sweep_oneNuclide hn hlong (2 ^ 31 - 2) 1 (Nat.le_refl 1) (by decide)
  have hrange : List.range n = 0 :: List.range' 1 (n - 1) := by
    have h : List.range' 0 (n - 1 + 1) = 0 :: List.range' 1 (n - 1) := List.range'_succ
    rwa [Nat.sub_add_cancel (by omega), ← List.range_eq_range'] at h
  rw [setGridPtrs, hcursors, Option.bind_eq_bind, Option.bind_some, union_oneNuclide, hrange,
    sweep_oneNuclide_cons, hfirst, Option.bind_some, hrest, Option.map_none]

/-- Two points more than an `int` counts: there is no unionized grid, and
for the one there should be `idx_low` and `xs_ptrs` overflow as well. The
nuclide path has its index. -/
theorem unionizedLow_overflow :
    (oneNuclide (2 ^ 31 + 2) (by decide)).unionizedLow 0 0 = none
      ∧ (oneNuclide (2 ^ 31 + 2) (by decide)).setGridPtrs
          (oneNuclide (2 ^ 31 + 2) (by decide)).union = none
      ∧ ∃ idx, (oneNuclide (2 ^ 31 + 2) (by decide)).nuclideLow 0 0 = some idx := by
  refine ⟨unionizedLow_none ?_ 0 0, setGridPtrs_oneNuclide (by decide) (by decide), ?_⟩
  · show ¬ 1 * (2 ^ 31 + 2) < 2 ^ 31
    decide
  · have hget : (oneNuclide (2 ^ 31 + 2) (by decide)).grids[0]? = some (List.range (2 ^ 31 + 2)) :=
      rfl
    obtain ⟨idx, -, -, hlow⟩ := nuclideLow_spec hget 0
    exact ⟨idx, hlow⟩

end ThesisBench.XsBench.NuclideGrids
