/-
The hash grid finds the points that the nuclide grids do, but for one
kind of energy.

A bin's pointers bracket its lower end, and those of the next bin its
upper end, so what brackets an energy of the bin is between them. But an
energy that is not above the first of the two points is taken for one
below the whole grid, and one that is equal to that point, which has to
be at the lower end of the bin, is not.
-/
import ThesisBench.XsBench.CrossSections
import ThesisBench.XsBench.Proofs.Grid

namespace ThesisBench.XsBench.NuclideGrids

open Bisection Slots

variable {g : NuclideGrids ℚ} {A : List ℚ} {p : ℚ} {hashBins nuc : Nat}

-- ============================================================== the table

/-- A loop whose steps all go through, with what each of them gives. -/
theorem mapM_exists {α β : Type} {f : α → Option β} {r : α → β → Prop} (l : List α)
    (h : ∀ x ∈ l, ∃ y, f x = some y ∧ r x y) :
    ∃ ys, l.mapM f = some ys ∧ List.Forall₂ r l ys := by
  induction l with
  | nil => exact ⟨[], rfl, .nil⟩
  | cons x l ih =>
      obtain ⟨y, hy, hr⟩ := h x List.mem_cons_self
      obtain ⟨ys, hys, hrs⟩ := ih fun z hz => h z (List.mem_cons_of_mem _ hz)
      exact ⟨y :: ys, by rw [List.mapM_cons, hy, hys]; rfl, .cons hr hrs⟩

theorem asInt_of_lt {x : Nat} (h : x < 2 ^ 31) : asInt x = some x := if_pos h

/-- A bin's row brackets its lower end in every grid. -/
theorem hashRow_spec (hn : g.nGridpoints < 2 ^ 31) (hashBins e : Nat) :
    ∃ row, g.hashRow hashBins e = some row
      ∧ List.Forall₂ (fun A idx => Brackets A (binEnergy hashBins e) idx) g.grids row := by
  refine mapM_exists g.grids fun A hA => ?_
  obtain ⟨nuc, hnuc⟩ := List.getElem?_of_mem hA
  obtain ⟨idx, hidx, hsearch, -⟩ := nuclideLow_spec hnuc (binEnergy hashBins e)
  have hlt := hidx.lt
  rw [g.length_eq A hA] at hlt
  refine ⟨idx, ?_, hidx⟩
  rw [hsearch]
  exact asInt_of_lt (by omega)

/-- The rows of a table of this many bins. -/
structure IsHashTable (g : NuclideGrids ℚ) (hashBins : Nat) (energyGrid : EnergyGrid) : Prop where
  row : ∀ e < hashBins, ∃ row, energyGrid.xsPtrs[e]? = some row
    ∧ List.Forall₂ (fun A idx => Brackets A (binEnergy hashBins e) idx) g.grids row

/-- The hash table is built when a grid's size is an `int`. -/
theorem generateHashTable_spec (hn : g.nGridpoints < 2 ^ 31) (hashBins : Nat) :
    ∃ energyGrid, g.generateHashTable hashBins = some energyGrid
      ∧ IsHashTable g hashBins energyGrid := by
  obtain ⟨rows, hrows, hall⟩ := mapM_exists (List.range hashBins) fun e _ =>
    hashRow_spec hn hashBins e
  refine ⟨⟨[], rows⟩, by rw [generateHashTable, hrows]; rfl, ⟨fun e he => ?_⟩⟩
  have hlen := hall.length_eq
  rw [List.length_range] at hlen
  have h := hall.get (i := e) (by rwa [List.length_range]) (hlen ▸ he)
  refine ⟨_, List.getElem?_eq_getElem (hlen ▸ he), ?_⟩
  rw [List.get_eq_getElem, List.get_eq_getElem, List.getElem_range] at h
  exact h

/-- A bin holds the place of its energy in every nuclide's grid. -/
theorem IsHashTable.ptr {energyGrid : EnergyGrid} (h : IsHashTable g hashBins energyGrid)
    {e : Nat} (he : e < hashBins) (hA : g.grids[nuc]? = some A) :
    ∃ row idx, read energyGrid.xsPtrs (e : Int) = some row ∧ row[nuc]? = some idx
      ∧ Brackets A (binEnergy hashBins e) idx := by
  obtain ⟨row, hrow, hall⟩ := h.row e he
  obtain ⟨hnuc, rfl⟩ := List.getElem?_eq_some_iff.mp hA
  have hlt : nuc < row.length := hall.length_eq ▸ hnuc
  refine ⟨row, row[nuc], ?_, List.getElem?_eq_getElem hlt, hall.get hnuc hlt⟩
  rw [Slots.read, if_pos (by omega), Int.toNat_natCast, hrow]

-- ================================================================ the bins

/-- The bin of an energy, and its ends. -/
theorem hashIdx_spec (hbins : 0 < hashBins) (h0 : 0 ≤ p) (h1 : p < 1) :
    ∃ e < hashBins, hashIdx hashBins p = e ∧ binEnergy hashBins e ≤ p
      ∧ p < binEnergy hashBins (e + 1) := by
  have hpos : (0 : ℚ) < hashBins := by exact_mod_cast hbins
  have hdiv : p / (1 / hashBins) = p * hashBins := by rw [div_div_eq_mul_div, div_one]
  have hle : 0 ≤ p * hashBins := mul_nonneg h0 hpos.le
  have hlt : p * hashBins < hashBins := by
    calc p * hashBins < 1 * hashBins := mul_lt_mul_of_pos_right h1 hpos
      _ = hashBins := one_mul _
  obtain ⟨e, he⟩ := Int.eq_ofNat_of_zero_le (Int.floor_nonneg.mpr hle)
  have hfloor := Int.floor_le (p * hashBins)
  have hceil := Int.lt_floor_add_one (p * hashBins)
  rw [he, Int.cast_natCast] at hfloor hceil
  refine ⟨e, ?_, ?_, ?_, ?_⟩
  · exact_mod_cast lt_of_le_of_lt hfloor hlt
  · rw [hashIdx, hdiv, he]
  · rw [binEnergy, mul_one_div, div_le_iff₀ hpos]
    exact hfloor
  · rw [binEnergy, mul_one_div, lt_div_iff₀ hpos, Nat.cast_add, Nat.cast_one]
    exact hceil

-- ============================================================= the lookup

/-- An energy not above the first point. -/
theorem brackets_zero (hA : A ∈ g.grids) {a : ℚ} (ha : A[0]? = some a) (hp : p ≤ a) :
    Brackets A p 0 := by
  have hlen := g.length_eq A hA
  have htwo := g.two_le
  obtain ⟨b, hb⟩ := exists_get (A := A) (j := 1) (by omega)
  have hne := g.smallest_ne A hA
  rw [ha, hb] at hne
  have hlt : a < b := lt_of_le_of_ne (getElem?_le (g.sorted A hA) (Nat.zero_le 1) ha hb)
    fun h => hne (congrArg some h)
  exact ⟨by omega, .inl rfl, .inr ⟨b, hb, lt_of_le_of_lt hp hlt⟩⟩

/-- An energy not below the last point. -/
theorem brackets_last (hA : A ∈ g.grids) {a : ℚ} (ha : A[g.nGridpoints - 1]? = some a)
    (hp : a ≤ p) : Brackets A p (g.nGridpoints - 2) := by
  have hlen := g.length_eq A hA
  have htwo := g.two_le
  obtain ⟨b, hb⟩ := exists_get (A := A) (j := g.nGridpoints - 2) (by omega)
  have hle := getElem?_le (g.sorted A hA) (by omega) hb ha
  exact ⟨by omega, .inr ⟨b, hb, hle.trans hp⟩, .inl (by omega)⟩

/-- An energy that the hash grid takes for one below the grid. -/
def Missed (hashBins : Nat) (A : List ℚ) (p : ℚ) : Prop :=
  (∃ e : Nat, p = binEnergy hashBins e) ∧ ∃ i, 0 < i ∧ i + 1 < A.length ∧ A[i]? = some p

/-- The upper point of a bin: the last one of the grid, unless it is above
the energies of the bin. -/
theorem upperBound_spec {energyGrid : EnergyGrid} (h : IsHashTable g hashBins energyGrid)
    (hn : g.nGridpoints < 2 ^ 31) (hA : g.grids[nuc]? = some A) {e : Nat} (he : e < hashBins)
    (hp : p < binEnergy hashBins (e + 1)) :
    ∃ uHigh a, g.upperBound hashBins energyGrid e nuc = some uHigh ∧ A[uHigh]? = some a
      ∧ (uHigh = g.nGridpoints - 1 ∨ p < a) := by
  have hmem := List.mem_of_getElem? hA
  have hlen := g.length_eq A hmem
  have htwo := g.two_le
  by_cases hlast : (e : Int) = hashBins - 1
  · obtain ⟨a, ha⟩ := exists_get (A := A) (j := g.nGridpoints - 1) (by omega)
    exact ⟨_, a, by rw [upperBound, if_pos hlast, asInt_of_lt (by omega)], ha, .inl rfl⟩
  · obtain ⟨row, idx, hrow, hidx, hbrackets⟩ := h.ptr (e := e + 1) (by omega) hA
    have hlt := hbrackets.lt
    have hup : g.upperBound hashBins energyGrid e nuc = some (idx + 1) := by
      rw [Nat.cast_add, Nat.cast_one] at hrow
      rw [upperBound, if_neg hlast, hrow, Option.bind_eq_bind, Option.bind_some, hidx]
      exact asInt_of_lt (by omega)
    rcases hbrackets.gt with hend | ⟨a, ha, hgt⟩
    · obtain ⟨a, ha⟩ := exists_get (A := A) (j := idx + 1) (by omega)
      exact ⟨_, a, hup, ha, .inl (by omega)⟩
    · exact ⟨_, a, hup, ha, .inr (hp.trans hgt)⟩

/-- The missed energies of a bin are those of its lower point. -/
theorem missed_iff (hA : A ∈ g.grids) {e uLow : Nat} {a : ℚ} (hbins : 0 < hashBins)
    (hbelow : binEnergy hashBins e ≤ p) (habove : p < binEnergy hashBins (e + 1))
    (hlow : Brackets A (binEnergy hashBins e) uLow) (ha : A[uLow]? = some a) :
    Missed hashBins A p ↔ 0 < uLow ∧ p ≤ a := by
  have hsorted := g.sorted A hA
  constructor
  · rintro ⟨⟨e', rfl⟩, i, hi, hilt, hget⟩
    have hpos : (0 : ℚ) < hashBins := by exact_mod_cast hbins
    rw [binEnergy, binEnergy, mul_one_div, mul_one_div, div_le_div_iff_of_pos_right hpos] at hbelow
    rw [binEnergy, binEnergy, mul_one_div, mul_one_div, div_lt_div_iff_of_pos_right hpos] at habove
    have hle : e ≤ e' := by exact_mod_cast hbelow
    have hlt : e' < e + 1 := by exact_mod_cast habove
    have heq : e' = e := by omega
    subst heq
    have hiu : i ≤ uLow := by
      by_contra hgt
      rcases hlow.gt with hend | ⟨b, hb, hpb⟩
      · omega
      · exact absurd (hpb.trans_le (getElem?_le hsorted (by omega) hb hget)) (lt_irrefl _)
    exact ⟨by omega, getElem?_le hsorted hiu hget ha⟩
  · rintro ⟨hpos, hpa⟩
    rcases hlow.le with hzero | ⟨b, hb, hbe⟩
    · omega
    · cases hb.symm.trans ha
      have heq : p = a := le_antisymm hpa (hbe.trans hbelow)
      subst heq
      exact ⟨⟨e, le_antisymm hbe hbelow⟩, uLow, hpos, hlow.lt, ha⟩

/-- The point that brackets the energy, when it is above the lower bound
or that is the first point. -/
theorem lowerPoint_spec (hA : A ∈ g.grids) (hn : g.nGridpoints < 2 ^ 31) {uLow uHigh : Nat}
    {a b : ℚ} (ha : A[uLow]? = some a) (hb : A[uHigh]? = some b)
    (hhigh : uHigh = g.nGridpoints - 1 ∨ p < b) (hlow : uLow = 0 ∨ a < p) :
    ∃ lower, g.lowerPoint A p uLow uHigh = some lower ∧ Brackets A p (g.lowOf lower) := by
  have hlen := g.length_eq A hA
  have htwo := g.two_le
  rw [lowerPoint, ha, Option.bind_eq_bind, Option.bind_some, hb, Option.bind_eq_bind,
    Option.bind_some]
  by_cases hpa : p ≤ a
  · obtain rfl : uLow = 0 := hlow.resolve_right (not_lt.mpr hpa)
    refine ⟨0, if_pos hpa, ?_⟩
    rw [lowOf, if_neg (by omega)]
    exact brackets_zero hA ha hpa
  · rw [if_neg hpa]
    by_cases hpb : p ≥ b
    · obtain rfl : uHigh = g.nGridpoints - 1 := hhigh.resolve_right (not_lt.mpr hpb)
      refine ⟨g.nGridpoints - 1, by rw [if_pos hpb, asInt_of_lt (by omega)], ?_⟩
      rw [lowOf, if_pos rfl]
      exact brackets_last hA hb hpb
    · rw [if_neg hpb]
      have hab : a < b := (not_le.mp hpa).trans (not_le.mp hpb)
      have hlt : uLow < uHigh := by
        by_contra hge
        exact absurd (hab.trans_le (getElem?_le (g.sorted A hA) (by omega) hb ha)) (lt_irrefl a)
      have hin := (List.getElem?_eq_some_iff.mp hb).1
      obtain ⟨j, hj, hle, hju, hbelow, habove⟩ := halve_spec (A := A) (x := p) g.nGridpoints uLow
        uHigh hlt hin (by omega)
      refine ⟨j, by rw [hj]; exact asInt_of_lt (by omega), ?_⟩
      rw [lowOf, if_neg (by omega)]
      refine ⟨by omega, .inr ?_, .inr ?_⟩
      · rcases hbelow with rfl | hbelow
        · exact ⟨a, ha, (not_le.mp hpa).le⟩
        · exact hbelow
      · rcases habove with hend | habove
        · exact ⟨b, hend ▸ hb, not_le.mp hpb⟩
        · exact habove

/-- What the hash path finds: the bracketing point, or the first one for
an energy that it misses. -/
theorem hashLow_spec {energyGrid : EnergyGrid} (h : IsHashTable g hashBins energyGrid)
    (hn : g.nGridpoints < 2 ^ 31) (hA : g.grids[nuc]? = some A) (hbins : 0 < hashBins)
    (h0 : 0 ≤ p) (h1 : p < 1) :
    (Missed hashBins A p → g.hashLow hashBins energyGrid (hashIdx hashBins p) p nuc = some 0)
      ∧ (¬ Missed hashBins A p → ∃ idx, Brackets A p idx
        ∧ g.hashLow hashBins energyGrid (hashIdx hashBins p) p nuc = some idx) := by
  have hmem := List.mem_of_getElem? hA
  have htwo := g.two_le
  obtain ⟨e, he, hidx, hbelow, habove⟩ := hashIdx_spec hbins h0 h1
  obtain ⟨row, uLow, hrow, hptr, hlow⟩ := h.ptr he hA
  obtain ⟨uHigh, b, hup, hb, hhigh⟩ := upperBound_spec h hn hA he habove
  obtain ⟨a, ha⟩ := exists_get (A := A) (j := uLow) (Nat.lt_of_succ_lt hlow.lt)
  have hmissed := missed_iff hmem hbins hbelow habove hlow ha
  have hstart : g.hashLow hashBins energyGrid (hashIdx hashBins p) p nuc
      = (g.lowerPoint A p uLow uHigh).map g.lowOf := by
    rw [hidx, hashLow, hA, Option.bind_eq_bind, Option.bind_some, hrow, Option.bind_eq_bind,
      Option.bind_some, hptr, Option.bind_eq_bind, Option.bind_some, hup, Option.bind_some]
    exact Option.map_eq_bind.symm
  rw [hstart]
  constructor
  · intro hmiss
    obtain ⟨-, hpa⟩ := hmissed.mp hmiss
    have hlower : g.lowerPoint A p uLow uHigh = some 0 := by
      rw [lowerPoint, ha, Option.bind_eq_bind, Option.bind_some, hb, Option.bind_eq_bind,
        Option.bind_some, if_pos hpa]
    rw [hlower, Option.map_some, lowOf, if_neg (by omega)]
  · intro hmiss
    have habove : uLow = 0 ∨ a < p := by
      by_contra hnot
      rw [not_or, not_lt] at hnot
      exact hmiss (hmissed.mpr ⟨Nat.pos_of_ne_zero hnot.1, hnot.2⟩)
    obtain ⟨lower, hlower, hbrackets⟩ := lowerPoint_spec hmem hn ha hb hhigh habove
    exact ⟨_, hbrackets, by rw [hlower, Option.map_some]⟩

-- ============================================================= the result

/-- A missed energy is not in the first interval. -/
theorem Missed.ne_zero {idx : Nat} (hA : A ∈ g.grids) (h : Missed hashBins A p)
    (hidx : Brackets A p idx) : idx ≠ 0 := by
  rintro rfl
  obtain ⟨-, i, hi, hilt, hget⟩ := h
  rcases hidx.gt with hend | ⟨b, hb, hpb⟩
  · omega
  · exact absurd (hpb.trans_le (getElem?_le (g.sorted A hA) (by omega) hb hget)) (lt_irrefl p)

/-- The hash path and the nuclide path find the same lower point, unless
the energy is that of an inner point of the nuclide's grid and the lower
end of a bin. -/
theorem hashLow_eq_nuclideLow_iff (g : NuclideGrids ℚ) (hn : g.nGridpoints < 2 ^ 31)
    (hashBins : Nat) (hbins : 0 < hashBins) (p : ℚ) (h0 : 0 ≤ p) (h1 : p < 1) (nuc : Nat)
    (A : List ℚ) (hA : g.grids[nuc]? = some A) :
    ∃ energyGrid hashed found, g.generateHashTable hashBins = some energyGrid
      ∧ g.hashLow hashBins energyGrid (hashIdx hashBins p) p nuc = some hashed
      ∧ g.nuclideLow p nuc = some found
      ∧ (hashed = found ↔ ¬ ((∃ e : Nat, p = binEnergy hashBins e)
          ∧ ∃ i, 0 < i ∧ i + 1 < g.nGridpoints ∧ A[i]? = some p)) := by
  have hmem := List.mem_of_getElem? hA
  have hlen := g.length_eq A hmem
  obtain ⟨energyGrid, htable, h⟩ := generateHashTable_spec hn hashBins
  obtain ⟨hmiss, hhit⟩ := hashLow_spec h hn hA hbins h0 h1
  obtain ⟨found, hfound, -, hlow⟩ := nuclideLow_spec hA p
  rw [← hlen]
  by_cases hm : Missed hashBins A p
  · refine ⟨energyGrid, 0, found, htable, hmiss hm, hlow, ?_⟩
    exact ⟨fun heq => absurd heq.symm (hm.ne_zero hmem hfound), fun hnot => absurd hm hnot⟩
  · obtain ⟨idx, hidx, hhashed⟩ := hhit hm
    refine ⟨energyGrid, idx, found, htable, hhashed, hlow, ?_⟩
    exact ⟨fun _ => hm, fun _ => hidx.unique (g.sorted A hmem) hfound⟩

/-- One nuclide with three energies. -/
def threePoints : NuclideGrids ℚ where
  nGridpoints := 3
  grids := [[1 / 4, 1 / 2, 3 / 4]]
  two_le := by decide
  length_eq A hA := by
    rw [List.mem_singleton.mp hA]
    rfl
  sorted A hA := by
    rw [List.mem_singleton.mp hA]
    norm_num
  smallest_ne A hA := by
    rw [List.mem_singleton.mp hA]
    norm_num

/-- A half is the lower end of the second of two bins. -/
theorem hashLow_eq_nuclideLow_iff_threePoints :
    ∃ energyGrid hashed found, threePoints.generateHashTable 2 = some energyGrid
      ∧ threePoints.hashLow 2 energyGrid (hashIdx 2 (1 / 2)) (1 / 2) 0 = some hashed
      ∧ threePoints.nuclideLow (1 / 2) 0 = some found
      ∧ (hashed = found ↔ ¬ ((∃ e : Nat, (1 / 2 : ℚ) = binEnergy 2 e)
          ∧ ∃ i, 0 < i ∧ i + 1 < 3 ∧ ([1 / 4, 1 / 2, 3 / 4] : List ℚ)[i]? = some (1 / 2))) :=
  hashLow_eq_nuclideLow_iff threePoints (by decide) 2 (by decide) (1 / 2) (by norm_num)
    (by norm_num) 0 _ rfl

end ThesisBench.XsBench.NuclideGrids
