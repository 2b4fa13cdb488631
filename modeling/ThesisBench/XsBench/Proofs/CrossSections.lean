/-
The three grids give the same cross sections.

The unionized grid and the nuclide grids find the same point for every
nuclide, and so does the hash grid for an energy that it does not miss.
So the sums over a material are the same (`macroXs_eq`), each summand
between the values of two neighbouring points (`microXs_between`). What
an event picks is in range: an energy from 0 to 1, one of the twelve
materials, and nuclides that there are.
-/
import ThesisBench.XsBench.Proofs.HashGrid

namespace ThesisBench.XsBench

open Bisection Slots NuclideGrids

variable {c : CrossSections} {p byZero : ℚ} {hashBins nuc : Nat} {energyGrid : EnergyGrid}
  {idx : Int} {gridType : GridType}

-- ========================================================= the same point

/-- The unionized grid is built when its size is an `int`. -/
theorem prepare_unionized {g : NuclideGrids ℚ} (hpos : 1 ≤ g.nIsotopes)
    (hsize : g.nIsotopes * g.nGridpoints < 2 ^ 31) (hashBins : Nat) :
    ∃ energyGrid, g.prepare hashBins .unionized = some energyGrid := by
  have hA : g.grids[0]? = some g.grids[0] := List.getElem?_eq_getElem hpos
  obtain ⟨low, -, hlow⟩ := unionizedLow_spec hA hsize 0
  rw [unionizedLow] at hlow
  obtain ⟨energies, henergies, hlow⟩ := Option.bind_eq_some_iff.mp hlow
  obtain ⟨xsPtrs, hptrs, -⟩ := Option.bind_eq_some_iff.mp hlow
  refine ⟨⟨energies, xsPtrs⟩, ?_⟩
  rw [prepare, henergies, Option.bind_eq_bind, Option.bind_some, hptrs]
  rfl

/-- The steps of the unionized path, one after the other. -/
theorem microLow_unionized {g : NuclideGrids ℚ} {A : List ℚ} (hA : g.grids[nuc]? = some A)
    (hsize : g.nIsotopes * g.nGridpoints < 2 ^ 31)
    (hprep : g.prepare hashBins .unionized = some energyGrid) :
    ∃ idx low, g.lookupIdx hashBins energyGrid p .unionized = some idx ∧ Brackets A p low
      ∧ g.microLow hashBins energyGrid idx p nuc .unionized = some low := by
  obtain ⟨low, hbrackets, hlow⟩ := unionizedLow_spec hA hsize p
  rw [prepare] at hprep
  obtain ⟨energies, henergies, hprep⟩ := Option.bind_eq_some_iff.mp hprep
  obtain ⟨xsPtrs, hptrs, hprep⟩ := Option.bind_eq_some_iff.mp hprep
  cases hprep
  rw [unionizedLow, henergies, Option.bind_eq_bind, Option.bind_some, hptrs, Option.bind_eq_bind,
    Option.bind_some] at hlow
  obtain ⟨e, he, hlow⟩ := Option.bind_eq_some_iff.mp hlow
  refine ⟨(e : Int), low, by rw [lookupIdx, he]; rfl, hbrackets, ?_⟩
  rw [microLow, Slots.read, if_pos (by omega), Int.toNat_natCast]
  exact hlow

/-- Every kind of grid leads to a point of every nuclide that another one
follows, and to the bracketing one unless the hash grid misses the
energy. -/
theorem lookup_spec {g : NuclideGrids ℚ} (hpos : 1 ≤ g.nIsotopes)
    (hsize : g.nIsotopes * g.nGridpoints < 2 ^ 31) (hbins : 0 < hashBins) (h0 : 0 ≤ p) (h1 : p < 1)
    (gridType : GridType) :
    ∃ energyGrid idx, g.prepare hashBins gridType = some energyGrid
      ∧ g.lookupIdx hashBins energyGrid p gridType = some idx
      ∧ ∀ nuc A, g.grids[nuc]? = some A → ∃ low, low + 1 < A.length
        ∧ g.microLow hashBins energyGrid idx p nuc gridType = some low
        ∧ ((gridType = .hash → ¬ Missed hashBins A p) → Brackets A p low) := by
  have htwo := g.two_le
  have hn : g.nGridpoints < 2 ^ 31 :=
    lt_of_le_of_lt (Nat.le_mul_of_pos_left _ hpos) hsize
  cases gridType with
  | unionized =>
      obtain ⟨energyGrid, hprep⟩ := prepare_unionized hpos hsize hashBins
      have hA : g.grids[0]? = some g.grids[0] := List.getElem?_eq_getElem hpos
      obtain ⟨idx, -, hidx, -⟩ := microLow_unionized (p := p) hA hsize hprep
      refine ⟨energyGrid, idx, hprep, hidx, fun nuc A hA => ?_⟩
      obtain ⟨idx', low, hidx', hbrackets, hlow⟩ := microLow_unionized (p := p) hA hsize hprep
      cases hidx.symm.trans hidx'
      exact ⟨low, hbrackets.lt, hlow, fun _ => hbrackets⟩
  | nuclide =>
      refine ⟨⟨[], []⟩, -1, rfl, rfl, fun nuc A hA => ?_⟩
      obtain ⟨low, hbrackets, -, hlow⟩ := nuclideLow_spec hA p
      exact ⟨low, hbrackets.lt, hlow, fun _ => hbrackets⟩
  | hash =>
      obtain ⟨energyGrid, hprep, htable⟩ := generateHashTable_spec hn hashBins
      refine ⟨energyGrid, hashIdx hashBins p, hprep, rfl, fun nuc A hA => ?_⟩
      obtain ⟨hmiss, hhit⟩ := hashLow_spec htable hn hA hbins h0 h1
      have hlen := g.length_eq A (List.mem_of_getElem? hA)
      by_cases hm : Missed hashBins A p
      · exact ⟨0, by omega, hmiss hm, fun hnot => absurd hm (hnot rfl)⟩
      · obtain ⟨low, hbrackets, hlow⟩ := hhit hm
        exact ⟨low, hbrackets.lt, hlow, fun _ => hbrackets⟩

-- ====================================================== the cross sections

/-- The energies of a nuclide's points are its grid. -/
theorem grid_of_points {P : List NuclideGridPoint} (hP : c.nuclideGrids[nuc]? = some P) :
    c.grids.grids[nuc]? = some (P.map NuclideGridPoint.energy) := by
  rw [c.grids_eq, List.getElem?_map, hP, Option.map_some]

theorem exists_points (hnuc : nuc < c.grids.nIsotopes) : ∃ P, c.nuclideGrids[nuc]? = some P := by
  rw [nIsotopes, c.grids_eq, List.length_map] at hnuc
  exact ⟨_, List.getElem?_eq_getElem hnuc⟩

/-- A nuclide's cross sections come from the two points the search finds. -/
theorem microXs_of_low {P : List NuclideGridPoint} {low : Nat}
    (hP : c.nuclideGrids[nuc]? = some P) (hlt : low + 1 < P.length)
    (hlow : c.grids.microLow hashBins energyGrid idx p nuc gridType = some low) :
    c.calculateMicroXs byZero hashBins gridType energyGrid p idx nuc
      = some (interpolate byZero p P[low] P[low + 1]) := by
  rw [CrossSections.calculateMicroXs, hlow, Option.bind_eq_bind, Option.bind_some, hP,
    Option.bind_eq_bind, Option.bind_some, List.getElem?_eq_getElem (Nat.lt_of_succ_lt hlt),
    Option.bind_eq_bind, Option.bind_some, List.getElem?_eq_getElem hlt]
  rfl

/-- A loop whose steps all go through. -/
theorem foldlM_total {σ β : Type} (step : σ → β → Option σ) (l : List β)
    (h : ∀ x ∈ l, ∀ st, ∃ st', step st x = some st') (st : σ) :
    ∃ st', l.foldlM step st = some st' := by
  induction l generalizing st with
  | nil => exact ⟨st, rfl⟩
  | cons x l ih =>
      obtain ⟨st₁, hst₁⟩ := h x List.mem_cons_self st
      obtain ⟨st₂, hst₂⟩ := ih (fun y hy => h y (List.mem_cons_of_mem _ hy)) st₁
      refine ⟨st₂, ?_⟩
      rw [List.foldlM_cons, hst₁]
      exact hst₂

/-- What an energy's lookup in a material gives, for each kind of grid. -/
theorem macroXs_exists (c : CrossSections) (hpos : 1 ≤ c.grids.nIsotopes)
    (hsize : c.grids.nIsotopes * c.grids.nGridpoints < 2 ^ 31) (hbins : 0 < hashBins)
    (byZero : ℚ) (h0 : 0 ≤ p) (h1 : p < 1) {mat : List (Nat × ℚ)}
    (hmat : ∀ x ∈ mat, x.1 < c.grids.nIsotopes) (gridType : GridType) :
    ∃ energyGrid xs, c.grids.prepare hashBins gridType = some energyGrid
      ∧ c.calculateMacroXs byZero hashBins gridType energyGrid p mat = some xs
      ∧ ((gridType = .hash → ∀ x ∈ mat, ∀ A, c.grids.grids[x.1]? = some A → ¬ Missed hashBins A p) →
        c.calculateMacroXs byZero hashBins .nuclide ⟨[], []⟩ p mat = some xs) := by
  obtain ⟨energyGrid, idx, hprep, hidx, hlows⟩ :=
    lookup_spec hpos hsize hbins h0 h1 gridType
  have hmicro : ∀ pNuc conc, (pNuc, conc) ∈ mat → ∃ xs,
      c.calculateMicroXs byZero hashBins gridType energyGrid p idx pNuc = some xs
        ∧ ((gridType = .hash → ∀ A, c.grids.grids[pNuc]? = some A → ¬ Missed hashBins A p) →
          c.calculateMicroXs byZero hashBins .nuclide ⟨[], []⟩ p (-1) pNuc = some xs) := by
    intro pNuc conc hx
    obtain ⟨P, hP⟩ := exists_points (hmat (pNuc, conc) hx)
    have hA := grid_of_points hP
    obtain ⟨low, hlt, hlow, hbrackets⟩ := hlows pNuc _ hA
    rw [List.length_map] at hlt
    refine ⟨_, microXs_of_low hP hlt hlow, fun hmiss => ?_⟩
    obtain ⟨low', hbrackets', -, hlow'⟩ := nuclideLow_spec hA p
    have hsame := (hbrackets fun hhash => hmiss hhash _ hA).unique
      (c.grids.sorted _ (List.mem_of_getElem? hA)) hbrackets'
    subst hsame
    exact microXs_of_low hP hlt hlow'
  obtain ⟨xs, hxs⟩ := foldlM_total (fun macroXs (e : Nat × ℚ) => do
      let xs ← c.calculateMicroXs byZero hashBins gridType energyGrid p idx e.1
      pure (List.zipWith (fun m x => m + x * e.2) macroXs xs)) mat
    (fun e he st => by
      obtain ⟨ys, hys, -⟩ := hmicro e.1 e.2 he
      rw [hys]
      exact ⟨_, rfl⟩) (List.replicate 5 0)
  refine ⟨energyGrid, xs, hprep, ?_, fun hmiss => ?_⟩
  · rw [CrossSections.calculateMacroXs, hidx]
    exact hxs
  · rw [CrossSections.calculateMacroXs, ← hxs]
    refine foldlM_congr_mem (fun x hx st => ?_) _
    obtain ⟨pNuc, conc⟩ := x
    obtain ⟨ys, hys, hsame⟩ := hmicro pNuc conc hx
    dsimp only
    rw [hys, hsame fun hhash => hmiss hhash (pNuc, conc) hx]

-- ===================================================== the interpolation

/-- A point of a segment is between its ends, and at its start when the
factor is one. -/
theorem between_of_factor {f h l : ℚ} (h0 : 0 ≤ f) (h1 : f ≤ 1) :
    min l h ≤ h - f * (h - l) ∧ h - f * (h - l) ≤ max l h := by
  have hsplit : h - f * (h - l) = (1 - f) * h + f * l := by ring
  have hcomp : 0 ≤ 1 - f := sub_nonneg.mpr h1
  have hone : ∀ x : ℚ, (1 - f) * x + f * x = x := fun x => by ring
  rw [hsplit]
  constructor
  · rw [← hone (min l h)]
    exact add_le_add (mul_le_mul_of_nonneg_left (min_le_right l h) hcomp)
      (mul_le_mul_of_nonneg_left (min_le_left l h) h0)
  · rw [← hone (max l h)]
    exact add_le_add (mul_le_mul_of_nonneg_left (le_max_right l h) hcomp)
      (mul_le_mul_of_nonneg_left (le_max_left l h) h0)

/-- The factor of the lower point is between 0 and 1, and 1 at that point. -/
theorem factor_spec {low high : NuclideGridPoint} (hlow : low.energy ≤ p)
    (hhigh : p < high.energy) (byZero : ℚ) :
    0 ≤ factor byZero p low high ∧ factor byZero p low high ≤ 1
      ∧ (p = low.energy → factor byZero p low high = 1) := by
  have hpos : 0 < high.energy - low.energy := sub_pos.mpr (hlow.trans_lt hhigh)
  rw [factor, if_neg hpos.ne']
  refine ⟨div_nonneg (sub_nonneg.mpr hhigh.le) hpos.le, ?_, ?_⟩
  · rw [div_le_one hpos]
    exact sub_le_sub_left hlow _
  · rintro rfl
    exact div_self hpos.ne'

/-- Each cross section is interpolated on its own. -/
theorem interpolate_get {low high : NuclideGridPoint} (byZero p : ℚ) {k : Nat} {x l h : ℚ}
    (hx : (interpolate byZero p low high)[k]? = some x) (hl : low.xs[k]? = some l)
    (hh : high.xs[k]? = some h) : x = h - factor byZero p low high * (h - l) := by
  rw [interpolate, List.getElem?_zipWith, hh, hl] at hx
  exact (Option.some.inj hx).symm

-- ============================================================ the results

/-- An energy inside a nuclide's grid is looked up between two
neighbouring points, each of the five values is between theirs, and it is
the lower point's at that point's energy. -/
theorem microXs_between (c : CrossSections)
    (hsize : c.grids.nIsotopes * c.grids.nGridpoints < 2 ^ 31)
    (hashBins : Nat) (hbins : 0 < hashBins) (byZero p : ℚ) (h0 : 0 ≤ p) (h1 : p < 1) (nuc : Nat)
    (P : List NuclideGridPoint) (hP : c.nuclideGrids[nuc]? = some P) (first last : NuclideGridPoint)
    (hfirst : P[0]? = some first) (hlast : P[c.grids.nGridpoints - 1]? = some last)
    (hle : first.energy ≤ p) (hlt : p < last.energy) (gridType : GridType)
    (hhash : gridType = .hash → ¬ Missed hashBins (P.map NuclideGridPoint.energy) p) :
    ∃ energyGrid idx low high xs, c.grids.prepare hashBins gridType = some energyGrid
      ∧ c.grids.lookupIdx hashBins energyGrid p gridType = some idx
      ∧ [low, high] <:+: P ∧ low.energy ≤ p ∧ p < high.energy
      ∧ c.calculateMicroXs byZero hashBins gridType energyGrid p idx nuc = some xs
      ∧ xs.length = 5
      ∧ ∀ (k : Nat) (x l h : ℚ), xs[k]? = some x → low.xs[k]? = some l → high.xs[k]? = some h →
        min l h ≤ x ∧ x ≤ max l h ∧ (p = low.energy → x = l) := by
  have hA := grid_of_points hP
  have hpos : 1 ≤ c.grids.nIsotopes := List.length_pos_of_mem (List.mem_of_getElem? hA)
  have hlen := c.grids.length_eq _ (List.mem_of_getElem? hA)
  rw [List.length_map] at hlen
  obtain ⟨energyGrid, idx, hprep, hidx, hlows⟩ := lookup_spec hpos hsize hbins h0 h1 gridType
  obtain ⟨i, hi, hlow, hbrackets⟩ := hlows nuc _ hA
  have hbrackets := hbrackets hhash
  rw [List.length_map] at hi
  have henergy : ∀ (j : Nat) (hj : j < P.length) (e : ℚ),
      (P.map NuclideGridPoint.energy)[j]? = some e → P[j].energy = e := by
    intro j hj e he
    rw [List.getElem?_map, List.getElem?_eq_getElem hj] at he
    exact Option.some.inj he
  have hbelow : P[i].energy ≤ p := by
    rcases hbrackets.le with rfl | ⟨e, he, hep⟩
    · rw [List.getElem?_eq_getElem (by omega), Option.some.injEq] at hfirst
      rwa [hfirst]
    · rwa [henergy i (by omega) e he]
  have habove : p < P[i + 1].energy := by
    rcases hbrackets.gt with hend | ⟨e, he, hpe⟩
    · rw [List.length_map] at hend
      have hi1 : c.grids.nGridpoints - 1 = i + 1 := by omega
      rw [hi1, List.getElem?_eq_getElem hi, Option.some.injEq] at hlast
      rwa [hlast]
    · rwa [henergy (i + 1) hi e he]
  obtain ⟨hf0, hf1, hfone⟩ := factor_spec hbelow habove byZero
  refine ⟨energyGrid, idx, P[i], P[i + 1], _, hprep, hidx, ?_, hbelow, habove,
    microXs_of_low hP hi hlow, rfl, fun k x l h hx hl hh => ?_⟩
  · refine ⟨P.take i, P.drop (i + 2), ?_⟩
    have hdrop : P.drop i = P[i] :: P[i + 1] :: P.drop (i + 2) := by
      rw [List.drop_eq_getElem_cons (Nat.lt_of_succ_lt hi), List.drop_eq_getElem_cons hi]
    rw [List.append_assoc]
    exact (congrArg (P.take i ++ ·) hdrop.symm).trans (List.take_append_drop i P)
  · rw [interpolate_get byZero p hx hl hh]
    obtain ⟨hmin, hmax⟩ := between_of_factor (h := h) (l := l) hf0 hf1
    refine ⟨hmin, hmax, fun heq => ?_⟩
    rw [hfone heq]
    ring

/-- The cross sections of a material are the same with the unionized grid
as with the nuclide grids, and with the hash grid unless it misses the
energy. -/
theorem macroXs_eq (c : CrossSections) (hpos : 1 ≤ c.grids.nIsotopes)
    (hsize : c.grids.nIsotopes * c.grids.nGridpoints < 2 ^ 31) (hashBins : Nat)
    (hbins : 0 < hashBins) (byZero p : ℚ) (h0 : 0 ≤ p) (h1 : p < 1) (mat : List (Nat × ℚ))
    (hmat : ∀ x ∈ mat, x.1 < c.grids.nIsotopes) :
    ∃ unionized hash xs hashed, c.grids.prepare hashBins .unionized = some unionized
      ∧ c.grids.prepare hashBins .hash = some hash
      ∧ c.calculateMacroXs byZero hashBins .nuclide ⟨[], []⟩ p mat = some xs
      ∧ c.calculateMacroXs byZero hashBins .unionized unionized p mat = some xs
      ∧ c.calculateMacroXs byZero hashBins .hash hash p mat = some hashed
      ∧ ((∀ x ∈ mat, ∀ A, c.grids.grids[x.1]? = some A → ¬ ((∃ e : Nat, p = binEnergy hashBins e)
          ∧ ∃ i, 0 < i ∧ i + 1 < A.length ∧ A[i]? = some p)) → hashed = xs) := by
  obtain ⟨unionized, xs, hprep, hxs, hsame⟩ :=
    macroXs_exists c hpos hsize hbins byZero h0 h1 hmat .unionized
  obtain ⟨hash, hashed, hprep', hhashed, hsame'⟩ :=
    macroXs_exists c hpos hsize hbins byZero h0 h1 hmat .hash
  have hnuclide := hsame fun h => GridType.noConfusion h
  refine ⟨unionized, hash, xs, hashed, hprep, hprep', hnuclide, hxs, hhashed, fun hmiss => ?_⟩
  exact Option.some.inj ((hsame' fun _ => hmiss).symm.trans hnuclide)

/-- Three energies, with the same five values at each. -/
def threeEnergies : List NuclideGridPoint :=
  [⟨1 / 4, 1, 1, 1, 1, 1⟩, ⟨1 / 2, 2, 2, 2, 2, 2⟩, ⟨3 / 4, 4, 4, 4, 4, 4⟩]

theorem two_le_length_threeEnergies : 2 ≤ threeEnergies.length := by decide

/-- So many nuclides with these. -/
def sameNuclides (n : Nat) : CrossSections where
  grids :=
    { nGridpoints := 3
      grids := List.replicate n [1 / 4, 1 / 2, 3 / 4]
      two_le := two_le_length_threeEnergies
      length_eq A hA := by
        rw [List.eq_of_mem_replicate hA]
        rfl
      sorted A hA := by
        rw [List.eq_of_mem_replicate hA]
        norm_num
      smallest_ne A hA := by
        rw [List.eq_of_mem_replicate hA]
        norm_num }
  nuclideGrids := List.replicate n threeEnergies
  grids_eq := by
    rw [List.map_replicate]
    rfl

/-- The example has as many nuclides as it was given. -/
theorem nIsotopes_sameNuclides (n : Nat) : (sameNuclides n).grids.nIsotopes = n :=
  List.length_replicate

/-- The hash grid does not miss the energy 1/3. -/
theorem missed_sameNuclides : ¬ Missed 2 (threeEnergies.map NuclideGridPoint.energy) (1 / 3) := by
  rintro ⟨-, i, -, -, hget⟩
  match i with
  | 0 => norm_num [threeEnergies] at hget
  | 1 => norm_num [threeEnergies] at hget
  | 2 => norm_num [threeEnergies] at hget
  | i + 3 => cases hget

/-- One nuclide, searched through the hash grid. -/
theorem microXs_between_sameNuclides :
    ∃ energyGrid idx low high xs, (sameNuclides 1).grids.prepare 2 .hash = some energyGrid
      ∧ (sameNuclides 1).grids.lookupIdx 2 energyGrid (1 / 3) .hash = some idx
      ∧ [low, high] <:+: threeEnergies ∧ low.energy ≤ 1 / 3 ∧ 1 / 3 < high.energy
      ∧ (sameNuclides 1).calculateMicroXs 0 2 .hash energyGrid (1 / 3) idx 0 = some xs
      ∧ xs.length = 5
      ∧ ∀ (k : Nat) (x l h : ℚ), xs[k]? = some x → low.xs[k]? = some l → high.xs[k]? = some h →
        min l h ≤ x ∧ x ≤ max l h ∧ (1 / 3 = low.energy → x = l) :=
  microXs_between (sameNuclides 1) (by decide) 2 (by decide) 0 (1 / 3) (by norm_num)
    (by norm_num) 0 threeEnergies rfl ⟨1 / 4, 1, 1, 1, 1, 1⟩ ⟨3 / 4, 4, 4, 4, 4, 4⟩ rfl rfl
    (by norm_num) (by norm_num) .hash fun _ => missed_sameNuclides

/-- One nuclide, on all three paths. -/
theorem macroXs_eq_sameNuclides :
    ∃ unionized hash xs hashed, (sameNuclides 1).grids.prepare 2 .unionized = some unionized
      ∧ (sameNuclides 1).grids.prepare 2 .hash = some hash
      ∧ (sameNuclides 1).calculateMacroXs 0 2 .nuclide ⟨[], []⟩ (1 / 3) [(0, 1)] = some xs
      ∧ (sameNuclides 1).calculateMacroXs 0 2 .unionized unionized (1 / 3) [(0, 1)] = some xs
      ∧ (sameNuclides 1).calculateMacroXs 0 2 .hash hash (1 / 3) [(0, 1)] = some hashed
      ∧ ((∀ x ∈ [((0 : Nat), (1 : ℚ))], ∀ A, (sameNuclides 1).grids.grids[x.1]? = some A →
          ¬ ((∃ e : Nat, (1 / 3 : ℚ) = binEnergy 2 e)
            ∧ ∃ i, 0 < i ∧ i + 1 < A.length ∧ A[i]? = some (1 / 3))) → hashed = xs) :=
  macroXs_eq (sameNuclides 1) (by decide) (by decide) 2 (by decide) 0 (1 / 3) (by norm_num)
    (by norm_num) [(0, 1)] (by decide)

-- ============================================================= the events

theorem rn_spec (seed : Nat) : 0 ≤ (rn seed).1 ∧ (rn seed).1 < 1 := by
  have hlt : 16807 * seed % 2 ^ 64 % 2147483647 < 2147483647 := Nat.mod_lt _ (by decide)
  have hcast : ((16807 * seed % 2 ^ 64 % 2147483647 : Nat) : ℚ) < 2147483647 := by
    exact_mod_cast hlt
  rw [rn]
  exact ⟨div_nonneg (Nat.cast_nonneg _) (by norm_num), (div_lt_one (by norm_num)).mpr hcast⟩

theorem pickMat_lt (seed : Nat) : (pickMat seed).1 < 12 := by
  rw [pickMat]
  cases hfind : (List.range 12).find? fun i => (rn seed).1 < running i with
  | none => simp only [hfind, Option.getD_none, Nat.zero_lt_succ]
  | some i =>
      simp only [hfind, Option.getD_some]
      exact List.mem_range.mp (List.mem_of_find?_eq_some hfind)

/-- Whole lists are copied. -/
theorem mapM_copyIds (l : List (List Nat)) :
    (l.zip (l.map List.length)).mapM (fun (mats, n) => copyIds mats n) = some l := by
  induction l with
  | nil => rfl
  | cons mats l ih =>
      have hcopy : copyIds mats mats.length = some mats := by
        rw [copyIds, if_pos (Nat.le_refl _), List.take_length]
      rw [List.map_cons, List.zip_cons_cons, List.mapM_cons, ih]
      dsimp only
      rw [hcopy]
      rfl

/-- The fuel of the large problem has 321 nuclides. -/
theorem length_mats0Lrg : mats0Lrg.length = 321 := by
  rw [mats0Lrg, List.length_append, List.length_map, List.length_range]
  rfl

theorem mem_mats0Lrg_lt {nuc : Nat} (h : nuc ∈ mats0Lrg) : nuc < 355 := by
  have hsmall : ∀ nuc ∈ mats0Sml, nuc < 355 := by decide
  rcases List.mem_append.mp h with h | h
  · exact hsmall nuc h
  · obtain ⟨i, hi, rfl⟩ := List.mem_map.mp h
    have := List.mem_range.mp hi
    omega

/-- Both reactors' materials, whose nuclides there are. -/
theorem loadMats_spec {n : Nat} (hn : n = 68 ∨ 355 ≤ n) :
    ∃ mats, loadMats n = some mats ∧ mats.length = 12 ∧ ∀ nucs ∈ mats, ∀ nuc ∈ nucs, nuc < n := by
  have hrest : ∀ nucs ∈ matsRest, ∀ nuc ∈ nucs, nuc < 68 := by decide
  rcases hn with rfl | hn
  · refine ⟨mats0Sml :: matsRest, mapM_copyIds (mats0Sml :: matsRest), by decide, ?_⟩
    exact List.forall_mem_cons.mpr ⟨by decide, hrest⟩
  · have hne : n ≠ 68 := by omega
    have hnums : loadNumNucs n = (mats0Lrg :: matsRest).map List.length := by
      rw [loadNumNucs, if_neg hne, List.map_cons, length_mats0Lrg]
      rfl
    refine ⟨mats0Lrg :: matsRest, ?_, by rw [List.length_cons]; rfl, ?_⟩
    · rw [loadMats, if_neg hne, hnums]
      exact mapM_copyIds (mats0Lrg :: matsRest)
    · refine List.forall_mem_cons.mpr ⟨fun nuc hnuc => ?_, fun nucs hnucs nuc hnuc => ?_⟩
      · exact (mem_mats0Lrg_lt hnuc).trans_le hn
      · have := hrest nucs hnucs nuc hnuc
        omega

/-- For the small and the large reactor, every event samples an energy
from 0 to 1 and a material that there is, and every kind of grid gives
its cross sections, the unionized grid the same as the nuclide grids. -/
theorem event_total (c : CrossSections) (hiso : c.grids.nIsotopes = 68 ∨ 355 ≤ c.grids.nIsotopes)
    (hsize : c.grids.nIsotopes * c.grids.nGridpoints < 2 ^ 31) (hashBins : Nat)
    (hbins : 0 < hashBins) (byZero : ℚ) (concs : Nat → Nat → ℚ) (i : Nat) :
    (0 ≤ (sample i).1 ∧ (sample i).1 < 1) ∧ (sample i).2 < 12
      ∧ ∃ xs hashed, c.event byZero concs hashBins .nuclide i = some xs
        ∧ c.event byZero concs hashBins .unionized i = some xs
        ∧ c.event byZero concs hashBins .hash i = some hashed := by
  have hp : 0 ≤ (sample i).1 ∧ (sample i).1 < 1 := rn_spec _
  have hmat : (sample i).2 < 12 := pickMat_lt _
  refine ⟨hp, hmat, ?_⟩
  obtain ⟨mats, hmats, hlen, hbound⟩ := loadMats_spec hiso
  have hget : mats[(sample i).2]? = some mats[(sample i).2] :=
    List.getElem?_eq_getElem (hlen ▸ hmat)
  have hnucs : ∀ x ∈ mats[(sample i).2].mapIdx fun j nuc => (nuc, concs (sample i).2 j),
      x.1 < c.grids.nIsotopes := by
    intro x hx
    obtain ⟨j, hj, rfl⟩ := List.mem_mapIdx.mp hx
    exact hbound _ (List.getElem_mem _) _ (List.getElem_mem hj)
  have hevent : ∀ {gridType : GridType} {energyGrid : EnergyGrid} {xs : List ℚ},
      c.grids.prepare hashBins gridType = some energyGrid →
      c.calculateMacroXs byZero hashBins gridType energyGrid (sample i).1
        (mats[(sample i).2].mapIdx fun j nuc => (nuc, concs (sample i).2 j)) = some xs →
      c.event byZero concs hashBins gridType i = some xs := by
    intro gridType energyGrid xs hprep hxs
    rw [CrossSections.event, hprep, Option.bind_eq_bind, Option.bind_some, hmats,
      Option.bind_eq_bind, Option.bind_some]
    dsimp only
    rw [hget]
    exact hxs
  have hpos : 1 ≤ c.grids.nIsotopes := by omega
  obtain ⟨unionized, xs, hprep, hxs, hsame⟩ :=
    macroXs_exists c hpos hsize hbins byZero hp.1 hp.2 hnucs .unionized
  obtain ⟨hash, hashed, hprep', hhashed, -⟩ :=
    macroXs_exists c hpos hsize hbins byZero hp.1 hp.2 hnucs .hash
  exact ⟨xs, hashed, hevent rfl (hsame fun h => GridType.noConfusion h), hevent hprep hxs,
    hevent hprep' hhashed⟩

theorem event_total_sameNuclides :
    (0 ≤ (sample 0).1 ∧ (sample 0).1 < 1) ∧ (sample 0).2 < 12
      ∧ ∃ xs hashed, (sameNuclides 68).event 0 (fun _ _ => 1) 2 .nuclide 0 = some xs
        ∧ (sameNuclides 68).event 0 (fun _ _ => 1) 2 .unionized 0 = some xs
        ∧ (sameNuclides 68).event 0 (fun _ _ => 1) 2 .hash 0 = some hashed :=
  event_total (sameNuclides 68) (.inl (nIsotopes_sameNuclides 68))
    (by rw [nIsotopes_sameNuclides]; decide) 2 (by decide) 0 (fun _ _ => 1) 0

end ThesisBench.XsBench
