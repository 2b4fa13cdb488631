/-
`DeltaStep` finds the shortest distances, for any `delta`, any team of
threads and any order of their steps.

At the test of the loop no edge from below the current bin lowers a
label (`Head`). What the first region leaves to do is in the bins, the
votes have found the first of them that holds anything, and the second
region makes it the frontier (`Voted.head`). A turn takes at least one
vertex off the frontier, and every entry it adds to a bin is paid for by
a label that has become smaller.

`frontier` has room for as many vertices as there are edges. With bins of
width 1 that is enough (`Once.load_le`), since a vertex is in a bin only
once. Wider bins can hold a vertex more than once.
-/
import ThesisBench.Gapbs.Proofs.SsspTurn

namespace ThesisBench.Gapbs.Sssp

open Parallel Relax

variable {g : CSRGraph NodeWeight} {delta : Int} {source numThreads : Nat} {m m' m₀ : Memory}

-- ========================================================= between turns

theorem label_congr (h : m'.dist = m.dist) (v : Nat) : m'.label v = m.label v := by
  rw [Memory.label, Memory.label, h]

/-- After the copies the next bin is empty and the others are as they were. -/
theorem Gathered.bin_eq {capacity : Int} (h : Gathered g capacity m m') (t b : Nat) :
    m'.bin t b = if b = m.nextBinIndex then [] else m.bin t b := by
  split
  case isTrue hb =>
    rw [hb]
    exact h.empty t
  case isFalse hb => exact h.gathering.bin t b hb

/-- What lies below the bin that was voted for is final. -/
theorem Voted.low (h : Voted g delta source m₀ m) (hdelta : 0 < delta) {u : Nat}
    (hu : u < g.numNodes) {wn : NodeWeight} (hwn : wn ∈ g.outs u)
    (hlt : m.label u < delta * m.nextBinIndex) : m.Relaxes u wn := by
  have hnonneg := h.tidy.nonneg u hu
  rcases h.cover u hu wn hwn with hrel | ⟨t, ht⟩
  · exact hrel
  · by_cases hcurr : m.currBinIndex ≤ destBin delta (m.label u)
    · -- then its bin would have been voted for
      have hnext := h.votes t _ hcurr (List.ne_nil_of_mem ht)
      have hmul : delta * m.nextBinIndex ≤ delta * destBin delta (m.label u) :=
        Int.mul_le_mul_of_nonneg_left (Int.ofNat_le.mpr hnext) hdelta.le
      have hdest := mul_destBin_le hdelta hnonneg
      omega
    · refine h.tidy.low u hu wn hwn ((lt_mul_destBin hdelta hnonneg).trans_le ?_)
      exact Int.mul_le_mul_of_nonneg_left (by omega) hdelta.le

/-- After the second region the loop can be tested again. -/
theorem Voted.head (h : Voted g delta source m₀ m) (hdelta : 0 < delta)
    (hteam : 0 < m.localBins.length) {capacity : Int} (hm : Gathered g capacity m m') :
    Head g delta source m'.swapHalves := by
  have hlabel : ∀ v, m'.swapHalves.label v = m.label v := label_congr hm.gathering.dist
  have hbin : ∀ t b, m'.swapHalves.bin t b = if b = m.nextBinIndex then [] else m.bin t b :=
    hm.bin_eq
  have hsub : ∀ {t b v : Nat}, v ∈ m'.swapHalves.bin t b → v ∈ m.bin t b := by
    intro t b v hv
    rw [hbin] at hv
    split at hv
    case isTrue => cases hv
    case isFalse => exact hv
  have hcurr : m'.swapHalves.currBinIndex = m.nextBinIndex := hm.gathering.nextBinIndex
  have hrelaxes : ∀ {u wn}, m.Relaxes u wn → m'.swapHalves.Relaxes u wn := by
    intro u wn hrel
    unfold Memory.Relaxes
    rw [hlabel, hlabel]
    exact hrel
  refine { tidy := ?_, frontier := fun i hi => ?_, empty := fun t => ?_, cover := ?_,
           nextBinIndex := hm.currBinIndex, nextFrontierTail := hm.currFrontierTail,
           team := hm.gathering.team ▸ hteam, awake := fun hne => ?_ }
  · refine ⟨?_, fun v hv => ?_, fun v hv => ?_, ?_, fun t b v hv => h.tidy.entry t b v (hsub hv),
      fun u hu wn hwn hlt => ?_, fun hd => { hm.gathering.once (h.tidy.once hd) with }⟩
    · exact (congrArg List.length hm.gathering.dist).trans h.tidy.length
    · rw [hlabel]
      exact h.tidy.sound v hv
    · rw [hlabel]
      exact h.tidy.nonneg v hv
    · rw [hlabel]
      exact h.tidy.start
    · rw [hlabel, Memory.floor, hcurr] at hlt
      exact hrelaxes (h.low hdelta hu hwn hlt)
  · obtain ⟨t, u, hu, hfr⟩ := hm.gathering.frontier i hi
    exact ⟨u, (h.tidy.entry t _ u hu).1, hfr⟩
  · rw [hbin, hcurr, if_pos rfl]
  · intro u hu wn hwn
    rcases h.cover u hu wn hwn with hrel | ⟨t, ht⟩
    · exact .inl (hrelaxes hrel)
    · by_cases hdest : destBin delta (m.label u) = m.nextBinIndex
      · rw [hdest] at ht
        exact .inr (.inr (hm.copied t u ht))
      · refine .inr (.inl ⟨t, ?_⟩)
        rw [hlabel, hbin, if_neg hdest]
        exact ht
  · rw [hcurr] at hne
    obtain ⟨t, ht⟩ := h.chosen.resolve_left hne
    obtain ⟨u, hu⟩ := List.exists_mem_of_ne_nil _ ht
    obtain ⟨i, hi, -⟩ := hm.copied t u hu
    refine ⟨?_, Nat.zero_lt_of_lt hi⟩
    rw [Memory.floor, hcurr]
    exact (h.tidy.entry t _ u hu).2

-- ============================================================= the room

/-- `frontier` can hold the source, and a vertex for every edge. -/
def Roomy (g : CSRGraph NodeWeight) : Prop :=
  1 ≤ g.numEdgesDirected ∧ (((List.range g.numNodes).flatMap g.outs).length : Int)
    ≤ g.numEdgesDirected

/-- With bins of width 1 no more is in a bin than there are edges. -/
theorem Once.load_le (h : Once g m) (b : Nat) :
    m.load b ≤ ((List.range g.numNodes).flatMap g.outs).length := by
  have hsub : ((List.range m.localBins.length).flatMap fun t => m.bin t b)
      ⊆ ((List.range g.numNodes).flatMap g.outs).map (·.v) := by
    intro v hv
    obtain ⟨t, -, hv⟩ := List.mem_flatMap.mp hv
    obtain ⟨u, hu, wn, hwn, rfl⟩ := h.target t b v hv
    exact List.mem_map_of_mem (List.mem_flatMap.mpr ⟨u, List.mem_range.mpr hu, hwn⟩)
  have hle := (List.subperm_of_subset (h.nodup b) hsub).length_le
  rw [List.length_map] at hle
  exact hle

/-- With bins of one distance the frontier has room. -/
theorem Voted.room (h : Voted g delta source m₀ m) (hd : delta = 1) (hg : Roomy g)
    (hover : m₀.overrun = false) (hm : Gathered g g.numEdgesDirected m m') :
    m'.overrun = false := by
  have hload := (h.tidy.once hd).load_le m.nextBinIndex
  have htail := hm.gathering.load
  have hroom := hg.2
  refine Bool.eq_false_iff.mpr fun htrue => ?_
  rcases hm.gathering.overrun htrue with hbefore | hgt
  · rw [h.frame.overrun, hover] at hbefore
    cases hbefore
  · omega

-- ============================================================== the loop

/-- What a turn makes smaller. -/
def Memory.left (m : Memory) : Nat := m.potential + m.entries + m.currFrontierTail

theorem Voted.left_lt (h : Voted g delta source m₀ m) (hawake : 0 < m₀.currFrontierTail)
    {capacity : Int} (hm : Gathered g capacity m m') : m'.swapHalves.left < m₀.left := by
  have hbudget := h.budget
  have hent := hm.gathering.entries
  have hpot : m'.swapHalves.potential = m.potential := by
    show (m'.dist.map Int.toNat).sum = _
    rw [hm.gathering.dist]
    rfl
  have hentries : m'.swapHalves.entries = m'.entries := rfl
  have htail : m'.swapHalves.currFrontierTail = m'.nextFrontierTail := rfl
  unfold Memory.left
  omega

/-- A turn goes from a test of the loop to the next, with less to do, and
bins of width 1 do not overrun the frontier. -/
theorem turn_total (h : Head g delta source m) (hg : Weighted g) (hdelta : 0 < delta)
    (hne : m.currBinIndex ≠ kMaxBin) :
    Total (turn g delta) m fun m' => Head g delta source m' ∧ m'.left < m.left
      ∧ (delta = 1 → Roomy g → m.overrun = false → m'.overrun = false) := by
  obtain ⟨hfloor, htail⟩ := h.awake hne
  refine (relaxRegion_total h hg hdelta hfloor).seq fun m₁ h₁ => ?_
  have hzero : m₁.nextFrontierTail = 0 := h₁.frame.nextFrontierTail.trans h.nextFrontierTail
  refine (gatherRegion_total hzero).seq fun m₂ h₂ => ?_
  refine total_act ⟨_, rfl⟩ ?_
  intro m₃ hm₃
  subst hm₃
  have hover : delta = 1 → Roomy g → m.overrun = false → m₂.overrun = false :=
    fun hd hroom hover => h₁.room hd hroom hover h₂
  exact ⟨h₁.head hdelta (h₁.frame.localBins ▸ h.team) h₂, h₁.left_lt htail h₂, hover⟩

/-- The label of a vertex before a search. -/
theorem initial_label (hs : source < g.numNodes) {v : Nat} (hv : v < g.numNodes) :
    ((List.replicate g.numNodes kDistInf).set source 0).getD v 0
      = if v = source then 0 else kDistInf := by
  have hlen : source < (List.replicate g.numNodes kDistInf).length := by
    rw [List.length_replicate]
    exact hs
  rw [Slots.getD_set hlen]
  split
  case isTrue => rfl
  case isFalse =>
    rw [List.getD_eq_getElem?_getD, List.getElem?_replicate, if_pos hv]
    rfl

theorem bin_start (t b : Nat) : (start g source numThreads).bin t b = [] := by
  show ((List.replicate numThreads []).getD t []).getD b [] = []
  have hnil : (List.replicate numThreads ([] : List (List Nat))).getD t [] = [] := by
    rw [List.getD_eq_getElem?_getD, List.getElem?_replicate]
    split <;> rfl
  rw [hnil]
  rfl

/-- The loop begins with the source in the frontier. -/
theorem start_head (hg : Weighted g) (hs : source < g.numNodes) (hthreads : 0 < numThreads) :
    Head g delta source (start g source numThreads) := by
  have hinf : (0 : Int) < kDistInf := by decide
  have hlabel : ∀ {v}, v < g.numNodes → (start g source numThreads).label v
      = if v = source then 0 else kDistInf := initial_label hs
  have hfloor : (start g source numThreads).floor delta = 0 := Int.mul_zero delta
  have hnonneg : ∀ v < g.numNodes, 0 ≤ (start g source numThreads).label v := by
    intro v hv
    rw [hlabel hv]
    split
    case isTrue => exact Int.le_refl 0
    case isFalse => exact hinf.le
  have hentry : ∀ {P : Prop} {t b v : Nat}, v ∈ (start g source numThreads).bin t b → P := by
    intro P t b v hv
    rw [bin_start] at hv
    cases hv
  refine { tidy := ?_, frontier := fun i hi => ?_, empty := fun t => bin_start t 0, cover := ?_,
           nextBinIndex := rfl, nextFrontierTail := rfl, team := ?_, awake := fun _ => ?_ }
  · refine ⟨?_, fun v hv => ?_, hnonneg, ?_, fun _ _ _ hv => hentry hv,
      fun u hu _ _ hlt => ?_, fun _ => ⟨fun b => ?_, fun _ _ _ hv => hentry hv,
      fun _ _ _ hv => hentry hv⟩⟩
    · exact List.length_set.trans List.length_replicate
    · rw [hlabel hv]
      split
      case isTrue heq =>
        rw [heq]
        exact Sound.start hinf.le
      case isFalse => exact ⟨fun hlt => absurd hlt (Int.lt_irrefl _), Int.le_refl _⟩
    · rw [hlabel hs, if_pos rfl]
    · rw [hfloor] at hlt
      exact absurd (hnonneg u hu) (Int.not_le.mpr hlt)
    · have hnil : ((List.range (start g source numThreads).localBins.length).flatMap
          fun t => (start g source numThreads).bin t b) = [] :=
        List.flatMap_eq_nil_iff.mpr fun t _ => bin_start t b
      rw [hnil]
      exact List.nodup_nil
  · have hi : i = 0 := Nat.lt_one_iff.mp hi
    exact ⟨source, hs, if_pos hi⟩
  · intro u hu wn hwn
    by_cases hus : u = source
    · exact .inr (.inr ⟨0, Nat.zero_lt_one, congrArg some hus.symm⟩)
    · refine .inl ?_
      have hweight := hg.weight u hu wn hwn
      unfold Memory.Relaxes
      rw [hlabel (hg.lt hu hwn), hlabel hu, if_neg hus]
      split <;> omega
  · exact (List.length_replicate ..).symm ▸ hthreads
  · exact ⟨hfloor.symm ▸ hinf, Nat.zero_lt_one⟩

/-- When the loop ends, no edge lowers a label. -/
theorem Head.isDist (h : Head g delta source m) (hdelta : 0 < delta)
    (hend : m.currBinIndex = kMaxBin) {v : Nat} (hv : v < g.numNodes) :
    IsDist (Arc g) source kDistInf v (m.label v) := by
  have hinf : kDistInf < kMaxBin := by decide
  have hmax : (kMaxBin : Int) ≤ delta * kMaxBin :=
    le_mul_of_one_le_left (Int.natCast_nonneg _) hdelta
  have hrelaxed : Relaxed (Arc g) m.label := by
    rintro x w y ⟨hx, wn, hwn, rfl, rfl⟩
    refine h.tidy.low x hx wn hwn ?_
    have hle := (h.tidy.sound x hx).le_cap
    rw [Memory.floor, hend]
    omega
  exact hrelaxed.isDist h.tidy.start (h.tidy.sound v hv)

/-- Every run ends with the distances. -/
theorem deltaStep_total (hg : Weighted g) (hdelta : 0 < delta) (hs : source < g.numNodes)
    (hthreads : 0 < numThreads) :
    Total (deltaStep g delta) (start g source numThreads) fun m =>
      m.dist.length = g.numNodes
        ∧ (∀ v < g.numNodes, IsDist (Arc g) source kDistInf v (m.label v))
        ∧ (delta = 1 → Roomy g → m.overrun = false) := by
  refine total_loop (fun m => Head g delta source m ∧ (delta = 1 → Roomy g → m.overrun = false))
    Memory.left ?_ ?_ ⟨start_head hg hs hthreads, fun _ hroom => ?_⟩
  · intro m hm hne
    refine (turn_total hm.1 hg hdelta (bne_iff_ne.mp hne)).mono fun m' hm' => ?_
    exact ⟨⟨hm'.1, fun hd hroom => hm'.2.2 hd hroom (hm.2 hd hroom)⟩, hm'.2.1⟩
  · intro m hm hend
    have hend : m.currBinIndex = kMaxBin := by
      rwa [bne_eq_false_iff_eq] at hend
    exact ⟨hm.1.tidy.length, fun v hv => hm.1.isDist hdelta hend hv, hm.2⟩
  · exact decide_eq_false (Int.not_lt.mpr hroom.1)

/-- `DeltaStep` ends, and if it has not left the frontier, every label is
the shortest distance, or `kDistInf` where there is none below it. -/
theorem deltaStep_isDist (hg : Weighted g) (hdelta : 0 < delta) (hs : source < g.numNodes)
    (hthreads : 0 < numThreads) :
    Ends (fun m => m.overrun = false → m.dist.length = g.numNodes
        ∧ ∀ v < g.numNodes, IsDist (Arc g) source kDistInf v (m.label v))
      ([deltaStep g delta], start g source numThreads) :=
  (deltaStep_total hg hdelta hs hthreads).ends.mono fun _ hm _ => ⟨hm.1, hm.2.1⟩

/-- With the default `delta` it does not leave the frontier. -/
theorem deltaStep_one (hg : Weighted g) (hroom : Roomy g) (hs : source < g.numNodes)
    (hthreads : 0 < numThreads) :
    Ends (fun m => m.overrun = false ∧ m.dist.length = g.numNodes
        ∧ ∀ v < g.numNodes, IsDist (Arc g) source kDistInf v (m.label v))
      ([deltaStep g 1], start g source numThreads) :=
  (deltaStep_total hg Int.one_pos hs hthreads).ends.mono fun _ hm =>
    ⟨hm.2.2 rfl hroom, hm.1, hm.2.1⟩

-- =========================================================== a small graph

/-- Two ways from vertex 0 to vertex 1. -/
def twoRoads : CSRGraph NodeWeight where
  directed := true
  numNodes := 3
  numEdges := 3
  outgoing := ⟨[0, 2, 2, 3], [some ⟨1, 5⟩, some ⟨2, 1⟩, some ⟨1, 2⟩]⟩
  incoming := ⟨[0, 0, 2, 3], [some ⟨0, 5⟩, some ⟨2, 2⟩, some ⟨0, 1⟩]⟩

theorem twoRoads_weighted : Weighted twoRoads := by
  refine ⟨fun u hu => ?_, by decide⟩
  match u, hu with
  | 0, _ => exact ⟨_, rfl, by decide⟩
  | 1, _ => exact ⟨_, rfl, by decide⟩
  | 2, _ => exact ⟨_, rfl, by decide⟩

/-- The two roads, with bins of two distances. -/
theorem deltaStep_twoRoads :
    Ends (fun m => m.overrun = false → m.dist.length = 3
        ∧ ∀ v < 3, IsDist (Arc twoRoads) 0 kDistInf v (m.label v))
      ([deltaStep twoRoads 2], start twoRoads 0 4) :=
  deltaStep_isDist twoRoads_weighted (by decide) (by decide) (by decide)

/-- The two roads, with a bin for each distance. -/
theorem deltaStep_one_twoRoads :
    Ends (fun m => m.overrun = false ∧ m.dist.length = 3
        ∧ ∀ v < 3, IsDist (Arc twoRoads) 0 kDistInf v (m.label v))
      ([deltaStep twoRoads 1], start twoRoads 0 4) :=
  deltaStep_one twoRoads_weighted ⟨by decide, by decide⟩ (by decide) (by decide)

end ThesisBench.Gapbs.Sssp
