/-
A turn of `DeltaStep`: the region that relaxes, the region that gathers
the next bin, and what the memory is like from one turn to the next
(`Head`).
-/
import ThesisBench.Gapbs.Proofs.SsspSteps

namespace ThesisBench.Gapbs.Sssp

open Parallel Relax

variable {g : CSRGraph NodeWeight} {delta : Int} {source : Nat} {m m' m₀ : Memory}
  {ts : List Thread} {l l' : Thread} {i : Nat}

-- ================================================================ a step

/-- All that is left to do: what the threads have to go through, and what
every label that is lowered may add to it. -/
def left (g : CSRGraph NodeWeight) (ts : List Thread) (m : Memory) : Nat :=
  (visit g + 2 * ts.length + 2) * m.potential + (ts.map fun l => l.cost g m).sum

/-- A lowered label makes a swap fail, which costs one more round. -/
theorem At.cost_lower_le (m m' : Memory) (pc : At) : pc.cost m' ≤ pc.cost m + 2 := by
  cases pc with
  | swap _ _ _ _ _ =>
      simp only [At.cost]
      split <;> split <;> omega
  | _ => exact Nat.le_add_right _ 2

/-- What another thread has to do, where its bins and the labels are the
same. -/
theorem cost_congr (hbin : ∀ b, m'.bin l.id b = m.bin l.id b)
    (hcurr : m'.currBinIndex = m.currBinIndex) (hlabel : ∀ v, m'.label v = m.label v) :
    l.cost g m' = l.cost g m := by
  have hpc : l.pc.cost m' = l.pc.cost m := by
    cases l.pc with
    | swap _ wn _ _ _ => simp only [At.cost, hlabel]
    | _ => rfl
  rw [Thread.cost, Thread.cost, hbin, hcurr, hpc]

theorem Working.other (h : Working g delta source m₀ ts m) (hi : ts[i]? = some l) {j : Nat}
    {x : Thread} (hj : j ≠ i) (hx : ts[j]? = some x) : x.id ≠ l.id := by
  have hnd : (ts.map (·.id)).Nodup := h.team ▸ List.nodup_range
  intro hid
  have hlen : j < (ts.map (·.id)).length := by
    rw [List.length_map]
    exact (List.getElem?_eq_some_iff.mp hx).1
  refine hj ((List.getElem?_inj hlen hnd).mp ?_)
  rw [List.getElem?_map, List.getElem?_map, hi, hx, Option.map_some, Option.map_some, hid]

/-- Lowering a label leaves the current bin alone. -/
theorem currBinIndex_lower (m : Memory) (delta : Int) (t v : Nat) (d : Int) :
    (m.lower delta t v d).currBinIndex = m.currBinIndex := rfl

/-- A lowered label pays for all it may cost. -/
theorem Working.left_lower (h : Working g delta source m₀ ts m) {u : Nat} {wn : NodeWeight}
    {oldDist newDist : Int} {wns : List NodeWeight} (hi : ts[i]? = some l)
    (hpc : l.pc = .swap u wn oldDist newDist wns) (heq : m.label wn.v = oldDist)
    (hlow : Lowers g delta source m l.id wn.v newDist) :
    left g (ts.set i { l with pc := .edges u wns }) (m.lower delta l.id wn.v newDist)
      < left g ts m := by
  have hpot : (m.lower delta l.id wn.v newDist).potential < m.potential :=
    Memory.potential_lower (hlow.tidy.length ▸ hlow.vertex) hlow.nonneg hlow.lt
  have hown : { l with pc := At.edges u wns }.cost g (m.lower delta l.id wn.v newDist)
      ≤ l.cost g m + (visit g + 1) := by
    -- one entry more in the bin at most
    have hlen : ((m.lower delta l.id wn.v newDist).bin l.id m.currBinIndex).length
        ≤ (m.bin l.id m.currBinIndex).length + 1 := by
      rw [Memory.bin_lower hlow.thread]
      split
      case isTrue => rw [List.length_append, List.length_singleton]
      case isFalse => exact Nat.le_add_right _ 1
    have hmul := Nat.mul_le_mul_right (visit g + 1) hlen
    rw [Nat.succ_mul] at hmul
    have hcost : l.pc.cost m = 5 * wns.length + 3 := by
      rw [hpc, At.cost, if_pos heq]
    rw [Thread.cost, Thread.cost, hcost, currBinIndex_lower, At.cost]
    dsimp only
    omega
  have hother : ∀ j x, j ≠ i → ts[j]? = some x →
      x.cost g (m.lower delta l.id wn.v newDist) ≤ x.cost g m + 2 := by
    intro j x hj hx
    have hpcx := At.cost_lower_le m (m.lower delta l.id wn.v newDist) x.pc
    unfold Thread.cost
    rw [currBinIndex_lower, hlow.bin_of_ne (h.other hi hj hx)]
    omega
  have hsum : ((ts.set i { l with pc := .edges u wns }).map
      fun x => x.cost g (m.lower delta l.id wn.v newDist)).sum
      ≤ (ts.map fun l => l.cost g m).sum + 2 * ts.length + (visit g + 1) :=
    sum_set_le hi hown hother
  have hmul := Nat.mul_le_mul_left (visit g + 2 * ts.length + 2) (Nat.succ_le_of_lt hpot)
  rw [Nat.mul_succ] at hmul
  unfold left
  rw [List.length_set]
  omega

/-- A step of a region keeps the invariant, and leaves less to do. -/
theorem Working.step (h : Working g delta source m₀ ts m) (hg : Weighted g) (hdelta : 0 < delta)
    (hc : m₀.floor delta < kDistInf) (hi : ts[i]? = some l)
    (hn : relaxNext g delta l m = some (l', m')) :
    Working g delta source m₀ (ts.set i l') m' ∧ left g (ts.set i l') m' < left g ts m := by
  have hl := List.mem_of_getElem? hi
  have hfloor : m.floor delta < kDistInf := by
    unfold Memory.floor
    rw [h.frame.currBinIndex]
    exact hc
  -- the threads that do not move, where no label is lowered
  have hsum : ∀ {l' m'}, m'.potential = m.potential → l'.cost g m' < l.cost g m →
      (∀ j x, j ≠ i → ts[j]? = some x → x.cost g m' = x.cost g m) →
      left g (ts.set i l') m' < left g ts m := by
    intro l' m' hpot hown hother
    have hlt : ((ts.set i l').map fun l => l.cost g m').sum < (ts.map fun l => l.cost g m).sum :=
      sum_set_lt hi hown fun j x hj hx => (hother j x hj hx).le
    unfold left
    rw [hpot, List.length_set]
    exact Nat.add_lt_add_left hlt _
  have hcall : l.pc ≠ .next → (relaxEdges delta l.id l.pc m).map (fun c =>
      ({ l with pc := c.1 }, c.2)) = some (l', m') →
      Working g delta source m₀ (ts.set i l') m' ∧ left g (ts.set i l') m' < left g ts m := by
    intro _ hn
    obtain ⟨⟨pc, m₁⟩, hrel, heq⟩ := Option.map_eq_some_iff.mp hn
    cases heq
    rcases relaxEdges_cases h hg hl hrel with ⟨rfl, hq⟩ | ⟨u, wn, old, new, wns, hpc, heq, rfl, rfl⟩
    · exact ⟨h.quiet hi hq, hsum rfl hq.cost fun _ _ _ _ => rfl⟩
    · have hlow := h.lowers hl hpc hg heq
      exact ⟨h.lower hdelta hi hpc hlow, h.left_lower hi hpc heq hlow⟩
  by_cases hpc : l.pc = .next
  · have hpick : pick g delta l.id l.todo l.binCopy m = some (l', m') := by
      unfold relaxNext at hn
      rw [hpc] at hn
      exact hn
    rcases pick_cases h hdelta hfloor hl hpc hpick with ⟨rfl, hq⟩ | ⟨htodo, hcopy, hlast⟩
    · exact ⟨h.quiet hi hq, hsum rfl hq.cost fun _ _ _ _ => rfl⟩
    · rcases hlast with ⟨rfl, rfl, hne⟩ | ⟨rfl, rfl⟩
      · have hbin : ∀ t b, (m.clearBin l.id m.currBinIndex).bin t b
            = if t = l.id ∧ b = m.currBinIndex then [] else m.bin t b :=
          Memory.bin_clear (h.id_lt hl) rfl
        refine ⟨h.fuse hi htodo hcopy hpc, hsum rfl ?_ fun j x hj hx => ?_⟩
        · have hpos := List.length_pos_iff.mpr hne
          have hnil : (m.clearBin l.id m.currBinIndex).bin l.id m.currBinIndex = [] := by
            rw [hbin, if_pos ⟨rfl, rfl⟩]
          have hpc' : l.pc.cost (m.clearBin l.id m.currBinIndex) = l.pc.cost m := by
            rw [hpc]
            rfl
          simp only [Thread.cost, show (m.clearBin l.id m.currBinIndex).currBinIndex
            = m.currBinIndex from rfl, hnil, htodo, hcopy, List.length_nil, Nat.zero_add,
            Nat.zero_mul, hpc', Nat.mul_succ]
          omega
        · refine cost_congr (fun b => ?_) rfl fun _ => rfl
          rw [hbin, if_neg fun hc => h.other hi hj hx hc.1]
      · obtain ⟨k, heq, -⟩ := vote_spec m l.id
        refine ⟨h.vote hi htodo hcopy hpc, ?_⟩
        rw [heq]
        refine hsum rfl ?_ fun j x _ _ => rfl
        unfold Thread.cost
        rw [hpc]
        exact Nat.add_lt_add_left Nat.zero_lt_one _
  · refine hcall hpc ?_
    unfold relaxNext at hn
    split at hn
    next hnext => exact absurd hnext hpc
    next => exact hn

theorem Working.moves (h : Working g delta source m₀ ts m) (hg : Weighted g) (hl : l ∈ ts)
    (hd : l.pc ≠ .done) : ∃ l' m', relaxNext g delta l m = some (l', m') := by
  have hget : ∀ {v : Nat}, v < g.numNodes → m.dist[v]? = some (m.label v) := fun hv =>
    m.get_label (h.tidy.length ▸ hv)
  have hfine := h.fine l hl
  have htodo := h.todo l hl
  obtain ⟨id, todo, copy, pc⟩ := l
  cases pc with
  | next =>
      cases todo with
      | cons i todo =>
          obtain ⟨u, hu, hfr⟩ := htodo i List.mem_cons_self
          simp only [relaxNext, pick, hfr, hget hu, Option.bind_eq_bind, Option.bind_some]
          exact ⟨_, _, rfl⟩
      | nil =>
          cases copy with
          | cons u copy => exact ⟨_, _, rfl⟩
          | nil =>
              simp only [relaxNext, pick]
              split <;> exact ⟨_, _, rfl⟩
  | edges u wns =>
      cases wns with
      | nil => exact ⟨_, _, rfl⟩
      | cons wn wns =>
          have hcall : Call g delta m u (wn :: wns) := hfine
          have hv := hg.lt hcall.lt (hcall.outs wn List.mem_cons_self)
          simp only [relaxNext, relaxEdges, hget hv, Option.map_some]
          exact ⟨_, _, rfl⟩
  | add u wn oldDist wns =>
      simp only [relaxNext, relaxEdges, hget hfine.1.lt, Option.map_some]
      exact ⟨_, _, rfl⟩
  | swap u wn oldDist newDist wns =>
      have hv := hg.lt hfine.1.lt (hfine.1.outs wn List.mem_cons_self)
      simp only [relaxNext, relaxEdges, hget hv, Option.map_some]
      exact ⟨_, _, rfl⟩
  | reload u wn newDist wns =>
      have hv := hg.lt hfine.1.lt (hfine.1.outs wn List.mem_cons_self)
      simp only [relaxNext, relaxEdges, hget hv, Option.map_some]
      exact ⟨_, _, rfl⟩
  | done => exact absurd rfl hd

-- ======================================================= the first region

/-- The memory where the condition of the loop is tested. -/
structure Head (g : CSRGraph NodeWeight) (delta : Int) (source : Nat) (m : Memory) : Prop where
  tidy : Tidy g delta source m
  frontier : ∀ i < m.currFrontierTail, ∃ u < g.numNodes, m.frontier i = some u
  empty : ∀ t, m.bin t m.currBinIndex = []
  cover : ∀ u < g.numNodes, ∀ wn ∈ g.outs u,
    m.Relaxes u wn ∨ m.Binned delta u ∨ ∃ i < m.currFrontierTail, m.frontier i = some u
  nextBinIndex : m.nextBinIndex = kMaxBin
  nextFrontierTail : m.nextFrontierTail = 0
  team : 0 < m.localBins.length
  awake : m.currBinIndex ≠ kMaxBin → m.floor delta < kDistInf ∧ 0 < m.currFrontierTail

/-- The memory at the first barrier of a turn that started from `m₀`. -/
structure Voted (g : CSRGraph NodeWeight) (delta : Int) (source : Nat) (m₀ m : Memory) : Prop where
  tidy : Tidy g delta source m
  frame : Frame m₀ m
  cover : ∀ u < g.numNodes, ∀ wn ∈ g.outs u, m.Relaxes u wn ∨ m.Binned delta u
  votes : ∀ t b, m.currBinIndex ≤ b → m.bin t b ≠ [] → m.nextBinIndex ≤ b
  chosen : m.nextBinIndex = kMaxBin ∨ ∃ t, m.bin t m.nextBinIndex ≠ []
  budget : m.potential + m.entries ≤ m₀.potential + m₀.entries

/-- Where there is no thread the bins are empty. -/
theorem bin_of_length_le {t : Nat} (ht : m.localBins.length ≤ t) (b : Nat) : m.bin t b = [] := by
  rw [Memory.bin, Memory.binsOf, List.getD_eq_getElem?_getD (l := m.localBins),
    List.getElem?_eq_none ht]
  rfl

/-- When all threads are done the votes are in. -/
theorem Working.voted (h : Working g delta source m₀ ts m) (hdone : ∀ l ∈ ts, l.pc = .done) :
    Voted g delta source m₀ m := by
  refine ⟨h.tidy, h.frame, fun u hu wn hwn => ?_, fun t b hb hne => ?_,
    h.chosen.imp_right fun ⟨x, _, _, hx⟩ => ⟨x.id, hx⟩, h.budget⟩
  · rcases h.cover u hu wn hwn with hrel | hbin | ⟨x, hx, hxo⟩
    · exact .inl hrel
    · exact .inr hbin
    · obtain ⟨htodo, hcopy, -⟩ := h.votes x hx (hdone x hx)
      rcases hxo with ⟨i, hi, -⟩ | hxo | hxo
      · rw [htodo] at hi
        cases hi
      · rw [hcopy] at hxo
        cases hxo
      · rw [hdone x hx] at hxo
        exact hxo.elim
  · have ht : t < m.localBins.length := by
      by_contra hge
      exact hne (bin_of_length_le (Nat.le_of_not_lt hge) b)
    have hmem : t ∈ ts.map (·.id) := by
      rw [h.team, List.mem_range, ← h.frame.localBins]
      exact ht
    obtain ⟨x, hx, rfl⟩ := List.mem_map.mp hmem
    exact (h.votes x hx (hdone x hx)).2.2 b hb hne

/-- The region begins with the frontier in shares. -/
theorem Head.working (h : Head g delta source m) {shares : List (List Nat)}
    (hlen : shares.length = m.localBins.length)
    (hperm : shares.flatten.Perm (List.range m.currFrontierTail)) :
    Working g delta source m (shares.mapIdx fun id share => ⟨id, share, [], .next⟩) m := by
  have hmem : ∀ {x : Thread},
      x ∈ shares.mapIdx (fun id share => (⟨id, share, [], .next⟩ : Thread)) →
      x.binCopy = [] ∧ x.pc = .next ∧ ∀ i ∈ x.todo, i < m.currFrontierTail := by
    intro x hx
    obtain ⟨k, hk, rfl⟩ := List.getElem_of_mem hx
    rw [List.length_mapIdx] at hk
    rw [List.getElem_mapIdx]
    refine ⟨rfl, rfl, fun i hi => List.mem_range.mp (hperm.mem_iff.mp ?_)⟩
    exact List.mem_flatten.mpr ⟨_, List.getElem_mem hk, hi⟩
  refine { tidy := h.tidy, frame := ⟨rfl, rfl, rfl, rfl, rfl, rfl⟩, team := ?_, todo := ?_,
           copied := ?_, fine := ?_, current := ?_, cover := ?_, votes := ?_,
           chosen := .inl h.nextBinIndex, budget := Nat.le_refl _ }
  · refine List.ext_getElem ?_ fun i hi hi' => ?_
    · rw [List.length_map, List.length_mapIdx, List.length_range, hlen]
    · rw [List.getElem_map, List.getElem_mapIdx, List.getElem_range]
  · exact fun x hx i hi => h.frontier i ((hmem hx).2.2 i hi)
  · intro x hx u hu
    rw [(hmem hx).1] at hu
    cases hu
  · intro x hx
    rw [(hmem hx).2.1]
    trivial
  · intro t v hv
    rw [h.empty] at hv
    cases hv
  · intro u hu wn hwn
    refine (h.cover u hu wn hwn).imp_right (Or.imp_right fun ⟨i, hi, hfr⟩ => ?_)
    obtain ⟨share, hshare, hi⟩ := List.mem_flatten.mp
      (hperm.mem_iff.mpr (List.mem_range.mpr hi))
    obtain ⟨k, hk, rfl⟩ := List.getElem_of_mem hshare
    refine ⟨⟨k, shares[k], [], .next⟩, ?_, .inl ⟨i, hi, hfr⟩⟩
    exact List.mem_mapIdx.mpr ⟨k, hk, rfl⟩
  · intro x hx hxd
    rw [(hmem hx).2.1] at hxd
    cases hxd

/-- Every run of the first region ends with the votes. -/
theorem relaxRegion_total (h : Head g delta source m) (hg : Weighted g) (hdelta : 0 < delta)
    (hc : m.floor delta < kDistInf) :
    Total (relaxRegion g delta) m (Voted g delta source m) := by
  refine total_fork ?_ ?_
  · -- one thread takes the whole frontier
    refine ⟨_, List.range m.currFrontierTail :: List.replicate (m.localBins.length - 1) [],
      ?_, ?_, rfl⟩
    · have hteam := h.team
      rw [List.length_cons, List.length_replicate]
      omega
    · rw [List.flatten_cons, List.flatten_replicate_nil, List.append_nil]
  · rintro ts ⟨shares, hlen, hperm, rfl⟩
    refine total_running (fun ts m' => Working g delta source m ts m') (left g) ?_ ?_ ?_
      (h.working hlen hperm)
    · intro ts m' l hw hl hd
      exact hw.moves hg hl (of_decide_eq_false hd)
    · intro ts m' i l l' m'' hw hi hn
      exact hw.step hg hdelta hc hi hn
    · intro ts m' hw hdone
      exact hw.voted fun l hl => of_decide_eq_true (hdone l hl)

-- ====================================================== the second region

/-- How much all threads together hold in a bin. -/
def Memory.load (m : Memory) (b : Nat) : Nat :=
  ((List.range m.localBins.length).flatMap fun t => m.bin t b).length

/-- What the copy of thread `t` does. -/
structure Copied (g : CSRGraph NodeWeight) (capacity : Int) (t : Nat) (m m' : Memory) :
    Prop where
  dist : m'.dist = m.dist
  nextBinIndex : m'.nextBinIndex = m.nextBinIndex
  currBinIndex : m'.currBinIndex = m.currBinIndex
  currFrontierTail : m'.currFrontierTail = m.currFrontierTail
  team : m'.localBins.length = m.localBins.length
  bins : ∀ t', t' ≠ t → m'.binsOf t' = m.binsOf t'
  bin : ∀ t' b, m'.bin t' b = if t' = t ∧ b = m.nextBinIndex then [] else m.bin t' b
  tail : m'.nextFrontierTail = m.nextFrontierTail + (m.bin t m.nextBinIndex).length
  below : ∀ i < m.nextFrontierTail, m'.frontier i = m.frontier i
  block : ∀ k < (m.bin t m.nextBinIndex).length,
    m'.frontier (m.nextFrontierTail + k) = (m.bin t m.nextBinIndex)[k]?
  entries : m'.entries + (m.bin t m.nextBinIndex).length = m.entries
  once : Once g m → Once g m'
  overrun : m'.overrun = true → m.overrun = true ∨ (m'.nextFrontierTail : Int) > capacity

/-- A thread copies its bin to the frontier. -/
theorem gather_copied (g : CSRGraph NodeWeight) (capacity : Int) {t : Nat}
    (ht : t < m.localBins.length) :
    ∃ m', gather capacity (some t) m = some m' ∧ Copied g capacity t m m' := by
  simp only [gather]
  split
  case isTrue =>
    refine ⟨_, rfl, ?_⟩
    refine ⟨rfl, rfl, rfl, rfl, List.length_set, fun t' ht' => ?_,
      Memory.bin_clear ht rfl, rfl, fun i hi => ?_, fun k hk => ?_, Memory.entries_clear ht rfl,
      fun h => h.clear ht rfl rfl, fun hover => ?_⟩
    · rw [Memory.binsOf_set ht _ rfl, if_neg ht']
    · exact if_neg fun hc => Nat.not_lt_of_le hc.1 hi
    · have hk' : k < ((m.binsOf t).getD m.nextBinIndex []).length := hk
      simp only [copyTo]
      rw [if_pos ⟨Nat.le_add_right _ _, Nat.add_lt_add_left hk' _⟩, Nat.add_sub_cancel_left]
      rfl
    · rcases (Bool.or_eq_true _ _).mp hover with hover | hover
      · exact .inl hover
      · exact .inr (of_decide_eq_true hover)
  case isFalse hge =>
    have hnil : m.bin t m.nextBinIndex = [] := by
      rw [Memory.bin, List.getD_eq_getElem?_getD, List.getElem?_eq_none (Nat.le_of_not_lt hge)]
      rfl
    refine ⟨m, rfl, rfl, rfl, rfl, rfl, rfl, fun _ _ => rfl, fun t' b => ?_, ?_,
      fun _ _ => rfl, fun k hk => ?_, ?_, id, .inl⟩
    · split
      case isTrue hc => rw [hc.1, hc.2, hnil]
      case isFalse => rfl
    · rw [hnil]
      rfl
    · rw [hnil] at hk
      exact absurd hk (Nat.not_lt_zero k)
    · rw [hnil]
      rfl

/-- A copy takes its bin off the load. -/
theorem Copied.load {capacity : Int} {t : Nat} (h : Copied g capacity t m m')
    (ht : t < m.localBins.length) :
    m'.load m.nextBinIndex + (m.bin t m.nextBinIndex).length = m.load m.nextBinIndex := by
  obtain ⟨l, r, -, hsplit⟩ := Slots.flatMap_range_split (fun t => m.bin t m.nextBinIndex) ht
  have hafter : (fun t' => m'.bin t' m.nextBinIndex)
      = Function.update (fun t => m.bin t m.nextBinIndex) t [] := by
    funext t'
    rw [h.bin, Function.update_apply]
    by_cases htt : t' = t
    · rw [if_pos ⟨htt, rfl⟩, if_pos htt]
    · rw [if_neg fun hc => htt hc.1, if_neg htt]
  have hbefore := hsplit (m.bin t m.nextBinIndex)
  rw [Function.update_eq_self] at hbefore
  rw [Memory.load, Memory.load, h.team, hafter, hsplit, hbefore]
  simp only [List.length_append, List.length_nil]
  omega

/-- In the second region, which started from `m₀`. -/
structure Gathering (g : CSRGraph NodeWeight) (capacity : Int) (m₀ m : Memory) : Prop where
  dist : m.dist = m₀.dist
  nextBinIndex : m.nextBinIndex = m₀.nextBinIndex
  team : m.localBins.length = m₀.localBins.length
  bin : ∀ t b, b ≠ m₀.nextBinIndex → m.bin t b = m₀.bin t b
  frontier : ∀ i < m.nextFrontierTail, ∃ t, ∃ u ∈ m₀.bin t m₀.nextBinIndex, m.frontier i = some u
  entries : m.nextFrontierTail + m.entries = m₀.entries
  load : m.nextFrontierTail + m.load m₀.nextBinIndex = m₀.load m₀.nextBinIndex
  once : Once g m₀ → Once g m
  overrun : m.overrun = true → m₀.overrun = true ∨ (m.nextFrontierTail : Int) > capacity

/-- A copy keeps what the region keeps. -/
theorem Gathering.copied {capacity : Int} {t : Nat} (h : Gathering g capacity m₀ m)
    (ht : t < m₀.localBins.length) (hbin : m.bin t m₀.nextBinIndex = m₀.bin t m₀.nextBinIndex)
    (hc : Copied g capacity t m m') : Gathering g capacity m₀ m' := by
  have htail := hc.tail
  have hload := hc.load (h.team ▸ ht)
  have hent := hc.entries
  rw [h.nextBinIndex] at htail hload hent
  refine { dist := hc.dist.trans h.dist, nextBinIndex := hc.nextBinIndex.trans h.nextBinIndex,
           team := hc.team.trans h.team, bin := fun t' b hb => ?_, frontier := fun i hi => ?_,
           entries := ?_, load := ?_, once := fun h₀ => hc.once (h.once h₀),
           overrun := fun hover => ?_ }
  · rw [hc.bin, h.nextBinIndex, if_neg fun hcb => hb hcb.2, h.bin t' b hb]
  · by_cases hlt : i < m.nextFrontierTail
    · obtain ⟨t', u, hu, hfr⟩ := h.frontier i hlt
      exact ⟨t', u, hu, (hc.below i hlt).trans hfr⟩
    · -- one of those the thread has copied
      have hk : i - m.nextFrontierTail < (m.bin t m.nextBinIndex).length := by
        rw [h.nextBinIndex]
        omega
      have hblock := hc.block (i - m.nextFrontierTail) hk
      rw [Nat.add_sub_cancel' (Nat.le_of_not_lt hlt), List.getElem?_eq_getElem hk] at hblock
      refine ⟨t, _, ?_, hblock⟩
      rw [← hbin, ← h.nextBinIndex]
      exact List.getElem_mem hk
  · have := h.entries
    omega
  · have := h.load
    omega
  · rcases hc.overrun hover with hover | hover
    · refine (h.overrun hover).imp_right fun hgt => ?_
      omega
    · exact .inr hover

/-- The memory after the second region, which started from `m₀`. -/
structure Gathered (g : CSRGraph NodeWeight) (capacity : Int) (m₀ m : Memory) : Prop where
  gathering : Gathering g capacity m₀ m
  currBinIndex : m.currBinIndex = kMaxBin
  currFrontierTail : m.currFrontierTail = 0
  empty : ∀ t, m.bin t m₀.nextBinIndex = []
  copied : ∀ t, ∀ u ∈ m₀.bin t m₀.nextBinIndex,
    ∃ i < m.nextFrontierTail, m.frontier i = some u

/-- What the task finds, and what it leaves. -/
def GatherBefore (m₀ : Memory) : Option Nat → Memory → Prop
  | none, _ => True
  | some t, m => t < m₀.localBins.length ∧ m.bin t m₀.nextBinIndex = m₀.bin t m₀.nextBinIndex

def GatherAfter (m₀ : Memory) : Option Nat → Memory → Prop
  | none, m => m.currBinIndex = kMaxBin ∧ m.currFrontierTail = 0
  | some t, m => m.bin t m₀.nextBinIndex = [] ∧ ∀ u ∈ m₀.bin t m₀.nextBinIndex,
      ∃ i < m.nextFrontierTail, m.frontier i = some u

theorem gather_own {capacity : Int} (a : Option Nat) (h : Gathering g capacity m₀ m)
    (hb : GatherBefore m₀ a m) : ∃ m', gather capacity a m = some m'
      ∧ Gathering g capacity m₀ m' ∧ GatherAfter m₀ a m' := by
  cases a with
  | none => exact ⟨_, rfl, { h with once := fun h₀ => { h.once h₀ with } }, rfl, rfl⟩
  | some t =>
      obtain ⟨m', hstep, hc⟩ := gather_copied g capacity (h.team ▸ hb.1)
      refine ⟨m', hstep, h.copied hb.1 hb.2 hc, ?_, fun u hu => ?_⟩
      · rw [hc.bin, h.nextBinIndex, if_pos ⟨rfl, rfl⟩]
      · rw [← hb.2, ← h.nextBinIndex] at hu
        obtain ⟨k, hk, rfl⟩ := List.getElem_of_mem hu
        refine ⟨m.nextFrontierTail + k, ?_, ?_⟩
        · rw [hc.tail]
          exact Nat.add_lt_add_left hk _
        · rw [hc.block k hk, List.getElem?_eq_getElem hk]

/-- A task leaves what the others find. -/
theorem gather_other {capacity : Int} {a b : Option Nat} (hab : a ≠ b)
    (h : Gathering g capacity m₀ m) (hb : GatherBefore m₀ b m)
    (hstep : gather capacity b m = some m') :
    (GatherBefore m₀ a m → GatherBefore m₀ a m')
      ∧ (GatherAfter m₀ a m → GatherAfter m₀ a m') := by
  cases b with
  | none =>
      cases hstep
      cases a with
      | none => exact absurd rfl hab
      | some t => exact ⟨id, id⟩
  | some t =>
      obtain ⟨m₁, hstep₁, hc⟩ := gather_copied g capacity (h.team ▸ hb.1)
      cases hstep₁.symm.trans hstep
      cases a with
      | none =>
          exact ⟨id, fun ha => ⟨hc.currBinIndex.trans ha.1, hc.currFrontierTail.trans ha.2⟩⟩
      | some t' =>
          have hne : t' ≠ t := fun htt => hab (congrArg some htt)
          have hbin : m'.bin t' m₀.nextBinIndex = m.bin t' m₀.nextBinIndex := by
            rw [hc.bin, if_neg fun hcb => hne hcb.1]
          refine ⟨fun ha => ⟨ha.1, hbin.trans ha.2⟩, fun ha => ⟨hbin.trans ha.1, fun u hu => ?_⟩⟩
          obtain ⟨i, hi, hfr⟩ := ha.2 u hu
          refine ⟨i, ?_, (hc.below i hi).trans hfr⟩
          rw [hc.tail]
          exact Nat.lt_add_right _ hi

/-- Every run of the second region ends with the next frontier. -/
theorem gatherRegion_total (htail : m.nextFrontierTail = 0) :
    Total (gatherRegion g) m (Gathered g g.numEdgesDirected m) := by
  refine total_once (Gathering g g.numEdgesDirected m) (GatherBefore m) (GatherAfter m)
    (fun a _ => gather_own a) (fun _ _ _ _ => gather_other) ?_ ?_ ?_ ?_
  · refine List.nodup_cons.mpr ⟨fun hmem => ?_, ?_⟩
    · obtain ⟨_, -, hx⟩ := List.mem_map.mp hmem
      cases hx
    · exact List.nodup_range.map (Option.some_injective _)
  · refine ⟨rfl, rfl, rfl, fun _ _ _ => rfl, fun i hi => ?_, ?_, ?_, id, .inl⟩
    · rw [htail] at hi
      exact absurd hi (Nat.not_lt_zero i)
    · rw [htail, Nat.zero_add]
    · rw [htail, Nat.zero_add]
  · intro a ha
    rcases List.mem_cons.mp ha with rfl | ha
    · trivial
    · obtain ⟨t, ht, rfl⟩ := List.mem_map.mp ha
      exact ⟨List.mem_range.mp ht, rfl⟩
  · intro m' h' hall
    have hthread : ∀ t < m.localBins.length, GatherAfter m (some t) m' := fun t ht =>
      hall _ (List.mem_cons_of_mem _ (List.mem_map_of_mem (List.mem_range.mpr ht)))
    obtain ⟨hbin, htail⟩ : GatherAfter m none m' := hall none List.mem_cons_self
    refine ⟨h', hbin, htail, fun t => ?_, fun t u hu => ?_⟩
    · by_cases ht : t < m.localBins.length
      · exact (hthread t ht).1
      · exact bin_of_length_le (h'.team ▸ Nat.le_of_not_lt ht) _
    · by_cases ht : t < m.localBins.length
      · exact (hthread t ht).2 u hu
      · rw [bin_of_length_le (Nat.le_of_not_lt ht)] at hu
        cases hu

end ThesisBench.Gapbs.Sssp
