/-
`Brandes` accumulates the dependencies.

On the way back every vertex of a level adds up, over its marked edges,
what its successors have passed on (`Paths.dependency_eq`). The marked
edges lead to the next level, which is finished and which no task of
this level writes, so a task may read it at any time (`Leaves.term_eq`).
-/
import ThesisBench.Gapbs.Proofs.Pbfs

namespace ThesisBench.Gapbs.Brandes

open Parallel Distance Paths
open Bfs (IsEdge)

variable {g : CSRGraph Nat} {m m' : Memory} {s k u v p : Nat} {levels : List (List Nat)}

-- ========================================================== the purpose

/-- The sum over the paths from `s` that `v` is on. -/
noncomputable def dependencyOn (g : CSRGraph Nat) (s v : Nat) : ℚ :=
  dependency (IsEdge g) (Finset.range g.numNodes) s v

open scoped Classical in
/-- What the scores are to be. -/
noncomputable def centrality (g : CSRGraph Nat) (sources : List Nat) (v : Nat) : ℚ :=
  ((sources.filter fun s => ∃ k, Walk (IsEdge g) s k v).map fun s => dependencyOn g s v).sum

/-- Sources from which a vertex cannot be reached add nothing to it. -/
theorem centrality_eq (sources : List Nat) (v : Nat) :
    centrality g sources v = (sources.map fun s => dependencyOn g s v).sum := by
  classical
  unfold centrality
  induction sources with
  | nil => rfl
  | cons s sources ih =>
      rw [List.filter_cons, List.map_cons, List.sum_cons, ← ih]
      by_cases h : ∃ k, Walk (IsEdge g) s k v
      · rw [if_pos (decide_eq_true h), List.map_cons, List.sum_cons]
      · rw [if_neg (by rwa [decide_eq_true_eq]), dependencyOn,
          dependency_unreachable (not_exists.mp h), zero_add]

-- =============================================================== values

def Memory.del (m : Memory) (v : Nat) : ℚ := m.deltas.getD v 0

def Memory.score (m : Memory) (v : Nat) : ℚ := m.scores.getD v 0

open scoped Classical in
/-- What the edge from `u` to `v` passes back, if `v` is in level `k`. -/
noncomputable def passed (g : CSRGraph Nat) (s k u v : Nat) : ℚ :=
  if Dist (IsEdge g) s k v then
    (sigma (IsEdge g) s u : ℚ) / sigma (IsEdge g) s v * (1 + dependencyOn g s v)
  else 0

/-- What the edges of a vertex pass back is its dependency. -/
theorem sum_passed (hg : Simple g) (hu : Dist (IsEdge g) s k u) (hlt : u < g.numNodes) :
    ((outRefs g u).map fun r => passed g s (k + 1) u r.2).sum = dependencyOn g s u := by
  classical
  have hmap : (outRefs g u).map (fun r => passed g s (k + 1) u r.2)
      = (g.outs u).map (passed g s (k + 1) u) := by
    rw [← map_outRefs, List.map_map]
    rfl
  rw [hmap, ← List.sum_toFinset _ (hg.nodup u hlt), dependencyOn, dependency_eq hg.isEdge_lt hu]
  unfold passed
  rw [← Finset.sum_filter]
  refine Finset.sum_congr ?_ fun _ _ => rfl
  ext w
  rw [Finset.mem_filter, Finset.mem_filter, List.mem_toFinset, Finset.mem_range]
  constructor
  · rintro ⟨hw, hdist⟩
    exact ⟨hg.outs_lt hlt hw, ⟨hlt, hw⟩, hdist⟩
  · rintro ⟨-, hedge, hdist⟩
    exact ⟨hedge.2, hdist⟩

/-- A bit at `u` is set when the edge leads to the next level. -/
theorem Counted.bit_iff (hg : Simple g) (h : Counted g s k levels m) {j : Nat}
    (hu : Dist (IsEdge g) s j u) (hlt : u < g.numNodes) (href : (p, v) ∈ outRefs g u) :
    m.bit p = true ↔ Dist (IsEdge g) s (j + 1) v := by
  rw [h.bit p]
  constructor
  · rintro ⟨i, u', v', hu', href', hdist, hdist'⟩
    obtain ⟨rfl, rfl⟩ := refs_inj hg hlt hu' href href'
    exact (hu.unique hdist) ▸ hdist'
  · exact fun hv => ⟨j, u, v, hlt, href, hu, hv⟩

-- ============================================================= one level

/-- What holds while a level is on its way back; `m` is the memory that it
began with. -/
structure Leaves (g : CSRGraph Nat) (level : List Nat) (m m' : Memory) : Prop where
  frame : m' = { m with deltas := m'.deltas, scores := m'.scores }
  deltas : m'.deltas.length = g.numNodes
  scores : m'.scores.length = g.numNodes
  del : ∀ v, v ∉ level → m'.del v = m.del v
  score : ∀ v, v ∉ level → m'.score v = m.score v

variable {level : List Nat} {i : Nat}

theorem Leaves.refl (hd : m.deltas.length = g.numNodes) (hs : m.scores.length = g.numNodes) :
    Leaves g level m m :=
  ⟨rfl, hd, hs, fun _ _ => rfl, fun _ _ => rfl⟩

/-- What a marked edge passes back is ready. -/
theorem Leaves.term_eq (hg : Simple g) (h : Leaves g level m m')
    (hc : Counted g s k levels m)
    (hlevel : ∀ v ∈ level, v < g.numNodes ∧ Dist (IsEdge g) s i v)
    (hdel : ∀ v < g.numNodes, Dist (IsEdge g) s (i + 1) v → m.del v = dependencyOn g s v)
    (hu : u ∈ level) (href : (p, v) ∈ outRefs g u) :
    m'.term u p v = some (passed g s (i + 1) u v) := by
  obtain ⟨hlt, hdu⟩ := hlevel u hu
  have hv := hg.outs_lt hlt (mem_outs_of_ref href)
  have hsucc : m'.succ = m.succ := by rw [h.frame]
  have hcounts : m'.pathCounts = m.pathCounts := by rw [h.frame]
  have hbit : m.succ[p]? = some (m.bit p) := getElem?_getD (hc.succ ▸ refs_lt hg hlt href) false
  unfold Memory.term passed
  rw [hsucc, hbit, Option.bind_eq_bind, Option.bind_some]
  by_cases hdist : Dist (IsEdge g) s (i + 1) v
  · have hnot : v ∉ level := by
      intro hmem
      have := hdist.unique (hlevel v hmem).2
      omega
    have hcu : m.pathCounts[u]? = some (m.cnt u) := getElem?_getD (hc.pathCounts ▸ hlt) 0
    have hcv : m.pathCounts[v]? = some (m.cnt v) := getElem?_getD (hc.pathCounts ▸ hv) 0
    have hdv : m'.deltas[v]? = some (m'.del v) := getElem?_getD (h.deltas ▸ hv) 0
    rw [if_pos hdist, if_pos ((hc.bit_iff hg hdu hlt href).mpr hdist), hcounts, hcu, hcv,
      hdv, h.del v hnot, hdel v hv hdist, hc.cnt u hlt, hc.cnt v hv]
    rfl
  · rw [if_neg hdist, if_neg fun hb => hdist ((hc.bit_iff hg hdu hlt href).mp hb)]

/-- A store to a vertex that is in the arrays. -/
theorem store_eq (hd : u < m.deltas.length) (hs : u < m.scores.length) (x : ℚ) :
    m.store u x = some { m with
      deltas := m.deltas.set u x, scores := m.scores.set u (m.score u + x) } := by
  unfold Memory.store
  rw [getElem?_getD hs 0, Option.bind_eq_bind, Option.bind_some, if_pos hd]
  rfl

/-- A store that goes through was in the arrays. -/
theorem store_spec {x : ℚ} (h : m.store u x = some m') : u < m.deltas.length
    ∧ u < m.scores.length ∧ m' = { m with
      deltas := m.deltas.set u x, scores := m.scores.set u (m.score u + x) } := by
  obtain ⟨score, hscore, h'⟩ := Option.bind_eq_some_iff.mp h
  split at h'
  case isFalse => cases h'
  case isTrue hd =>
    have hs := (List.getElem?_eq_some_iff.mp hscore).1
    exact ⟨hd, hs, Option.some.inj (h.symm.trans (store_eq hd hs x))⟩

theorem del_store {x : ℚ} (h : m.store u x = some m') (w : Nat) :
    m'.del w = if w = u then x else m.del w := by
  obtain ⟨hd, -, rfl⟩ := store_spec h
  exact Slots.getD_set hd x 0 w

theorem score_store {x : ℚ} (h : m.store u x = some m') (w : Nat) :
    m'.score w = if w = u then m.score u + x else m.score w := by
  obtain ⟨-, hs, rfl⟩ := store_spec h
  exact Slots.getD_set hs _ 0 w

/-- A store to the level keeps everything outside it. -/
theorem Leaves.store {m₁ m₂ : Memory} (h : Leaves g level m m₁) (hu : u ∈ level) {x : ℚ}
    (hstore : m₁.store u x = some m₂) : Leaves g level m m₂ := by
  have hdel := del_store hstore
  have hscore := score_store hstore
  obtain ⟨-, -, rfl⟩ := store_spec hstore
  have hne : ∀ v, v ∉ level → v ≠ u := fun v hv heq => hv (heq ▸ hu)
  refine ⟨?_, List.length_set.trans h.deltas, List.length_set.trans h.scores, fun v hv => ?_,
    fun v hv => ?_⟩
  · rw [h.frame]
  · rw [hdel, if_neg (hne v hv)]
    exact h.del v hv
  · rw [hscore, if_neg (hne v hv)]
    exact h.score v hv

/-- What a task can do. -/
theorem back_next {l l' : Nat × BackAt} (h : backTasks.next l m = some (l', m')) :
    (∃ u p v refs delta x, l = (u, .sum ((p, v) :: refs) delta) ∧ m.term u p v = some x
        ∧ l' = (u, .sum refs (delta + x)) ∧ m' = m)
      ∨ ∃ u delta, l = (u, .sum [] delta) ∧ m.store u delta = some m' ∧ l' = (u, .done) := by
  obtain ⟨u, pc⟩ := l
  cases pc with
  | sum refs delta =>
      cases refs with
      | nil =>
          obtain ⟨m₁, hm₁, heq⟩ := Option.map_eq_some_iff.mp h
          cases heq
          exact .inr ⟨u, delta, rfl, hm₁, rfl⟩
      | cons r refs =>
          obtain ⟨x, hx, heq⟩ := Option.map_eq_some_iff.mp h
          cases heq
          exact .inl ⟨u, r.1, r.2, refs, delta, x, rfl, hx, rfl, rfl⟩
  | done => cases h

/-- What a task has added up, and what it has stored. -/
def Tallied (g : CSRGraph Nat) (s i : Nat) (m : Memory) (l : Nat × BackAt) (m' : Memory) : Prop :=
  match l.2 with
  | .sum refs delta => (∀ r ∈ refs, r ∈ outRefs g l.1)
      ∧ delta + (refs.map fun r => passed g s (i + 1) l.1 r.2).sum = dependencyOn g s l.1
      ∧ m'.score l.1 = m.score l.1
  | .done => m'.del l.1 = dependencyOn g s l.1
      ∧ m'.score l.1 = m.score l.1 + dependencyOn g s l.1

/-- What a task has added up depends on its own vertex only. -/
theorem Tallied.congr {m₁ m₂ : Memory} {l : Nat × BackAt} (h : Tallied g s i m l m₁)
    (hdel : m₂.del l.1 = m₁.del l.1) (hscore : m₂.score l.1 = m₁.score l.1) :
    Tallied g s i m l m₂ := by
  obtain ⟨u, pc⟩ := l
  cases pc with
  | sum refs delta => exact ⟨h.1, h.2.1, hscore.trans h.2.2⟩
  | done => exact ⟨hdel.trans h.1, hscore.trans h.2⟩

def BackAt.left : BackAt → Nat
  | .sum refs _ => refs.length + 1
  | .done => 0

/-- A level gets its dependencies from the level below. -/
theorem backLevel_total (hg : Simple g) (hc : Counted g s k levels m)
    (hd : m.deltas.length = g.numNodes) (hs : m.scores.length = g.numNodes)
    (hatDepth : m.atDepth = level) (hnd : level.Nodup)
    (hlevel : ∀ v ∈ level, v < g.numNodes ∧ Dist (IsEdge g) s i v)
    (hdel : ∀ v < g.numNodes, Dist (IsEdge g) s (i + 1) v → m.del v = dependencyOn g s v) :
    Total (.forEach backTasks Memory.atDepth fun u => (u, .sum (outRefs g u) 0)) m fun m' =>
      Leaves g level m m' ∧ ∀ u ∈ level, m'.del u = dependencyOn g s u
        ∧ m'.score u = m.score u + dependencyOn g s u := by
  let o : Outline backTasks Nat :=
    { tag := fun l => l.1
      inv := Leaves g level m
      asserts := fun l m' => l.1 ∈ level ∧ Tallied g s i m l m'
      left := fun l _ => l.2.left
      moves := by
        rintro ⟨u, pc⟩ m' hinv ⟨hu, hl⟩ hdone
        have hlt := (hlevel u hu).1
        cases pc with
        | sum refs delta =>
            cases refs with
            | nil =>
                have hstore := store_eq (hinv.deltas.symm ▸ hlt) (hinv.scores.symm ▸ hlt) delta
                exact ⟨_, _, congrArg (Option.map _) hstore⟩
            | cons r refs =>
                have hterm := hinv.term_eq hg hc hlevel hdel hu (hl.1 r List.mem_cons_self)
                exact ⟨_, _, congrArg (Option.map _) hterm⟩
        | done => cases hdone
      own := by
        rintro l m' l' m'' hinv ⟨hu, hl⟩ hnext
        obtain ⟨u, p, v, refs, delta, x, rfl, hx, rfl, rfl⟩ | ⟨u, delta, rfl, hstore, rfl⟩ :=
          back_next hnext
        · obtain ⟨hrefs, hsum, hscore⟩ := hl
          have hterm := hinv.term_eq hg hc hlevel hdel hu (hrefs (p, v) List.mem_cons_self)
          cases hx.symm.trans hterm
          refine ⟨hinv, ⟨hu, fun r hr => hrefs r (List.mem_cons_of_mem _ hr), ?_, hscore⟩, rfl,
            Nat.lt_succ_self _⟩
          rw [List.map_cons, List.sum_cons] at hsum
          rw [add_assoc]
          exact hsum
        · obtain ⟨-, hsum, hscore⟩ := hl
          rw [List.map_nil, List.sum_nil, add_zero] at hsum
          refine ⟨hinv.store hu hstore, ⟨hu, ?_, ?_⟩, rfl, Nat.zero_lt_one⟩
          · exact (del_store hstore u).trans ((if_pos rfl).trans hsum)
          · refine (score_store hstore u).trans ((if_pos rfl).trans ?_)
            rw [hsum, hscore]
      other := by
        rintro l l₁ m' l₁' m'' hinv ⟨hu, hl⟩ - htag hnext
        obtain ⟨-, -, -, -, -, -, -, -, -, rfl⟩ | ⟨w, delta, rfl, hstore, -⟩ := back_next hnext
        · exact ⟨⟨hu, hl⟩, Nat.le_refl _⟩
        · refine ⟨⟨hu, hl.congr ?_ ?_⟩, Nat.le_refl _⟩
          · rw [del_store hstore, if_neg htag]
          · rw [score_store hstore, if_neg htag] }
  refine o.forEach ?_ (Leaves.refl hd hs) ?_ ?_
  · rw [hatDepth]
    exact (List.map_id' level).symm ▸ hnd
  · intro u hu
    rw [hatDepth] at hu
    refine ⟨hu, fun _ hr => hr, ?_, rfl⟩
    rw [zero_add]
    exact sum_passed hg (hlevel u hu).2 (hlevel u hu).1
  · intro m' hinv hall
    refine ⟨hinv, fun u hu => ?_⟩
    obtain ⟨⟨w, pc⟩, htag, ⟨-, hl⟩, hdone⟩ := hall u (hatDepth.symm ▸ hu)
    have hw : w = u := htag
    have hpc : pc = .done := of_decide_eq_true hdone
    subst hw hpc
    exact hl

-- ========================================================== the way back

/-- The vertices at `depth_index[d]` are those of level `d - 1`. -/
theorem Counted.atDepth (hc : Counted g s k levels m) (h0 : 0 ≤ m.d) (hk : m.d ≤ k) :
    ∃ i : Nat, m.d ≤ i + 1 ∧ m.atDepth.Nodup
      ∧ (∀ v ∈ m.atDepth, (i : Int) = m.d - 1 ∧ v < g.numNodes ∧ Dist (IsEdge g) s i v)
      ∧ ∀ (j : Nat) v, (j : Int) = m.d - 1 → v < g.numNodes → Dist (IsEdge g) s j v →
        v ∈ m.atDepth := by
  have hindex : ∀ e, e < k + 1 → m.depthIndex.getD (e + 1) 0 = startOf levels e := by
    intro e he
    rw [hc.depthIndex, List.getD_cons_succ, List.getD_eq_getElem?_getD, List.getElem?_map,
      List.getElem?_range he]
    rfl
  unfold Memory.atDepth
  obtain ⟨e, he⟩ : ∃ e : Nat, m.d = e := ⟨m.d.toNat, by omega⟩
  rw [he, Int.toNat_natCast]
  rw [he] at hk
  cases e with
  | zero =>
      -- the extra entry: an empty level
      have hempty : m.queue.between (m.depthIndex.getD 0 0) (m.depthIndex.getD (0 + 1) 0) = [] := by
        rw [hindex 0 (by omega)]
        exact List.drop_eq_nil_of_le (by simp [startOf])
      rw [hempty]
      refine ⟨0, by omega, List.nodup_nil, fun v hv => absurd hv List.not_mem_nil, ?_⟩
      intro j v hj
      omega
  | succ i =>
      have hlt : i < levels.length := by
        rw [hc.length]
        omega
      have hi : levels[i]? = some levels[i] := List.getElem?_eq_getElem hlt
      obtain ⟨hnd, hmem⟩ := hc.isLevels i _ hi
      rw [hindex i (by omega), hindex (i + 1) (by omega), between_eq hc.shared hi]
      refine ⟨i, by omega, hnd, fun v hv => ⟨by omega, (hmem v).mp hv⟩, ?_⟩
      intro j v hj hv hdist
      have hji : j = i := by omega
      exact (hmem v).mpr ⟨hv, hji ▸ hdist⟩

/-- When the way back has come to `depth_index[d]`; `base` are the scores
before it began. -/
structure Backed (g : CSRGraph Nat) (s k : Nat) (levels : List (List Nat)) (base : Nat → ℚ)
    (m : Memory) : Prop where
  counted : Counted g s k levels m
  deltas : m.deltas.length = g.numNodes
  scores : m.scores.length = g.numNodes
  lower : -1 ≤ m.d
  upper : m.d ≤ k
  finished : ∀ (j : Nat) v, m.d ≤ j → v < g.numNodes → Dist (IsEdge g) s j v →
    m.del v = dependencyOn g s v ∧ m.score v = base v + dependencyOn g s v
  waiting : ∀ v < g.numNodes, (∀ j : Nat, m.d ≤ j → ¬ Dist (IsEdge g) s j v) →
    m.score v = base v

variable {base : Nat → ℚ}

/-- The way back has come one level up. -/
theorem Backed.next (h : Backed g s k levels base m) (h0 : 0 ≤ m.d) {i : Nat}
    (hmem : ∀ v ∈ m.atDepth, (i : Int) = m.d - 1 ∧ v < g.numNodes ∧ Dist (IsEdge g) s i v)
    (hall : ∀ (j : Nat) v, (j : Int) = m.d - 1 → v < g.numNodes → Dist (IsEdge g) s j v →
      v ∈ m.atDepth)
    (hl : Leaves g m.atDepth m m') (hlevel : ∀ u ∈ m.atDepth, m'.del u = dependencyOn g s u
      ∧ m'.score u = m.score u + dependencyOn g s u) :
    Backed g s k levels base { m' with d := m'.d - 1 } := by
  have hd : m'.d = m.d := by rw [hl.frame]
  have hc : Counted g s k levels m' := by
    have hcounts : m'.pathCounts = m.pathCounts := by rw [hl.frame]
    have hsucc : m'.succ = m.succ := by rw [hl.frame]
    have hqueue : m'.queue = m.queue := by rw [hl.frame]
    have hindex : m'.depthIndex = m.depthIndex := by rw [hl.frame]
    have h := h.counted
    refine ⟨hcounts ▸ h.pathCounts, hsucc ▸ h.succ, ?_, ?_, h.length, h.isLevels, h.below,
      hqueue ▸ h.shared, hindex ▸ h.depthIndex⟩
    · unfold Memory.cnt
      rw [hcounts]
      exact h.cnt
    · unfold Memory.bit
      rw [hsucc]
      exact h.bit
  constructor
  case counted => exact ⟨hc.1, hc.2, hc.3, hc.4, hc.5, hc.6, hc.7, hc.8, hc.9⟩
  case deltas => exact hl.deltas
  case scores => exact hl.scores
  case lower =>
    show -1 ≤ m'.d - 1
    omega
  case upper =>
    have := h.upper
    show m'.d - 1 ≤ k
    omega
  case finished =>
    intro j v hj hv hdist
    have hj : m'.d - 1 ≤ j := hj
    show m'.del v = _ ∧ m'.score v = _
    by_cases hin : v ∈ m.atDepth
    · obtain ⟨hdel, hscore⟩ := hlevel v hin
      refine ⟨hdel, ?_⟩
      rw [hscore, h.waiting v hv]
      intro j' hj' hdist'
      obtain ⟨hi, -, hdisti⟩ := hmem v hin
      have := hdist'.unique hdisti
      omega
    · have hjd : m.d ≤ j := by
        by_contra hlt
        exact hin (hall j v (by omega) hv hdist)
      rw [hl.del v hin, hl.score v hin]
      exact h.finished j v hjd hv hdist
  case waiting =>
    intro v hv hnone
    have hnone : ∀ j : Nat, m'.d - 1 ≤ j → ¬ Dist (IsEdge g) s j v := hnone
    show m'.score v = _
    have hin : v ∉ m.atDepth := by
      intro hin
      obtain ⟨hi, -, hdist⟩ := hmem v hin
      exact hnone i (by omega) hdist
    rw [hl.score v hin]
    exact h.waiting v hv fun j hj => hnone j (by omega)

/-- The way back adds every vertex's dependency to its score. -/
theorem back_total (hg : Simple g) (hc : Counted g s k levels m)
    (hs : m.scores.length = g.numNodes) :
    Total (back g) m fun m' => m'.scores.length = g.numNodes
      ∧ ∀ v < g.numNodes, m'.score v = m.score v + dependencyOn g s v := by
  have hlen : m.depthIndex.length = k + 2 := by
    rw [hc.depthIndex, List.length_cons, List.length_map, List.length_range]
  refine Total.seq (q := Backed g s k levels m.score) (total_act ⟨_, rfl⟩ ?_) fun m₁ h₁ => ?_
  · rintro m₁ rfl
    have hd : ((m.depthIndex.length : Int) - 2) = k := by omega
    constructor
    case counted => exact ⟨hc.1, hc.2, hc.3, hc.4, hc.5, hc.6, hc.7, hc.8, hc.9⟩
    case deltas => exact List.length_replicate
    case scores => exact hs
    case lower =>
      show -1 ≤ (m.depthIndex.length : Int) - 2
      omega
    case upper =>
      show (m.depthIndex.length : Int) - 2 ≤ k
      omega
    case finished =>
      -- nothing is that far
      intro j v hj hv hdist
      have hj : (m.depthIndex.length : Int) - 2 ≤ j := hj
      have := hc.below j v hv hdist
      omega
    case waiting => exact fun _ _ _ => rfl
  · refine total_loop (Backed g s k levels m.score) (fun m' => (m'.d + 1).toNat) ?_ ?_ h₁
    · intro m₂ h₂ hgo
      have h0 : 0 ≤ m₂.d := of_decide_eq_true hgo
      obtain ⟨i, hi, hnd, hmem, hall⟩ := h₂.counted.atDepth h0 h₂.upper
      have hdel : ∀ v < g.numNodes, Dist (IsEdge g) s (i + 1) v →
          m₂.del v = dependencyOn g s v :=
        fun v hv hdist => (h₂.finished (i + 1) v (by omega) hv hdist).1
      refine (backLevel_total hg h₂.counted h₂.deltas h₂.scores rfl hnd
        (fun v hv => (hmem v hv).2) hdel).seq fun m₃ ⟨hl, hlevel⟩ => total_act ⟨_, rfl⟩ ?_
      rintro m₄ rfl
      refine ⟨h₂.next h0 hmem hall hl hlevel, ?_⟩
      have hd : m₃.d = m₂.d := by rw [hl.frame]
      show (m₃.d - 1 + 1).toNat < _
      omega
    · intro m₂ h₂ hstop
      have hd : ¬ m₂.d ≥ 0 := of_decide_eq_false hstop
      have hlower := h₂.lower
      refine ⟨h₂.scores, fun v hv => ?_⟩
      by_cases hreach : ∃ j, Dist (IsEdge g) s j v
      · obtain ⟨j, hdist⟩ := hreach
        exact (h₂.finished j v (by omega) hv hdist).2
      · rw [h₂.waiting v hv fun j _ hdist => hreach ⟨j, hdist⟩, dependencyOn,
          dependency_unreachable, add_zero]
        intro j hwalk
        obtain ⟨i, -, hdist⟩ := hwalk.exists_dist
        exact hreach ⟨i, hdist⟩

-- ============================================================== Brandes

/-- A new iteration begins with everything but the scores reset. -/
theorem reset_total : Total (reset g) m fun m' => Reset g m' ∧ m'.scores = m.scores := by
  refine total_act ⟨_, rfl⟩ ?_
  rintro m' rfl
  exact ⟨⟨rfl, rfl, rfl, rfl⟩, rfl⟩

/-- An iteration adds the dependencies of one source. -/
theorem iteration_total (hg : Simple g) (hs : s < g.numNodes)
    (hlen : m.scores.length = g.numNodes) :
    Total (iteration g s) m fun m' => m'.scores.length = g.numNodes
      ∧ ∀ v < g.numNodes, m'.score v = m.score v + dependencyOn g s v := by
  refine reset_total.seq fun m₁ ⟨h₁, hs₁⟩ => ?_
  refine (pbfs_total hg hs h₁).seq fun m₂ ⟨⟨k, levels, h₂⟩, hs₂⟩ => ?_
  have hsame : m₂.scores = m.scores := hs₂.trans hs₁
  refine (back_total hg h₂ (hsame ▸ hlen)).mono fun m₃ ⟨hlen₃, hscore⟩ => ⟨hlen₃, fun v hv => ?_⟩
  rw [hscore v hv, Memory.score, hsame, Memory.score]

/-- The kernel adds up the dependencies of all sources. -/
theorem brandes_total (hg : Simple g) {sources : List Nat} (hs : ∀ s ∈ sources, s < g.numNodes) :
    Total (brandes g sources) m fun m' => m'.scores.length = g.numNodes
      ∧ ∀ v < g.numNodes, m'.score v = centrality g sources v := by
  let inv (i : Nat) (m' : Memory) : Prop := m'.scores.length = g.numNodes
    ∧ ∀ v < g.numNodes, m'.score v = ((sources.take i).map fun s => dependencyOn g s v).sum
  refine Total.seq (q := inv 0) (total_act ⟨_, rfl⟩ ?_) fun m₁ h₁ => ?_
  · rintro m₁ rfl
    refine ⟨List.length_replicate, fun v hv => ?_⟩
    show (List.replicate g.numNodes 0).getD v 0 = _
    rw [getD_replicate, ite_self, List.take_zero, List.map_nil, List.sum_nil]
  · refine (total_seqs _ inv ?_ h₁).mono ?_
    · intro i p hp m₂ h₂
      rw [List.getElem?_map, Option.map_eq_some_iff] at hp
      obtain ⟨s, hsi, rfl⟩ := hp
      obtain ⟨hi, rfl⟩ := List.getElem?_eq_some_iff.mp hsi
      refine (iteration_total hg (hs _ (List.getElem_mem hi)) h₂.1).mono ?_
      rintro m₃ ⟨hlen, hscore⟩
      refine ⟨hlen, fun v hv => ?_⟩
      rw [hscore v hv, h₂.2 v hv, List.take_succ_eq_append_getElem hi, List.map_append,
        List.sum_append, List.map_singleton, List.sum_singleton]
    · rintro m₂ ⟨hlen, hscore⟩
      refine ⟨hlen, fun v hv => ?_⟩
      rw [hscore v hv, List.length_map, List.take_length, centrality_eq]

/-- Whatever the memory before, the picked sources, the division of the
levels and the order of all steps: the program ends, the scores are the
sums of the dependencies, and `PBFS` leaves the numbers of the shortest
paths. -/
theorem brandes_scores (hg : Simple g) (sources : List Nat)
    (hs : ∀ s ∈ sources, s < g.numNodes) (m : Memory) :
    Ends (fun m' => ∀ v < g.numNodes, m'.scores[v]? = some (centrality g sources v))
        ([brandes g sources], m)
      ∧ ∀ s < g.numNodes, Ends (fun m' => ∀ t < g.numNodes,
          m'.pathCounts[t]? = some (sigma (IsEdge g) s t : ℚ))
        ([.seq (reset g) (pbfs g s)], m) := by
  refine ⟨(brandes_total hg hs).ends.mono ?_, fun s hs => Total.ends ?_⟩
  · rintro m' ⟨hlen, hscore⟩ v hv
    rw [getElem?_getD (hlen ▸ hv) 0]
    exact congrArg some (hscore v hv)
  · refine reset_total.seq fun m₁ ⟨h₁, _⟩ => (pbfs_total hg hs h₁).mono ?_
    rintro m₂ ⟨⟨k, levels, h₂⟩, -⟩ t ht
    rw [getElem?_getD (h₂.pathCounts ▸ ht) 0]
    exact congrArg some (h₂.cnt t ht)

/-- A path of three vertices, undirected. -/
def threePath : CSRGraph Nat :=
  ⟨false, 3, 2, ⟨[0, 1, 3, 4], [some 1, some 0, some 2, some 1]⟩,
    ⟨[0, 1, 3, 4], [some 1, some 0, some 2, some 1]⟩⟩

theorem threePath_simple : Simple threePath where
  outNeigh
    | 0, _ => ⟨[1], by decide, by decide⟩
    | 1, _ => ⟨[0, 2], by decide, by decide⟩
    | 2, _ => ⟨[1], by decide, by decide⟩
  nodup := by decide
  loopless := by decide
  symm _ := by decide
  numEdges := ⟨4, by decide, by decide⟩

/-- The scores on the path, from both of its ends. -/
theorem brandes_scores_threePath : Simple threePath ∧
    Ends (fun m' => ∀ v < 3, m'.scores[v]? = some (centrality threePath [0, 2] v))
      ([brandes threePath [0, 2]], ⟨[], [], [], [], .reset, 0, [], [], 0⟩) :=
  ⟨threePath_simple, (brandes_scores threePath_simple [0, 2] (by decide) _).1⟩

end ThesisBench.Gapbs.Brandes
