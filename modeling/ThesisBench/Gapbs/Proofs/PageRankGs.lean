/-
The scores of `PageRankPullGS` and its verifier.

While an iteration runs, a contribution is that of the score before it or
of the score there is now, and a score changes once (`Reads`). So in
whatever order the vertices come, each of the new scores is pulled from a
mixture of old and new ones (`Mixed`), and one more iteration by the
verifier changes them by no more than the damped `error` of the loop.
-/
import ThesisBench.Gapbs.Proofs.PrVerifier

namespace ThesisBench.Gapbs.PageRank

open Slots Parallel

variable {g : CSRGraph Nat} {s s' : Nat → Rat} {m m' : Memory} {u v n : Nat} {total : Rat}
variable {vs : List Nat}

-- ============================================================ the reads

/-- The score of `v` in the memory. -/
def Memory.score (m : Memory) (v : Nat) : Rat := m.scores.getD v 0

/-- `r` has been contributed by `v`, whose score was `s v` and is `t v`. -/
def Given (g : CSRGraph Nat) (s t : Nat → Rat) (v : Nat) (r : Rat) : Prop :=
  r = s v / g.outDegree v ∨ r = t v / g.outDegree v

/-- The contributions of `vs` add up to `total`. -/
def Reads (g : CSRGraph Nat) (s t : Nat → Rat) (vs : List Nat) (total : Rat) : Prop :=
  ∃ rs : List Rat, List.Forall₂ (Given g s t) vs rs ∧ total = rs.sum

theorem reads_nil : Reads g s s' [] 0 := ⟨[], .nil, List.sum_nil.symm⟩

theorem Reads.snoc (h : Reads g s s' vs total) {c : Rat} (hc : Given g s s' v c) :
    Reads g s s' (vs ++ [v]) (total + c) := by
  obtain ⟨rs, hrs, rfl⟩ := h
  refine ⟨rs ++ [c], ?_, by rw [List.sum_append, List.sum_singleton]⟩
  exact List.rel_append hrs (.cons hc .nil)

/-- A score that changes was `s v` before. -/
theorem Reads.congr {t t' : Nat → Rat} (h : Reads g s t vs total)
    (ht : ∀ v ∈ vs, t' v = t v ∨ t v = s v) : Reads g s t' vs total := by
  obtain ⟨rs, hrs, rfl⟩ := h
  refine ⟨rs, ?_, rfl⟩
  induction hrs with
  | nil => exact .nil
  | @cons v r vs rs hr _ ih =>
      refine .cons ?_ (ih fun w hw => ht w (List.mem_cons_of_mem _ hw))
      rcases hr with hr | hr
      · exact .inl hr
      · rcases ht v List.mem_cons_self with heq | heq
        · exact .inr (heq ▸ hr)
        · exact .inl (heq ▸ hr)

/-- New scores, pulled from a mixture of old and new ones. -/
def Mixed (g : CSRGraph Nat) (s s' : Nat → Rat) : Prop :=
  ∀ u < g.numNodes, ∃ total, Reads g s s' (g.ins u) total ∧ s' u = baseScore g + kDamp * total

/-- What a mixture misses of the new contributions. -/
theorem Reads.miss (h : Reads g s s' vs total) (hdeg : ∀ v ∈ vs, 0 < g.outDegree v) :
    |(vs.map fun v => s' v / g.outDegree v).sum - total|
      ≤ (vs.map fun v => |s' v - s v| / g.outDegree v).sum := by
  obtain ⟨rs, hrs, rfl⟩ := h
  induction hrs with
  | nil => rw [List.map_nil, List.sum_nil, List.map_nil, List.sum_nil, sub_zero, abs_zero]
  | @cons v r vs rs hr _ ih =>
      have ih := ih fun w hw => hdeg w (List.mem_cons_of_mem _ hw)
      have hpos : (0 : Rat) < g.outDegree v := by exact_mod_cast hdeg v List.mem_cons_self
      have hone : |s' v / g.outDegree v - r| ≤ |s' v - s v| / g.outDegree v := by
        rcases hr with rfl | rfl
        · rw [← sub_div, abs_div, abs_of_pos hpos]
        · rw [sub_self, abs_zero]
          exact div_nonneg (abs_nonneg _) hpos.le
      rw [List.map_cons, List.sum_cons, List.sum_cons, List.map_cons, List.sum_cons,
        add_sub_add_comm]
      exact (abs_add_le _ _).trans (add_le_add hone ih)

/-- The next change is at most the last one, damped. -/
theorem Mixed.change_le (hg : Transposed g) (h : Mixed g s s') :
    change g s' ≤ kDamp * ∑ v ∈ Finset.range g.numNodes, |s' v - s v| := by
  have hdamp : (0 : Rat) ≤ kDamp := by unfold kDamp; norm_num
  have hone : ∀ u < g.numNodes, |nextScore g s' u - s' u|
      ≤ kDamp * ((g.ins u).map fun v => |s' v - s v| / g.outDegree v).sum := by
    intro u hu
    obtain ⟨total, hreads, hscore⟩ := h u hu
    have hmiss := hreads.miss fun v hv => hg.outDegree_pos hu hv
    rw [nextScore, hscore, add_sub_add_left_eq_sub, ← mul_sub, abs_mul, abs_of_nonneg hdamp]
    exact mul_le_mul_of_nonneg_left hmiss hdamp
  rw [change, sum_map_range]
  calc ∑ u ∈ Finset.range g.numNodes, |nextScore g s' u - s' u|
      ≤ ∑ u ∈ Finset.range g.numNodes,
          kDamp * ((g.ins u).map fun v => |s' v - s v| / g.outDegree v).sum :=
        Finset.sum_le_sum fun u hu => hone u (Finset.mem_range.mp hu)
    _ = kDamp * ∑ u ∈ Finset.range g.numNodes,
          ((g.ins u).map fun v => |s' v - s v| / g.outDegree v).sum := (Finset.mul_sum ..).symm
    _ ≤ kDamp * ∑ v ∈ Finset.range g.numNodes, |s' v - s v| :=
        mul_le_mul_of_nonneg_left (sum_pulled_le hg fun v => s' v - s v) hdamp

-- ========================================================== an iteration

/-- What can be read while an iteration runs, of `n` vertices that start
it with the scores `s`. -/
structure Mid (g : CSRGraph Nat) (s : Nat → Rat) (m : Memory) : Prop where
  scores : m.scores.length = g.numNodes
  outgoingContrib : m.outgoingContrib.length = g.numNodes
  changes : m.changes.length = g.numNodes
  given : ∀ v < g.numNodes, 0 < g.outDegree v →
    ∃ c, m.outgoingContrib[v]? = some (some c) ∧ Given g s m.score v c
  base_le : ∀ v < g.numNodes, baseScore g ≤ m.score v

/-- The vertex has its new score. -/
def Settled (g : CSRGraph Nat) (s : Nat → Rat) (u : Nat) (m : Memory) : Prop :=
  m.changes[u]? = some |m.score u - s u|
    ∧ ∃ total, Reads g s m.score (g.ins u) total ∧ m.score u = baseScore g + kDamp * total

/-- What the vertex `u` knows where its iteration stands. -/
def Asserts (g : CSRGraph Nat) (s : Nat → Rat) (u : Nat) : GsAt → Memory → Prop
  | .next, m => m.score u = s u
  | .adding total vs, m =>
      m.score u = s u ∧ ∃ pre, g.ins u = pre ++ vs ∧ Reads g s m.score pre total
  | .scored, m => Settled g s u m
  | .done, m => Settled g s u m
      ∧ (0 < g.outDegree u → m.outgoingContrib[u]? = some (some (m.score u / g.outDegree u)))

theorem Mid.get (h : Mid g s m) (hv : v < g.numNodes) : m.scores[v]? = some (m.score v) := by
  rw [Memory.score, List.getD_eq_getElem?_getD, List.getElem?_eq_getElem (h.scores ▸ hv),
    Option.getD_some]

theorem score_set (m : Memory) (hu : u < m.scores.length) (x : Rat) (a : List Rat)
    (c : List (Option Rat)) :
    ({ m with scores := m.scores.set u x, changes := a, outgoingContrib := c } : Memory).score
      = Function.update m.score u x := by
  funext v
  rw [Memory.score, getD_set hu]
  by_cases hv : v = u
  · rw [hv, Function.update_self, if_pos rfl]
  · rw [Function.update_of_ne hv, if_neg hv]
    rfl

/-- Contributions of scores above the bound are not negative. -/
theorem Reads.nonneg (hg : Transposed g) (hn : 1 ≤ g.numNodes)
    (hs : ∀ v < g.numNodes, baseScore g ≤ s v) (hs' : ∀ v < g.numNodes, baseScore g ≤ s' v)
    (hu : u < g.numNodes) (h : Reads g s s' (g.ins u) total) : 0 ≤ total := by
  obtain ⟨rs, hrs, rfl⟩ := h
  have hbase := (baseScore_pos hn).le
  have hall : ∀ v ∈ g.ins u, 0 ≤ s v ∧ 0 ≤ s' v ∧ (0 : Rat) ≤ g.outDegree v := by
    intro v hv
    have hlt := hg.ins_lt hu hv
    exact ⟨hbase.trans (hs v hlt), hbase.trans (hs' v hlt),
      by exact_mod_cast (hg.outDegree_pos hu hv).le⟩
  generalize g.ins u = vs at hrs hall
  induction hrs with
  | nil => exact le_of_eq List.sum_nil.symm
  | @cons v r vs rs hr _ ih =>
      obtain ⟨hold, hnew, hdeg⟩ := hall v List.mem_cons_self
      rw [List.sum_cons]
      refine add_nonneg ?_ (ih fun w hw => hall w (List.mem_cons_of_mem _ hw))
      rcases hr with rfl | rfl
      · exact div_nonneg hold hdeg
      · exact div_nonneg hnew hdeg

/-- What the iteration for `u` has left to do. -/
def gsLeft (g : CSRGraph Nat) (u : Nat) : GsAt → Nat
  | .next => (g.ins u).length + 3
  | .adding _ vs => vs.length + 2
  | .scored => 1
  | .done => 0

/-- What a move for `u` does: what it leaves of the memory, and where. -/
structure Moved (g : CSRGraph Nat) (s : Nat → Rat) (u : Nat) (m : Memory) (a : GsAt)
    (m' : Memory) (a' : GsAt) : Prop where
  mid : Mid g s m'
  asserts : Asserts g s u a' m'
  left : gsLeft g u a' < gsLeft g u a
  iter : m'.iter = m.iter
  stop : m'.stop = m.stop
  score : ∀ v, v ≠ u → m'.score v = m.score v
  changes : ∀ v, v ≠ u → m'.changes[v]? = m.changes[v]?
  contrib : ∀ v, v ≠ u → m'.outgoingContrib[v]? = m.outgoingContrib[v]?
  once : m'.score u = m.score u ∨ m.score u = s u

/-- What was read counts as read after another vertex's move. -/
theorem Moved.reads {a a' : GsAt} (h : Moved g s u m a m' a') {vs : List Nat}
    (hreads : Reads g s m.score vs total) : Reads g s m'.score vs total := by
  refine hreads.congr fun v _ => ?_
  by_cases hv : v = u
  · exact hv ▸ h.once
  · exact .inl (h.score v hv)

/-- What another vertex knows stays true. -/
theorem Moved.other {a a' b : GsAt} (h : Moved g s u m a m' a') (hv : v ≠ u)
    (hb : Asserts g s v b m) : Asserts g s v b m' := by
  have hsettled : Settled g s v m → Settled g s v m' := by
    rintro ⟨hchange, total, hreads, hscore⟩
    refine ⟨?_, total, h.reads hreads, ?_⟩
    · rw [h.changes v hv, h.score v hv]
      exact hchange
    · rw [h.score v hv]
      exact hscore
  cases b with
  | next => exact (h.score v hv).trans hb
  | adding total vs =>
      obtain ⟨hold, pre, hpre, hreads⟩ := hb
      exact ⟨(h.score v hv).trans hold, pre, hpre, h.reads hreads⟩
  | scored => exact hsettled hb
  | done =>
      refine ⟨hsettled hb.1, fun hdeg => ?_⟩
      rw [h.contrib v hv, h.score v hv]
      exact hb.2 hdeg

/-- The new score and the change. -/
theorem moved_setScore (hg : Transposed g) (hn : 1 ≤ g.numNodes)
    (hs : ∀ v < g.numNodes, baseScore g ≤ s v) (h : Mid g s m) (hu : u < g.numNodes)
    (ha : Asserts g s u (.adding total []) m) :
    ∃ m', m.setScore g u total = some m' ∧ Moved g s u m (.adding total []) m' .scored := by
  obtain ⟨hold, pre, hpre, hreads⟩ := ha
  rw [List.append_nil] at hpre
  subst hpre
  let x := baseScore g + kDamp * total
  have hset : m.setScore g u total = some { m with
      scores := m.scores.set u x
      changes := m.changes.set u |x - s u| } := by
    rw [Memory.setScore, h.get hu, Option.bind_eq_bind, Option.bind_some]
    dsimp only
    rw [write_natCast (h.scores ▸ hu), Option.bind_eq_bind, Option.bind_some,
      write_natCast (h.changes ▸ hu), hold]
    rfl
  have hscore := score_set m (h.scores ▸ hu) x (m.changes.set u |x - s u|) m.outgoingContrib
  have hnext : ∀ v, v ≠ u → Function.update m.score u x v = m.score v :=
    fun v hv => Function.update_of_ne hv _ _
  have hkeep : ∀ v, Function.update m.score u x v = m.score v ∨ m.score v = s v := by
    intro v
    by_cases hv : v = u
    · exact .inr (hv ▸ hold)
    · exact .inl (hnext v hv)
  have hnonneg := hreads.nonneg hg hn hs h.base_le hu
  have hdamp : (0 : Rat) ≤ kDamp := by unfold kDamp; norm_num
  refine ⟨_, hset, ?_, ?_, ?_, rfl, rfl, ?_, ?_, fun _ _ => rfl, .inr hold⟩
  · refine ⟨List.length_set.trans h.scores, h.outgoingContrib, List.length_set.trans h.changes,
      fun v hv hdeg => ?_, fun v hv => ?_⟩
    · obtain ⟨c, hc, hgiven⟩ := h.given v hv hdeg
      refine ⟨c, hc, ?_⟩
      rw [hscore]
      rcases hgiven with hgiven | hgiven
      · exact .inl hgiven
      · rcases hkeep v with heq | heq
        · exact .inr (heq.symm ▸ hgiven)
        · exact .inl (heq ▸ hgiven)
    · rw [hscore]
      by_cases hvu : v = u
      · rw [hvu, Function.update_self]
        exact le_add_of_nonneg_right (mul_nonneg hdamp hnonneg)
      · rw [hnext v hvu]
        exact h.base_le v hv
  · refine ⟨?_, total, ?_, ?_⟩
    · rw [hscore, Function.update_self]
      exact List.getElem?_set_self (h.changes ▸ hu)
    · rw [hscore]
      exact hreads.congr fun v _ => hkeep v
    · rw [hscore, Function.update_self]
  · exact Nat.lt_succ_self 1
  · intro v hv
    rw [hscore]
    exact hnext v hv
  · intro v hv
    exact List.getElem?_set_ne (Ne.symm hv)

/-- The new contribution. -/
theorem moved_scored (h : Mid g s m) (hu : u < g.numNodes) (ha : Asserts g s u .scored m)
    (byZero : Nat → Nat → Rat) :
    ∃ m', gsNext g byZero u .scored m = some (.done, m') ∧ Moved g s u m .scored m' .done := by
  have hstore : gsNext g byZero u .scored m = some (.done, { m with
      outgoingContrib := m.outgoingContrib.set u
        (some (contrib g (byZero (m.iter + 1) u) (m.score u) u)) }) := by
    rw [gsNext, h.get hu, Option.bind_eq_bind, Option.bind_some,
      write_natCast (h.outgoingContrib ▸ hu)]
    rfl
  have hself : 0 < g.outDegree u →
      (m.outgoingContrib.set u (some (contrib g (byZero (m.iter + 1) u) (m.score u) u)))[u]?
        = some (some (m.score u / g.outDegree u)) := by
    intro hdeg
    rw [List.getElem?_set_self (h.outgoingContrib ▸ hu), contrib, if_neg (by omega)]
  refine ⟨_, hstore, ?_, ⟨ha, hself⟩, Nat.zero_lt_one, rfl, rfl, fun _ _ => rfl, fun _ _ => rfl,
    fun v hv => List.getElem?_set_ne (Ne.symm hv), .inl rfl⟩
  refine ⟨h.scores, List.length_set.trans h.outgoingContrib, h.changes, fun v hv hdeg => ?_,
    h.base_le⟩
  by_cases hvu : v = u
  · subst hvu
    exact ⟨_, hself hdeg, .inr rfl⟩
  · obtain ⟨c, hc, hgiven⟩ := h.given v hv hdeg
    exact ⟨c, (List.getElem?_set_ne (Ne.symm hvu)).trans hc, hgiven⟩

/-- Every move, wherever the iteration stands. -/
theorem gsNext_moved (hg : Transposed g) (hn : 1 ≤ g.numNodes)
    (hs : ∀ v < g.numNodes, baseScore g ≤ s v) (byZero : Nat → Nat → Rat) (h : Mid g s m)
    (hu : u < g.numNodes) {a : GsAt} (ha : Asserts g s u a m) (hdone : a ≠ .done) :
    ∃ a' m', gsNext g byZero u a m = some (a', m') ∧ Moved g s u m a m' a' := by
  cases a with
  | next =>
      obtain ⟨l, hl, -⟩ := hg.inNeigh u hu
      have hins : g.ins u = l := by rw [CSRGraph.ins, hl, Option.getD_some]
      refine ⟨.adding 0 l, m, by rw [gsNext, hl, Option.map_some], h, ?_, ?_, rfl, rfl,
        fun _ _ => rfl, fun _ _ => rfl, fun _ _ => rfl, .inl rfl⟩
      · exact ⟨ha, [], hins, reads_nil⟩
      · rw [gsLeft, gsLeft, hins]
        omega
  | adding total vs =>
      cases vs with
      | nil =>
          obtain ⟨m', hm', hmoved⟩ := moved_setScore hg hn hs h hu ha
          exact ⟨.scored, m', by rw [gsNext, hm', Option.map_some], hmoved⟩
      | cons v vs =>
          obtain ⟨hold, pre, hpre, hreads⟩ := ha
          have hmem : v ∈ g.ins u := hpre ▸ List.mem_append_right _ List.mem_cons_self
          obtain ⟨c, hc, hgiven⟩ := h.given v (hg.ins_lt hu hmem) (hg.outDegree_pos hu hmem)
          have hfetch : fetch m.outgoingContrib v = some c := by
            rw [fetch_natCast, hc]
            rfl
          refine ⟨.adding (total + c) vs, m, by rw [gsNext, hfetch, Option.map_some], h, ?_, ?_,
            rfl, rfl, fun _ _ => rfl, fun _ _ => rfl, fun _ _ => rfl, .inl rfl⟩
          · refine ⟨hold, pre ++ [v], ?_, hreads.snoc hgiven⟩
            rw [List.append_assoc]
            exact hpre
          · rw [gsLeft, gsLeft, List.length_cons]
            omega
  | scored =>
      obtain ⟨m', hm', hmoved⟩ := moved_scored h hu ha byZero
      exact ⟨.done, m', hm', hmoved⟩
  | done => exact absurd rfl hdone

/-- Between the iterations: the scores are `s` and every contribution is
that of its score. -/
structure Ready (g : CSRGraph Nat) (s : Nat → Rat) (m : Memory) : Prop where
  scores : m.scores = (List.range g.numNodes).map s
  outgoingContrib : m.outgoingContrib.length = g.numNodes
  changes : m.changes.length = g.numNodes
  contrib : ∀ v < g.numNodes, 0 < g.outDegree v →
    m.outgoingContrib[v]? = some (some (s v / g.outDegree v))
  base_le : ∀ v < g.numNodes, baseScore g ≤ s v

theorem Ready.score (h : Ready g s m) (hv : v < g.numNodes) : m.score v = s v := by
  rw [Memory.score, h.scores, getD_map_range s hv]

/-- An iteration begins with nothing changed. -/
theorem Ready.mid (h : Ready g s m) : Mid g s m where
  scores := by rw [h.scores, List.length_map, List.length_range]
  outgoingContrib := h.outgoingContrib
  changes := h.changes
  given v hv hdeg := ⟨_, h.contrib v hv hdeg, .inl rfl⟩
  base_le v hv := h.score hv ▸ h.base_le v hv

/-- The loop over the vertices, whatever the order of its steps. -/
theorem gsTasks_total (hg : Transposed g) (hn : 1 ≤ g.numNodes) (h : Ready g s m)
    (byZero : Nat → Nat → Rat) :
    Total (.parallelFor (gsTasks g byZero) g.numNodes fun u => (u, .next)) m fun m' =>
      ∃ s', Ready g s' m' ∧ Mixed g s s'
        ∧ m'.changes = ((List.range g.numNodes).map fun u => |s' u - s u|)
        ∧ m'.iter = m.iter ∧ m'.stop = m.stop := by
  have hsplit : ∀ {l : Nat × GsAt} {m₁ : Memory} {l' m₂}, Mid g s m₁ →
      l.1 < g.numNodes ∧ Asserts g s l.1 l.2 m₁ →
      (gsTasks g byZero).next l m₁ = some (l', m₂) →
      l'.1 = l.1 ∧ Moved g s l.1 m₁ l.2 m₂ l'.2 := by
    rintro ⟨u, a⟩ m₁ l' m₂ hmid ⟨hu, ha⟩ hnext
    obtain ⟨⟨a', m₃⟩, hstep, heq⟩ := Option.map_eq_some_iff.mp hnext
    cases heq
    have hdone : a ≠ .done := by
      rintro rfl
      cases hstep
    obtain ⟨a'', m₄, hstep', hmoved⟩ := gsNext_moved hg hn h.base_le byZero hmid hu ha hdone
    cases hstep.symm.trans hstep'
    exact ⟨rfl, hmoved⟩
  let o : Outline (gsTasks g byZero) Nat :=
    { tag := fun l => l.1
      inv := fun m' => Mid g s m' ∧ m'.iter = m.iter ∧ m'.stop = m.stop
      asserts := fun l m' => l.1 < g.numNodes ∧ Asserts g s l.1 l.2 m'
      left := fun l _ => gsLeft g l.1 l.2
      moves := by
        rintro ⟨u, a⟩ m₁ ⟨hmid, -⟩ ⟨hu, ha⟩ hdone
        obtain ⟨a', m', hstep, -⟩ := gsNext_moved hg hn h.base_le byZero hmid hu ha
          (of_decide_eq_false hdone)
        exact ⟨(u, a'), m', Option.map_eq_some_iff.mpr ⟨(a', m'), hstep, rfl⟩⟩
      own := by
        rintro l m₁ ⟨u', a'⟩ m' ⟨hmid, hiter, hstop⟩ ha hnext
        obtain ⟨rfl, hmoved⟩ := hsplit hmid ha hnext
        exact ⟨⟨hmoved.mid, hmoved.iter.trans hiter, hmoved.stop.trans hstop⟩,
          ⟨ha.1, hmoved.asserts⟩, rfl, hmoved.left⟩
      other := by
        rintro l k m₁ k' m' ⟨hmid, -⟩ ha hb htag hnext
        obtain ⟨-, hmoved⟩ := hsplit hmid hb hnext
        exact ⟨⟨ha.1, hmoved.other htag ha.2⟩, Nat.le_refl _⟩ }
  refine o.parallelFor (fun _ => rfl) ⟨h.mid, rfl, rfl⟩ (fun u hu => ⟨hu, h.score hu⟩) ?_
  rintro m' ⟨hmid, hiter, hstop⟩ hall
  have hdone : ∀ u < g.numNodes, Asserts g s u .done m' := by
    intro u hu
    obtain ⟨⟨u', a⟩, rfl, ⟨-, ha⟩, hdone⟩ := hall u hu
    rwa [of_decide_eq_true hdone] at ha
  refine ⟨m'.score, ⟨eq_map_range hmid.scores fun v hv => hmid.get hv, hmid.outgoingContrib,
    hmid.changes, fun v hv => (hdone v hv).2, hmid.base_le⟩, fun u hu => (hdone u hu).1.2,
    eq_map_range hmid.changes fun u hu => (hdone u hu).1.1, hiter, hstop⟩

/-- An iteration that stops leaves scores that the verifier hardly
changes. -/
theorem gsIteration_total (hg : Transposed g) (hn : 1 ≤ g.numNodes) (h : Ready g s m)
    (epsilon : Rat) (byZero : Nat → Nat → Rat) :
    Total (gsIteration g epsilon byZero) m fun m' => ∃ s', Ready g s' m'
      ∧ (m'.stop = true ∧ change g s' < epsilon ∨ m'.stop = m.stop ∧ m'.iter = m.iter + 1) := by
  refine (gsTasks_total hg hn h byZero).seq ?_
  rintro m₁ ⟨s', h', hmixed, hchanges, hiter, hstop⟩
  refine Total.seq (q := fun m₂ => m₂ = { m₁ with error := m₁.changes.sum })
    (total_act ⟨_, rfl⟩ fun _ h => h) ?_
  rintro m₂ rfl
  refine total_act ⟨_, rfl⟩ ?_
  rintro m₃ rfl
  split
  case isTrue hlt =>
    refine ⟨s', ⟨h'.scores, h'.outgoingContrib, h'.changes, h'.contrib, h'.base_le⟩,
      .inl ⟨rfl, ?_⟩⟩
    have hlt : m₁.changes.sum < epsilon := hlt
    rw [hchanges, sum_map_range] at hlt
    have hle := hmixed.change_le hg
    have hnonneg : 0 ≤ ∑ v ∈ Finset.range g.numNodes, |s' v - s v| :=
      Finset.sum_nonneg fun _ _ => abs_nonneg _
    unfold kDamp at hle
    linarith
  case isFalse =>
    exact ⟨s', ⟨h'.scores, h'.outgoingContrib, h'.changes, h'.contrib, h'.base_le⟩,
      .inr ⟨hstop, congrArg (· + 1) hiter⟩⟩

-- ============================================================ the result

/-- The first loop writes the initial contributions. -/
theorem initContribs_total (hn : 1 ≤ g.numNodes) (byZero : Nat → Nat → Rat) :
    Total (.parallelFor (once (initContribStep g byZero)) g.numNodes fun n => (n, false)) (start g)
      fun m' => Ready g (fun _ => initScore g) m' ∧ m'.iter = 0 ∧ m'.stop = false := by
  have hstep : ∀ {c : List (Option Rat)} {v : Nat}, c.length = g.numNodes → v < g.numNodes →
      initContribStep g byZero v { start g with outgoingContrib := c }
        = some { start g with
            outgoingContrib := c.set v (some (contrib g (byZero 0 v) (initScore g) v)) } := by
    intro c v hc hv
    rw [initContribStep, write_natCast (hc ▸ hv)]
    rfl
  refine total_once
    (fun m' => ∃ c, c.length = g.numNodes ∧ m' = { start g with outgoingContrib := c })
    (fun v _ => v < g.numNodes)
    (fun v m' => m'.outgoingContrib[v]? = some (some (contrib g (byZero 0 v) (initScore g) v)))
    ?_ ?_ List.nodup_range ⟨_, List.length_replicate, rfl⟩
    (fun v hv => List.mem_range.mp hv) ?_
  · rintro v m' ⟨c, hc, rfl⟩ hv
    exact ⟨_, hstep hc hv, ⟨_, List.length_set.trans hc, rfl⟩, List.getElem?_set_self (hc ▸ hv)⟩
  · rintro v w m' m'' hne ⟨c, hc, rfl⟩ hw hs
    rw [hstep hc hw] at hs
    cases hs
    exact ⟨id, fun hv => (List.getElem?_set_ne (Ne.symm hne)).trans hv⟩
  · rintro m' ⟨c, hc, rfl⟩ hall
    refine ⟨⟨?_, hc, List.length_replicate, fun v hv hdeg => ?_,
      (good_init hn).base_le⟩, rfl, rfl⟩
    · exact (List.map_const' ..).symm ▸ by rw [List.length_range]; rfl
    · rw [hall v (List.mem_range.mpr hv), contrib, if_neg (by omega)]

/-- Every run ends, whatever each read of a contribution finds while others
write them, with scores that are at least the base score; and if it
stopped for the tolerance, the verifier accepts them for the same one. -/
theorem pageRankPullGS_verified (g : CSRGraph Nat) (hn : 1 ≤ g.numNodes) (hg : Transposed g)
    (maxIters : Int) (epsilon : Rat) (byZero : Nat → Nat → Rat) (byZero' : Nat → Rat) :
    Ends (fun m => m.scores.length = g.numNodes
        ∧ (∀ x ∈ m.scores, (1 - kDamp) / g.numNodes ≤ x)
        ∧ (m.stop = true → prVerifier g byZero' m.scores epsilon = some true))
      ([pageRankPullGS g maxIters epsilon byZero], start g) := by
  refine Total.ends ((initContribs_total hn byZero).seq ?_)
  rintro m₀ ⟨h₀, -, hstop₀⟩
  refine total_loop
    (fun m => ∃ s, Ready g s m ∧ (m.stop = true → change g s < epsilon))
    (fun m => if m.stop then 0 else (maxIters - m.iter).toNat) ?_ ?_ ?_
  · rintro m ⟨s, h, -⟩ hb
    rw [Bool.and_eq_true, Bool.not_eq_true', decide_eq_true_eq] at hb
    obtain ⟨hstop, hlt⟩ := hb
    refine (gsIteration_total hg hn h epsilon byZero).mono ?_
    rintro m' ⟨s', h', ⟨hstop', hchange⟩ | ⟨hstop', hiter⟩⟩
    · refine ⟨⟨s', h', fun _ => hchange⟩, ?_⟩
      rw [hstop', hstop]
      show 0 < (maxIters - m.iter).toNat
      omega
    · rw [hstop] at hstop'
      refine ⟨⟨s', h', fun htrue => ?_⟩, ?_⟩
      · rw [hstop'] at htrue
        cases htrue
      · rw [hstop', hstop, hiter]
        show (maxIters - ((m.iter + 1 : Nat) : Int)).toNat < (maxIters - m.iter).toNat
        omega
  · rintro m ⟨s, h, hstop⟩ -
    refine ⟨by rw [h.scores, List.length_map, List.length_range], fun x hx => ?_, fun hs => ?_⟩
    · rw [h.scores] at hx
      obtain ⟨v, hv, rfl⟩ := List.mem_map.mp hx
      exact h.base_le v (List.mem_range.mp hv)
    · rw [h.scores, prVerifier_eq hg byZero' s epsilon]
      exact congrArg some (decide_eq_true (hstop hs))
  · refine ⟨_, h₀, fun htrue => ?_⟩
    rw [hstop₀] at htrue
    cases htrue

/-- The kernel and the verifier on one edge and a third vertex. -/
theorem pageRankPullGS_verified_arc :
    Ends (fun m => m.scores.length = 3
        ∧ (∀ x ∈ m.scores, (1 - kDamp) / (3 : Nat) ≤ x)
        ∧ (m.stop = true → prVerifier Bfs.arc (fun _ => 0) m.scores (1 / 10) = some true))
      ([pageRankPullGS Bfs.arc 20 (1 / 10) fun _ _ => 0], start Bfs.arc) :=
  pageRankPullGS_verified Bfs.arc (by decide) arc_transposed 20 (1 / 10) (fun _ _ => 0) fun _ => 0

end ThesisBench.Gapbs.PageRank
