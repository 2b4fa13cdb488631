/-
`SSSPVerifier` accepts the shortest distances and nothing else.

A label is lowered only together with a push, so an edge that could still
lower a label starts at a vertex that waits with its own label
(`Settling.cover`). The top of the queue is the least that waits, and
whatever it leads to is not below it: a vertex that was settled is never
lowered again, and what waits for it is out of date. So every vertex is
settled once, and the search takes at most one turn more than there are
edges.
-/
import Mathlib.Algebra.BigOperators.Intervals
import ThesisBench.Gapbs.Proofs.Sssp
import ThesisBench.Gapbs.SsspVerifier

namespace ThesisBench.Gapbs.Sssp

open Relax

variable {g : CSRGraph NodeWeight} {source u v : Nat} {s s' : Dijkstra} {settled : Finset Nat}
  {td : Int} {p q : Int × Nat} {mq : List (Int × Nat)}

-- ============================================================ the queue

theorem le_of_not_before (h : before q p = false) : p.1 ≤ q.1 := by
  simp only [before, Bool.or_eq_false_iff, decide_eq_false_iff_not, not_lt] at h
  exact h.1

theorem le_of_before (h : before q p = true) : q.1 ≤ p.1 := by
  simp only [before, Bool.or_eq_true, Bool.and_eq_true, decide_eq_true_eq] at h
  rcases h with hlt | ⟨heq, -⟩
  · exact hlt.le
  · exact heq.le

/-- A push adds one entry to the queue. -/
theorem push_perm (p : Int × Nat) (mq : List (Int × Nat)) : (push p mq).Perm (p :: mq) := by
  induction mq with
  | nil => exact .refl _
  | cons q mq ih =>
      rw [push]
      split
      case isTrue => exact (ih.cons q).trans (.swap p q mq)
      case isFalse => exact .refl _

/-- The top stays the least. -/
theorem sorted_push (h : mq.Pairwise fun a b => a.1 ≤ b.1) (p : Int × Nat) :
    (push p mq).Pairwise fun a b => a.1 ≤ b.1 := by
  induction mq with
  | nil => exact List.pairwise_singleton _ _
  | cons q mq ih =>
      obtain ⟨hq, hmq⟩ := List.pairwise_cons.mp h
      rw [push]
      split
      case isTrue hb =>
        refine List.pairwise_cons.mpr ⟨fun r hr => ?_, ih hmq⟩
        rcases List.mem_cons.mp ((push_perm p mq).mem_iff.mp hr) with rfl | hr
        · exact le_of_before hb
        · exact hq r hr
      case isFalse hb =>
        have hle := le_of_not_before (Bool.eq_false_iff.mpr hb)
        refine List.pairwise_cons.mpr ⟨fun r hr => ?_, h⟩
        rcases List.mem_cons.mp hr with rfl | hr
        · exact hle
        · exact hle.trans (hq r hr)

-- ============================================================ invariants

/-- `oracle_dist[v]` -/
def Dijkstra.label (s : Dijkstra) (v : Nat) : Int := s.oracleDist.getD v 0

theorem Dijkstra.get_label (h : v < s.oracleDist.length) :
    s.oracleDist[v]? = some (s.label v) := by
  rw [Dijkstra.label, List.getD_eq_getElem?_getD, List.getElem?_eq_getElem h, Option.getD_some]

/-- The search when everything below `td` is settled, and `rest u` are the
edges of `u` that the loop over its neighbours has still to come to. -/
structure Settling (g : CSRGraph NodeWeight) (source : Nat) (settled : Finset Nat) (td : Int)
    (rest : Nat → List NodeWeight) (s : Dijkstra) : Prop where
  length : s.oracleDist.length = g.numNodes
  sound : ∀ v < g.numNodes, Sound (Arc g) source kDistInf v (s.label v)
  start : s.label source ≤ 0
  sorted : s.mq.Pairwise fun a b => a.1 ≤ b.1
  nodup : s.mq.Nodup
  entry : ∀ p ∈ s.mq, p.2 < g.numNodes ∧ s.label p.2 ≤ p.1 ∧ td ≤ p.1 ∧ p.1 < kDistInf
  low : ∀ v ∈ settled, s.label v ≤ td
  stale : ∀ p ∈ s.mq, p.2 ∈ settled → s.label p.2 < p.1
  cover : ∀ u < g.numNodes, ∀ wn ∈ g.outs u,
    s.label wn.v ≤ s.label u + wn.w.toInt ∨ (s.label u, u) ∈ s.mq ∨ wn ∈ rest u

/-- The edges of the vertices that are not settled. -/
def unsettled (g : CSRGraph NodeWeight) (settled : Finset Nat) : Nat :=
  ∑ u ∈ Finset.range g.numNodes \ settled, (g.outs u).length

/-- Settling a vertex settles its edges. -/
theorem unsettled_insert (hu : u < g.numNodes) (hns : u ∉ settled) :
    unsettled g (insert u settled) + (g.outs u).length = unsettled g settled := by
  have hmem : u ∈ Finset.range g.numNodes \ settled :=
    Finset.mem_sdiff.mpr ⟨Finset.mem_range.mpr hu, hns⟩
  rw [unsettled, Finset.sdiff_insert]
  exact Finset.sum_erase_add _ _ hmem

-- ================================================================ a step

/-- A label that an edge of the vertex that is being settled lowers. -/
theorem Settling.lower {wn : NodeWeight} {wns : List NodeWeight} (hg : Weighted g)
    (hu : u < g.numNodes)
    (h : Settling g source settled td (fun x => if x = u then wn :: wns else []) s)
    (hlabel : s.label u = td) (hwn : wn ∈ g.outs u) (hlt : td + wn.w.toInt < s.label wn.v) :
    Settling g source settled td (fun x => if x = u then wns else [])
      (s.lower wn.v (td + wn.w.toInt)) := by
  have hv := hg.lt hu hwn
  have hweight := hg.weight u hu wn hwn
  have hcap := (h.sound wn.v hv).le_cap
  have hlabel' : ∀ x, (s.lower wn.v (td + wn.w.toInt)).label x
      = if x = wn.v then td + wn.w.toInt else s.label x :=
    fun x => Slots.getD_set (h.length ▸ hv) _ 0 x
  have hle : ∀ x, (if x = wn.v then td + wn.w.toInt else s.label x) ≤ s.label x := by
    intro x
    split
    case isTrue hx =>
      rw [hx]
      exact hlt.le
    case isFalse => exact Int.le_refl _
  have hperm : (s.lower wn.v (td + wn.w.toInt)).mq.Perm ((td + wn.w.toInt, wn.v) :: s.mq) :=
    push_perm _ s.mq
  -- what is settled is not above `td`
  have hnew : wn.v ∉ settled := by
    intro hmem
    have := h.low _ hmem
    omega
  have hkeep : ∀ x ∈ settled, x ≠ wn.v := fun x hx hxv => hnew (hxv ▸ hx)
  refine { length := List.length_set.trans h.length, sound := fun x hx => ?_, start := ?_,
           sorted := sorted_push h.sorted _, nodup := ?_, entry := fun p hp => ?_,
           low := fun x hx => ?_, stale := fun p hp hps => ?_, cover := ?_ }
  · rw [hlabel']
    split
    case isTrue hxv =>
      have hsu := h.sound u hu
      have harc : Arc g u wn.w.toInt wn.v := ⟨hu, wn, hwn, rfl, rfl⟩
      rw [hlabel] at hsu
      rw [hxv]
      exact hsu.step harc hweight.1 (hlt.trans_le hcap)
    case isFalse => exact h.sound x hx
  · rw [hlabel']
    exact (hle source).trans h.start
  · refine hperm.nodup_iff.mpr (List.nodup_cons.mpr ⟨fun hin => ?_, h.nodup⟩)
    have := (h.entry _ hin).2.1
    dsimp only at this
    omega
  · rw [hlabel']
    rcases List.mem_cons.mp (hperm.mem_iff.mp hp) with rfl | hp
    · exact ⟨hv, (if_pos rfl).le, by dsimp only; omega, hlt.trans_le hcap⟩
    · obtain ⟨hlt, hge, hfloor⟩ := h.entry p hp
      exact ⟨hlt, (hle p.2).trans hge, hfloor⟩
  · rw [hlabel', if_neg (hkeep x hx)]
    exact h.low x hx
  · rw [hlabel', if_neg (hkeep _ hps)]
    rcases List.mem_cons.mp (hperm.mem_iff.mp hp) with rfl | hp
    · exact absurd hps hnew
    · exact h.stale p hp hps
  · intro x hx e he
    rw [hlabel', hlabel']
    by_cases hxv : x = wn.v
    · rw [if_pos hxv, hxv]
      exact .inr (.inl (hperm.mem_iff.mpr List.mem_cons_self))
    · rw [if_neg hxv]
      rcases h.cover x hx e he with hrel | hin | hrest
      · exact .inl ((hle e.v).trans hrel)
      · exact .inr (.inl (hperm.mem_iff.mpr (List.mem_cons_of_mem _ hin)))
      · by_cases hxu : x = u
        · rw [if_pos hxu] at hrest ⊢
          rcases List.mem_cons.mp hrest with rfl | hrest
          · refine .inl ?_
            rw [if_pos rfl, hxu, hlabel]
          · exact .inr (.inr hrest)
        · rw [if_neg hxu] at hrest
          cases hrest

/-- An edge that lowers no label. -/
theorem Settling.skip {wn : NodeWeight} {wns : List NodeWeight}
    (h : Settling g source settled td (fun x => if x = u then wn :: wns else []) s)
    (hlabel : s.label u = td) (hge : s.label wn.v ≤ td + wn.w.toInt) :
    Settling g source settled td (fun x => if x = u then wns else []) s := by
  refine { h with cover := fun x hx e he => ?_ }
  rcases h.cover x hx e he with hrel | hin | hrest
  · exact .inl hrel
  · exact .inr (.inl hin)
  · by_cases hxu : x = u
    · rw [if_pos hxu] at hrest ⊢
      rcases List.mem_cons.mp hrest with rfl | hrest
      · rw [hxu, hlabel]
        exact .inl hge
      · exact .inr (.inr hrest)
    · rw [if_neg hxu] at hrest
      cases hrest

/-- The loop over the neighbours of the vertex that is being settled. -/
theorem Settling.relax {wn : NodeWeight} {wns : List NodeWeight} (hg : Weighted g)
    (htd : 0 ≤ td) (htd' : td < kDistInf) (hu : u < g.numNodes)
    (h : Settling g source settled td (fun x => if x = u then wn :: wns else []) s)
    (hlabel : s.label u = td) (hwn : wn ∈ g.outs u) :
    ∃ s', Dijkstra.relax td s wn = some s'
      ∧ Settling g source settled td (fun x => if x = u then wns else []) s'
      ∧ s'.label u = td ∧ s'.mq.length ≤ s.mq.length + 1 := by
  have hv := hg.lt hu hwn
  have hweight := hg.weight u hu wn hwn
  have hinf : kDistInf + 2 ^ 30 < 2 ^ 31 := by decide
  have hsum : int32 (td + wn.w.toInt) = td + wn.w.toInt :=
    int32_of_nonneg (by omega) (by omega)
  simp only [Dijkstra.relax, s.get_label (h.length ▸ hv), Option.map_some, hsum]
  refine ⟨_, rfl, ?_⟩
  split
  case isTrue hlt =>
    have hnext := h.lower hg hu hlabel hwn hlt
    have hne : u ≠ wn.v := by
      intro huv
      rw [← huv, hlabel] at hlt
      omega
    refine ⟨hnext, ?_, ?_⟩
    · exact (Slots.getD_set (h.length ▸ hv) _ 0 u).trans ((if_neg hne).trans hlabel)
    · exact ((push_perm _ s.mq).length_eq.trans List.length_cons).le
  case isFalse hge => exact ⟨h.skip hlabel (Int.not_lt.mp hge), hlabel, Nat.le_succ _⟩

/-- The loop over the neighbours keeps the search sound. -/
theorem Settling.relaxAll {wns : List NodeWeight} (hg : Weighted g) (htd : 0 ≤ td)
    (htd' : td < kDistInf) (hu : u < g.numNodes) :
    ∀ {s}, Settling g source settled td (fun x => if x = u then wns else []) s →
      s.label u = td → (∀ wn ∈ wns, wn ∈ g.outs u) →
      ∃ s', wns.foldlM (Dijkstra.relax td) s = some s'
        ∧ Settling g source settled td (fun _ => []) s'
        ∧ s'.mq.length ≤ s.mq.length + wns.length := by
  induction wns with
  | nil =>
      intro s h _ _
      have hrest : (fun x => if x = u then ([] : List NodeWeight) else []) = fun _ => [] :=
        funext fun x => ite_self []
      exact ⟨s, rfl, hrest ▸ h, Nat.le_refl _⟩
  | cons wn wns ih =>
      intro s h hlabel hwns
      obtain ⟨s₁, hstep, h₁, hlabel₁, hlen₁⟩ :=
        h.relax hg htd htd' hu hlabel (hwns wn List.mem_cons_self)
      obtain ⟨s₂, hfold, h₂, hlen₂⟩ :=
        ih h₁ hlabel₁ fun e he => hwns e (List.mem_cons_of_mem _ he)
      refine ⟨s₂, ?_, h₂, ?_⟩
      · rw [List.foldlM_cons, hstep]
        exact hfold
      · rw [List.length_cons]
        omega

/-- What is left to do: a turn for all that waits, and one for each edge
of a vertex that is not settled. -/
def Dijkstra.left (g : CSRGraph NodeWeight) (settled : Finset Nat) (s : Dijkstra) : Nat :=
  s.mq.length + unsettled g settled

/-- A turn settles a vertex, or takes away what is out of date. -/
theorem Settling.turn (hg : Weighted g) (htd : 0 ≤ td)
    (h : Settling g source settled td (fun _ => []) s) (hne : s.mq ≠ []) :
    ∃ s' settled' td', Dijkstra.settle g s = some s' ∧ 0 ≤ td'
      ∧ Settling g source settled' td' (fun _ => []) s'
      ∧ s'.left g settled' < s.left g settled := by
  obtain ⟨oracleDist, mq⟩ := s
  cases mq with
  | nil => exact absurd rfl hne
  | cons p mq =>
      obtain ⟨d, u⟩ := p
      obtain ⟨hu, hge, hfloor, hinf⟩ := h.entry _ List.mem_cons_self
      obtain ⟨htop, hsorted⟩ := List.pairwise_cons.mp h.sorted
      obtain ⟨hnot, hnodup⟩ := List.nodup_cons.mp h.nodup
      have hget : oracleDist[u]? = some (Dijkstra.label ⟨oracleDist, (d, u) :: mq⟩ u) :=
        Dijkstra.get_label (h.length ▸ hu)
      have hpop : ∀ {x}, x ∈ mq → x ∈ ((d, u) :: mq) := List.mem_cons_of_mem _
      dsimp only at hu hge hfloor hinf htop
      simp only [Dijkstra.settle, hget, Option.bind_eq_bind, Option.bind_some]
      split
      case isTrue heq =>
        -- the vertex is settled now
        have hns : u ∉ settled := fun hin =>
          absurd (h.stale _ List.mem_cons_self hin) (by dsimp only; omega)
        obtain ⟨l, hl, -⟩ := hg.outNeigh u hu
        have houts : g.outs u = l := by rw [CSRGraph.outs, hl, Option.getD_some]
        rw [hl, Option.bind_some, ← houts]
        have hstart : Settling g source (insert u settled) d
            (fun x => if x = u then g.outs u else []) ⟨oracleDist, mq⟩ := by
          refine { length := h.length, sound := h.sound, start := h.start, sorted := hsorted,
                   nodup := hnodup, entry := fun q hq => ?_, low := fun x hx => ?_,
                   stale := fun q hq hqs => ?_, cover := fun x hx e he => ?_ }
          · obtain ⟨hq₁, hq₂, -, hq₃⟩ := h.entry q (hpop hq)
            exact ⟨hq₁, hq₂, htop q hq, hq₃⟩
          · rcases Finset.mem_insert.mp hx with rfl | hx
            · exact heq.symm.le
            · exact (h.low x hx).trans hfloor
          · rcases Finset.mem_insert.mp hqs with hqu | hqs
            · refine lt_of_le_of_ne (h.entry q (hpop hq)).2.1 fun hqd => hnot ?_
              have hq₁ : q.1 = d := by
                rw [heq, ← hqd, hqu]
                rfl
              rw [← hq₁, ← hqu]
              exact hq
            · exact h.stale q (hpop hq) hqs
          · rcases h.cover x hx e he with hrel | hin | hrest
            · exact .inl hrel
            · rcases List.mem_cons.mp hin with heq | hin
              · obtain ⟨-, rfl⟩ := Prod.mk.inj heq
                rw [if_pos rfl]
                exact .inr (.inr he)
              · exact .inr (.inl hin)
            · cases hrest
        obtain ⟨s', hfold, hs', hlen⟩ :=
          hstart.relaxAll hg (htd.trans hfloor) hinf hu heq.symm fun e he => he
        refine ⟨s', insert u settled, d, hfold, htd.trans hfloor, hs', ?_⟩
        have hedges := unsettled_insert hu hns
        unfold Dijkstra.left
        dsimp only at hlen ⊢
        rw [List.length_cons]
        omega
      case isFalse hne =>
        refine ⟨_, settled, td, rfl, htd, ?_, ?_⟩
        · refine { length := h.length, sound := h.sound, start := h.start, sorted := hsorted,
                   nodup := hnodup, entry := fun q hq => h.entry q (hpop hq), low := h.low,
                   stale := fun q hq => h.stale q (hpop hq), cover := fun x hx e he => ?_ }
          rcases h.cover x hx e he with hrel | hin | hrest
          · exact .inl hrel
          · rcases List.mem_cons.mp hin with heq | hin
            · obtain ⟨hd, rfl⟩ := Prod.mk.inj heq
              exact absurd hd.symm hne
            · exact .inr (.inl hin)
          · cases hrest
        · unfold Dijkstra.left
          dsimp only
          rw [List.length_cons]
          omega

-- ============================================================== the search

/-- The loop ends with an empty queue. -/
theorem Settling.loop (hg : Weighted g) : ∀ fuel {s settled td}, 0 ≤ td →
    Settling g source settled td (fun _ => []) s → s.left g settled ≤ fuel →
    ∃ r settled' td', While.loop (fun s => !s.mq.isEmpty) (Dijkstra.settle g) fuel s = some r
      ∧ Settling g source settled' td' (fun _ => []) r ∧ r.mq = [] := by
  intro fuel
  induction fuel with
  | zero =>
      intro s settled td _ h hleft
      have hnil : s.mq = [] := by
        refine List.eq_nil_of_length_eq_zero ?_
        unfold Dijkstra.left at hleft
        omega
      exact ⟨s, settled, td, While.loop_of_stop (by rw [hnil]; rfl) 0, h, hnil⟩
  | succ fuel ih =>
      intro s settled td htd h hleft
      by_cases hnil : s.mq = []
      · exact ⟨s, settled, td, While.loop_of_stop (by rw [hnil]; rfl) _, h, hnil⟩
      · obtain ⟨s₁, settled₁, td₁, hstep, htd₁, h₁, hlt⟩ := h.turn hg htd hnil
        obtain ⟨r, settled₂, td₂, hloop, hr⟩ := ih htd₁ h₁ (by omega)
        refine ⟨r, settled₂, td₂, ?_, hr⟩
        rw [While.loop_of_turn ⟨?_, hstep⟩]
        · exact hloop
        · rw [List.isEmpty_eq_false_iff.mpr hnil]
          rfl

/-- A search whose queue is empty has found the distances. -/
theorem Settling.isDist {rest : Nat → List NodeWeight} (h : Settling g source settled td rest s)
    (hmq : s.mq = []) (hrest : ∀ u, rest u = []) (hv : v < g.numNodes) :
    IsDist (Arc g) source kDistInf v (s.label v) := by
  have hrelaxed : Relaxed (Arc g) s.label := by
    rintro x w y ⟨hx, wn, hwn, rfl, rfl⟩
    rcases h.cover x hx wn hwn with hrel | hin | hin
    · exact hrel
    · rw [hmq] at hin
      cases hin
    · rw [hrest] at hin
      cases hin
  exact hrelaxed.isDist h.start (h.sound v hv)

/-- How many edges the graph has. -/
def arcs (g : CSRGraph NodeWeight) : Nat := ∑ u ∈ Finset.range g.numNodes, (g.outs u).length

/-- The search begins with the source at distance 0. -/
theorem settling_start (hs : source < g.numNodes) (hg : Weighted g) :
    Settling g source ∅ 0 (fun _ => []) (.start g source) := by
  have hinf : (0 : Int) < kDistInf := by decide
  have hlabel : ∀ {v}, v < g.numNodes → (Dijkstra.start g source).label v
      = if v = source then 0 else kDistInf := initial_label hs
  refine { length := List.length_set.trans List.length_replicate, sound := fun v hv => ?_,
           start := ?_, sorted := List.pairwise_singleton _ _, nodup := List.nodup_singleton _,
           entry := fun p hp => ?_, low := fun v hv => absurd hv (Finset.notMem_empty v),
           stale := fun p _ hp => absurd hp (Finset.notMem_empty p.2), cover := ?_ }
  · rw [hlabel hv]
    split
    case isTrue heq =>
      rw [heq]
      exact Sound.start hinf.le
    case isFalse => exact ⟨fun hlt => absurd hlt (Int.lt_irrefl _), Int.le_refl _⟩
  · rw [hlabel hs, if_pos rfl]
  · rw [List.mem_singleton.mp hp]
    refine ⟨hs, ?_, Int.le_refl 0, hinf⟩
    rw [hlabel hs, if_pos rfl]
  · intro u hu wn hwn
    by_cases hus : u = source
    · refine .inr (.inl (List.mem_singleton.mpr ?_))
      rw [hus, hlabel hs, if_pos rfl]
    · refine .inl ?_
      have hweight := hg.weight u hu wn hwn
      rw [hlabel (hg.lt hu hwn), hlabel hu, if_neg hus]
      split <;> omega

/-- The search takes at most one turn more than there are edges. -/
theorem search_isDist (hg : Weighted g) (hs : source < g.numNodes) {fuel : Nat}
    (hfuel : arcs g + 1 ≤ fuel) :
    ∃ r, While.loop (fun s => !s.mq.isEmpty) (Dijkstra.settle g) fuel (.start g source) = some r
      ∧ r.oracleDist.length = g.numNodes
      ∧ ∀ v < g.numNodes, IsDist (Arc g) source kDistInf v (r.label v) := by
  have hleft : (Dijkstra.start g source).left g ∅ ≤ fuel := by
    have hedges : unsettled g ∅ = arcs g := by rw [unsettled, Finset.sdiff_empty, arcs]
    have hone : (Dijkstra.start g source).mq.length = 1 := rfl
    unfold Dijkstra.left
    omega
  obtain ⟨r, settled, td, hloop, hr, hmq⟩ :=
    Settling.loop hg fuel (Int.le_refl 0) (settling_start hs hg) hleft
  exact ⟨r, hloop, hr.length, fun v hv => hr.isDist hmq (fun _ => rfl) hv⟩

-- =============================================================== the check

/-- The check passes when no distance differs. -/
theorem checkDist_foldlM (distToTest oracleDist : List Int) (ns : List Nat)
    (h : ∀ n ∈ ns, n < distToTest.length ∧ n < oracleDist.length) : ∀ allOk,
    ∃ b, ns.foldlM (checkDist distToTest oracleDist) allOk = some b
      ∧ (b = true ↔ allOk = true ∧ ∀ n ∈ ns, distToTest.getD n 0 = oracleDist.getD n 0) := by
  have hget : ∀ {l : List Int} {n : Nat}, n < l.length → l[n]? = some (l.getD n 0) := by
    intro l n hn
    rw [List.getD_eq_getElem?_getD, List.getElem?_eq_getElem hn, Option.getD_some]
  induction ns with
  | nil => exact fun allOk => ⟨allOk, rfl, by simp⟩
  | cons n ns ih =>
      intro allOk
      obtain ⟨hd, ho⟩ := h n List.mem_cons_self
      obtain ⟨b, hb, hiff⟩ := ih (fun k hk => h k (List.mem_cons_of_mem _ hk))
        (if distToTest.getD n 0 ≠ oracleDist.getD n 0 then false else allOk)
      refine ⟨b, ?_, hiff.trans ?_⟩
      · rw [List.foldlM_cons, checkDist, hget hd, hget ho]
        exact hb
      · rw [List.forall_mem_cons]
        by_cases heq : distToTest.getD n 0 = oracleDist.getD n 0
        · rw [if_neg (not_not.mpr heq)]
          exact ⟨fun hc => ⟨hc.1, heq, hc.2⟩, fun hc => ⟨hc.1, hc.2.2⟩⟩
        · rw [if_pos heq]
          exact ⟨fun hc => absurd hc.1 Bool.false_ne_true, fun hc => absurd hc.2.1 heq⟩

/-- The verifier ends, and compares with the shortest distances. -/
theorem ssspVerifier_oracle (hg : Weighted g) (hs : source < g.numNodes) {fuel : Nat}
    (hfuel : arcs g + 1 ≤ fuel) :
    ∃ oracleDist : List Int,
      (∀ v < g.numNodes, IsDist (Arc g) source kDistInf v (oracleDist.getD v 0))
      ∧ ∀ dist : List Int, dist.length = g.numNodes →
        ∃ ok, ssspVerifier fuel g source dist = some ok
          ∧ (ok = true ↔ ∀ v < g.numNodes, dist.getD v 0 = oracleDist.getD v 0) := by
  obtain ⟨r, hloop, hrlen, hdist⟩ := search_isDist hg hs hfuel
  refine ⟨r.oracleDist, hdist, fun dist hlen => ?_⟩
  have hin : ∀ n ∈ List.range g.numNodes, n < dist.length ∧ n < r.oracleDist.length := by
    intro n hn
    have := List.mem_range.mp hn
    omega
  obtain ⟨ok, hok, hiff⟩ := checkDist_foldlM dist r.oracleDist _ hin true
  refine ⟨ok, ?_, hiff.trans ⟨fun h v hv => h.2 v (List.mem_range.mpr hv), fun h => ?_⟩⟩
  · rw [ssspVerifier, if_pos hs, hloop]
    exact hok
  · exact ⟨rfl, fun v hv => h v (List.mem_range.mp hv)⟩

/-- What `DeltaStep` computes passes the check, whatever the order of its
steps, unless the frontier was left. -/
theorem deltaStep_verified {delta : Int} {numThreads : Nat} (hg : Weighted g) (hdelta : 0 < delta)
    (hs : source < g.numNodes) (hthreads : 0 < numThreads) {fuel : Nat}
    (hfuel : arcs g + 1 ≤ fuel) :
    Parallel.Ends (fun m => m.overrun = false → ssspVerifier fuel g source m.dist = some true)
      ([deltaStep g delta], start g source numThreads) := by
  refine (deltaStep_total hg hdelta hs hthreads).ends.mono fun m hm _ => ?_
  obtain ⟨oracleDist, hdist, hcheck⟩ := ssspVerifier_oracle hg hs hfuel
  obtain ⟨ok, hok, hiff⟩ := hcheck m.dist hm.1
  rw [hok, hiff.mpr fun v hv => (hm.2.1 v hv).unique (hdist v hv)]

/-- The kernel and the verifier on the two roads. -/
theorem deltaStep_verified_twoRoads :
    Parallel.Ends (fun m => m.overrun = false → ssspVerifier 4 twoRoads 0 m.dist = some true)
      ([deltaStep twoRoads 2], start twoRoads 0 4) :=
  deltaStep_verified twoRoads_weighted (by decide) (by decide) (by decide) (by decide)

end ThesisBench.Gapbs.Sssp
