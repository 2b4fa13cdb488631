/-
`BCVerifier` computes the centralities, and accepts those of `Brandes`.

The traversal keeps the invariant of the one in the check of a
breadth-first search, and a vertex whose turn it is has been told of all
its shortest paths, since the vertices before it were on all of them
(`sum_sent`). Each list of the way back holds exactly the vertices of its
level, and what the next level passes on is complete (`Returned`).
-/
import ThesisBench.Gapbs.BcVerifier
import ThesisBench.Gapbs.Proofs.BfsVerifier
import ThesisBench.Gapbs.Proofs.Brandes
import Mathlib.Data.List.GetD

namespace ThesisBench.Gapbs.BcVerifier

open Slots Parallel Distance Paths
open Bfs (IsEdge)
open Brandes (Simple dependencyOn centrality)

variable {g : CSRGraph Nat} {source it u v w : Nat} {s : Search}

-- ============================================================ the counts

open scoped Classical in
/-- What `w` adds to the count of `v`. -/
noncomputable def sent (g : CSRGraph Nat) (source w v : Nat) : ℚ :=
  if v ∈ g.outs w ∧ ∃ k, Dist (IsEdge g) source k w ∧ Dist (IsEdge g) source (k + 1) v then
    (sigma (IsEdge g) source w : ℚ)
  else 0

/-- The count of `v` when the vertices `ws` have had their turn. -/
noncomputable def told (g : CSRGraph Nat) (source : Nat) (ws : List Nat) (v : Nat) : ℚ :=
  (if v = source then 1 else 0) + (ws.map fun w => sent g source w v).sum

theorem sent_source (w : Nat) : sent g source w source = 0 := by
  refine if_neg ?_
  rintro ⟨-, k, -, hk⟩
  have := hk.unique (dist_start _ _)
  omega

/-- What a vertex has been told by one more vertex. -/
theorem told_snoc (ws : List Nat) (w v : Nat) :
    told g source (ws ++ [w]) v = told g source ws v + sent g source w v := by
  rw [told, told, List.map_append, List.sum_append, List.map_singleton, List.sum_singleton,
    add_assoc]

/-- Where all who are one level nearer have had their turn, the count is
that of the shortest paths. -/
theorem told_eq (hg : Simple g) {ws : List Nat} (hnd : ws.Nodup) (hlt : ∀ w ∈ ws, w < g.numNodes)
    (hall : ∀ w k, IsEdge g w v → Dist (IsEdge g) source k w → Dist (IsEdge g) source (k + 1) v →
      w ∈ ws) : told g source ws v = sigma (IsEdge g) source v := by
  classical
  rw [told]
  by_cases hreach : ∃ k, Dist (IsEdge g) source k v
  · obtain ⟨_ | k, hk⟩ := hreach
    · have hsource : v = source := hk.eq_start
      have hzero : (ws.map fun w => sent g source w source).sum = 0 := by
        refine List.sum_eq_zero fun x hx => ?_
        obtain ⟨w, -, rfl⟩ := List.mem_map.mp hx
        exact sent_source w
      rw [hsource, if_pos rfl, hzero, add_zero, sigma_self hg.isEdge_lt, Nat.cast_one]
    · have hne : v ≠ source := by
        rintro rfl
        have := hk.unique (dist_start _ _)
        omega
      rw [if_neg hne, zero_add, sigma_last hg.isEdge_lt hk, Nat.cast_sum,
        ← List.sum_toFinset _ hnd]
      simp only [sent]
      rw [← Finset.sum_filter]
      refine Finset.sum_congr ?_ fun _ _ => rfl
      ext w
      rw [Finset.mem_filter, Finset.mem_filter, List.mem_toFinset, Finset.mem_range]
      constructor
      · rintro ⟨hw, hedge, j, hj, hj'⟩
        have hjk : j = k := by
          have := hj'.unique hk
          omega
        exact ⟨hlt w hw, ⟨hlt w hw, hedge⟩, hjk ▸ hj⟩
      · rintro ⟨-, hedge, hw⟩
        exact ⟨hall w k hedge hw hk, hedge.2, k, hw, hk⟩
  · have hnone : ∀ k, ¬ Walk (IsEdge g) source k v := by
      intro k hk
      obtain ⟨j, -, hj⟩ := hk.exists_dist
      exact hreach ⟨j, hj⟩
    have hne : v ≠ source := by
      rintro rfl
      exact hnone 0 .nil
    have hzero : (ws.map fun w => sent g source w v).sum = 0 := by
      refine List.sum_eq_zero fun x hx => ?_
      obtain ⟨w, -, rfl⟩ := List.mem_map.mp hx
      refine if_neg ?_
      rintro ⟨-, k, -, hk⟩
      exact hreach ⟨_, hk⟩
    rw [if_neg hne, hzero, zero_add, sigma_unreachable hg.isEdge_lt hnone, Nat.cast_zero]

-- ========================================================== the search

/-- What holds at position `it`, when `part` has been added from there. -/
structure Counting (g : CSRGraph Nat) (source it : Nat) (part : Nat → ℚ) (s : Search) : Prop where
  visit : Bfs.Searched g source it s.visit
  length : s.pathCounts.length = g.numNodes
  count : ∀ v < g.numNodes,
    s.pathCounts[v]? = some (told g source (s.visit.toVisit.take it) v + part v)

/-- The vertex whose turn it is knows the number of its paths. -/
theorem told_current (hg : Simple g) {t : Bfs.Visit} (h : Bfs.Searched g source it t)
    (hu : t.toVisit[it]? = some u) :
    told g source (t.toVisit.take it) u = sigma (IsEdge g) source u := by
  refine told_eq hg (h.nodup.sublist (List.take_sublist _ _))
    (fun w hw => h.lt w (List.mem_of_mem_take hw)) ?_
  intro w k hedge hw hk
  have hmem := h.found hu hk hw (Nat.le_succ k)
  obtain ⟨i, hi, rfl⟩ := List.getElem_of_mem hmem
  obtain ⟨hit, rfl⟩ := List.getElem?_eq_some_iff.mp hu
  rw [List.mem_take_iff_getElem]
  refine ⟨i, ?_, rfl⟩
  by_contra hge
  have hge : it ≤ i := by omega
  rcases Nat.lt_or_eq_of_le hge with hlt | rfl
  · have := List.pairwise_iff_getElem.mp h.sorted it i hit hi hlt (k + 1) k hk hw
    omega
  · have := hw.unique hk
    omega

/-- What has been added when the edges to `pre` have been seen. -/
noncomputable def added (g : CSRGraph Nat) (source u : Nat) (pre : List Nat) (v : Nat) : ℚ :=
  if v ∈ pre then sent g source u v else 0

theorem sent_self (u : Nat) : sent g source u u = 0 := by
  refine if_neg ?_
  rintro ⟨-, k, hk, hk'⟩
  have := hk.unique hk'
  omega

theorem added_self (pre : List Nat) : added g source u pre u = 0 := by
  rw [added, sent_self, ite_self]

/-- An edge of the search adds the path counts and puts a new vertex into
the queue. -/
theorem Counting.edge (hg : Simple g) {pre : List Nat}
    (h : Counting g source it (added g source u pre) s) (hu : s.visit.toVisit[it]? = some u)
    (hv : v ∈ g.outs u) (hnot : v ∉ pre) (hlt : v < g.numNodes) :
    ∃ s', Search.edge g.numNodes u s v = some s'
      ∧ Counting g source it (added g source u (pre ++ [v])) s'
      ∧ s.visit.toVisit <+: s'.visit.toVisit ∧ v ∈ s'.visit.toVisit := by
  obtain ⟨t, ht, ht', hpre, hmem⟩ := h.visit.edge hu hv hlt
  have hut : t.toVisit[it]? = some u := Bfs.getElem?_of_prefix hpre hu
  obtain ⟨ku, hdu, hku⟩ := ht'.seen u (List.mem_of_getElem? hut)
  obtain ⟨kv, hdv, hkv⟩ := ht'.seen v hmem
  have hultn := ht'.lt u (List.mem_of_getElem? hut)
  have hit : it < s.visit.toVisit.length := (List.getElem?_eq_some_iff.mp hu).1
  have htake : t.toVisit.take it = s.visit.toVisit.take it := by
    obtain ⟨more, hmore⟩ := hpre
    rw [← hmore, List.take_append_of_le_length hit.le]
  have hcu : s.pathCounts[u]? = some (sigma (IsEdge g) source u : ℚ) := by
    rw [h.count u hultn, added_self, add_zero, told_current hg h.visit hu]
  have hother : ∀ w, w ≠ v → added g source u (pre ++ [v]) w = added g source u pre w := by
    intro w hw
    simp only [added, List.mem_append, List.mem_singleton, hw, or_false]
  have hself : added g source u (pre ++ [v]) v = sent g source u v :=
    if_pos (List.mem_append_right _ (List.mem_singleton_self v))
  have hbefore : added g source u pre v = 0 := if_neg hnot
  have hcond : ((kv : Int) = ku + 1) ↔ ∃ k, Dist (IsEdge g) source k u
      ∧ Dist (IsEdge g) source (k + 1) v := by
    constructor
    · intro heq
      have heq : kv = ku + 1 := by omega
      exact ⟨ku, hku, heq ▸ hkv⟩
    · rintro ⟨k, hk, hk'⟩
      have := hku.unique hk
      have := hkv.unique hk'
      omega
  by_cases hnext : (kv : Int) = ku + 1
  · have hsent : sent g source u v = sigma (IsEdge g) source u :=
      if_pos ⟨hv, hcond.mp hnext⟩
    refine ⟨⟨t, s.pathCounts.set v (told g source (s.visit.toVisit.take it) v
      + added g source u pre v + sigma (IsEdge g) source u)⟩, ?_, ⟨ht', ?_, ?_⟩, hpre, hmem⟩
    · simp only [Search.edge, ht, hdv, hdu, Option.bind_eq_bind, Option.bind_some, if_pos hnext,
        h.count v hlt, hcu]
    · rw [List.length_set, h.length]
    · intro w hw
      show (s.pathCounts.set v _)[w]? = some (told g source (t.toVisit.take it) w + _)
      rw [htake]
      by_cases hwv : w = v
      · subst hwv
        rw [List.getElem?_set_self (h.length ▸ hw), hself, hsent, hbefore, add_zero]
      · rw [List.getElem?_set_ne (Ne.symm hwv), hother w hwv, h.count w hw]
  · have hsent : sent g source u v = 0 := if_neg fun hyp => hnext (hcond.mpr hyp.2)
    refine ⟨⟨t, s.pathCounts⟩, ?_, ⟨ht', h.length, ?_⟩, hpre, hmem⟩
    · simp only [Search.edge, ht, hdv, hdu, Option.bind_eq_bind, Option.bind_some, if_neg hnext]
    · intro w hw
      show s.pathCounts[w]? = some (told g source (t.toVisit.take it) w + _)
      rw [htake, h.count w hw]
      by_cases hwv : w = v
      · subst hwv
        rw [hself, hsent, hbefore]
      · rw [hother w hwv]

/-- The loop over the outgoing neighbours. -/
theorem Counting.edges (hg : Simple g) (vs : List Nat) {pre : List Nat}
    (h : Counting g source it (added g source u pre) s) (hu : s.visit.toVisit[it]? = some u)
    (hvs : ∀ v ∈ vs, v ∈ g.outs u ∧ v < g.numNodes) (hnd : (pre ++ vs).Nodup) :
    ∃ s', vs.foldlM (Search.edge g.numNodes u) s = some s'
      ∧ Counting g source it (added g source u (pre ++ vs)) s'
      ∧ s.visit.toVisit <+: s'.visit.toVisit ∧ ∀ v ∈ vs, v ∈ s'.visit.toVisit := by
  induction vs generalizing s pre with
  | nil => exact ⟨s, rfl, (List.append_nil pre).symm ▸ h, List.prefix_rfl,
      fun v hv => absurd hv List.not_mem_nil⟩
  | cons v vs ih =>
      obtain ⟨hv, hlt⟩ := hvs v List.mem_cons_self
      have hnot : v ∉ pre := fun hmem =>
        (List.disjoint_of_nodup_append hnd) hmem List.mem_cons_self
      obtain ⟨s₁, hs₁, h₁, hpre₁, hv₁⟩ := h.edge hg hu hv hnot hlt
      have hu₁ := Bfs.getElem?_of_prefix hpre₁ hu
      have hsplit : pre ++ v :: vs = (pre ++ [v]) ++ vs := by
        rw [List.append_assoc, List.singleton_append]
      obtain ⟨s₂, hs₂, h₂, hpre₂, hvs₂⟩ := ih h₁ hu₁
        (fun w hw => hvs w (List.mem_cons_of_mem v hw)) (hsplit ▸ hnd)
      refine ⟨s₂, ?_, hsplit ▸ h₂, hpre₁.trans hpre₂, ?_⟩
      · rw [List.foldlM_cons, hs₁]
        exact hs₂
      · intro w hw
        cases hw with
        | head => exact hpre₂.subset hv₁
        | tail _ hw => exact hvs₂ w hw

/-- On to the next vertex. -/
theorem Counting.next (h : Counting g source it (added g source u (g.outs u)) s)
    (hu : s.visit.toVisit[it]? = some u) (hall : ∀ v ∈ g.outs u, v ∈ s.visit.toVisit) :
    Counting g source (it + 1) (fun _ => 0) s := by
  refine ⟨h.visit.next hu hall, h.length, fun v hv => ?_⟩
  obtain ⟨hit, hget⟩ := List.getElem?_eq_some_iff.mp hu
  rw [h.count v hv, List.take_succ_eq_append_getElem hit, told_snoc, hget, add_zero]
  refine congrArg (fun x => some (told g source (s.visit.toVisit.take it) v + x)) ?_
  unfold added
  split
  case isTrue => rfl
  case isFalse hnot => exact (if_neg fun hyp => hnot hyp.1).symm

/-- What the traversal leaves: the depths, and the numbers of the shortest
paths. -/
structure Counted (g : CSRGraph Nat) (source : Nat) (s : Search) : Prop where
  measured : Bfs.Measured g source s.visit.depth
  count : ∀ v < g.numNodes, s.pathCounts[v]? = some (sigma (IsEdge g) source v : ℚ)

/-- When the queue is at its end everything is counted. -/
theorem Counting.counted (hg : Simple g) (h : Counting g source it (fun _ => 0) s)
    (hend : s.visit.toVisit[it]? = none) : Counted g source s := by
  have hlen : s.visit.toVisit.length ≤ it := List.getElem?_eq_none_iff.mp hend
  refine ⟨h.visit.measured hend, fun v hv => ?_⟩
  rw [h.count v hv, add_zero, List.take_of_length_le hlen, told_eq hg h.visit.nodup h.visit.lt]
  intro w k _ hw _
  have hclosed : ∀ x y, x ∈ s.visit.toVisit → IsEdge g x y → y ∈ s.visit.toVisit := by
    intro x y hx hxy
    obtain ⟨i, hi⟩ := List.getElem?_of_mem hx
    have hlt : i < s.visit.toVisit.length := (List.getElem?_eq_some_iff.mp hi).1
    exact h.visit.closed i x (by omega) hi y hxy.2
  exact Dist.found (· ∈ s.visit.toVisit) (· ∈ s.visit.toVisit) h.visit.start hclosed
    (fun x _ hx _ _ => hx) hw le_rfl

/-- The search ends, and has counted everything. -/
theorem Counting.searchFrom (hg : Simple g) (h : Counting g source it (fun _ => 0) s) {fuel : Nat}
    (hfuel : g.numNodes < it + fuel) (hit : it ≤ s.visit.toVisit.length) :
    ∃ s', searchFrom g fuel it s = some s' ∧ Counted g source s' := by
  have hle := h.visit.length_le
  induction fuel generalizing it s with
  | zero => omega
  | succ fuel ih =>
      cases hu : s.visit.toVisit[it]? with
      | none => exact ⟨s, by simp only [BcVerifier.searchFrom, hu], h.counted hg hu⟩
      | some u =>
          have hlt := h.visit.lt u (List.mem_of_getElem? hu)
          obtain ⟨vs, hvs, hbound⟩ := hg.outNeigh u hlt
          have houts : g.outs u = vs := by rw [CSRGraph.outs, hvs, Option.getD_some]
          have hzero : (fun _ => 0) = added g source u [] := by
            funext v
            exact (if_neg List.not_mem_nil).symm
          obtain ⟨s₁, hs₁, h₁, hpre, hall⟩ := Counting.edges hg vs (hzero ▸ h) hu
            (fun v hv => ⟨houts ▸ hv, hbound v hv⟩) (houts ▸ hg.nodup u hlt)
          rw [List.nil_append, ← houts] at h₁
          have hu₁ := Bfs.getElem?_of_prefix hpre hu
          have hit₁ : it < s₁.visit.toVisit.length := (List.getElem?_eq_some_iff.mp hu₁).1
          have h₂ := h₁.next hu₁ (houts ▸ hall)
          obtain ⟨s', hs', hm⟩ := ih h₂ (by omega) hit₁ h₂.visit.length_le
          refine ⟨s', ?_, hm⟩
          simp only [BcVerifier.searchFrom, hu, hvs, Option.bind_eq_bind, Option.bind_some, hs₁]
          exact hs'

/-- The search from the source ends, with depths and path counts. -/
theorem search_spec (hg : Simple g) (hsource : source < g.numNodes) {fuel : Nat}
    (hfuel : g.numNodes < fuel) :
    ∃ s₀ s, searchStart g source = some s₀ ∧ searchFrom g fuel 0 s₀ = some s
      ∧ Counted g source s := by
  obtain ⟨t, ht, hsearched⟩ := Bfs.searched_start hsource
  have hcounting : Counting g source 0 (fun _ => 0)
      ⟨t, (List.replicate g.numNodes 0).set source 1⟩ := by
    refine ⟨hsearched, by rw [List.length_set, List.length_replicate], fun v hv => ?_⟩
    rw [List.take_zero, told, List.map_nil, List.sum_nil, add_zero, add_zero]
    by_cases hvs : v = source
    · subst hvs
      rw [if_pos rfl, List.getElem?_set_self (by rwa [List.length_replicate])]
    · rw [if_neg hvs, List.getElem?_set_ne (Ne.symm hvs), List.getElem?_replicate, if_pos hv]
  obtain ⟨s, hs, hcounted⟩ := hcounting.searchFrom hg
    (show g.numNodes < 0 + fuel by omega) (Nat.zero_le _)
  refine ⟨_, s, ?_, hs, hcounted⟩
  rw [searchStart, ht]
  rfl

-- ============================================================ the levels

/-- The vertices of `us` are sorted by their depths. -/
def Placed (depths : List Int) (us : List Nat) (levels : List (List Nat)) : Prop :=
  ∀ d, levels.getD d [] = us.filter fun v => depths[v]? = some (d : Int)

theorem getD_resize (levels : List (List Nat)) (dn : Int) (d : Nat) :
    (resize levels dn).getD d [] = levels.getD d [] := by
  rw [resize]
  split
  · by_cases hd : d < levels.length
    · rw [List.getD_append _ _ _ _ hd]
    · rw [List.getD_append_right _ _ _ _ (by omega), List.getD_eq_default levels [] (by omega)]
      exact Brandes.getD_replicate _ _ _ _ |>.trans (ite_self _)
  · rfl

/-- After resizing the level is there. -/
theorem length_resize (levels : List (List Nat)) (k : Nat) :
    k < (resize levels k).length := by
  rw [resize]
  split
  · rw [List.length_append, List.length_replicate]
    omega
  · omega

/-- A vertex goes to the level of its depth, or to none. -/
theorem Placed.step {depths : List Int} {us : List Nat} {levels : List (List Nat)}
    (h : Placed depths us levels)
    (hn : depths[v]? = some (-1) ∨ ∃ k : Nat, depths[v]? = some (k : Int)) :
    ∃ levels', placeVertex depths levels v = some levels' ∧ Placed depths (us ++ [v]) levels' := by
  rcases hn with hn | ⟨k, hk⟩
  · refine ⟨levels, by rw [placeVertex, hn]; rfl, fun d => ?_⟩
    have hne : ¬ depths[v]? = some (d : Int) := by
      rw [hn, Option.some.injEq]
      omega
    rw [h d, List.filter_append, List.filter_singleton, decide_eq_false hne]
    exact (List.append_nil _).symm
  · have hlt := length_resize levels k
    have hread : read (resize levels k) k = some ((resize levels k).getD k []) := by
      rw [Slots.read, if_pos (by omega), Int.toNat_natCast, List.getElem?_eq_getElem hlt,
        List.getD_eq_getElem?_getD, List.getElem?_eq_getElem hlt, Option.getD_some]
    have hne : ¬ (k : Int) = -1 := by omega
    refine ⟨(resize levels k).set k ((resize levels k).getD k [] ++ [v]), ?_, fun d => ?_⟩
    · rw [placeVertex, hk, Option.bind_eq_bind, Option.bind_some, if_neg hne]
      dsimp only
      rw [hread, Option.bind_eq_bind, Option.bind_some, write_natCast hlt]
    · rw [getD_set hlt, List.filter_append, List.filter_singleton]
      by_cases hd : d = k
      · subst hd
        rw [if_pos rfl, getD_resize, h d, decide_eq_true hk]
        rfl
      · have hne : ¬ depths[v]? = some (d : Int) := by
          rw [hk, Option.some.injEq]
          omega
        rw [if_neg hd, getD_resize, h d, decide_eq_false hne]
        exact (List.append_nil _).symm

/-- All vertices go to their levels. -/
theorem Placed.fold {depths : List Int} (vs : List Nat) {us : List Nat}
    {levels : List (List Nat)} (h : Placed depths us levels)
    (hvs : ∀ v ∈ vs, depths[v]? = some (-1) ∨ ∃ k : Nat, depths[v]? = some (k : Int)) :
    ∃ levels', vs.foldlM (placeVertex depths) levels = some levels'
      ∧ Placed depths (us ++ vs) levels' := by
  induction vs generalizing us levels with
  | nil => exact ⟨levels, rfl, (List.append_nil us).symm ▸ h⟩
  | cons v vs ih =>
      obtain ⟨levels₁, hs₁, h₁⟩ := h.step (hvs v List.mem_cons_self)
      obtain ⟨levels₂, hs₂, h₂⟩ := ih h₁ fun w hw => hvs w (List.mem_cons_of_mem v hw)
      refine ⟨levels₂, ?_, ?_⟩
      · rw [List.foldlM_cons, hs₁]
        exact hs₂
      · rwa [List.append_assoc, List.singleton_append] at h₂

/-- The lists hold the levels, and there are enough. -/
theorem levels_spec {depths : List Int} (h : Bfs.Measured g source depths) :
    ∃ levels, (List.range g.numNodes).foldlM (placeVertex depths) [] = some levels
      ∧ (∀ i, (levels.getD i []).Nodup)
      ∧ (∀ i v, v ∈ levels.getD i [] ↔ v < g.numNodes ∧ Dist (IsEdge g) source i v)
      ∧ ∀ i v, v < g.numNodes → Dist (IsEdge g) source i v → i < levels.length := by
  have hdepth := fun (v : Nat) (hv : v < g.numNodes) => h.depth_eq hv
  have hempty : Placed depths [] [] := fun _ => rfl
  obtain ⟨levels, hlevels, hplaced⟩ := hempty.fold (List.range g.numNodes) fun v hv => by
    rcases hdepth v (List.mem_range.mp hv) with ⟨k, hk, -⟩ | ⟨hk, -⟩
    · exact .inr ⟨k, hk⟩
    · exact .inl hk
  rw [List.nil_append] at hplaced
  have hmem : ∀ i v, v ∈ levels.getD i [] ↔ v < g.numNodes ∧ Dist (IsEdge g) source i v := by
    intro i v
    rw [hplaced i, List.mem_filter, List.mem_range, decide_eq_true_eq]
    refine and_congr_right fun hv => ⟨fun hi => ?_, h.reachable i v hv⟩
    rcases hdepth v hv with ⟨k, hk, hdist⟩ | ⟨hk, -⟩
    · rw [hk, Option.some.injEq] at hi
      have heq : k = i := by omega
      exact heq ▸ hdist
    · rw [hk, Option.some.injEq] at hi
      omega
  refine ⟨levels, hlevels, fun i => ?_, hmem, fun i v hv hi => ?_⟩
  · rw [hplaced i]
    exact List.nodup_range.filter _
  · by_contra hge
    have hv := (hmem i v).mpr ⟨hv, hi⟩
    rw [List.getD_eq_default levels [] (by omega)] at hv
    cases hv

-- ========================================================== the way back

variable {base : Nat → ℚ} {fin : Nat → Prop} {st : List ℚ × List ℚ} {i : Nat}

open scoped Classical in
/-- The dependencies of the vertices of `fin`. -/
noncomputable def given (g : CSRGraph Nat) (source : Nat) (fin : Nat → Prop) (v : Nat) : ℚ :=
  if fin v then dependencyOn g source v else 0

/-- A vertex that is done has given its dependency. -/
theorem given_of_mem (h : fin v) : given g source fin v = dependencyOn g source v := if_pos h

/-- A vertex that is not done has given nothing. -/
theorem given_of_not (h : ¬ fin v) : given g source fin v = 0 := if_neg h

/-- What a vertex has given depends only on whether it is done. -/
theorem given_congr {fin' : Nat → Prop} (h : fin v ↔ fin' v) :
    given g source fin v = given g source fin' v := by
  by_cases hv : fin v
  · rw [given_of_mem hv, given_of_mem (h.mp hv)]
  · rw [given_of_not hv, given_of_not fun hv' => hv (h.mpr hv')]

/-- The vertices of `fin` have their dependencies, and `scores` has them
too. -/
structure Returned (g : CSRGraph Nat) (source : Nat) (base : Nat → ℚ) (fin : Nat → Prop)
    (st : List ℚ × List ℚ) : Prop where
  deltas : st.1.length = g.numNodes
  scores : st.2.length = g.numNodes
  delta : ∀ v < g.numNodes, st.1[v]? = some (given g source fin v)
  score : ∀ v < g.numNodes, st.2[v]? = some (base v + given g source fin v)

/-- The loop over the outgoing neighbours. -/
theorem pullEdges (hc : Counted g source s) (hu : u < g.numNodes)
    (hi : Dist (IsEdge g) source i u) (vs : List Nat) {deltas : List ℚ} {x : ℚ}
    (hx : deltas[u]? = some x) (hvs : ∀ v ∈ vs, v < g.numNodes)
    (hnext : ∀ v ∈ vs, Dist (IsEdge g) source (i + 1) v →
      deltas[v]? = some (dependencyOn g source v)) :
    vs.foldlM (pullEdge s u) deltas
      = some (deltas.set u (x + (vs.map (Brandes.passed g source (i + 1) u)).sum)) := by
  induction vs generalizing deltas x with
  | nil =>
      rw [List.foldlM_nil, List.map_nil, List.sum_nil, add_zero]
      obtain ⟨hlt, rfl⟩ := List.getElem?_eq_some_iff.mp hx
      rw [List.set_getElem_self]
      rfl
  | cons v vs ih =>
      have hv := hvs v List.mem_cons_self
      have hdu := hc.measured.reachable i u hu hi
      have hlt : u < deltas.length := (List.getElem?_eq_some_iff.mp hx).1
      have hstep : pullEdge s u deltas v
          = some (deltas.set u (x + Brandes.passed g source (i + 1) u v)) := by
        by_cases hdist : Dist (IsEdge g) source (i + 1) v
        · have hdv := hc.measured.reachable (i + 1) v hv hdist
          rw [Brandes.passed, if_pos hdist]
          simp only [pullEdge, hdv, hdu, Nat.cast_add, Nat.cast_one, if_true, Option.bind_eq_bind,
            Option.bind_some, hc.count u hu, hc.count v hv, hnext v List.mem_cons_self hdist, hx]
        · have hsame : deltas.set u x = deltas := by
            obtain ⟨hlt, rfl⟩ := List.getElem?_eq_some_iff.mp hx
            exact List.set_getElem_self hlt
          rw [Brandes.passed, if_neg hdist, add_zero, hsame]
          rcases hc.measured.depth_eq hv with ⟨k, hk, hdist'⟩ | ⟨hk, -⟩
          · have hne : ¬ (k : Int) = i + 1 := by
              intro heq
              have heq : k = i + 1 := by omega
              exact hdist (heq ▸ hdist')
            simp only [pullEdge, hk, hdu, Option.bind_eq_bind, Option.bind_some, if_neg hne]
          · have hne : ¬ (-1 : Int) = i + 1 := by omega
            simp only [pullEdge, hk, hdu, Option.bind_eq_bind, Option.bind_some, if_neg hne]
      have hrest : ∀ w ∈ vs, Dist (IsEdge g) source (i + 1) w →
          (deltas.set u (x + Brandes.passed g source (i + 1) u v))[w]?
            = some (dependencyOn g source w) := by
        intro w hw hdist
        have hne : u ≠ w := by
          rintro rfl
          have := hi.unique hdist
          omega
        rw [List.getElem?_set_ne hne]
        exact hnext w (List.mem_cons_of_mem _ hw) hdist
      rw [List.foldlM_cons, hstep, Option.bind_eq_bind, Option.bind_some,
        ih (List.getElem?_set_self hlt) (fun w hw => hvs w (List.mem_cons_of_mem _ hw)) hrest,
        List.set_set, List.map_cons, List.sum_cons, add_assoc]

/-- A vertex pulls the dependencies of its successors, which are done. -/
theorem Returned.vertex (hg : Simple g) (hc : Counted g source s)
    (h : Returned g source base fin st) (hu : u < g.numNodes)
    (hi : Dist (IsEdge g) source i u) (hnot : ¬ fin u)
    (hnext : ∀ v < g.numNodes, Dist (IsEdge g) source (i + 1) v → fin v) :
    ∃ st', pullVertex g s st u = some st'
      ∧ Returned g source base (fun v => fin v ∨ v = u) st' := by
  obtain ⟨vs, hvs, hbound⟩ := hg.outNeigh u hu
  have houts : g.outs u = vs := by rw [CSRGraph.outs, hvs, Option.getD_some]
  have hdelta := h.delta u hu
  have hscore := h.score u hu
  rw [given_of_not hnot] at hdelta hscore
  rw [add_zero] at hscore
  have hpulled := pullEdges hc hu hi vs hdelta hbound fun v hv hdist => by
    rw [h.delta v (hbound v hv), given_of_mem (hnext v (hbound v hv) hdist)]
  have hsum : (vs.map (Brandes.passed g source (i + 1) u)).sum = dependencyOn g source u := by
    rw [← Brandes.sum_passed hg hi hu, ← houts, ← Brandes.map_outRefs, List.map_map]
    rfl
  rw [hsum, zero_add] at hpulled
  have hget : (st.1.set u (dependencyOn g source u))[u]? = some (dependencyOn g source u) :=
    List.getElem?_set_self (h.deltas ▸ hu)
  refine ⟨(st.1.set u (dependencyOn g source u), st.2.set u (base u + dependencyOn g source u)),
    ?_, ?_⟩
  · rw [pullVertex, hvs, Option.bind_eq_bind, Option.bind_some, hpulled, Option.bind_eq_bind,
      Option.bind_some, hscore, Option.bind_eq_bind, Option.bind_some, hget]
    rfl
  · refine ⟨List.length_set.trans h.deltas, List.length_set.trans h.scores, fun v hv => ?_,
      fun v hv => ?_⟩
    · by_cases hvu : v = u
      · subst hvu
        rw [given_of_mem (.inr rfl)]
        exact hget
      · rw [List.getElem?_set_ne (Ne.symm hvu), h.delta v hv]
        exact congrArg some (given_congr (or_iff_left hvu).symm)
    · by_cases hvu : v = u
      · subst hvu
        rw [given_of_mem (.inr rfl)]
        exact List.getElem?_set_self (h.scores ▸ hv)
      · rw [List.getElem?_set_ne (Ne.symm hvu), h.score v hv]
        exact congrArg (fun x => some (base v + x)) (given_congr (or_iff_left hvu).symm)

/-- What has been returned depends only on which vertices are done. -/
theorem Returned.congr {fin' : Nat → Prop} (h : Returned g source base fin st)
    (heq : ∀ v < g.numNodes, fin v ↔ fin' v) : Returned g source base fin' st where
  deltas := h.deltas
  scores := h.scores
  delta v hv := (h.delta v hv).trans (congrArg some (given_congr (heq v hv)))
  score v hv := (h.score v hv).trans
    (congrArg (fun x => some (base v + x)) (given_congr (heq v hv)))

/-- The loop over the list of a level. -/
theorem Returned.level (hg : Simple g) (hc : Counted g source s) (us : List Nat)
    (h : Returned g source base fin st) (hnd : us.Nodup)
    (hus : ∀ u ∈ us, u < g.numNodes ∧ Dist (IsEdge g) source i u ∧ ¬ fin u)
    (hnext : ∀ v < g.numNodes, Dist (IsEdge g) source (i + 1) v → fin v) :
    ∃ st', us.foldlM (pullVertex g s) st = some st'
      ∧ Returned g source base (fun v => fin v ∨ v ∈ us) st' := by
  induction us generalizing fin st with
  | nil =>
      refine ⟨st, rfl, h.congr fun v _ => ?_⟩
      exact ⟨.inl, fun hv => hv.resolve_right List.not_mem_nil⟩
  | cons u us ih =>
      obtain ⟨hu, hi, hnot⟩ := hus u List.mem_cons_self
      obtain ⟨hnotin, hnd⟩ := List.nodup_cons.mp hnd
      obtain ⟨st₁, hst₁, h₁⟩ := h.vertex hg hc hu hi hnot hnext
      obtain ⟨st₂, hst₂, h₂⟩ := ih h₁ hnd
        (fun w hw => by
          obtain ⟨hlt, hdist, hfin⟩ := hus w (List.mem_cons_of_mem _ hw)
          exact ⟨hlt, hdist, fun hor => hor.elim hfin fun heq => hnotin (heq ▸ hw)⟩)
        fun v hv hdist => .inl (hnext v hv hdist)
      refine ⟨st₂, ?_, h₂.congr fun v _ => ?_⟩
      · rw [List.foldlM_cons, hst₁]
        exact hst₂
      · rw [List.mem_cons, or_assoc]

/-- The loop over the levels, from the last to the first. -/
theorem Returned.levels (hg : Simple g) (hc : Counted g source s) {levels : List (List Nat)}
    (hnd : ∀ i, (levels.getD i []).Nodup)
    (hmem : ∀ i v, v ∈ levels.getD i [] ↔ v < g.numNodes ∧ Dist (IsEdge g) source i v) :
    ∀ (i : Nat) (st : List ℚ × List ℚ), i ≤ levels.length →
      Returned g source base (fun v => ∃ k ≥ i, Dist (IsEdge g) source k v) st →
      ∃ st', (levels.take i).reverse.foldlM (fun st verts => verts.foldlM (pullVertex g s) st) st
          = some st'
        ∧ Returned g source base (fun v => ∃ k, Dist (IsEdge g) source k v) st' := by
  intro i
  induction i with
  | zero =>
      intro st _ h
      refine ⟨st, rfl, h.congr fun v _ => ?_⟩
      exact ⟨fun ⟨k, _, hk⟩ => ⟨k, hk⟩, fun ⟨k, hk⟩ => ⟨k, Nat.zero_le k, hk⟩⟩
  | succ i ih =>
      intro st hi h
      have hget : levels.getD i [] = levels[i] := by
        rw [List.getD_eq_getElem?_getD, List.getElem?_eq_getElem hi, Option.getD_some]
      obtain ⟨st₁, hst₁, h₁⟩ := h.level hg hc levels[i] (hget ▸ hnd i) (i := i)
        (fun u hu => by
          obtain ⟨hlt, hdist⟩ := (hmem i u).mp (hget.symm ▸ hu)
          refine ⟨hlt, hdist, ?_⟩
          rintro ⟨k, hk, hdist'⟩
          have := hdist.unique hdist'
          omega)
        fun v _ hdist => ⟨i + 1, le_rfl, hdist⟩
      obtain ⟨st₂, hst₂, h₂⟩ := ih st₁ (by omega) (h₁.congr fun v hv => by
        rw [← hget, hmem i v]
        constructor
        · rintro (⟨k, hk, hdist⟩ | ⟨-, hdist⟩)
          · exact ⟨k, by omega, hdist⟩
          · exact ⟨i, le_rfl, hdist⟩
        · rintro ⟨k, hk, hdist⟩
          rcases Nat.lt_or_eq_of_le hk with hlt | rfl
          · exact .inl ⟨k, hlt, hdist⟩
          · exact .inr ⟨hv, hdist⟩)
      refine ⟨st₂, ?_, h₂⟩
      rw [List.take_succ_eq_append_getElem hi, List.reverse_append, List.reverse_singleton,
        List.singleton_append, List.foldlM_cons, hst₁]
      exact hst₂

/-- A source adds its dependencies. -/
theorem verifySource_spec (hg : Simple g) (hsource : source < g.numNodes) {fuel : Nat}
    (hfuel : g.numNodes < fuel) (base : Nat → ℚ) :
    verifySource fuel g ((List.range g.numNodes).map base) source
      = some ((List.range g.numNodes).map fun v => base v + dependencyOn g source v) := by
  obtain ⟨s₀, s, hstart, hsearch, hc⟩ := search_spec hg hsource hfuel
  obtain ⟨levels, hlevels, hnd, hmem, hall⟩ := levels_spec hc.measured
  have hinit : Returned g source base (fun v => ∃ k ≥ levels.length, Dist (IsEdge g) source k v)
      (List.replicate g.numNodes 0, (List.range g.numNodes).map base) := by
    have hnone : ∀ v < g.numNodes, ¬ ∃ k ≥ levels.length, Dist (IsEdge g) source k v := by
      rintro v hv ⟨k, hk, hdist⟩
      have := hall k v hv hdist
      omega
    refine ⟨List.length_replicate, by rw [List.length_map, List.length_range], fun v hv => ?_,
      fun v hv => ?_⟩
    · rw [given_of_not (hnone v hv), List.getElem?_replicate, if_pos hv]
    · rw [given_of_not (hnone v hv), add_zero, get_map_range base hv]
  obtain ⟨⟨deltas, scores⟩, hst, h⟩ := Returned.levels hg hc hnd hmem levels.length _ le_rfl hinit
  rw [List.take_length] at hst
  have hscores : scores
      = (List.range g.numNodes).map fun v => base v + dependencyOn g source v := by
    refine eq_map_range h.scores fun v hv => ?_
    rw [h.score v hv]
    by_cases hreach : ∃ k, Dist (IsEdge g) source k v
    · rw [given_of_mem hreach]
    · rw [given_of_not hreach, dependencyOn, dependency_unreachable]
      intro k hk
      obtain ⟨j, -, hj⟩ := hk.exists_dist
      exact hreach ⟨j, hj⟩
  rw [verifySource, hstart, Option.bind_eq_bind, Option.bind_some, hsearch, Option.bind_eq_bind,
    Option.bind_some, hlevels, Option.bind_eq_bind, Option.bind_some, hst]
  exact congrArg some hscores

-- ========================================================= the quotients

theorem centrality_nonneg (sources : List Nat) (v : Nat) : 0 ≤ centrality g sources v := by
  rw [Brandes.centrality_eq]
  refine List.sum_nonneg fun x hx => ?_
  obtain ⟨source, -, rfl⟩ := List.mem_map.mp hx
  rw [dependencyOn, dependency]
  exact Finset.sum_nonneg fun t _ =>
    div_nonneg (mul_nonneg (Nat.cast_nonneg _) (Nat.cast_nonneg _)) (Nat.cast_nonneg _)

/-- The sources, one after the other. -/
theorem verifySources_eq (hg : Simple g) {fuel : Nat} (hfuel : g.numNodes < fuel)
    (sources : List Nat) (hs : ∀ source ∈ sources, source < g.numNodes) (base : Nat → ℚ) :
    sources.foldlM (verifySource fuel g) ((List.range g.numNodes).map base)
      = some ((List.range g.numNodes).map fun v => base v + centrality g sources v) := by
  induction sources generalizing base with
  | nil =>
      rw [List.foldlM_nil]
      refine congrArg some (List.map_congr_left fun v _ => ?_)
      rw [Brandes.centrality_eq, List.map_nil, List.sum_nil, add_zero]
  | cons source sources ih =>
      rw [List.foldlM_cons, verifySource_spec hg (hs source List.mem_cons_self) hfuel,
        Option.bind_eq_bind, Option.bind_some, ih fun w hw => hs w (List.mem_cons_of_mem _ hw)]
      refine congrArg some (List.map_congr_left fun v _ => ?_)
      rw [Brandes.centrality_eq, Brandes.centrality_eq, List.map_cons, List.sum_cons, add_assoc]

/-- The largest centrality. -/
def IsBiggest (g : CSRGraph Nat) (sources : List Nat) (b : ℚ) : Prop :=
  IsGreatest {x | ∃ v < g.numNodes, x = centrality g sources v} b

/-- The largest score is the largest centrality. -/
theorem max_spec (hn : 1 ≤ g.numNodes) (sources : List Nat) :
    ∃ b, ((List.range g.numNodes).map (centrality g sources)).max? = some b
      ∧ ((List.range g.numNodes).map (centrality g sources)).foldl max 0 = b
      ∧ IsBiggest g sources b := by
  obtain ⟨n, hn⟩ := Nat.exists_eq_add_of_le' hn
  have hcons : ∃ x xs, (List.range g.numNodes).map (centrality g sources) = x :: xs ∧ 0 ≤ x := by
    rw [hn, List.range_succ_eq_map, List.map_cons]
    exact ⟨_, _, rfl, centrality_nonneg sources 0⟩
  obtain ⟨x, xs, hxs, hx⟩ := hcons
  have hmax : ((List.range g.numNodes).map (centrality g sources)).max?
      = some (xs.foldl max x) := by
    rw [hxs]
    rfl
  refine ⟨xs.foldl max x, hmax, ?_, ?_⟩
  · rw [hxs, List.foldl_cons, max_eq_right hx]
  · obtain ⟨hmem, hle⟩ := List.max?_eq_some_iff.mp hmax
    obtain ⟨v, hv, heq⟩ := List.mem_map.mp hmem
    refine ⟨⟨v, List.mem_range.mp hv, heq.symm⟩, ?_⟩
    rintro y ⟨w, hw, rfl⟩
    exact hle _ (List.mem_map.mpr ⟨w, List.mem_range.mpr hw, rfl⟩)

/-- The comparison passes when no pair of scores differs. -/
theorem compareScores_eq (scores scoresToTest : List Score) (us : List Nat)
    (hus : ∀ u ∈ us, u < scores.length ∧ u < scoresToTest.length) :
    ∀ allOk : Bool, ∃ ok, us.foldlM (compareScore scores scoresToTest) allOk = some ok
      ∧ (ok = true ↔ allOk = true
        ∧ ∀ u ∈ us, differ (scoresToTest.getD u none) (scores.getD u none) = false) := by
  induction us with
  | nil => exact fun allOk => ⟨allOk, rfl, by simp⟩
  | cons u us ih =>
      intro allOk
      obtain ⟨hu, hu'⟩ := hus u List.mem_cons_self
      have hread : ∀ {l : List Score}, u < l.length → l[u]? = some (l.getD u none) := by
        intro l hl
        rw [List.getD_eq_getElem?_getD, List.getElem?_eq_getElem hl, Option.getD_some]
      obtain ⟨ok, hok, hiff⟩ := ih (fun w hw => hus w (List.mem_cons_of_mem _ hw))
        (if differ (scoresToTest.getD u none) (scores.getD u none) then false else allOk)
      refine ⟨ok, ?_, hiff.trans ?_⟩
      · rw [List.foldlM_cons, compareScore, hread hu, hread hu']
        exact hok
      · rw [List.forall_mem_cons]
        cases differ (scoresToTest.getD u none) (scores.getD u none) <;> simp

/-- The scores that the check is against. -/
noncomputable def normalized (g : CSRGraph Nat) (sources : List Nat) (b : ℚ) : List Score :=
  (List.range g.numNodes).map fun v => quotient (centrality g sources v) b

/-- The verifier accepts the scores that nowhere differ from the normalised
centralities. -/
theorem bcVerifier_eq (hg : Simple g) {sources : List Nat}
    (hs : ∀ source ∈ sources, source < g.numNodes) {fuel : Nat} (hfuel : g.numNodes < fuel)
    {b : ℚ} (hb : ((List.range g.numNodes).map (centrality g sources)).max? = some b)
    {scoresToTest : List Score} (hlen : scoresToTest.length = g.numNodes) :
    ∃ ok, bcVerifier fuel g sources scoresToTest = some ok
      ∧ (ok = true ↔ ∀ v < g.numNodes,
        differ (scoresToTest.getD v none) (quotient (centrality g sources v) b) = false) := by
  have hzero : List.replicate g.numNodes (0 : ℚ) = (List.range g.numNodes).map fun _ => 0 := by
    rw [List.map_const', List.length_range]
  have hscores := verifySources_eq hg hfuel sources hs fun _ => 0
  simp only [zero_add] at hscores
  obtain ⟨ok, hok, hiff⟩ := compareScores_eq (normalized g sources b) scoresToTest
    (List.range g.numNodes)
    (fun u hu => by
      rw [normalized, List.length_map, List.length_range, hlen]
      exact ⟨List.mem_range.mp hu, List.mem_range.mp hu⟩) true
  refine ⟨ok, ?_, hiff.trans ?_⟩
  · rw [bcVerifier, hzero, hscores, Option.bind_eq_bind, Option.bind_some, hb,
      Option.bind_eq_bind, Option.bind_some, List.map_map]
    exact hok
  · constructor
    · rintro ⟨-, hall⟩ v hv
      have h := hall v (List.mem_range.mpr hv)
      rwa [normalized, getD_map_range _ hv] at h
    · refine fun hall => ⟨rfl, fun u hu => ?_⟩
      rw [normalized, getD_map_range _ (List.mem_range.mp hu)]
      exact hall u (List.mem_range.mp hu)

-- ======================================================== normalisation

/-- The normalisation divides every centrality by the largest. -/
theorem normalize_total (sources : List Nat) {b : ℚ}
    (hb : ((List.range g.numNodes).map (centrality g sources)).foldl max 0 = b) (x : ℚ) :
    Total (normalize g)
      ⟨(List.range g.numNodes).map fun v => some (centrality g sources v), x⟩
      fun r => r.scores = normalized g sources b := by
  have hvalues : ((List.range g.numNodes).map fun v => some (centrality g sources v)).filterMap id
      = (List.range g.numNodes).map (centrality g sources) := by
    rw [List.filterMap_map]
    exact congrFun List.filterMap_eq_map _
  refine Total.seq (q := fun r => r = ⟨(List.range g.numNodes).map fun v =>
      some (centrality g sources v), b⟩) (total_act ⟨_, rfl⟩ ?_) ?_
  · rintro r rfl
    rw [hvalues, hb]
  · rintro r rfl
    refine total_once
      (fun r => ∃ scores, scores.length = g.numNodes ∧ r = ⟨scores, b⟩)
      (fun v r => v < g.numNodes ∧ r.scores[v]? = some (some (centrality g sources v)))
      (fun v r => r.scores[v]? = some (quotient (centrality g sources v) b))
      ?_ ?_ List.nodup_range ⟨_, by rw [List.length_map, List.length_range], rfl⟩
      (fun v hv => ⟨List.mem_range.mp hv, get_map_range _ (List.mem_range.mp hv)⟩) ?_
    · rintro v r ⟨scores, hlen, rfl⟩ ⟨hv, hget⟩
      have hfetch : fetch scores v = some (centrality g sources v) := by
        rw [fetch_natCast, hget]
        rfl
      refine ⟨⟨scores.set v (quotient (centrality g sources v) b), b⟩, ?_,
        ⟨_, List.length_set.trans hlen, rfl⟩, List.getElem?_set_self (hlen ▸ hv)⟩
      rw [normStep, hfetch, Option.bind_eq_bind, Option.bind_some, write_natCast (hlen ▸ hv)]
      rfl
    · rintro v w r r' hne ⟨scores, hlen, rfl⟩ ⟨hw, hget⟩ hstep
      have hfetch : fetch scores w = some (centrality g sources w) := by
        rw [fetch_natCast, hget]
        rfl
      rw [normStep, hfetch, Option.bind_eq_bind, Option.bind_some, write_natCast (hlen ▸ hw)]
        at hstep
      cases hstep
      exact ⟨fun h => ⟨h.1, (List.getElem?_set_ne (Ne.symm hne)).trans h.2⟩,
        fun h => (List.getElem?_set_ne (Ne.symm hne)).trans h⟩
    · rintro r ⟨scores, hlen, rfl⟩ hall
      exact eq_map_range hlen fun v hv => hall v (List.mem_range.mpr hv)

/-- No score differs from itself, not even one that is not a number. -/
theorem differ_self (x : Score) : differ x x = false := by
  cases x with
  | none => rfl
  | some x =>
      refine decide_eq_false ?_
      rw [sub_self, abs_zero, epsilon]
      norm_num

-- =========================================================== the results

/-- The verifier never fails on an array of the right length, and accepts
it exactly if every score that is a number is near to the normalised
centrality; where all centralities are zero it accepts anything. -/
theorem bcVerifier_iff (g : CSRGraph Nat) (hg : Simple g) (hn : 1 ≤ g.numNodes)
    (sources : List Nat) (hs : ∀ source ∈ sources, source < g.numNodes) (fuel : Nat)
    (hfuel : g.numNodes < fuel) :
    ∃ b, IsBiggest g sources b ∧ ∀ scoresToTest : List Score, scoresToTest.length = g.numNodes →
      ∃ ok, bcVerifier fuel g sources scoresToTest = some ok
        ∧ (ok = true ↔ b = 0 ∨ ∀ v < g.numNodes, ∀ x : ℚ, scoresToTest[v]? = some (some x) →
          |x - centrality g sources v / b| ≤ epsilon) := by
  obtain ⟨b, hb, -, hbiggest⟩ := max_spec hn sources
  refine ⟨b, hbiggest, fun scoresToTest hlen => ?_⟩
  obtain ⟨ok, hok, hiff⟩ := bcVerifier_eq hg hs hfuel hb hlen
  refine ⟨ok, hok, hiff.trans ?_⟩
  have hget : ∀ v < g.numNodes, scoresToTest[v]? = some (scoresToTest.getD v none) := by
    intro v hv
    rw [List.getD_eq_getElem?_getD, List.getElem?_eq_getElem (hlen ▸ hv), Option.getD_some]
  by_cases hzero : b = 0
  · refine ⟨fun _ => .inl hzero, fun _ v _ => ?_⟩
    rw [quotient, if_pos hzero]
    cases scoresToTest.getD v none <;> rfl
  · constructor
    · refine fun hall => .inr fun v hv x hx => ?_
      have h := hall v hv
      rw [hget v hv, Option.some.injEq] at hx
      rw [hx, quotient, if_neg hzero, differ, decide_eq_false_iff_not, not_lt] at h
      exact h
    · intro hall v hv
      rw [quotient, if_neg hzero]
      cases hx : scoresToTest.getD v none with
      | none => rfl
      | some x =>
          have hnear := hall.resolve_left hzero v hv x ((hget v hv).trans (congrArg some hx))
          exact decide_eq_false (not_lt.mpr hnear)

/-- The verifier on a path of three vertices. -/
theorem bcVerifier_iff_threePath :
    ∃ b, IsBiggest Brandes.threePath [0, 2] b
      ∧ ∀ scoresToTest : List Score, scoresToTest.length = 3 →
        ∃ ok, bcVerifier 4 Brandes.threePath [0, 2] scoresToTest = some ok
          ∧ (ok = true ↔ b = 0 ∨ ∀ v < 3, ∀ x : ℚ, scoresToTest[v]? = some (some x) →
            |x - centrality Brandes.threePath [0, 2] v / b| ≤ epsilon) :=
  bcVerifier_iff Brandes.threePath Brandes.threePath_simple (by decide) [0, 2] (by decide) 4
    (by decide)

/-- In every run, `Brandes` ends with scores that the verifier accepts
when it is given the same sources. -/
theorem brandes_verified (g : CSRGraph Nat) (hg : Simple g) (hn : 1 ≤ g.numNodes)
    (sources : List Nat) (hs : ∀ source ∈ sources, source < g.numNodes) (fuel : Nat)
    (hfuel : g.numNodes < fuel) (m : Brandes.Memory) (x : ℚ) :
    Ends (fun m' => Ends (fun r => bcVerifier fuel g sources r.scores = some true)
        ([normalize g], ⟨m'.scores.map some, x⟩))
      ([Brandes.brandes g sources], m) := by
  obtain ⟨b, hb, hfold, -⟩ := max_spec hn sources
  refine (Brandes.brandes_total hg hs).ends.mono ?_
  rintro m' ⟨hlen, hscore⟩
  have hscores : m'.scores.map some
      = (List.range g.numNodes).map fun v => some (centrality g sources v) := by
    refine eq_map_range ((List.length_map _).trans hlen) fun v hv => ?_
    rw [List.getElem?_map, Brandes.getElem?_getD (hlen ▸ hv) 0, Option.map_some]
    exact congrArg (fun y => some (some y)) (hscore v hv)
  rw [hscores]
  refine (normalize_total sources hfold x).ends.mono ?_
  rintro r hr
  have hlen : r.scores.length = g.numNodes := by
    rw [hr, normalized, List.length_map, List.length_range]
  obtain ⟨ok, hok, hiff⟩ := bcVerifier_eq hg hs hfuel hb hlen
  rw [hok, hiff.mpr]
  intro v hv
  rw [hr, normalized, getD_map_range _ hv]
  exact differ_self _

/-- The kernel and the verifier on a path of three vertices. -/
theorem brandes_verified_threePath :
    Ends (fun m' => Ends (fun r => bcVerifier 4 Brandes.threePath [0, 2] r.scores = some true)
        ([normalize Brandes.threePath], ⟨m'.scores.map some, 0⟩))
      ([Brandes.brandes Brandes.threePath [0, 2]], ⟨[], [], [], [], .reset, 0, [], [], 0⟩) :=
  brandes_verified Brandes.threePath Brandes.threePath_simple (by decide) [0, 2] (by decide) 4
    (by decide) _ 0

end ThesisBench.Gapbs.BcVerifier
