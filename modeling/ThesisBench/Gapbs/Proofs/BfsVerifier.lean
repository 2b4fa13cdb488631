/-
`BFSVerifier` accepts exactly the breadth-first trees.

The traversal keeps its vector in the order of the distances, spanning at
most two levels from the current vertex on (`Searched`). So when a vertex
is found, everything at most as far as the current vertex has been found
before, and the depth it gets is its distance. The traversal ends, since
no vertex is pushed twice, and then every reachable vertex has its
distance and every other one -1 (`Measured`). What remains is that each
vertex's check says what a tree has to satisfy there (`Rooted`).
-/
import Mathlib.Data.List.Nodup
import ThesisBench.Gapbs.BfsVerifier

namespace ThesisBench.Gapbs.Bfs

open Distance

variable {g : CSRGraph Nat} {source it u v : Nat} {s : Visit}

-- ======================================================== the invariant

/-- What holds when the traversal stands at position `it`. -/
structure Searched (g : CSRGraph Nat) (source it : Nat) (s : Visit) : Prop where
  length : s.depth.length = g.numNodes
  lt : ∀ v ∈ s.toVisit, v < g.numNodes
  nodup : s.toVisit.Nodup
  start : source ∈ s.toVisit
  unseen : ∀ v < g.numNodes, v ∉ s.toVisit → s.depth[v]? = some (-1)
  seen : ∀ v ∈ s.toVisit, ∃ k : Nat, s.depth[v]? = some (k : Int) ∧ Dist (IsEdge g) source k v
  sorted : s.toVisit.Pairwise fun u v => ∀ j k, Dist (IsEdge g) source j u →
    Dist (IsEdge g) source k v → j ≤ k
  span : ∀ u v, s.toVisit[it]? = some u → v ∈ s.toVisit → ∀ j k, Dist (IsEdge g) source j u →
    Dist (IsEdge g) source k v → k ≤ j + 1
  closed : ∀ i u, i < it → s.toVisit[i]? = some u → ∀ v ∈ g.outs u, v ∈ s.toVisit

/-- No more vertices are to visit than there are. -/
theorem Searched.length_le (h : Searched g source it s) : s.toVisit.length ≤ g.numNodes := by
  have hsub : s.toVisit ⊆ List.range g.numNodes := fun v hv => List.mem_range.mpr (h.lt v hv)
  have hle := (h.nodup.subperm hsub).length_le
  rwa [List.length_range] at hle

/-- A vertex that was not found fits. -/
theorem Searched.room (h : Searched g source it s) (hv : v < g.numNodes)
    (hnot : v ∉ s.toVisit) : s.toVisit.length < g.numNodes := by
  have hnd : (v :: s.toVisit).Nodup := List.nodup_cons.mpr ⟨hnot, h.nodup⟩
  have hsub : v :: s.toVisit ⊆ List.range g.numNodes := by
    intro w hw
    cases hw with
    | head => exact List.mem_range.mpr hv
    | tail _ hw => exact List.mem_range.mpr (h.lt w hw)
  have hle := (hnd.subperm hsub).length_le
  rwa [List.length_range, List.length_cons] at hle

/-- The traversal begins with the source at depth 0. -/
theorem searched_start (hsource : source < g.numNodes) :
    ∃ s, visitStart g source = some s ∧ Searched g source 0 s := by
  have hroom : ([] : List Nat).length < g.numNodes := by
    rw [List.length_nil]
    omega
  refine ⟨⟨(List.replicate g.numNodes (-1)).set source 0, [source]⟩, ?_, ?_⟩
  · rw [visitStart, if_pos hsource, Visit.push, if_pos hroom]
    rfl
  · have hlen : source < (List.replicate g.numNodes (-1 : Int)).length := by
      rwa [List.length_replicate]
    constructor
    case length => rw [List.length_set, List.length_replicate]
    case lt => exact fun v hv => List.mem_singleton.mp hv ▸ hsource
    case nodup => exact List.nodup_singleton _
    case start => exact List.mem_singleton_self _
    case unseen =>
      intro v hv hnot
      have hne : source ≠ v := fun heq => hnot (heq ▸ List.mem_singleton_self _)
      rw [List.getElem?_set_ne hne, List.getElem?_replicate, if_pos hv]
    case seen =>
      intro v hv
      rw [List.mem_singleton.mp hv]
      exact ⟨0, List.getElem?_set_self hlen, dist_start _ _⟩
    case sorted => exact List.pairwise_singleton _ _
    case span =>
      intro u v hu hv j k hj hk
      rw [List.getElem?_cons_zero, Option.some.injEq] at hu
      subst hu
      rw [List.mem_singleton.mp hv] at hk
      have := hj.unique hk
      omega
    case closed => exact fun i u hi => absurd hi (Nat.not_lt_zero i)

-- ============================================================= one edge

/-- Everything up to the level of the current vertex has been found. -/
theorem Searched.found (h : Searched g source it s) (hu : s.toVisit[it]? = some u) {j k : Nat}
    (hj : Dist (IsEdge g) source j u) (hk : Dist (IsEdge g) source k v) (hle : k ≤ j) :
    v ∈ s.toVisit := by
  refine Dist.found (· ∈ s.toVisit) (fun x => ∃ i < it, s.toVisit[i]? = some x) h.start
    ?_ ?_ hk hle
  · rintro x y ⟨i, hi, hx⟩ hxy
    exact h.closed i x hi hx y hxy.2
  · -- it is before the current vertex, since the vector is sorted
    intro x l hx hl hlt
    obtain ⟨i, hi⟩ := List.getElem?_of_mem hx
    refine ⟨i, ?_, hi⟩
    by_contra hge
    obtain ⟨hi', rfl⟩ := List.getElem?_eq_some_iff.mp hi
    obtain ⟨hit, rfl⟩ := List.getElem?_eq_some_iff.mp hu
    by_cases heq : i = it
    · subst heq
      have := hj.unique hl
      omega
    · have hle := List.pairwise_iff_getElem.mp h.sorted it i hit hi' (by omega) j l hj hl
      omega

/-- So a neighbour that was not is one level further. -/
theorem Searched.dist_new (h : Searched g source it s) (hu : s.toVisit[it]? = some u)
    {j : Nat} (hj : Dist (IsEdge g) source j u) (hv : v ∈ g.outs u) (hnot : v ∉ s.toVisit) :
    Dist (IsEdge g) source (j + 1) v := by
  have hlt := h.lt u (List.mem_of_getElem? hu)
  obtain ⟨k, hle, hk⟩ := hj.succ (y := v) ⟨hlt, hv⟩
  have hgt : ¬ k ≤ j := fun hkj => hnot (h.found hu hj hk hkj)
  have heq : k = j + 1 := by omega
  exact heq ▸ hk

/-- A new neighbour of the present vertex goes to the end. -/
theorem Searched.push (h : Searched g source it s) (hu : s.toVisit[it]? = some u)
    {j : Nat} (hj : Dist (IsEdge g) source j u) (hv : v ∈ g.outs u) (hlt : v < g.numNodes)
    (hnot : v ∉ s.toVisit) :
    Searched g source it ⟨s.depth.set v (j + 1), s.toVisit ++ [v]⟩ := by
  have hnew := h.dist_new hu hj hv hnot
  have hlen : v < s.depth.length := h.length ▸ hlt
  have hit : it < s.toVisit.length := (List.getElem?_eq_some_iff.mp hu).1
  constructor
  case length => rw [List.length_set, h.length]
  case lt =>
    intro w hw
    rcases List.mem_append.mp hw with hw | hw
    · exact h.lt w hw
    · exact List.mem_singleton.mp hw ▸ hlt
  case nodup => exact h.nodup.append (List.nodup_singleton v) (List.disjoint_singleton.mpr hnot)
  case start => exact List.mem_append_left _ h.start
  case unseen =>
    intro w hw hwnot
    rw [List.mem_append, List.mem_singleton, not_or] at hwnot
    rw [List.getElem?_set_ne (Ne.symm hwnot.2)]
    exact h.unseen w hw hwnot.1
  case seen =>
    intro w hw
    rcases List.mem_append.mp hw with hw | hw
    · have hne : v ≠ w := fun heq => hnot (heq ▸ hw)
      rw [List.getElem?_set_ne hne]
      exact h.seen w hw
    · rw [List.mem_singleton.mp hw]
      exact ⟨j + 1, List.getElem?_set_self hlen, hnew⟩
  case sorted =>
    refine List.pairwise_append.mpr ⟨h.sorted, List.pairwise_singleton _ _, ?_⟩
    intro x hx y hy i k hi hk
    rw [List.mem_singleton.mp hy] at hk
    have hspan := h.span u x hu hx j i hj hi
    have heq := hnew.unique hk
    omega
  case span =>
    intro x w hx hw i k hi hk
    rw [List.getElem?_append_left hit, hu, Option.some.injEq] at hx
    subst hx
    rcases List.mem_append.mp hw with hw | hw
    · exact h.span u w hu hw i k hi hk
    · rw [List.mem_singleton.mp hw] at hk
      have hij := hi.unique hj
      have heq := hnew.unique hk
      omega
  case closed =>
    intro i x hi hx w hw
    rw [List.getElem?_append_left (by omega)] at hx
    exact List.mem_append_left _ (h.closed i x hi hx w hw)

/-- One edge: the vertex has been found afterwards, and what was pushed
before stays. -/
theorem Searched.edge (h : Searched g source it s) (hu : s.toVisit[it]? = some u)
    (hv : v ∈ g.outs u) (hlt : v < g.numNodes) :
    ∃ s', visitEdge g.numNodes u s v = some s' ∧ Searched g source it s'
      ∧ s.toVisit <+: s'.toVisit ∧ v ∈ s'.toVisit := by
  by_cases hmem : v ∈ s.toVisit
  · obtain ⟨k, hk, -⟩ := h.seen v hmem
    have hne : (k : Int) ≠ -1 := by omega
    refine ⟨s, ?_, h, List.prefix_rfl, hmem⟩
    simp only [visitEdge, hk, Option.bind_eq_bind, Option.bind_some, if_neg hne]
  · obtain ⟨j, hdu, hj⟩ := h.seen u (List.mem_of_getElem? hu)
    have hdv := h.unseen v hlt hmem
    refine ⟨_, ?_, h.push hu hj hv hlt hmem, List.prefix_append _ _,
      List.mem_append_right _ (List.mem_singleton_self v)⟩
    simp only [visitEdge, hdv, hdu, Option.bind_eq_bind, Option.bind_some, if_true, Visit.push,
      if_pos (h.room hlt hmem)]

-- ======================================================== the traversal

/-- What a prefix has, the whole list has. -/
theorem getElem?_of_prefix {α : Type} {l l' : List α} {i : Nat} {x : α} (h : l <+: l')
    (hi : l[i]? = some x) : l'[i]? = some x := by
  obtain ⟨hlt, rfl⟩ := List.getElem?_eq_some_iff.mp hi
  exact List.prefix_iff_getElem?.mp h i hlt

/-- The loop over the outgoing neighbours. -/
theorem Searched.edges (vs : List Nat) (h : Searched g source it s)
    (hu : s.toVisit[it]? = some u) (hvs : ∀ v ∈ vs, v ∈ g.outs u ∧ v < g.numNodes) :
    ∃ s', vs.foldlM (visitEdge g.numNodes u) s = some s' ∧ Searched g source it s'
      ∧ s.toVisit <+: s'.toVisit ∧ ∀ v ∈ vs, v ∈ s'.toVisit := by
  induction vs generalizing s with
  | nil => exact ⟨s, rfl, h, List.prefix_rfl, fun v hv => absurd hv List.not_mem_nil⟩
  | cons v vs ih =>
      obtain ⟨hv, hlt⟩ := hvs v List.mem_cons_self
      obtain ⟨s₁, hs₁, h₁, hpre₁, hv₁⟩ := h.edge hu hv hlt
      have hu₁ := getElem?_of_prefix hpre₁ hu
      obtain ⟨s₂, hs₂, h₂, hpre₂, hvs₂⟩ := ih h₁ hu₁ fun w hw => hvs w (List.mem_cons_of_mem v hw)
      refine ⟨s₂, ?_, h₂, hpre₁.trans hpre₂, ?_⟩
      · rw [List.foldlM_cons, hs₁]
        exact hs₂
      · intro w hw
        cases hw with
        | head => exact hpre₂.subset hv₁
        | tail _ hw => exact hvs₂ w hw

/-- On to the next vertex. -/
theorem Searched.next (h : Searched g source it s) (hu : s.toVisit[it]? = some u)
    (hall : ∀ v ∈ g.outs u, v ∈ s.toVisit) : Searched g source (it + 1) s where
  length := h.length
  lt := h.lt
  nodup := h.nodup
  start := h.start
  unseen := h.unseen
  seen := h.seen
  sorted := h.sorted
  span := by
    intro x w hx hw i k hi hk
    obtain ⟨j, -, hj⟩ := h.seen u (List.mem_of_getElem? hu)
    have hspan := h.span u w hu hw j k hj hk
    obtain ⟨hx', rfl⟩ := List.getElem?_eq_some_iff.mp hx
    obtain ⟨hu', rfl⟩ := List.getElem?_eq_some_iff.mp hu
    have hle := List.pairwise_iff_getElem.mp h.sorted it (it + 1) hu' hx' (by omega) j i hj hi
    omega
  closed := by
    intro i x hi hx
    by_cases heq : i = it
    · subst heq
      rw [hu, Option.some.injEq] at hx
      exact hx ▸ hall
    · exact h.closed i x (by omega) hx

/-- What the traversal leaves: every reachable vertex has its distance and
every other one -1. -/
structure Measured (g : CSRGraph Nat) (source : Nat) (depth : List Int) : Prop where
  reachable : ∀ k v, v < g.numNodes → Dist (IsEdge g) source k v → depth[v]? = some (k : Int)
  unreachable : ∀ v < g.numNodes, (∀ k, ¬ Walk (IsEdge g) source k v) → depth[v]? = some (-1)

/-- At the end of the list all distances are known. -/
theorem Searched.measured (h : Searched g source it s) (hend : s.toVisit[it]? = none) :
    Measured g source s.depth := by
  have hlen : s.toVisit.length ≤ it := List.getElem?_eq_none_iff.mp hend
  have hclosed : ∀ x y, x ∈ s.toVisit → IsEdge g x y → y ∈ s.toVisit := by
    intro x y hx hxy
    obtain ⟨i, hi⟩ := List.getElem?_of_mem hx
    have hlt : i < s.toVisit.length := (List.getElem?_eq_some_iff.mp hi).1
    exact h.closed i x (by omega) hi y hxy.2
  constructor
  case reachable =>
    intro k v hv hk
    have hmem : v ∈ s.toVisit :=
      Dist.found (· ∈ s.toVisit) (· ∈ s.toVisit) h.start hclosed (fun x _ hx _ _ => hx) hk le_rfl
    obtain ⟨j, hj, hdist⟩ := h.seen v hmem
    rw [hj, hdist.unique hk]
  case unreachable =>
    intro v hv hnone
    refine h.unseen v hv fun hmem => ?_
    obtain ⟨k, -, hk⟩ := h.seen v hmem
    exact hnone k hk.1

/-- The traversal ends and has measured everything. -/
theorem Searched.visitFrom (hg : g.Transposed) (h : Searched g source it s) {fuel : Nat}
    (hfuel : g.numNodes < it + fuel) (hit : it ≤ s.toVisit.length) :
    ∃ s', visitFrom g fuel it s = some s' ∧ Measured g source s'.depth := by
  have hle := h.length_le
  induction fuel generalizing it s with
  | zero => omega
  | succ fuel ih =>
      cases hu : s.toVisit[it]? with
      | none => exact ⟨s, by simp only [Bfs.visitFrom, hu], h.measured hu⟩
      | some u =>
          have hlt := h.lt u (List.mem_of_getElem? hu)
          obtain ⟨vs, hvs, hbound⟩ := hg.outNeigh u hlt
          have houts : g.outs u = vs := by rw [CSRGraph.outs, hvs, Option.getD_some]
          obtain ⟨s₁, hs₁, h₁, hpre, hall⟩ :=
            h.edges vs hu fun v hv => ⟨houts ▸ hv, hbound v hv⟩
          have hu₁ := getElem?_of_prefix hpre hu
          have hit₁ : it < s₁.toVisit.length := (List.getElem?_eq_some_iff.mp hu₁).1
          obtain ⟨s', hs', hm⟩ := ih (h₁.next hu₁ (houts ▸ hall)) (by omega) hit₁ h₁.length_le
          refine ⟨s', ?_, hm⟩
          simp only [Bfs.visitFrom, hu, hvs, Option.bind_eq_bind, Option.bind_some, hs₁]
          exact hs'

-- ============================================================ the check

variable {depth parent : List Int}

/-- The depth of a vertex is its distance, or -1. -/
theorem Measured.depth_eq (h : Measured g source depth) (hv : v < g.numNodes) :
    (∃ k : Nat, depth[v]? = some (k : Int) ∧ Dist (IsEdge g) source k v)
      ∨ (depth[v]? = some (-1) ∧ ∀ k, ¬ Walk (IsEdge g) source k v) := by
  by_cases hreach : ∃ k, Walk (IsEdge g) source k v
  · obtain ⟨k, hk⟩ := hreach
    obtain ⟨j, -, hj⟩ := hk.exists_dist
    exact .inl ⟨j, h.reachable j v hv hj, hj⟩
  · push Not at hreach
    exact .inr ⟨h.unreachable v hv hreach, hreach⟩

/-- The loop over the incoming neighbours. -/
theorem findParent_iff (h : Measured g source depth) (du pu : Int) {vs : List Nat}
    (hvs : ∀ v ∈ vs, v < g.numNodes) :
    ∃ ok, findParent depth du pu vs = some ok
      ∧ (ok = true ↔ ∃ v ∈ vs, (v : Int) = pu ∧ depth[v]? = some (du - 1)) := by
  induction vs with
  | nil => exact ⟨false, rfl, by simp⟩
  | cons v vs ih =>
      by_cases hv : (v : Int) = pu
      · have hread : ∃ dv, depth[v]? = some dv := by
          rcases h.depth_eq (hvs v List.mem_cons_self) with ⟨k, hk, -⟩ | ⟨hk, -⟩
          · exact ⟨k, hk⟩
          · exact ⟨-1, hk⟩
        obtain ⟨dv, hdv⟩ := hread
        refine ⟨decide (dv = du - 1), ?_, ?_⟩
        · rw [findParent, if_pos hv, hdv, Option.map_some]
        · rw [decide_eq_true_eq]
          constructor
          · intro heq
            exact ⟨v, List.mem_cons_self, hv, heq ▸ hdv⟩
          · rintro ⟨w, -, hw, hdw⟩
            have hwv : w = v := by omega
            rw [hwv, hdv, Option.some.injEq] at hdw
            exact hdw
      · obtain ⟨ok, hok, hiff⟩ := ih fun w hw => hvs w (List.mem_cons_of_mem v hw)
        refine ⟨ok, by rw [findParent, if_neg hv, hok], hiff.trans ?_⟩
        simp only [List.mem_cons, exists_eq_or_imp, hv, false_and, false_or]

/-- What a breadth-first tree has to satisfy at one vertex. -/
structure Rooted (g : CSRGraph Nat) (source : Nat) (parent : List Int) (v : Nat) : Prop where
  root : v = source → parent[v]? = some (source : Int)
  unreachable : (∀ k, ¬ Walk (IsEdge g) source k v) → parent[v]? = some (-1)
  reachable : v ≠ source → (∃ k, Walk (IsEdge g) source k v) →
    ∃ u k : Nat, parent[v]? = some (u : Int) ∧ IsEdge g u v
      ∧ Dist (IsEdge g) source k u ∧ Dist (IsEdge g) source (k + 1) v

/-- A breadth-first tree is one at every vertex. -/
theorem isBfsTree_iff (hsource : source < g.numNodes) (hlen : parent.length = g.numNodes) :
    IsBfsTree g source parent ↔ ∀ v < g.numNodes, Rooted g source parent v := by
  constructor
  · intro h v hv
    exact ⟨fun heq => heq ▸ h.root, h.unreachable v hv, h.reachable v hv⟩
  · intro h
    exact ⟨hlen, (h source hsource).root rfl, fun v hv => (h v hv).unreachable,
      fun v hv => (h v hv).reachable⟩

/-- What a vertex has to satisfy that is not reachable. -/
theorem rooted_unreachable (hnone : ∀ k, ¬ Walk (IsEdge g) source k v) :
    Rooted g source parent v ↔ parent[v]? = some (-1) := by
  constructor
  · exact fun h => h.unreachable hnone
  · intro h
    refine ⟨fun heq => ?_, fun _ => h, fun _ ⟨k, hk⟩ => absurd hk (hnone k)⟩
    exact absurd (heq ▸ Walk.nil) (hnone 0)

theorem rooted_source : Rooted g source parent source ↔ parent[source]? = some (source : Int) :=
  ⟨fun h => h.root rfl, fun h => ⟨fun _ => h, fun hnone => absurd .nil (hnone 0),
    fun hne => absurd rfl hne⟩⟩

/-- What every other vertex has to satisfy. -/
theorem rooted_reachable {k : Nat} (hk : Dist (IsEdge g) source k v) (hne : v ≠ source) :
    Rooted g source parent v ↔ ∃ u j : Nat, parent[v]? = some (u : Int) ∧ IsEdge g u v
      ∧ Dist (IsEdge g) source j u ∧ Dist (IsEdge g) source (j + 1) v :=
  ⟨fun h => h.reachable hne ⟨k, hk.1⟩, fun h => ⟨fun heq => absurd heq hne,
    fun hnone => absurd hk.1 (hnone k), fun _ _ => h⟩⟩

/-- The incoming neighbour that the loop looks for is the parent of a
tree. -/
theorem parent_iff (hg : g.Transposed) (h : Measured g source depth) (hu : u < g.numNodes)
    {k : Nat} (hk : Dist (IsEdge g) source k u) (hne : u ≠ source) {pu : Int} :
    (∃ v ∈ g.ins u, (v : Int) = pu ∧ depth[v]? = some ((k : Int) - 1)) ↔
      ∃ v j : Nat, pu = (v : Int) ∧ IsEdge g v u
        ∧ Dist (IsEdge g) source j v ∧ Dist (IsEdge g) source (j + 1) u := by
  have hpos : k ≠ 0 := by
    rintro rfl
    exact hne hk.eq_start
  constructor
  · rintro ⟨v, hv, hpu, hdv⟩
    have hvlt := hg.ins_lt hu hv
    have hedge : IsEdge g v u := ⟨hvlt, (hg.mem_ins u hu v hvlt).mp hv⟩
    rcases h.depth_eq hvlt with ⟨j, hj, hdist⟩ | ⟨hj, -⟩
    · rw [hj, Option.some.injEq] at hdv
      have hkj : k = j + 1 := by omega
      exact ⟨v, j, hpu.symm, hedge, hdist, hkj ▸ hk⟩
    · -- not reachable: then `k` would be 0
      rw [hj, Option.some.injEq] at hdv
      omega
  · rintro ⟨v, j, hpu, hedge, hj, hj'⟩
    have hdv := h.reachable j v hedge.1 hj
    have hkj := hk.unique hj'
    refine ⟨v, (hg.mem_ins u hu v hedge.1).mpr hedge.2, hpu.symm, ?_⟩
    rw [hdv, Option.some.injEq]
    omega

/-- The check of a vertex passes exactly when the tree is right there. -/
theorem checkVertex_iff (hg : g.Transposed) (h : Measured g source depth)
    (hlen : parent.length = g.numNodes) (hu : u < g.numNodes) :
    ∃ ok, checkVertex g source depth parent u = some ok
      ∧ (ok = true ↔ Rooted g source parent u) := by
  have hpu : parent[u]? = some parent[u] := List.getElem?_eq_getElem (hlen ▸ hu)
  generalize parent[u] = pu at hpu
  rcases h.depth_eq hu with ⟨k, hdu, hk⟩ | ⟨hdu, hnone⟩
  · have hdu1 : (k : Int) ≠ -1 := by omega
    by_cases hpu1 : pu = -1
    · -- reachable without a parent
      refine ⟨false, ?_, ?_⟩
      · simp only [checkVertex, hdu, hpu, Option.bind_eq_bind, Option.bind_some, hpu1]
        simp [hdu1]
      · simp only [Bool.false_eq_true, false_iff]
        intro hroot
        by_cases hsource : u = source
        · have := hroot.root hsource
          rw [hpu, Option.some.injEq] at this
          omega
        · obtain ⟨p, -, hp, -⟩ := hroot.reachable hsource ⟨k, hk.1⟩
          rw [hpu, Option.some.injEq] at hp
          omega
    · by_cases hsource : u = source
      · subst hsource
        have hk0 : k = 0 := hk.unique (dist_start _ _)
        subst hk0
        refine ⟨decide (pu = (u : Int)), ?_, ?_⟩
        · simp only [checkVertex, hdu, hpu, Option.bind_eq_bind, Option.bind_some]
          simp [hpu1]
        · rw [decide_eq_true_eq, rooted_source, hpu, Option.some.injEq]
      · obtain ⟨vs, hvs, hbound⟩ := hg.inNeigh u hu
        have hins : g.ins u = vs := by rw [CSRGraph.ins, hvs, Option.getD_some]
        obtain ⟨ok, hok, hiff⟩ := findParent_iff h (k : Int) pu hbound
        refine ⟨ok, ?_, ?_⟩
        · simp only [checkVertex, hdu, hpu, Option.bind_eq_bind, Option.bind_some, if_neg hsource,
            hvs, hok]
          rw [if_pos ⟨hdu1, hpu1⟩]
        · rw [hiff, rooted_reachable hk hsource, ← hins, parent_iff hg h hu hk hsource, hpu]
          simp only [Option.some.injEq]
  · refine ⟨decide (-1 = pu), ?_, ?_⟩
    · simp only [checkVertex, hdu, hpu, Option.bind_eq_bind, Option.bind_some, ne_eq,
        not_true_eq_false, false_and, if_false]
    · rw [decide_eq_true_eq, rooted_unreachable hnone, hpu, Option.some.injEq, eq_comm]

/-- The checks pass exactly when the tree is right everywhere. -/
theorem checkVertices_iff (hg : g.Transposed) (h : Measured g source depth)
    (hlen : parent.length = g.numNodes) {us : List Nat} (hus : ∀ u ∈ us, u < g.numNodes) :
    ∃ ok, checkVertices g source depth parent us = some ok
      ∧ (ok = true ↔ ∀ u ∈ us, Rooted g source parent u) := by
  induction us with
  | nil => exact ⟨true, rfl, by simp⟩
  | cons u us ih =>
      obtain ⟨ok, hok, hiff⟩ := checkVertex_iff hg h hlen (hus u List.mem_cons_self)
      cases ok with
      | true =>
          obtain ⟨ok', hok', hiff'⟩ := ih fun w hw => hus w (List.mem_cons_of_mem u hw)
          refine ⟨ok', ?_, ?_⟩
          · simp only [checkVertices, hok, Option.bind_eq_bind, Option.bind_some, if_true, hok']
          · rw [hiff', List.forall_mem_cons, ← hiff]
            simp only [true_and]
      | false =>
          refine ⟨false, ?_, ?_⟩
          · simp only [checkVertices, hok, Option.bind_eq_bind, Option.bind_some,
              Bool.false_eq_true, if_false]
          · rw [List.forall_mem_cons, ← hiff]
            simp only [Bool.false_eq_true, false_and]

/-- With enough iterations of the traversal, the verifier returns, and it
returns `true` for the breadth-first trees and for nothing else. -/
theorem bfsVerifier_iff (hg : g.Transposed) (hsource : source < g.numNodes)
    (hlen : parent.length = g.numNodes) {fuel : Nat} (hfuel : g.numNodes < fuel) :
    ∃ ok, bfsVerifier fuel g source parent = some ok
      ∧ (ok = true ↔ IsBfsTree g source parent) := by
  obtain ⟨s, hs, h⟩ := searched_start hsource
  have hfuel' : g.numNodes < 0 + fuel := by omega
  obtain ⟨s', hs', hm⟩ := h.visitFrom hg hfuel' (Nat.zero_le _)
  have hrange : ∀ u ∈ List.range g.numNodes, u < g.numNodes := fun u hu => List.mem_range.mp hu
  obtain ⟨ok, hok, hiff⟩ := checkVertices_iff hg hm hlen hrange
  refine ⟨ok, ?_, ?_⟩
  · simp only [bfsVerifier, hs, Option.bind_eq_bind, Option.bind_some, hs', hok]
  · rw [hiff, isBfsTree_iff hsource hlen]
    simp only [List.mem_range]

/-- One edge, and a vertex that is not reached. -/
def arc : CSRGraph Nat :=
  ⟨true, 3, 1, ⟨[0, 1, 1, 1], [some 1]⟩, ⟨[0, 0, 1, 1], [some 0]⟩⟩

/-- Its two halves describe one graph. -/
theorem arc_transposed : arc.Transposed where
  outNeigh
    | 0, _ => ⟨[1], by decide, by decide⟩
    | 1, _ => ⟨[], by decide, by decide⟩
    | 2, _ => ⟨[], by decide, by decide⟩
  inNeigh
    | 0, _ => ⟨[], by decide, by decide⟩
    | 1, _ => ⟨[0], by decide, by decide⟩
    | 2, _ => ⟨[], by decide, by decide⟩
  incoming h := by cases h
  mem_ins := by decide

/-- The verifier on one edge and a vertex that is not reached. -/
theorem bfsVerifier_arc : arc.Transposed ∧ ∃ ok, bfsVerifier 4 arc 0 [0, 0, -1] = some ok
    ∧ (ok = true ↔ IsBfsTree arc 0 [0, 0, -1]) :=
  ⟨arc_transposed, bfsVerifier_iff arc_transposed (by decide) rfl (by decide)⟩

example : bfsVerifier 4 arc 0 [0, 0, -1] = some true := by decide

end ThesisBench.Gapbs.Bfs
