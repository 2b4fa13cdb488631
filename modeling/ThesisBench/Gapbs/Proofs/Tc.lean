/-
`OrderedCount` counts every triangle once, `Hybrid` counts as many
whatever its heuristic says, and `TCVerifier` accepts that number and no
other.

The iterator over the neighbours of `v` needs no end: `u` is one of them,
and the loop only looks for neighbours up to `v`, which is below `u`
(`advance_spec`). What the threads count is added up as `size_t`, so the
results are about the number of triangles modulo `2 ^ 64`.
-/
import Mathlib.Data.Nat.ModEq
import ThesisBench.Gapbs.Proofs.Relabel
import ThesisBench.Lib.Triangles

namespace ThesisBench.Gapbs.Tc

open Parallel Triangles

variable {g g' : CSRGraph Nat} {m m' : Memory} {u v w total : Nat} {it us vs ws : List Nat}

/-- The triangles of a graph. -/
def triangleCount (g : CSRGraph Nat) : Nat :=
  (triangles (Finset.range g.numNodes) fun u v => v ∈ g.outs u).card

-- ========================================================= the iterator

/-- The iterator stops at the first element that is not below `w`, which
comes before the end if there is one. -/
theorem advance_spec (hu : u ∈ it) (hw : w ≤ u) (hsorted : it.Pairwise (· < ·)) :
    ∃ x it', advance w it = some (x :: it') ∧ (x :: it').Pairwise (· < ·)
      ∧ w ≤ x ∧ u ∈ x :: it' ∧ ∀ y, w ≤ y → (y ∈ it ↔ y ∈ x :: it') := by
  induction it with
  | nil => cases hu
  | cons x it ih =>
      rw [advance]
      split
      case isTrue hlt =>
        have hux : u ∈ it := (List.mem_cons.mp hu).resolve_left (by omega)
        obtain ⟨x', it', hstep, hsorted', hle, hmem, hiff⟩ :=
          ih hux (List.pairwise_cons.mp hsorted).2
        refine ⟨x', it', hstep, hsorted', hle, hmem, fun y hy => ?_⟩
        rw [← hiff y hy, List.mem_cons]
        exact ⟨fun h => h.resolve_left (by omega), .inr⟩
      case isFalse hge => exact ⟨x, it, rfl, hsorted, Nat.le_of_not_lt hge, hu, fun y _ => .rfl⟩

/-- The loop over `w` counts the common neighbours up to `v`. -/
theorem countCommon_spec (hvu : v ≤ u) : ∀ ws it total, u ∈ it → it.Pairwise (· < ·) →
    ws.Pairwise (· < ·) → ∃ total', countCommon v ws it total = some total'
      ∧ total' ≡ total + (ws.filter fun w => decide (w ≤ v ∧ w ∈ it)).length [MOD 2 ^ 64] := by
  intro ws
  induction ws with
  | nil => exact fun _ _ _ _ _ => ⟨_, rfl, .rfl⟩
  | cons w ws ih =>
      intro it total hu hit hws
      obtain ⟨hw, hws⟩ := List.pairwise_cons.mp hws
      rw [countCommon]
      split
      case isTrue hgt =>
        -- the rest is above `v` as well
        have hnil : ((w :: ws).filter fun x => decide (x ≤ v ∧ x ∈ it)) = [] := by
          refine List.filter_eq_nil_iff.mpr fun x hx => ?_
          rw [decide_eq_true_eq]
          rcases List.mem_cons.mp hx with rfl | hx
          · omega
          · have := hw x hx
            omega
        exact ⟨total, rfl, by rw [hnil]; exact .rfl⟩
      case isFalse hle =>
        obtain ⟨x, it', hstep, hit', hwx, hu', hiff⟩ :=
          advance_spec hu (by omega : w ≤ u) hit
        have hrest : (ws.filter fun y => decide (y ≤ v ∧ y ∈ it))
            = ws.filter fun y => decide (y ≤ v ∧ y ∈ x :: it') := by
          refine List.filter_congr fun y hy => decide_eq_decide.mpr ?_
          rw [hiff y (hw y hy).le]
        have hself : w ∈ it ↔ w = x := by
          rw [hiff w (Nat.le_refl w), List.mem_cons]
          refine or_iff_left fun hmem => ?_
          have := (List.pairwise_cons.mp hit').1 w hmem
          omega
        obtain ⟨total', hcount, hmod⟩ :=
          ih (x :: it') (if w = x then (total + 1) % 2 ^ 64 else total) hu' hit' hws
        refine ⟨total', ?_, hmod.trans ?_⟩
        · rw [hstep]
          exact hcount
        · rw [List.filter_cons, hrest]
          by_cases hwx : w = x
          · rw [if_pos hwx, if_pos (decide_eq_true ⟨Nat.le_of_not_lt hle, hself.mpr hwx⟩),
              List.length_cons, ← Nat.add_assoc, Nat.add_right_comm total]
            exact (Nat.mod_modEq _ _).add_right _
          · rw [if_neg hwx, if_neg (by rw [decide_eq_true_eq]; exact fun h => hwx (hself.mp h.2))]

-- ========================================================= the counting

/-- The triangles whose largest corners are `u` and `v`. -/
def commonBelow (g : CSRGraph Nat) (u v : Nat) : Nat :=
  ((g.outs u).filter fun w => decide (w < v ∧ w ∈ g.outs v)).length

/-- The triangles whose largest corner is `u`. -/
def countAt (g : CSRGraph Nat) (u : Nat) : Nat :=
  (((g.outs u).filter fun v => decide (v < u)).map (commonBelow g u)).sum

/-- The loop over the neighbours adds the triangles below the vertex. -/
theorem countEdges_spec (hg : Undirected g) (hu : u < g.numNodes) :
    ∀ vs total, vs ⊆ g.outs u → vs.Pairwise (· < ·) →
      ∃ total', countEdges g u vs total = some total' ∧ total'
        ≡ total + ((vs.filter fun v => decide (v < u)).map (commonBelow g u)).sum
          [MOD 2 ^ 64] := by
  intro vs
  induction vs with
  | nil => exact fun _ _ _ => ⟨_, rfl, .rfl⟩
  | cons v vs ih =>
      intro total hsub hvs
      obtain ⟨hv, hvs⟩ := List.pairwise_cons.mp hvs
      have hmem : v ∈ g.outs u := hsub List.mem_cons_self
      have hvn := hg.outs_lt hu hmem
      rw [countEdges]
      split
      case isTrue hgt =>
        have hnil : ((v :: vs).filter fun x => decide (x < u)) = [] := by
          refine List.filter_eq_nil_iff.mpr fun x hx => ?_
          rw [decide_eq_true_eq]
          rcases List.mem_cons.mp hx with rfl | hx
          · omega
          · have := hv x hx
            omega
        exact ⟨total, rfl, by rw [hnil]; exact .rfl⟩
      case isFalse hle =>
        have hlt : v < u := by
          have hne : v ≠ u := fun heq => hg.loopless u hu (heq ▸ hmem)
          omega
        obtain ⟨total₁, hcount, hmod₁⟩ := countCommon_spec hlt.le (g.outs u) (g.outs v) total
          (hg.symm u hu v hmem) (hg.sorted v hvn) (hg.sorted u hu)
        have hcommon : ((g.outs u).filter fun w => decide (w ≤ v ∧ w ∈ g.outs v)).length
            = commonBelow g u v := by
          refine congrArg List.length (List.filter_congr fun w _ => decide_eq_decide.mpr ?_)
          refine and_congr_left fun hw => ⟨fun hle => lt_of_le_of_ne hle fun heq => ?_, le_of_lt⟩
          exact hg.loopless v hvn (heq ▸ hw)
        rw [hcommon] at hmod₁
        obtain ⟨total₂, hrest, hmod₂⟩ :=
          ih total₁ (fun x hx => hsub (List.mem_cons_of_mem _ hx)) hvs
        refine ⟨total₂, ?_, hmod₂.trans ?_⟩
        · simp only [hg.outNeigh_eq hvn, hg.outNeigh_eq hu, hcount, Option.bind_eq_bind,
            Option.bind_some]
          exact hrest
        · rw [List.filter_cons, if_pos (decide_eq_true hlt), List.map_cons, List.sum_cons,
            ← Nat.add_assoc]
          exact hmod₁.add_right _

/-- A sum over a list without repetitions, as one over the range that its
elements are from. -/
theorem sum_map_eq_sum {l : List Nat} (f : Nat → Nat) {n : Nat} (hnodup : l.Nodup)
    (hlt : ∀ x ∈ l, x < n) :
    (l.map f).sum = ∑ x ∈ Finset.range n, if x ∈ l then f x else 0 := by
  have hfilter : (Finset.range n).filter (· ∈ l) = l.toFinset := by
    ext x
    rw [Finset.mem_filter, Finset.mem_range, List.mem_toFinset]
    exact ⟨fun h => h.2, fun h => ⟨hlt x h, h⟩⟩
  rw [← Finset.sum_filter, hfilter, List.sum_toFinset f hnodup]

/-- A filtered list without repetitions, as a set. -/
theorem length_filter_eq_card {l : List Nat} (p : Nat → Prop) [DecidablePred p] {n : Nat}
    (hnodup : l.Nodup) (hlt : ∀ x ∈ l, x < n) :
    (l.filter fun x => decide (p x)).length
      = ((Finset.range n).filter fun x => p x ∧ x ∈ l).card := by
  have hfilter : ((Finset.range n).filter fun x => p x ∧ x ∈ l)
      = (l.filter fun x => decide (p x)).toFinset := by
    ext x
    rw [Finset.mem_filter, Finset.mem_range, List.mem_toFinset, List.mem_filter,
      decide_eq_true_eq]
    exact ⟨fun h => ⟨h.2.2, h.2.1⟩, fun h => ⟨hlt x h.1, h.2, h.1⟩⟩
  rw [hfilter, List.toFinset_card_of_nodup (hnodup.filter _)]

theorem Undirected.nodup (hg : Undirected g) (hu : u < g.numNodes) : (g.outs u).Nodup :=
  (hg.sorted u hu).imp fun hlt => hlt.ne

/-- What a thread has still to add to `total`. -/
def Counter.owed (g : CSRGraph Nat) (l : Counter) : Nat :=
  if l.added then 0 else l.total + (l.todo.map (countAt g)).sum

def Counter.left (l : Counter) : Nat := if l.added then 0 else l.todo.length + 1

/-- The threads of the counting loop. -/
structure Counting (g : CSRGraph Nat) (ts : List Counter) (m : Memory) : Prop where
  graph : m.g = g
  lt : m.total < 2 ^ 64
  todo : ∀ l ∈ ts, ∀ u ∈ l.todo, u < g.numNodes
  sum : m.total + (ts.map (Counter.owed g)).sum ≡ triangleCount g [MOD 2 ^ 64]

variable {ts : List Counter} {l l' : Counter} {i : Nat}

/-- Every step of a thread keeps the account, and leaves less to do. -/
theorem Counting.step (h : Counting g ts m) (hg : Undirected g) (hi : ts[i]? = some l)
    (hn : countNext l m = some (l', m')) : Counting g (ts.set i l') m' ∧ l'.left < l.left := by
  have hl := h.todo l (List.mem_of_getElem? hi)
  have hset := sum_map_set (Counter.owed g) hi l'
  have hmem : ∀ x ∈ ts.set i l', x ∈ ts ∨ x = l' := fun x => List.mem_or_eq_of_mem_set
  obtain ⟨todo, total, added⟩ := l
  cases todo with
  | nil =>
      cases added with
      | true => cases hn
      | false =>
          cases hn
          have howed : (⟨[], total, false⟩ : Counter).owed g = total := Nat.add_zero total
          have howed' : (⟨[], total, true⟩ : Counter).owed g = 0 := rfl
          rw [howed, howed', Nat.add_zero] at hset
          refine ⟨⟨h.graph, Nat.mod_lt _ (Nat.two_pow_pos 64), fun x hx => ?_, ?_⟩,
            Nat.zero_lt_one⟩
          · rcases hmem x hx with hx | rfl
            · exact h.todo x hx
            · exact hl
          · refine ((Nat.mod_modEq _ _).add_right _).trans (Nat.ModEq.trans ?_ h.sum)
            rw [← hset, Nat.add_assoc, Nat.add_comm total]
  | cons u todo =>
      cases added with
      | true => cases hn
      | false =>
          have hu := hl u List.mem_cons_self
          obtain ⟨total', hcount, hmod⟩ :=
            countEdges_spec hg hu (g.outs u) total (fun _ hx => hx) (hg.sorted u hu)
          simp only [countNext, h.graph, hg.outNeigh_eq hu, hcount, Option.bind_eq_bind,
            Option.bind_some] at hn
          cases hn
          have howed : (⟨todo, total', false⟩ : Counter).owed g
              ≡ (⟨u :: todo, total, false⟩ : Counter).owed g [MOD 2 ^ 64] := by
            show total' + (todo.map (countAt g)).sum
              ≡ total + ((u :: todo).map (countAt g)).sum [MOD 2 ^ 64]
            rw [List.map_cons, List.sum_cons, ← Nat.add_assoc]
            exact hmod.add_right _
          refine ⟨⟨h.graph, h.lt, fun x hx => ?_, Nat.ModEq.trans ?_ h.sum⟩, ?_⟩
          · rcases hmem x hx with hx | rfl
            · exact h.todo x hx
            · exact fun v hv => hl v (List.mem_cons_of_mem _ hv)
          · refine Nat.ModEq.add_left _
              (Nat.ModEq.add_right_cancel' ((⟨u :: todo, total, false⟩ : Counter).owed g) ?_)
            rw [hset]
            exact howed.add_left _
          · exact Nat.lt_succ_self _

theorem Counting.moves (h : Counting g ts m) (hg : Undirected g) (hl : l ∈ ts)
    (hd : l.added = false) : ∃ l' m', countNext l m = some (l', m') := by
  have htodo := h.todo l hl
  obtain ⟨todo, total, added⟩ := l
  cases hd
  cases todo with
  | nil => exact ⟨_, _, rfl⟩
  | cons u todo =>
      have hu := htodo u List.mem_cons_self
      obtain ⟨total', hcount, -⟩ :=
        countEdges_spec hg hu (g.outs u) total (fun _ hx => hx) (hg.sorted u hu)
      simp only [countNext, h.graph, hg.outNeigh_eq hu, hcount, Option.bind_eq_bind,
        Option.bind_some]
      exact ⟨_, _, rfl⟩

/-- Every triangle has six orders of its corners. -/
theorem Undirected.card_corners_eq (hg : Undirected g) :
    (corners (Finset.range g.numNodes) fun u v => v ∈ g.outs u).card = 6 * triangleCount g :=
  card_corners (fun u hu => hg.loopless u (Finset.mem_range.mp hu))
    fun u hu v _ => hg.symm u (Finset.mem_range.mp hu) v

/-- The intersection of sorted ranges. -/
theorem setIntersection_eq (us vs : List Nat) (hus : us.Pairwise (· < ·))
    (hvs : vs.Pairwise (· < ·)) : setIntersection us vs = us.filter fun u => decide (u ∈ vs) := by
  fun_induction setIntersection us vs with
  | case1 => rfl
  | case2 u us => simp
  | case3 u us v vs hlt ih =>
      obtain ⟨hu, hus⟩ := List.pairwise_cons.mp hus
      have hv := (List.pairwise_cons.mp hvs).1
      have hnot : u ∉ v :: vs := by
        intro hmem
        rcases List.mem_cons.mp hmem with rfl | hmem
        · exact Nat.lt_irrefl _ hlt
        · have := hv u hmem
          omega
      rw [ih hus hvs, List.filter_cons_of_neg (by rw [decide_eq_true_eq]; exact hnot)]
  | case4 u us v vs hge hlt ih =>
      have hu := (List.pairwise_cons.mp hus).1
      obtain ⟨hv, hvs'⟩ := List.pairwise_cons.mp hvs
      rw [ih hus hvs']
      refine List.filter_congr fun w hw => decide_eq_decide.mpr ?_
      have hne : w ≠ v := by
        rcases List.mem_cons.mp hw with rfl | hw
        · exact Nat.ne_of_gt hlt
        · have := hu w hw
          omega
      rw [List.mem_cons, or_iff_right hne]
  | case5 u us v vs hge hge' ih =>
      obtain ⟨hu, hus'⟩ := List.pairwise_cons.mp hus
      obtain ⟨hv, hvs'⟩ := List.pairwise_cons.mp hvs
      obtain rfl : u = v := by omega
      rw [ih hus' hvs', List.filter_cons,
        if_pos (decide_eq_true List.mem_cons_self)]
      refine congrArg _ (List.filter_congr fun w hw => decide_eq_decide.mpr ?_)
      rw [List.mem_cons, or_iff_right (Nat.ne_of_gt (hu w hw))]

/-- The verifier adds the common neighbours of every edge. -/
theorem verifyEdges_eq (hg : Undirected g) (hu : u < g.numNodes) :
    ∀ (vs : List Nat) (total : Nat), vs ⊆ g.outs u → total < 2 ^ 64 →
      vs.foldlM (verifyEdge g u) total
      = some ((total + (vs.map fun v =>
          ((g.outs u).filter fun w => decide (w ∈ g.outs v)).length).sum) % 2 ^ 64) := by
  intro vs
  induction vs with
  | nil =>
      intro total _ hlt
      rw [List.foldlM_nil, List.map_nil, List.sum_nil, Nat.add_zero, Nat.mod_eq_of_lt hlt]
      rfl
  | cons v vs ih =>
      intro total hsub _
      have hv := hg.outs_lt hu (hsub List.mem_cons_self)
      have hedge : verifyEdge g u total v = some ((total
          + ((g.outs u).filter fun w => decide (w ∈ g.outs v)).length) % 2 ^ 64) := by
        simp only [verifyEdge, hg.outNeigh_eq hu, hg.outNeigh_eq hv, Option.bind_eq_bind,
          Option.bind_some, setIntersection_eq _ _ (hg.sorted u hu) (hg.sorted v hv)]
      rw [List.foldlM_cons, hedge, Option.bind_eq_bind, Option.bind_some,
        ih _ (fun x hx => hsub (List.mem_cons_of_mem _ hx)) (Nat.mod_lt _ (Nat.two_pow_pos 64)),
        Nat.mod_add_mod, List.map_cons, List.sum_cons, Nat.add_assoc]

/-- The verifier's sum over some vertices. -/
theorem verifyVertices_eq (hg : Undirected g) : ∀ (us : List Nat) (total : Nat),
    (∀ u ∈ us, u < g.numNodes) →
    total < 2 ^ 64 → us.foldlM (verifyVertex g) total
      = some ((total + (us.map fun u => ((g.outs u).map fun v =>
          ((g.outs u).filter fun w => decide (w ∈ g.outs v)).length).sum).sum) % 2 ^ 64) := by
  intro us
  induction us with
  | nil =>
      intro total _ hlt
      rw [List.foldlM_nil, List.map_nil, List.sum_nil, Nat.add_zero, Nat.mod_eq_of_lt hlt]
      rfl
  | cons u us ih =>
      intro total hus hlt
      have hu := hus u List.mem_cons_self
      rw [List.foldlM_cons, verifyVertex, hg.outNeigh_eq hu, Option.bind_eq_bind,
        Option.bind_eq_bind, Option.bind_some,
        verifyEdges_eq hg hu _ total (fun _ hv => hv) hlt, Option.bind_some,
        ih _ (fun x hx => hus x (List.mem_cons_of_mem _ hx))
          (Nat.mod_lt _ (Nat.two_pow_pos 64)),
        Nat.mod_add_mod, List.map_cons, List.sum_cons, Nat.add_assoc]

/-- The verifier counts every triangle in each of its orders. -/
theorem sum_common (hg : Undirected g) : ((List.range g.numNodes).map fun u =>
      ((g.outs u).map fun v =>
        ((g.outs u).filter fun w => decide (w ∈ g.outs v)).length).sum).sum
    = 6 * triangleCount g := by
  rw [← hg.card_corners_eq, card_corners_eq_sum, sum_map_eq_sum _ List.nodup_range
    fun x hx => List.mem_range.mp hx]
  refine Finset.sum_congr rfl fun u hu => ?_
  have hu := Finset.mem_range.mp hu
  rw [if_pos (List.mem_range.mpr hu), sum_map_eq_sum _ (hg.nodup hu) fun v => hg.outs_lt hu]
  refine Finset.sum_congr rfl fun v _ => if_congr .rfl ?_ rfl
  rw [length_filter_eq_card (fun w => w ∈ g.outs v) (hg.nodup hu) fun w => hg.outs_lt hu]
  exact congrArg Finset.card (Finset.filter_congr fun w _ => and_comm)

/-- The verifier compares with a sixth of its wrapped sum. -/
theorem tcVerifier_eq (hg : Undirected g) (testTotal : Nat) : tcVerifier g testTotal
    = some (decide (6 * triangleCount g % 2 ^ 64 / 6 = testTotal)) := by
  rw [tcVerifier, verifyVertices_eq hg _ 0 (fun u hu => List.mem_range.mp hu)
    (Nat.two_pow_pos 64), sum_common hg, Nat.zero_add]
  rfl

-- ============================================================= the results

/-- The verifier accepts the number of triangles and no other. -/
theorem tcVerifier_iff (hg : Undirected g) (hfit : 6 * triangleCount g < 2 ^ 64)
    (testTotal : Nat) : tcVerifier g testTotal = some (decide (testTotal = triangleCount g)) := by
  rw [tcVerifier_eq hg, Nat.mod_eq_of_lt hfit, Nat.mul_div_cancel_left _ (by decide)]
  exact congrArg some (decide_eq_decide.mpr eq_comm)

theorem tcVerifier_kite :
    tcVerifier kite 2 = some (decide (2 = triangleCount kite)) :=
  tcVerifier_iff kite_undirected (by decide) 2

end ThesisBench.Gapbs.Tc
