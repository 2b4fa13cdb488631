/-
The verifier of connected components is exact.

A search either finds the whole component of its source, all under one
label (`Searching.all`), or meets another label on the way. The bitmap
that the searches share cannot mislead one: what an earlier search has
visited carries an earlier label, and the search stops there. So when all
searches come to their end, the visited vertices are the components of
the sources (`Done`), and a vertex is left out exactly when its label has
its source in another component.
-/
import ThesisBench.Gapbs.CcVerifier
import ThesisBench.Gapbs.Proofs.Components
import ThesisBench.Gapbs.Proofs.BfsVerifier
import ThesisBench.Lib.While

namespace ThesisBench.Gapbs.Components

variable {g : CSRGraph Nat} {comp : List Int} {u v : Nat}

-- =========================================================== neighbours

/-- The neighbours that a search looks at. -/
def Adj (g : CSRGraph Nat) (u v : Nat) : Prop :=
  v ∈ g.outs u ∨ g.directed = true ∧ v ∈ g.ins u

theorem Adj.lt (hg : g.Transposed) (hu : u < g.numNodes) (h : Adj g u v) : v < g.numNodes := by
  rcases h with hout | ⟨-, hin⟩
  · exact hg.outs_lt hu hout
  · exact hg.ins_lt hu hin

/-- Neighbours are neighbours of each other. -/
theorem Adj.symm (hg : g.Transposed) (hu : u < g.numNodes) (h : Adj g u v) : Adj g v u := by
  have hv := h.lt hg hu
  rcases h with hout | ⟨-, hin⟩
  · have hback : u ∈ g.ins v := (hg.mem_ins v hv u hu).mpr hout
    cases hd : g.directed with
    | true => exact Or.inr ⟨hd, hback⟩
    | false =>
        have hsame : g.ins v = g.outs v := by
          rw [CSRGraph.ins, CSRGraph.inNeigh, hg.incoming hd]
          rfl
        exact Or.inl (hsame ▸ hback)
  · exact Or.inl ((hg.mem_ins u hu v hv).mp hin)

theorem Adj.connected (hg : g.Transposed) (hu : u < g.numNodes) (h : Adj g u v) :
    Connected g u v := by
  have hv := h.lt hg hu
  rcases h with hout | ⟨-, hin⟩
  · exact .rel u v ⟨hu, hout⟩
  · exact .symm v u (.rel v u ⟨hv, (hg.mem_ins u hu v hv).mp hin⟩)

/-- What the neighbours of its vertices do not leave is a union of
components. -/
theorem Connected.closed (hg : g.Transposed) {p : Nat → Prop}
    (hp : ∀ u < g.numNodes, p u → ∀ v, Adj g u v → p v) (h : Connected g u v) : p u ↔ p v := by
  induction h with
  | rel u v huv =>
      have hadj : Adj g u v := Or.inl huv.2
      constructor
      · intro hu
        exact hp u huv.1 hu v hadj
      · intro hv
        exact hp v (hadj.lt hg huv.1) hv u (hadj.symm hg huv.1)
  | refl => exact Iff.rfl
  | symm _ _ _ ih => exact ih.symm
  | trans _ _ _ _ _ ih₁ ih₂ => exact ih₁.trans ih₂

theorem Connected.lt (hg : g.Transposed) (h : Connected g u v) (hu : u < g.numNodes) :
    v < g.numNodes :=
  (h.closed hg fun _ hu _ _ hadj => Adj.lt hg hu hadj).mp hu

-- ====================================================== label_to_source

/-- An assignment adds its label if it is new. -/
theorem keys_assign (map : List (Int × Nat)) (label : Int) (source : Nat) :
    (assign map label source).map Prod.fst
      = if label ∈ map.map Prod.fst then map.map Prod.fst else map.map Prod.fst ++ [label] := by
  induction map with
  | nil => rfl
  | cons p map ih =>
      obtain ⟨l, s⟩ := p
      unfold assign
      by_cases hl : l = label
      · simp [hl]
      · rw [if_neg hl, List.map_cons, List.map_cons, ih]
        simp only [List.mem_cons, Ne.symm hl, false_or]
        split <;> rfl

/-- What the map holds after an assignment. -/
theorem mem_assign {map : List (Int × Nat)} (hnd : (map.map Prod.fst).Nodup) {label : Int}
    {source : Nat} {p : Int × Nat} :
    p ∈ assign map label source ↔ p = (label, source) ∨ p ∈ map ∧ p.1 ≠ label := by
  induction map with
  | nil => simp [assign]
  | cons q map ih =>
      obtain ⟨l, s⟩ := q
      rw [List.map_cons, List.nodup_cons] at hnd
      unfold assign
      by_cases hl : l = label
      · subst hl
        rw [if_pos rfl, List.mem_cons, List.mem_cons]
        constructor
        · rintro (rfl | hp)
          · exact Or.inl rfl
          · refine Or.inr ⟨Or.inr hp, fun heq => hnd.1 ?_⟩
            exact List.mem_map.mpr ⟨p, hp, heq⟩
        · rintro (rfl | ⟨rfl | hp, hne⟩)
          · exact Or.inl rfl
          · exact absurd rfl hne
          · exact Or.inr hp
      · rw [if_neg hl, List.mem_cons, List.mem_cons, ih hnd.2]
        constructor
        · rintro (rfl | rfl | ⟨hp, hne⟩)
          · exact Or.inr ⟨Or.inl rfl, hl⟩
          · exact Or.inl rfl
          · exact Or.inr ⟨Or.inr hp, hne⟩
        · rintro (rfl | ⟨rfl | hp, hne⟩)
          · exact Or.inr (Or.inl rfl)
          · exact Or.inl rfl
          · exact Or.inr (Or.inr ⟨hp, hne⟩)

/-- The map after the vertices below `n`: a vertex for every label that
they have. -/
structure Mapped (comp : List Int) (n : Nat) (map : List (Int × Nat)) : Prop where
  nodup : (map.map Prod.fst).Nodup
  source : ∀ p ∈ map, p.2 < n ∧ comp[p.2]? = some p.1
  label : ∀ v < n, ∀ l, comp[v]? = some l → ∃ s, (l, s) ∈ map

/-- The next vertex enters the map under its label. -/
theorem Mapped.assign {n : Nat} {map : List (Int × Nat)} (h : Mapped comp n map) {label : Int}
    (hn : comp[n]? = some label) : Mapped comp (n + 1) (assign map label n) where
  nodup := by
    rw [keys_assign]
    split
    case isTrue => exact h.nodup
    case isFalse hnew =>
      refine List.nodup_append.mpr ⟨h.nodup, List.nodup_singleton _, fun a ha b hb => ?_⟩
      rw [List.mem_singleton.mp hb]
      rintro rfl
      exact hnew ha
  source p hp := by
    rcases (mem_assign h.nodup).mp hp with rfl | ⟨hp, -⟩
    · exact ⟨Nat.lt_succ_self n, hn⟩
    · obtain ⟨hlt, hlabel⟩ := h.source p hp
      exact ⟨Nat.lt_succ_of_lt hlt, hlabel⟩
  label v hv l hl := by
    by_cases hlabel : l = label
    · exact ⟨n, (mem_assign h.nodup).mpr (Or.inl (by rw [hlabel]))⟩
    · rcases Nat.lt_succ_iff_lt_or_eq.mp hv with hlt | rfl
      · obtain ⟨s, hs⟩ := h.label v hlt l hl
        exact ⟨s, (mem_assign h.nodup).mpr (Or.inr ⟨hs, hlabel⟩)⟩
      · cases hn.symm.trans hl
        exact absurd rfl hlabel

/-- The loop maps every label to a vertex that has it. -/
theorem labelToSource_mapped {n : Nat} (hn : n ≤ comp.length) :
    ∃ map, labelToSource n comp = some map ∧ Mapped comp n map := by
  refine While.count_total _ (Mapped comp) ⟨List.nodup_nil, ?_, ?_⟩ fun v hv map hmapped => ?_
  · intro p hp
    cases hp
  · intro v hv
    cases hv
  · have hget : comp[v]? = some comp[v] := List.getElem?_eq_getElem (by omega)
    refine ⟨Components.assign map comp[v] v, ?_, hmapped.assign hget⟩
    rw [hget]
    rfl

-- =========================================================== the search

variable {l : Int} {source it : Nat} {old : Nat → Prop} {s : Search}

/-- A search from `source` under the label `l`, before the iteration
`it`; `old` was visited before it. -/
structure Searching (g : CSRGraph Nat) (comp : List Int) (l : Int) (source : Nat)
    (old : Nat → Prop) (it : Nat) (s : Search) : Prop where
  length : s.visited.length = g.numNodes
  visited : ∀ v, s.visited[v]? = some true ↔ old v ∨ v ∈ s.frontier
  nodup : s.frontier.Nodup
  source_mem : source ∈ s.frontier
  found : ∀ v ∈ s.frontier, v < g.numNodes ∧ Connected g source v ∧ comp[v]? = some l
  it_le : it ≤ s.frontier.length
  closed : ∀ i < it, ∀ u, s.frontier[i]? = some u → ∀ v, Adj g u v → v ∈ s.frontier

/-- The frontier never outgrows the graph. -/
theorem Searching.length_le (h : Searching g comp l source old it s) :
    s.frontier.length ≤ g.numNodes := by
  have hsub := h.nodup.subperm fun v hv => List.mem_range.mpr (h.found v hv).1
  have hle := hsub.length_le
  rwa [List.length_range] at hle

/-- What is not in the vector yet has room in it. -/
theorem Searching.room (h : Searching g comp l source old it s) (hv : v < g.numNodes)
    (hnew : v ∉ s.frontier) : s.frontier.length < g.numNodes := by
  have hmem : v :: s.frontier ⊆ List.range g.numNodes := by
    intro w hw
    rcases List.mem_cons.mp hw with rfl | hw
    · exact List.mem_range.mpr hv
    · exact List.mem_range.mpr (h.found w hw).1
  have hle := ((List.nodup_cons.mpr ⟨hnew, h.nodup⟩).subperm hmem).length_le
  rw [List.length_cons, List.length_range] at hle
  omega

/-- The visited vertices after one more. -/
theorem getElem?_set_true {visited : List Bool} (hv : v < visited.length) (w : Nat) :
    (visited.set v true)[w]? = some true ↔ w = v ∨ visited[w]? = some true := by
  rw [List.getElem?_set]
  by_cases hwv : v = w
  · subst hwv
    simp [hv]
  · rw [if_neg hwv]
    simp [Ne.symm hwv]

/-- A new neighbour with the right label joins the frontier. -/
theorem Searching.push (h : Searching g comp l source old it s) (hv : v < g.numNodes)
    (hc : Connected g source v) (hl : comp[v]? = some l) (hnew : v ∉ s.frontier) :
    ∃ s', s.visit g.numNodes v = some s' ∧ Searching g comp l source old it s'
      ∧ s'.frontier = s.frontier ++ [v] := by
  have hlen : v < s.visited.length := by rw [h.length]; exact hv
  refine ⟨_, if_pos ⟨hlen, h.room hv hnew⟩, ?_, rfl⟩
  have hmem : ∀ w, w ∈ s.frontier ++ [v] ↔ w ∈ s.frontier ∨ w = v := by
    intro w
    rw [List.mem_append, List.mem_singleton]
  exact
    { length := List.length_set.trans h.length
      visited := fun w => by
        rw [getElem?_set_true hlen, h.visited, hmem]
        constructor
        · rintro (hw | hw | hw)
          · exact Or.inr (Or.inr hw)
          · exact Or.inl hw
          · exact Or.inr (Or.inl hw)
        · rintro (hw | hw | hw)
          · exact Or.inr (Or.inl hw)
          · exact Or.inr (Or.inr hw)
          · exact Or.inl hw
      nodup := by
        refine List.nodup_append.mpr ⟨h.nodup, List.nodup_singleton _, fun a ha b hb => ?_⟩
        rw [List.mem_singleton.mp hb]
        rintro rfl
        exact hnew ha
      source_mem := List.mem_append_left _ h.source_mem
      found := fun w hw => by
        rcases (hmem w).mp hw with hw | rfl
        · exact h.found w hw
        · exact ⟨hv, hc, hl⟩
      it_le := by
        rw [List.length_append]
        exact Nat.le_add_right_of_le h.it_le
      closed := fun i hi u hu w hw => by
        rw [List.getElem?_append_left (Nat.lt_of_lt_of_le hi h.it_le)] at hu
        exact List.mem_append_left _ (h.closed i hi u hu w hw) }

/-- Of the vertices under the label, those of the vector are visited: the
earlier searches had other labels. -/
theorem Searching.bit (h : Searching g comp l source old it s)
    (hold : ∀ v, old v → comp[v]? ≠ some l) (hv : v < g.numNodes) (hl : comp[v]? = some l) :
    s.visited[v]? = some (decide (v ∈ s.frontier)) := by
  have hlen : v < s.visited.length := by rw [h.length]; exact hv
  have hvis := h.visited v
  rw [List.getElem?_eq_getElem hlen, Option.some.injEq] at hvis ⊢
  by_cases hmem : v ∈ s.frontier
  · rw [decide_eq_true hmem]
    exact hvis.mpr (Or.inr hmem)
  · rw [decide_eq_false hmem]
    refine Bool.eq_false_iff.mpr fun htrue => ?_
    rcases hvis.mp htrue with hv | hv
    · exact hold v hv hl
    · exact hmem hv

/-- A vertex of the component with another label. -/
def Mixed (g : CSRGraph Nat) (comp : List Int) (l : Int) (source : Nat) : Prop :=
  ∃ v, Connected g source v ∧ comp[v]? ≠ some l

/-- A loop over neighbours pushes all of them, or meets another label. -/
theorem Searching.all (hcomp : comp.length = g.numNodes) (hold : ∀ v, old v → comp[v]? ≠ some l)
    (vs : List Nat) : ∀ {s : Search}, Searching g comp l source old it s →
    (∀ v ∈ vs, v < g.numNodes ∧ Connected g source v) →
    (visitAll comp g.numNodes l vs s = some none ∧ Mixed g comp l source)
      ∨ ∃ s', visitAll comp g.numNodes l vs s = some (some s')
        ∧ Searching g comp l source old it s' ∧ s.frontier <+: s'.frontier
        ∧ ∀ v ∈ vs, v ∈ s'.frontier := by
  induction vs with
  | nil =>
      intro s h _
      refine Or.inr ⟨s, rfl, h, List.prefix_refl _, fun v hv => ?_⟩
      cases hv
  | cons v vs ih =>
      intro s h hvs
      obtain ⟨hv, hc⟩ := hvs v (List.mem_cons_self ..)
      have hrest : ∀ w ∈ vs, w < g.numNodes ∧ Connected g source w :=
        fun w hw => hvs w (List.mem_cons_of_mem _ hw)
      have hget : comp[v]? = some comp[v] := List.getElem?_eq_getElem (by omega)
      by_cases hl : comp[v] = l
      case neg =>
        refine Or.inl ⟨?_, v, hc, ?_⟩
        · simp only [visitAll, hget, Option.bind_eq_bind, Option.bind_some]
          exact if_pos hl
        · rw [hget]
          exact fun heq => hl (Option.some.inj heq)
      have hlabel : comp[v]? = some l := by rw [hget, hl]
      have hbit := h.bit hold hv hlabel
      by_cases hseen : v ∈ s.frontier
      · have hstep : visitAll comp g.numNodes l (v :: vs) s = visitAll comp g.numNodes l vs s := by
          rw [decide_eq_true hseen] at hbit
          simp only [visitAll, hlabel, hbit, Option.bind_eq_bind, Option.bind_some, ne_eq,
            not_true_eq_false, if_false, if_true]
        rw [hstep]
        rcases ih h hrest with hfail | ⟨s', heq, h', hpre, hall⟩
        · exact Or.inl hfail
        · refine Or.inr ⟨s', heq, h', hpre, fun w hw => ?_⟩
          rcases List.mem_cons.mp hw with rfl | hw
          · exact hpre.subset hseen
          · exact hall w hw
      · obtain ⟨s₁, hpush, h₁, hfront⟩ := h.push hv hc hlabel hseen
        have hstep : visitAll comp g.numNodes l (v :: vs) s
            = visitAll comp g.numNodes l vs s₁ := by
          rw [decide_eq_false hseen] at hbit
          simp only [visitAll, hlabel, hbit, Option.bind_eq_bind, Option.bind_some, ne_eq,
            not_true_eq_false, if_false, Bool.false_eq_true, hpush]
        rw [hstep]
        rcases ih h₁ hrest with hfail | ⟨s', heq, h', hpre, hall⟩
        · exact Or.inl hfail
        · rw [hfront] at hpre
          refine Or.inr ⟨s', heq, h', (List.prefix_append _ _).trans hpre, fun w hw => ?_⟩
          rcases List.mem_cons.mp hw with rfl | hw
          · exact hpre.subset (List.mem_append_right _ (List.mem_singleton_self _))
          · exact hall w hw

/-- An iteration. -/
theorem Searching.next (hg : g.Transposed) (hcomp : comp.length = g.numNodes)
    (hold : ∀ v, old v → comp[v]? ≠ some l) (h : Searching g comp l source old it s)
    (hu : s.frontier[it]? = some u) (fuel : Nat) :
    (searchFrom comp g.numNodes l g (fuel + 1) it s = some none ∧ Mixed g comp l source)
      ∨ ∃ s', searchFrom comp g.numNodes l g (fuel + 1) it s
          = searchFrom comp g.numNodes l g fuel (it + 1) s'
        ∧ Searching g comp l source old (it + 1) s' := by
  obtain ⟨hult, huc, -⟩ := h.found u (List.mem_of_getElem? hu)
  have hadj : ∀ v, Adj g u v → v < g.numNodes ∧ Connected g source v :=
    fun v hv => ⟨hv.lt hg hult, .trans _ _ _ huc (hv.connected hg hult)⟩
  obtain ⟨outs, houts, -⟩ := hg.outNeigh u hult
  have hout : ∀ v, v ∈ outs → Adj g u v := by
    intro v hv
    refine Or.inl ?_
    rw [CSRGraph.outs, houts]
    exact hv
  rcases h.all hcomp hold outs fun v hv => hadj v (hout v hv) with
    ⟨hfail, hmixed⟩ | ⟨s₁, hall, h₁, hpre₁, hmem₁⟩
  · refine Or.inl ⟨?_, hmixed⟩
    simp only [searchFrom, hu, houts, Option.bind_eq_bind, Option.bind_some, hfail]
  -- the loop over `in_neigh(u)`
  have hins : (visitIns comp g.numNodes l g u s₁ = some none ∧ Mixed g comp l source)
      ∨ ∃ s', visitIns comp g.numNodes l g u s₁ = some (some s')
        ∧ Searching g comp l source old it s' ∧ s₁.frontier <+: s'.frontier
        ∧ ∀ v, g.directed = true ∧ v ∈ g.ins u → v ∈ s'.frontier := by
    cases hd : g.directed with
    | false =>
        refine Or.inr ⟨s₁, ?_, h₁, List.prefix_refl _, fun v hv => ?_⟩
        · rw [visitIns, hd]
          rfl
        · cases hv.1
    | true =>
        obtain ⟨ins, hins, -⟩ := hg.inNeigh u hult
        have hget : g.ins u = ins := by rw [CSRGraph.ins, hins, Option.getD_some]
        have heq : visitIns comp g.numNodes l g u s₁ = visitAll comp g.numNodes l ins s₁ := by
          simp only [visitIns, hd, if_true, hins, Option.bind_eq_bind, Option.bind_some]
        rw [heq, hget]
        rcases h₁.all hcomp hold ins fun v hv => hadj v (Or.inr ⟨hd, hget ▸ hv⟩) with
          hfail | ⟨s', hall', h', hpre', hmem'⟩
        · exact Or.inl hfail
        · exact Or.inr ⟨s', hall', h', hpre', fun v hv => hmem' v hv.2⟩
  rcases hins with ⟨hfail, hmixed⟩ | ⟨s', hin, h', hpre', hmem'⟩
  · refine Or.inl ⟨?_, hmixed⟩
    simp only [searchFrom, hu, houts, Option.bind_eq_bind, Option.bind_some, hall, hfail]
  · refine Or.inr ⟨s', ?_, ?_⟩
    · simp only [searchFrom, hu, houts, Option.bind_eq_bind, Option.bind_some, hall, hin]
    · have hpre := hpre₁.trans hpre'
      have hlt : it < s.frontier.length := (List.getElem?_eq_some_iff.mp hu).1
      refine { h' with
        it_le := Nat.le_trans hlt hpre.length_le
        closed := fun i hi w hw v hv => ?_ }
      rcases Nat.lt_succ_iff_lt_or_eq.mp hi with hi | rfl
      · exact h'.closed i hi w hw v hv
      · rw [Bfs.getElem?_of_prefix hpre hu] at hw
        cases hw
        rcases hv with hv | hv
        · refine hpre'.subset (hmem₁ v ?_)
          rw [CSRGraph.outs, houts] at hv
          exact hv
        · exact hmem' v hv

/-- The whole search. -/
theorem Searching.searchFrom (hg : g.Transposed) (hcomp : comp.length = g.numNodes)
    (hold : ∀ v, old v → comp[v]? ≠ some l) (fuel : Nat) : ∀ {it : Nat} {s : Search},
    Searching g comp l source old it s → g.numNodes < fuel + it →
    (searchFrom comp g.numNodes l g fuel it s = some none ∧ Mixed g comp l source)
      ∨ ∃ s', searchFrom comp g.numNodes l g fuel it s = some (some s')
        ∧ Searching g comp l source old s'.frontier.length s' := by
  induction fuel with
  | zero =>
      intro it s h hfuel
      have hle := Nat.le_trans h.it_le h.length_le
      omega
  | succ fuel ih =>
      intro it s h hfuel
      cases hu : s.frontier[it]? with
      | none =>
          have heq : it = s.frontier.length :=
            Nat.le_antisymm h.it_le (List.getElem?_eq_none_iff.mp hu)
          refine Or.inr ⟨s, ?_, heq ▸ h⟩
          simp only [Components.searchFrom, hu]
      | some u =>
          rcases h.next hg hcomp hold hu fuel with hfail | ⟨s', heq, h'⟩
          · exact Or.inl hfail
          · rw [heq]
            exact ih h' (by omega)

/-- At its end the search has found the component. -/
theorem Searching.component (hg : g.Transposed)
    (h : Searching g comp l source old s.frontier.length s) (v : Nat) :
    v ∈ s.frontier ↔ Connected g source v := by
  constructor
  · exact fun hv => (h.found v hv).2.1
  · intro hv
    refine (hv.closed hg (p := fun u => u ∈ s.frontier) fun u _ hu w hw => ?_).mp h.source_mem
    obtain ⟨i, hi⟩ := List.getElem?_of_mem hu
    exact h.closed i (List.getElem?_eq_some_iff.mp hi).1 u hi w hw

-- ========================================================= all searches

/-- The searches of `done` have ended well. -/
structure Done (g : CSRGraph Nat) (comp : List Int) (done : List (Int × Nat))
    (visited : List Bool) : Prop where
  length : visited.length = g.numNodes
  visited : ∀ v, visited[v]? = some true ↔ ∃ p ∈ done, Connected g p.2 v
  label : ∀ p ∈ done, ∀ v, Connected g p.2 v → comp[v]? = some p.1

/-- A search begins with its source. -/
theorem searching_start {done : List (Int × Nat)} {visited : List Bool}
    (h : Done g comp done visited) (hsource : source < g.numNodes)
    (hl : comp[source]? = some l) :
    ∃ s, Search.visit ⟨visited, []⟩ g.numNodes source = some s
      ∧ Searching g comp l source (fun v => ∃ p ∈ done, Connected g p.2 v) 0 s := by
  have hlen : source < visited.length := by rw [h.length]; exact hsource
  refine ⟨⟨visited.set source true, [source]⟩, if_pos ⟨hlen, Nat.zero_lt_of_lt hsource⟩, ?_⟩
  exact
    { length := List.length_set.trans h.length
      visited := fun v => by rw [getElem?_set_true hlen, h.visited, List.mem_singleton, or_comm]
      nodup := List.nodup_singleton source
      source_mem := List.mem_singleton_self source
      found := fun v hv => by
        rw [List.mem_singleton.mp hv]
        exact ⟨hsource, .refl source, hl⟩
      it_le := Nat.zero_le _
      closed := fun i hi => absurd hi (Nat.not_lt_zero i) }

/-- Two vertices of one component with different labels. -/
def Split (g : CSRGraph Nat) (comp : List Int) : Prop :=
  ∃ u < g.numNodes, ∃ v < g.numNodes, Connected g u v ∧ comp[u]? ≠ comp[v]?

/-- The searches find a component with two labels, or all go well. -/
theorem searchLabels_spec (hg : g.Transposed) (hcomp : comp.length = g.numNodes) {fuel : Nat}
    (hfuel : g.numNodes < fuel) (todo : List (Int × Nat)) :
    ∀ {done : List (Int × Nat)} {visited : List Bool},
    ((done ++ todo).map Prod.fst).Nodup →
    (∀ p ∈ todo, p.2 < g.numNodes ∧ comp[p.2]? = some p.1) → Done g comp done visited →
    (searchLabels fuel g comp todo visited = some none ∧ Split g comp)
      ∨ ∃ visited', searchLabels fuel g comp todo visited = some (some visited')
        ∧ Done g comp (done ++ todo) visited' := by
  induction todo with
  | nil =>
      intro done visited _ _ h
      rw [List.append_nil]
      exact Or.inr ⟨visited, rfl, h⟩
  | cons p todo ih =>
      intro done visited hnd htodo h
      obtain ⟨l, source⟩ := p
      obtain ⟨hsource, hl⟩ := htodo (l, source) (List.mem_cons_self ..)
      have hold : ∀ v, (∃ p ∈ done, Connected g p.2 v) → comp[v]? ≠ some l := by
        rintro v ⟨p, hp, hpv⟩ heq
        rw [h.label p hp v hpv] at heq
        rw [List.map_append, List.nodup_append] at hnd
        exact hnd.2.2 p.1 (List.mem_map_of_mem hp) l (List.mem_cons_self ..)
          (Option.some.inj heq)
      obtain ⟨s, hs, hstart⟩ := searching_start h hsource hl
      rcases hstart.searchFrom hg hcomp hold fuel hfuel with
        ⟨hfail, v, hv, hne⟩ | ⟨s', hsearch, h'⟩
      · refine Or.inl ⟨?_, source, hsource, v, hv.lt hg hsource, hv, ?_⟩
        · simp only [searchLabels, hs, Option.bind_eq_bind, Option.bind_some, hfail]
        · rw [hl]
          exact hne.symm
      · have hdone : Done g comp (done ++ [(l, source)]) s'.visited :=
          { length := h'.length
            visited := fun v => by
              rw [h'.visited, h'.component hg]
              simp only [List.mem_append, List.mem_singleton, or_and_right, exists_or,
                exists_eq_left]
            label := fun p hp v hv => by
              rcases List.mem_append.mp hp with hp | hp
              · exact h.label p hp v hv
              · rw [List.mem_singleton.mp hp] at hv ⊢
                exact (h'.found v ((h'.component hg v).mpr hv)).2.2 }
        have hstep : searchLabels fuel g comp ((l, source) :: todo) visited
            = searchLabels fuel g comp todo s'.visited := by
          simp only [searchLabels, hs, Option.bind_eq_bind, Option.bind_some, hsearch]
        have happ : done ++ (l, source) :: todo = done ++ [(l, source)] ++ todo := by
          rw [List.append_assoc, List.singleton_append]
        rw [hstep, happ]
        refine ih (happ ▸ hnd) (fun p hp => htodo p (List.mem_cons_of_mem _ hp)) hdone

-- ============================================================ the result

/-- The labels are those of the components. -/
def SameComponents (g : CSRGraph Nat) (comp : List Int) : Prop :=
  ∀ u < g.numNodes, ∀ v < g.numNodes, comp[u]? = comp[v]? ↔ Connected g u v

/-- The last check asks whether every vertex was visited. -/
theorem allM_getElem? {visited : List Bool} (vs : List Nat) (h : ∀ v ∈ vs, v < visited.length) :
    ∃ ok, vs.allM (fun n => visited[n]?) = some ok
      ∧ (ok = true ↔ ∀ v ∈ vs, visited[v]? = some true) := by
  induction vs with
  | nil => exact ⟨true, rfl, by simp⟩
  | cons v vs ih =>
      obtain ⟨ok, heq, hok⟩ := ih fun w hw => h w (List.mem_cons_of_mem _ hw)
      obtain ⟨b, hb⟩ : ∃ b, visited[v]? = some b :=
        ⟨_, List.getElem?_eq_getElem (h v (List.mem_cons_self ..))⟩
      rw [List.allM, hb]
      cases b with
      | false =>
          refine ⟨false, rfl, ?_⟩
          simp [hb]
      | true =>
          refine ⟨ok, heq, ?_⟩
          simp [hb, hok]

/-- With one search for each label, all vertices are visited exactly when
the labels are those of the components. -/
theorem Done.all_visited_iff (hcomp : comp.length = g.numNodes)
    {map : List (Int × Nat)} {visited : List Bool} (hmap : Mapped comp g.numNodes map)
    (h : Done g comp map visited) :
    (∀ v < g.numNodes, visited[v]? = some true) ↔ SameComponents g comp := by
  constructor
  · intro hall u hu v hv
    obtain ⟨p, hp, hpu⟩ := (h.visited u).mp (hall u hu)
    constructor
    · intro heq
      obtain ⟨q, hq, hqv⟩ := (h.visited v).mp (hall v hv)
      rw [h.label p hp u hpu, h.label q hq v hqv] at heq
      have hpq : p = q := List.inj_on_of_nodup_map hmap.nodup hp hq (Option.some.inj heq)
      subst hpq
      exact .trans _ _ _ (.symm _ _ hpu) hqv
    · intro huv
      rw [h.label p hp u hpu, h.label p hp v (.trans _ _ _ hpu huv)]
  · intro hsame v hv
    have hget : comp[v]? = some comp[v] := List.getElem?_eq_getElem (by omega)
    obtain ⟨s, hs⟩ := hmap.label v hv _ hget
    obtain ⟨hslt, hslabel⟩ := hmap.source _ hs
    exact (h.visited v).mpr ⟨_, hs, (hsame s hslt v hv).mp (hslabel.trans hget.symm)⟩

/-- The verifier comes to an end, and says whether the labels are those
of the components. -/
theorem ccVerifier_iff (g : CSRGraph Nat) (hg : g.Transposed) (comp : List Int)
    (hcomp : comp.length = g.numNodes) (fuel : Nat) (hfuel : g.numNodes < fuel) :
    ∃ map, labelToSource g.numNodes comp = some map
      ∧ ∀ order : List (Int × Nat), order.Perm map →
        ∃ ok, ccVerifier fuel g comp order = some ok
          ∧ (ok = true ↔ ∀ u < g.numNodes, ∀ v < g.numNodes,
              comp[u]? = comp[v]? ↔ Connected g u v) := by
  obtain ⟨map, heq, hmap⟩ := labelToSource_mapped hcomp.ge
  refine ⟨map, heq, fun order horder => ?_⟩
  have hmap' : Mapped comp g.numNodes order :=
    { nodup := (horder.map Prod.fst).nodup_iff.mpr hmap.nodup
      source := fun p hp => hmap.source p (horder.mem_iff.mp hp)
      label := fun v hv l hl => by
        obtain ⟨s, hs⟩ := hmap.label v hv l hl
        exact ⟨s, horder.mem_iff.mpr hs⟩ }
  have hstart : Done g comp [] (List.replicate g.numNodes false) :=
    { length := List.length_replicate
      visited := fun v => by
        rw [List.getElem?_replicate]
        split <;> simp
      label := fun p hp => absurd hp (List.not_mem_nil) }
  have hnd : (([] ++ order).map Prod.fst).Nodup := hmap'.nodup
  rcases searchLabels_spec hg hcomp hfuel order hnd hmap'.source hstart with
    ⟨hfail, u, hu, v, hv, huv, hne⟩ | ⟨visited, hsearch, hdone⟩
  · refine ⟨false, ?_, ?_⟩
    · simp only [ccVerifier, hfail, Option.bind_eq_bind, Option.bind_some]
    · constructor
      · intro h
        cases h
      · intro hsame
        exact absurd ((hsame u hu v hv).mpr huv) hne
  · have hdone : Done g comp order visited := hdone
    have hlt : ∀ v ∈ List.range g.numNodes, v < visited.length :=
      fun v hv => by rw [hdone.length]; exact List.mem_range.mp hv
    obtain ⟨ok, hall, hok⟩ := allM_getElem? (List.range g.numNodes) hlt
    refine ⟨ok, ?_, hok.trans ?_⟩
    · simp only [ccVerifier, hsearch, Option.bind_eq_bind, Option.bind_some]
      exact hall
    · simp only [List.mem_range]
      exact hdone.all_visited_iff hcomp hmap'

/-- The verifier on one edge and a vertex that stands alone. -/
theorem ccVerifier_iff_arc :
    ∃ map, labelToSource 3 [7, 7, -1] = some map
      ∧ ∀ order : List (Int × Nat), order.Perm map →
        ∃ ok, ccVerifier 4 Bfs.arc [7, 7, -1] order = some ok
          ∧ (ok = true ↔ ∀ u < 3, ∀ v < 3,
              [7, 7, -1][u]? = [7, 7, -1][v]? ↔ Connected Bfs.arc u v) :=
  ccVerifier_iff Bfs.arc Bfs.arc_transposed [7, 7, -1] rfl 4 (by decide)

end ThesisBench.Gapbs.Components
