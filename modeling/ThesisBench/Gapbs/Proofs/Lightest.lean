/-
The builder keeps the lightest of parallel edges.

`SquishCSR` sorts a neighbourhood by vertex and weight and drops from it
what `operator==` calls a repetition, which looks at the vertex only. So
of the edges to one vertex the first stays, and in this order that is the
least (`mem_unique`). What stays depends on the neighbours alone and not
on their order, so every schedule of the construction leaves the same
weighted graph (`makeGraph_lightest`).
-/
import ThesisBench.Gapbs.Proofs.Builder

namespace ThesisBench.Gapbs

open Slots

-- ======================================================== what is dropped

section Antisymmetric

variable {δ : Type} [DestID δ]

theorem destID_le_refl (d : δ) : DestID.le d d = true := by simpa using DestID.le_total d d

/-- `d` is the first of those in `l` with its node. -/
def Least (l : List δ) (d : δ) : Prop :=
  d ∈ l ∧ ∀ d' ∈ l, DestID.node d' = DestID.node d → DestID.le d d' = true

variable (hanti : ∀ a c : δ, DestID.le a c = true → DestID.le c a = true → a = c)
include hanti

/-- Of sorted values `unique` keeps the first of each node. -/
theorem mem_uniqueFrom (l : List δ) : ∀ x : δ,
    (x :: l).Pairwise (fun a c => DestID.le a c = true) → ∀ d,
      d ∈ uniqueFrom x l ↔ Least (x :: l) d := by
  induction l with
  | nil =>
      intro x _ d
      rw [uniqueFrom, Least]
      constructor
      · intro hd
        obtain rfl := List.mem_singleton.mp hd
        refine ⟨hd, fun d' hd' _ => ?_⟩
        obtain rfl := List.mem_singleton.mp hd'
        exact destID_le_refl d'
      · exact fun h => h.1
  | cons y l ih =>
      intro x hl d
      obtain ⟨hx, hyl⟩ := List.pairwise_cons.mp hl
      have hxy := hx y List.mem_cons_self
      rw [uniqueFrom]
      split
      · rename_i hnode
        have hxl : (x :: l).Pairwise (fun a c => DestID.le a c = true) :=
          hl.sublist ((List.sublist_cons_self y l).cons_cons x)
        rw [ih x hxl d]
        constructor
        · rintro ⟨hd, hmin⟩
          refine ⟨?_, fun d' hd' hd'' => ?_⟩
          · exact ((List.sublist_cons_self y l).cons_cons x).subset hd
          · rcases List.mem_cons.mp hd' with rfl | hd'
            · exact hmin d' List.mem_cons_self hd''
            · rcases List.mem_cons.mp hd' with rfl | hd'
              · have hdx := hmin x List.mem_cons_self (hnode.trans hd'')
                exact DestID.le_trans _ _ _ hdx hxy
              · exact hmin d' (List.mem_cons_of_mem x hd') hd''
        · rintro ⟨hd, hmin⟩
          have hless : ∀ d' ∈ x :: l, DestID.node d' = DestID.node d → DestID.le d d' = true :=
            fun d' hd' => hmin d' (((List.sublist_cons_self y l).cons_cons x).subset hd')
          refine ⟨?_, hless⟩
          rcases List.mem_cons.mp hd with rfl | hd
          · exact List.mem_cons_self
          · rcases List.mem_cons.mp hd with rfl | hd
            · -- the repetition is the first itself
              rw [hanti x d hxy (hmin x List.mem_cons_self hnode)]
              exact List.mem_cons_self
            · exact List.mem_cons_of_mem x hd
      · rename_i hnode
        have hlt : ∀ d' ∈ y :: l, DestID.node x ≠ DestID.node d' := by
          intro d' hd'
          have hfirst := DestID.node_le x y hxy
          rcases List.mem_cons.mp hd' with rfl | hmem
          · exact hnode
          · have hle := DestID.node_le y d' ((List.pairwise_cons.mp hyl).1 d' hmem)
            omega
        rw [List.mem_cons, ih y hyl d]
        constructor
        · rintro (rfl | ⟨hd, hmin⟩)
          · refine ⟨List.mem_cons_self, fun d' hd' hsame => ?_⟩
            rcases List.mem_cons.mp hd' with rfl | hd'
            · exact destID_le_refl d'
            · exact absurd hsame.symm (hlt d' hd')
          · refine ⟨List.mem_cons_of_mem x hd, fun d' hd' hsame => ?_⟩
            rcases List.mem_cons.mp hd' with rfl | hd'
            · exact absurd hsame (hlt d hd)
            · exact hmin d' hd' hsame
        · rintro ⟨hd, hmin⟩
          rcases List.mem_cons.mp hd with rfl | hd
          · exact .inl rfl
          · exact .inr ⟨hd, fun d' hd' => hmin d' (List.mem_cons_of_mem x hd')⟩

/-- What stays of a sorted list. -/
theorem mem_unique {l : List δ} (hl : l.Pairwise fun a c => DestID.le a c = true) (d : δ) :
    d ∈ unique l ↔ Least l d := by
  cases l with
  | nil => simp [unique, Least]
  | cons x l => exact mem_uniqueFrom hanti l x hl d

/-- What stays of a neighbourhood. -/
theorem mem_squish_least (u : Nat) (l : List δ) (d : δ) :
    d ∈ squish u l ↔ DestID.node d ≠ u ∧ Least l d := by
  have hsorted := List.pairwise_mergeSort DestID.le_trans DestID.le_total l
  rw [squish, List.mem_filter, mem_unique hanti hsorted, and_comm]
  simp only [Least, List.mem_mergeSort, ne_eq, decide_not, Bool.not_eq_eq_eq_not,
    Bool.not_true, decide_eq_false_iff_not]

/-- The order of the values does not matter for the squish. -/
theorem squish_perm (u : Nat) {l m : List δ} (hp : l.Perm m) : squish u l = squish u m := by
  have : Std.Irrefl fun a c : δ => DestID.node a < DestID.node c := ⟨fun a => Nat.lt_irrefl _⟩
  have : Std.Antisymm fun a c : δ => DestID.node a < DestID.node c :=
    ⟨fun a c hac hca => absurd hac (Nat.lt_asymm hca)⟩
  refine (pairwise_squish u l).eq_of_mem_iff (pairwise_squish u m) fun d => ?_
  rw [mem_squish_least hanti, mem_squish_least hanti]
  simp only [Least, hp.mem_iff]

/-- The order of the placements does not matter for the graph. -/
theorem builtGraph_eq_of_perm (b : Builder) (n : Nat) {s s' t t' : List (Nat × δ)}
    (hs : s.Perm s') (ht : t.Perm t') : builtGraph b n s t = builtGraph b n s' t' := by
  have hrun : ∀ {s s' : List (Nat × δ)}, s.Perm s' → squished s = squished s' := by
    intro s s' hp
    funext u
    exact squish_perm hanti u (hp.filterMap _)
  unfold builtGraph
  rw [hrun hs, hrun ht]

end Antisymmetric

-- ======================================================== weighted graphs

/-- The order of weighted neighbours is antisymmetric. -/
theorem nodeWeight_antisymm (a c : NodeWeight) (hac : DestID.le a c = true)
    (hca : DestID.le c a = true) : a = c := by
  obtain ⟨v, w⟩ := a
  obtain ⟨v', w'⟩ := c
  have hac := (NodeWeight.le_iff _ _).mp hac
  have hca := (NodeWeight.le_iff _ _).mp hca
  simp only at hac hca
  obtain rfl : v = v' := by omega
  have hw : w.toInt = w'.toInt := by omega
  rw [BitVec.eq_of_toInt_eq hw]

/-- The list has an edge of weight `w` from `u` to `v`, given the way
it is read. -/
def Offers (symmetrize : Bool) (el : List (Edge NodeWeight)) (u v : Nat) (w : BitVec 32) : Prop :=
  ⟨u, ⟨v, w⟩⟩ ∈ el ∨ (symmetrize = true ∧ ⟨v, ⟨u, w⟩⟩ ∈ el)

/-- It has none of less weight. -/
def Lightest (symmetrize : Bool) (el : List (Edge NodeWeight)) (u v : Nat) (w : BitVec 32) :
    Prop :=
  Offers symmetrize el u v w ∧ ∀ w', Offers symmetrize el u v w' → w.toInt ≤ w'.toInt

/-- With symmetrisation an edge goes both ways. -/
theorem Offers.symm {el : List (Edge NodeWeight)} {u v : Nat} {w : BitVec 32} :
    Offers true el u v w ↔ Offers true el v u w := by
  unfold Offers
  simp only [true_and]
  exact or_comm

/-- Under which vertices a weighted edge places what. -/
theorem mem_placements_weighted {b : Builder} {transpose : Bool} {el : List (Edge NodeWeight)}
    {u v : Nat} {w : BitVec 32} :
    (u, (⟨v, w⟩ : NodeWeight)) ∈ placements b transpose el ↔
      if transpose = true then Offers b.symmetrize el v u w else Offers b.symmetrize el u v w := by
  have hex : (∃ e ∈ el, u = DestID.node e.v ∧ (⟨v, w⟩ : NodeWeight) = DestID.getSource e.u e.v) ↔
      (⟨v, ⟨u, w⟩⟩ : Edge NodeWeight) ∈ el := by
    constructor
    · rintro ⟨⟨x, y, z⟩, he, rfl, hsource⟩
      cases hsource
      exact he
    · intro he
      exact ⟨_, he, rfl, rfl⟩
  rw [mem_placements, hex]
  unfold Offers
  cases b.symmetrize <;> cases transpose <;> simp [or_comm]

/-- After the squish every neighbour has its least weight. -/
theorem mem_squished_weighted {b : Builder} {transpose : Bool} {el : List (Edge NodeWeight)}
    {u v : Nat} {w : BitVec 32} :
    (⟨v, w⟩ : NodeWeight) ∈ squished (placements b transpose el) u ↔
      u ≠ v ∧ if transpose = true then Lightest b.symmetrize el v u w
        else Lightest b.symmetrize el u v w := by
  rw [squished, mem_squish_least nodeWeight_antisymm, ne_comm]
  refine and_congr Iff.rfl ?_
  have hle : ∀ w', DestID.le (⟨v, w⟩ : NodeWeight) ⟨v, w'⟩ = true ↔ w.toInt ≤ w'.toInt := by
    intro w'
    refine (NodeWeight.le_iff _ _).trans ?_
    simp
  have hall : (∀ d ∈ run (placements b transpose el) u,
        DestID.node d = DestID.node (⟨v, w⟩ : NodeWeight) →
          DestID.le (⟨v, w⟩ : NodeWeight) d = true) ↔
      ∀ w', (u, (⟨v, w'⟩ : NodeWeight)) ∈ placements b transpose el → w.toInt ≤ w'.toInt := by
    constructor
    · intro h w' hw'
      exact (hle w').mp (h _ (mem_run.mpr hw') rfl)
    · rintro h ⟨x, w'⟩ hd hnode
      obtain rfl : x = v := hnode
      exact (hle w').mpr (h w' (mem_run.mp hd))
  rw [Least, mem_run, hall]
  simp only [mem_placements_weighted]
  cases transpose <;> simp [Lightest]

/-- With symmetrisation the least weight is the same both ways. -/
theorem Lightest.symm {el : List (Edge NodeWeight)} {u v : Nat} {w : BitVec 32} :
    Lightest true el u v w ↔ Lightest true el v u w := by
  unfold Lightest
  rw [Offers.symm]
  exact and_congr Iff.rfl (forall_congr' fun w' => imp_congr_left Offers.symm)

/-- The graph that every run builds. -/
def lightestGraph (b : Builder) (el : List (Edge NodeWeight)) : CSRGraph NodeWeight :=
  builtGraph b (findMaxNodeID el + 1) (placements b false el) (placements b true el)

section Lightest

variable {b : Builder} {el : List (Edge NodeWeight)} {u : Nat}

/-- The graph has a vertex for every id up to the largest. -/
theorem numNodes_lightestGraph : (lightestGraph b el).numNodes = findMaxNodeID el + 1 := by
  unfold lightestGraph builtGraph
  cases b.symmetrize <;> rfl

theorem outNeigh_lightestGraph (hu : u < findMaxNodeID el + 1) :
    (lightestGraph b el).outNeigh u = some (squished (placements b false el) u) := by
  unfold lightestGraph builtGraph CSRGraph.outNeigh
  cases b.symmetrize <;> exact neigh_csrOf _ hu

/-- Of a symmetrized graph both directions are the outgoing one. -/
theorem inNeigh_lightestGraph (hu : u < findMaxNodeID el + 1) :
    (lightestGraph b el).inNeigh u = some (squished (placements b (!b.symmetrize) el) u) := by
  unfold lightestGraph builtGraph CSRGraph.inNeigh
  cases b.symmetrize <;> exact neigh_csrOf _ hu

/-- The incoming edges with their least weights. -/
theorem mem_incoming_lightestGraph {v : Nat} {w : BitVec 32} :
    (⟨v, w⟩ : NodeWeight) ∈ squished (placements b (!b.symmetrize) el) u ↔
      u ≠ v ∧ Lightest b.symmetrize el v u w := by
  rw [mem_squished_weighted]
  cases b.symmetrize with
  | true => exact and_congr Iff.rfl Lightest.symm
  | false => exact Iff.rfl

/-- Every run of the builder builds this graph. -/
theorem makeGraph_iff_lightestGraph (hb : b.inPlace = false)
    (hf : ∀ transpose, Fits b (findMaxNodeID el + 1) transpose el)
    (out : Option (CSRGraph NodeWeight)) :
    MakeGraph b el out ↔ out = some (lightestGraph b el) := by
  rw [makeGraph_iff hb hf]
  constructor
  · rintro ⟨s, t, hs, ht, rfl⟩
    rw [builtGraph_eq_of_perm nodeWeight_antisymm b _ hs ht]
    rfl
  · rintro rfl
    exact ⟨_, _, List.Perm.refl _, List.Perm.refl _, rfl⟩

/-- The order of the edges does not matter for it. -/
theorem lightestGraph_perm {el' : List (Edge NodeWeight)} (hp : el'.Perm el) :
    lightestGraph b el' = lightestGraph b el := by
  unfold lightestGraph
  rw [findMaxNodeID_perm hp]
  exact builtGraph_eq_of_perm nodeWeight_antisymm b _ (hp.flatMap_right _) (hp.flatMap_right _)

end Lightest

/-- Whatever the order of the list, of the atomic additions and of the
writes, the builder makes one weighted graph. Its neighbourhoods are
sorted, have no loops and no repetitions, and the weight of an edge is
the least that the list has for it; the incoming lists are the transpose
of the outgoing ones, weights included. -/
theorem makeGraph_lightest (symmetrize : Bool) (el : List (Edge NodeWeight))
    (hid : ∀ e ∈ el, e.u ≤ 2 ^ 31 - 3 ∧ e.v.v ≤ 2 ^ 31 - 3)
    (hdeg : ∀ transpose u,
      (increments ⟨symmetrize, false⟩ transpose el).count u < 2 ^ 31) :
    ∃ g : CSRGraph NodeWeight,
      (∀ el' : List (Edge NodeWeight), el'.Perm el → ∀ out,
        MakeGraph ⟨symmetrize, false⟩ el' out ↔ out = some g)
      ∧ (∀ e ∈ el, e.u < g.numNodes ∧ e.v.v < g.numNodes)
      ∧ ∀ u, u < g.numNodes → ∃ outs ins : List NodeWeight,
        g.outNeigh u = some outs ∧ g.inNeigh u = some ins
        ∧ (outs.Pairwise fun a c => a.v < c.v) ∧ (ins.Pairwise fun a c => a.v < c.v)
        ∧ (∀ v w, ⟨v, w⟩ ∈ outs ↔ u ≠ v ∧ Lightest symmetrize el u v w)
        ∧ ∀ v w, ⟨v, w⟩ ∈ ins ↔ u ≠ v ∧ Lightest symmetrize el v u w := by
  refine ⟨lightestGraph ⟨symmetrize, false⟩ el, ?_, ?_, ?_⟩
  · intro el' hp out
    have hfits : ∀ transpose,
        Fits ⟨symmetrize, false⟩ (findMaxNodeID el' + 1) transpose el' := by
      intro transpose
      refine fits_of_bounds (fun e he => hid e (hp.mem_iff.mp he)) fun u => ?_
      have hperm : (increments ⟨symmetrize, false⟩ transpose el').Perm
          (increments ⟨symmetrize, false⟩ transpose el) := hp.flatMap_right _
      rw [hperm.count_eq]
      exact hdeg transpose u
    rw [makeGraph_iff_lightestGraph rfl hfits, lightestGraph_perm hp]
  · intro e he
    have hle : e.u ≤ findMaxNodeID el ∧ e.v.v ≤ findMaxNodeID el := le_findMaxNodeID he
    rw [numNodes_lightestGraph]
    omega
  · intro u hu
    rw [numNodes_lightestGraph] at hu
    refine ⟨_, _, outNeigh_lightestGraph hu, inNeigh_lightestGraph hu, pairwise_squish _ _,
      pairwise_squish _ _, fun v w => ?_, fun v w => mem_incoming_lightestGraph⟩
    exact mem_squished_weighted

/-- Two parallel edges from 0 to 1, the second against the first's
direction, and a loop. -/
def parallelEdges : List (Edge NodeWeight) := [⟨0, ⟨1, 5⟩⟩, ⟨1, ⟨0, -2⟩⟩, ⟨1, ⟨1, 1⟩⟩]

/-- Symmetrized, both directions have the weight -2. -/
theorem makeGraph_lightest_parallel : ∃ g : CSRGraph NodeWeight,
    MakeGraph ⟨true, false⟩ parallelEdges (some g)
      ∧ ∃ outs, g.outNeigh 0 = some outs ∧ ⟨1, -2⟩ ∈ outs ∧ ⟨1, 5⟩ ∉ outs := by
  have hdeg : ∀ transpose u,
      (increments ⟨true, false⟩ transpose parallelEdges).count u < 2 ^ 31 := by
    intro transpose u
    have hlen : (increments ⟨true, false⟩ transpose parallelEdges).length = 6 := by
      cases transpose <;> rfl
    have hcount : (increments ⟨true, false⟩ transpose parallelEdges).count u ≤ _ :=
      List.count_le_length
    omega
  obtain ⟨g, hall, hbound, hneigh⟩ := makeGraph_lightest true parallelEdges (by decide) hdeg
  have hlt := hbound ⟨0, ⟨1, 5⟩⟩ (by decide)
  obtain ⟨outs, -, houts, -, -, -, hmem, -⟩ := hneigh 0 hlt.1
  have hoffers : ∀ w, Offers true parallelEdges 0 1 w ↔ w = 5 ∨ w = -2 := by
    intro w
    simp [Offers, parallelEdges]
  refine ⟨g, (hall _ (List.Perm.refl _) _).mpr rfl, outs, houts, ?_, ?_⟩
  · refine (hmem 1 (-2)).mpr ⟨by decide, (hoffers _).mpr (.inr rfl), fun w' hw' => ?_⟩
    cases (hoffers w').mp hw' with
    | inl h =>
        rw [h]
        decide
    | inr h => rw [h]
  · intro h
    have hle := ((hmem 1 5).mp h).2.2 (-2) ((hoffers _).mpr (.inr rfl))
    exact absurd hle (by decide)

end ThesisBench.Gapbs
