/-
A graph that is built, written as a list of edges, read and built again.

The builder leaves no loops and no repetitions, so the written list holds
an edge once, and of a symmetrized graph once in each direction. Building
from it changes no neighbourhood (`simple_edges`). What the list does not
say is how many vertices there were: those behind the last one with an
edge are lost, and the graph comes back as it was exactly when there are
none (`findMaxNodeID_edges`).
-/
import ThesisBench.Gapbs.Proofs.Builder
import ThesisBench.Gapbs.Proofs.EdgeText

namespace ThesisBench.Gapbs

open Slots

variable {b : Builder} {transpose : Bool} {el : List (Edge Nat)} {u v : Nat}

-- ============================================================= the list

/-- The simple graph's edges are between its vertices. -/
theorem lt_of_mem_simple (h : v ∈ simple b false el u) :
    u < findMaxNodeID el + 1 ∧ v < findMaxNodeID el + 1 := by
  obtain ⟨-, ⟨-, he⟩ | ⟨-, he⟩⟩ := mem_simple.mp h
  · have hle : u ≤ findMaxNodeID el ∧ v ≤ findMaxNodeID el := le_findMaxNodeID he
    omega
  · have hle : v ≤ findMaxNodeID el ∧ u ≤ findMaxNodeID el := le_findMaxNodeID he
    omega

/-- The neighbours in the simple graph are its lists. -/
theorem outs_simpleGraph (hu : u < findMaxNodeID el + 1) :
    (simpleGraph b el).outs u = simple b false el u := by
  rw [CSRGraph.outs, outNeigh_simpleGraph hu, Option.getD_some]

/-- The edges of the simple graph are in its lists. -/
theorem mem_edges_simpleGraph :
    ⟨u, v⟩ ∈ (simpleGraph b el).edges ↔ v ∈ simple b false el u := by
  rw [mem_edges, numNodes_simpleGraph]
  constructor
  · rintro ⟨hu, hv⟩
    rwa [outs_simpleGraph hu] at hv
  · intro hv
    have hu := (lt_of_mem_simple hv).1
    rw [outs_simpleGraph hu]
    exact ⟨hu, hv⟩

/-- The simple graph has no edge twice. -/
theorem nodup_edges_simpleGraph (b : Builder) (el : List (Edge Nat)) :
    (simpleGraph b el).edges.Nodup := by
  unfold CSRGraph.edges
  rw [List.nodup_flatMap]
  constructor
  · intro u hu
    rw [List.mem_range, numNodes_simpleGraph] at hu
    rw [outs_simpleGraph hu]
    have hlt : (simple b false el u).Pairwise (· < ·) := pairwise_squish u _
    refine List.Nodup.map ?_ (hlt.imp fun h => Nat.ne_of_lt h)
    intro x y hxy
    cases hxy
    rfl
  · refine List.Pairwise.imp ?_ List.pairwise_lt_range
    intro x y hxy e hx hy
    obtain ⟨_, -, rfl⟩ := List.mem_map.mp hx
    obtain ⟨_, -, heq⟩ := List.mem_map.mp hy
    cases heq
    exact Nat.lt_irrefl _ hxy

-- ========================================================= building again

/-- Building from the written list gives the same neighbourhoods. -/
theorem simple_edges :
    simple b transpose (simpleGraph b el).edges = simple b transpose el := by
  funext u
  have hlt : ∀ el, (simple b transpose el u).Pairwise (· < ·) := fun _ => pairwise_squish u _
  refine (hlt _).eq_of_mem_iff (hlt _) fun v => ?_
  rw [mem_simple, mem_simple, mem_edges_simpleGraph, mem_edges_simpleGraph, mem_simple,
    mem_simple]
  cases b.symmetrize <;> cases transpose <;> simp <;> tauto

/-- The simple graph of its own edges is the same, if the largest id stays. -/
theorem simpleGraph_edges
    (h : findMaxNodeID (simpleGraph b el).edges = findMaxNodeID el) :
    simpleGraph b (simpleGraph b el).edges = simpleGraph b el := by
  have hsame : ∀ transpose, squished (placements b transpose (simpleGraph b el).edges) =
      squished (placements b transpose el) := fun _ => simple_edges
  rw [simpleGraph, h, builtGraph, hsame, hsame]
  rfl

/-- A bound on all ids bounds the largest. -/
theorem findMaxNodeID_le {m : Nat} (h : ∀ e ∈ el, e.u ≤ m ∧ e.v ≤ m) :
    findMaxNodeID el ≤ m := by
  by_cases hne : el = []
  · subst hne
    exact Nat.zero_le m
  · obtain ⟨e, he, hmax⟩ := exists_findMaxNodeID hne
    have hmax : e.u = findMaxNodeID el ∨ e.v = findMaxNodeID el := hmax
    have hle := h e he
    omega

/-- The edges of the simple graph name no larger id. -/
theorem findMaxNodeID_edges_le (b : Builder) (el : List (Edge Nat)) :
    findMaxNodeID (simpleGraph b el).edges ≤ findMaxNodeID el := by
  refine findMaxNodeID_le fun e he => ?_
  have hlt := lt_of_mem_simple (mem_edges_simpleGraph.mp he)
  omega

/-- The list says how many vertices there are when the last one has an
edge, or is the only one. -/
theorem findMaxNodeID_edges :
    findMaxNodeID (simpleGraph b el).edges = findMaxNodeID el ↔
      findMaxNodeID el = 0 ∨
        ∃ e ∈ el, e.u ≠ e.v ∧ (e.u = findMaxNodeID el ∨ e.v = findMaxNodeID el) := by
  constructor
  · intro h
    by_cases hne : (simpleGraph b el).edges = []
    · left
      rw [← h, hne]
      rfl
    · right
      obtain ⟨⟨u, v⟩, he, hmax⟩ := exists_findMaxNodeID hne
      have hmax : u = findMaxNodeID el ∨ v = findMaxNodeID el := h ▸ hmax
      obtain ⟨hloop, ⟨-, he⟩ | ⟨-, he⟩⟩ := mem_simple.mp (mem_edges_simpleGraph.mp he)
      · exact ⟨_, he, hloop, hmax⟩
      · exact ⟨_, he, hloop.symm, hmax.symm⟩
  · intro h
    refine Nat.le_antisymm (findMaxNodeID_edges_le b el) ?_
    cases h with
    | inl hzero => omega
    | inr hex =>
        obtain ⟨⟨u, v⟩, he, hloop, hmax⟩ := hex
        have hmem : ⟨u, v⟩ ∈ (simpleGraph b el).edges :=
          mem_edges_simpleGraph.mpr (mem_simple.mpr ⟨hloop, .inl ⟨.inr rfl, he⟩⟩)
        have hle : u ≤ findMaxNodeID (simpleGraph b el).edges ∧
            v ≤ findMaxNodeID (simpleGraph b el).edges := le_findMaxNodeID hmem
        have hmax : u = findMaxNodeID el ∨ v = findMaxNodeID el := hmax
        omega

/-- Behind the vertices of the list there are no edges. -/
theorem simple_eq_nil (hu : findMaxNodeID (simpleGraph b el).edges < u) :
    simple b transpose el u = [] := by
  rw [List.eq_nil_iff_forall_not_mem, ← simple_edges]
  intro v hv
  obtain ⟨-, ⟨-, he⟩ | ⟨-, he⟩⟩ := mem_simple.mp hv
  · have hle : u ≤ _ ∧ v ≤ _ := le_findMaxNodeID he
    omega
  · have hle : v ≤ _ ∧ u ≤ _ := le_findMaxNodeID he
    omega

-- ============================================================== degrees

/-- How often a value is under a key. -/
theorem count_run (s : List (Nat × Nat)) (u d : Nat) : (run s u).count d = s.count (u, d) := by
  induction s with
  | nil => rfl
  | cons p s ih =>
      obtain ⟨x, y⟩ := p
      by_cases hx : x = u
      · subst hx
        rw [run_cons_self, List.count_cons, List.count_cons, ih]
        simp
      · rw [run_cons_of_ne hx, List.count_cons, ih]
        simp [hx]

/-- A value is placed at a vertex once for either direction of an edge
at most. -/
theorem count_placements_le (b : Builder) (transpose : Bool) (u d : Nat) (l : List (Edge Nat)) :
    (placements b transpose l).count (u, d) ≤ l.count ⟨u, d⟩ + l.count ⟨d, u⟩ := by
  induction l with
  | nil => exact Nat.zero_le _
  | cons e l ih =>
      have hcons : placements b transpose (e :: l) =
          placements b transpose [e] ++ placements b transpose l := by
        simp [placements]
      have hone : (placements b transpose [e]).count (u, d) ≤
          [e].count ⟨u, d⟩ + [e].count ⟨d, u⟩ := by
        have hsub : (placements b transpose [e]).Sublist [(e.u, e.v), (e.v, e.u)] := by
          unfold placements
          cases b.symmetrize <;> cases transpose <;> simp [DestID.node, DestID.getSource]
        refine (hsub.count_le _).trans ?_
        obtain ⟨x, y⟩ := e
        simp only [List.count_cons, List.count_nil, beq_iff_eq, Prod.mk.injEq, Edge.mk.injEq,
          Nat.zero_add, and_comm]
        omega
      rw [hcons, List.count_append, List.count_cons, List.count_cons]
      rw [List.count_singleton, List.count_singleton] at hone
      omega

/-- Built again, a vertex has at most twice its neighbours. -/
theorem length_run_edges (b : Builder) (transpose : Bool) (el : List (Edge Nat)) (u : Nat) :
    (run (placements b transpose (simpleGraph b el).edges) u).length ≤
      2 * (simple b transpose el u).length := by
  have hnodup := List.nodup_iff_count_le_one.mp (nodup_edges_simpleGraph b el)
  have hsub : List.Subperm (run (placements b transpose (simpleGraph b el).edges) u)
      (simple b transpose el u ++ simple b transpose el u) := by
    refine List.subperm_ext_iff.mpr fun d hd => ?_
    have hloop : d ≠ u := by
      cases mem_placements.mp (mem_run.mp hd) with
      | inl h => exact (mem_simple.mp (mem_edges_simpleGraph.mp h.2)).1.symm
      | inr h =>
          obtain ⟨-, ⟨x, y⟩, he, hu, hx⟩ := h
          have hu : u = y := hu
          have hx : d = x := hx
          rw [hu, hx]
          exact (mem_simple.mp (mem_edges_simpleGraph.mp he)).1
    have hmem : d ∈ simple b transpose el u := by
      rw [← simple_edges]
      exact (mem_squish _).mpr ⟨hd, hloop⟩
    have hpos := List.count_pos_iff.mpr hmem
    have hcount := count_placements_le b transpose u d (simpleGraph b el).edges
    have hone := hnodup ⟨u, d⟩
    have hother := hnodup ⟨d, u⟩
    rw [count_run, List.count_append]
    omega
  have hle := hsub.length_le
  rw [List.length_append] at hle
  omega

/-- Built again, a degree is at most twice what it was. -/
theorem increments_edges_le (hb : b.inPlace = false) (transpose : Bool)
    (el : List (Edge Nat)) (u : Nat) :
    (increments b transpose (simpleGraph b el).edges).count u ≤
      2 * (increments b transpose el).count u := by
  have hbound := length_run_edges b transpose el u
  have hsquish : (simple b transpose el u).length ≤ (run (placements b transpose el) u).length :=
    length_squish_le u _
  rw [length_run, ← increments_eq hb] at hbound hsquish
  omega

-- ============================================================ the rebuilt graph

/-- A graph that was built, written with `WriteEL`, read with `ReadInEL`
and built again has the neighbourhoods it had and no others, whatever the
schedules of the two constructions. It has as many vertices, and is the
same graph, exactly when the last vertex has an edge or is the only
one. -/
theorem rebuild_iff (symmetrize : Bool) (el : List (Edge Nat))
    (hid : ∀ e ∈ el, e.u ≤ 2 ^ 31 - 3 ∧ e.v ≤ 2 ^ 31 - 3)
    (hdeg : ∀ transpose u,
      2 * (increments ⟨symmetrize, false⟩ transpose el).count u < 2 ^ 31)
    (g : CSRGraph Nat) (hg : MakeGraph ⟨symmetrize, false⟩ el (some g)) :
    ∃ text el' g', writeEL g = some text
      ∧ (∀ fuel, el'.length ≤ fuel → readInEL fuel text = some (el'.map Edge.read))
      ∧ (∀ out, MakeGraph ⟨symmetrize, false⟩ el' out ↔ out = some g')
      ∧ (∀ u < g'.numNodes, g'.outNeigh u = g.outNeigh u ∧ g'.inNeigh u = g.inNeigh u)
      ∧ (∀ u, g'.numNodes ≤ u → u < g.numNodes →
          g.outNeigh u = some [] ∧ g.inNeigh u = some [])
      ∧ (g' = g ↔ g.numNodes = 1 ∨
          ∃ e ∈ el, e.u ≠ e.v ∧ (e.u + 1 = g.numNodes ∨ e.v + 1 = g.numNodes)) := by
  have hmax : findMaxNodeID el ≤ 2 ^ 31 - 3 := findMaxNodeID_le hid
  have hfits : ∀ transpose, Fits ⟨symmetrize, false⟩ (findMaxNodeID el + 1) transpose el := by
    intro transpose
    refine fits_of_bounds hid fun u => ?_
    have hlt := hdeg transpose u
    omega
  obtain rfl : g = simpleGraph ⟨symmetrize, false⟩ el :=
    Option.some.inj ((makeGraph_iff_simpleGraph rfl hfits _).mp hg)
  have hfits' : ∀ transpose, Fits ⟨symmetrize, false⟩
      (findMaxNodeID (simpleGraph ⟨symmetrize, false⟩ el).edges + 1) transpose
      (simpleGraph ⟨symmetrize, false⟩ el).edges := by
    intro transpose
    refine fits_of_bounds (fun e he => ?_) fun u => ?_
    · have hlt := lt_of_mem_simple (mem_edges_simpleGraph.mp he)
      have hle : e.u ≤ 2 ^ 31 - 3 ∧ e.v ≤ 2 ^ 31 - 3 := by omega
      exact hle
    · have hle := increments_edges_le (b := ⟨symmetrize, false⟩) rfl transpose el u
      have hlt := hdeg transpose u
      omega
  have hprint : Printable (simpleGraph ⟨symmetrize, false⟩ el) := by
    refine ⟨?_, fun u hu => ?_⟩
    · rw [numNodes_simpleGraph]
      omega
    · rw [numNodes_simpleGraph] at hu ⊢
      exact ⟨_, outNeigh_simpleGraph hu, fun d hd => (lt_of_mem_simple hd).2⟩
  obtain ⟨text, hwrite, hread⟩ := hprint.read
  have hle := findMaxNodeID_edges_le ⟨symmetrize, false⟩ el
  refine ⟨text, _, _, hwrite, hread, makeGraph_iff_simpleGraph rfl hfits', ?_, ?_, ?_⟩
  · intro u hu
    rw [numNodes_simpleGraph] at hu
    have hu' : u < findMaxNodeID el + 1 := by omega
    rw [outNeigh_simpleGraph hu, outNeigh_simpleGraph hu', inNeigh_simpleGraph hu,
      inNeigh_simpleGraph hu', simple_edges, simple_edges]
    exact ⟨rfl, rfl⟩
  · intro u hu hlt
    rw [numNodes_simpleGraph] at hu hlt
    rw [outNeigh_simpleGraph hlt, inNeigh_simpleGraph hlt, simple_eq_nil hu, simple_eq_nil hu]
    exact ⟨rfl, rfl⟩
  · have hsame : simpleGraph ⟨symmetrize, false⟩ (simpleGraph ⟨symmetrize, false⟩ el).edges =
        simpleGraph ⟨symmetrize, false⟩ el ↔
        findMaxNodeID (simpleGraph ⟨symmetrize, false⟩ el).edges = findMaxNodeID el := by
      constructor
      · intro h
        have hnodes := congrArg CSRGraph.numNodes h
        rw [numNodes_simpleGraph, numNodes_simpleGraph] at hnodes
        omega
      · exact simpleGraph_edges
    rw [hsame, findMaxNodeID_edges, numNodes_simpleGraph]
    simp only [Nat.add_right_cancel_iff, Nat.add_eq_right]

/-- Four edges, one of them twice; the last vertex has but a loop. -/
def lastLoop : List (Edge Nat) := [⟨0, 1⟩, ⟨0, 2⟩, ⟨0, 2⟩, ⟨3, 3⟩]

/-- The four edges are within the limits. -/
theorem two_mul_increments_lastLoop (transpose : Bool) (u : Nat) :
    2 * (increments ⟨true, false⟩ transpose lastLoop).count u < 2 ^ 31 := by
  have hlen : (increments ⟨true, false⟩ transpose lastLoop).length = 8 := by
    cases transpose <;> rfl
  have hcount : (increments ⟨true, false⟩ transpose lastLoop).count u ≤ _ :=
    List.count_le_length
  omega

/-- What the builder makes of the four edges. -/
theorem makeGraph_lastLoop :
    MakeGraph ⟨true, false⟩ lastLoop (some (simpleGraph ⟨true, false⟩ lastLoop)) := by
  refine (makeGraph_iff_simpleGraph rfl (fun transpose => ?_) _).mpr rfl
  refine fits_of_bounds (by decide) fun u => ?_
  have hlt := two_mul_increments_lastLoop transpose u
  omega

/-- The last vertex is lost, as no edge names it. -/
theorem rebuild_lastLoop : ∃ text el' g', writeEL (simpleGraph ⟨true, false⟩ lastLoop) = some text
    ∧ (∀ fuel, el'.length ≤ fuel → readInEL fuel text = some (el'.map Edge.read))
    ∧ (∀ out, MakeGraph ⟨true, false⟩ el' out ↔ out = some g')
    ∧ g' ≠ simpleGraph ⟨true, false⟩ lastLoop := by
  obtain ⟨text, el', g', hwrite, hread, hmake, -, -, hsame⟩ :=
    rebuild_iff true lastLoop (by decide) two_mul_increments_lastLoop _ makeGraph_lastLoop
  refine ⟨text, el', g', hwrite, hread, hmake, fun h => ?_⟩
  have hlast := hsame.mp h
  rw [numNodes_simpleGraph] at hlast
  revert hlast
  decide

end ThesisBench.Gapbs
