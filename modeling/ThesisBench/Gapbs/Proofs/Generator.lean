/-
The edges do not depend on the threads.

What an edge is depends only on its place: its block seeds the engine,
and the edges of the block before it have moved the engine on
(`Draws.edgeAt`). So whichever thread writes a slot writes the same, and
what a thread has written stays right whatever the others do
(`outline`).
-/
import ThesisBench.Gapbs.Generator
import ThesisBench.Gapbs.Proofs.UniDist
import ThesisBench.Lib.Mersenne

namespace ThesisBench.Gapbs.Generator

open Slots Parallel

variable {ρ : Type} {lib : RandomLib ρ} {g : Generator}

theorem blockSize_pos : 0 < blockSize := Nat.two_pow_pos 18

attribute [local irreducible] blockSize

-- ============================================================= the edges

/-- The engine after `k` edges. -/
def engineAfter (next : ρ → (Int × Int) × ρ) : Nat → ρ → ρ
  | 0, rng => rng
  | k + 1, rng => (next (engineAfter next k rng)).2

/-- The edge that belongs at place `e`. -/
def edgeAt (lib : RandomLib ρ) (next : ρ → (Int × Int) × ρ) (e : Nat) : Int × Int :=
  (next (engineAfter next (e % blockSize) (lib.seed (kRandSeed + e / blockSize)))).1

theorem mem_edgesOf {block e : Nat} :
    e ∈ g.edgesOf block ↔ block ≤ e ∧ e < block + blockSize ∧ e < g.numEdges := by
  rw [edgesOf, List.mem_range'_1]
  omega

/-- Every edge is in a block. -/
theorem exists_block {e : Nat} (he : e < g.numEdges) :
    ∃ block ∈ g.blocks, e ∈ g.edgesOf block := by
  have hpos := blockSize_pos
  refine ⟨e / blockSize * blockSize, List.mem_map.mpr ⟨_, List.mem_range.mpr ?_, rfl⟩, ?_⟩
  · have hle : e / blockSize * blockSize ≤ e := Nat.div_mul_le_self e blockSize
    refine (Nat.le_div_iff_mul_le hpos).mpr ?_
    rw [Nat.succ_mul]
    omega
  · have hsplit := Nat.div_add_mod' e blockSize
    have hlt := Nat.mod_lt e hpos
    exact mem_edgesOf.mpr (by omega)

-- ============================================================ the threads

/-- Where a thread stands: in the block that starts at `block`, with
`k` of its edges made, or between two blocks. -/
def AtEdge (lib : RandomLib ρ) (g : Generator) (next : ρ → (Int × Int) × ρ) (w : Worker ρ) :
    Prop :=
  w.edges = [] ∨ ∃ i k, k < blockSize
    ∧ w.edges = List.range' (i * blockSize + k)
        (min (i * blockSize + blockSize) g.numEdges - (i * blockSize + k))
    ∧ w.rng = engineAfter next k (lib.seed (kRandSeed + i))

/-- What a thread knows: where it stands, and that every edge of its
share is there or still to be made. -/
structure Knows (lib : RandomLib ρ) (g : Generator) (next : ρ → (Int × Int) × ρ)
    (shares : List (List Nat)) (w : Worker ρ) (s : Memory) : Prop where
  at_edge : AtEdge lib g next w
  blocks : ∀ block ∈ w.blocks, blockSize ∣ block
  made : ∀ block ∈ shares.getD w.id [], ∀ e ∈ g.edgesOf block,
    e ∈ w.edges ∨ block ∈ w.blocks ∨ s.el[e]? = some (some (edgeAt lib next e))

/-- Every slot is empty or has its edge. -/
def Sound (lib : RandomLib ρ) (g : Generator) (next : ρ → (Int × Int) × ρ) (s : Memory) : Prop :=
  s.el.length = g.numEdges
    ∧ ∀ e pair, s.el[e]? = some (some pair) → pair = edgeAt lib next e

variable {next : ρ → (Int × Int) × ρ} {edge : ρ → Option ((Int × Int) × ρ)}
  {shares : List (List Nat)} {w w' : Worker ρ} {s s' : Memory}

/-- The two moves of a thread. -/
theorem next_cases (hedge : ∀ rng, edge rng = some (next rng))
    (h : (workers lib g edge).next w s = some (w', s')) :
    (∃ e edges el, w.edges = e :: edges ∧ write s.el e (some (next w.rng).1) = some el
        ∧ w' = ⟨w.id, (next w.rng).2, w.blocks, edges⟩ ∧ s' = { s with el := el })
      ∨ ∃ block blocks, w.edges = [] ∧ w.blocks = block :: blocks
        ∧ w' = ⟨w.id, lib.seed (kRandSeed + block / blockSize), blocks, g.edgesOf block⟩
        ∧ s' = s := by
  obtain ⟨id, rng, blocks, edges⟩ := w
  cases edges with
  | cons e edges =>
      have h : (edge rng).bind (fun x => (write s.el e (some x.1)).bind fun el =>
          some ((⟨id, x.2, blocks, edges⟩ : Worker ρ), { s with el := el })) = some (w', s') := h
      rw [hedge, Option.bind_some] at h
      obtain ⟨el, hwrite, h⟩ := Option.bind_eq_some_iff.mp h
      cases h
      exact Or.inl ⟨e, edges, el, rfl, hwrite, rfl, rfl⟩
  | nil =>
      cases blocks with
      | cons block blocks =>
          cases h
          exact Or.inr ⟨block, blocks, rfl, rfl, rfl, rfl⟩
      | nil => cases h

/-- The next edge of a thread, its place, and where the thread stands
after it. -/
theorem AtEdge.cons {e : Nat} {edges : List Nat} (h : AtEdge lib g next w)
    (hw : w.edges = e :: edges) :
    e < g.numEdges ∧ (next w.rng).1 = edgeAt lib next e
      ∧ AtEdge lib g next ⟨w.id, (next w.rng).2, w.blocks, edges⟩ := by
  rcases h with hnil | ⟨i, k, hk, hedges, hrng⟩
  · rw [hnil] at hw
    cases hw
  · rw [hedges] at hw
    have hpos := blockSize_pos
    obtain ⟨count, hcount⟩ : ∃ count, min (i * blockSize + blockSize) g.numEdges
        - (i * blockSize + k) = count + 1 := by
      cases hc : min (i * blockSize + blockSize) g.numEdges - (i * blockSize + k) with
      | zero =>
          rw [hc] at hw
          cases hw
      | succ count => exact ⟨count, rfl⟩
    rw [hcount, List.range'_succ] at hw
    obtain ⟨rfl, rfl⟩ := List.cons.inj hw
    have hdiv : (i * blockSize + k) / blockSize = i := by
      rw [Nat.mul_comm, Nat.mul_add_div hpos, Nat.div_eq_of_lt hk, Nat.add_zero]
    have hmod : (i * blockSize + k) % blockSize = k := by
      rw [Nat.mul_comm, Nat.mul_add_mod, Nat.mod_eq_of_lt hk]
    refine ⟨by omega, by rw [edgeAt, hdiv, hmod, hrng], ?_⟩
    by_cases hlast : k + 1 < blockSize
    · refine Or.inr ⟨i, k + 1, hlast, ?_, by rw [hrng]; rfl⟩
      have hrest : min (i * blockSize + blockSize) g.numEdges - (i * blockSize + (k + 1))
          = count := by omega
      rw [hrest, Nat.add_assoc]
    · refine Or.inl ?_
      show List.range' (i * blockSize + k + 1) count = []
      have hzero : count = 0 := by omega
      rw [hzero]
      rfl

/-- A thread's own move. -/
theorem Knows.own (hedge : ∀ rng, edge rng = some (next rng)) (hs : Sound lib g next s)
    (hw : Knows lib g next shares w s)
    (h : (workers lib g edge).next w s = some (w', s')) :
    Sound lib g next s' ∧ Knows lib g next shares w' s' := by
  rcases next_cases hedge h with ⟨e, edges, el, hedges, hwrite, rfl, rfl⟩
    | ⟨block, blocks, hedges, hblocks, rfl, rfl⟩
  · obtain ⟨he, hpair, hat⟩ := hw.at_edge.cons hedges
    have helt : e < s.el.length := by rw [hs.1]; exact he
    rw [write_natCast helt, hpair] at hwrite
    cases hwrite
    refine ⟨⟨by rw [List.length_set]; exact hs.1, fun i pair hi => ?_⟩,
      ⟨hat, hw.blocks, fun block hblock i hi => ?_⟩⟩
    · rw [List.getElem?_set] at hi
      split at hi
      case isTrue heq =>
        subst heq
        cases hi
        rfl
      case isFalse => exact hs.2 i pair hi
    · by_cases hie : e = i
      · subst hie
        exact Or.inr (Or.inr (List.getElem?_set_self helt))
      · rcases hw.made block hblock i hi with hmem | hmem | hmem
        · rw [hedges] at hmem
          rcases List.mem_cons.mp hmem with rfl | hmem
          · exact absurd rfl hie
          · exact Or.inl hmem
        · exact Or.inr (Or.inl hmem)
        · exact Or.inr (Or.inr ((List.getElem?_set_ne hie).trans hmem))
  · obtain ⟨i, rfl⟩ := hw.blocks block (by rw [hblocks]; exact List.mem_cons_self ..)
    have hpos := blockSize_pos
    refine ⟨hs, ⟨Or.inr ⟨i, 0, hpos, ?_, ?_⟩, fun b hb => ?_, fun b hb e he => ?_⟩⟩
    · show edgesOf g (blockSize * i) = _
      rw [edgesOf, Nat.mul_comm, Nat.add_zero]
    · show lib.seed (kRandSeed + blockSize * i / blockSize) = _
      rw [Nat.mul_div_cancel_left _ hpos]
      rfl
    · exact hw.blocks b (by rw [hblocks]; exact List.mem_cons_of_mem _ hb)
    · rcases hw.made b hb e he with hmem | hmem | hmem
      · rw [hedges] at hmem
        cases hmem
      · rw [hblocks] at hmem
        rcases List.mem_cons.mp hmem with rfl | hmem
        · exact Or.inl he
        · exact Or.inr (Or.inl hmem)
      · exact Or.inr (Or.inr hmem)

/-- The others only write what belongs there. -/
theorem Knows.other {m m' : Worker ρ} (hs : Sound lib g next s)
    (hedge : ∀ rng, edge rng = some (next rng))
    (hm : Knows lib g next shares m s) (hw : Knows lib g next shares w s)
    (h : (workers lib g edge).next m s = some (m', s')) : Knows lib g next shares w s' := by
  rcases next_cases hedge h with ⟨e, edges, el, hedges, hwrite, -, rfl⟩ | ⟨_, _, _, _, -, rfl⟩
  · obtain ⟨he, hpair, -⟩ := hm.at_edge.cons hedges
    refine ⟨hw.at_edge, hw.blocks, fun block hblock i hi => ?_⟩
    rcases hw.made block hblock i hi with hmem | hmem | hmem
    · exact Or.inl hmem
    · exact Or.inr (Or.inl hmem)
    · have helt : e < s.el.length := by rw [hs.1]; exact he
      rw [write_natCast helt, hpair] at hwrite
      cases hwrite
      refine Or.inr (Or.inr ?_)
      show (s.el.set e _)[i]? = _
      by_cases hie : e = i
      · subst hie
        exact List.getElem?_set_self helt
      · exact (List.getElem?_set_ne hie).trans hmem
  · exact hw

/-- The steps that a thread has left. -/
def stepsLeft (g : Generator) (w : Worker ρ) : Nat :=
  (w.blocks.map fun block => (g.edgesOf block).length + 1).sum + w.edges.length

/-- Every step of a thread leaves less to do. -/
theorem stepsLeft_lt (hedge : ∀ rng, edge rng = some (next rng))
    (h : (workers lib g edge).next w s = some (w', s')) :
    stepsLeft g w' < stepsLeft g w ∧ w'.id = w.id := by
  rcases next_cases hedge h with ⟨e, edges, el, hedges, -, rfl, -⟩
    | ⟨block, blocks, hedges, hblocks, rfl, -⟩
  · refine ⟨?_, rfl⟩
    simp only [stepsLeft, hedges, List.length_cons]
    omega
  · refine ⟨?_, rfl⟩
    simp only [stepsLeft, hedges, hblocks, List.map_cons, List.sum_cons, List.length_nil]
    omega

/-- The outline of the region. -/
def outline (lib : RandomLib ρ) (g : Generator) (hedge : ∀ rng, edge rng = some (next rng))
    (shares : List (List Nat)) : Outline (workers lib g edge) Nat where
  tag := Worker.id
  inv := Sound lib g next
  asserts := Knows lib g next shares
  left w _ := stepsLeft g w
  moves := by
    rintro ⟨id, rng, blocks, edges⟩ s hs hw hdone
    cases edges with
    | cons e edges =>
        obtain ⟨he, -⟩ := hw.at_edge.cons rfl
        have helt : e < s.el.length := by rw [hs.1]; exact he
        refine ⟨⟨id, (next rng).2, blocks, edges⟩,
          { s with el := s.el.set e (some (next rng).1) }, ?_⟩
        show (edge rng).bind _ = _
        rw [hedge, Option.bind_some]
        show (write s.el e (some (next rng).1)).bind _ = _
        rw [write_natCast helt]
        rfl
    | nil =>
        cases blocks with
        | cons block blocks => exact ⟨_, _, rfl⟩
        | nil => cases hdone
  own := by
    intro w s w' s' hs hw h
    obtain ⟨hs', hw'⟩ := hw.own hedge hs h
    obtain ⟨hlt, hid⟩ := stepsLeft_lt hedge h
    exact ⟨hs', hw', hid, hlt⟩
  other := by
    intro w m s m' s' hs hw hm _ h
    exact ⟨Knows.other hs hedge hm hw h, Nat.le_refl _⟩

/-- The list that every run of the region leaves. -/
def edgeList (lib : RandomLib ρ) (g : Generator) (next : ρ → (Int × Int) × ρ) :
    List (Int × Int) := (List.range g.numEdges).map (edgeAt lib next)

/-- The region ends, with every edge in its place. -/
theorem region_total (hedge : ∀ rng, edge rng = some (next rng)) :
    Total (region lib g edge) (start g)
      fun s => s.el = (edgeList lib g next).map some := by
  refine total_fork ⟨_, [g.blocks], by simp, rfl⟩ ?_
  rintro ts ⟨shares, hshares, rfl⟩
  have hmem : ∀ block, block ∈ g.blocks ↔ ∃ i < shares.length, block ∈ shares.getD i [] := by
    intro block
    rw [← hshares.mem_iff, List.mem_flatten]
    constructor
    · rintro ⟨share, hshare, hblock⟩
      obtain ⟨i, hi, rfl⟩ := List.getElem_of_mem hshare
      refine ⟨i, hi, ?_⟩
      rw [List.getD_eq_getElem?_getD, List.getElem?_eq_getElem hi, Option.getD_some]
      exact hblock
    · rintro ⟨i, hi, hblock⟩
      rw [List.getD_eq_getElem?_getD, List.getElem?_eq_getElem hi, Option.getD_some] at hblock
      exact ⟨_, List.getElem_mem hi, hblock⟩
  refine (outline lib g hedge shares).threads (fun _ _ => rfl) ?_ ?_ ?_
  · refine ⟨List.length_replicate, fun e pair he => ?_⟩
    rw [start, List.getElem?_replicate] at he
    split at he <;> cases he
  · intro i hi
    refine ⟨Or.inl rfl, fun block hblock => ?_, fun block hblock e _ => Or.inr (Or.inl hblock)⟩
    obtain ⟨k, -, rfl⟩ := List.mem_map.mp ((hmem block).mpr ⟨i, hi, hblock⟩)
    exact Nat.dvd_mul_left _ _
  · intro s hs hall
    have hs : Sound lib g next s := hs
    refine List.ext_getElem? fun e => ?_
    rw [edgeList, List.map_map, List.getElem?_map]
    by_cases he : e < g.numEdges
    · rw [List.getElem?_range he]
      obtain ⟨block, hblock, hin⟩ := exists_block he
      obtain ⟨i, hi, hblock⟩ := (hmem block).mp hblock
      obtain ⟨w, hid, hw, hdone⟩ := hall i hi
      have hw : Knows lib g next shares w s := hw
      have hid : w.id = i := hid
      have hdone : (w.edges.isEmpty && w.blocks.isEmpty) = true := hdone
      rw [Bool.and_eq_true, List.isEmpty_iff, List.isEmpty_iff] at hdone
      rcases hw.made block (hid ▸ hblock) e hin with hmem | hmem | hmem
      · rw [hdone.1] at hmem
        cases hmem
      · rw [hdone.2] at hmem
        cases hmem
      · exact hmem
    · rw [List.getElem?_eq_none (by rw [hs.1]; omega), List.getElem?_eq_none (by simp; omega)]
      rfl

-- ========================================================== the endpoints

/-- Both ends are vertices. -/
def InGraph (g : Generator) (pair : Int × Int) : Prop :=
  (0 ≤ pair.1 ∧ pair.1 < g.numNodes) ∧ 0 ≤ pair.2 ∧ pair.2 < g.numNodes

theorem length_edgeList : (edgeList lib g next).length = g.numEdges := by
  rw [edgeList, List.length_map, List.length_range]

/-- The edges are in the graph if every draw is. -/
theorem inGraph_edgeList (hnext : ∀ rng, InGraph g (next rng).1) :
    ∀ pair ∈ edgeList lib g next, InGraph g pair := by
  intro pair hpair
  obtain ⟨e, -, rfl⟩ := List.mem_map.mp hpair
  exact hnext _

/-- A power of two divides the number of raw values, and no value is
rejected. -/
theorem cutoff_uniform (hscale : g.numNodes < 2 ^ 31) :
    (UniDist.make (2 ^ 32 - 1) (g.numNodes - 1)).cutoff = 0 := by
  have hpos : 0 < g.numNodes := Nat.two_pow_pos g.scale
  have hle : g.scale ≤ 32 := by
    have hlt : g.scale < 31 := (Nat.pow_lt_pow_iff_right (by decide)).mp hscale
    omega
  obtain ⟨q, hq⟩ : g.numNodes ∣ 2 ^ 32 := Nat.pow_dvd_pow 2 hle
  have hq1 : 1 ≤ q := by
    cases q with
    | zero => cases hq
    | succ q => omega
  have hmod : (2 ^ 32 - 1) % g.numNodes = g.numNodes - 1 := by
    have hsplit : 2 ^ 32 - 1 = g.numNodes - 1 + g.numNodes * (q - 1) := by
      have hmul : g.numNodes * q = g.numNodes * (q - 1) + g.numNodes := by
        rw [← Nat.mul_succ, Nat.succ_eq_add_one, Nat.sub_add_cancel hq1]
      omega
    rw [hsplit, Nat.add_mul_mod_self_left, Nat.mod_eq_of_lt (by omega)]
  rw [UniDist.cutoff_make _ hpos hscale, if_pos hmod]

/-- The edge that two raw values give. -/
def uniformNext (lib : RandomLib ρ) (udist : UniDist) (leftFirst : Bool) (rng : ρ) :
    (Int × Int) × ρ :=
  let x := udist.result (uint32 (lib.next rng).1)
  let rng := (lib.next rng).2
  let y := udist.result (uint32 (lib.next rng).1)
  (if leftFirst then (x, y) else (y, x), (lib.next rng).2)

/-- Without a cutoff the first raw value is accepted. -/
theorem draw_of_cutoff {d : UniDist} (hd : d.cutoff = 0) (fuel : Nat) (rng : ρ) :
    d.draw lib.next (fuel + 1) rng
      = some (d.result (uint32 (lib.next rng).1), (lib.next rng).2) := by
  have hacc : d.accepts (uint32 (lib.next rng).1) = true := by
    rw [UniDist.accepts, decide_eq_true hd, Bool.or_true, Bool.true_or]
  rw [UniDist.draw]
  exact if_pos hacc

/-- Without a cutoff a uniform edge takes two raw values. -/
theorem uniformEdge_eq {d : UniDist} (hd : d.cutoff = 0) (leftFirst : Bool) (fuel : Nat)
    (rng : ρ) :
    uniformEdge lib d leftFirst (fuel + 1) rng = some (uniformNext lib d leftFirst rng) := by
  simp only [uniformEdge, draw_of_cutoff hd, Option.bind_eq_bind, Option.bind_some]
  rfl

/-- A uniform edge is in the graph. -/
theorem inGraph_uniformNext (hscale : g.numNodes < 2 ^ 31) (leftFirst : Bool) (rng : ρ) :
    InGraph g (uniformNext lib (UniDist.make (2 ^ 32 - 1) (g.numNodes - 1)) leftFirst rng).1 := by
  have hpos : 0 < g.numNodes := Nat.two_pow_pos g.scale
  have hresult : ∀ r,
      0 ≤ (UniDist.make (2 ^ 32 - 1) (g.numNodes - 1)).result r
        ∧ (UniDist.make (2 ^ 32 - 1) (g.numNodes - 1)).result r < g.numNodes := by
    intro r
    rw [UniDist.result_eq (UniDist.noMod_make hscale (Nat.le_refl _))
      (UniDist.mod_make _ hpos hscale) hpos hscale]
    have hlt := Nat.mod_lt r hpos
    omega
  unfold uniformNext
  cases leftFirst with
  | true => exact ⟨hresult _, hresult _⟩
  | false => exact ⟨hresult _, hresult _⟩

/-- Each level of the recursion adds a bit to either end. -/
theorem rmatBits_cases (randPoint : Nat) :
    (0 ≤ (rmatBits randPoint).1 ∧ (rmatBits randPoint).1 ≤ 1)
      ∧ 0 ≤ (rmatBits randPoint).2 ∧ (rmatBits randPoint).2 ≤ 1 := by
  unfold rmatBits
  split <;> dsimp only <;> split <;> decide

/-- An id that grows by a bit stays an id while it has at most 31. -/
theorem int32_grow {k : Nat} {x b : Int} (hk : k + 1 ≤ 31) (hx : 0 ≤ x ∧ x < (2 ^ k : Nat))
    (hb : 0 ≤ b ∧ b ≤ 1) :
    0 ≤ int32 (2 * x + b) ∧ int32 (2 * x + b) < (2 ^ (k + 1) : Nat) := by
  have hpow : 2 ^ (k + 1) ≤ 2 ^ 31 := Nat.pow_le_pow_right (by decide) hk
  rw [Nat.pow_succ] at hpow ⊢
  obtain ⟨m, hm⟩ := Int.eq_ofNat_of_zero_le (show 0 ≤ 2 * x + b by omega)
  rw [hm, int32_of_lt (by omega)]
  omega

/-- A level adds one bit to both ends of the edge. -/
theorem rmatEdge_lt (lib : RandomLib ρ) (depth : Nat) : ∀ (k : Nat) (src dst : Int) (rng : ρ),
    k + depth ≤ 31 →
    (0 ≤ src ∧ src < (2 ^ k : Nat)) → (0 ≤ dst ∧ dst < (2 ^ k : Nat)) →
    (0 ≤ (rmatEdge lib depth (src, dst) rng).1.1
        ∧ (rmatEdge lib depth (src, dst) rng).1.1 < (2 ^ (k + depth) : Nat))
      ∧ 0 ≤ (rmatEdge lib depth (src, dst) rng).1.2
        ∧ (rmatEdge lib depth (src, dst) rng).1.2 < (2 ^ (k + depth) : Nat) := by
  induction depth with
  | zero =>
      intro k src dst rng _ hsrc hdst
      exact ⟨hsrc, hdst⟩
  | succ depth ih =>
      intro k src dst rng hk hsrc hdst
      obtain ⟨hleft, hright⟩ := rmatBits_cases (uint32 (lib.next rng).1)
      have hstep := ih (k + 1) _ _ (lib.next rng).2 (by omega)
        (int32_grow (by omega) hsrc hleft) (int32_grow (by omega) hdst hright)
      rw [Nat.add_right_comm] at hstep
      exact hstep

/-- An edge of the recursive matrix is in the graph. -/
theorem inGraph_rmatEdge (hscale : g.numNodes < 2 ^ 31) (rng : ρ) :
    InGraph g (rmatEdge lib g.scale (0, 0) rng).1 := by
  have hle : g.scale < 31 := (Nat.pow_lt_pow_iff_right (by decide)).mp hscale
  have h := rmatEdge_lt lib g.scale 0 0 0 rng (by omega) (by decide) (by decide)
  rw [Nat.zero_add] at h
  exact h

-- ========================================================= the new names

/-- The vertices in order. -/
def ids (g : Generator) : List Int := (List.range g.numNodes).map Int.ofNat

/-- The permutation that `std::shuffle` makes of them. -/
def permuted (lib : RandomLib ρ) (g : Generator) : List Int :=
  lib.shuffle (lib.seed kRandSeed) g.ids

/-- An edge under its new names. -/
def rename (lib : RandomLib ρ) (g : Generator) (pair : Int × Int) : Int × Int :=
  ((permuted lib g).getD pair.1.toNat 0, (permuted lib g).getD pair.2.toNat 0)

theorem permuted_perm : (permuted lib g).Perm g.ids := lib.shuffle_perm _ _

theorem length_permuted : (permuted lib g).length = g.numNodes := by
  rw [permuted_perm.length_eq, ids, List.length_map, List.length_range]

theorem permuted_getElem? (lib : RandomLib ρ) {u : Int} (hu : 0 ≤ u ∧ u < g.numNodes) :
    (permuted lib g)[u.toNat]? = some ((permuted lib g).getD u.toNat 0) := by
  have hlt : u.toNat < (permuted lib g).length := by
    rw [length_permuted]
    omega
  rw [List.getD_eq_getElem?_getD, List.getElem?_eq_getElem hlt, Option.getD_some]

theorem getD_permuted {u : Int} (hu : 0 ≤ u ∧ u < g.numNodes) :
    0 ≤ (permuted lib g).getD u.toNat 0 ∧ (permuted lib g).getD u.toNat 0 < g.numNodes := by
  have hmem := permuted_perm.mem_iff.mp (List.mem_of_getElem? (permuted_getElem? lib hu))
  obtain ⟨n, hn, heq⟩ := List.mem_map.mp hmem
  have hlt := List.mem_range.mp hn
  rw [← heq, Int.ofNat_eq_natCast]
  omega

/-- An edge stays in the graph under its new names. -/
theorem inGraph_rename {pair : Int × Int} (h : InGraph g pair) :
    InGraph g (rename lib g pair) :=
  ⟨getD_permuted h.1, getD_permuted h.2⟩

/-- The parallel loop that makes the identity permutation. -/
theorem identity_total (hlen : s.permutation.length = g.numNodes) :
    Total (.forEach (once identityStep) (fun _ => List.range g.numNodes) fun n => (n, false)) s
      fun s' => s'.el = s.el ∧ s'.permutation = g.ids.map some := by
  have hstep : ∀ {s' : Memory} {n : Nat}, n < s'.permutation.length →
      identityStep n s'
        = some { s' with permutation := s'.permutation.set n (some (n : Int)) } := by
    intro s' n hn
    rw [identityStep, write_natCast hn, Option.map_some]
  refine total_once (fun s' => s'.el = s.el ∧ s'.permutation.length = g.numNodes)
    (fun n _ => n < g.numNodes) (fun n s' => s'.permutation[n]? = some (some (n : Int)))
    ?_ ?_ List.nodup_range ⟨rfl, hlen⟩ (fun n hn => List.mem_range.mp hn) ?_
  · rintro n s' ⟨hel, hlen'⟩ hn
    have hlt : n < s'.permutation.length := hlen' ▸ hn
    exact ⟨_, hstep hlt, ⟨hel, List.length_set.trans hlen'⟩, List.getElem?_set_self hlt⟩
  · rintro n k s' s'' hne ⟨-, hlen'⟩ hk hs
    rw [hstep (hlen' ▸ hk)] at hs
    cases hs
    exact ⟨id, fun hn => (List.getElem?_set_ne (Ne.symm hne)).trans hn⟩
  · rintro s' ⟨hel, hlen'⟩ hall
    refine ⟨hel, List.ext_getElem? fun n => ?_⟩
    rw [ids, List.map_map, List.getElem?_map]
    by_cases hn : n < g.numNodes
    · rw [hall n (List.mem_range.mpr hn), List.getElem?_range hn]
      rfl
    · rw [List.getElem?_eq_none (by omega), List.getElem?_eq_none (by simp; omega)]
      rfl

/-- Reading a list that has been written everywhere. -/
theorem mapM_id_map_some {α : Type} (l : List α) : (l.map some).mapM id = some l := by
  induction l with
  | nil => rfl
  | cons x l ih => simp [ih]

theorem permuteStep_eq {e : Nat} {pair : Int × Int}
    (hperm : s.permutation = (permuted lib g).map some)
    (hpair : s.el[e]? = some (some pair)) (hin : InGraph g pair) :
    permuteStep e s = some { s with el := s.el.set e (some (rename lib g pair)) } := by
  have hnode : ∀ {u : Int}, 0 ≤ u ∧ u < g.numNodes →
      fetch s.permutation u = some ((permuted lib g).getD u.toNat 0) := by
    intro u hu
    rw [fetch, Slots.read, if_pos hu.1, hperm, List.getElem?_map,
      permuted_getElem? lib hu]
    rfl
  have hlt : e < s.el.length := (List.getElem?_eq_some_iff.mp hpair).1
  have hfetch : fetch s.el e = some pair := by
    rw [fetch_natCast, hpair]
    rfl
  simp only [permuteStep, hfetch, Option.bind_eq_bind, Option.bind_some, hnode hin.1, hnode hin.2,
    write_natCast hlt]
  rfl

/-- The parallel loop that renames the edges. -/
theorem rename_total {el : List (Int × Int)} (hlen : el.length = g.numEdges)
    (hin : ∀ pair ∈ el, InGraph g pair) (hel : s.el = el.map some)
    (hperm : s.permutation = (permuted lib g).map some) :
    Total (.forEach (once permuteStep) (fun _ => List.range g.numEdges) fun e => (e, false)) s
      fun s' => s'.el = (el.map (rename lib g)).map some := by
  refine total_once
    (fun s' => s'.permutation = (permuted lib g).map some ∧ s'.el.length = g.numEdges)
    (fun e s' => ∃ pair, el[e]? = some pair ∧ s'.el[e]? = some (some pair))
    (fun e s' => s'.el[e]? = some ((el[e]?).map (rename lib g)))
    ?_ ?_ List.nodup_range ⟨hperm, by rw [hel, List.length_map, hlen]⟩ ?_ ?_
  · rintro e s' ⟨hperm', hlen'⟩ ⟨pair, hpair, hs'⟩
    have hlt : e < s'.el.length := (List.getElem?_eq_some_iff.mp hs').1
    refine ⟨_, permuteStep_eq hperm' hs' (hin pair (List.mem_of_getElem? hpair)),
      ⟨hperm', List.length_set.trans hlen'⟩, ?_⟩
    rw [hpair]
    exact List.getElem?_set_self hlt
  · rintro e k s' s'' hne ⟨hperm', -⟩ ⟨pair, hpair, hs'⟩ hs
    rw [permuteStep_eq hperm' hs' (hin pair (List.mem_of_getElem? hpair))] at hs
    cases hs
    have hsame : (s'.el.set k (some (rename lib g pair)))[e]? = s'.el[e]? :=
      List.getElem?_set_ne (Ne.symm hne)
    rw [hsame]
    exact ⟨id, id⟩
  · intro e he
    have hlt : e < el.length := hlen ▸ List.mem_range.mp he
    refine ⟨el[e], List.getElem?_eq_getElem hlt, ?_⟩
    rw [hel, List.getElem?_map, List.getElem?_eq_getElem hlt]
    rfl
  · rintro s' ⟨-, hlen'⟩ hall
    refine List.ext_getElem? fun e => ?_
    rw [List.getElem?_map, List.getElem?_map]
    by_cases he : e < g.numEdges
    · rw [hall e (List.mem_range.mpr he), List.getElem?_eq_getElem (hlen ▸ he)]
      rfl
    · rw [List.getElem?_eq_none (by omega), List.getElem?_eq_none (by omega)]
      rfl

/-- What holds after each statement of `PermuteIDs`. -/
def permuteInv (lib : RandomLib ρ) (g : Generator) (el : List (Int × Int)) : Nat → Memory → Prop
  | 0, s => s.el = el.map some
  | 1, s => s.el = el.map some ∧ s.permutation.length = g.numNodes
  | 2, s => s.el = el.map some ∧ s.permutation = g.ids.map some
  | 3, s => s.el = el.map some ∧ s.permutation = (permuted lib g).map some
  | _, s => s.el = (el.map (rename lib g)).map some

/-- `PermuteIDs` renames every edge. -/
theorem permuteIDs_total {el : List (Int × Int)} (hlen : el.length = g.numEdges)
    (hin : ∀ pair ∈ el, InGraph g pair) (hel : s.el = el.map some) :
    Total (permuteIDs lib g) s fun s' => s'.el = (el.map (rename lib g)).map some := by
  refine total_seqs _ (permuteInv lib g el) (fun i p hp s hs => ?_) hel
  match i with
  | 0 =>
      cases hp
      refine total_act ⟨_, rfl⟩ ?_
      rintro s' rfl
      exact ⟨hs, List.length_replicate⟩
  | 1 =>
      cases hp
      exact (identity_total hs.2).mono fun s' hs' => ⟨hs'.1.trans hs.1, hs'.2⟩
  | 2 =>
      cases hp
      have hmap : s.permutation.mapM id = some g.ids := by
        rw [hs.2, mapM_id_map_some]
      refine total_act ⟨_, _, hmap, rfl⟩ ?_
      rintro s' ⟨l, hl, rfl⟩
      cases hmap.symm.trans hl
      exact ⟨hs.1, rfl⟩
  | 3 =>
      cases hp
      exact rename_total hlen hin hs.1 hs.2
  | i + 4 => cases hp

-- ============================================================ the results

/-- Every run of `MakeUniformEL` leaves the same edges. -/
theorem makeUniformEL_total (lib : RandomLib ρ) (hscale : g.numNodes < 2 ^ 31)
    (leftFirst : Bool) (fuel : Nat) :
    ∃ el : List (Int × Int), el.length = g.numEdges ∧ (∀ pair ∈ el, InGraph g pair)
      ∧ Total (makeUniformEL lib g leftFirst (fuel + 1)) (start g) fun s => s.el = el.map some :=
  ⟨_, length_edgeList, inGraph_edgeList (inGraph_uniformNext hscale leftFirst),
    region_total (uniformEdge_eq (cutoff_uniform hscale) leftFirst fuel)⟩

/-- Every run of `MakeRMatEL` leaves the same edges. -/
theorem makeRMatEL_total (lib : RandomLib ρ) (hscale : g.numNodes < 2 ^ 31) :
    ∃ el : List (Int × Int), el.length = g.numEdges ∧ (∀ pair ∈ el, InGraph g pair)
      ∧ Total (makeRMatEL lib g) (start g) fun s => s.el = el.map some := by
  have hin : ∀ pair ∈ edgeList lib g (rmatEdge lib g.scale (0, 0)), InGraph g pair :=
    inGraph_edgeList (inGraph_rmatEdge hscale)
  refine ⟨(edgeList lib g (rmatEdge lib g.scale (0, 0))).map (rename lib g), ?_, ?_, ?_⟩
  · rw [List.length_map, length_edgeList]
  · intro pair hpair
    obtain ⟨pair', hpair', rfl⟩ := List.mem_map.mp hpair
    exact inGraph_rename (hin pair' hpair')
  · exact (region_total fun _ => rfl).seq fun s hs => permuteIDs_total length_edgeList hin hs

/-- Every run of `MakeUniformEL` leaves one list of edges, and every run
of `MakeRMatEL` another, whatever the threads do. -/
theorem generated_edges_fixed (lib : RandomLib ρ) (g : Generator) (hscale : 2 ^ g.scale < 2 ^ 31)
    (leftFirst : Bool) (fuel : Nat) :
    ∃ uniform rmat : List (Int × Int),
      (uniform.length = g.numEdges ∧ rmat.length = g.numEdges)
        ∧ (∀ pair ∈ uniform ++ rmat, (0 ≤ pair.1 ∧ pair.1 < 2 ^ g.scale)
            ∧ 0 ≤ pair.2 ∧ pair.2 < 2 ^ g.scale)
        ∧ Ends (fun s => s.el = uniform.map some)
            ([makeUniformEL lib g leftFirst (fuel + 1)], start g)
        ∧ Ends (fun s => s.el = rmat.map some) ([makeRMatEL lib g], start g) := by
  obtain ⟨uniform, hlen, hin, htotal⟩ := makeUniformEL_total lib hscale leftFirst fuel
  obtain ⟨rmat, hlen', hin', htotal'⟩ := makeRMatEL_total lib hscale
  refine ⟨uniform, rmat, ⟨hlen, hlen'⟩, fun pair hpair => ?_, htotal.ends, htotal'.ends⟩
  have h : InGraph g pair := by
    rcases List.mem_append.mp hpair with hpair | hpair
    · exact hin pair hpair
    · exact hin' pair hpair
  have hcast : ((g.numNodes : Nat) : Int) = 2 ^ g.scale := by
    rw [numNodes, Int.natCast_pow]
    rfl
  rw [InGraph, hcast] at h
  exact h

/-- The library's shuffle of two ids: one draw says whether the second
changes places with the first. It is not called with more here. -/
def shuffleTwo (rng : List Nat) : List Int → List Int
  | [u, v] => if (Mersenne.next rng).1 < 2 ^ 31 then [v, u] else [u, v]
  | l => l

/-- Two ids in either order are the same two. -/
theorem shuffleTwo_perm (rng : List Nat) (l : List Int) : (shuffleTwo rng l).Perm l := by
  match l with
  | [] => exact List.Perm.nil
  | [u] => exact List.Perm.refl [u]
  | [u, v] =>
      rw [shuffleTwo]
      split
      · exact List.Perm.swap u v []
      · exact List.Perm.refl [u, v]
  | u :: v :: w :: l => exact List.Perm.refl (u :: v :: w :: l)

/-- The library, for two ids. -/
def mersenneLib : RandomLib (List Nat) where
  seed := Mersenne.seed
  next := Mersenne.next
  shuffle := shuffleTwo
  shuffle_perm := shuffleTwo_perm

/-- Two vertices, and edges for one whole block and two more. -/
theorem generated_edges_fixed_two :
    blocks ⟨1, 131073⟩ = [0, 262144] ∧ edgesOf ⟨1, 131073⟩ 262144 = [262144, 262145]
      ∧ ∃ uniform rmat : List (Int × Int),
        (uniform.length = 262146 ∧ rmat.length = 262146)
          ∧ (∀ pair ∈ uniform ++ rmat, (0 ≤ pair.1 ∧ pair.1 < 2) ∧ 0 ≤ pair.2 ∧ pair.2 < 2)
          ∧ Ends (fun s => s.el = uniform.map some)
              ([makeUniformEL mersenneLib ⟨1, 131073⟩ true 1], start ⟨1, 131073⟩)
          ∧ Ends (fun s => s.el = rmat.map some)
              ([makeRMatEL mersenneLib ⟨1, 131073⟩], start ⟨1, 131073⟩) :=
  ⟨by decide +kernel, by decide +kernel,
    generated_edges_fixed mersenneLib ⟨1, 131073⟩ (by decide) true 0⟩

end ThesisBench.Gapbs.Generator
