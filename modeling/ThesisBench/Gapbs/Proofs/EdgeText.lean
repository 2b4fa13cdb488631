/-
What is written is read back.

# Any text

A reader takes the numbers of its text two by two, or three by three,
until they run out, and returns then: it never reads a variable that was
not assigned, and it takes no more turns than there are edges
(`ElState.loop_eq`, `WelState.loop_eq`).

# The writer's text

The lines of `WriteEL` are numbers with white space after each, so their
numbers are the ones that were printed (`numbers_writeEL`), and these,
two by two or three by three, are the edges.
-/
import ThesisBench.Gapbs.EdgeText
import ThesisBench.Gapbs.Proofs.Csr

namespace ThesisBench.Gapbs

open IStream

-- =========================================================== the readers

/-- The numbers of a stream that are 32-bit integers. -/
abbrev numbers32 (s : IStream) : List Int := numbers (-2 ^ 31) (2 ^ 31 - 1) s

abbrev next32 (s : IStream) : Option (Int × IStream) := next (-2 ^ 31) (2 ^ 31 - 1) s

/-- `in >> x` where there is a number. -/
theorem getInt32_of_next {s s' : IStream} {x : Int} (h : next32 s = some (x, s'))
    (held : Option Int) : getInt32 s held = (some x, s') := (next_eq_some h).2.2 held

theorem getInt32_of_none {s : IStream} (h : next32 s = none) (held : Option Int) :
    (getInt32 s held).2.fail = true := next_eq_none h held

theorem getInt32_of_fail {s : IStream} (h : s.fail = true) (held : Option Int) :
    (getInt32 s held).2.fail = true := getInt_of_fail h held

/-- A number is missing for an edge. -/
theorem ElState.more_read {s : ElState} {l : List Int} (hs : numbers32 s.input = l)
    (hl : pairs l = []) : s.read.more = false := by
  have hfail : s.read.input.fail = true := by
    cases l with
    | nil => exact getInt32_of_fail (getInt32_of_none (numbers_eq_nil hs) _) _
    | cons u l =>
        obtain ⟨s₁, hu, hs⟩ := numbers_eq_cons hs
        cases l with
        | nil =>
            have hv := getInt32_of_none (numbers_eq_nil hs) s.v
            simpa only [ElState.read, getInt32_of_next hu] using hv
        | cons v l => cases hl
  rw [ElState.more, hfail]
  rfl

/-- The loop of `ReadInEL` takes the numbers in pairs. -/
theorem ElState.loop_eq (l : List Int) : ∀ s : ElState, numbers32 s.input = l →
    ∀ fuel, (pairs l).length ≤ fuel →
      (While.loop ElState.more ElState.turn fuel s.read).map ElState.el =
        some (s.el ++ pairs l) := by
  induction l using pairs.induct with
  | case1 u v l ih =>
      intro s hs fuel hfuel
      obtain ⟨s₁, hu, hs⟩ := numbers_eq_cons hs
      obtain ⟨s₂, hv, hs⟩ := numbers_eq_cons hs
      have hread : s.read = ⟨s₂, some u, some v, s.el⟩ := by
        simp only [ElState.read, getInt32_of_next hu, getInt32_of_next hv]
      have hmore : s.read.more = true := by
        rw [hread, ElState.more, (next_eq_some hv).1]
        rfl
      have hturn : s.read.turn =
          some (ElState.read ⟨s₂, some u, some v, s.el ++ [(u, v)]⟩) := by
        rw [hread]
        rfl
      cases fuel with
      | zero => cases hfuel
      | succ fuel =>
          have hfuel : (pairs l).length ≤ fuel := Nat.le_of_succ_le_succ hfuel
          rw [While.loop_of_turn ⟨hmore, hturn⟩, ih ⟨s₂, some u, some v, _⟩ hs fuel hfuel,
            List.append_assoc]
          rfl
  | case2 l hl =>
      intro s hs fuel _
      have hnil : pairs l = [] := by
        unfold pairs
        split
        · exact (hl _ _ _ rfl).elim
        · rfl
      rw [While.loop_of_stop (ElState.more_read hs hnil), hnil, List.append_nil]
      rfl

/-- A number is missing for a weighted edge. -/
theorem WelState.more_read {s : WelState} {l : List Int} (hs : numbers32 s.input = l)
    (hl : triples l = []) : s.read.more = false := by
  have hfail : s.read.input.fail = true := by
    cases l with
    | nil =>
        exact getInt32_of_fail (getInt32_of_fail (getInt32_of_none (numbers_eq_nil hs) _) _) _
    | cons u l =>
        obtain ⟨s₁, hu, hs⟩ := numbers_eq_cons hs
        cases l with
        | nil =>
            have hv := getInt32_of_none (numbers_eq_nil hs) s.v
            have hw := getInt32_of_fail hv s.w
            simpa only [WelState.read, getInt32_of_next hu] using hw
        | cons v l =>
            obtain ⟨s₂, hv, hs⟩ := numbers_eq_cons hs
            cases l with
            | nil =>
                have hw := getInt32_of_none (numbers_eq_nil hs) s.w
                simpa only [WelState.read, getInt32_of_next hu, getInt32_of_next hv] using hw
            | cons w l => cases hl
  rw [WelState.more, hfail]
  rfl

/-- The loop of `ReadInWEL` takes the numbers in threes. -/
theorem WelState.loop_eq (l : List Int) : ∀ s : WelState, numbers32 s.input = l →
    ∀ fuel, (triples l).length ≤ fuel →
      (While.loop WelState.more WelState.turn fuel s.read).map WelState.el =
        some (s.el ++ triples l) := by
  induction l using triples.induct with
  | case1 u v w l ih =>
      intro s hs fuel hfuel
      obtain ⟨s₁, hu, hs⟩ := numbers_eq_cons hs
      obtain ⟨s₂, hv, hs⟩ := numbers_eq_cons hs
      obtain ⟨s₃, hw, hs⟩ := numbers_eq_cons hs
      have hread : s.read = ⟨s₃, some u, some v, some w, s.el⟩ := by
        simp only [WelState.read, getInt32_of_next hu, getInt32_of_next hv,
          getInt32_of_next hw]
      have hmore : s.read.more = true := by
        rw [hread, WelState.more, (next_eq_some hw).1]
        rfl
      have hturn : s.read.turn =
          some (WelState.read ⟨s₃, some u, some v, some w, s.el ++ [⟨u, v, w⟩]⟩) := by
        rw [hread]
        rfl
      cases fuel with
      | zero => cases hfuel
      | succ fuel =>
          have hfuel : (triples l).length ≤ fuel := Nat.le_of_succ_le_succ hfuel
          rw [While.loop_of_turn ⟨hmore, hturn⟩,
            ih ⟨s₃, some u, some v, some w, _⟩ hs fuel hfuel, List.append_assoc]
          rfl
  | case2 l hl =>
      intro s hs fuel _
      have hnil : triples l = [] := by
        unfold triples
        split
        · exact (hl _ _ _ _ rfl).elim
        · rfl
      rw [While.loop_of_stop (WelState.more_read hs hnil), hnil, List.append_nil]
      rfl

/-- `ReadInEL` returns the numbers of the text in pairs. -/
theorem readInEL_eq {fuel : Nat} {text : List UInt8}
    (hfuel : (pairs (numbers32 (ofText text))).length ≤ fuel) :
    readInEL fuel text = some (pairs (numbers32 (ofText text))) :=
  ElState.loop_eq _ (ElState.start text) rfl fuel hfuel

/-- `ReadInWEL` returns the numbers of the text in threes. -/
theorem readInWEL_eq {fuel : Nat} {text : List UInt8}
    (hfuel : (triples (numbers32 (ofText text))).length ≤ fuel) :
    readInWEL fuel text = some (triples (numbers32 (ofText text))) :=
  WelState.loop_eq _ (WelState.start text) rfl fuel hfuel

-- ============================================================ the writer

theorem map_line : ∀ l : List Int, (line l).map Prod.fst = l
  | [] => rfl
  | [_] => rfl
  | x :: y :: l => congrArg (x :: ·) (map_line (y :: l))

/-- In a line every number is followed by white space. -/
theorem mem_line : ∀ (l : List Int) (e : Int × UInt8), e ∈ line l →
    e.1 ∈ l ∧ isSpace e.2 = true
  | [], _, he => absurd he List.not_mem_nil
  | [x], e, he => by
      obtain rfl := List.mem_singleton.mp he
      exact ⟨List.mem_singleton_self x, rfl⟩
  | x :: y :: l, e, he => by
      cases List.mem_cons.mp he with
      | inl heq =>
          rw [heq]
          exact ⟨List.mem_cons_self, rfl⟩
      | inr hmem =>
          obtain ⟨hx, hspace⟩ := mem_line (y :: l) e hmem
          exact ⟨List.mem_cons_of_mem x hx, hspace⟩

section Writer

variable {δ : Type} [DestID δ] [TextID δ] {g : CSRGraph δ}

/-- The numbers of an edge. -/
def edgeWords (e : Edge δ) : List Int := (e.u : Int) :: TextID.fields e.v

theorem putEdge_eq (u : Nat) (v : δ) : putEdge u v = spaced (line (edgeWords ⟨u, v⟩)) := by
  unfold putEdge edgeWords
  rw [List.append_assoc, TextID.put_newline]
  cases h : TextID.fields v with
  | nil => exact absurd h (TextID.fields_ne_nil v)
  | cons y l => simp [line, spaced]

/-- `WriteEL` writes the lines of all edges. -/
theorem writeEL_eq (hg : ∀ u < g.numNodes, ∃ l, g.outNeigh u = some l) :
    writeEL g = some (spaced (g.edges.flatMap fun e => line (edgeWords e))) := by
  have hrows : (List.range g.numNodes).mapM (fun u =>
        (g.outNeigh u).map fun neigh => neigh.flatMap (putEdge u)) =
      some ((List.range g.numNodes).map fun u => (g.outs u).flatMap (putEdge u)) := by
    refine mapM_some fun u hu => ?_
    obtain ⟨l, hl⟩ := hg u (List.mem_range.mp hu)
    rw [CSRGraph.outs, hl]
    rfl
  unfold writeEL
  rw [hrows]
  unfold CSRGraph.edges spaced
  simp only [Option.bind_eq_bind, Option.bind_some, Option.pure_def, Option.some.injEq,
    ← List.flatMap_def, List.flatMap_assoc, List.flatMap_map]
  refine List.flatMap_congr fun u _ => List.flatMap_congr fun v _ => ?_
  rw [putEdge_eq]
  rfl

omit [DestID δ] [TextID δ] in
theorem mem_edges {e : Edge δ} : e ∈ g.edges ↔ e.u < g.numNodes ∧ e.v ∈ g.outs e.u := by
  unfold CSRGraph.edges
  rw [List.mem_flatMap]
  constructor
  · rintro ⟨u, hu, he⟩
    obtain ⟨v, hv, rfl⟩ := List.mem_map.mp he
    exact ⟨List.mem_range.mp hu, hv⟩
  · rintro ⟨hu, hv⟩
    exact ⟨e.u, List.mem_range.mpr hu, List.mem_map.mpr ⟨e.v, hv, rfl⟩⟩

/-- A graph whose neighbourhoods can be read and hold vertices, which
are 32-bit integers. -/
structure Printable (g : CSRGraph δ) : Prop where
  room : g.numNodes ≤ 2 ^ 31
  outNeigh : ∀ u < g.numNodes, ∃ l, g.outNeigh u = some l ∧
    ∀ d ∈ l, DestID.node d < g.numNodes

omit [TextID δ] in
theorem Printable.outs_lt (hg : Printable g) {u : Nat} (hu : u < g.numNodes) {d : δ}
    (hd : d ∈ g.outs u) : DestID.node d < g.numNodes := by
  obtain ⟨l, hl, hlt⟩ := hg.outNeigh u hu
  rw [CSRGraph.outs, hl] at hd
  exact hlt d hd

/-- The text of a graph, and the numbers that are read in it. -/
theorem Printable.numbers_writeEL (hg : Printable g) :
    ∃ text, writeEL g = some text ∧ numbers32 (ofText text) = g.edges.flatMap edgeWords := by
  refine ⟨_, writeEL_eq fun u hu => ?_, ?_⟩
  · obtain ⟨l, hl, -⟩ := hg.outNeigh u hu
    exact ⟨l, hl⟩
  · rw [numbers32, numbers_spaced, List.map_flatMap]
    · exact List.flatMap_congr fun e _ => map_line _
    · intro x hx
      obtain ⟨e, he, hx⟩ := List.mem_flatMap.mp hx
      obtain ⟨hu, hv⟩ := mem_edges.mp he
      have hroom := hg.room
      obtain ⟨hword, hspace⟩ := mem_line _ _ hx
      have hfits : -2 ^ 31 ≤ x.1 ∧ x.1 ≤ 2 ^ 31 - 1 := by
        cases List.mem_cons.mp hword with
        | inl heq => omega
        | inr hmem =>
            have hlt := hg.outs_lt hu hv
            exact TextID.fields_fit e.v (by omega) _ hmem
      exact ⟨hfits.1, hfits.2, hspace⟩

end Writer

-- ========================================================= the round trip

/-- An edge as `ReadInEL` has it. -/
def Edge.read (e : Edge Nat) : Int × Int := (e.u, e.v)

/-- An edge as `ReadInWEL` has it. -/
def Edge.readWeighted (e : Edge NodeWeight) : ReadEdge := ⟨e.u, e.v.v, e.v.w.toInt⟩

/-- The lines of a list of edges, read in pairs. -/
theorem pairs_edgeWords (l : List (Edge Nat)) : pairs (l.flatMap edgeWords) = l.map Edge.read := by
  induction l with
  | nil => rfl
  | cons e l ih =>
      rw [List.flatMap_cons, List.map_cons, ← ih]
      rfl

/-- The lines of a list of weighted edges, read in threes. -/
theorem triples_edgeWords (l : List (Edge NodeWeight)) :
    triples (l.flatMap edgeWords) = l.map Edge.readWeighted := by
  induction l with
  | nil => rfl
  | cons e l ih =>
      rw [List.flatMap_cons, List.map_cons, ← ih]
      rfl

/-- What `WriteEL` writes `ReadInEL` reads. -/
theorem Printable.read {g : CSRGraph Nat} (hg : Printable g) :
    ∃ text, writeEL g = some text ∧ ∀ fuel, g.edges.length ≤ fuel →
      readInEL fuel text = some (g.edges.map Edge.read) := by
  obtain ⟨text, hw, hnum⟩ := hg.numbers_writeEL
  have hpairs : pairs (numbers32 (ofText text)) = g.edges.map Edge.read := by
    rw [hnum, pairs_edgeWords]
  refine ⟨text, hw, fun fuel hfuel => ?_⟩
  rw [readInEL_eq (by rwa [hpairs, List.length_map]), hpairs]

/-- `ReadInEL` reads back the edges that `WriteEL` wrote, in their
order, in a turn for each. -/
theorem readInEL_writeEL {g : CSRGraph Nat} (hn : g.numNodes < 2 ^ 31)
    (hg : ∀ u < g.numNodes, ∃ l, g.outNeigh u = some l ∧ ∀ v ∈ l, v < g.numNodes) :
    ∃ text, writeEL g = some text ∧ ∀ fuel, g.edges.length ≤ fuel →
      readInEL fuel text = some (g.edges.map Edge.read) :=
  Printable.read ⟨hn.le, hg⟩

/-- So does `ReadInWEL` with the weights, negative ones included. -/
theorem readInWEL_writeEL {g : CSRGraph NodeWeight} (hn : g.numNodes < 2 ^ 31)
    (hg : ∀ u < g.numNodes, ∃ l, g.outNeigh u = some l ∧ ∀ d ∈ l, d.v < g.numNodes) :
    ∃ text, writeEL g = some text ∧ ∀ fuel, g.edges.length ≤ fuel →
      readInWEL fuel text = some (g.edges.map Edge.readWeighted) := by
  have hprint : Printable g := ⟨hn.le, hg⟩
  obtain ⟨text, hw, hnum⟩ := hprint.numbers_writeEL
  have htriples : triples (numbers32 (ofText text)) = g.edges.map Edge.readWeighted := by
    rw [hnum, triples_edgeWords]
  refine ⟨text, hw, fun fuel hfuel => ?_⟩
  rw [readInWEL_eq (by rwa [htriples, List.length_map]), htriples]

/-- Two vertices, an edge from the first to the second of weight -7. -/
def negativeArc : CSRGraph NodeWeight :=
  let outgoing : Csr NodeWeight := ⟨[0, 1, 1], [some ⟨1, BitVec.ofInt 32 (-7)⟩]⟩
  ⟨true, 2, 1, outgoing, outgoing⟩

/-- A negative weight is read as it was written. -/
theorem readInWEL_negativeArc : ∃ text, writeEL negativeArc = some text ∧
    ∀ fuel, 1 ≤ fuel → readInWEL fuel text = some [⟨0, 1, -7⟩] :=
  readInWEL_writeEL (by decide) (by decide)

/-- A triangle. -/
def smallTriangle : CSRGraph Nat :=
  let outgoing : Csr Nat := ⟨[0, 2, 4, 6], [some 1, some 2, some 0, some 2, some 0, some 1]⟩
  ⟨false, 3, 3, outgoing, outgoing⟩

theorem readInEL_smallTriangle : ∃ text, writeEL smallTriangle = some text ∧
    ∀ fuel, 6 ≤ fuel →
      readInEL fuel text = some [(0, 1), (0, 2), (1, 0), (1, 2), (2, 0), (2, 1)] :=
  readInEL_writeEL (by decide) (by decide)

end ThesisBench.Gapbs
