/-
The inverse edges, added in place.

The vertex `v` lacks the inverses `missing f n v`: the vertices that have
it for a neighbour and are not its neighbours. Step 1 counts them
(`countInverses_eq`), step 2 moves the lists apart by as much
(`spread_run`), and step 3 puts them there. Its searches are right
because of the order in which it does so (`addInverse_eq`): what has
been put before the neighbours of a vertex came from vertices before the
current one, so the range that is searched has a front part below what
is searched for, and is sorted behind.
-/
import ThesisBench.Gapbs.Proofs.Overwrite
import ThesisBench.Lib.While

namespace ThesisBench.Gapbs

open Slots Search

-- ============================================================ the lists

/-- Sorted lists of vertices below `n`, without the vertex itself. -/
structure Simple (n : Nat) (f : Nat → List Nat) : Prop where
  sorted : ∀ u, (f u).Pairwise (· < ·)
  inside : ∀ u, ∀ v ∈ f u, v < n
  irrefl : ∀ u, u ∉ f u

/-- The vertices below `m` that have `v` for a neighbour and are none of
its own. -/
def missing (f : Nat → List Nat) (m v : Nat) : List Nat :=
  (List.range m).filter fun u => decide (v ∈ f u ∧ u ∉ f v)

variable {n : Nat} {f : Nat → List Nat} {u v : Nat}

theorem mem_missing {m : Nat} : u ∈ missing f m v ↔ u < m ∧ v ∈ f u ∧ u ∉ f v := by
  rw [missing, List.mem_filter, List.mem_range, decide_eq_true_eq]

theorem missing_succ (f : Nat → List Nat) (m v : Nat) : missing f (m + 1) v
    = missing f m v ++ if v ∈ f m ∧ m ∉ f v then [m] else [] := by
  rw [missing, List.range_succ, List.filter_append, ← missing]
  refine congrArg _ ?_
  rw [List.filter_singleton]
  by_cases h : v ∈ f m ∧ m ∉ f v <;> simp [h]

theorem length_missing_le {m : Nat} (h : m ≤ n) (v : Nat) :
    (missing f m v).length ≤ (missing f n v).length := by
  have hsub : (List.range m).Sublist (List.range n) := List.range_sublist.mpr h
  exact (hsub.filter _).length_le

/-- In sorted lists the search finds what is there. -/
theorem binarySearch_sorted (hf : Simple n f) :
    binarySearch (f v) u = true ↔ u ∈ f v := by
  have h := binarySearch_iff (x := u) (a := []) (b := f v) (by simp)
    ((hf.sorted v).imp Nat.le_of_lt)
  rwa [List.nil_append] at h

-- ============================================================ step 1

/-- How many inverses step 1 counts, edge by edge. -/
theorem count_needed (hf : Simple n f) (m v : Nat) :
    ((List.range m).flatMap fun u => (f u).filter fun w => decide (u ∉ f w)).count v
      = (missing f m v).length := by
  induction m with
  | zero => rfl
  | succ m ih =>
      have hnodup : ((f m).filter fun w => decide (m ∉ f w)).Nodup :=
        ((hf.sorted m).imp Nat.ne_of_lt).filter _
      rw [List.range_succ, List.flatMap_append, List.count_append, ih, List.flatMap_singleton,
        missing_succ, List.length_append]
      refine congrArg _ ?_
      rw [hnodup.count]
      by_cases h : v ∈ f m ∧ m ∉ f v <;> simp [h]

/-- The first loop counts the missing neighbours. -/
theorem countInverses_eq (hf : Simple n f) (hneed : ∀ v, (missing f n v).length < 2 ^ 31)
    (rest : List (Option Nat)) :
    countInverses n ⟨(csrOf n f).index, (csrOf n f).neighs ++ rest⟩
      = some ((List.range n).map fun v => ((missing f n v).length : Int)) := by
  have hneigh : ∀ v < n, (⟨(csrOf n f).index, (csrOf n f).neighs ++ rest⟩ : Csr Nat).neigh v
      = some (f v) := fun v hv => neigh_append f rest hv
  generalize (⟨(csrOf n f).index, (csrOf n f).neighs ++ rest⟩ : Csr Nat) = g at hneigh
  have hround : ∀ u ∈ List.range n, ∀ st : List Int, (do
      let neighs ← g.neigh u
      neighs.foldlM (fun needed v => do
        let range ← g.neigh v
        if binarySearch range u then pure needed else addDegree needed v) st)
      = ((f u).filter fun w => decide (u ∉ f w)).foldlM addDegree st := by
    intro u hu st
    rw [hneigh u (List.mem_range.mp hu), Option.bind_eq_bind, Option.bind_some,
      List.foldlM_filter]
    refine foldlM_congr_mem (fun v hv st => ?_) st
    rw [hneigh v (hf.inside u v hv), Option.bind_some]
    by_cases huv : u ∈ f v
    · rw [if_pos ((binarySearch_sorted hf).mpr huv), if_neg (by simpa using huv)]
    · rw [if_neg (fun h => huv ((binarySearch_sorted hf).mp h)), if_pos (by simpa using huv)]
  have hzero : (List.replicate n 0 : List Int) = (List.range n).map fun _ => ((0 : Nat) : Int) := by
    rw [List.map_const', List.length_range]
    rfl
  unfold countInverses
  rw [foldlM_flatMap hround, hzero, foldlM_addDegree _ (fun _ => 0)]
  · simp only [count_needed hf, Nat.zero_add]
  · intro v hv
    obtain ⟨u, -, hv⟩ := List.mem_flatMap.mp hv
    exact hf.inside u v (List.mem_of_mem_filter hv)
  · intro v _
    rw [count_needed hf, Nat.zero_add]
    exact hneed v

-- ============================================================ the offsets

/-- The second loop makes room for them. -/
theorem increaseOffsets_eq {g : Nat → List Nat}
    (hg : ∀ v, (g v).length = (f v).length + (missing f n v).length) :
    increaseOffsets n (csrOf n f).index
        ((List.range n).map fun v => ((missing f n v).length : Int))
      = ((csrOf n g).index, start (missing f n) n) := by
  have hstart : ∀ u, start g u = start f u + start (missing f n) u :=
    fun u => start_add fun v _ => hg v
  have hrun : ∀ k, k ≤ n → (List.range k).foldl (fun (st : List Int × Int) n' =>
      (st.1.set n' (st.1.getD n' 0 + st.2),
        st.2 + ((List.range n).map fun v => ((missing f n v).length : Int)).getD n' 0))
      ((csrOf n f).index, 0)
      = ((List.range (n + 1)).map (fun u => if u < k then start g u else start f u),
          start (missing f n) k) := by
    intro k hk
    induction k with
    | zero => rfl
    | succ k ih =>
        rw [List.range_succ, List.foldl_append, ih (Nat.le_of_succ_le hk), List.foldl_cons,
          List.foldl_nil, set_map_range, getD_map_range _ (by omega),
          getD_map_range _ (Nat.lt_of_succ_le hk), if_neg (Nat.lt_irrefl k), start_succ]
        refine congrArg (·, _) (List.map_congr_left fun u _ => ?_)
        by_cases huk : u = k
        · subst huk
          rw [Function.update_self, if_pos (Nat.lt_succ_self u), hstart]
        · rw [Function.update_of_ne huk]
          by_cases hlt : u < k
          · rw [if_pos hlt, if_pos (Nat.lt_succ_of_lt hlt)]
          · rw [if_neg hlt, if_neg (by omega)]
  unfold increaseOffsets
  simp only [hrun n (Nat.le_refl n)]
  rw [set_map_range, getD_map_range _ (Nat.lt_succ_self n), if_neg (Nat.lt_irrefl n), ← hstart]
  refine congrArg (·, _) (List.map_congr_left fun u hu => ?_)
  have hun := List.mem_range.mp hu
  by_cases heq : u = n
  · subst heq
    rw [Function.update_self]
  · rw [Function.update_of_ne heq, if_pos (by omega)]

-- ============================================================ step 2

/-- Words moved back over the free ones behind them; what is left in
front is free. -/
theorem moveBack_eq (total : Int) (l : List Nat) : ∀ (a g rest : List (Option Nat)) (i : Int),
    (g.length : Int) = total → i = a.length + l.length + total - 1 →
    ∃ g', g'.length = g.length
      ∧ moveBack total l.length i i (a ++ l.map some ++ g ++ rest)
        = some (a ++ g' ++ l.map some ++ rest, i - l.length) := by
  induction l using List.reverseRecOn with
  | nil =>
      intro a g rest i _ _
      exact ⟨g, rfl, by simp [moveBack]⟩
  | append_singleton l x ih =>
      intro a g rest i hg hi
      rw [List.length_append, List.length_singleton] at hi
      obtain ⟨g₁, y, hy⟩ : ∃ g₁ y, some x :: g = g₁ ++ [y] :=
        ⟨_, _, (List.dropLast_append_getLast (List.cons_ne_nil (some x) g)).symm⟩
      have hlen := congrArg List.length hy
      rw [List.length_cons, List.length_append, List.length_singleton] at hlen
      have hread : fetch (a ++ (l ++ [x]).map some ++ g ++ rest) (i - total) = some x := by
        have hsplit : a ++ (l ++ [x]).map some ++ g ++ rest
            = (a ++ l.map some) ++ some x :: (g ++ rest) := by simp
        rw [hsplit]
        exact fetch_append (by rw [List.length_append, List.length_map]; omega) x
      have hwrite : write (a ++ (l ++ [x]).map some ++ g ++ rest) i (some x)
          = some (a ++ l.map some ++ g₁ ++ (some x :: rest)) := by
        have hsplit : a ++ (l ++ [x]).map some ++ g ++ rest
            = (a ++ l.map some ++ g₁) ++ y :: rest := by
          have hcons : a ++ (l ++ [x]).map some ++ g ++ rest
              = a ++ l.map some ++ (some x :: g) ++ rest := by simp
          rw [hcons, hy]
          simp
        rw [hsplit]
        refine write_append ?_ y (some x)
        rw [List.length_append, List.length_append, List.length_map]
        omega
      obtain ⟨g', hg', hrun⟩ := ih a g₁ (some x :: rest) (i - 1) (by omega) (by omega)
      refine ⟨g', by omega, ?_⟩
      rw [List.length_append, List.length_singleton, moveBack, hread]
      show (write _ i (some x)).bind _ = _
      rw [hwrite, Option.bind_some, hrun]
      simp only [List.map_append, List.map_singleton, List.append_assoc, List.cons_append,
        List.nil_append]
      congr 2
      omega

/-- Step 2 from vertex `m` down: each list moves back, and in front of it
as many words are free as inverses are missing. -/
theorem spread_run {g : Nat → List Nat}
    (hg : ∀ v, (g v).length = (f v).length + (missing f n v).length) : ∀ m, m ≤ n →
    ∀ free rest : List (Option Nat), (free.length : Int) = start (missing f n) m →
    ∃ frees : Nat → List (Option Nat), (∀ v, (frees v).length = (missing f n v).length)
      ∧ ∃ tail, (List.range m).reverse.foldlM (spreadStep (csrOf n g).index
            ((List.range n).map fun v => ((missing f n v).length : Int)))
          ⟨(csrOf m f).neighs ++ free ++ rest, start (missing f n) m, start g m - 1⟩
        = some ⟨(List.range m).flatMap (fun v => frees v ++ (f v).map some) ++ rest, 0, tail⟩ := by
  intro m
  induction m with
  | zero =>
      intro _ free rest hfree
      have hnil : free = [] := List.eq_nil_of_length_eq_zero (by simpa [start] using hfree)
      subst hnil
      refine ⟨fun v => List.replicate (missing f n v).length none, fun v => ?_, _, rfl⟩
      rw [List.length_replicate]
  | succ m ih =>
      intro hm free rest hfree
      have hstart : ∀ u, start g u = start f u + start (missing f n) u :=
        fun u => start_add fun v _ => hg v
      have hpos := start_nonneg (missing f n) m
      have hgm := hg m
      obtain ⟨free', hfree', hmove⟩ := moveBack_eq (start (missing f n) (m + 1)) (f m)
        (csrOf m f).neighs free rest (start g (m + 1) - 1) hfree (by
          rw [length_neighs, hstart, start_succ f])
      -- the words that are free now: those of the lists before, and this one's
      obtain ⟨p, q, rfl, hp, hq⟩ : ∃ p q, free' = p ++ q
          ∧ (p.length : Int) = start (missing f n) m ∧ q.length = (missing f n m).length := by
        rw [start_succ] at hfree
        refine ⟨_, _, (List.take_append_drop (start (missing f n) m).toNat free').symm, ?_, ?_⟩
        · rw [List.length_take]
          omega
        · rw [List.length_drop]
          omega
      obtain ⟨frees, hfrees, tail, hrun⟩ := ih (by omega) p (q ++ (f m).map some ++ rest) hp
      have hstep : spreadStep (csrOf n g).index
          ((List.range n).map fun v => ((missing f n v).length : Int))
          ⟨(csrOf (m + 1) f).neighs ++ free ++ rest, start (missing f n) (m + 1),
            start g (m + 1) - 1⟩ m
          = some ⟨(csrOf m f).neighs ++ p ++ (q ++ (f m).map some ++ rest),
              start (missing f n) m, start g m - 1⟩ := by
        have hcount : (start g (m + 1) - (start g m + ((missing f n m).length : Int))).toNat
            = (f m).length := by
          rw [start_succ]
          omega
        have hindex : ∀ u ≤ n, (csrOf n g).index.getD u 0 = start g u :=
          fun u hu => getD_starts g hu
        unfold spreadStep
        simp only [hindex m (Nat.le_of_lt hm), hindex (m + 1) hm, getD_map_range _ hm, hcount,
          neighs_csrOf_succ]
        rw [hmove, Option.bind_eq_bind, Option.bind_some]
        refine congrArg some ?_
        rw [Spreading.mk.injEq]
        refine ⟨by simp, ?_, ?_⟩
        · rw [start_succ]
          omega
        · rw [start_succ]
          omega
      refine ⟨Function.update frees m q, fun v => ?_, tail, ?_⟩
      · by_cases hv : v = m
        · subst hv
          rw [Function.update_self, hq]
        · rw [Function.update_of_ne hv, hfrees]
      · have hfront : (List.range m).flatMap (fun v =>
            Function.update frees m q v ++ (f v).map some)
            = (List.range m).flatMap fun v => frees v ++ (f v).map some := by
          refine List.flatMap_congr fun v hv => ?_
          have := List.mem_range.mp hv
          rw [Function.update_of_ne (by omega)]
        rw [List.range_succ, List.reverse_append, List.reverse_singleton, List.singleton_append,
          List.foldlM_cons, hstep]
        refine hrun.trans ?_
        rw [List.flatMap_append, hfront, List.flatMap_singleton, Function.update_self]
        simp

-- ============================================================ step 3

/-- The memory and `invs_needed` when the inverses `ins v` have been put
before the neighbours of each `v`; before them are the free words. -/
def Inserted (n : Nat) (f ins : Nat → List Nat) (st : List (Option Nat) × List Int) : Prop :=
  ∃ frees : Nat → List (Option Nat),
    (∀ v, (frees v).length + (ins v).length = (missing f n v).length)
      ∧ st = ((List.range n).flatMap (fun v => frees v ++ (ins v ++ f v).map some),
          (List.range n).map fun v => ((frees v).length : Int))

/-- Free words and neighbours together start where the lists will. -/
theorem start_inserted {g ins : Nat → List Nat} {frees : Nat → List (Option Nat)}
    (hg : ∀ v, (g v).length = (f v).length + (missing f n v).length)
    (hfrees : ∀ v, (frees v).length + (ins v).length = (missing f n v).length) (v : Nat) :
    start (fun v => frees v ++ (ins v ++ f v).map some) v = start g v := by
  refine start_congr fun w _ => ?_
  have := hg w
  have := hfrees w
  rw [List.length_append, List.length_map, List.length_append]
  omega

section

variable {g ins : Nat → List Nat} {st : List (Option Nat) × List Int}

/-- One round: `v` gets `u` if it lacks it. -/
theorem addInverse_eq (hf : Simple n f) (hneed : ∀ v, (missing f n v).length < 2 ^ 31)
    (hg : ∀ v, (g v).length = (f v).length + (missing f n v).length)
    (hst : Inserted n f ins st) {i : Int} (hv : v < n) (hfetch : fetch st.1 i = some v)
    (hbelow : ∀ x ∈ ins v, x < u)
    (hroom : u ∉ f v → (ins v).length < (missing f n v).length) :
    ∃ st', addInverse (csrOf n g).index u i st = some st'
      ∧ Inserted n f (if u ∈ f v then ins else Function.update ins v (u :: ins v)) st' := by
  obtain ⟨frees, hfrees, rfl⟩ := hst
  have hstart := start_inserted hg hfrees
  have hfree : ((List.range n).map fun v => ((frees v).length : Int))[v]?
      = some ((frees v).length : Int) := by
    rw [List.getElem?_map, List.getElem?_range hv]
    rfl
  have hslice : slice ((List.range n).flatMap fun v => frees v ++ (ins v ++ f v).map some)
      (start g v + (frees v).length) (start g (v + 1)) = some ((ins v ++ f v).map some) :=
    slice_flatMap_right hv rfl (by rw [hstart]) (hstart (v + 1)).symm
  have hfound : binarySearch (ins v ++ f v) u = true ↔ u ∈ f v := by
    rw [binarySearch_iff hbelow ((hf.sorted v).imp Nat.le_of_lt), List.mem_append,
      or_iff_right fun hu => Nat.lt_irrefl u (hbelow u hu)]
  have hround : addInverse (csrOf n g).index u i
      ((List.range n).flatMap (fun v => frees v ++ (ins v ++ f v).map some),
        (List.range n).map fun v => ((frees v).length : Int))
      = if binarySearch (ins v ++ f v) u = true
        then some ((List.range n).flatMap (fun v => frees v ++ (ins v ++ f v).map some),
          (List.range n).map fun v => ((frees v).length : Int))
        else (write ((List.range n).flatMap fun v => frees v ++ (ins v ++ f v).map some)
            (start g v + (frees v).length - 1) (some u)).bind fun neighs =>
          some (neighs, ((List.range n).map fun v => ((frees v).length : Int)).set v
            (int32 ((frees v).length - 1))) := by
    unfold addInverse
    simp only [hfetch, hfree, getElem?_index (Nat.le_of_lt hv), getElem?_index hv, hslice,
      mapM_id_some, Option.bind_eq_bind, Option.bind_some]
    rfl
  rw [hround]
  by_cases hu : u ∈ f v
  · rw [if_pos (hfound.mpr hu), if_pos hu]
    exact ⟨_, rfl, frees, hfrees, rfl⟩
  · -- the last free word takes it
    have hlen := hfrees v
    have hlt := hroom hu
    have hsmall := hneed v
    obtain ⟨p, y, hp⟩ : ∃ p y, frees v = p ++ [y] := by
      have hne : frees v ≠ [] := by
        intro hnil
        rw [hnil, List.length_nil] at hlen
        omega
      exact ⟨_, _, (List.dropLast_append_getLast hne).symm⟩
    have hplen := congrArg List.length hp
    rw [List.length_append, List.length_singleton] at hplen
    rw [if_neg fun h => hu (hfound.mp h), if_neg hu,
      write_flatMap hv (p := p) (q := (ins v ++ f v).map some) (x := y) (by rw [hp]; simp)
        (by rw [hstart]; omega) (some u)]
    refine ⟨_, rfl, Function.update frees v p, fun w => ?_, ?_⟩
    · by_cases hw : w = v
      · subst hw
        rw [Function.update_self, Function.update_self, List.length_cons]
        omega
      · rw [Function.update_of_ne hw, Function.update_of_ne hw]
        exact hfrees w
    · have hcast : ((frees v).length : Int) - 1 = (p.length : Int) := by omega
      rw [hcast, int32_of_lt (by omega), set_map_range]
      refine congrArg₂ Prod.mk (List.flatMap_congr fun w _ => ?_)
        (List.map_congr_left fun w _ => ?_)
      · by_cases hw : w = v
        · subst hw
          rw [Function.update_self, Function.update_self, Function.update_self]
          simp
        · rw [Function.update_of_ne hw, Function.update_of_ne hw, Function.update_of_ne hw]
      · by_cases hw : w = v
        · subst hw
          rw [Function.update_self, Function.update_self]
        · rw [Function.update_of_ne hw, Function.update_of_ne hw]

/-- The rounds for `u` that are left, when those for `done` have been
made: the range of `u` itself does not change. -/
theorem addInversesFrom_eq (hf : Simple n f) (hneed : ∀ v, (missing f n v).length < 2 ^ 31)
    (hg : ∀ v, (g v).length = (f v).length + (missing f n v).length) (hu : u < n)
    (todo : List Nat) : ∀ (ins : Nat → List Nat) (st : List (Option Nat) × List Int)
      (done : List Nat) (i : Int), Inserted n f ins st → ins u ++ f u = done ++ todo →
    i = start g u + ((missing f n u).length - (ins u).length + done.length : Int) →
    todo.Nodup → (∀ v ∈ todo, v < n ∧ (∀ x ∈ ins v, x < u)
      ∧ (u ∉ f v → v ≠ u ∧ (ins v).length < (missing f n v).length)) →
    ∃ st', addInversesFrom (csrOf n g).index u todo.length i st = some st'
      ∧ Inserted n f (fun v => if v ∈ todo ∧ u ∉ f v then u :: ins v else ins v) st' := by
  induction todo with
  | nil =>
      intro ins st done i hst _ _ _ _
      exact ⟨st, rfl, by simpa using hst⟩
  | cons v todo ih =>
      intro ins st done i hst hrange hi hnodup htodo
      obtain ⟨hnot, hnodup⟩ := List.nodup_cons.mp hnodup
      obtain ⟨hv, hbelow, hroom⟩ := htodo v (List.mem_cons_self ..)
      have hfetch : fetch st.1 i = some v := by
        obtain ⟨frees, hfrees, rfl⟩ := hst
        refine fetch_flatMap hu (p := frees u ++ done.map some) (q := todo.map some) ?_ ?_
        · rw [hrange]
          simp
        · have := hfrees u
          rw [start_inserted hg hfrees, List.length_append, List.length_map]
          omega
      obtain ⟨st₁, hround, hst₁⟩ := addInverse_eq hf hneed hg hst hv hfetch hbelow
        fun h => (hroom h).2
      -- the lists of the vertices to come are as they were, and `u`'s own is
      obtain ⟨ins₁, hins₁⟩ : ∃ ins₁, ins₁
          = if u ∈ f v then ins else Function.update ins v (u :: ins v) := ⟨_, rfl⟩
      have hother : ∀ w, w ≠ v → ins₁ w = ins w := by
        intro w hw
        rw [hins₁]
        split
        · rfl
        · rw [Function.update_of_ne hw]
      have hself : ins₁ u = ins u := by
        by_cases huv : u ∈ f v
        · rw [hins₁, if_pos huv]
        · exact hother u (Ne.symm (hroom huv).1)
      rw [← hins₁] at hst₁
      obtain ⟨st', hrun, hst'⟩ := ih ins₁ st₁ (done ++ [v]) (i + 1) hst₁
        (by rw [hself, hrange]; simp)
        (by rw [hself, List.length_append, List.length_singleton]; omega) hnodup
        (fun w hw => by
          rw [hother w (fun h => hnot (h ▸ hw))]
          exact htodo w (List.mem_cons_of_mem _ hw))
      refine ⟨st', ?_, ?_⟩
      · rw [List.length_cons, addInversesFrom, hround]
        exact hrun
      · refine (congrArg (Inserted n f · st') (funext fun w => ?_)).mp hst'
        by_cases hw : w = v
        · subst hw
          rw [if_neg fun h => hnot h.1, hins₁]
          by_cases huv : u ∈ f w
          · rw [if_pos huv, if_neg fun h => h.2 huv]
          · rw [if_neg huv, Function.update_self, if_pos ⟨List.mem_cons_self .., huv⟩]
        · rw [hother w hw]
          simp only [List.mem_cons, hw, false_or]

/-- The rounds for the vertices below `m`: each `v` has the inverses it
lacks from them, the last one first. -/
theorem addInverses_run (hf : Simple n f) (hneed : ∀ v, (missing f n v).length < 2 ^ 31)
    (hg : ∀ v, (g v).length = (f v).length + (missing f n v).length)
    (hst : Inserted n f (fun _ => []) st) : ∀ m, m ≤ n →
    ∃ st', (List.range m).foldlM (fun st u =>
          let first := (csrOf n g).index.getD u 0 + st.2.getD u 0
          addInversesFrom (csrOf n g).index u
            ((csrOf n g).index.getD (u + 1) 0 - first).toNat first st) st = some st'
      ∧ Inserted n f (fun v => (missing f m v).reverse) st' := by
  intro m hm
  refine While.count_total _ (fun m st => Inserted n f (fun v => (missing f m v).reverse) st) hst
    fun m hlt st₁ hst₁ => ?_
  replace hm : m < n := hlt.trans_le hm
  have hnodup : ((missing f m m).reverse ++ f m).Nodup := by
    refine List.nodup_append.mpr ⟨?_, (hf.sorted m).imp Nat.ne_of_lt, ?_⟩
    · rw [List.nodup_reverse]
      exact List.nodup_range.filter _
    · rintro x hx _ hy rfl
      exact (mem_missing.mp (List.mem_reverse.mp hx)).2.2 hy
  have htodo : ∀ v ∈ (missing f m m).reverse ++ f m, v < n
      ∧ (∀ x ∈ (missing f m v).reverse, x < m)
      ∧ (m ∉ f v → v ≠ m ∧ (missing f m v).reverse.length < (missing f n v).length) := by
    intro v hv
    have hbelow : ∀ x ∈ (missing f m v).reverse, x < m :=
      fun x hx => (mem_missing.mp (List.mem_reverse.mp hx)).1
    rcases List.mem_append.mp hv with hv | hv
    · obtain ⟨hlt, hmem, -⟩ := mem_missing.mp (List.mem_reverse.mp hv)
      exact ⟨by omega, hbelow, fun h => absurd hmem h⟩
    · refine ⟨hf.inside m v hv, hbelow, fun h => ⟨?_, ?_⟩⟩
      · rintro rfl
        exact hf.irrefl v hv
      · have hle := length_missing_le (f := f) hm v
        rw [missing_succ, if_pos ⟨hv, h⟩, List.length_append, List.length_singleton] at hle
        rw [List.length_reverse]
        omega
  have hfirst : (csrOf n g).index.getD m 0 + st₁.2.getD m 0
      = start g m + ((missing f n m).length - (missing f m m).length : Int) := by
    obtain ⟨frees, hfrees, rfl⟩ := hst₁
    have := hfrees m
    rw [List.length_reverse] at this
    rw [show (csrOf n g).index.getD m 0 = start g m from getD_starts g (Nat.le_of_lt hm),
      getD_map_range _ hm]
    omega
  have hcount : ((csrOf n g).index.getD (m + 1) 0 - (start g m
      + ((missing f n m).length - (missing f m m).length : Int))).toNat
      = ((missing f m m).reverse ++ f m).length := by
    have hgm := hg m
    have hle := length_missing_le (f := f) (Nat.le_of_lt hm) m
    rw [show (csrOf n g).index.getD (m + 1) 0 = start g (m + 1) from getD_starts g hm,
      start_succ, List.length_append, List.length_reverse]
    omega
  obtain ⟨st', hround, hst'⟩ := addInversesFrom_eq hf hneed hg (u := m) hm
    ((missing f m m).reverse ++ f m) _ st₁ []
    (start g m + ((missing f n m).length - (missing f m m).length : Int)) hst₁ rfl
    (by rw [List.length_reverse, List.length_nil]; omega) hnodup htodo
  refine ⟨st', ?_, ?_⟩
  · show addInversesFrom _ _ _ _ _ = _
    rw [hfirst, hcount, hround]
  · refine (congrArg (Inserted n f · st') (funext fun v => ?_)).mp hst'
    have hmem : (v ∈ (missing f m m).reverse ++ f m ∧ m ∉ f v) ↔ v ∈ f m ∧ m ∉ f v := by
      rw [List.mem_append, List.mem_reverse, mem_missing]
      tauto
    simp only [hmem]
    rw [missing_succ]
    split
    · rw [List.reverse_append, List.reverse_singleton, List.singleton_append]
    · rw [List.append_nil]

/-- The loop over the vertices puts all inverses before the neighbours. -/
theorem addInverses_eq (hf : Simple n f) (hneed : ∀ v, (missing f n v).length < 2 ^ 31)
    (hg : ∀ v, (g v).length = (f v).length + (missing f n v).length)
    {frees : Nat → List (Option Nat)} (hfrees : ∀ v, (frees v).length = (missing f n v).length) :
    ∃ needed, addInverses n (csrOf n g).index
        ((List.range n).map fun v => ((missing f n v).length : Int))
        ((List.range n).flatMap fun v => frees v ++ (f v).map some)
      = some ((csrOf n fun v => (missing f n v).reverse ++ f v).neighs, needed) := by
  have hst : Inserted n f (fun _ => [])
      ((List.range n).flatMap (fun v => frees v ++ (f v).map some),
        (List.range n).map fun v => ((missing f n v).length : Int)) :=
    ⟨frees, fun v => by rw [hfrees, List.length_nil, Nat.add_zero], by simp [hfrees]⟩
  obtain ⟨st', hrun, frees', hfrees', rfl⟩ := addInverses_run hf hneed hg hst n (Nat.le_refl n)
  have hnil : ∀ v, frees' v = [] := by
    intro v
    have := hfrees' v
    rw [List.length_reverse] at this
    exact List.eq_nil_of_length_eq_zero (by omega)
  have hneighs : (List.range n).flatMap (fun v =>
      frees' v ++ ((missing f n v).reverse ++ f v).map some)
      = (csrOf n fun v => (missing f n v).reverse ++ f v).neighs := by
    simp only [hnil, List.nil_append, csrOf, List.map_flatMap]
  exact ⟨_, hneighs ▸ hrun⟩

end

-- ============================================================ the sort

/-- The words of one list, and those around it. -/
theorem neighs_update {m : Nat} (h : Nat → List Nat) (hm : m < n) :
    ∃ l r : List (Option Nat), (l.length : Int) = start h m
      ∧ ∀ a, (csrOf n (Function.update h m a)).neighs = l ++ a.map some ++ r := by
  obtain ⟨l, r, hl, hsplit⟩ := flatMap_range_split (fun v => (h v).map some) hm
  rw [start_map_some] at hl
  refine ⟨l, r, hl, fun a => ?_⟩
  rw [← hsplit]
  show ((List.range n).flatMap _).map some = _
  rw [List.map_flatMap]
  refine List.flatMap_congr fun v _ => ?_
  by_cases hv : v = m
  · subst hv
    rw [Function.update_self, Function.update_self]
  · rw [Function.update_of_ne hv, Function.update_of_ne hv]

/-- Sorting a range sorts one list. -/
theorem sortRange_eq {m : Nat} (h : Nat → List Nat) (hm : m < n) :
    sortRange (csrOf n h).neighs (start h m) (start h (m + 1))
      = some (csrOf n (Function.update h m ((h m).mergeSort DestID.le))).neighs := by
  obtain ⟨l, r, hl, hsplit⟩ := neighs_update h hm
  have hown : (csrOf n h).neighs = l ++ (h m).map some ++ r := by
    rw [← hsplit, Function.update_eq_self]
  have hslice : slice (csrOf n h).neighs (start h m) (start h (m + 1))
      = some ((h m).map some) := by
    rw [hown, start_succ]
    exact slice_append _ _ _ hl.symm (by rw [List.length_map])
  have htake : (csrOf n h).neighs.take (start h m).toNat = l := by
    rw [hown, ← hl, Int.toNat_natCast, List.append_assoc, List.take_left]
  have hdrop : (csrOf n h).neighs.drop (start h (m + 1)).toNat = r := by
    have hlen : (start h (m + 1)).toNat = (l ++ (h m).map some).length := by
      rw [start_succ, List.length_append, List.length_map]
      omega
    rw [hown, hlen, List.drop_left]
  unfold sortRange
  rw [hslice, Option.bind_eq_bind, Option.bind_some, mapM_id_some, Option.bind_eq_bind,
    Option.bind_some, htake, hdrop, hsplit]
  rfl

/-- The ranges of the vertices below `m`, sorted. -/
theorem sortRanges_run (g : Nat → List Nat) : ∀ m, m ≤ n →
    (List.range m).foldlM (fun neighs v => sortRange neighs ((csrOf n g).index.getD v 0)
        ((csrOf n g).index.getD (v + 1) 0)) (csrOf n g).neighs
      = some (csrOf n fun v => if v < m then (g v).mergeSort DestID.le else g v).neighs := by
  intro m
  induction m with
  | zero =>
      intro _
      simp
  | succ m ih =>
      intro hm
      obtain ⟨h, hh⟩ : ∃ h : Nat → List Nat,
          h = fun v => if v < m then (g v).mergeSort DestID.le else g v := ⟨_, rfl⟩
      have hcase : ∀ v, h v = if v < m then (g v).mergeSort DestID.le else g v := by
        intro v
        rw [hh]
      have hstart : ∀ v, start g v = start h v := by
        intro v
        refine start_congr fun w _ => ?_
        rw [hcase]
        split
        · rw [List.length_mergeSort]
        · rfl
      have hself : h m = g m := by rw [hcase, if_neg (Nat.lt_irrefl m)]
      rw [While.count_succ, ih (Nat.le_of_succ_le hm), ← hh, Option.bind_some,
        show (csrOf n g).index.getD m 0 = start g m from getD_starts g (Nat.le_of_lt hm),
        show (csrOf n g).index.getD (m + 1) 0 = start g (m + 1) from getD_starts g hm,
        hstart, hstart, sortRange_eq h hm, hself]
      refine congrArg (fun f => some (csrOf n f).neighs) (funext fun v => ?_)
      by_cases hv : v = m
      · subst hv
        rw [Function.update_self, if_pos (Nat.lt_succ_self v)]
      · rw [Function.update_of_ne hv, hcase]
        by_cases hlt : v < m
        · rw [if_pos hlt, if_pos (Nat.lt_succ_of_lt hlt)]
        · rw [if_neg hlt, if_neg (by omega)]

-- ======================================================== the three steps

/-- The lists with the inverses. -/
def symmetrized (n : Nat) (f : Nat → List Nat) (v : Nat) : List Nat :=
  ((missing f n v).reverse ++ f v).mergeSort DestID.le

/-- A symmetrised list has its neighbours and the missing ones. -/
theorem length_symmetrized (v : Nat) :
    (symmetrized n f v).length = (f v).length + (missing f n v).length := by
  rw [symmetrized, List.length_mergeSort, List.length_append, List.length_reverse]
  omega

theorem sortRanges_eq (n : Nat) (f : Nat → List Nat) :
    sortRanges n (csrOf n (symmetrized n f)).index
        (csrOf n fun v => (missing f n v).reverse ++ f v).neighs
      = some (csrOf n (symmetrized n f)).neighs := by
  have hindex : (csrOf n (symmetrized n f)).index
      = (csrOf n fun v => (missing f n v).reverse ++ f v).index := by
    refine List.map_congr_left fun u _ => start_congr fun v _ => ?_
    rw [symmetrized, List.length_mergeSort]
  rw [hindex]
  refine (sortRanges_run _ n (Nat.le_refl n)).trans ?_
  refine congrArg some (congrArg (List.map some) (List.flatMap_congr fun v hv => ?_))
  rw [if_pos (List.mem_range.mp hv)]
  rfl

/-- `realloc` keeps what is there and adds words that are not written. -/
theorem realloc_append (l junk : List (Option Nat)) (size : Nat) (hsize : l.length ≤ size) :
    ∃ free, realloc (l ++ junk) size = l ++ free ∧ free.length = size - l.length := by
  refine ⟨junk.take (size - l.length) ++ List.replicate (size - (l ++ junk).length) none, ?_, ?_⟩
  · rw [realloc, List.take_append, List.take_of_length_le hsize, List.append_assoc]
  · rw [List.length_append, List.length_take, List.length_replicate, List.length_append]
    omega

/-- The branch that symmetrizes: either there is nothing to store, and
the block was not empty before, or the lists get the inverses. -/
theorem symmetrizeInPlace_eq (hroom : n + 1 < 2 ^ 31) (hf : Simple n f)
    (hneed : ∀ v, (missing f n v).length < 2 ^ 31) (allocated : Bool)
    (junk : List (Option Nat)) :
    symmetrizeInPlace n allocated ((csrOf n f).neighs ++ junk) (csrOf n f).index
      = if allocated = true ∧ start (symmetrized n f) n = 0 then some (.error (-33))
        else some (.ok (csrOf n (symmetrized n f))) := by
  have hg := length_symmetrized (n := n) (f := f)
  have hlast : ((csrOf n (symmetrized n f)).index.getD n 0).toNat
      = (start (symmetrized n f) n).toNat :=
    congrArg Int.toNat (getD_starts _ (Nat.le_refl n))
  have hpos := start_nonneg (symmetrized n f) n
  unfold symmetrizeInPlace
  rw [countInverses_eq hf hneed, Option.bind_eq_bind, Option.bind_some, increaseOffsets_eq hg]
  simp only [hlast]
  by_cases hnull : allocated = true ∧ start (symmetrized n f) n = 0
  · rw [if_pos hnull, if_pos ⟨hnull.1, by omega⟩]
    rfl
  · have hsize : ¬ (allocated = true ∧ (start (symmetrized n f) n).toNat = 0) :=
      fun h => hnull ⟨h.1, by omega⟩
    have hstart : start (symmetrized n f) n = start f n + start (missing f n) n :=
      start_add fun v _ => hg v
    have hmissing := start_nonneg (missing f n) n
    have hlen := length_neighs n f
    obtain ⟨free, hrealloc, hfree⟩ := realloc_append (csrOf n f).neighs junk
      (start (symmetrized n f) n).toNat (by omega)
    obtain ⟨frees, hfrees, tail, hspread⟩ := spread_run hg n (Nat.le_refl n) free []
      (by omega)
    obtain ⟨needed, hadd⟩ := addInverses_eq hf hneed hg hfrees
    have htail : (csrOf n (symmetrized n f)).index.getD n 0 = start (symmetrized n f) n :=
      getD_starts _ (Nat.le_refl n)
    have hmoved : spread n (csrOf n (symmetrized n f)).index
        ((List.range n).map fun v => ((missing f n v).length : Int)) (start (missing f n) n)
        ((csrOf n f).neighs ++ free)
        = some ((List.range n).flatMap fun v => frees v ++ (f v).map some) := by
      rw [List.append_nil, List.append_nil] at hspread
      rw [spread, htail, hspread]
      rfl
    rw [if_neg hnull, if_neg hsize, hrealloc, hmoved]
    show Option.bind (addInverses _ _ _ _) _ = _
    rw [hadd]
    show Option.bind (sortRanges _ _ _) _ = _
    rw [sortRanges_eq, Option.bind_some, genIndex_csrOf hroom]
    rfl

end ThesisBench.Gapbs
