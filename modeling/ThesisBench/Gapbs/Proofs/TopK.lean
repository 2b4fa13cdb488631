/-
`TopK` answers the largest.

After some of the pairs have been looked at, what is kept is sorted, as
long as it can be, and together with what was passed over it makes up
these pairs; no value that was passed over exceeds one that was kept, and
`min_so_far` is the least that was kept (`Kept`). The comparison with
`min_so_far` is strict, so of equal values the earlier ones stay, and
what it was at first does not matter.
-/
import ThesisBench.Gapbs.TopK
import Mathlib.Data.List.Sort

namespace ThesisBench.Gapbs.TopK

variable {κ ν : Type} [LinearOrder κ] [LinearOrder ν] {k : Nat}

-- ============================================================== the order

theorem notBefore_iff {a b : ν × κ} :
    notBefore a b = true ↔ b.1 < a.1 ∨ (b.1 = a.1 ∧ b.2 ≤ a.2) := decide_eq_true_iff

theorem notBefore_trans (a b c : ν × κ) (hab : notBefore a b = true)
    (hbc : notBefore b c = true) : notBefore a c = true := by
  rw [notBefore_iff] at *
  rcases hab with hab | ⟨hab, hab'⟩
  · rcases hbc with hbc | ⟨hbc, -⟩
    · exact .inl (hbc.trans hab)
    · exact .inl (hbc ▸ hab)
  · rcases hbc with hbc | ⟨hbc, hbc'⟩
    · exact .inl (hab ▸ hbc)
    · exact .inr ⟨hbc.trans hab, hbc'.trans hab'⟩

theorem notBefore_total (a b : ν × κ) : (notBefore a b || notBefore b a) = true := by
  rw [Bool.or_eq_true, notBefore_iff, notBefore_iff]
  rcases lt_trichotomy a.1 b.1 with h | h | h
  · exact .inr (.inl h)
  · rcases le_total a.2 b.2 with h' | h'
    · exact .inr (.inr ⟨h, h'⟩)
    · exact .inl (.inr ⟨h.symm, h'⟩)
  · exact .inl (.inl h)

theorem notBefore_le {a b : ν × κ} (h : notBefore a b = true) : b.1 ≤ a.1 := by
  rcases notBefore_iff.mp h with h | ⟨h, -⟩
  · exact h.le
  · exact h.le

-- ============================================================== the loop

omit [LinearOrder κ] [LinearOrder ν] in
theorem resize_eq (k : Nat) (l : List (ν × κ)) : resize k l = l.take k := by
  unfold resize
  split
  · rfl
  · rw [List.take_of_length_le (by omega)]

/-- What holds of `s` and of the pairs that were passed over, `rest`,
when the loop has looked at `seen`. -/
structure Kept (k : Nat) (seen : List (κ × ν)) (rest : List (ν × κ)) (s : Top κ ν) : Prop where
  sorted : s.topK.Pairwise fun a b => notBefore a b = true
  length : s.topK.length = min k seen.length
  perm : (s.topK ++ rest).Perm (seen.map Prod.swap)
  largest : ∀ a ∈ s.topK, ∀ b ∈ rest, b.1 ≤ a.1
  least : ∀ a ∈ s.topK.getLast?, s.minSoFar = a.1

variable {seen : List (κ × ν)} {rest : List (ν × κ)} {s : Top κ ν} {kvp : κ × ν}

theorem Kept.length_rest (h : Kept k seen rest s) :
    s.topK.length + rest.length = seen.length := by
  have hlen := h.perm.length_eq
  rwa [List.length_append, List.length_map] at hlen

/-- The least that is kept is the last. -/
theorem Kept.minSoFar_le (h : Kept k seen rest s) : ∀ a ∈ s.topK, s.minSoFar ≤ a.1 := by
  intro a ha
  obtain ⟨l, last, heq⟩ := List.eq_nil_or_concat s.topK |>.resolve_left (List.ne_nil_of_mem ha)
  rw [List.concat_eq_append] at heq
  have hsorted := h.sorted
  rw [h.least last (by rw [heq]; simp)]
  rw [heq] at ha hsorted
  cases List.mem_append.mp ha with
  | inl hmem =>
      exact notBefore_le ((List.pairwise_append.mp hsorted).2.2 a hmem last
        (List.mem_singleton_self last))
  | inr hmem =>
      obtain rfl := List.mem_singleton.mp hmem
      exact le_refl _

/-- A pair that is not kept. -/
theorem Kept.pass (h : Kept k seen rest s) (hfull : ¬ s.topK.length < k)
    (hle : kvp.2 ≤ s.minSoFar) : Kept k (seen ++ [kvp]) (rest ++ [kvp.swap]) s := by
  have hlen := h.length
  refine ⟨h.sorted, ?_, ?_, fun a ha b hb => ?_, h.least⟩
  · rw [List.length_append, List.length_singleton]
    omega
  · rw [← List.append_assoc, List.map_append]
    exact h.perm.append_right _
  · cases List.mem_append.mp hb with
    | inl hmem => exact h.largest a ha b hmem
    | inr hmem =>
        obtain rfl := List.mem_singleton.mp hmem
        exact hle.trans (h.minSoFar_le a ha)

/-- A pair that is kept, for which the last of the others may have to
go. -/
theorem Kept.push (h : Kept k seen rest s) (hk : 0 < k)
    (hin : s.topK.length < k ∨ s.minSoFar < kvp.2) :
    ∃ s' rest', step k s kvp = some s' ∧ Kept k (seen ++ [kvp]) rest' s' := by
  let sorted := (s.topK ++ [kvp.swap]).mergeSort notBefore
  have hperm : sorted.Perm (s.topK ++ [kvp.swap]) := List.mergeSort_perm _ _
  have hsorted : sorted.Pairwise fun a b => notBefore a b = true :=
    List.pairwise_mergeSort notBefore_trans notBefore_total _
  have hlen : sorted.length = s.topK.length + 1 := by
    rw [hperm.length_eq, List.length_append, List.length_singleton]
  have hne : sorted.take k ≠ [] := by
    intro hnil
    have hzero := congrArg List.length hnil
    rw [List.length_take, List.length_nil] at hzero
    omega
  obtain ⟨last, hlast⟩ := List.getLast?_isSome.mpr hne |> Option.isSome_iff_exists.mp
  refine ⟨⟨sorted.take k, last.1⟩, sorted.drop k ++ rest, ?_, ?_, ?_, ?_, ?_, ?_⟩
  · unfold step
    rw [if_pos hin]
    simp only [resize_eq]
    show (sorted.take k).getLast?.bind _ = _
    rw [hlast]
    rfl
  · exact hsorted.sublist (List.take_sublist k sorted)
  · have hold := h.length
    have hall := h.length_rest
    rw [List.length_take, List.length_append, List.length_singleton]
    omega
  · show (sorted.take k ++ (sorted.drop k ++ rest)).Perm _
    rw [← List.append_assoc, List.take_append_drop, List.map_append]
    refine (hperm.append_right rest).trans ?_
    rw [List.append_assoc]
    refine (List.Perm.append_left _ List.perm_append_comm).trans ?_
    rw [← List.append_assoc]
    exact h.perm.append_right _
  · intro a ha b hb
    cases List.mem_append.mp hb with
    | inl hmem =>
        have hsplit := hsorted
        rw [← List.take_append_drop k sorted] at hsplit
        exact notBefore_le ((List.pairwise_append.mp hsplit).2.2 a ha b hmem)
    | inr hmem =>
        have ha' := hperm.mem_iff.mp (List.mem_of_mem_take ha)
        cases List.mem_append.mp ha' with
        | inl hold => exact h.largest a hold b hmem
        | inr hnew =>
            -- something was passed over, so the vector was full
            obtain rfl := List.mem_singleton.mp hnew
            have hpos := List.length_pos_of_mem hmem
            have hall := h.length_rest
            have hold := h.length
            have hlt : s.minSoFar < kvp.2 := hin.resolve_left (by omega)
            have hkept : s.topK ≠ [] := by
              intro hnil
              rw [hnil, List.length_nil] at hold
              omega
            obtain ⟨least, hleast⟩ :=
              List.getLast?_isSome.mpr hkept |> Option.isSome_iff_exists.mp
            have hmin := h.least least hleast
            have hb := h.largest least (List.mem_of_getLast? hleast) b hmem
            exact hb.trans (hmin ▸ hlt.le)
  · intro a ha
    have heq : some last = some a := hlast.symm.trans ha
    exact congrArg Prod.fst (Option.some.inj heq)

/-- The body of the loop keeps the largest pairs. -/
theorem Kept.step (h : Kept k seen rest s) (hk : 0 < k) (kvp : κ × ν) :
    ∃ s' rest', TopK.step k s kvp = some s' ∧ Kept k (seen ++ [kvp]) rest' s' := by
  by_cases hin : s.topK.length < k ∨ s.minSoFar < kvp.2
  · exact h.push hk hin
  · obtain ⟨hfull, hle⟩ := not_or.mp hin
    exact ⟨s, _, if_neg hin, h.pass hfull (not_lt.mp hle)⟩

/-- The loop keeps the largest pairs. -/
theorem Kept.foldlM (hk : 0 < k) (l : List (κ × ν)) : ∀ {seen rest} {s : Top κ ν},
    Kept k seen rest s → ∃ s' rest', l.foldlM (TopK.step k) s = some s' ∧
      Kept k (seen ++ l) rest' s' := by
  induction l with
  | nil =>
      intro seen rest s h
      exact ⟨s, rest, rfl, by rwa [List.append_nil]⟩
  | cons kvp l ih =>
      intro seen rest s h
      obtain ⟨s₁, rest₁, hstep, h₁⟩ := h.step hk kvp
      obtain ⟨s₂, rest₂, hfold, h₂⟩ := ih h₁
      refine ⟨s₂, rest₂, ?_, by rwa [List.append_assoc] at h₂⟩
      rw [List.foldlM_cons, hstep]
      exact hfold

/-- `TopK` never looks at the end of an empty vector. It answers `k`
pairs, or all when there are fewer, in descending order, and no value
that it leaves out exceeds one of theirs. -/
theorem topK_largest [Zero ν] (toSort : List (κ × ν)) (hk : 0 < k) :
    ∃ top rest, topK toSort k = some top
      ∧ top.length = min k toSort.length
      ∧ (top.Pairwise fun a b => b.1 < a.1 ∨ (b.1 = a.1 ∧ b.2 ≤ a.2))
      ∧ (top ++ rest).Perm (toSort.map Prod.swap)
      ∧ ∀ a ∈ top, ∀ b ∈ rest, b.1 ≤ a.1 := by
  have hstart : Kept k ([] : List (κ × ν)) [] ⟨[], 0⟩ :=
    ⟨.nil, (Nat.min_zero k).symm, .nil, fun _ ha => absurd ha List.not_mem_nil,
      fun _ ha => by cases ha⟩
  obtain ⟨s, rest, hfold, h⟩ := hstart.foldlM hk toSort
  refine ⟨s.topK, rest, ?_, h.length, ?_, h.perm, h.largest⟩
  · rw [topK, hfold]
    rfl
  · exact h.sorted.imp fun hab => notBefore_iff.mp hab

/-- Two of three pairs, of which two have the same value. -/
theorem topK_largest_two : ∃ top rest : List (Nat × Nat),
    topK [(0, 7), (1, 9), (2, 7)] 2 = some top ∧ top.length = 2
      ∧ (top.Pairwise fun a b => b.1 < a.1 ∨ (b.1 = a.1 ∧ b.2 ≤ a.2))
      ∧ (top ++ rest).Perm [(7, 0), (9, 1), (7, 2)] ∧ ∀ a ∈ top, ∀ b ∈ rest, b.1 ≤ a.1 :=
  topK_largest [(0, 7), (1, 9), (2, 7)] (by decide)

end ThesisBench.Gapbs.TopK
