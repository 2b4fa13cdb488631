/-
Cutting a list into pieces of a fixed length, left to right, the last
piece taking what remains.

`chunk k m l` is the result of a loop that runs `m` times and takes up
to `k` elements each time. `Cuts k m l` says that `m` is the number of
pieces the list needs: `m` pieces hold it and `m - 1` do not.
-/
import Mathlib.Data.List.Basic
import Mathlib.Tactic.Common

namespace ThesisBench.Chunk

variable {α : Type _}

/-- `m` pieces of up to `k` elements. -/
def chunk (k : Nat) : Nat → List α → List (List α)
  | 0, _ => []
  | m + 1, l => l.take k :: chunk k m (l.drop k)

/-- `m` pieces of length `k` are just enough for `n` elements. -/
structure Cuts (k m n : Nat) : Prop where
  le : n ≤ m * k
  lt : ∀ j, m = j + 1 → j * k < n

/-- The number of pieces is the quotient rounded up. -/
theorem cuts_ceil {k : Nat} (hk : 0 < k) (n : Nat) :
    Cuts k ((n + k - 1) / k) n := by
  refine ⟨?_, fun j hj => ?_⟩
  · have := Nat.lt_div_mul_add (a := n + k - 1) hk
    omega
  · have h := Nat.div_mul_le_self (n + k - 1) k
    rw [hj, Nat.succ_mul] at h
    omega

/-- Cutting off the first of several pieces. -/
theorem Cuts.drop {k m : Nat} {l : List α} (h : Cuts k (m + 1) l.length) :
    Cuts k m (l.drop k).length := by
  have hlen := List.length_drop (i := k) (l := l)
  refine ⟨?_, fun j hj => ?_⟩
  · have := h.le
    rw [Nat.succ_mul] at this
    omega
  · have := h.lt m rfl
    rw [hj, Nat.succ_mul] at this
    omega

/-- A list that can be cut into a chunk is not empty. -/
theorem Cuts.ne_nil {k m : Nat} {l : List α} (h : Cuts k (m + 1) l.length) :
    l ≠ [] := by
  rintro rfl
  exact absurd (h.lt m rfl) (Nat.not_lt_zero _)

theorem length_chunk (k m : Nat) (l : List α) : (chunk k m l).length = m := by
  induction m generalizing l with
  | zero => rfl
  | succ m ih => rw [chunk, List.length_cons, ih]

/-- The pieces in a row are the list. -/
theorem flatten_chunk {k m : Nat} {l : List α} (h : Cuts k m l.length) :
    (chunk k m l).flatten = l := by
  induction m generalizing l with
  | zero =>
      have hl := h.le
      rw [Nat.zero_mul] at hl
      exact (List.length_eq_zero_iff.mp (Nat.le_zero.mp hl)).symm
  | succ m ih =>
      rw [chunk, List.flatten_cons, ih h.drop, List.take_append_drop]

/-- No piece is empty. -/
theorem chunk_ne_nil {k m : Nat} {l : List α} (hk : 0 < k)
    (h : Cuts k m l.length) : ∀ c ∈ chunk k m l, c ≠ [] := by
  induction m generalizing l with
  | zero => exact fun c hc => absurd hc (List.not_mem_nil)
  | succ m ih =>
      intro c hc
      rcases List.mem_cons.mp hc with rfl | hc
      · have hne := h.ne_nil
        have hpos := List.length_pos_iff.mpr hne
        intro hnil
        have hlen := congrArg List.length hnil
        rw [List.length_take, List.length_nil] at hlen
        omega
      · exact ih h.drop c hc

/-- With several pieces, the first is full. -/
theorem Cuts.full {k m n : Nat} (h : Cuts k (m + 2) n) : k ≤ n := by
  have := h.lt (m + 1) rfl
  rw [Nat.succ_mul] at this
  omega

/-- Unless one element is left over, every piece has at least two. -/
theorem two_le_chunk {k m : Nat} {l : List α} (hk : 2 ≤ k)
    (h : Cuts k m l.length) (hmod : l.length % k ≠ 1) :
    ∀ c ∈ chunk k m l, 2 ≤ c.length := by
  induction m generalizing l with
  | zero => exact fun c hc => absurd hc (List.not_mem_nil)
  | succ m ih =>
      intro c hc
      rcases List.mem_cons.mp hc with rfl | hc
      · have hpos := List.length_pos_iff.mpr h.ne_nil
        rw [List.length_take]
        by_cases hone : l.length = 1
        · rw [hone, Nat.mod_eq_of_lt (by omega)] at hmod
          exact absurd rfl hmod
        · omega
      · cases m with
        | zero => exact absurd hc (List.not_mem_nil)
        | succ m =>
            have hfull := h.full
            refine ih h.drop ?_ c hc
            rw [List.length_drop, ← Nat.mod_eq_sub_mod hfull]
            exact hmod

/-- The last piece ends the list, and is a single element when one is
left over. -/
theorem chunk_last {k m : Nat} {l : List α}
    (h : Cuts k (m + 1) l.length) :
    ∃ cs c l', chunk k (m + 1) l = cs ++ [c] ∧ l = l' ++ c
      ∧ (l.length % k = 1 → c.length = 1) := by
  induction m generalizing l with
  | zero =>
      have hle := h.le
      rw [Nat.zero_add, Nat.one_mul] at hle
      refine ⟨[], l, [], ?_, rfl, fun hmod => ?_⟩
      · rw [chunk, List.take_of_length_le hle]
        rfl
      · rcases Nat.lt_or_eq_of_le hle with hlt | heq
        · rw [Nat.mod_eq_of_lt hlt] at hmod
          exact hmod
        · rw [heq, Nat.mod_self] at hmod
          cases hmod
  | succ m ih =>
      have hfull := h.full
      obtain ⟨cs, c, l', hcs, hl', hmod⟩ := ih h.drop
      refine ⟨l.take k :: cs, c, l.take k ++ l', ?_, ?_, fun hm => hmod ?_⟩
      · rw [chunk, hcs]
        rfl
      · rw [List.append_assoc, ← hl', List.take_append_drop]
      · rw [List.length_drop, ← Nat.mod_eq_sub_mod hfull]
        exact hm

end ThesisBench.Chunk
