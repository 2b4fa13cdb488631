/-
Binary search, as the standard library has it.

`lowerBound` halves the range until it is empty. It needs no sorted
range: where the elements below `x` come first, it stops at the first
one that is not below (`lowerBound_eq`). So a range whose front part is
below `x` in any order, and whose rest is sorted, can be searched for
`x` (`binarySearch_iff`).
-/
import Mathlib.Data.List.Basic
import Mathlib.Order.Nat
import Mathlib.Tactic.Common

namespace ThesisBench.Search

/-- `std::lower_bound`: the range left has `len` elements from `first` on. -/
def lowerBoundFrom (l : List Nat) (x : Nat) : Nat → Nat → Nat → Nat
  | 0, first, _ => first
  | fuel + 1, first, len =>
      if len = 0 then first
      else if l.getD (first + len / 2) 0 < x
        then lowerBoundFrom l x fuel (first + len / 2 + 1) (len - len / 2 - 1)
        else lowerBoundFrom l x fuel first (len / 2)

def lowerBound (l : List Nat) (x : Nat) : Nat := lowerBoundFrom l x l.length 0 l.length

/-- `std::binary_search` -/
def binarySearch (l : List Nat) (x : Nat) : Bool :=
  match l[lowerBound l x]? with
  | none => false
  | some y => decide (¬ x < y)

variable {l : List Nat} {x k : Nat}

/-- The search keeps the place inside its range. -/
theorem lowerBoundFrom_eq (hbelow : ∀ i < k, l.getD i 0 < x)
    (habove : ∀ i, k ≤ i → i < l.length → x ≤ l.getD i 0) :
    ∀ fuel first len, len ≤ fuel → first ≤ k → k ≤ first + len → first + len ≤ l.length →
      lowerBoundFrom l x fuel first len = k := by
  intro fuel
  induction fuel with
  | zero =>
      intro first len hlen hfirst hlast _
      rw [lowerBoundFrom]
      omega
  | succ fuel ih =>
      intro first len hlen hfirst hlast hin
      rw [lowerBoundFrom]
      split
      case isTrue => omega
      case isFalse hpos =>
        split
        case isTrue hlt =>
          refine ih _ _ (by omega) ?_ (by omega) (by omega)
          by_contra hk
          have := habove (first + len / 2) (by omega) (by omega)
          omega
        case isFalse hge =>
          refine ih _ _ (by omega) hfirst ?_ (by omega)
          by_contra hk
          exact hge (hbelow _ (by omega))

/-- The search returns the place where the list passes `x`. -/
theorem lowerBound_eq (hbelow : ∀ i < k, l.getD i 0 < x)
    (habove : ∀ i, k ≤ i → i < l.length → x ≤ l.getD i 0) (hk : k ≤ l.length) :
    lowerBound l x = k :=
  lowerBoundFrom_eq hbelow habove _ _ _ (Nat.le_refl _) (Nat.zero_le k) (by omega) (by omega)

/-- The place where a sorted list passes `x`. -/
theorem exists_passing (hl : l.Pairwise (· ≤ ·)) : ∃ k ≤ l.length,
    (∀ i < k, l.getD i 0 < x) ∧ ∀ i, k ≤ i → i < l.length → x ≤ l.getD i 0 := by
  induction l with
  | nil => exact ⟨0, Nat.le_refl 0, by omega, fun i _ hi => by cases hi⟩
  | cons y l ih =>
      obtain ⟨hy, hl⟩ := List.pairwise_cons.mp hl
      by_cases hlt : y < x
      · obtain ⟨k, hk, hbelow, habove⟩ := ih hl
        refine ⟨k + 1, Nat.succ_le_succ hk, fun i hi => ?_, fun i hki hi => ?_⟩
        · cases i with
          | zero => exact hlt
          | succ i => exact hbelow i (by omega)
        · cases i with
          | zero => omega
          | succ i => exact habove i (by omega) (Nat.lt_of_succ_lt_succ hi)
      · refine ⟨0, Nat.zero_le _, by omega, fun i _ hi => ?_⟩
        cases i with
        | zero => exact Nat.le_of_not_lt hlt
        | succ i =>
            have hi : i < l.length := Nat.lt_of_succ_lt_succ hi
            have hle := hy l[i] (List.getElem_mem hi)
            rw [List.getD_cons_succ, List.getD_eq_getElem?_getD, List.getElem?_eq_getElem hi,
              Option.getD_some]
            omega

/-- The search finds `x` even if the part before it is not sorted. -/
theorem binarySearch_iff {a b : List Nat} (ha : ∀ y ∈ a, y < x) (hb : b.Pairwise (· ≤ ·)) :
    binarySearch (a ++ b) x = true ↔ x ∈ a ++ b := by
  obtain ⟨k, hk, hbelow, habove⟩ := exists_passing (x := x) hb
  have hright : ∀ i, (a ++ b).getD (a.length + i) 0 = b.getD i 0 := by
    intro i
    rw [List.getD_eq_getElem?_getD, List.getElem?_append_right (by omega),
      Nat.add_sub_cancel_left, List.getD_eq_getElem?_getD]
  have hfound : lowerBound (a ++ b) x = a.length + k := by
    refine lowerBound_eq (fun i hi => ?_) (fun i hi hlen => ?_) ?_
    · by_cases hia : i < a.length
      · rw [List.getD_eq_getElem?_getD, List.getElem?_append_left hia,
          List.getElem?_eq_getElem hia, Option.getD_some]
        exact ha _ (List.getElem_mem hia)
      · obtain ⟨j, rfl⟩ := Nat.exists_eq_add_of_le (Nat.le_of_not_lt hia)
        rw [hright]
        exact hbelow j (by omega)
    · obtain ⟨j, rfl⟩ := Nat.exists_eq_add_of_le (show a.length ≤ i by omega)
      rw [List.length_append] at hlen
      rw [hright]
      exact habove j (by omega) (by omega)
    · rw [List.length_append]
      omega
  have hget : (a ++ b)[a.length + k]? = b[k]? := by
    rw [List.getElem?_append_right (by omega), Nat.add_sub_cancel_left]
  unfold binarySearch
  rw [hfound, hget]
  have hmem : x ∈ a ++ b ↔ x ∈ b := by
    rw [List.mem_append, or_iff_right]
    exact fun hx => absurd (ha x hx) (Nat.lt_irrefl x)
  rw [hmem]
  by_cases hkb : k < b.length
  · have hdk : b.getD k 0 = b[k] := by
      rw [List.getD_eq_getElem?_getD, List.getElem?_eq_getElem hkb, Option.getD_some]
    have hge := habove k (Nat.le_refl k) hkb
    rw [hdk] at hge
    rw [List.getElem?_eq_getElem hkb, decide_eq_true_eq]
    constructor
    · intro hle
      have heq : x = b[k] := by omega
      exact heq ▸ List.getElem_mem hkb
    · -- it is not before `k`, and what follows is no smaller
      intro hx
      obtain ⟨i, hi, hxi⟩ := List.getElem_of_mem hx
      have hki : k ≤ i := by
        by_contra hlt
        have := hbelow i (by omega)
        rw [List.getD_eq_getElem?_getD, List.getElem?_eq_getElem hi, Option.getD_some] at this
        omega
      by_cases heq : k = i
      · subst heq
        omega
      · have := List.pairwise_iff_getElem.mp hb k i hkb hi (by omega)
        omega
  · rw [List.getElem?_eq_none (by omega)]
    refine ⟨fun h => absurd h Bool.false_ne_true, fun hx => ?_⟩
    obtain ⟨i, hi, hxi⟩ := List.getElem_of_mem hx
    have := hbelow i (by omega)
    rw [List.getD_eq_getElem?_getD, List.getElem?_eq_getElem hi, Option.getD_some] at this
    omega

end ThesisBench.Search
