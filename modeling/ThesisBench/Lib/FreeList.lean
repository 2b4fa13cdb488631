/-
An object pool with an intrusive free list.

Objects are numbered in the order they were carved; each object that is
not in use is linked to the next free one through a field of its own.
`Pool link head carved used` says that the free list starting at `head`
and the objects in `used` together are exactly the objects carved so
far, each once. The four moves of an allocator (carve, pop, push, and
writing to an object in use) each keep it, whatever else the objects
hold.
-/
import Mathlib.Data.List.Perm.Basic
import Mathlib.Data.List.Nodup
import Mathlib.Data.List.Range
import Mathlib.Tactic.Common

namespace ThesisBench.FreeList

/-- The objects on a free list, first to last. -/
inductive Linked (link : Nat → Option Nat) : Option Nat → List Nat → Prop
  | nil : Linked link none []
  | cons {n : Nat} {L : List Nat} :
      Linked link (link n) L → Linked link (some n) (n :: L)

/-- A free list reads only the links of its own members. -/
theorem Linked.congr {link link' : Nat → Option Nat} {head : Option Nat}
    {L : List Nat} (h : Linked link head L)
    (hsame : ∀ i ∈ L, link' i = link i) : Linked link' head L := by
  induction h with
  | nil => exact .nil
  | @cons n L _ ih =>
      refine .cons ?_
      rw [hsame n (List.mem_cons_self ..)]
      exact ih fun i hi => hsame i (List.mem_cons_of_mem _ hi)

/-- The objects in use and the free ones are all the objects, each
once. -/
def Pool (link : Nat → Option Nat) (head : Option Nat) (carved : Nat)
    (used : List Nat) : Prop :=
  ∃ L, Linked link head L ∧ (used ++ L).Perm (List.range carved)

variable {link link' : Nat → Option Nat} {head : Option Nat} {carved : Nat}
  {used : List Nat}

/-- Before anything is carved the pool is empty. -/
theorem Pool.nil (link : Nat → Option Nat) : Pool link none 0 [] :=
  ⟨[], .nil, by simp⟩

/-- In which order the objects in use are listed does not matter. -/
theorem Pool.perm (h : Pool link head carved used) {used' : List Nat}
    (hp : used'.Perm used) : Pool link head carved used' := by
  obtain ⟨L, hL, hperm⟩ := h
  exact ⟨L, hL, (hp.append_right L).trans hperm⟩

theorem Pool.nodup (h : Pool link head carved used) : used.Nodup := by
  obtain ⟨L, -, hperm⟩ := h
  exact (List.nodup_append.mp (hperm.nodup_iff.mpr List.nodup_range)).1

theorem Pool.lt (h : Pool link head carved used) {i : Nat} (hi : i ∈ used) :
    i < carved := by
  obtain ⟨L, -, hperm⟩ := h
  exact List.mem_range.mp (hperm.mem_iff.mp (List.mem_append_left _ hi))

/-- No more objects are in use than have been carved. -/
theorem Pool.length_le (h : Pool link head carved used) :
    used.length ≤ carved := by
  obtain ⟨L, -, hperm⟩ := h
  have hlen := hperm.length_eq
  rw [List.length_append, List.length_range] at hlen
  omega

/-- Writing to objects in use leaves the pool alone. -/
theorem Pool.congr (h : Pool link head carved used)
    (hsame : ∀ i, i < carved → i ∉ used → link' i = link i) :
    Pool link' head carved used := by
  obtain ⟨L, hL, hperm⟩ := h
  refine ⟨L, hL.congr fun i hi => ?_, hperm⟩
  have hnd := hperm.nodup_iff.mpr List.nodup_range
  refine hsame i (List.mem_range.mp
    (hperm.mem_iff.mp (List.mem_append_right _ hi))) fun hu => ?_
  exact (List.nodup_append.mp hnd).2.2 i hu i hi rfl

/-- Taking the first free object. -/
theorem Pool.pop {n : Nat} (h : Pool link (some n) carved used) :
    Pool link (link n) carved (n :: used) := by
  obtain ⟨L, hL, hperm⟩ := h
  cases hL with
  | @cons _ L hL =>
      exact ⟨L, hL, (List.perm_middle.symm.trans hperm)⟩

/-- Returning an object. -/
theorem Pool.push {n : Nat} (h : Pool link head carved (n :: used))
    (hn : link' n = head) (hsame : ∀ i, i ≠ n → link' i = link i) :
    Pool link' (some n) carved used := by
  obtain ⟨L, hL, hperm⟩ := h
  refine ⟨n :: L, .cons ?_, List.perm_middle.trans hperm⟩
  rw [hn]
  have hnd := hperm.nodup_iff.mpr List.nodup_range
  refine hL.congr fun i hi => hsame i fun he => ?_
  subst he
  rw [List.cons_append, List.nodup_cons] at hnd
  exact hnd.1 (List.mem_append_right _ hi)

/-- Carving one object. -/
theorem Pool.carve (h : Pool link head carved used)
    (hn : link' carved = head) (hsame : ∀ i, i ≠ carved → link' i = link i) :
    Pool link' (some carved) (carved + 1) used := by
  obtain ⟨L, hL, hperm⟩ := h
  refine ⟨carved :: L, .cons ?_, ?_⟩
  · rw [hn]
    refine hL.congr fun i hi => hsame i fun he => ?_
    have := List.mem_range.mp
      (hperm.mem_iff.mp (List.mem_append_right _ hi))
    omega
  · rw [List.range_succ]
    refine List.perm_middle.trans ?_
    refine (hperm.cons carved).trans ?_
    exact (List.perm_append_singleton _ _).symm

end ThesisBench.FreeList
