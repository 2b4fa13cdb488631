/-
The places of the elements.

As long as the number of places fits an `unsigned`, the loops give the
element `x * _max_y + y` the place in column `x` and row `y`: the elements
with a place are those before `i_elem`, in the order of the loops.
-/
import ThesisBench.Canneal.Netlist
import ThesisBench.Lib.Slots

namespace ThesisBench.Canneal

/-- The places in the order of the loops. -/
def Grid.places (g : Grid) : List (Nat × Nat) :=
  (List.range g.maxX).flatMap fun x => (List.range g.maxY).map fun y => (x, y)

/-- A grid has as many places as rows times columns. -/
theorem Grid.length_places (g : Grid) : g.places.length = g.maxX * g.maxY := by
  have h : ∀ n, ((List.range n).flatMap fun x => (List.range g.maxY).map fun y => (x, y)).length
      = n * g.maxY := by
    intro n
    induction n with
    | zero => rw [List.range_zero, List.flatMap_nil, List.length_nil, Nat.zero_mul]
    | succ n ih =>
        rw [List.range_succ, List.flatMap_append, List.length_append, ih, List.flatMap_singleton,
          List.length_map, List.length_range, Nat.succ_mul]
  exact h g.maxX

/-- The assignments one after the other, into the elements that have no
place yet. -/
theorem foldlM_assignLocation (places : List (Nat × Nat)) :
    ∀ (done : List (Nat × Nat)) (free : Nat), places.length ≤ free →
      done.length + places.length < 2 ^ 32 →
      places.foldlM (fun s p => assignLocation p.1 s p.2)
          (done.map some ++ List.replicate free none, done.length)
        = some ((done ++ places).map some ++ List.replicate (free - places.length) none,
            done.length + places.length) := by
  induction places with
  | nil =>
      intro done free _ _
      rw [List.foldlM_nil, List.append_nil]
      rfl
  | cons p places ih =>
      intro done free hfree hlt
      rw [List.length_cons] at hfree hlt
      obtain ⟨free, rfl⟩ : ∃ k, free = k + 1 := ⟨free - 1, by omega⟩
      have hstep : assignLocation p.1
          (done.map some ++ List.replicate (free + 1) none, done.length) p.2
            = some ((done ++ [p]).map some ++ List.replicate free none, (done ++ [p]).length) := by
        have hin : done.length
            < (done.map some ++ List.replicate (free + 1) (none : Option (Nat × Nat))).length := by
          rw [List.length_append, List.length_map, List.length_replicate]
          omega
        rw [assignLocation, if_pos hin, List.length_append, List.length_singleton,
          Nat.mod_eq_of_lt (by omega),
          List.set_append_right _ _ (Nat.le_of_eq (List.length_map some)),
          List.length_map, Nat.sub_self, List.replicate_succ, List.set_cons_zero, List.map_append,
          List.append_assoc]
        rfl
      rw [List.foldlM_cons, hstep]
      show places.foldlM _ _ = _
      rw [ih (done ++ [p]) free (by omega)
          (by rw [List.length_append, List.length_singleton]; omega),
        List.append_assoc, List.singleton_append, List.length_append, List.length_singleton,
        List.length_cons, Nat.add_sub_add_right, Nat.add_assoc, Nat.add_comm 1]

/-- With fewer than `2 ^ 32` places, in less than `2 ^ 31` columns and
rows, every element gets one. -/
theorem Grid.assignLocations_eq {g : Grid} (hx : g.maxX < 2 ^ 31) (hy : g.maxY < 2 ^ 31)
    (hchip : g.maxX * g.maxY < 2 ^ 32) :
    g.assignLocations = some (g.places.map some) := by
  have hsize : g.chipSize = g.places.length := by
    rw [Grid.length_places]
    exact Nat.mod_eq_of_lt hchip
  have hcolumn : ∀ x ∈ List.range g.maxX, ∀ s : List (Option (Nat × Nat)) × Nat,
      g.assignColumn s x = ((List.range g.maxY).map fun y => (x, y)).foldlM
        (fun s p => assignLocation p.1 s p.2) s := by
    intro x _ s
    rw [Grid.assignColumn, intLoop, if_pos hy, List.foldlM_map]
    rfl
  have hall := foldlM_assignLocation g.places [] g.places.length (Nat.le_refl _)
    (by rw [List.length_nil, Nat.zero_add, Grid.length_places]; exact hchip)
  rw [List.map_nil, List.nil_append, List.length_nil, List.nil_append, Nat.sub_self,
    List.replicate_zero, List.append_nil] at hall
  have hloop : (List.range g.maxX).foldlM g.assignColumn (List.replicate g.chipSize none, 0)
      = some (g.places.map some, 0 + g.places.length) := by
    rw [Slots.foldlM_flatMap hcolumn, hsize]
    exact hall
  rw [Grid.assignLocations, intLoop, if_pos hx, Option.bind_eq_bind, Option.bind_some, hloop]
  rfl

/-- Without elements, the first assignment is outside. -/
theorem Grid.assignLocations_none {g : Grid} (hx : 0 < g.maxX) (hy : 0 < g.maxY)
    (hchip : g.chipSize = 0) : g.assignLocations = none := by
  have hfirst : ∀ x, g.assignColumn ([], 0) x = none := by
    intro x
    obtain ⟨n, hn⟩ := Nat.exists_eq_succ_of_ne_zero (Nat.ne_of_gt hy)
    unfold Grid.assignColumn intLoop
    split
    · rw [hn, List.range_succ_eq_map]
      rfl
    · rfl
  obtain ⟨n, hn⟩ := Nat.exists_eq_succ_of_ne_zero (Nat.ne_of_gt hx)
  rw [Grid.assignLocations, hchip, List.replicate_zero, intLoop]
  split
  · rw [hn, List.range_succ_eq_map, Option.bind_eq_bind, Option.bind_some, List.foldlM_cons,
      hfirst]
    rfl
  · rfl

end ThesisBench.Canneal
