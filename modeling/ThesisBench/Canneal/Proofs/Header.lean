/-
When the constructor has the generator's numbers.

The generator computes with 64 bits and the constructor with 32. The
number of places is the first to be cut: two sides of at least two make
it larger than either of them and than the number of elements. Without
the assertion nothing stops the constructor then, and the loops may find
no element for a place.
-/
import ThesisBench.Canneal.Proofs.Generator

namespace ThesisBench.Canneal.Generator

/-- The constructor has the numbers of the header, and its loops assign
the locations inside `_elements`. -/
structure Args.HeaderFits (a : Args) (body : List Byte) : Prop where
  numElements : (parseHeader (a.header ++ body)).1.numElements = a.numElements
  maxX : (parseHeader (a.header ++ body)).1.maxX = a.x
  maxY : (parseHeader (a.header ++ body)).1.maxY = a.y
  chipSize : (parseHeader (a.header ++ body)).1.chipSize = a.x * a.y
  inside : (parseHeader (a.header ++ body)).1.assignLocations.isSome = true

/-- Valid arguments: a grid of two rows and columns or more, with more
places than elements. -/
theorem Args.valid.lt_mul {a : Args} (h : a.valid) :
    1 < a.x ∧ 1 < a.y ∧ a.numElements < a.x * a.y := by
  unfold Args.valid at h
  omega

/-- The header fits exactly when the 32-bit product does not wrap around. -/
theorem headerFits_iff (a : Args) (body : List Byte) (hvalid : a.valid) :
    a.HeaderFits body ↔ a.x * a.y < 2 ^ 32 := by
  constructor
  · intro h
    rw [← h.chipSize]
    exact Nat.mod_lt _ (Nat.two_pow_pos 32)
  · intro hxy
    obtain ⟨hx, hy, hlt⟩ := hvalid.lt_mul
    have hxlt := side_lt hy hxy
    have hylt := side_lt hx (Nat.mul_comm a.x a.y ▸ hxy)
    obtain ⟨p, hhead, -⟩ := parseHeader_header a body
    rw [Nat.mod_eq_of_lt (show a.numElements < 2 ^ 32 by omega),
      Nat.mod_eq_of_lt (show a.x < 2 ^ 32 by omega),
      Nat.mod_eq_of_lt (show a.y < 2 ^ 32 by omega)] at hhead
    have hgrid : (parseHeader (a.header ++ body)).1 = ⟨a.numElements, a.x, a.y⟩ := by rw [hhead]
    refine ⟨by rw [hgrid], by rw [hgrid], by rw [hgrid], ?_, ?_⟩
    · rw [hgrid]
      exact Nat.mod_eq_of_lt hxy
    · rw [hgrid, Grid.assignLocations_eq hxlt hylt hxy]
      rfl

/-- The size in use: 29000 by 29000. -/
theorem headerFits_iff_dataset :
    (Args.mk 29000 29000 840999999).HeaderFits [] ↔ 29000 * 29000 < 2 ^ 32 :=
  headerFits_iff ⟨29000, 29000, 840999999⟩ [] (by decide)

/-- With 65536 by 65536 places there is no element to place. -/
theorem not_headerFits : (Args.mk 65536 65536 1).valid
    ∧ ¬ (Args.mk 65536 65536 1).HeaderFits []
    ∧ (parseHeader ((Args.mk 65536 65536 1).header ++ [])).1.assignLocations = none := by
  obtain ⟨p, hhead, -⟩ := parseHeader_header ⟨65536, 65536, 1⟩ []
  have hgrid : (parseHeader ((Args.mk 65536 65536 1).header ++ [])).1 = ⟨1, 65536, 65536⟩ := by
    rw [hhead]
    rfl
  have hnone : (parseHeader ((Args.mk 65536 65536 1).header ++ [])).1.assignLocations = none := by
    rw [hgrid]
    exact Grid.assignLocations_none (by decide) (by decide) (by decide)
  refine ⟨by decide, fun h => ?_, hnone⟩
  have hinside := h.inside
  rw [hnone] at hinside
  cases hinside

end ThesisBench.Canneal.Generator
