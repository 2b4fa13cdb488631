/-
The largest values of a list: `TopK` of `sources/gapbs/src/benchmark.h`,
which picks what is printed of scores and components.

A pair goes in while there is room, and later when its value exceeds the
least one kept. The pairs that are kept are sorted after each that goes
in, the greatest first, and what is too many is cut off. `back()` of an
empty vector is `none`.
-/
import Mathlib

namespace ThesisBench.Gapbs.TopK

variable {κ ν : Type} [LinearOrder κ] [LinearOrder ν]

/-- `!std::greater<std::pair<ValT, KeyT>>()(b, a)` -/
def notBefore (a b : ν × κ) : Bool := decide (b.1 < a.1 ∨ (b.1 = a.1 ∧ b.2 ≤ a.2))

/-- `top_k` and `min_so_far` -/
structure Top (κ ν : Type) where
  topK : List (ν × κ)
  minSoFar : ν

/-- `if (top_k.size() > k) top_k.resize(k)` -/
def resize (k : Nat) (topK : List (ν × κ)) : List (ν × κ) :=
  if k < topK.length then topK.take k else topK

/-- The body of the loop. -/
def step (k : Nat) (s : Top κ ν) (kvp : κ × ν) : Option (Top κ ν) :=
  if s.topK.length < k ∨ s.minSoFar < kvp.2 then do
    let topK := resize k ((s.topK ++ [(kvp.2, kvp.1)]).mergeSort notBefore)
    let last ← topK.getLast?
    pure ⟨topK, last.1⟩
  else some s

/-- `TopK` -/
def topK [Zero ν] (toSort : List (κ × ν)) (k : Nat) : Option (List (ν × κ)) :=
  (toSort.foldlM (step k) ⟨[], 0⟩).map Top.topK

end ThesisBench.Gapbs.TopK
