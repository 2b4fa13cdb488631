/-
Search-tree contents as one flat list of tokens.

A multiway search tree that keeps its entries in the leaves and
separator keys in the internal nodes reads, left to right, as a list of
tokens: an entry token for each stored pair and a separator token for
each internal key. Node boundaries are invisible in that list, so the
structural moves of the tree (splits, merges, rotations) are small
edits of it or no edit at all, and the whole search-tree order is one
`Pairwise` relation on it.

# The order

Going right, an entry is below the next entry and below the next
separator; a separator is at or below the next entry and strictly below
the next separator (`Tok.Before`). A subtree's range is whatever the
surrounding tokens leave it: no bounds are carried.

# The two edits

`Refines x y` says that `y` may replace `x` inside any ordered list and
holds the same entries; `Inserts key p x y` says the same of an edit
that also adds one entry, in every context the key fits into. Both are
closed under adding context, which is how an edit deep in a tree
becomes an edit of the whole list.
-/
import Mathlib.Order.Basic
import Mathlib.Data.List.Basic
import Mathlib.Tactic.Common
import Mathlib.Order.Lattice

namespace ThesisBench.SepList

variable {K P : Type _}

/-- One token of the flat reading. -/
inductive Tok (K P : Type _)
  | sep (k : K)
  | ent (k : K) (p : P)

/-- The entries of a token list, in order. -/
def ents : List (Tok K P) → List (K × P)
  | [] => []
  | .sep _ :: ts => ents ts
  | .ent k p :: ts => (k, p) :: ents ts

@[simp] theorem ents_nil : ents ([] : List (Tok K P)) = [] := rfl

@[simp] theorem ents_sep (k : K) (ts : List (Tok K P)) :
    ents (.sep k :: ts) = ents ts := rfl

@[simp] theorem ents_ent (k : K) (p : P) (ts : List (Tok K P)) :
    ents (.ent k p :: ts) = (k, p) :: ents ts := rfl

@[simp] theorem ents_append (xs ys : List (Tok K P)) :
    ents (xs ++ ys) = ents xs ++ ents ys := by
  induction xs with
  | nil => rfl
  | cons t xs ih => cases t <;> simp [ih]

/-- A leaf's entries as tokens. -/
def toks (es : List (K × P)) : List (Tok K P) :=
  es.map fun e => .ent e.1 e.2

@[simp] theorem toks_nil : toks ([] : List (K × P)) = [] := rfl

@[simp] theorem toks_cons (e : K × P) (es : List (K × P)) :
    toks (e :: es) = .ent e.1 e.2 :: toks es := rfl

@[simp] theorem toks_append (xs ys : List (K × P)) :
    toks (xs ++ ys) = toks xs ++ toks ys := List.map_append

@[simp] theorem ents_toks (es : List (K × P)) : ents (toks es) = es := by
  induction es with
  | nil => rfl
  | cons e es ih => simp [ih]

/-- The pairs are those of the entry tokens. -/
theorem mem_ents {k : K} {p : P} {ts : List (Tok K P)} :
    (k, p) ∈ ents ts ↔ Tok.ent k p ∈ ts := by
  induction ts with
  | nil => simp
  | cons t ts ih => cases t <;> simp [ih]

-- ============================================================ weaving

/-- Children readings with a separator between each two. -/
def weave : List K → List (List (Tok K P)) → List (Tok K P)
  | _, [] => []
  | [], x :: _ => x
  | k :: ks, x :: xs => x ++ .sep k :: weave ks xs

/-- The part of a weave left of a child: each earlier child followed by
its separator. -/
def weaveL : List K → List (List (Tok K P)) → List (Tok K P)
  | k :: ks, x :: xs => x ++ .sep k :: weaveL ks xs
  | _, _ => []

/-- The part of a weave right of a child: each later child preceded by
its separator. -/
def weaveR : List K → List (List (Tok K P)) → List (Tok K P)
  | k :: ks, x :: xs => .sep k :: x ++ weaveR ks xs
  | _, _ => []

@[simp] theorem weaveL_nil (xs : List (List (Tok K P))) :
    weaveL [] xs = [] := rfl

@[simp] theorem weaveR_nil (xs : List (List (Tok K P))) :
    weaveR [] xs = [] := rfl

@[simp] theorem weave_singleton (x : List (Tok K P)) : weave [] [x] = x := rfl

@[simp] theorem weaveL_cons (k : K) (ks : List K) (x : List (Tok K P))
    (xs : List (List (Tok K P))) :
    weaveL (k :: ks) (x :: xs) = x ++ .sep k :: weaveL ks xs := rfl

@[simp] theorem weaveR_cons (k : K) (ks : List K) (x : List (Tok K P))
    (xs : List (List (Tok K P))) :
    weaveR (k :: ks) (x :: xs) = .sep k :: (x ++ weaveR ks xs) := rfl

/-- The first list of a weave comes before all separators. -/
theorem weave_cons_eq (ks : List K) (x : List (Tok K P))
    (xs : List (List (Tok K P))) (h : ks.length = xs.length) :
    weave ks (x :: xs) = x ++ weaveR ks xs := by
  induction ks generalizing x xs with
  | nil =>
      rw [List.length_eq_zero_iff.mp h.symm]
      simp
  | cons k ks ih =>
      match xs, h with
      | y :: ys, h =>
          rw [weave, ih y ys (by simpa using h), weaveR_cons]

/-- A weave seen from one of its children. -/
theorem weave_focus (k₁ k₂ : List K) (c₁ : List (List (Tok K P)))
    (x : List (Tok K P)) (c₂ : List (List (Tok K P)))
    (h₁ : k₁.length = c₁.length) (h₂ : k₂.length = c₂.length) :
    weave (k₁ ++ k₂) (c₁ ++ x :: c₂)
      = weaveL k₁ c₁ ++ (x ++ weaveR k₂ c₂) := by
  induction k₁ generalizing c₁ with
  | nil =>
      rw [List.length_eq_zero_iff.mp h₁.symm]
      exact weave_cons_eq k₂ x c₂ h₂
  | cons k k₁ ih =>
      match c₁, h₁ with
      | y :: c₁, h₁ =>
          simp only [List.cons_append, weave, weaveL_cons, List.append_assoc]
          rw [ih c₁ (by simpa using h₁)]

/-- A weave cut at one of its separators. -/
theorem weave_split (k₁ : List K) (k : K) (k₂ : List K)
    (c₁ c₂ : List (List (Tok K P))) (h : c₁.length = k₁.length + 1) :
    weave (k₁ ++ k :: k₂) (c₁ ++ c₂)
      = weave k₁ c₁ ++ .sep k :: weave k₂ c₂ := by
  induction k₁ generalizing c₁ with
  | nil =>
      match c₁, h with
      | [x], _ => rfl
  | cons k' k₁ ih =>
      match c₁, h with
      | x :: c₁, h =>
          simp only [List.cons_append, weave, List.append_assoc]
          rw [ih c₁ (by simpa using h)]

/-- The separators of a weave stand in it in order. -/
theorem seps_sublist_weave (ks : List K) (cs : List (List (Tok K P)))
    (h : cs.length = ks.length + 1) :
    (ks.map Tok.sep).Sublist (weave ks cs) := by
  induction ks generalizing cs with
  | nil => exact List.nil_sublist _
  | cons k ks ih =>
      match cs, h with
      | x :: xs, h =>
          rw [weave, List.map_cons]
          refine List.Sublist.trans ?_ (List.sublist_append_right x _)
          exact (ih xs (by simpa using h)).cons_cons _

/-- The entries of a weave are those of its children. -/
theorem ents_weave (ks : List K) (cs : List (List (Tok K P)))
    (h : cs.length = ks.length + 1) :
    ents (weave ks cs) = cs.flatMap ents := by
  induction ks generalizing cs with
  | nil =>
      match cs, h with
      | [x], _ => simp
  | cons k ks ih =>
      match cs, h with
      | x :: xs, h =>
          rw [weave, ents_append, ents_sep, ih xs (by simpa using h),
            List.flatMap_cons]

/-- Two weaves, one behind the other. -/
theorem weaveL_append (k₁ k₂ : List K) (c₁ c₂ : List (List (Tok K P)))
    (h : k₁.length = c₁.length) :
    weaveL (k₁ ++ k₂) (c₁ ++ c₂) = weaveL k₁ c₁ ++ weaveL k₂ c₂ := by
  induction k₁ generalizing c₁ with
  | nil =>
      rw [List.length_eq_zero_iff.mp h.symm]
      rfl
  | cons k k₁ ih =>
      match c₁, h with
      | x :: c₁, h =>
          simp only [List.cons_append, weaveL_cons, List.append_assoc]
          rw [ih c₁ (by simpa using h)]

-- ============================================================== packing

/-- A chunk of entries behind the separator that its first key makes. -/
def seam (c : List (K × P)) : List (Tok K P) :=
  (c.head?.map fun e => Tok.sep e.1).toList ++ toks c

/-- Chunks of entries in a row, each but the first behind its own
separator. -/
def glue : List (List (K × P)) → List (Tok K P)
  | [] => []
  | c :: cs => toks c ++ cs.flatMap seam

/-- Two rows of chunks meet at the separator of the second. -/
theorem glue_append (a b : List (List (K × P))) (ha : a ≠ []) :
    glue (a ++ b) = glue a ++ b.flatMap seam := by
  match a, ha with
  | c :: a, _ =>
      show toks c ++ (a ++ b).flatMap seam = toks c ++ a.flatMap seam ++ _
      rw [List.flatMap_append, List.append_assoc]

/-- A row of chunks behind its first separator. -/
theorem flatMap_seam (e : K × P) (c : List (K × P))
    (cs : List (List (K × P))) :
    ((e :: c) :: cs).flatMap seam = .sep e.1 :: glue ((e :: c) :: cs) := by
  rw [List.flatMap_cons]
  rfl

-- =========================================================== the order

variable [LinearOrder K]

/-- The order of two tokens, the first standing left of the second. -/
def Tok.Before : Tok K P → Tok K P → Prop
  | .ent a _, .ent b _ => a < b
  | .ent a _, .sep b => a < b
  | .sep a, .ent b _ => a ≤ b
  | .sep a, .sep b => a < b

/-- The key of a token. -/
def Tok.key : Tok K P → K
  | .sep k => k
  | .ent k _ => k

/-- What follows a separator is at or above it. -/
theorem Tok.le_of_sep_before {k : K} {t : Tok K P}
    (h : Tok.Before (.sep k) t) : k ≤ t.key := by
  cases t with
  | sep a => exact le_of_lt h
  | ent a p => exact h

/-- What comes before a separator is below it. -/
theorem Tok.lt_of_before_sep {k : K} {t : Tok K P}
    (h : Tok.Before t (.sep k)) : t.key < k := by
  cases t with
  | sep a => exact h
  | ent a p => exact h

/-- The search-tree order of a flat reading. -/
def Sorted (ts : List (Tok K P)) : Prop := ts.Pairwise Tok.Before

/-- Where a key goes: after every token of `A`, before every token of
`B`. -/
structure Fits (key : K) (A B : List (Tok K P)) : Prop where
  left : ∀ a ∈ A, match a with
    | .ent k _ => k < key
    | .sep k => k ≤ key
  right : ∀ b ∈ B, match b with
    | .ent k _ => key < k
    | .sep k => key < k

/-- Two ordered lists make one if all of the first comes before all of the
second. -/
theorem sorted_append {xs ys : List (Tok K P)} :
    Sorted (xs ++ ys) ↔ Sorted xs ∧ Sorted ys
      ∧ ∀ x ∈ xs, ∀ y ∈ ys, Tok.Before x y :=
  List.pairwise_append

theorem sorted_cons {x : Tok K P} {ys : List (Tok K P)} :
    Sorted (x :: ys) ↔ (∀ y ∈ ys, Tok.Before x y) ∧ Sorted ys :=
  List.pairwise_cons

/-- The separators of an ordered weave increase strictly. -/
theorem seps_pairwise {ks : List K} {cs : List (List (Tok K P))}
    (h : cs.length = ks.length + 1) (hs : Sorted (weave ks cs)) :
    ks.Pairwise (· < ·) := by
  have hp := List.Pairwise.sublist (seps_sublist_weave ks cs h) hs
  rw [List.pairwise_map] at hp
  exact hp

/-- The entries of an ordered reading increase strictly. -/
theorem ents_pairwise {ts : List (Tok K P)} (h : Sorted ts) :
    (ents ts).Pairwise fun a b => a.1 < b.1 := by
  induction ts with
  | nil => exact List.Pairwise.nil
  | cons t ts ih =>
      obtain ⟨ht, hts⟩ := sorted_cons.mp h
      cases t with
      | sep k => exact ih hts
      | ent k p =>
          refine List.pairwise_cons.mpr ⟨?_, ih hts⟩
          intro e he
          exact ht _ (mem_ents.mp he)

/-- Keys determine entries in an ordered reading. -/
theorem ents_unique {ts : List (Tok K P)} (h : Sorted ts) {k : K} {p q : P}
    (hp : (k, p) ∈ ents ts) (hq : (k, q) ∈ ents ts) : p = q := by
  have hpw := ents_pairwise h
  generalize ents ts = es at hpw hp hq
  induction es with
  | nil => cases hp
  | cons e es ih =>
      obtain ⟨he, hes⟩ := List.pairwise_cons.mp hpw
      rcases List.mem_cons.mp hp with rfl | hp'
      · rcases List.mem_cons.mp hq with hq' | hq'
        · exact (Prod.mk.inj hq').2.symm
        · exact absurd (he _ hq') (lt_irrefl k)
      · rcases List.mem_cons.mp hq with rfl | hq'
        · exact absurd (he _ hp') (lt_irrefl k)
        · exact ih hes hp' hq'

/-- A key at or right of a separator fits after everything left of
it. -/
theorem Fits.of_sep_left {key s : K} {A B U : List (Tok K P)}
    (hs : Sorted (A ++ (U ++ [.sep s]))) (hk : s ≤ key)
    (hB : ∀ b ∈ B, match b with
      | .ent k _ => key < k
      | .sep k => key < k) :
    Fits key (A ++ (U ++ [.sep s])) B := by
  refine ⟨?_, hB⟩
  intro a ha
  rw [← List.append_assoc] at hs ha
  rcases List.mem_append.mp ha with ha | ha
  · have hb := (sorted_append.mp hs).2.2 a ha (.sep s) (by simp)
    cases a with
    | ent k p => exact lt_of_lt_of_le hb hk
    | sep k => exact le_trans (le_of_lt hb) hk
  · rw [List.mem_singleton.mp ha]
    exact hk

/-- A key left of a separator fits before everything right of it. -/
theorem Fits.of_sep_right {key s : K} {A B V : List (Tok K P)}
    (hs : Sorted (.sep s :: (V ++ B))) (hk : key < s)
    (hA : ∀ a ∈ A, match a with
      | .ent k _ => k < key
      | .sep k => k ≤ key) :
    Fits key A (.sep s :: (V ++ B)) := by
  refine ⟨hA, ?_⟩
  intro b hb
  rcases List.mem_cons.mp hb with hb | hb
  · rw [hb]
    exact hk
  · have hlt := (sorted_cons.mp hs).1 b hb
    cases b with
    | ent k p => exact lt_of_lt_of_le hk hlt
    | sep k => exact lt_trans hk hlt

/-- A key between the separators around a child fits where the child
stands. -/
theorem Fits.route {key : K} {k₁ k₂ : List K} (c₁ c₂ : List (List (Tok K P)))
    (h₁ : k₁.length = c₁.length) (h₂ : k₂.length = c₂.length)
    (hk₁ : ∀ k ∈ k₁, k ≤ key) (hk₂ : ∀ k ∈ k₂.head?, key < k)
    (x A B : List (Tok K P))
    (hs : Sorted (A ++ (weaveL k₁ c₁ ++ (x ++ (weaveR k₂ c₂ ++ B)))))
    (hf : Fits key A B) : Fits key (A ++ weaveL k₁ c₁) (weaveR k₂ c₂ ++ B) := by
  have hright : ∀ b ∈ weaveR k₂ c₂ ++ B, match b with
      | .ent k _ => key < k
      | .sep k => key < k := by
    match k₂, c₂, h₂ with
    | [], [], _ => exact hf.right
    | s :: k₂, c :: c₂, _ =>
        have hs' : Sorted (.sep s :: ((c ++ weaveR k₂ c₂) ++ B)) := by
          rw [← List.append_assoc, ← List.append_assoc] at hs
          exact (sorted_append.mp hs).2.1
        exact (Fits.of_sep_right hs' (hk₂ s rfl) hf.left).right
  rcases List.eq_nil_or_concat k₁ with rfl | ⟨k₁', s, rfl⟩
  · exact ⟨by simpa using hf.left, hright⟩
  · rcases List.eq_nil_or_concat c₁ with rfl | ⟨c₁', c, rfl⟩
    · simp at h₁
    · simp only [List.concat_eq_append] at *
      have hw : weaveL (k₁' ++ [s]) (c₁' ++ [c])
          = (weaveL k₁' c₁' ++ c) ++ [.sep s] := by
        rw [weaveL_append _ _ _ _ (by simpa using h₁)]
        simp
      rw [hw] at hs ⊢
      refine Fits.of_sep_left ?_ (hk₁ s (by simp)) hright
      rw [← List.append_assoc] at hs
      exact (sorted_append.mp hs).1

-- =========================================================== the edits

/-- `y` may stand for `x` in any ordered list, and holds the same
entries. -/
def Refines (x y : List (Tok K P)) : Prop :=
  ents y = ents x ∧ ∀ A B, Sorted (A ++ (x ++ B)) → Sorted (A ++ (y ++ B))

/-- `y` is `x` with the entry `(key, p)` added, ordered in every context
the key fits into. -/
def Inserts (key : K) (p : P) (x y : List (Tok K P)) : Prop :=
  (∃ l r, ents x = l ++ r ∧ ents y = l ++ (key, p) :: r)
    ∧ ∀ A B, Sorted (A ++ (x ++ B)) → Fits key A B →
        (∀ q, (key, q) ∉ ents x) → Sorted (A ++ (y ++ B))

/-- `y` is `x` with the entry `(key, p)` taken out, ordered in every
context. -/
def Removes (key : K) (p : P) (x y : List (Tok K P)) : Prop :=
  (∃ l r, ents x = l ++ (key, p) :: r ∧ ents y = l ++ r)
    ∧ ∀ A B, Sorted (A ++ (x ++ B)) → Sorted (A ++ (y ++ B))

theorem Refines.refl (x : List (Tok K P)) : Refines x x :=
  ⟨rfl, fun _ _ h => h⟩

theorem Refines.trans {x y z : List (Tok K P)} (h₁ : Refines x y)
    (h₂ : Refines y z) : Refines x z :=
  ⟨h₂.1.trans h₁.1, fun A B h => h₂.2 A B (h₁.2 A B h)⟩

/-- Context may be added around a refinement. -/
theorem Refines.frame {x y : List (Tok K P)} (h : Refines x y)
    (U V : List (Tok K P)) : Refines (U ++ (x ++ V)) (U ++ (y ++ V)) := by
  refine ⟨by simp [h.1], fun A B hs => ?_⟩
  have hs' := h.2 (A ++ U) (V ++ B) (by simpa using hs)
  simpa using hs'

/-- Context may be added around a removal. -/
theorem Removes.frame {key : K} {p : P} {x y : List (Tok K P)}
    (h : Removes key p x y) (U V : List (Tok K P)) :
    Removes key p (U ++ (x ++ V)) (U ++ (y ++ V)) := by
  obtain ⟨⟨l, r, hx, hy⟩, hs⟩ := h
  refine ⟨⟨ents U ++ l, r ++ ents V, by simp [hx], by simp [hy]⟩,
    fun A B hAB => ?_⟩
  have h' := hs (A ++ U) (V ++ B) (by simpa using hAB)
  simpa using h'

/-- A removal may be followed by a refinement. -/
theorem Removes.trans {key : K} {p : P} {x y z : List (Tok K P)}
    (h₁ : Removes key p x y) (h₂ : Refines y z) : Removes key p x z := by
  obtain ⟨⟨l, r, hx, hy⟩, hs⟩ := h₁
  exact ⟨⟨l, r, hx, h₂.1.trans hy⟩, fun A B h => h₂.2 A B (hs A B h)⟩

/-- Context may be added around an insertion when the added context
shows where the key goes. -/
theorem Inserts.frame {key : K} {p : P} {x y : List (Tok K P)}
    (h : Inserts key p x y) (U V : List (Tok K P))
    (hfit : ∀ A B, Sorted (A ++ (U ++ (x ++ (V ++ B)))) → Fits key A B →
      Fits key (A ++ U) (V ++ B)) :
    Inserts key p (U ++ (x ++ V)) (U ++ (y ++ V)) := by
  obtain ⟨⟨l, r, hx, hy⟩, hs⟩ := h
  refine ⟨⟨ents U ++ l, r ++ ents V, by simp [hx], by simp [hy]⟩,
    fun A B hAB hf hno => ?_⟩
  have hAB' : Sorted (A ++ (U ++ (x ++ (V ++ B)))) := by simpa using hAB
  have h' := hs (A ++ U) (V ++ B) (by simpa using hAB') (hfit A B hAB' hf)
    (fun q hq => hno q (by simp [hq]))
  simpa using h'

-- ======================================================== leaf edits

/-- Dropping a separator refines. -/
theorem refines_drop_sep (x : List (Tok K P)) (k : K) (y : List (Tok K P)) :
    Refines (x ++ .sep k :: y) (x ++ y) := by
  refine ⟨by simp, fun A B h => ?_⟩
  refine List.Pairwise.sublist ?_ h
  refine List.Sublist.append_left ?_ A
  refine List.Sublist.append_right ?_ B
  exact List.Sublist.append_left (List.sublist_cons_self _ _) x

/-- Removing an entry token. -/
theorem removes_ent (x : List (Tok K P)) (key : K) (p : P)
    (y : List (Tok K P)) :
    Removes key p (x ++ .ent key p :: y) (x ++ y) := by
  refine ⟨⟨ents x, ents y, by simp, by simp⟩, fun A B h => ?_⟩
  refine List.Pairwise.sublist ?_ h
  refine List.Sublist.append_left ?_ A
  refine List.Sublist.append_right ?_ B
  exact List.Sublist.append_left (List.sublist_cons_self _ _) x

/-- A separator equal to the key of the entry after it may be put in
front of that entry when an entry stands before it. -/
theorem refines_sep_before (x : List (Tok K P)) (k₀ : K) (p₀ : P)
    (k : K) (p : P) (y : List (Tok K P)) :
    Refines (x ++ .ent k₀ p₀ :: .ent k p :: y)
      (x ++ .ent k₀ p₀ :: .sep k :: .ent k p :: y) := by
  refine ⟨by simp, fun A B h => ?_⟩
  have h' : Sorted ((A ++ x ++ [.ent k₀ p₀]) ++ (.ent k p :: (y ++ B))) := by
    simpa using h
  obtain ⟨hl, hr, hlr⟩ := sorted_append.mp h'
  obtain ⟨hk, -⟩ := sorted_cons.mp hr
  have hgoal : Sorted ((A ++ x ++ [.ent k₀ p₀])
      ++ (.sep k :: .ent k p :: (y ++ B))) := by
    refine sorted_append.mpr ⟨hl, sorted_cons.mpr ⟨?_, hr⟩, ?_⟩
    · intro b hb
      rcases List.mem_cons.mp hb with rfl | hb
      · exact le_refl k
      · have hkb := hk b hb
        cases b with
        | ent => exact le_of_lt hkb
        | sep => exact hkb
    · intro a ha b hb
      rcases List.mem_cons.mp hb with rfl | hb
      · -- strictness against an earlier separator comes from `k₀`
        have hk₀ : k₀ < k := hlr (.ent k₀ p₀) (by simp) (.ent k p) (by simp)
        rcases List.mem_append.mp ha with ha | ha
        · have hak₀ := (sorted_append.mp hl).2.2 a ha (.ent k₀ p₀) (by simp)
          cases a with
          | ent => exact lt_trans hak₀ hk₀
          | sep => exact lt_of_le_of_lt hak₀ hk₀
        · rw [List.mem_singleton.mp ha]
          exact hk₀
      · exact hlr a ha b hb
  simpa using hgoal

/-- Entries of a leaf, cut at the insertion point of an absent key. -/
theorem inserts_leaf (l r : List (K × P)) (key : K) (p : P)
    (hl : ∀ e ∈ l, e.1 < key) (hr : ∀ e ∈ r, ¬ e.1 < key) :
    Inserts key p (toks (l ++ r)) (toks (l ++ (key, p) :: r)) := by
  refine ⟨⟨l, r, by simp, by simp⟩, fun A B h hf hno => ?_⟩
  have hr' : ∀ e ∈ r, key < e.1 := by
    intro e he
    rcases lt_or_eq_of_le (not_lt.mp (hr e he)) with h | h
    · exact h
    · refine absurd ?_ (hno e.2)
      rw [ents_toks, h]
      exact List.mem_append_right _ he
  have h' : Sorted ((A ++ toks l) ++ (toks r ++ B)) := by simpa using h
  obtain ⟨h₁, h₂, h₁₂⟩ := sorted_append.mp h'
  have hmemt : ∀ {es : List (K × P)} {t : Tok K P}, t ∈ toks es →
      ∃ e ∈ es, t = .ent e.1 e.2 := by
    intro es t ht
    obtain ⟨e, he, rfl⟩ := List.mem_map.mp ht
    exact ⟨e, he, rfl⟩
  have hgoal : Sorted ((A ++ toks l) ++ (.ent key p :: (toks r ++ B))) := by
    refine sorted_append.mpr ⟨h₁, sorted_cons.mpr ⟨?_, h₂⟩, ?_⟩
    · intro b hb
      rcases List.mem_append.mp hb with hb | hb
      · obtain ⟨e, he, rfl⟩ := hmemt hb
        exact hr' e he
      · have hfb := hf.right b hb
        cases b with
        | ent => exact hfb
        | sep => exact hfb
    · intro a ha b hb
      rcases List.mem_cons.mp hb with rfl | hb
      · rcases List.mem_append.mp ha with ha | ha
        · have hfa := hf.left a ha
          cases a with
          | ent => exact hfa
          | sep => exact hfa
        · obtain ⟨e, he, rfl⟩ := hmemt ha
          exact hl e he
      · exact h₁₂ a ha b hb
  simpa using hgoal

/-- An insertion may be followed by a refinement. -/
theorem Inserts.trans {key : K} {p : P} {x y z : List (Tok K P)}
    (h₁ : Inserts key p x y) (h₂ : Refines y z) : Inserts key p x z := by
  obtain ⟨⟨l, r, hx, hy⟩, hs⟩ := h₁
  exact ⟨⟨l, r, hx, h₂.1.trans hy⟩,
    fun A B h hf hno => h₂.2 A B (hs A B h hf hno)⟩

-- ====================================================== packed entries

/-- Packing sorted entries into chunks that are not empty keeps entries
and order. -/
theorem refines_glue (c : List (K × P)) (cs : List (List (K × P)))
    (hne : ∀ x ∈ c :: cs, x ≠ []) :
    Refines (toks (c :: cs).flatten) (glue (c :: cs)) := by
  induction cs generalizing c with
  | nil =>
      have hflat : [c].flatten = c := by simp
      have hglue : glue [c] = toks c := List.append_nil _
      rw [hflat, hglue]
      exact Refines.refl _
  | cons d cs ih =>
      obtain ⟨c', e₀, rfl⟩ : ∃ c' e₀, c = c' ++ [e₀] := by
        rcases List.eq_nil_or_concat c with rfl | ⟨c', e₀, rfl⟩
        · exact absurd rfl (hne [] (List.mem_cons_self ..))
        · exact ⟨c', e₀, by simp⟩
      match d, hne d (by simp) with
      | e :: d, _ =>
          have hrest := ih (e :: d) fun x hx => hne x (List.mem_cons_of_mem _ hx)
          -- the separator first, then the rest of the row behind it
          have hsep := refines_sep_before (toks c') e₀.1 e₀.2 e.1 e.2
            (toks (d ++ cs.flatten))
          have hframe := hrest.frame (toks (c' ++ [e₀]) ++ [.sep e.1]) []
          have hglue : glue ((c' ++ [e₀]) :: (e :: d) :: cs)
              = toks (c' ++ [e₀]) ++ .sep e.1 :: glue ((e :: d) :: cs) := by
            show toks (c' ++ [e₀]) ++ ((e :: d) :: cs).flatMap seam = _
            rw [flatMap_seam]
          rw [hglue]
          refine Refines.trans ?_ (by simpa using hframe)
          simpa using hsep

end ThesisBench.SepList
