/-
Fixed-length arrays with checked access, and the handful of index loops
that array code written by hand is made of.

An array is a list whose length never changes. A read is `a[i]?`, a
write is `put`, and both answer `none` outside the array, so a loop
that runs off either end is a visible failure and not a silent default.
Every loop below is the C loop in its docstring, one recursion step per
iteration.

# The shape of the specifications

Each loop's theorem describes the array before the loop as a
concatenation whose parts have the lengths the loop bounds name, and
the array after it as another concatenation of the same parts. A
caller proves nothing about indices: it splits its array once and reads
off the answer.
-/
import Mathlib.Data.List.Basic
import Mathlib.Data.List.Induction
import Mathlib.Tactic.Common

namespace ThesisBench.CArray

variable {α : Type _}

-- ================================================== reads and writes

/-- A successful step hands its value to the rest of the block. -/
theorem some_bind_eq {β : Type _} (x : α) (f : α → Option β) :
    (some x >>= f) = f x := rfl

/-- `a[i] = x;`, refused outside the array. -/
def put (a : List α) (i : Nat) (x : α) : Option (List α) :=
  if i < a.length then some (a.set i x) else none

/-- A read at the seam of a concatenation. -/
theorem getElem?_seam (p : List α) (x : α) (r : List α) {i : Nat}
    (hi : i = p.length) : (p ++ x :: r)[i]? = some x := by
  subst hi
  simp

/-- A write at the seam of a concatenation. -/
theorem put_seam (p : List α) (x y : α) (r : List α) {i : Nat}
    (hi : i = p.length) : put (p ++ x :: r) i y = some (p ++ y :: r) := by
  subst hi
  simp [put]

-- ============================================================ splitting

/-- A list splits at any position it reaches. -/
theorem exists_split (l : List α) (n : Nat) (hn : n ≤ l.length) :
    ∃ a b, l = a ++ b ∧ a.length = n :=
  ⟨l.take n, l.drop n, (List.take_append_drop n l).symm,
    by rw [List.length_take]; omega⟩

/-- A list may be cut wherever its length allows. -/
theorem exists_split_of_length {l : List α} {m n : Nat}
    (h : l.length = m + n) : ∃ a b, l = a ++ b ∧ a.length = m ∧ b.length = n := by
  obtain ⟨a, b, rfl, ha⟩ := exists_split l m (by omega)
  rw [List.length_append] at h
  exact ⟨a, b, rfl, ha, by omega⟩

/-- A list that is not empty has a first element. -/
theorem exists_cons_of_length {l : List α} {n : Nat}
    (h : l.length = n + 1) : ∃ x t, l = x :: t ∧ t.length = n := by
  match l, h with
  | x :: t, h => exact ⟨x, t, rfl, by simpa using h⟩

/-- A list that is not empty has a last element. -/
theorem exists_concat_of_length {l : List α} {n : Nat}
    (h : l.length = n + 1) : ∃ t x, l = t ++ [x] ∧ t.length = n := by
  obtain ⟨a, b, rfl, ha⟩ := exists_split l n (by omega)
  rw [List.length_append] at h
  obtain ⟨x, t, rfl, ht⟩ := exists_cons_of_length (l := b) (n := 0) (by omega)
  rw [List.length_eq_zero_iff.mp ht]
  exact ⟨a, x, rfl, ha⟩

-- ========================================================== the loops

/-- `for (i = hi; i > lo; i--) a[i] = a[i - 1];` -/
def shiftUp (a : List α) (lo : Nat) : Nat → Option (List α)
  | 0 => some a
  | i + 1 =>
      if lo < i + 1 then do
        let x ← a[i]?
        let a ← put a (i + 1) x
        shiftUp a lo i
      else some a

/-- `for (k = 0; k < n; k++) a[i + k] = a[i + k + 1];` -/
def shiftDown (a : List α) (i : Nat) : Nat → Option (List α)
  | 0 => some a
  | n + 1 => do
      let x ← a[i + 1]?
      let a ← put a i x
      shiftDown a (i + 1) n

/-- `for (k = 0; k < n; k++) dst[di + k] = src[si + k];`, two distinct
arrays. -/
def copy (src : List α) (si : Nat) (dst : List α) (di : Nat) :
    Nat → Option (List α)
  | 0 => some dst
  | n + 1 => do
      let x ← src[si]?
      let dst ← put dst di x
      copy src (si + 1) dst (di + 1) n

/-- `for (; i < n; i++, j++) { if (j == gap) j++; dst[j] = src[i]; }`,
with `n` the iterations still to run. -/
def copyGap (src : List α) (gap : Nat) (dst : List α) (i j : Nat) :
    Nat → Option (List α)
  | 0 => some dst
  | n + 1 => do
      let j := if j = gap then j + 1 else j
      let x ← src[i]?
      let dst ← put dst j x
      copyGap src gap dst (i + 1) (j + 1) n

/-- `for (k = 0; k < n; k++) a[i + k] = x;` -/
def fill (a : List α) (x : α) (i : Nat) : Nat → Option (List α)
  | 0 => some a
  | n + 1 => do
      let a ← put a i x
      fill a x (i + 1) n

/-- `while (i < i + n && p(a[i])) i++;`, with `n` the iterations the
bound still allows. -/
def scanWhile (p : α → Bool) (a : List α) (i : Nat) : Nat → Option Nat
  | 0 => some i
  | n + 1 => do
      let x ← a[i]?
      if p x then scanWhile p a (i + 1) n else some i

/-- `while (!p(a[i])) i++;` with no bound of its own: the scan that
leaves the array fails. -/
def scanFor (p : α → Bool) (a : List α) : Option Nat :=
  a.findIdx? p

-- ===================================================== specifications

/-- The upward shift opens a slot at `lo`, whose content is stale. -/
theorem shiftUp_spec (p q : List α) (z : α) (r : List α) {i j : Nat}
    (hi : i = p.length) (hj : j = p.length + q.length) :
    ∃ y, shiftUp (p ++ q ++ z :: r) i j = some (p ++ y :: (q ++ r)) := by
  subst hi hj
  -- the loop runs from the right, so the induction peels the last of `q`
  induction q using List.reverseRecOn generalizing z r with
  | nil =>
      refine ⟨z, ?_⟩
      rw [List.length_nil, Nat.add_zero]
      cases hp : p.length <;> simp [shiftUp]
  | append_singleton q x ih =>
      obtain ⟨y, hy⟩ := ih x (x :: r)
      refine ⟨y, ?_⟩
      rw [show p.length + (q ++ [x]).length = (p.length + q.length) + 1 by
        simp only [List.length_append, List.length_singleton]; omega]
      rw [shiftUp, if_pos (by omega)]
      have hread : (p ++ (q ++ [x]) ++ z :: r)[p.length + q.length]?
          = some x := by
        rw [show p ++ (q ++ [x]) ++ z :: r = (p ++ q) ++ x :: z :: r by simp]
        exact getElem?_seam _ _ _ (by simp)
      have hwrite : put (p ++ (q ++ [x]) ++ z :: r)
          (p.length + q.length + 1) x
          = some (p ++ q ++ x :: x :: r) := by
        rw [show p ++ (q ++ [x]) ++ z :: r = (p ++ q ++ [x]) ++ z :: r by simp,
          put_seam _ _ _ _ (by simp; omega)]
        simp
      rw [hread, some_bind_eq, hwrite, some_bind_eq, hy]
      simp

/-- An upward shift of nothing. -/
theorem shiftUp_none (a : List α) (i : Nat) : shiftUp a i i = some a := by
  cases i with
  | zero => rfl
  | succ i => rw [shiftUp, if_neg (Nat.lt_irrefl _)]

/-- The downward shift closes the slot at `i`; the last slot keeps a
stale copy. -/
theorem shiftDown_spec (p : List α) (x : α) (q r : List α) {i n : Nat}
    (hi : i = p.length) (hn : n = q.length) :
    ∃ y, shiftDown (p ++ x :: (q ++ r)) i n = some (p ++ q ++ y :: r) := by
  subst hi hn
  induction q generalizing p x with
  | nil => exact ⟨x, by simp [shiftDown]⟩
  | cons b q ih =>
      obtain ⟨y, hy⟩ := ih (p ++ [b]) b
      refine ⟨y, ?_⟩
      rw [List.length_cons, shiftDown]
      have hread : (p ++ x :: (b :: q ++ r))[p.length + 1]? = some b := by
        rw [show p ++ x :: (b :: q ++ r) = (p ++ [x]) ++ b :: (q ++ r) by simp]
        exact getElem?_seam _ _ _ (by simp)
      rw [hread, some_bind_eq, put_seam _ _ _ _ rfl, some_bind_eq]
      rw [show p ++ b :: (b :: q ++ r) = (p ++ [b]) ++ b :: (q ++ r) by simp,
        show p.length + 1 = (p ++ [b]).length by simp, hy]
      simp

/-- A copy replaces the segment of the target by the one of the
source. -/
theorem copy_spec (sp s sr dp d dr : List α) {i j n : Nat}
    (hi : i = sp.length) (hj : j = dp.length) (hs : n = s.length)
    (hd : n = d.length) :
    copy (sp ++ s ++ sr) i (dp ++ d ++ dr) j n
      = some (dp ++ s ++ dr) := by
  subst hi hj
  induction n generalizing sp s dp d with
  | zero =>
      rw [List.length_eq_zero_iff.mp hs.symm,
        List.length_eq_zero_iff.mp hd.symm]
      rfl
  | succ n ih =>
      match s, d, hs, hd with
      | x :: s, y :: d, hs, hd =>
          rw [copy]
          have hread : (sp ++ x :: s ++ sr)[sp.length]? = some x := by
            rw [List.append_assoc, List.cons_append]
            exact getElem?_seam _ _ _ rfl
          rw [hread, some_bind_eq]
          rw [show dp ++ y :: d ++ dr = dp ++ y :: (d ++ dr) by simp,
            put_seam _ _ _ _ rfl, some_bind_eq]
          have hrec := ih (sp ++ [x]) s (dp ++ [x]) d
            (by simpa using hs) (by simpa using hd)
          simpa using hrec

/-- Past the gap the copy is a plain one. -/
theorem copyGap_after (src dst : List α) {gap i j n : Nat} (hj : gap < j) :
    copyGap src gap dst i j n = copy src i dst j n := by
  induction n generalizing dst i j with
  | zero => rfl
  | succ n ih =>
      simp only [copyGap, copy, if_neg (by omega : ¬ j = gap)]
      cases src[i]? with
      | none => rfl
      | some x =>
          cases hput : put dst j x with
          | none => simp [hput]
          | some d => simp [hput, ih d (by omega : gap < j + 1)]

/-- A copy with a gap leaves the slot at the gap alone and moves the
rest of the source one place up. -/
theorem copyGap_spec (s t sr d : List α) (z : α) (e dr : List α)
    {gap n : Nat} (hgap : gap = s.length) (hn : n = s.length + t.length)
    (hd : d.length = s.length) (he : e.length = t.length) :
    copyGap (s ++ t ++ sr) gap (d ++ z :: (e ++ dr)) 0 0 n
      = some (s ++ z :: (t ++ dr)) := by
  subst hgap
  -- generalised over the part already copied
  have main : ∀ (done s d : List α) (n : Nat), n = s.length + t.length →
      d.length = s.length →
      copyGap (done ++ s ++ t ++ sr) (done.length + s.length)
        (done ++ d ++ z :: (e ++ dr)) done.length done.length n
        = some (done ++ s ++ z :: (t ++ dr)) := by
    intro done s
    induction s generalizing done with
    | nil =>
        intro d n hn hd
        rw [List.length_eq_zero_iff.mp hd]
        rw [List.length_nil, Nat.zero_add] at hn
        simp only [List.append_nil, List.length_nil, Nat.add_zero]
        cases t with
        | nil =>
            rw [List.length_eq_zero_iff.mp he, hn]
            rfl
        | cons x t =>
            match e, he with
            | y :: e, he =>
                rw [hn, List.length_cons, copyGap, if_pos rfl]
                have hread : (done ++ x :: t ++ sr)[done.length]?
                    = some x := by
                  rw [List.append_assoc, List.cons_append]
                  exact getElem?_seam _ _ _ rfl
                rw [hread, some_bind_eq]
                rw [show done ++ z :: (y :: e ++ dr)
                    = (done ++ [z]) ++ y :: (e ++ dr) by simp,
                  put_seam _ _ _ _ (by simp), some_bind_eq,
                  copyGap_after _ _ (by omega)]
                have hc := copy_spec (done ++ [x]) t sr
                  (done ++ [z, x]) e dr (i := done.length + 1)
                  (j := done.length + 1 + 1) (n := t.length)
                  (by simp) (by simp) rfl (by simpa using he.symm)
                simpa using hc
    | cons x s ih =>
        intro d n hn hd
        match d, hd with
        | y :: d, hd =>
            rw [hn, show (x :: s).length + t.length
              = (s.length + t.length) + 1 by
                rw [List.length_cons]; omega, copyGap,
              if_neg (by rw [List.length_cons]; omega)]
            have hread : (done ++ x :: s ++ t ++ sr)[done.length]?
                = some x := by
              rw [show done ++ x :: s ++ t ++ sr
                = done ++ x :: (s ++ t ++ sr) by simp]
              exact getElem?_seam _ _ _ rfl
            rw [hread, some_bind_eq]
            rw [show done ++ y :: d ++ z :: (e ++ dr)
                = done ++ y :: (d ++ z :: (e ++ dr)) by simp,
              put_seam _ _ _ _ rfl, some_bind_eq]
            have hrec := ih (done ++ [x]) d _ rfl (by simpa using hd)
            rw [show (done ++ [x]).length + s.length
                = done.length + (x :: s).length by simp; omega] at hrec
            simpa using hrec
  simpa using main [] s d n hn hd

/-- A fill overwrites its segment. -/
theorem fill_spec (p m r : List α) (x : α) {i n : Nat}
    (hi : i = p.length) (hn : n = m.length) :
    fill (p ++ m ++ r) x i n
      = some (p ++ List.replicate n x ++ r) := by
  subst hi
  induction n generalizing p m with
  | zero =>
      rw [List.length_eq_zero_iff.mp hn.symm]
      rfl
  | succ n ih =>
      match m, hn with
      | y :: m, hn =>
          rw [fill, show p ++ y :: m ++ r = p ++ y :: (m ++ r) by simp,
            put_seam _ _ _ _ rfl, some_bind_eq]
          have hrec := ih (p ++ [x]) m (by simpa using hn)
          simpa [List.replicate_succ] using hrec

/-- The bounded scan stops at the end of the longest accepted run. -/
theorem scanWhile_spec (p : α → Bool) (a b : List α) {n : Nat}
    (hn : n = a.length) :
    scanWhile p (a ++ b) 0 n = some (a.takeWhile p).length := by
  have main : ∀ (done a : List α), scanWhile p (done ++ a ++ b) done.length
      a.length = some (done.length + (a.takeWhile p).length) := by
    intro done a
    induction a generalizing done with
    | nil => simp [scanWhile]
    | cons x a ih =>
        rw [List.length_cons, scanWhile, List.append_assoc, List.cons_append,
          getElem?_seam _ _ _ rfl, some_bind_eq]
        cases hx : p x with
        | false => simp [hx]
        | true =>
            have hrec := ih (done ++ [x])
            simp only [List.append_assoc, List.cons_append, List.nil_append,
              List.length_append, List.length_singleton] at hrec
            rw [if_pos rfl, hrec]
            simp [hx]
            omega
  rw [hn]
  simpa using main [] a

/-- The unbounded scan finds the first accepted element. -/
theorem scanFor_spec (p : α → Bool) (a : List α) (x : α) (b : List α)
    (ha : ∀ y ∈ a, p y = false) (hx : p x = true) :
    scanFor p (a ++ x :: b) = some a.length := by
  unfold scanFor
  induction a with
  | nil => simp [List.findIdx?_cons, hx]
  | cons y a ih =>
      have hy : p y = false := ha y (List.mem_cons_self ..)
      rw [List.cons_append, List.findIdx?_cons, hy,
        ih fun y hy => ha y (List.mem_cons_of_mem _ hy)]
      simp

end ThesisBench.CArray
