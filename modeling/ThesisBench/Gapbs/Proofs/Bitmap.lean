/-
No bit is lost, so the bitmap's words are what the model of `bfs.cc` takes
them for: a list of bits, each set in one step (`bit_contents`).

What one access does to the bits is the same for both ways of setting
them: when the value a thread writes is the word as it stands, with one
bit more, that bit is set and no other changes (`isSet_set`). A
compare-and-swap makes sure of it. It may have to be tried again, but
only after another thread has set a bit that was not set, so the zeros
that are left bound the attempts (`zeros_phase_set`). The plain write
relies on nobody else writing to the word; the chunks that the loop of
`BUStep` deals out are whole words, so no two threads have a word in
common (`awakeIn_apart`). Where two threads do have one, some run loses a
bit: the first reads, the second sets its bits, the first writes
(`exists_lost`).
-/
import ThesisBench.Gapbs.Bitmap
import ThesisBench.Gapbs.Proofs.BfsSteps
import Mathlib.Data.Finset.Card
import Mathlib.Data.Finset.Range

namespace ThesisBench.Gapbs.Bitmap

open Parallel
open Bfs (Shares shares_of_perm exists_share)

variable {ws s : Words} {w : Word} {p q : Nat}

-- =============================================================== the bits

theorem bitOffset_eq (n : Nat) : bitOffset n = n % 64 :=
  Nat.and_two_pow_sub_one_eq_mod n 6

/-- A bit of the array. -/
def isSet (ws : Words) (pos : Nat) : Bool := (getBit ws pos).getD false

theorem getBit_of_get (h : ws[wordOffset p]? = some w) :
    getBit ws p = some (w.getLsbD (p % 64)) := by
  rw [getBit, h, Option.map_some, BitVec.and_one_eq_setWidth_ofBool_getLsbD,
    BitVec.getLsbD_ushiftRight, bitOffset_eq, Nat.add_zero]
  cases w.getLsbD (p % 64) <;> rfl

theorem isSet_of_get (h : ws[wordOffset p]? = some w) : isSet ws p = w.getLsbD (p % 64) := by
  rw [isSet, getBit_of_get h, Option.getD_some]

/-- The bits of a word after one has been set. -/
theorem getLsbD_or_bit (w : Word) (p j : Nat) :
    (w ||| bit p).getLsbD j = (decide (j = p % 64) || w.getLsbD j) := by
  have hp : p % 64 < 64 := Nat.mod_lt p (by decide)
  rw [BitVec.getLsbD_or, bit, BitVec.getLsbD_shiftLeft, BitVec.getLsbD_one, bitOffset_eq,
    Bool.or_comm]
  congr 1
  by_cases h : j = p % 64
  · simp [h, hp]
  · by_cases hlt : j < p % 64
    · simp [h, hlt]
    · have hne : j - p % 64 ≠ 0 := by omega
      simp [h, hne]

/-- The word as it stands with one bit more. -/
theorem isSet_set (h : ws[wordOffset p]? = some w) (q : Nat) :
    isSet (ws.set (wordOffset p) (w ||| bit p)) q = (decide (q = p) || isSet ws q) := by
  have hlen := (List.getElem?_eq_some_iff.mp h).1
  by_cases hword : wordOffset p = wordOffset q
  · have hget : (ws.set (wordOffset p) (w ||| bit p))[wordOffset q]? = some (w ||| bit p) := by
      rw [← hword, List.getElem?_set_self hlen]
    have hold : ws[wordOffset q]? = some w := hword ▸ h
    rw [isSet_of_get hget, isSet_of_get hold, getLsbD_or_bit]
    have hiff : q % 64 = p % 64 ↔ q = p := by
      unfold wordOffset kBitsPerWord at hword
      omega
    simp only [hiff]
  · have hne : q ≠ p := fun h => hword (h ▸ rfl)
    have hget : (ws.set (wordOffset p) (w ||| bit p))[wordOffset q]? = ws[wordOffset q]? :=
      List.getElem?_set_ne hword
    rw [isSet, getBit, hget]
    simp [hne, isSet, getBit]

/-- Setting a bit that is set changes nothing. -/
theorem set_of_isSet (h : ws[wordOffset p]? = some w) (hset : isSet ws p = true) :
    ws.set (wordOffset p) (w ||| bit p) = ws := by
  have hsame : w ||| bit p = w := by
    refine BitVec.eq_of_getLsbD_eq fun j _ => ?_
    rw [getLsbD_or_bit]
    rw [isSet_of_get h] at hset
    by_cases hjp : j = p % 64
    · rw [hjp, hset, Bool.or_true]
    · simp [hjp]
  obtain ⟨hlen, rfl⟩ := List.getElem?_eq_some_iff.mp h
  rw [hsame]
  exact List.set_getElem_self hlen

/-- How many bits are not set. -/
def zeros (ws : Words) : Nat :=
  ((Finset.range (64 * ws.length)).filter fun q => isSet ws q = false).card

/-- Setting a bit that was not set leaves fewer zeros. -/
theorem zeros_set_lt (h : ws[wordOffset p]? = some w) (hset : isSet ws p = false) :
    zeros (ws.set (wordOffset p) (w ||| bit p)) < zeros ws := by
  have hlen := (List.getElem?_eq_some_iff.mp h).1
  have hp : p < 64 * ws.length := by
    unfold wordOffset kBitsPerWord at hlen
    omega
  unfold zeros
  rw [List.length_set]
  refine Finset.card_lt_card (Finset.ssubset_iff_of_subset ?_ |>.mpr ⟨p, ?_, ?_⟩)
  · intro q hq
    obtain ⟨hlt, hq⟩ := Finset.mem_filter.mp hq
    rw [isSet_set h, Bool.or_eq_false_iff] at hq
    exact Finset.mem_filter.mpr ⟨hlt, hq.2⟩
  · exact Finset.mem_filter.mpr ⟨Finset.mem_range.mpr hp, hset⟩
  · intro hmem
    have hq := (Finset.mem_filter.mp hmem).2
    rw [isSet_set h] at hq
    simp at hq

-- ============================================================== the moves

/-- What a thread of `QueueToBitmap` can do: read the word, swap it, or
start over. -/
theorem casNext_cases {l l' : Setter} {s' : Words} (h : casNext l s = some (l', s')) :
    ∃ p todo w, l.todo = p :: todo ∧ s[wordOffset p]? = some w ∧
      ((l.held = none ∧ l' = ⟨l.id, p :: todo, some w⟩ ∧ s' = s)
        ∨ (l.held = some w ∧ l' = ⟨l.id, todo, none⟩
            ∧ s' = s.set (wordOffset p) (w ||| bit p))
        ∨ (∃ old, l.held = some old ∧ old ≠ w ∧ l' = ⟨l.id, p :: todo, none⟩ ∧ s' = s)) := by
  obtain ⟨id, _ | ⟨p, todo⟩, held⟩ := l
  · cases h
  · cases held with
    | none =>
        obtain ⟨w, hw, heq⟩ := Option.map_eq_some_iff.mp h
        cases heq
        exact ⟨p, todo, w, rfl, hw, .inl ⟨rfl, rfl, rfl⟩⟩
    | some old =>
        obtain ⟨w, hw, heq⟩ := Option.map_eq_some_iff.mp h
        split at heq
        · rename_i hold
          subst hold
          cases heq
          exact ⟨p, todo, w, rfl, hw, .inr (.inl ⟨rfl, rfl, rfl⟩)⟩
        · rename_i hold
          cases heq
          exact ⟨p, todo, w, rfl, hw, .inr (.inr ⟨old, rfl, Ne.symm hold, rfl, rfl⟩)⟩

/-- What a thread of `BUStep` can do: read the word, or write what it
read with its bit. -/
theorem setNext_cases {l l' : Setter} {s' : Words} (h : setNext l s = some (l', s')) :
    ∃ p todo w, l.todo = p :: todo ∧ s[wordOffset p]? = some w ∧
      ((l.held = none ∧ l' = ⟨l.id, p :: todo, some w⟩ ∧ s' = s)
        ∨ ∃ old, l.held = some old ∧ l' = ⟨l.id, todo, none⟩
            ∧ s' = s.set (wordOffset p) (old ||| bit p)) := by
  obtain ⟨id, _ | ⟨p, todo⟩, held⟩ := l
  · cases h
  · cases held with
    | none =>
        obtain ⟨w, hw, heq⟩ := Option.map_eq_some_iff.mp h
        cases heq
        exact ⟨p, todo, w, rfl, hw, .inl ⟨rfl, rfl, rfl⟩⟩
    | some old =>
        obtain ⟨hlt, heq⟩ := Option.ite_none_right_eq_some.mp h
        cases heq
        exact ⟨p, todo, _, rfl, List.getElem?_eq_getElem hlt, .inr ⟨old, rfl, rfl, rfl⟩⟩

-- ======================================================== common to both

/-- The bits of `s` are those of `ws` and some of `ps`. -/
structure Spread (ws : Words) (ps : List Nat) (s : Words) : Prop where
  length : s.length = ws.length
  old : ∀ q, isSet ws q = true → isSet s q = true
  new : ∀ q, isSet s q = true → isSet ws q = true ∨ q ∈ ps

/-- Setting one of the bits sets no others. -/
theorem Spread.set {ps : List Nat} (h : Spread ws ps s) (hw : s[wordOffset p]? = some w)
    (hp : p ∈ ps) : Spread ws ps (s.set (wordOffset p) (w ||| bit p)) := by
  refine ⟨?_, fun q hq => ?_, fun q hq => ?_⟩
  · rw [List.length_set, h.length]
  · rw [isSet_set hw, h.old q hq, Bool.or_true]
  · rw [isSet_set hw, Bool.or_eq_true, decide_eq_true_eq] at hq
    cases hq with
    | inl heq => exact .inr (heq ▸ hp)
    | inr hold => exact h.new q hold

/-- The bits of a thread's share that are not among those still to do
are set. -/
structure Owes (share : List Nat) (l : Setter) (s : Words) : Prop where
  done : ∀ p ∈ share, p ∈ l.todo ∨ isSet s p = true
  todo : ∀ p ∈ l.todo, p ∈ share

/-- A bit that is set pays off debts and makes none. -/
theorem Owes.set {share : List Nat} {l : Setter} (h : Owes share l s)
    (hw : s[wordOffset p]? = some w) : Owes share l (s.set (wordOffset p) (w ||| bit p)) := by
  refine ⟨fun q hq => ?_, h.todo⟩
  cases h.done q hq with
  | inl hmem => exact .inl hmem
  | inr hset =>
      right
      rw [isSet_set hw, hset, Bool.or_true]

/-- The first is done. -/
theorem Owes.tail {share todo : List Nat} {l : Setter} (h : Owes share l s)
    (htodo : l.todo = p :: todo) (hw : s[wordOffset p]? = some w) :
    Owes share ⟨l.id, todo, none⟩ (s.set (wordOffset p) (w ||| bit p)) := by
  refine ⟨fun q hq => ?_, fun q hq => h.todo q (htodo ▸ List.mem_cons_of_mem p hq)⟩
  rw [isSet_set hw, Bool.or_eq_true, decide_eq_true_eq]
  cases h.done q hq with
  | inl hmem =>
      rw [htodo] at hmem
      cases List.mem_cons.mp hmem with
      | inl heq => exact .inr (.inl heq)
      | inr hmem => exact .inl hmem
  | inr hset => exact .inr (.inr hset)

/-- Nothing changes for a thread that only reads or starts over. -/
theorem Owes.held {share todo : List Nat} {l : Setter} (h : Owes share l s)
    (htodo : l.todo = p :: todo) (held : Option Word) :
    Owes share ⟨l.id, p :: todo, held⟩ s :=
  ⟨fun q hq => htodo ▸ h.done q hq, fun q hq => h.todo q (htodo ▸ hq)⟩

/-- All threads have done their shares. -/
theorem isSet_of_spread {ps : List Nat} {share : Nat → List Nat} {n : Nat} (hs : Spread ws ps s)
    (hps : ∀ p ∈ ps, ∃ i < n, p ∈ share i)
    (hdone : ∀ i < n, ∃ l : Setter, l.id = i ∧ Owes (share i) l s ∧ l.todo = []) (q : Nat) :
    isSet s q = (decide (q ∈ ps) || isSet ws q) := by
  rw [Bool.eq_iff_iff, Bool.or_eq_true, decide_eq_true_eq]
  constructor
  · exact fun hq => (hs.new q hq).symm
  · rintro (hmem | hq)
    · obtain ⟨i, hi, hq⟩ := hps q hmem
      obtain ⟨l, -, howes, htodo⟩ := hdone i hi
      cases howes.done q hq with
      | inl h =>
          rw [htodo] at h
          cases h
      | inr h => exact h
    · exact hs.old q hq

/-- The bits of a bitmap as the list of bits of `Bfs.Memory`. -/
theorem bit_contents {size : Nat} :
    Bfs.bit (contents size ws) q ↔ q < size ∧ isSet ws q = true := by
  unfold Bfs.bit contents
  rw [List.getD_eq_getElem?_getD, List.getElem?_map]
  by_cases hq : q < size
  · rw [List.getElem?_range hq]
    simp [hq, isSet]
  · rw [List.getElem?_eq_none (by rw [List.length_range]; omega)]
    simp [hq]

theorem size_le (hlen : ws.length = numWords q) : q ≤ 64 * ws.length := by
  rw [hlen]
  unfold numWords kBitsPerWord
  omega

-- ======================================================== compare and swap

/-- What is left of the present attempt: a swap that fails is followed by
another read. -/
def phase (l : Setter) (s : Words) : Nat :=
  match l.todo, l.held with
  | [], _ => 0
  | _ :: _, none => 1
  | p :: _, some old => if s[wordOffset p]? = some old then 0 else 2

/-- An attempt has at most two accesses left. -/
theorem phase_le (l : Setter) (s : Words) : phase l s ≤ 2 := by
  unfold phase
  split
  · omega
  · omega
  · split <;> omega

/-- Before the read an attempt counts one. -/
theorem phase_none_le (id : Nat) (todo : List Nat) (s : Words) : phase ⟨id, todo, none⟩ s ≤ 1 := by
  cases todo with
  | nil => exact Nat.zero_le 1
  | cons p todo => exact Nat.le_refl 1

/-- Attempts fail only because bits get set. -/
theorem zeros_phase_set (hw : s[wordOffset p]? = some w) (l : Setter) :
    2 * zeros (s.set (wordOffset p) (w ||| bit p)) + phase l (s.set (wordOffset p) (w ||| bit p))
      ≤ 2 * zeros s + phase l s := by
  by_cases hset : isSet s p = true
  · rw [set_of_isSet hw hset]
  · have hlt := zeros_set_lt hw (Bool.not_eq_true _ ▸ hset)
    have hle := phase_le l (s.set (wordOffset p) (w ||| bit p))
    omega

theorem zeros_set_le (hw : s[wordOffset p]? = some w) :
    zeros (s.set (wordOffset p) (w ||| bit p)) ≤ zeros s := by
  by_cases hset : isSet s p = true
  · rw [set_of_isSet hw hset]
  · exact Nat.le_of_lt (zeros_set_lt hw (Bool.not_eq_true _ ▸ hset))

section Cas

variable {ps : List Nat} {share : Nat → List Nat}

/-- The bits that `casThreads` have still to set, with the attempts. -/
def casLeft (l : Setter) (s : Words) : Nat :=
  2 * l.todo.length + (2 * zeros s + phase l s)

/-- An access of `set_bit_atomic` keeps what the thread knows, and leaves
less to do. -/
theorem casNext_own {l l' : Setter} {s' : Words} (hps : ∀ i, ∀ p ∈ share i, p ∈ ps)
    (hinv : Spread ws ps s) (howes : Owes (share l.id) l s) (h : casNext l s = some (l', s')) :
    Spread ws ps s' ∧ Owes (share l'.id) l' s' ∧ l'.id = l.id ∧ casLeft l' s' < casLeft l s := by
  obtain ⟨p, todo, w, htodo, hw, hcases⟩ := casNext_cases h
  have hmem : p ∈ share l.id := howes.todo p (htodo ▸ List.mem_cons_self)
  rcases hcases with ⟨hheld, rfl, rfl⟩ | ⟨hheld, rfl, rfl⟩ | ⟨old, hheld, hne, rfl, rfl⟩
  · refine ⟨hinv, howes.held htodo _, rfl, ?_⟩
    simp only [casLeft, phase, htodo, hheld, hw]
    simp
  · refine ⟨hinv.set hw (hps _ p hmem), howes.tail htodo hw, rfl, ?_⟩
    have hzeros := zeros_set_le hw
    have hphase := phase_none_le l.id todo (s.set (wordOffset p) (w ||| bit p))
    simp only [casLeft, htodo, List.length_cons]
    omega
  · refine ⟨hinv, howes.held htodo _, rfl, ?_⟩
    simp only [casLeft, phase, htodo, hheld, hw, Option.some.injEq, if_neg (Ne.symm hne)]
    omega

/-- Another thread's access leaves no more to do. -/
theorem casNext_other {l m m' : Setter} {s' : Words} (howes : Owes (share l.id) l s)
    (h : casNext m s = some (m', s')) : Owes (share l.id) l s' ∧ casLeft l s' ≤ casLeft l s := by
  obtain ⟨p, todo, w, -, hw, hcases⟩ := casNext_cases h
  rcases hcases with ⟨-, -, rfl⟩ | ⟨-, -, rfl⟩ | ⟨-, -, -, -, rfl⟩
  · exact ⟨howes, Nat.le_refl _⟩
  · exact ⟨howes.set hw, Nat.add_le_add_left (zeros_phase_set hw l) _⟩
  · exact ⟨howes, Nat.le_refl _⟩

/-- The words of the bits are in the array. -/
theorem get_of_spread (hrange : ∀ p ∈ ps, p < 64 * ws.length) (hinv : Spread ws ps s)
    (hp : p ∈ ps) : ∃ w, s[wordOffset p]? = some w := by
  have hlt : wordOffset p < s.length := by
    have h := hrange p hp
    rw [← hinv.length] at h
    unfold wordOffset kBitsPerWord
    omega
  exact ⟨_, List.getElem?_eq_getElem hlt⟩

/-- A thread with bits to set is never stuck. -/
theorem casNext_moves {l : Setter} (hps : ∀ i, ∀ p ∈ share i, p ∈ ps)
    (hrange : ∀ p ∈ ps, p < 64 * ws.length) (hinv : Spread ws ps s)
    (howes : Owes (share l.id) l s) (hdone : l.todo.isEmpty = false) :
    ∃ l' s', casNext l s = some (l', s') := by
  obtain ⟨id, todo, held⟩ := l
  cases todo with
  | nil => cases hdone
  | cons p todo =>
      obtain ⟨w, hw⟩ := get_of_spread hrange hinv (hps id p (howes.todo p List.mem_cons_self))
      cases held with
      | none => exact ⟨⟨id, p :: todo, some w⟩, s, by rw [casNext, hw, Option.map_some]⟩
      | some old =>
          by_cases hold : w = old
          · exact ⟨⟨id, todo, none⟩, s.set (wordOffset p) (old ||| bit p),
              by rw [casNext, hw, Option.map_some, if_pos hold]⟩
          · exact ⟨⟨id, p :: todo, none⟩, s,
              by rw [casNext, hw, Option.map_some, if_neg hold]⟩

/-- Each thread of `QueueToBitmap` sets its share. -/
def casOutline (hps : ∀ i, ∀ p ∈ share i, p ∈ ps) (hrange : ∀ p ∈ ps, p < 64 * ws.length) :
    Outline casThreads Nat where
  tag := Setter.id
  inv := Spread ws ps
  asserts l s := Owes (share l.id) l s
  left := casLeft
  moves := casNext_moves hps hrange
  own := casNext_own hps
  other _ hl _ _ h := casNext_other hl h

end Cas

theorem Spread.refl (ws : Words) (ps : List Nat) : Spread ws ps ws :=
  ⟨rfl, fun _ hq => hq, fun _ hq => .inl hq⟩

theorem Owes.start (i : Nat) (share : List Nat) (s : Words) : Owes share ⟨i, share, none⟩ s :=
  ⟨fun _ hq => .inl hq, fun _ hq => hq⟩

/-- A thread's share is part of all shares. -/
theorem mem_flatten_of_getD {shares : List (List Nat)} {i : Nat} (h : p ∈ shares.getD i []) :
    p ∈ shares.flatten := by
  rw [List.getD_eq_getElem?_getD] at h
  cases hget : shares[i]? with
  | none =>
      rw [hget] at h
      cases h
  | some share =>
      rw [hget, Option.getD_some] at h
      exact List.mem_flatten_of_mem (List.mem_of_getElem? hget) h

/-- `QueueToBitmap` ends, and does to the bits what it does when each is
set in one step, whatever the threads do to each other's words. -/
theorem queueToBitmap_contents {size : Nat} {queue : List Nat}
    (hlen : ws.length = numWords size) (hlt : ∀ p ∈ queue, p < size) :
    Total (queueToBitmap queue) ws fun s => s.length = numWords size ∧
      ∀ v, Bfs.bit (contents size s) v ↔ Bfs.bit (contents size ws) v ∨ v ∈ queue := by
  refine total_fork ⟨_, [queue], by simp, rfl⟩ ?_
  rintro ts ⟨shares, hperm, rfl⟩
  have hps : ∀ i, ∀ p ∈ shares.getD i [], p ∈ shares.flatten := fun _ _ => mem_flatten_of_getD
  have hrange : ∀ p ∈ shares.flatten, p < 64 * ws.length :=
    fun p hp => Nat.lt_of_lt_of_le (hlt p (hperm.mem_iff.mp hp)) (size_le hlen)
  have hshared : ∀ p ∈ shares.flatten, ∃ i < shares.length, p ∈ shares.getD i [] :=
    fun p hp => exists_share (List.Perm.refl _) hp
  refine Outline.threads (casOutline hps hrange) (fun _ _ => rfl) (Spread.refl ws _)
    (fun i _ => Owes.start i _ ws) fun s hs hdone => ?_
  refine ⟨hs.length.trans hlen, fun v => ?_⟩
  have hbits := isSet_of_spread hs hshared (fun i hi => by
    obtain ⟨l, hid, howes, htodo⟩ := hdone i hi
    have hid : l.id = i := hid
    exact ⟨l, hid, hid ▸ howes, List.isEmpty_iff.mp htodo⟩) v
  rw [bit_contents, bit_contents, hbits, Bool.or_eq_true, decide_eq_true_eq, hperm.mem_iff]
  constructor
  · rintro ⟨hv, hmem | hold⟩
    · exact .inr hmem
    · exact .inl ⟨hv, hold⟩
  · rintro (⟨hv, hold⟩ | hmem)
    · exact ⟨hv, .inr hold⟩
    · exact ⟨hlt v hmem, .inl hmem⟩

/-- Three vertices, two of them in the same word. -/
theorem queueToBitmap_three : Total (queueToBitmap [70, 3, 64]) [0#64, 1#64] fun s =>
    s.length = numWords 100 ∧
      ∀ v, Bfs.bit (contents 100 s) v ↔ Bfs.bit (contents 100 [0#64, 1#64]) v ∨ v ∈ [70, 3, 64] :=
  queueToBitmap_contents rfl (by decide)

-- ============================================================ plain writes

section Plain

variable {ps : List Nat} {share : Nat → List Nat}

/-- A thread that holds a word holds it as it stands. -/
structure OwesHeld (share : List Nat) (l : Setter) (s : Words) : Prop where
  owes : Owes share l s
  held : ∀ p todo old, l.todo = p :: todo → l.held = some old → s[wordOffset p]? = some old

/-- The accesses that `setThreads` have still to make. -/
def setLeft (l : Setter) : Nat :=
  2 * l.todo.length + if l.held.isNone then 1 else 0

/-- An access of `set_bit` keeps what the thread knows, and leaves less to
do. -/
theorem setNext_own {l l' : Setter} {s' : Words} (hps : ∀ i, ∀ p ∈ share i, p ∈ ps)
    (hinv : Spread ws ps s) (howes : OwesHeld (share l.id) l s)
    (h : setNext l s = some (l', s')) :
    Spread ws ps s' ∧ OwesHeld (share l'.id) l' s' ∧ l'.id = l.id ∧ setLeft l' < setLeft l := by
  obtain ⟨p, todo, w, htodo, hw, hcases⟩ := setNext_cases h
  have hmem : p ∈ share l.id := howes.owes.todo p (htodo ▸ List.mem_cons_self)
  rcases hcases with ⟨hheld, rfl, rfl⟩ | ⟨old, hheld, rfl, rfl⟩
  · refine ⟨hinv, ⟨howes.owes.held htodo _, ?_⟩, rfl, ?_⟩
    · rintro p' todo' old hp hold
      cases hp
      cases hold
      exact hw
    · simp [setLeft, htodo, hheld]
  · have hold : old = w :=
      Option.some.inj ((howes.held p todo old htodo hheld).symm.trans hw)
    subst hold
    refine ⟨hinv.set hw (hps _ p hmem), ⟨howes.owes.tail htodo hw, ?_⟩, rfl, ?_⟩
    · rintro p' todo' old - hold
      cases hold
    · simp [setLeft, htodo, hheld]
      omega

/-- An access to other words keeps what the thread knows. -/
theorem setNext_other {l m m' : Setter} {s' : Words}
    (hapart : ∀ i j, i ≠ j → ∀ p ∈ share i, ∀ q ∈ share j, wordOffset p ≠ wordOffset q)
    (hl : OwesHeld (share l.id) l s) (hm : OwesHeld (share m.id) m s) (hne : l.id ≠ m.id)
    (h : setNext m s = some (m', s')) : OwesHeld (share l.id) l s' := by
  obtain ⟨p, todo, w, htodo, hw, hcases⟩ := setNext_cases h
  rcases hcases with ⟨-, -, rfl⟩ | ⟨old, hheld, -, rfl⟩
  · exact hl
  · have hold : old = w :=
      Option.some.inj ((hm.held p todo old htodo hheld).symm.trans hw)
    subst hold
    refine ⟨hl.owes.set hw, fun q rest held hq hheld => ?_⟩
    have hword : wordOffset p ≠ wordOffset q :=
      hapart m.id l.id (Ne.symm hne) p (hm.owes.todo p (htodo ▸ List.mem_cons_self))
        q (hl.owes.todo q (hq ▸ List.mem_cons_self))
    rw [List.getElem?_set_ne hword]
    exact hl.held q rest held hq hheld

/-- A thread with bits to set is never stuck. -/
theorem setNext_moves {l : Setter} (hps : ∀ i, ∀ p ∈ share i, p ∈ ps)
    (hrange : ∀ p ∈ ps, p < 64 * ws.length) (hinv : Spread ws ps s)
    (howes : Owes (share l.id) l s) (hdone : l.todo.isEmpty = false) :
    ∃ l' s', setNext l s = some (l', s') := by
  obtain ⟨id, todo, held⟩ := l
  cases todo with
  | nil => cases hdone
  | cons p todo =>
      obtain ⟨w, hw⟩ := get_of_spread hrange hinv (hps id p (howes.todo p List.mem_cons_self))
      cases held with
      | none => exact ⟨⟨id, p :: todo, some w⟩, s, by rw [setNext, hw, Option.map_some]⟩
      | some old =>
          have hlt := (List.getElem?_eq_some_iff.mp hw).1
          exact ⟨⟨id, todo, none⟩, s.set (wordOffset p) (old ||| bit p),
            by rw [setNext, if_pos hlt]⟩

/-- Each thread of `BUStep` sets its share, in words of its own. -/
def setOutline (hps : ∀ i, ∀ p ∈ share i, p ∈ ps) (hrange : ∀ p ∈ ps, p < 64 * ws.length)
    (hapart : ∀ i j, i ≠ j → ∀ p ∈ share i, ∀ q ∈ share j, wordOffset p ≠ wordOffset q) :
    Outline setThreads Nat where
  tag := Setter.id
  inv := Spread ws ps
  asserts l s := OwesHeld (share l.id) l s
  left l _ := setLeft l
  moves hinv howes hdone := setNext_moves hps hrange hinv howes.owes hdone
  own := setNext_own hps
  other _ hl hm hne h := ⟨setNext_other hapart hl hm hne h, Nat.le_refl _⟩

end Plain

-- ========================================================= words in common

/-- What ends well still does after a step. -/
theorem ends_of_step {σ : Type} {post : σ → Prop} {c c' : List (Prog σ) × σ}
    (h : Ends post c) (hstep : Step c c') : Ends post c' := by
  cases h with
  | finished => exact hstep.elim
  | step _ hall => exact hall c' hstep

section Common

variable {post : Words → Prop} {ts : List Setter} {i id : Nat} {todo : List Nat}

/-- The threads `ts` at work on `s`. -/
abbrev atWork (ts : List Setter) (s : Words) : List (Prog Words) × Words :=
  ([.running setThreads ts], s)

/-- A read. -/
theorem ends_read (h : Ends post (atWork ts s)) (hi : ts[i]? = some ⟨id, p :: todo, none⟩)
    (hw : s[wordOffset p]? = some w) :
    Ends post (atWork (ts.set i ⟨id, p :: todo, some w⟩) s) :=
  ends_of_step h (.inl ⟨i, _, ⟨id, p :: todo, some w⟩, s, hi,
    by simp only [setThreads, setNext, hw, Option.map_some], rfl⟩)

/-- A write of what was read. -/
theorem ends_write (h : Ends post (atWork ts s)) (hi : ts[i]? = some ⟨id, p :: todo, some w⟩)
    (hlt : wordOffset p < s.length) :
    Ends post (atWork (ts.set i ⟨id, todo, none⟩) (s.set (wordOffset p) (w ||| bit p))) :=
  ends_of_step h (.inl ⟨i, _, ⟨id, todo, none⟩, s.set (wordOffset p) (w ||| bit p), hi,
    by simp only [setThreads, setNext, if_pos hlt], rfl⟩)

/-- Both, with nobody in between. -/
theorem ends_turn (h : Ends post (atWork ts s)) (hi : ts[i]? = some ⟨id, p :: todo, none⟩)
    (hw : s[wordOffset p]? = some w) :
    Ends post (atWork (ts.set i ⟨id, todo, none⟩) (s.set (wordOffset p) (w ||| bit p))) := by
  have hlen := (List.getElem?_eq_some_iff.mp hi).1
  have hread : (ts.set i ⟨id, p :: todo, some w⟩)[i]? = some ⟨id, p :: todo, some w⟩ :=
    List.getElem?_set_self hlen
  have h' := ends_write (ends_read h hi hw) hread (List.getElem?_eq_some_iff.mp hw).1
  rwa [List.set_set] at h'

theorem get_of_lt (hp : p < 64 * s.length) : ∃ w, s[wordOffset p]? = some w :=
  get_of_spread (fun _ hq => List.mem_singleton.mp hq ▸ hp) (Spread.refl s [p])
    (List.mem_singleton_self p)

/-- A thread can set some of its bits while the others wait. -/
theorem ends_alone (front : List Nat) : ∀ {ts : List Setter} {s : Words},
    Ends post (atWork ts s) → ts[i]? = some ⟨id, front ++ todo, none⟩ →
    (∀ v ∈ front, v < 64 * s.length) →
    ∃ s', Ends post (atWork (ts.set i ⟨id, todo, none⟩) s') ∧ s'.length = s.length
      ∧ ∀ v, isSet s' v = true → isSet s v = true ∨ v ∈ front := by
  induction front with
  | nil =>
      intro ts s h hi _
      obtain ⟨hlen, hget⟩ := List.getElem?_eq_some_iff.mp hi
      refine ⟨s, ?_, rfl, fun v hv => .inl hv⟩
      have hsame : ts.set i ⟨id, todo, none⟩ = ts := by
        rw [← List.nil_append todo, ← hget]
        exact List.set_getElem_self hlen
      rwa [hsame]
  | cons p front ih =>
      intro ts s h hi hrange
      have hlen := (List.getElem?_eq_some_iff.mp hi).1
      obtain ⟨w, hw⟩ := get_of_lt (hrange p List.mem_cons_self)
      have hset : (s.set (wordOffset p) (w ||| bit p)).length = s.length := List.length_set
      obtain ⟨s', h', hlen', hbits⟩ := ih (ends_turn h hi hw) (List.getElem?_set_self hlen)
        (fun v hv => hset.symm ▸ hrange v (List.mem_cons_of_mem p hv))
      rw [List.set_set] at h'
      refine ⟨s', h', hlen'.trans hset, fun v hv => ?_⟩
      cases hbits v hv with
      | inr hmem => exact .inr (List.mem_cons_of_mem p hmem)
      | inl hold =>
          rw [isSet_set hw, Bool.or_eq_true, decide_eq_true_eq] at hold
          cases hold with
          | inl heq => exact .inr (heq ▸ List.mem_cons_self)
          | inr hold => exact .inl hold

/-- A bit that is in nobody's share can stay as it is. -/
theorem exists_end_clear (n : Nat) : ∀ {ts : List Setter} {s : Words},
    (ts.map fun l => l.todo.length).sum = n → Ends post (atWork ts s) →
    (∀ l ∈ ts, l.held = none ∧ ∀ v ∈ l.todo, v < 64 * s.length ∧ v ≠ q) →
    isSet s q = false → ∃ s', post s' ∧ isSet s' q = false := by
  induction n using Nat.strong_induction_on with
  | _ n ih =>
      intro ts s hn h hts hq
      by_cases hdone : ∀ l ∈ ts, l.todo.isEmpty = true
      · have hend := ends_of_step h (.inr ⟨hdone, rfl⟩)
        cases hend with
        | finished hpost => exact ⟨s, hpost, hq⟩
        | step hex => exact hex.elim fun _ hstep => hstep.elim
      · push Not at hdone
        obtain ⟨⟨id, todo, held⟩, hl, htodo⟩ := hdone
        obtain ⟨i, hi⟩ := List.mem_iff_getElem?.mp hl
        obtain ⟨hheld, hrange⟩ := hts _ hl
        have hheld : held = none := hheld
        subst hheld
        cases todo with
        | nil => exact absurd rfl htodo
        | cons p todo =>
            obtain ⟨hp, hpq⟩ := hrange p List.mem_cons_self
            obtain ⟨w, hw⟩ := get_of_lt hp
            have hless : ((ts.set i ⟨id, todo, none⟩).map fun l => l.todo.length).sum < n := by
              rw [← hn]
              exact sum_set_lt hi (Nat.lt_succ_self _) fun _ _ _ _ => Nat.le_refl _
            refine ih _ hless rfl (ends_turn h hi hw) (fun l hl => ?_) ?_
            · rw [List.length_set]
              cases List.mem_or_eq_of_mem_set hl with
              | inl hmem => exact hts l hmem
              | inr heq =>
                  subst heq
                  exact ⟨rfl, fun v hv => hrange v (List.mem_cons_of_mem p hv)⟩
            · rw [isSet_set hw, hq, Bool.or_false]
              exact decide_eq_false (Ne.symm hpq)

/-- A bit is lost when another thread writes to the word what it read
before. -/
theorem exists_lost {j : Nat} {l m : Setter} (hne : i ≠ j) (hi : ts[i]? = some l)
    (hj : ts[j]? = some m) (hp : p ∈ l.todo) (hword : wordOffset p = wordOffset q)
    (hts : ∀ k l, ts[k]? = some l →
      l.held = none ∧ ∀ v ∈ l.todo, v < 64 * s.length ∧ (k ≠ j → v ≠ q))
    (hclear : isSet s q = false) (h : Ends post (atWork ts s)) :
    ∃ s', post s' ∧ isSet s' q = false := by
  obtain ⟨id, todo, held⟩ := l
  obtain ⟨jd, share, held'⟩ := m
  have hheld : held = none := (hts i _ hi).1
  have hheld' : held' = none := (hts j _ hj).1
  subst hheld hheld'
  obtain ⟨front, back, heq⟩ := List.append_of_mem hp
  have heq : todo = front ++ p :: back := heq
  subst heq
  have hown := (hts i _ hi).2
  have hilen := (List.getElem?_eq_some_iff.mp hi).1
  -- the first thread gets to `p` and reads
  obtain ⟨s₁, h₁, hlen₁, hbits₁⟩ := ends_alone front h hi
    (fun v hv => (hown v (List.mem_append_left _ hv)).1)
  have hq₁ : isSet s₁ q = false := by
    rw [← Bool.not_eq_true]
    intro hset
    cases hbits₁ q hset with
    | inl hold =>
        rw [hclear] at hold
        cases hold
    | inr hmem => exact (hown q (List.mem_append_left _ hmem)).2 hne rfl
  obtain ⟨w, hw⟩ := get_of_lt (hlen₁.symm ▸ (hown p hp).1)
  have hwq : w.getLsbD (q % 64) = false := (isSet_of_get (hword ▸ hw)).symm.trans hq₁
  have h₂ := ends_read h₁ (List.getElem?_set_self hilen) hw
  rw [List.set_set] at h₂
  -- the second sets all its bits
  have hj₂ : (ts.set i ⟨id, p :: back, some w⟩)[j]? = some ⟨jd, share ++ [], none⟩ := by
    rw [List.getElem?_set_ne hne, hj, List.append_nil]
  obtain ⟨s₃, h₃, hlen₃, -⟩ := ends_alone share h₂ hj₂
    (fun v hv => hlen₁.symm ▸ ((hts j _ hj).2 v hv).1)
  have hlt₃ : wordOffset p < s₃.length := by
    rw [hlen₃]
    exact (List.getElem?_eq_some_iff.mp hw).1
  have hi₃ : ((ts.set i ⟨id, p :: back, some w⟩).set j ⟨jd, [], none⟩)[i]?
      = some ⟨id, p :: back, some w⟩ := by
    rw [List.getElem?_set_ne hne.symm, List.getElem?_set_self hilen]
  -- the first writes
  refine exists_end_clear _ rfl (ends_write h₃ hi₃ hlt₃) (fun l hl => ?_) ?_
  · rw [List.length_set, hlen₃, hlen₁]
    obtain ⟨k, hk⟩ := List.mem_iff_getElem?.mp hl
    by_cases hki : k = i
    · have hlen : i < ((ts.set i ⟨id, p :: back, some w⟩).set j ⟨jd, [], none⟩).length := by
        rwa [List.length_set, List.length_set]
      rw [hki, List.getElem?_set_self hlen] at hk
      cases hk
      refine ⟨rfl, fun v hv => ?_⟩
      have hmem := hown v (List.mem_append_right _ (List.mem_cons_of_mem p hv))
      exact ⟨hmem.1, hmem.2 hne⟩
    · by_cases hkj : k = j
      · have hlen := (List.getElem?_eq_some_iff.mp hj₂).1
        rw [hkj, List.getElem?_set_ne hne, List.getElem?_set_self hlen] at hk
        cases hk
        exact ⟨rfl, fun v hv => by cases hv⟩
      · rw [List.getElem?_set_ne (Ne.symm hki), List.getElem?_set_ne (Ne.symm hkj),
          List.getElem?_set_ne (Ne.symm hki)] at hk
        obtain ⟨hheld, hrange⟩ := hts k l hk
        exact ⟨hheld, fun v hv => ⟨(hrange v hv).1, (hrange v hv).2 hkj⟩⟩
  · have hget : (s₃.set (wordOffset p) (w ||| bit p))[wordOffset q]? = some (w ||| bit p) := by
      rw [← hword, List.getElem?_set_self hlt₃]
    rw [isSet_of_get hget, getLsbD_or_bit, hwq, Bool.or_false]
    refine decide_eq_false fun heq => ?_
    have hpq : p = q := by
      unfold wordOffset kBitsPerWord at hword
      omega
    exact (hown p hp).2 hne hpq

end Common

/-- From words in which none of the bits is set, `set_bit` sets all bits
of all shares in every run exactly when no word is in the shares of two
threads. -/
theorem setBits_iff {shares : List (List Nat)} (hnodup : shares.flatten.Nodup)
    (hrange : ∀ p ∈ shares.flatten, p < 64 * ws.length)
    (hclear : ∀ p ∈ shares.flatten, isSet ws p = false) :
    Total (.running setThreads (shares.mapIdx fun id share => ⟨id, share, none⟩)) ws
        (fun s => ∀ p ∈ shares.flatten, isSet s p = true)
      ↔ ∀ i j, i ≠ j → ∀ p ∈ shares.getD i [], ∀ q ∈ shares.getD j [],
          wordOffset p ≠ wordOffset q := by
  constructor
  · intro h i j hne p hp q hq hword
    have hmem := mem_flatten_of_getD hq
    have hs := shares_of_perm hnodup (List.Perm.refl _)
    have hget : ∀ k v, v ∈ shares.getD k [] →
        (shares.mapIdx fun id share => (⟨id, share, none⟩ : Setter))[k]?
          = some ⟨k, shares.getD k [], none⟩ := by
      intro k v hv
      rw [List.getElem?_mapIdx]
      rw [List.getD_eq_getElem?_getD] at hv ⊢
      cases hk : shares[k]? with
      | none =>
          rw [hk] at hv
          cases hv
      | some share => rfl
    have hts : ∀ k l, (shares.mapIdx fun id share => (⟨id, share, none⟩ : Setter))[k]? = some l →
        l.held = none ∧ ∀ v ∈ l.todo, v < 64 * ws.length ∧ (k ≠ j → v ≠ q) := by
      intro k l hl
      rw [List.getElem?_mapIdx] at hl
      obtain ⟨share, hshare, rfl⟩ := Option.map_eq_some_iff.mp hl
      refine ⟨rfl, fun v hv => ?_⟩
      have hv : v ∈ shares.getD k [] := by
        rw [List.getD_eq_getElem?_getD, hshare]
        exact hv
      refine ⟨hrange v (mem_flatten_of_getD hv), fun hkj heq => ?_⟩
      exact hs.disjoint k j hkj v hv (heq ▸ hq)
    obtain ⟨s', hset, hlost⟩ := exists_lost hne (hget i p hp) (hget j q hq) hp hword hts
      (hclear q hmem) h.ends
    rw [hset q hmem] at hlost
    cases hlost
  · intro hapart
    have hps : ∀ i, ∀ p ∈ shares.getD i [], p ∈ shares.flatten := fun _ _ => mem_flatten_of_getD
    refine Outline.threads (setOutline hps hrange hapart) (fun _ _ => rfl) (Spread.refl ws _)
      (fun i _ => ⟨Owes.start i _ ws, fun _ _ _ _ h => by cases h⟩) fun s hs hdone p hp => ?_
    obtain ⟨i, hi, hmem⟩ := exists_share (List.Perm.refl _) hp
    obtain ⟨l, rfl, howes, htodo⟩ := hdone i hi
    have htodo : l.todo = [] := List.isEmpty_iff.mp htodo
    cases howes.owes.done p hmem with
    | inl h =>
        rw [htodo] at h
        cases h
    | inr h => exact h

/-- Two threads, the bits of which are in different words. -/
theorem setBits_iff_three :
    Total (.running setThreads ([[3], [64, 70]].mapIdx fun id share => ⟨id, share, none⟩))
        [0#64, 0#64] (fun s => ∀ p ∈ [3, 64, 70], isSet s p = true)
      ↔ ∀ i j, i ≠ j → ∀ p ∈ [[3], [64, 70]].getD i [], ∀ q ∈ [[3], [64, 70]].getD j [],
          wordOffset p ≠ wordOffset q :=
  setBits_iff (by decide) (by decide) (by decide)

-- ============================================================== the chunks

/-- A chunk has the vertices of one block of 1024. -/
theorem mem_chunk {numNodes k : Nat} : q ∈ chunk numNodes k ↔ q / 1024 = k ∧ q < numNodes := by
  rw [chunk, List.mem_range'_1]
  unfold chunkSize
  omega

/-- The vertices that wake up in some chunks. -/
theorem mem_awakeIn {numNodes : Nat} {awake : Nat → Bool} {chunks : List Nat} :
    q ∈ awakeIn numNodes awake chunks
      ↔ q / 1024 ∈ chunks ∧ q < numNodes ∧ awake q = true := by
  rw [awakeIn, List.mem_filter, List.mem_flatMap]
  constructor
  · rintro ⟨⟨k, hk, hq⟩, hawake⟩
    obtain ⟨rfl, hlt⟩ := mem_chunk.mp hq
    exact ⟨hk, hlt, hawake⟩
  · rintro ⟨hk, hlt, hawake⟩
    exact ⟨⟨_, hk, mem_chunk.mpr ⟨rfl, hlt⟩⟩, hawake⟩

/-- A word is within a chunk, and a chunk is one thread's. -/
theorem awakeIn_apart {numNodes : Nat} {awake : Nat → Bool} {shares : List (List Nat)}
    {ks : List Nat} (hs : Shares ks fun i => shares.getD i []) (i j : Nat) (hne : i ≠ j)
    (p : Nat) (hp : p ∈ awakeIn numNodes awake (shares.getD i []))
    (q : Nat) (hq : q ∈ awakeIn numNodes awake (shares.getD j [])) :
    wordOffset p ≠ wordOffset q := by
  intro heq
  have hchunk : p / 1024 = q / 1024 := by
    unfold wordOffset kBitsPerWord at heq
    omega
  have hi := (mem_awakeIn.mp hp).1
  have hj := (mem_awakeIn.mp hq).1
  rw [hchunk] at hi
  exact hs.disjoint i j hne _ hi hj

theorem length_reset (ws : Words) : (reset ws).length = ws.length :=
  List.length_map _

theorem isSet_reset (ws : Words) (q : Nat) : isSet (reset ws) q = false := by
  rw [isSet, getBit, reset, List.getElem?_map]
  cases ws[wordOffset q]? with
  | none => rfl
  | some w =>
      rw [Option.map_some, Option.map_some, Option.getD_some]
      simp

/-- `next` ends as the set of the vertices that have woken up, however the
chunks are dealt out, though its words are written without any care for
other threads. -/
theorem setAwake_contents {numNodes : Nat} {awake : Nat → Bool}
    (hlen : ws.length = numWords numNodes) :
    Total (setAwake numNodes awake) ws fun s => s.length = numWords numNodes ∧
      contents numNodes s = (List.range numNodes).map awake := by
  refine Total.seq (q := fun s => s = reset ws) ?_ ?_
  · exact total_act ⟨_, rfl⟩ fun s hs => hs
  rintro s rfl
  refine total_fork ⟨_, [List.range ((numNodes + chunkSize - 1) / chunkSize)], by simp, rfl⟩ ?_
  rintro ts ⟨shares, hperm, rfl⟩
  have hfits : numNodes ≤ 64 * (reset ws).length := size_le ((length_reset ws).trans hlen)
  -- the bits to be set
  have hps : ∀ i, ∀ p ∈ awakeIn numNodes awake (shares.getD i []),
      p ∈ (List.range numNodes).filter awake := by
    intro i p hp
    obtain ⟨-, hlt, hawake⟩ := mem_awakeIn.mp hp
    exact List.mem_filter.mpr ⟨List.mem_range.mpr hlt, hawake⟩
  have hrange : ∀ p ∈ (List.range numNodes).filter awake, p < 64 * (reset ws).length :=
    fun p hp => Nat.lt_of_lt_of_le (List.mem_range.mp (List.mem_filter.mp hp).1) hfits
  have hall : ∀ p ∈ (List.range numNodes).filter awake,
      ∃ i < shares.length, p ∈ awakeIn numNodes awake (shares.getD i []) := by
    intro p hp
    obtain ⟨hlt, hawake⟩ := List.mem_filter.mp hp
    have hlt := List.mem_range.mp hlt
    have hchunk : p / 1024 ∈ List.range ((numNodes + chunkSize - 1) / chunkSize) := by
      refine List.mem_range.mpr ?_
      unfold chunkSize
      omega
    obtain ⟨i, hi, hmem⟩ := exists_share hperm hchunk
    exact ⟨i, hi, mem_awakeIn.mpr ⟨hmem, hlt, hawake⟩⟩
  have hs := shares_of_perm List.nodup_range hperm
  refine Outline.threads (setOutline hps hrange (awakeIn_apart hs))
    (fun _ _ => rfl) (Spread.refl _ _)
    (fun i _ => ⟨Owes.start i _ _, fun _ _ _ _ h => by cases h⟩) fun s hs hdone => ?_
  refine ⟨hs.length.trans ((length_reset ws).trans hlen), ?_⟩
  refine List.map_congr_left fun q hq => ?_
  have hlt := List.mem_range.mp hq
  have hbits := isSet_of_spread hs hall (fun i hi => by
    obtain ⟨l, hid, howes, htodo⟩ := hdone i hi
    have hid : l.id = i := hid
    exact ⟨l, hid, hid ▸ howes.owes, List.isEmpty_iff.mp htodo⟩) q
  rw [isSet_reset, Bool.or_false] at hbits
  calc (getBit s q).getD false = isSet s q := rfl
    _ = decide (q ∈ (List.range numNodes).filter awake) := hbits
    _ = awake q := by simp [hlt]

/-- The even ones of 100 vertices. -/
theorem setAwake_hundred : Total (setAwake 100 fun u => u % 2 == 0) [7, 7] fun s =>
    s.length = numWords 100 ∧ contents 100 s = (List.range 100).map fun u => u % 2 == 0 :=
  setAwake_contents rfl

end ThesisBench.Gapbs.Bitmap
