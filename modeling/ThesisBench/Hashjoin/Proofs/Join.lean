/-
The buckets the build loop makes, and what the probes count.

After `n` elements every bucket's chain holds those of them that hash
there, newest first; the element the next round writes is in no chain yet,
so the chains stay as they are but for one new head. A probe then counts
what the two chains of its key hold, and as the counters only add, the
split of a pass among threads does not show.

All this needs the arrays to have the elements that were asked for. Each
loop visits all of them, so a product that wraps around makes it leave its
array, or leaves buckets without a slot.
-/
import ThesisBench.Hashjoin.Hashjoin
import ThesisBench.Lib.Slots
import ThesisBench.Lib.While
import Mathlib.Data.BitVec
import Mathlib.Data.Finset.Card

namespace ThesisBench.Hashjoin

open Linked

variable {murmur : Murmur} {hashsize innersize outersize : Nat}

-- =========================================================== allocation

/-- The memory has all elements exactly when their bytes fit `size_t`. -/
theorem le_room_iff {n size : Nat} (hsize : 0 < size) :
    n ≤ room n size ↔ n * size < 2 ^ 64 := by
  rw [room, Nat.le_div_iff_mul_le hsize]
  constructor
  · intro h
    exact h.trans_lt (Nat.mod_lt _ (Nat.two_pow_pos 64))
  · intro h
    rw [Nat.mod_eq_of_lt h]

theorem room_eq {n size : Nat} (hsize : 0 < size) (h : n * size < 2 ^ 64) : room n size = n := by
  rw [room, Nat.mod_eq_of_lt h, Nat.mul_div_cancel n hsize]

-- ================================================================ build

theorem innerKey_toNat {i : Nat} (h : 4 * (i + 1) < 2 ^ 64) :
    (innerKey i).toNat = 4 * (i + 1) := by
  unfold innerKey
  rw [BitVec.toNat_mul, BitVec.toNat_ofNat]
  change (i + 1) % 2 ^ 64 * 4 % 2 ^ 64 = 4 * (i + 1)
  omega

/-- One more element goes to the head of its bucket. -/
theorem bucket_succ (n b : Nat) :
    bucket murmur hashsize (n + 1) b
      = if bucketOf murmur hashsize (innerKey n) = b then n :: bucket murmur hashsize n b
        else bucket murmur hashsize n b := by
  unfold bucket
  rw [List.range_succ, List.reverse_append, List.reverse_singleton, List.singleton_append,
    List.filter_cons]
  simp only [decide_eq_true_eq]

/-- A bucket has the elements that hash to it. -/
theorem mem_bucket {n b i : Nat} : i ∈ bucket murmur hashsize n b
    ↔ i < n ∧ bucketOf murmur hashsize (innerKey i) = b := by
  unfold bucket
  simp

/-- A round of the build loop, with the two accesses inside. -/
def Memory.link (m : Memory) (i : Nat) (key : Word) (idx : Nat) : Memory where
  htelms := m.htelms.set i ⟨key, m.head idx⟩
  hashtable := m.hashtable.set idx (some i)
  nconflicts := m.nconflicts + if (m.head idx).isSome then 1 else 0

/-- A round whose accesses are inside the arrays. -/
theorem insertElement_eq {m : Memory} {i : Nat}
    (hidx : bucketOf murmur hashsize (innerKey i) < m.hashtable.length)
    (hi : i < m.htelms.length) : insertElement murmur hashsize m i
      = some (m.link i (innerKey i) (bucketOf murmur hashsize (innerKey i))) := by
  unfold insertElement Memory.link Memory.head
  simp only [List.getElem?_eq_getElem hidx, Option.bind_eq_bind, Option.bind_some, if_pos hi,
    List.getD_eq_getElem?_getD, Option.getD_some]

/-- A round that gets through had its element, and leaves the arrays as
long as they were. -/
theorem insertElement_spec {m m' : Memory} {i : Nat}
    (h : insertElement murmur hashsize m i = some m') :
    i < m.htelms.length ∧ m'.htelms.length = m.htelms.length
      ∧ m'.hashtable.length = m.hashtable.length := by
  obtain ⟨head, -, h⟩ := Option.bind_eq_some_iff.mp h
  obtain ⟨hi, heq⟩ := Option.ite_none_right_eq_some.mp h
  cases heq
  exact ⟨hi, List.length_set, List.length_set⟩

variable {m : Memory} {n : Nat}

theorem Memory.elem_link {i : Nat} {key : Word} {idx : Nat} (hi : i < m.htelms.length)
    (j : Nat) : (m.link i key idx).elem j = if j = i then ⟨key, m.head idx⟩ else m.elem j :=
  Slots.getD_set hi _ _ j

theorem Memory.head_link {i : Nat} {key : Word} {idx : Nat} (hidx : idx < m.hashtable.length)
    (b : Nat) : (m.link i key idx).head b = if b = idx then some i else m.head b :=
  Slots.getD_set hidx _ _ b

/-- The memory after `n` rounds of the build loop. -/
structure Built (murmur : Murmur) (hashsize n : Nat) (m : Memory) : Prop where
  slots : m.hashtable.length = hashsize
  keys : ∀ i < n, (m.elem i).key = innerKey i
  chains : ∀ b, Chain m.next (m.head b) (bucket murmur hashsize n b)
  conflicts : m.nconflicts + BitVec.ofNat 64 (m.occupied hashsize) = BitVec.ofNat 64 n

/-- Before the first round all buckets are empty. -/
theorem built_allocated (hroom : hashsize * 8 < 2 ^ 64) :
    Built murmur hashsize 0 (Memory.allocated hashsize innersize) := by
  have hhead : ∀ b, (Memory.allocated hashsize innersize).head b = none := by
    intro b
    unfold Memory.head Memory.allocated
    rw [List.getD_eq_getElem?_getD, List.getElem?_replicate]
    split <;> rfl
  refine ⟨?_, fun i hi => absurd hi (Nat.not_lt_zero i), fun b => ?_, ?_⟩
  · unfold Memory.allocated
    rw [List.length_replicate, room_eq (by decide) hroom]
  · rw [hhead]
    exact .nil
  · unfold Memory.occupied
    simp only [hhead, ne_eq, not_true_eq_false, Finset.filter_false, Finset.card_empty]
    rfl

/-- The non-empty buckets after one more element. -/
theorem occupied_link {i : Nat} {key : Word} {idx : Nat} (hidx : idx < m.hashtable.length)
    (hlt : idx < hashsize) :
    ((Finset.range hashsize).filter fun b => (m.link i key idx).head b ≠ none)
      = insert idx ((Finset.range hashsize).filter fun b => m.head b ≠ none) := by
  ext b
  simp only [Finset.mem_filter, Finset.mem_range, Finset.mem_insert, m.head_link hidx]
  by_cases hb : b = idx
  · subst hb
    simp [hlt]
  · simp [hb]

section Insert

variable (h : Built murmur hashsize n m) (hpos : 0 < hashsize) (hn : n < m.htelms.length)

include h hpos hn

omit hn in
theorem Built.bucketOf_lt (key : Word) : bucketOf murmur hashsize key < m.hashtable.length := by
  rw [h.slots]
  exact Nat.mod_lt _ hpos

/-- A round puts its element at the head of one chain. -/
theorem Built.chains_link (b : Nat) :
    Chain (m.link n (innerKey n) (bucketOf murmur hashsize (innerKey n))).next
      ((m.link n (innerKey n) (bucketOf murmur hashsize (innerKey n))).head b)
      (bucket murmur hashsize (n + 1) b) := by
  generalize hidx : bucketOf murmur hashsize (innerKey n) = idx
  have hlt : idx < m.hashtable.length := hidx ▸ h.bucketOf_lt hpos (innerKey n)
  -- the new element's own link is the only one that is written
  have hframe : Chain (m.link n (innerKey n) idx).next (m.head b)
      (bucket murmur hashsize n b) := by
    refine (h.chains b).frame fun i hi => ?_
    have hne : i ≠ n := by
      have := (mem_bucket.mp hi).1
      omega
    rw [Memory.next, Memory.next, m.elem_link hn, if_neg hne]
  rw [bucket_succ, hidx, m.head_link hlt]
  by_cases hb : idx = b
  · rw [if_pos hb, if_pos hb.symm]
    apply Chain.cons
    rw [Memory.next, m.elem_link hn, if_pos rfl, hb]
    rw [hb] at hframe
    exact hframe
  · rw [if_neg hb, if_neg (Ne.symm hb)]
    exact hframe

omit hn in
/-- A bucket that had elements is a conflict; an empty one becomes
non-empty. -/
theorem Built.conflicts_link :
    (m.link n (innerKey n) (bucketOf murmur hashsize (innerKey n))).nconflicts
      + BitVec.ofNat 64
          ((m.link n (innerKey n) (bucketOf murmur hashsize (innerKey n))).occupied hashsize)
      = BitVec.ofNat 64 (n + 1) := by
  generalize hidx : bucketOf murmur hashsize (innerKey n) = idx
  have hlt : idx < m.hashtable.length := hidx ▸ h.bucketOf_lt hpos (innerKey n)
  have hlt' : idx < hashsize := h.slots ▸ hlt
  have hcount : (m.link n (innerKey n) idx).nconflicts
      = m.nconflicts + if (m.head idx).isSome then 1 else 0 := rfl
  have hbefore := h.conflicts
  unfold Memory.occupied at hbefore ⊢
  rw [occupied_link hlt hlt', hcount, BitVec.ofNat_add, ← hbefore]
  by_cases hb : (m.head idx).isSome
  · rw [if_pos hb, Finset.insert_eq_of_mem]
    · exact add_right_comm _ _ _
    · simpa [hlt', Option.isSome_iff_ne_none] using hb
  · rw [if_neg hb, Finset.card_insert_of_notMem, BitVec.ofNat_add]
    · exact (congrArg (· + _) (add_zero _)).trans (add_assoc _ _ _).symm
    · simpa [hlt', Option.isSome_iff_ne_none] using hb

/-- A round keeps the account of elements, chains and conflicts. -/
theorem Built.link :
    Built murmur hashsize (n + 1)
      (m.link n (innerKey n) (bucketOf murmur hashsize (innerKey n))) where
  slots := List.length_set.trans h.slots
  keys i hi := by
    rw [m.elem_link hn]
    split
    case isTrue hin => rw [hin]
    case isFalse hin => exact h.keys i (by omega)
  chains := h.chains_link hpos hn
  conflicts := h.conflicts_link hpos

end Insert

/-- With room the build loop gets through all its rounds. -/
theorem built_build (murmur : Murmur) (hpos : 0 < hashsize) (hroom : hashsize * 8 < 2 ^ 64)
    (helms : innersize * 16 < 2 ^ 64) :
    ∃ m, build murmur hashsize innersize = some m ∧ Built murmur hashsize innersize m := by
  have hempty : (Memory.allocated hashsize innersize).htelms.length = innersize := by
    unfold Memory.allocated
    rw [List.length_replicate, room_eq (by decide) helms]
  obtain ⟨m, hm, -, hbuilt⟩ := While.count_total (n := innersize)
    (insertElement murmur hashsize)
    (fun n m => m.htelms.length = innersize ∧ Built murmur hashsize n m)
    ⟨hempty, built_allocated hroom⟩ fun n hn m ⟨hlen, hbuilt⟩ => by
      have hlt : n < m.htelms.length := hlen ▸ hn
      exact ⟨_, insertElement_eq (hbuilt.bucketOf_lt hpos _) hlt,
        List.length_set.trans hlen, hbuilt.link hpos hlt⟩
  exact ⟨m, hm, hbuilt⟩

/-- A build loop that gets through had room for all elements. -/
theorem room_of_build (h : build murmur hashsize innersize = some m) :
    innersize * 16 < 2 ^ 64 ∧ m.hashtable.length = room hashsize 8 := by
  obtain ⟨hle, -, hslots⟩ := While.count_invariant
    (insertElement murmur hashsize)
    (fun n m => n ≤ room innersize 16 ∧ m.htelms.length = room innersize 16
      ∧ m.hashtable.length = room hashsize 8)
    ⟨Nat.zero_le _, List.length_replicate, List.length_replicate⟩
    (fun i m m' ⟨_, helms, hslots⟩ hround => by
      obtain ⟨hi, helms', hslots'⟩ := insertElement_spec hround
      exact ⟨by omega, helms'.trans helms, hslots'.trans hslots⟩) h
  exact ⟨(le_room_iff (by decide)).mp hle, hslots⟩

/-- The counter does not wrap: it counts elements. -/
theorem Built.nconflicts_toNat (h : Built murmur hashsize n m)
    (hle : m.occupied hashsize ≤ n) (hn : n < 2 ^ 64) :
    m.nconflicts.toNat = n - m.occupied hashsize := by
  have hc := congrArg BitVec.toNat h.conflicts
  have hlt := m.nconflicts.isLt
  rw [BitVec.toNat_add, BitVec.toNat_ofNat, BitVec.toNat_ofNat] at hc
  omega

/-- Every non-empty bucket has an element of its own. -/
theorem Built.occupied_le (h : Built murmur hashsize n m) : m.occupied hashsize ≤ n := by
  have hsub : ((Finset.range hashsize).filter fun b => m.head b ≠ none)
      ⊆ (Finset.range n).image fun i => bucketOf murmur hashsize (innerKey i) := by
    intro b hb
    have hne : bucket murmur hashsize n b ≠ [] := by
      rw [ne_eq, (h.chains b).eq_nil_iff]
      exact (Finset.mem_filter.mp hb).2
    obtain ⟨i, hi⟩ := List.exists_mem_of_ne_nil _ hne
    obtain ⟨hin, hib⟩ := mem_bucket.mp hi
    exact Finset.mem_image.mpr ⟨i, Finset.mem_range.mpr hin, hib⟩
  calc _ ≤ _ := Finset.card_le_card hsub
    _ ≤ (Finset.range n).card := Finset.card_image_le
    _ = n := Finset.card_range n

/-- A bucket's slot. -/
theorem Built.getElem?_hashtable (h : Built murmur hashsize n m) {b : Nat} (hb : b < hashsize) :
    m.hashtable[b]? = some (m.head b) := by
  have hlt : b < m.hashtable.length := h.slots.symm ▸ hb
  rw [Memory.head, List.getD_eq_getElem?_getD, List.getElem?_eq_getElem hlt, Option.getD_some]

-- ============================================================ outer table

/-- The outer table's keys. -/
theorem fillTable_eq (hroom : outersize * 128 < 2 ^ 64) :
    ∃ table, fillTable outersize = some table
      ∧ ∀ i < outersize, table[i]? = some (outerKey i) := by
  obtain ⟨table, htable, -, hkeys⟩ := While.count_total (n := outersize) fillElement
    (fun n table => table.length = outersize ∧ ∀ i < n, table[i]? = some (outerKey i))
    ⟨List.length_replicate.trans (room_eq (by decide) hroom),
      fun i hi => absurd hi (Nat.not_lt_zero i)⟩ fun n hn table ⟨hlen, hkeys⟩ => by
      have hlt : n < table.length := hlen ▸ hn
      refine ⟨table.set n (outerKey n), if_pos hlt, List.length_set.trans hlen, fun i hi => ?_⟩
      rw [List.getElem?_set]
      split
      case isTrue hni =>
        subst hni
        rfl
      case isFalse hni => exact hkeys i (by omega)
  exact ⟨table, htable, hkeys⟩

/-- A loop that gets through had room for all keys. -/
theorem room_of_fillTable {table : List Word} (h : fillTable outersize = some table) :
    outersize * 128 < 2 ^ 64 := by
  obtain ⟨hle, -⟩ := While.count_invariant fillElement
    (fun n table => n ≤ room outersize 128 ∧ table.length = room outersize 128)
    ⟨Nat.zero_le _, List.length_replicate⟩
    (fun i table table' ⟨_, hlen⟩ hround => by
      obtain ⟨hi, heq⟩ := Option.ite_none_right_eq_some.mp hround
      cases heq
      exact ⟨by omega, List.length_set.trans hlen⟩) h
  exact (le_room_iff (by decide)).mp hle

-- ================================================================ probe

/-- The key of an element, for a key of the outer table. -/
theorem innerKey_eq_outerKey {i k : Nat} (hi : i < 2 ^ 64) (hk : 4 * (k + 1) < 2 ^ 64) :
    innerKey k = outerKey i ↔ i = 4 * (k + 1) := by
  have h1 := innerKey_toNat hk
  have h2 : (outerKey i).toNat = i := by
    unfold outerKey
    rw [BitVec.toNat_ofNat, Nat.mod_eq_of_lt hi]
  constructor
  · intro h
    rw [← h1, h, h2]
  · intro h
    apply BitVec.eq_of_toNat_eq
    rw [h1, h2, h]

/-- A chain search ends, and finds the key exactly when an inner element
has it and hashes to the bucket. -/
theorem Built.probeChain (h : Built murmur hashsize innersize m)
    (hin : 4 * innersize < 2 ^ 64) {i : Nat} (hi : i < 2 ^ 64) (b : Nat) :
    probeChain m innersize (outerKey i) (m.head b)
      = some (decide ((∃ k < innersize, i = 4 * (k + 1))
          ∧ bucketOf murmur hashsize (outerKey i) = b)) := by
  have hlen : (bucket murmur hashsize innersize b).length ≤ innersize := by
    unfold bucket
    refine (List.length_filter_le _ _).trans ?_
    rw [List.length_reverse, List.length_range]
  unfold Hashjoin.probeChain
  rw [(h.chains b).search_eq hlen, Option.some_inj, Bool.eq_iff_iff, List.any_eq_true,
    decide_eq_true_eq]
  constructor
  · intro ⟨k, hk, he⟩
    obtain ⟨hkn, hkb⟩ := mem_bucket.mp hk
    rw [h.keys k hkn, beq_iff_eq] at he
    rw [he] at hkb
    exact ⟨⟨k, hkn, (innerKey_eq_outerKey hi (by omega)).mp he⟩, hkb⟩
  · intro ⟨⟨k, hkn, hik⟩, hb⟩
    have he := (innerKey_eq_outerKey hi (by omega)).mpr hik
    refine ⟨k, mem_bucket.mpr ⟨hkn, by rw [he, hb]⟩, ?_⟩
    rw [h.keys k hkn, he, beq_self_eq_true]

section Probe

variable {table : List Word} (h : Built murmur hashsize innersize m) (hpos : 0 < hashsize)
  (hin : 4 * innersize < 2 ^ 64) (hout : outersize < 2 ^ 64)
  (hkeys : ∀ i < outersize, table[i]? = some (outerKey i))

include h hpos hin hout hkeys

/-- An iteration counts the matches of its key. -/
theorem Built.probe {i : Nat} (hi : i < outersize) (c : Nat) :
    probe murmur hashsize m table innersize (BitVec.ofNat 64 c) i
      = some (BitVec.ofNat 64 (c + matchesOf murmur hashsize innersize i)) := by
  have hslot : ∀ x : Word, m.hashtable[x.toNat % hashsize]? = some (m.head (x.toNat % hashsize)) :=
    fun x => h.getElem?_hashtable (Nat.mod_lt _ hpos)
  unfold Hashjoin.probe matchesOf
  simp only [hkeys i hi, hslot, h.probeChain hin (hi.trans hout), Option.bind_eq_bind,
    Option.bind_some, Option.some_inj]
  have hone : bucketOf murmur hashsize (outerKey i)
      = (murmur (outerKey i)).1.toNat % hashsize := rfl
  by_cases hk : ∃ k < innersize, i = 4 * (k + 1)
  · by_cases hb : (murmur (outerKey i)).2.toNat % hashsize
        = (murmur (outerKey i)).1.toNat % hashsize
    · simp only [hone, hb, hk, and_self, decide_true, if_true, BitVec.ofNat_add, ← add_assoc,
        BitVec.ofNat_eq_ofNat]
    · simp only [hone, Ne.symm hb, hb, hk, and_self, and_false, decide_true, decide_false,
        Bool.false_eq_true, if_true, if_false, BitVec.ofNat_add, Nat.add_zero,
        BitVec.ofNat_eq_ofNat]
  · simp only [hk, false_and, decide_false, Bool.false_eq_true, if_false, Nat.add_zero]

/-- A thread's iterations add their matches to its counter. -/
theorem Built.foldlM_probe : ∀ (its : List Nat) (c : Nat), (∀ i ∈ its, i < outersize) →
    its.foldlM (Hashjoin.probe murmur hashsize m table innersize) (BitVec.ofNat 64 c)
      = some (BitVec.ofNat 64 (c + (its.map (matchesOf murmur hashsize innersize)).sum)) := by
  intro its
  induction its with
  | nil =>
      intro c _
      rfl
  | cons i its ih =>
      intro c hl
      rw [List.foldlM_cons, h.probe hpos hin hout hkeys (hl i List.mem_cons_self),
        Option.bind_eq_bind, Option.bind_some, ih _ fun k hk => hl k (List.mem_cons_of_mem i hk),
        List.map_cons, List.sum_cons, Nat.add_assoc]

/-- Every thread of a pass ends. -/
theorem Built.mapM_probeThread : ∀ split : List (List Nat),
    (∀ i ∈ split.flatten, i < outersize) →
    split.mapM (probeThread murmur hashsize m table innersize)
      = some (split.map fun its =>
          BitVec.ofNat 64 (its.map (matchesOf murmur hashsize innersize)).sum) := by
  intro split
  induction split with
  | nil =>
      intro _
      rfl
  | cons its split ih =>
      intro hlt
      rw [List.flatten_cons] at hlt
      have hone := h.foldlM_probe hpos hin hout hkeys its 0 fun i hi =>
        hlt i (List.mem_append_left _ hi)
      rw [Nat.zero_add] at hone
      have hthread : probeThread murmur hashsize m table innersize its = _ := hone
      rw [List.mapM_cons, hthread, ih fun i hi => hlt i (List.mem_append_right _ hi)]
      rfl

omit h hpos hin hout hkeys in
/-- The private counters, added up. -/
theorem foldl_counts (f : Nat → Nat) : ∀ (split : List (List Nat)) (c : Nat),
    (split.map fun its => BitVec.ofNat 64 (its.map f).sum).foldl (· + ·) (BitVec.ofNat 64 c)
      = BitVec.ofNat 64 (c + (split.flatten.map f).sum) := by
  intro split
  induction split with
  | nil =>
      intro c
      rfl
  | cons its split ih =>
      intro c
      rw [List.map_cons, List.foldl_cons, ← BitVec.ofNat_add, ih, List.flatten_cons,
        List.map_append, List.sum_append, Nat.add_assoc]

/-- A pass adds the matches of the whole outer table, however it is
split. -/
theorem Built.probePass {split : List (List Nat)}
    (hsplit : split.flatten.Perm (List.range outersize)) (c : Nat) :
    probePass murmur hashsize m table innersize split (BitVec.ofNat 64 c)
      = some (BitVec.ofNat 64 (c
          + ((List.range outersize).map (matchesOf murmur hashsize innersize)).sum)) := by
  have hlt : ∀ i ∈ split.flatten, i < outersize := fun i hi =>
    List.mem_range.mp (hsplit.mem_iff.mp hi)
  have hsum := (hsplit.map (matchesOf murmur hashsize innersize)).sum_nat
  unfold Hashjoin.probePass
  rw [h.mapM_probeThread hpos hin hout hkeys split hlt, Option.bind_eq_bind, Option.bind_some,
    foldl_counts, hsum]

/-- The passes count the same matches again and again. -/
theorem Built.foldlM_probePass {total : Nat}
    (htotal : ((List.range outersize).map (matchesOf murmur hashsize innersize)).sum = total) :
    ∀ (passes : List (List (List Nat))) (c : Nat),
      (∀ split ∈ passes, split.flatten.Perm (List.range outersize)) →
      passes.foldlM (fun count split =>
          Hashjoin.probePass murmur hashsize m table innersize split count) (BitVec.ofNat 64 c)
        = some (BitVec.ofNat 64 (c + passes.length * total)) := by
  intro passes
  induction passes with
  | nil =>
      intro c _
      rw [List.length_nil, Nat.zero_mul]
      rfl
  | cons split passes ih =>
      intro c hl
      rw [List.foldlM_cons, h.probePass hpos hin hout hkeys (hl split List.mem_cons_self), htotal,
        Option.bind_eq_bind, Option.bind_some,
        ih _ fun s hs => hl s (List.mem_cons_of_mem split hs), List.length_cons,
        Nat.succ_mul, Nat.add_assoc, Nat.add_comm total]

/-- What the loops leave and count. -/
theorem Built.joined (hinner : innersize < 2 ^ 64) (nlookups : Nat) :
    Joined murmur hashsize nlookups outersize innersize m table where
  chains b hb := ⟨_, h.getElem?_hashtable hb, h.chains b⟩
  conflicts := h.nconflicts_toNat h.occupied_le hinner
  counts splits := by
    have hall := h.foldlM_probePass hpos hin hout hkeys rfl splits.passes 0 splits.each
    rw [Nat.zero_add, splits.length] at hall
    exact ⟨innersize, hall⟩

end Probe

-- ============================================================= the join

/-- Every bucket has a slot, so no product has wrapped around. -/
theorem room_of_joins {nlookups : Nat}
    (h : Joins murmur hashsize nlookups outersize innersize) :
    hashsize * 8 < 2 ^ 64 ∧ innersize * 16 < 2 ^ 64 ∧ outersize * 128 < 2 ^ 64 := by
  obtain ⟨m, table, hbuild, hfill, hjoined⟩ := h
  obtain ⟨hinner, hslots⟩ := room_of_build hbuild
  refine ⟨(le_room_iff (by decide)).mp ?_, hinner, room_of_fillTable hfill⟩
  by_contra hlt
  obtain ⟨e, he, -⟩ := hjoined.chains (room hashsize 8) (by omega)
  have := (List.getElem?_eq_some_iff.mp he).1
  omega

/-- The build partitions the inner elements into finite chains and counts
the conflicts, and the probes end with the number of matches modulo 2^64,
for any hash function and any split of the passes among threads, exactly
when the three arrays' numbers of bytes fit `size_t`. -/
theorem hashjoin_joins_iff (murmur : Murmur) (hashsize nlookups outersize innersize : Word)
    (hhash : 1 ≤ hashsize.toNat) (hin : 4 * innersize.toNat < 2 ^ 64) :
    Joins murmur hashsize.toNat nlookups.toNat outersize.toNat innersize.toNat
      ↔ hashsize.toNat * 8 < 2 ^ 64 ∧ innersize.toNat * 16 < 2 ^ 64
        ∧ outersize.toNat * 128 < 2 ^ 64 := by
  constructor
  · exact room_of_joins
  · rintro ⟨hslots, helms, htable⟩
    obtain ⟨m, hm, hbuilt⟩ := built_build murmur hhash hslots helms
    obtain ⟨table, hfill, hkeys⟩ := fillTable_eq htable
    exact ⟨m, table, hm, hfill,
      hbuilt.joined hhash hin outersize.isLt hkeys innersize.isLt nlookups.toNat⟩

/-- Two buckets, three inner elements and nine outer ones. -/
theorem hashjoin_joins_iff_nine :
    1 ≤ (2 : Word).toNat ∧ 4 * (3 : Word).toNat < 2 ^ 64
      ∧ Joins (fun k => (k, k + 1)) (2 : Word).toNat (1 : Word).toNat (9 : Word).toNat
        (3 : Word).toNat :=
  ⟨by decide, by decide,
    (hashjoin_joins_iff (fun k => (k, k + 1)) 2 1 9 3 (by decide) (by decide)).mpr
      ⟨by decide, by decide, by decide⟩⟩

/-- A hash table of 2^61 + 1 pointers, for which 8 bytes are allocated, with
the other sizes as they are by default; and 2^60 inner elements, for which
none are. -/
theorem not_hashjoin_joins :
    (1 ≤ (2305843009213693953 : Word).toNat ∧ 4 * (100000 : Word).toNat < 2 ^ 64
      ∧ ∀ murmur, ¬ Joins murmur (2305843009213693953 : Word).toNat (50 : Word).toNat
        (1000000 : Word).toNat (100000 : Word).toNat)
      ∧ 1 ≤ (100000 : Word).toNat ∧ 4 * (1152921504606846976 : Word).toNat < 2 ^ 64
      ∧ ∀ murmur, ¬ Joins murmur (100000 : Word).toNat (50 : Word).toNat
        (1000000 : Word).toNat (1152921504606846976 : Word).toNat :=
  ⟨⟨by decide, by decide, fun _ h => absurd (room_of_joins h).1 (by decide)⟩,
    by decide, by decide, fun _ h => absurd (room_of_joins h).2.1 (by decide)⟩

end ThesisBench.Hashjoin
