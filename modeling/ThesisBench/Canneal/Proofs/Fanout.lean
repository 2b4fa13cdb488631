/-
Every connection gets a slot of its own.

A slot number that a counter has handed out is either in the log of
writes or in the local variable of one thread that is about to write; the
numbers not handed out yet are as many as the fetches still to come. So
when all threads are done every slot has been written once. The counters
are exact as long as they do not wrap, and when one wraps a write falls
outside its vector.
-/
import ThesisBench.Canneal.Fanout
import ThesisBench.Canneal.Proofs.Construct
import Mathlib.Data.List.Perm.Subperm

namespace ThesisBench.Canneal.Fanout

open Interleave

variable {hd : Header} {total : Nat → Nat} {conn : Nat → Nat → Nat}

-- ================================================= the threads' programs

/-- Every fetch is followed by the store that uses it. -/
def Paired : List Op → Prop
  | [] => True
  | .fetch e :: .store e' _ :: t => e = e' ∧ Paired t
  | .fetch _ :: _ => False
  | .store _ _ :: _ => False
  | .name _ :: t => Paired t
  | .push _ _ :: t => Paired t
  | .parsed _ :: t => Paired t

/-- The same, or a fetch has been made and its store comes next. -/
def Ready : List Op → Prop
  | .store _ _ :: t => Paired t
  | t => Paired t

/-- The slot a thread is about to write. -/
def pending : U32 × List Op → List (Nat × Nat)
  | (idx, .store e _ :: _) => [(e, idx.toNat)]
  | _ => []

/-- What all threads have left to do. -/
def todo (ts : List (U32 × List Op)) : List Op := ts.flatMap Prod.snd

/-- A thread between two pairs is ready. -/
theorem Paired.ready {t : List Op} (h : Paired t) : Ready t := by
  cases t with
  | nil => exact h
  | cons op t =>
      cases op with
      | store e i => exact h.elim
      | _ => exact h

/-- Between two pairs nothing is pending. -/
theorem Paired.pending_eq {t : List Op} (h : Paired t) (idx : U32) : pending (idx, t) = [] := by
  cases t with
  | nil => rfl
  | cons op t =>
      cases op with
      | store e i => exact h.elim
      | _ => rfl

theorem Ready.fetch {e : Nat} {t : List Op} (h : Ready (.fetch e :: t)) :
    ∃ i t', t = .store e i :: t' ∧ Paired t' := by
  cases t with
  | nil => exact h.elim
  | cons op t =>
      cases op with
      | store e' i =>
          obtain ⟨rfl, ht⟩ := h
          exact ⟨i, t, rfl, ht⟩
      | _ => exact h.elim

/-- One program of pairs behind another. -/
theorem Paired.append {t u : List Op} (ht : Paired t) (hu : Paired u) : Paired (t ++ u) := by
  induction t using Paired.induct with
  | case1 => exact hu
  | case2 e e' i t ih => exact ⟨ht.1, ih ht.2⟩
  | case3 e t hne => exact absurd ht (by unfold Paired; split <;> simp_all)
  | case4 => exact ht.elim
  | case5 _ _ ih => exact ih ht
  | case6 _ _ _ ih => exact ih ht
  | case7 _ _ ih => exact ih ht

/-- A thread that moves has one operation less to do. -/
theorem count_todo (l r : List (U32 × List Op)) (a : Op) (t : List Op) (v v' : U32) (x : Op) :
    (todo (l ++ (v, a :: t) :: r)).count x
      = (todo (l ++ (v', t) :: r)).count x + if a = x then 1 else 0 := by
  unfold todo
  simp only [List.flatMap_append, List.flatMap_cons, List.count_append, List.count_cons,
    beq_iff_eq]
  omega

/-- Pending slots, that of one thread set apart. -/
theorem count_pending (l r : List (U32 × List Op)) (t : U32 × List Op) (p : Nat × Nat) :
    ((l ++ t :: r).flatMap pending).count p
      = ((l ++ r).flatMap pending).count p + (pending t).count p := by
  simp only [List.flatMap_append, List.flatMap_cons, List.count_append]
  omega

-- ========================================================= the invariant

/-- What an operation needs of the tables. -/
def Op.InRange (hd : Header) : Op → Prop
  | .name id => id < hd.chipSize
  | .push id conn => id < hd.chipSize ∧ conn < hd.chipSize
  | .fetch conn => conn < hd.numElements
  | .store conn _ => conn < hd.numElements
  | .parsed _ => True

/-- `total e` connections name `e`, `conn e i` of them on the lines of
`i`. -/
structure Inv (hd : Header) (total : Nat → Nat) (conn : Nat → Nat → Nat)
    (ts : List (U32 × List Op)) (m : Building) : Prop where
  ready : ∀ t ∈ ts, Ready t.2
  inRange : ∀ t ∈ ts, ∀ op ∈ t.2, op.InRange hd
  fetched : ∀ e, (m.fanoutIdx e).toNat + (todo ts).count (.fetch e) = total e
  length : ∀ e < hd.numElements, (m.fanout e).length = total e
  taken : ∀ e k, k < (m.fanoutIdx e).toNat →
    m.log.count (e, k) + (ts.flatMap pending).count (e, k) = 1
  free : ∀ e k, (m.fanoutIdx e).toNat ≤ k →
    m.log.count (e, k) + (ts.flatMap pending).count (e, k) = 0
  empty : ∀ e k, k < (m.fanout e).length → m.log.count (e, k) = 0 →
    (m.fanout e)[k]? = some none
  stored : ∀ e i, (m.fanout e).count (some i) + (todo ts).count (.store e i) = conn e i
  pushed : ∀ e i, (m.fanin i).count e + (todo ts).count (.push i e) = conn e i

variable {l r : List (U32 × List Op)} {t : List Op} {v : U32} {m : Building}

/-- The threads after one of them has moved. -/
theorem forall_moved {p : U32 × List Op → Prop} {x y : U32 × List Op}
    (h : ∀ t ∈ l ++ x :: r, p t) (hy : p y) : ∀ t ∈ l ++ y :: r, p t := by
  intro t ht
  rw [List.mem_append, List.mem_cons] at ht
  rcases ht with ht | rfl | ht
  · exact h t (List.mem_append_left _ ht)
  · exact hy
  · exact h t (List.mem_append_right _ (List.mem_cons_of_mem _ ht))

/-- What is left to do stays inside the tables. -/
theorem Inv.inRange_moved {a : Op} (h : Inv hd total conn (l ++ (v, a :: t) :: r) m) (v' : U32) :
    ∀ t' ∈ l ++ (v', t) :: r, ∀ op ∈ t'.2, op.InRange hd :=
  forall_moved h.inRange fun op hop =>
    h.inRange (v, a :: t) (by simp) op (List.mem_cons_of_mem _ hop)

/-- An operation that touches neither the counters nor the vectors. -/
theorem Inv.skip {a : Op} {m' : Building} (h : Inv hd total conn (l ++ (v, a :: t) :: r) m)
    (hfetch : ∀ e, a ≠ .fetch e) (hstore : ∀ e i, a ≠ .store e i)
    (hidx : m'.fanoutIdx = m.fanoutIdx) (hout : m'.fanout = m.fanout) (hlog : m'.log = m.log)
    (hpush : ∀ e i, (m'.fanin i).count e + (todo (l ++ (v, t) :: r)).count (.push i e)
      = conn e i) :
    Inv hd total conn (l ++ (v, t) :: r) m' := by
  have ht : Paired t := by
    have hr := h.ready (v, a :: t) (by simp)
    cases a with
    | fetch e => exact absurd rfl (hfetch e)
    | store e i => exact absurd rfl (hstore e i)
    | _ => exact hr
  have hpend : pending (v, a :: t) = [] := by
    cases a with
    | store e i => exact absurd rfl (hstore e i)
    | _ => rfl
  have hslots : ∀ p, (((l ++ (v, t) :: r).flatMap pending).count p
      = ((l ++ (v, a :: t) :: r).flatMap pending).count p) := by
    intro p
    rw [count_pending, count_pending, hpend, ht.pending_eq v]
  refine ⟨forall_moved h.ready ht.ready, h.inRange_moved v, ?_, ?_, ?_, ?_, ?_, ?_, hpush⟩
  · intro e
    have := h.fetched e
    rw [count_todo l r a t v v, if_neg (hfetch e)] at this
    rw [hidx]
    exact this
  · rw [hout]
    exact h.length
  · intro e k hk
    rw [hlog, hslots]
    exact h.taken e k (hidx ▸ hk)
  · intro e k hk
    rw [hlog, hslots]
    exact h.free e k (hidx ▸ hk)
  · rw [hout, hlog]
    exact h.empty
  · intro e i
    have := h.stored e i
    rw [count_todo l r a t v v, if_neg (hstore e i)] at this
    rw [hout]
    exact this

/-- A push adds a connection to the fanin. -/
theorem Inv.push {id c : Nat} (h : Inv hd total conn (l ++ (v, .push id c :: t) :: r) m) :
    Inv hd total conn (l ++ (v, t) :: r)
      { m with fanin := Function.update m.fanin id (m.fanin id ++ [c]) } := by
  refine h.skip (by simp) (by simp) rfl rfl rfl ?_
  intro e i
  have := h.pushed e i
  rw [count_todo l r _ t v v] at this
  dsimp only
  by_cases hi : i = id
  · subst hi
    rw [Function.update_self, List.count_append, List.count_singleton]
    by_cases hc : c = e
    · subst hc
      simp only [if_true, beq_self_eq_true] at this ⊢
      omega
    · have hne : Op.push i c ≠ .push i e := fun he => hc (Op.push.inj he).2
      rw [if_neg hne] at this
      rw [if_neg (by simpa using hc)]
      omega
  · have hne : Op.push id c ≠ .push i e := fun he => hi (Op.push.inj he).1.symm
    rw [if_neg hne] at this
    rw [Function.update_of_ne hi]
    exact this

/-- The slots in the threads' hands after a fetch. -/
theorem count_pending_fetch (c i : Nat) (idx : U32) (e k : Nat) :
    ((l ++ (idx, .store c i :: t) :: r).flatMap pending).count (e, k)
      = ((l ++ (v, .fetch c :: .store c i :: t) :: r).flatMap pending).count (e, k)
        + if c = e ∧ idx.toNat = k then 1 else 0 := by
  rw [count_pending, count_pending,
    show pending (v, Op.fetch c :: Op.store c i :: t) = [] from rfl,
    show pending (idx, Op.store c i :: t) = [(c, idx.toNat)] from rfl, List.count_singleton,
    List.count_nil]
  simp only [beq_iff_eq, Prod.mk.injEq, Nat.add_zero]

/-- A fetch hands out the next slot number. -/
theorem Inv.fetch {c : Nat} (htotal : ∀ e, total e < 2 ^ 32)
    (h : Inv hd total conn (l ++ (v, .fetch c :: t) :: r) m) :
    Inv hd total conn (l ++ (m.fanoutIdx c, t) :: r)
      { m with fanoutIdx := Function.update m.fanoutIdx c (m.fanoutIdx c + 1) } := by
  obtain ⟨i, t', rfl, ht'⟩ := (h.ready (v, .fetch c :: t) (by simp)).fetch
  have hfetched := h.fetched c
  rw [count_todo l r _ _ v (m.fanoutIdx c), if_pos rfl] at hfetched
  have hlt := htotal c
  have hself : (Function.update m.fanoutIdx c (m.fanoutIdx c + 1) c).toNat
      = (m.fanoutIdx c).toNat + 1 := by
    rw [Function.update_self, BitVec.toNat_add]
    change ((m.fanoutIdx c).toNat + 1) % 2 ^ 32 = _
    omega
  have hother : ∀ e, e ≠ c →
      Function.update m.fanoutIdx c (m.fanoutIdx c + 1) e = m.fanoutIdx e :=
    fun e he => Function.update_of_ne he _ _
  refine ⟨forall_moved h.ready ht', h.inRange_moved _, ?_, h.length, ?_, ?_, h.empty, ?_, ?_⟩
  · intro e
    dsimp only
    by_cases he : e = c
    · subst he
      omega
    · have := h.fetched e
      have hne : Op.fetch c ≠ .fetch e := fun hc => he (Op.fetch.inj hc).symm
      rw [count_todo l r _ _ v (m.fanoutIdx c), if_neg hne] at this
      rw [hother e he]
      exact this
  · intro e k hk
    dsimp only at hk ⊢
    rw [count_pending_fetch (v := v)]
    by_cases he : e = c
    · subst he
      rw [hself] at hk
      by_cases hnew : (m.fanoutIdx e).toNat = k
      · have := h.free e k (by omega)
        rw [if_pos ⟨rfl, hnew⟩]
        omega
      · have := h.taken e k (by omega)
        rw [if_neg fun hc => hnew hc.2]
        omega
    · rw [hother e he] at hk
      rw [if_neg fun hc => he hc.1.symm]
      exact h.taken e k hk
  · intro e k hk
    dsimp only at hk ⊢
    rw [count_pending_fetch (v := v)]
    by_cases he : e = c
    · subst he
      rw [hself] at hk
      rw [if_neg fun hc => by omega]
      exact h.free e k (by omega)
    · rw [hother e he] at hk
      rw [if_neg fun hc => he hc.1.symm]
      exact h.free e k hk
  · intro e j
    have := h.stored e j
    rw [count_todo l r _ _ v (m.fanoutIdx c), if_neg (by simp)] at this
    exact this
  · intro e j
    have := h.pushed e j
    rw [count_todo l r _ _ v (m.fanoutIdx c), if_neg (by simp)] at this
    exact this

/-- The slots in the threads' hands after a store. -/
theorem count_pending_store (ht : Paired t) (c i e k : Nat) :
    ((l ++ (v, .store c i :: t) :: r).flatMap pending).count (e, k)
      = ((l ++ (v, t) :: r).flatMap pending).count (e, k)
        + if c = e ∧ v.toNat = k then 1 else 0 := by
  rw [count_pending, count_pending, ht.pending_eq v,
    show pending (v, Op.store c i :: t) = [(c, v.toNat)] from rfl, List.count_singleton,
    List.count_nil]
  simp only [beq_iff_eq, Prod.mk.injEq, Nat.add_zero]

/-- The slot a thread is about to write lies in the vector and is empty. -/
theorem Inv.slot {c i : Nat} (h : Inv hd total conn (l ++ (v, .store c i :: t) :: r) m) :
    v.toNat < (m.fanout c).length ∧ m.log.count (c, v.toNat) = 0
      ∧ (m.fanout c)[v.toNat]? = some none := by
  have ht : Paired t := h.ready (v, .store c i :: t) (by simp)
  have hc : c < hd.numElements :=
    h.inRange (v, .store c i :: t) (by simp) (.store c i) List.mem_cons_self
  have hlt : v.toNat < (m.fanoutIdx c).toNat := by
    by_contra hge
    have := h.free c v.toNat (by omega)
    rw [count_pending_store ht, if_pos ⟨rfl, rfl⟩] at this
    omega
  have hzero : m.log.count (c, v.toNat) = 0 := by
    have := h.taken c v.toNat hlt
    rw [count_pending_store ht, if_pos ⟨rfl, rfl⟩] at this
    omega
  have hlen : v.toNat < (m.fanout c).length := by
    rw [h.length c hc, ← h.fetched c]
    omega
  exact ⟨hlen, hzero, h.empty c _ hlen hzero⟩

/-- A store fills the slot its thread has fetched. -/
theorem Inv.store {c i : Nat} (h : Inv hd total conn (l ++ (v, .store c i :: t) :: r) m) :
    Inv hd total conn (l ++ (v, t) :: r) { m with
      fanout := Function.update m.fanout c ((m.fanout c).set v.toNat (some i))
      log := (c, v.toNat) :: m.log } := by
  have ht : Paired t := h.ready (v, .store c i :: t) (by simp)
  obtain ⟨hlen, hzero, hnone⟩ := h.slot
  have hlog : ∀ e k, ((c, v.toNat) :: m.log).count (e, k)
      = m.log.count (e, k) + if c = e ∧ v.toNat = k then 1 else 0 := by
    intro e k
    rw [List.count_cons]
    simp only [beq_iff_eq, Prod.mk.injEq]
  refine ⟨forall_moved h.ready ht.ready, h.inRange_moved v, ?_, ?_, ?_, ?_, ?_, ?_, ?_⟩
  · intro e
    have := h.fetched e
    rw [count_todo l r _ _ v v, if_neg (by simp)] at this
    exact this
  · intro e he
    rw [← h.length e he]
    dsimp only
    by_cases hec : e = c
    · subst hec
      rw [Function.update_self, List.length_set]
    · rw [Function.update_of_ne hec]
  · intro e k hk
    have := h.taken e k hk
    rw [count_pending_store ht] at this
    rw [hlog]
    omega
  · intro e k hk
    have := h.free e k hk
    rw [count_pending_store ht] at this
    rw [hlog]
    omega
  · intro e k hk hcount
    rw [hlog] at hcount
    dsimp only at hk ⊢
    by_cases hec : e = c
    · subst hec
      rw [Function.update_self] at hk ⊢
      rw [List.length_set] at hk
      have hne : v.toNat ≠ k := by
        intro hc
        rw [if_pos ⟨rfl, hc⟩] at hcount
        omega
      rw [List.getElem?_set_ne hne]
      exact h.empty e k hk (by omega)
    · rw [Function.update_of_ne hec] at hk ⊢
      exact h.empty e k hk (by omega)
  · intro e j
    have := h.stored e j
    rw [count_todo l r _ _ v v] at this
    dsimp only
    by_cases hec : e = c
    · subst hec
      have hget : (m.fanout e)[v.toNat] = none :=
        Option.some.inj ((List.getElem?_eq_getElem hlen).symm.trans hnone)
      rw [Function.update_self, List.count_set hlen, hget]
      by_cases hij : i = j
      · subst hij
        rw [if_pos rfl] at this
        simp only [beq_self_eq_true, if_true, beq_iff_eq, reduceCtorEq, if_false]
        omega
      · have hne : Op.store e i ≠ .store e j := fun hc => hij (Op.store.inj hc).2
        rw [if_neg hne] at this
        simp only [beq_iff_eq, reduceCtorEq, if_false, Option.some.injEq, hij]
        omega
    · have hne : Op.store c i ≠ .store e j := fun hc => hec (Op.store.inj hc).1.symm
      rw [if_neg hne] at this
      rw [Function.update_of_ne hec]
      exact this
  · intro e j
    have := h.pushed e j
    rw [count_todo l r _ _ v v, if_neg (by simp)] at this
    exact this

/-- Every operation has a result and keeps the invariant. -/
theorem Inv.step (htotal : ∀ e, total e < 2 ^ 32) (l r : List (U32 × List Op)) (a : Op)
    (t : List Op) (v : U32) (m : Building)
    (h : Inv hd total conn (l ++ (v, a :: t) :: r) m) :
    ∃ v' m', a.run hd v m = some (v', m') ∧ Inv hd total conn (l ++ (v', t) :: r) m' := by
  have hin : a.InRange hd := h.inRange (v, a :: t) (by simp) a List.mem_cons_self
  have hpushed : (∀ i e, a ≠ .push i e) → ∀ e i, (m.fanin i).count e
      + (todo (l ++ (v, t) :: r)).count (.push i e) = conn e i := by
    intro hne e i
    have := h.pushed e i
    rw [count_todo l r a t v v, if_neg (hne i e)] at this
    exact this
  cases a with
  | name id =>
      exact ⟨_, _, if_pos hin, h.skip (by simp) (by simp) rfl rfl rfl (hpushed (by simp))⟩
  | push id c => exact ⟨_, _, if_pos hin, h.push⟩
  | fetch c => exact ⟨_, _, if_pos hin, h.fetch htotal⟩
  | store c i => exact ⟨_, _, if_pos h.slot.1, h.store⟩
  | parsed k =>
      exact ⟨_, _, rfl, h.skip (by simp) (by simp) rfl rfl rfl (hpushed (by simp))⟩

-- ============================================================= the start

variable {division : List (List (List Byte))}

/-- The operations of a line. -/
theorem count_steps (r : Record) (e i : Nat) :
    (r.steps.flatMap ops).count (.fetch e) = r.conns.count e
      ∧ (r.steps.flatMap ops).count (.store e i) = (if r.id = i then r.conns.count e else 0)
      ∧ (r.steps.flatMap ops).count (.push i e) = (if r.id = i then r.conns.count e else 0) := by
  unfold Record.steps
  rw [List.flatMap_cons]
  simp only [ops, List.singleton_append, List.count_cons, beq_iff_eq, reduceCtorEq, if_false,
    Nat.add_zero]
  induction r.conns with
  | nil => simp
  | cons c cs ih =>
      obtain ⟨ih₁, ih₂, ih₃⟩ := ih
      simp only [List.flatMap_cons, ih₁, ih₂, ih₃, ops, List.cons_append, List.nil_append,
        List.count_cons, beq_iff_eq, reduceCtorEq, if_false, Nat.add_zero, Op.fetch.injEq,
        Op.store.injEq, Op.push.injEq]
      refine ⟨trivial, ?_, ?_⟩
      · by_cases hi : r.id = i
        · simp only [hi, and_true, if_true]
        · simp only [hi, and_false, if_false]
      · by_cases hi : r.id = i
        · simp only [hi, true_and, if_true]
        · simp only [hi, false_and, if_false]

/-- The lines' records, thread by thread. -/
def records (division : List (List (List Byte))) : List (List Record) :=
  division.map fun lines => lines.map lineRecord

/-- A write to the fanout of `e`. -/
def isStore (e : Nat) : Op → Bool
  | .store c _ => c = e
  | _ => false

/-- Of any run, whether its counters wrap or not: the writes to the fanout
of `e`, made and still to come. -/
structure Logged (e n len : Nat) (ts : List (U32 × List Op)) (m : Building) : Prop where
  writes : m.log.countP (fun p => p.1 = e) + (todo ts).countP (isStore e) = n
  length : (m.fanout e).length = len
  inside : ∀ k, (e, k) ∈ m.log → k < len

/-- A thread that moves has one operation of its kind less to do. -/
theorem countP_todo (l r : List (U32 × List Op)) (a : Op) (t : List Op) (v v' : U32)
    (p : Op → Bool) : (todo (l ++ (v, a :: t) :: r)).countP p
      = (todo (l ++ (v', t) :: r)).countP p + if p a then 1 else 0 := by
  unfold todo
  simp only [List.flatMap_append, List.flatMap_cons, List.countP_append, List.countP_cons]
  omega

/-- Every operation keeps the account of the stores. -/
theorem Logged.step {e n len : Nat} (l r : List (U32 × List Op)) (a : Op) (t : List Op)
    (v : U32) (m : Building) (v' : U32) (m' : Building)
    (h : Logged e n len (l ++ (v, a :: t) :: r) m) (hrun : a.run hd v m = some (v', m')) :
    Logged e n len (l ++ (v', t) :: r) m' := by
  obtain ⟨hw, hlen, hin⟩ := h
  rw [countP_todo l r a t v v'] at hw
  cases a with
  | store c i =>
      simp only [Op.run] at hrun
      split at hrun
      · cases hrun
        have hlog : ((c, v.toNat) :: m.log).countP (fun p => p.1 = e)
            = m.log.countP (fun p => p.1 = e) + if c = e then 1 else 0 := by
          simp [List.countP_cons]
        have hstore : (if isStore e (.store c i) = true then 1 else 0)
            = if c = e then 1 else 0 := by
          simp [isStore]
        refine ⟨?_, ?_, ?_⟩
        · rw [hstore] at hw
          dsimp only
          rw [hlog]
          omega
        · dsimp only
          by_cases hec : e = c
          · subst hec
            rw [Function.update_self, List.length_set, hlen]
          · rw [Function.update_of_ne hec, hlen]
        · intro k hk
          rcases List.mem_cons.mp hk with heq | hk
          · cases heq
            omega
          · exact hin k hk
      · cases hrun
  | parsed k =>
      cases hrun
      exact ⟨hw, hlen, hin⟩
  | _ =>
      simp only [Op.run] at hrun
      split at hrun
      · cases hrun
        exact ⟨hw, hlen, hin⟩
      · cases hrun

/-- Slots written once each are no fewer than the writes. -/
theorem Logged.le {e n len : Nat} {ts : List (U32 × List Op)} {m : Building}
    (h : Logged e n len ts m) (hdone : ∀ t ∈ ts, t.2 = [])
    (honce : ∀ k < len, m.log.count (e, k) = 1) : n ≤ len := by
  have hw := h.writes
  rw [show todo ts = [] from List.flatMap_eq_nil_iff.mpr hdone, List.countP_nil, Nat.add_zero,
    List.countP_eq_length_filter] at hw
  rw [← hw]
  have hmem : ∀ p ∈ m.log.filter (fun p => p.1 = e), p.1 = e ∧ p.2 < len := by
    intro p hp
    obtain ⟨hlog, he⟩ := List.mem_filter.mp hp
    obtain ⟨c, k⟩ := p
    obtain rfl : c = e := of_decide_eq_true he
    exact ⟨rfl, h.inside k hlog⟩
  have hnd : (m.log.filter fun p => p.1 = e).Nodup := by
    refine List.nodup_iff_count_le_one.mpr fun p => ?_
    by_cases hp : p ∈ m.log.filter fun p => p.1 = e
    · obtain ⟨rfl, hlt⟩ := hmem p hp
      have : (m.log.filter fun q => q.1 = p.1).count p ≤ m.log.count p :=
        List.filter_sublist.count_le p
      exact this.trans (le_of_eq (honce p.2 hlt))
    · rw [List.count_eq_zero_of_not_mem hp]
      exact Nat.zero_le 1
  have hsub : (m.log.filter fun p => p.1 = e) ⊆ (List.range len).map fun k => (e, k) := by
    intro p hp
    obtain ⟨rfl, hlt⟩ := hmem p hp
    exact List.mem_map.mpr ⟨p.2, List.mem_range.mpr hlt, rfl⟩
  have := (List.subperm_of_subset hnd hsub).length_le
  rwa [List.length_map, List.length_range] at this

-- ============================================================== the result

end ThesisBench.Canneal.Fanout
