/-
The scattered insertion of `real_main` stores every key below
`nelements` once, and the lookups add up the payloads.

After the rounds below `i` the tree holds the even keys below `i` and
the odd keys from `nelements - i` on (`scattered`); the two families
meet in the middle without touching, since one is even and the other
odd.
-/
import ThesisBench.Btree.Scatter
import ThesisBench.Btree.Proofs.Ops

namespace ThesisBench.Btree

open CArray SepList

variable {order lm nm n : Nat}

-- ================================================================= words

theorem word_val {k : Nat} (hk : k < 2 ^ 64) : (word k).val = k :=
  Nat.mod_eq_of_lt hk

/-- Different numbers below `2^64` are different words. -/
theorem word_inj {j k : Nat} (hj : j < 2 ^ 64) (hk : k < 2 ^ 64)
    (h : word j = word k) : j = k := by
  have := congrArg Fin.val h
  rwa [word_val hj, word_val hk] at this

/-- A sum of words wraps once. -/
theorem word_add (j k : Nat) : word j + word k = word (j + k) := by
  apply Fin.ext
  show (j % 2 ^ 64 + k % 2 ^ 64) % 2 ^ 64 = (j + k) % 2 ^ 64
  omega

-- ===================================================== two at a time

/-- A new entry for a record that is in use already. -/
theorem insertUnique_stored (horder : 3 ≤ order) (hlm : lm ≤ cut (order - 1))
    (hnm : nm ≤ cut order - 1) {h : Heap} {root : Option NodeId}
    {es : List (U64 × RecId)} (hst : Stored order lm nm h root es)
    (key : U64) (r : RecId) (habs : ∀ q, (key, q) ∉ es) :
    ∃ root' h' x y, insertUnique order h root key r = .ok (root', h')
      ∧ Stored order lm nm h' root' (x ++ (key, r) :: y) ∧ es = x ++ y
      ∧ SameRecs h h' := by
  rw [insertUnique_eq hst]
  exact insertNew_spec horder hlm hnm hst key r habs

/-- A key the map does not have is in no stored pair. -/
theorem Models.absent {s : State} {m : Contents} {es : List (U64 × RecId)}
    (hm : Models order lm nm s m es) {key : U64} (habs : m key = none) :
    ∀ r, (key, r) ∉ es := by
  intro r hr
  obtain ⟨v, -, hv⟩ := hm.reads.present (key, r) hr
  rw [show m key = some v from hv] at habs
  cases habs

/-- Two records and two insertions are two updates of the map. -/
theorem insertTwo_models (b : Bounds order lm nm) {s : State} {m : Contents}
    {es : List (U64 × RecId)} (hm : Models order lm nm s m es)
    {key₁ key₂ : U64} (hne : key₁ ≠ key₂) (habs₁ : m key₁ = none)
    (habs₂ : m key₂ = none) (value₁ value₂ : U64) :
    ∃ s' es', insertTwo order s key₁ value₁ key₂ value₂ = .ok s'
      ∧ Models order lm nm s'
        (Function.update (Function.update m key₁ (some value₁)) key₂
          (some value₂)) es' := by
  have hno₁ := hm.absent habs₁
  have hno₂ := hm.absent habs₂
  obtain ⟨r₁, h₁, hmk₁, o₁, hold₁, hnew₁, hs₁⟩ := makeRecord_spec hm.owns value₁
  obtain ⟨r₂, h₂, hmk₂, o₂, hold₂, hnew₂, hs₂⟩ := makeRecord_spec o₁ value₂
  obtain ⟨root₃, h₃, x, y, hrun₃, hst₃, hes₃, hs₃⟩ := insertUnique_stored
    b.three_le b.leaf_le b.node_le ((hm.stored.same hs₁).same hs₂) key₁ r₁ hno₁
  have hno₃ : ∀ q, (key₂, q) ∉ x ++ (key₁, r₁) :: y := by
    intro q hq
    have hcase : (key₂, q) = (key₁, r₁) ∨ (key₂, q) ∈ es := by
      rw [hes₃]
      simp only [List.mem_append, List.mem_cons] at hq ⊢
      tauto
    rcases hcase with he | he
    · exact hne (congrArg Prod.fst he).symm
    · exact hno₂ q he
  obtain ⟨root₄, h₄, u, v, hrun₄, hst₄, hes₄, hs₄⟩ := insertUnique_stored
    b.three_le b.leaf_le b.node_le hst₃ key₂ r₂ hno₃
  have hrecs : h₄.recs = h₂.recs := hs₄.recs.trans hs₃.recs
  have hreads : Reads h₄ es m := hm.reads.congr fun e he => by
    have hmem := List.mem_map_of_mem (f := Prod.snd) he
    rw [hrecs, hold₂ e.2 (List.mem_cons_of_mem _ hmem), hold₁ e.2 hmem]
  have hvalue₁ : h₄.recs r₁ = .value value₁ := by
    rw [hrecs, hold₂ r₁ (List.mem_cons_self ..), hnew₁]
  have hreads₃ := hreads.insert hno₁ hes₃ hvalue₁
  refine ⟨⟨root₄, h₄⟩, _, ?_, hst₄, ?_, hreads₃.insert hno₃ hes₄ (by
    rw [hrecs, hnew₂]), ?_⟩
  · simp only [insertTwo, hmk₁, ok_bind, hmk₂, hrun₃, hrun₄]
  · refine ((o₂.same hs₃).same hs₄).perm ?_
    have hp₄ : ((u ++ (key₂, r₂) :: v).map Prod.snd).Perm
        (r₂ :: (u ++ v).map Prod.snd) := by
      simp only [List.map_append, List.map_cons]
      exact List.perm_middle
    have hp₃ : ((x ++ (key₁, r₁) :: y).map Prod.snd).Perm
        (r₁ :: (x ++ y).map Prod.snd) := by
      simp only [List.map_append, List.map_cons]
      exact List.perm_middle
    rw [← hes₄] at hp₄
    rw [← hes₃] at hp₃
    exact hp₄.trans (hp₃.cons r₂)
  · show h₄.misses = 0
    rw [hs₄.misses, hs₃.misses, hs₂.misses, hs₁.misses]
    exact hm.misses

-- ============================================================ the elements

/-- Where the elements of the first array lie. -/
theorem Arrays.addr_val (a : Arrays n) {j : Nat} (hj : j < n / 2) :
    (a.addr j).val = a.elms + 8 * j := by
  have := a.elms_le
  exact word_val (by omega)

/-- Where the elements of the second array lie. -/
theorem Arrays.addr2_val (a : Arrays n) {j : Nat} (hj : j < n / 2) :
    (a.addr2 j).val = a.elms2 + 8 * j := by
  have := a.elms2_le
  exact word_val (by omega)

/-- The arrays fit the address space, so their length is a word. -/
theorem Arrays.lt (a : Arrays n) : n < 2 ^ 64 := by
  have h₁ := a.elms_le
  have h₂ := a.elms_pos
  omega

/-- Elements of the first array lie apart. -/
theorem Arrays.addr_inj (a : Arrays n) {j k : Nat} (hj : j < n / 2)
    (hk : k < n / 2) (h : a.addr j = a.addr k) : j = k := by
  have hv := congrArg Fin.val h
  rw [a.addr_val hj, a.addr_val hk] at hv
  omega

/-- Elements of the second array lie apart. -/
theorem Arrays.addr2_inj (a : Arrays n) {j k : Nat} (hj : j < n / 2)
    (hk : k < n / 2) (h : a.addr2 j = a.addr2 k) : j = k := by
  have hv := congrArg Fin.val h
  rw [a.addr2_val hj, a.addr2_val hk] at hv
  omega

/-- The two arrays do not share an element. -/
theorem Arrays.addr_ne_addr2 (a : Arrays n) {j k : Nat} (hj : j < n / 2)
    (hk : k < n / 2) : a.addr j ≠ a.addr2 k := by
  intro h
  have hv := congrArg Fin.val h
  rw [a.addr_val hj, a.addr2_val hk] at hv
  have := a.disjoint
  omega

/-- The payloads written in the rounds below `i`. -/
def PayloadsTo (a : Arrays n) (i : Nat) (p : Payloads) : Prop :=
  ∀ j, 2 * j < i →
    p (a.addr j) = word (2 * j) ∧ p (a.addr2 j) = word (n - 2 * j - 1)

/-- A round of the insertion loop writes two more payloads. -/
theorem PayloadsTo.step {a : Arrays n} {j : Nat} {p : Payloads}
    (hp : PayloadsTo a (2 * j) p) (hj : j < n / 2) :
    PayloadsTo a (2 * j + 2)
      (Function.update (Function.update p (a.addr j) (word (2 * j)))
        (a.addr2 j) (word (n - 2 * j - 1))) := by
  intro k hk
  by_cases hkj : k = j
  · subst hkj
    rw [Function.update_of_ne (a.addr_ne_addr2 hj hj), Function.update_self,
      Function.update_self]
    exact ⟨rfl, rfl⟩
  · have hk' : k < n / 2 := by omega
    have h₁ : a.addr k ≠ a.addr j := fun h => hkj (a.addr_inj hk' hj h)
    have h₂ : a.addr2 k ≠ a.addr2 j := fun h => hkj (a.addr2_inj hk' hj h)
    rw [Function.update_of_ne (a.addr_ne_addr2 hk' hj),
      Function.update_of_ne h₁, Function.update_of_ne h₂,
      Function.update_of_ne (a.addr_ne_addr2 hj hk').symm]
    exact hp k (by omega)

-- ================================================================ the keys

/-- The map after the rounds below `i`. -/
def scattered (a : Arrays n) (i : Nat) : Contents := fun k =>
  if k.val % 2 = 0 then
    if k.val < i then some (a.addr (k.val / 2)) else none
  else
    if k.val < n ∧ n - 1 - k.val < i then some (a.addr2 ((n - 1 - k.val) / 2))
    else none

theorem scattered_zero (a : Arrays n) : scattered a 0 = Contents.empty := by
  funext k
  simp [scattered, Contents.empty]

/-- One round adds one even key from below and one odd key from above. -/
theorem scattered_step (a : Arrays n) (heven : n % 2 = 0) {j : Nat}
    (hj : 2 * j < n) :
    Function.update (Function.update (scattered a (2 * j)) (word (2 * j))
        (some (a.addr j))) (word (n - 2 * j - 1)) (some (a.addr2 j))
      = scattered a (2 * j + 2) := by
  have hn := a.lt
  funext k
  have hk₁ : k = word (2 * j) ↔ k.val = 2 * j := by
    rw [Fin.ext_iff, word_val (by omega)]
  have hk₂ : k = word (n - 2 * j - 1) ↔ k.val = n - 2 * j - 1 := by
    rw [Fin.ext_iff, word_val (by omega)]
  simp only [Function.update_apply, hk₁, hk₂, scattered]
  by_cases hpar : k.val % 2 = 0
  · rw [if_neg (by omega), if_pos hpar, if_pos hpar]
    by_cases hkj : k.val = 2 * j
    · rw [if_pos hkj, if_pos (by omega), show k.val / 2 = j by omega]
    · rw [if_neg hkj]
      by_cases hlt : k.val < 2 * j
      · rw [if_pos hlt, if_pos (by omega)]
      · rw [if_neg hlt, if_neg (by omega)]
  · rw [if_neg (show ¬ k.val = 2 * j by omega), if_neg hpar, if_neg hpar]
    by_cases hkj : k.val = n - 2 * j - 1
    · rw [if_pos hkj, if_pos (by omega), show (n - 1 - k.val) / 2 = j by omega]
    · rw [if_neg hkj]
      by_cases hlt : k.val < n ∧ n - 1 - k.val < 2 * j
      · rw [if_pos hlt, if_pos (by omega)]
      · rw [if_neg hlt, if_neg (by omega)]

/-- The keys of a round are new. -/
theorem scattered_absent (a : Arrays n) (heven : n % 2 = 0) {j : Nat}
    (hj : 2 * j < n) :
    scattered a (2 * j) (word (2 * j)) = none
      ∧ scattered a (2 * j) (word (n - 2 * j - 1)) = none := by
  have hn := a.lt
  unfold scattered
  rw [word_val (show 2 * j < 2 ^ 64 by omega),
    word_val (show n - 2 * j - 1 < 2 ^ 64 by omega)]
  constructor
  · rw [if_pos (by omega), if_neg (by omega)]
  · rw [if_neg (by omega), if_neg (by omega)]

-- ================================================================ the loop

/-- The bounds of order 16. -/
theorem bounds_sixteen : Bounds 16 (cut 15) (cut 16 - 1) := bounds_cut (by decide)

/-- What the rounds from `2 * j` on do. -/
theorem scatterFrom_models (a : Arrays n) (heven : n % 2 = 0) (k : Nat) :
    ∀ {j : Nat} {l : Loading} {es : List (U64 × RecId)},
      2 * (j + k) = n → PayloadsTo a (2 * j) l.payloads →
      Models 16 (cut 15) (cut 16 - 1) l.state (scattered a (2 * j)) es →
      ∃ l' es', scatterFrom a k (2 * j) l = .ok l'
        ∧ PayloadsTo a n l'.payloads
        ∧ Models 16 (cut 15) (cut 16 - 1) l'.state (scattered a n) es' := by
  induction k with
  | zero =>
      intro j l es hjk hp hm
      have hj : 2 * j = n := by omega
      rw [hj] at hp hm ⊢
      exact ⟨l, es, rfl, hp, hm⟩
  | succ k ih =>
      intro j l es hjk hp hm
      have hn := a.lt
      have hj : 2 * j < n := by omega
      obtain ⟨habs₁, habs₂⟩ := scattered_absent a heven hj
      have hne : word (2 * j) ≠ word (n - 2 * j - 1) := by
        intro h
        have := word_inj (by omega) (by omega) h
        omega
      obtain ⟨s₁, es₁, hrun, hm₁⟩ := insertTwo_models bounds_sixteen hm hne
        habs₁ habs₂ (a.addr j) (a.addr2 j)
      rw [scattered_step a heven hj] at hm₁
      have hp₁ := hp.step (show j < n / 2 by omega)
      obtain ⟨l', es', hruns, hp', hm'⟩ := ih (j := j + 1)
        (l := ⟨_, s₁⟩) (by omega) hp₁ hm₁
      refine ⟨l', es', ?_, hp', hm'⟩
      rw [scatterFrom, scatterBody, show 2 * j / 2 = j by omega, hrun, ok_bind,
        ok_bind]
      exact hruns

/-- The whole insertion. -/
theorem scatter_models (a : Arrays n) (heven : n % 2 = 0) (p : Payloads) :
    ∃ l es, scatter a p = .ok l ∧ PayloadsTo a n l.payloads
      ∧ Models 16 (cut 15) (cut 16 - 1) l.state (scattered a n) es := by
  have hm : Models 16 (cut 15) (cut 16 - 1) State.empty
      (scattered a (2 * 0)) [] := by
    rw [Nat.mul_zero, scattered_zero]
    exact models_empty
  unfold scatter
  rw [show (n + 1) / 2 = n / 2 by omega]
  exact scatterFrom_models a heven (n / 2) (j := 0) (l := ⟨p, State.empty⟩)
    (by omega) (fun j hj => absurd hj (Nat.not_lt_zero _)) hm

/-- The element a key below `nelements` refers to. -/
theorem scattered_payload {a : Arrays n} {p : Payloads}
    (hp : PayloadsTo a n p) (heven : n % 2 = 0) {k : U64} (hk : k.val < n) :
    ∃ e, scattered a n k = some e ∧ e ≠ 0 ∧ p e = k := by
  have hn := a.lt
  have hword : ∀ {m : Nat}, m = k.val → word m = k := by
    intro m hm
    apply Fin.ext
    rw [word_val (by omega), hm]
  unfold scattered
  by_cases hpar : k.val % 2 = 0
  · refine ⟨a.addr (k.val / 2), ?_, ?_, ?_⟩
    · rw [if_pos hpar, if_pos hk]
    · intro h0
      have hv := congrArg Fin.val h0
      rw [a.addr_val (by omega)] at hv
      have := a.elms_pos
      rw [Fin.val_zero] at hv
      omega
    · rw [(hp _ (by omega)).1]
      exact hword (by omega)
  · refine ⟨a.addr2 ((n - 1 - k.val) / 2), ?_, ?_, ?_⟩
    · rw [if_neg hpar, if_pos (by omega)]
    · intro h0
      have hv := congrArg Fin.val h0
      rw [a.addr2_val (by omega)] at hv
      have := a.elms2_pos
      rw [Fin.val_zero] at hv
      omega
    · rw [(hp _ (by omega)).2]
      exact hword (by omega)

/-- Keys from `n` on are never stored. -/
theorem scattered_none (a : Arrays n) {k : U64} (hk : n ≤ k.val) :
    scattered a n k = none := by
  unfold scattered
  split
  · rw [if_neg (by omega)]
  · rw [if_neg (by omega)]

-- ============================================================= the lookups

/-- A lookup below `nelements` finds the payload that is its key. -/
theorem payloadOf_eq {l : Loading} {a : Arrays n} {es : List (U64 × RecId)}
    (hp : PayloadsTo a n l.payloads) (heven : n % 2 = 0)
    (hm : Models 16 (cut 15) (cut 16 - 1) l.state (scattered a n) es)
    {key : Nat} (hk : key < n) : l.payloadOf key = .ok (word key) := by
  have hn := a.lt
  have hval : (word key).val = key := word_val (by omega)
  obtain ⟨e, he, hne, hpe⟩ := scattered_payload hp heven (k := word key)
    (by omega)
  have hlook := hm.lookup (word key)
  rw [he] at hlook
  unfold State.lookup at hlook
  unfold Loading.payloadOf
  cases hf : find l.state.heap l.state.root (word key) with
  | error f =>
      rw [hf] at hlook
      cases hlook
  | ok q =>
      obtain ⟨r, leaf⟩ := q
      rw [hf, ok_bind] at hlook
      have hrec : r.map l.state.heap.recs = some (.value e) :=
        Except.ok.inj hlook
      rw [ok_bind]
      simp only [hrec]
      show Except.ok (if e = 0 then 0 else l.payloads e) = _
      rw [if_neg hne, hpe]

variable {l : Loading} {a : Arrays n} {es : List (U64 × RecId)}

/-- One thread's sum. -/
theorem lookups_eq (hpos : 0 < n)
    (hpay : ∀ key, key < n → l.payloadOf key = .ok (word key))
    (rdns : List Draw) : ∀ acc : Nat,
    l.lookups n rdns (word acc) = .ok (word (acc + expectedSum n rdns)) := by
  induction rdns with
  | nil => exact fun acc => rfl
  | cons rdn rdns ih =>
      intro acc
      have hbody : l.lookupBody n (word acc) rdn
          = .ok (word (acc + (rdn.val % n + (rdn.val + 1) * 4 % n))) := by
        unfold Loading.lookupBody
        rw [hpay _ (Nat.mod_lt _ hpos), ok_bind, hpay _ (Nat.mod_lt _ hpos),
          ok_bind, word_add, word_add, Nat.shiftLeft_eq, Nat.add_assoc]
      rw [Loading.lookups, hbody, ok_bind, ih, expectedSum, expectedSum,
        List.map_cons, List.sum_cons, Nat.add_assoc]

/-- All threads' sums. -/
theorem reduce_eq (hpos : 0 < n)
    (hpay : ∀ key, key < n → l.payloadOf key = .ok (word key))
    (threads : List (List Draw)) : ∀ acc : Nat,
    l.reduce n threads (word acc)
      = .ok (word (acc + expectedSum n threads.flatten)) := by
  induction threads with
  | nil => exact fun acc => rfl
  | cons rdns threads ih =>
      intro acc
      have hone := lookups_eq hpos hpay rdns 0
      rw [Nat.zero_add] at hone
      have hone' : l.lookups n rdns 0 = .ok (word (expectedSum n rdns)) := hone
      rw [Loading.reduce, hone', ok_bind, word_add, ih, List.flatten_cons,
        expectedSum, expectedSum, expectedSum, List.map_append, List.sum_append,
        Nat.add_assoc]

/-- The scattered insertion stores every key below `nelements` with the
payload that is the key and no other, and however the draws are divided
among threads the lookups add up to the expected sum. -/
theorem scatter_lookups (requested : Nat) (hpos : 0 < requested)
    (a : Arrays (roundNelements requested)) (p : Payloads) :
    ∃ l, scatter a p = .ok l
      ∧ (∀ k : U64, k.val < roundNelements requested →
          ∃ r leaf e, find l.state.heap l.state.root k = .ok (some r, leaf)
            ∧ l.state.heap.recs r = .value e ∧ l.payloads e = k)
      ∧ (∀ k : U64, roundNelements requested ≤ k.val →
          ∃ leaf, find l.state.heap l.state.root k = .ok (none, leaf))
      ∧ ∀ threads : List (List Draw),
          l.reduce (roundNelements requested) threads 0
            = .ok (word (expectedSum (roundNelements requested)
                threads.flatten)) := by
  have heven : roundNelements requested % 2 = 0 := by
    unfold roundNelements
    split <;> omega
  have hpos' : 0 < roundNelements requested := by
    unfold roundNelements
    split <;> omega
  obtain ⟨l, es, hrun, hp, hm⟩ := scatter_models a heven p
  refine ⟨l, hrun, fun k hk => ?_, fun k hk => ?_, fun threads => ?_⟩
  · obtain ⟨e, he, -, hpe⟩ := scattered_payload hp heven hk
    rcases hm.stored.find k with ⟨r, leaf, hr, hf⟩ | ⟨hno, -⟩
    · obtain ⟨v, hv, hmv⟩ := hm.reads.present (k, r) hr
      rw [show scattered a _ k = some v from hmv] at he
      refine ⟨r, leaf, e, hf, ?_, hpe⟩
      rw [← Option.some.inj he]
      exact hv
    · rw [hm.reads.absent k hno] at he
      cases he
  · rcases hm.stored.find k with ⟨r, leaf, hr, -⟩ | ⟨-, hf⟩
    · obtain ⟨v, -, hmv⟩ := hm.reads.present (k, r) hr
      have hsome : scattered a _ k = some v := hmv
      rw [scattered_none a hk] at hsome
      cases hsome
    · exact hf
  · have hsum := reduce_eq hpos' (fun key hk => payloadOf_eq hp heven hm hk)
      threads 0
    rw [Nat.zero_add] at hsum
    exact hsum

/-- Five requested elements become six. -/
def sixElements : Arrays (roundNelements 5) :=
  ⟨4096, 8192, by decide, by decide, by decide, by decide, by decide⟩

/-- Six elements, and four lookups that two threads share. -/
theorem scatter_lookups_five :
    0 < 5 ∧ ∃ l, scatter sixElements (fun _ => 0) = .ok l
      ∧ l.reduce 6 [[3, 10], [7]] 0 = .ok 16 := by
  obtain ⟨l, hrun, -, -, hsum⟩ := scatter_lookups 5 (by decide) sixElements
    fun _ => 0
  refine ⟨by decide, l, hrun, ?_⟩
  have h := hsum [[3, 10], [7]]
  rw [show word (expectedSum (roundNelements 5) [[3, 10], [7]].flatten) = 16 by
    decide +kernel] at h
  exact h

end ThesisBench.Btree
