/-
No value is lost between the buffers and the window.

The blocks that the flushes reserve lie one after the other, so the values
they will hold are known from the moment of their reservation (`block`):
a slot of it has its value, or a thread is still to copy it there
(`Holds.slot`). What is pushed is in the block or still in a buffer. Since
a copy only writes the value that belongs there, that the blocks do not
overlap need not be carried along.
-/
import ThesisBench.Gapbs.QueueBuffer
import ThesisBench.Lib.Parallel

namespace ThesisBench.Gapbs.QueueBuffer

open Slots

variable {α : Type} {b b' : Buffer α} {c d : Config α} {i base pos : Nat}
  {old : List (Option α)} {pushed block : List α}

-- ========================================================== the invariant

/-- The values that a thread has not reserved a slot for. -/
def Buffer.held (b : Buffer α) : List α :=
  match b.pc with
  | .idle => b.localQueue
  | .flushing after => b.localQueue ++ after.toList
  | .copying _ _ after => after.toList
  | .storing toAdd => b.localQueue ++ [toAdd]

/-- The thread is still to write the slot `pos`. -/
def Buffer.Owes (b : Buffer α) (pos : Nat) : Prop :=
  ∃ copyStart k after, b.pc = .copying copyStart k after
    ∧ copyStart + k ≤ pos ∧ pos < copyStart + b.localQueue.length

/-- The buffer has room for what is stored next, and what is copied has
its place in the block. -/
def Buffer.Sits (base : Nat) (block : List α) (b : Buffer α) : Prop :=
  1 ≤ b.localSize ∧ b.localQueue.length ≤ b.localSize ∧
    match b.pc with
    | .idle => True
    | .flushing _ => True
    | .copying copyStart k _ => k ≤ b.localQueue.length
        ∧ ∃ before rest, block = before ++ b.localQueue ++ rest ∧ copyStart = base + before.length
    | .storing _ => b.localQueue.length < b.localSize

/-- A phase that began with the array `old` and the slots below `base` in
use, after the calls have pushed the values `pushed`. -/
structure Holds (old : List (Option α)) (base : Nat) (pushed block : List α)
    (c : Config α) : Prop where
  outEnd : c.queue.outEnd = base
  length : c.queue.shared.length = old.length
  earlier : c.queue.shared.take base = old.take base
  room : base + pushed.length ≤ old.length
  sharedIn : c.queue.sharedIn = base + block.length
  perm : pushed.Perm (block ++ c.buffers.flatMap Buffer.held)
  slot : ∀ j x, block[j]? = some x → c.queue.shared[base + j]? = some (some x)
    ∨ ∃ b ∈ c.buffers, b.Owes (base + j)
  sits : ∀ b ∈ c.buffers, b.Sits base block

theorem Holds.length_block (h : Holds old base pushed block c) :
    base + block.length ≤ old.length := by
  have hlen := h.perm.length_eq
  rw [List.length_append] at hlen
  have hroom := h.room
  omega

/-- A buffer keeps its place when the block grows. -/
theorem Buffer.Sits.append (h : b.Sits base block) (more : List α) :
    b.Sits base (block ++ more) := by
  obtain ⟨hsize, hle, hpc⟩ := h
  refine ⟨hsize, hle, ?_⟩
  cases hb : b.pc with
  | idle => trivial
  | flushing after => trivial
  | copying copyStart k after =>
      rw [hb] at hpc
      obtain ⟨hk, before, rest, hblock, hstart⟩ := hpc
      exact ⟨hk, before, rest ++ more, by rw [hblock, List.append_assoc], hstart⟩
  | storing toAdd =>
      rw [hb] at hpc
      exact hpc

theorem Buffer.idle_iff : b.idle = true ↔ b.pc = .idle := by
  unfold Buffer.idle
  cases b.pc <;> simp

theorem Buffer.Owes.copying (h : b.Owes pos) : b.idle = false := by
  obtain ⟨copyStart, k, after, hpc, -⟩ := h
  unfold Buffer.idle
  rw [hpc]

/-- A thread that moves within its buffer, between two accesses of the
shared queue. -/
theorem Holds.local (h : Holds old base pushed block c) (hb : c.buffers[i]? = some b)
    {x : List α} (hroom : base + (pushed ++ x).length ≤ old.length)
    (hheld : b'.held = b.held ++ x) (howes : ∀ pos, ¬ b.Owes pos) (hsits : b'.Sits base block) :
    Holds old base (pushed ++ x) block { c with buffers := c.buffers.set i b' } where
  outEnd := h.outEnd
  length := h.length
  earlier := h.earlier
  room := hroom
  sharedIn := h.sharedIn
  perm := by
    obtain ⟨rest, hrest, hset⟩ := Parallel.flatMap_set_perm Buffer.held hb
    have hnew : (pushed ++ x).Perm (block ++ (b.held ++ rest) ++ x) :=
      (h.perm.trans (hrest.append_left block)).append_right x
    refine hnew.trans ?_
    rw [List.append_assoc]
    refine List.Perm.append_left block (List.Perm.trans ?_ (hset b').symm)
    rw [hheld, List.append_assoc, List.append_assoc]
    exact List.perm_append_comm.append_left b.held
  slot j y hy := by
    rcases h.slot j y hy with hshared | ⟨b₀, hmem, howes₀⟩
    · exact Or.inl hshared
    · refine Or.inr ⟨b₀, Parallel.mem_set_of_ne hb hmem ?_, howes₀⟩
      rintro rfl
      exact howes _ howes₀
  sits b₀ hmem := by
    rcases List.mem_or_eq_of_mem_set hmem with hmem | rfl
    · exact h.sits b₀ hmem
    · exact hsits

-- ============================================================== the steps

/-- `fetch_and_add` -/
theorem Holds.reserve (h : Holds old base pushed block c) (hb : c.buffers[i]? = some b)
    {after : Option α} (hpc : b.pc = .flushing after) :
    Holds old base pushed (block ++ b.localQueue)
      ⟨{ c.queue with sharedIn := c.queue.sharedIn + b.localQueue.length },
        c.buffers.set i { b with pc := .copying c.queue.sharedIn 0 after }⟩ where
  outEnd := h.outEnd
  length := h.length
  earlier := h.earlier
  room := h.room
  sharedIn := by
    show c.queue.sharedIn + b.localQueue.length = _
    rw [h.sharedIn, List.length_append, Nat.add_assoc]
  perm := by
    obtain ⟨rest, hrest, hset⟩ := Parallel.flatMap_set_perm Buffer.held hb
    have hheld : b.held = b.localQueue ++ after.toList := by rw [Buffer.held, hpc]
    refine (h.perm.trans (hrest.append_left block)).trans ?_
    rw [hheld, List.append_assoc b.localQueue, ← List.append_assoc block]
    exact ((hset { b with pc := .copying c.queue.sharedIn 0 after }).append_left _).symm
  slot j y hy := by
    have hi : i < c.buffers.length := (List.getElem?_eq_some_iff.mp hb).1
    by_cases hj : j < block.length
    · rw [List.getElem?_append_left hj] at hy
      rcases h.slot j y hy with hshared | ⟨b₀, hmem, howes⟩
      · exact Or.inl hshared
      · refine Or.inr ⟨b₀, Parallel.mem_set_of_ne hb hmem ?_, howes⟩
        rintro rfl
        obtain ⟨_, _, _, hcopy, -⟩ := howes
        rw [hpc] at hcopy
        cases hcopy
    · have hlt := (List.getElem?_eq_some_iff.mp hy).1
      rw [List.length_append] at hlt
      refine Or.inr ⟨_, List.mem_of_getElem? (List.getElem?_set_self hi), _, 0, after, rfl, ?_⟩
      rw [h.sharedIn]
      show base + block.length + 0 ≤ base + j ∧ base + j < base + block.length + b.localQueue.length
      omega
  sits b₀ hmem := by
    rcases List.mem_or_eq_of_mem_set hmem with hmem | rfl
    · exact (h.sits b₀ hmem).append _
    · obtain ⟨hsize, hle, -⟩ := h.sits b (List.mem_of_getElem? hb)
      exact ⟨hsize, hle, Nat.zero_le _, block, [], (List.append_nil _).symm, h.sharedIn⟩

/-- The copy of an element puts what belongs there. -/
theorem Holds.copy (h : Holds old base pushed block c) (hb : c.buffers[i]? = some b)
    {copyStart k : Nat} {after : Option α} {x : α} (hpc : b.pc = .copying copyStart k after)
    (hx : b.localQueue[k]? = some x) :
    copyStart + k < c.queue.shared.length
      ∧ Holds old base pushed block
        ⟨{ c.queue with shared := c.queue.shared.set (copyStart + k) (some x) },
          c.buffers.set i { b with pc := .copying copyStart (k + 1) after }⟩ := by
  have hsits := h.sits b (List.mem_of_getElem? hb)
  unfold Buffer.Sits at hsits
  rw [hpc] at hsits
  obtain ⟨hsize, hle, -, before, rest, hblock, hstart⟩ := hsits
  have hk : k < b.localQueue.length := (List.getElem?_eq_some_iff.mp hx).1
  have hat : block[before.length + k]? = some x := by
    rw [hblock, List.append_assoc, List.getElem?_append_right (by omega),
      List.getElem?_append_left (by omega), Nat.add_sub_cancel_left, hx]
  have hlt := (List.getElem?_eq_some_iff.mp hat).1
  have hroom := h.length_block
  have hin : copyStart + k < c.queue.shared.length := by
    rw [h.length]
    omega
  refine ⟨hin, ?_⟩
  exact
    { outEnd := h.outEnd
      length := List.length_set.trans h.length
      earlier := by
        show (c.queue.shared.set (copyStart + k) (some x)).take base = _
        rw [List.take_set_of_le (by omega)]
        exact h.earlier
      room := h.room
      sharedIn := h.sharedIn
      perm := by
        obtain ⟨rest, hrest, hset⟩ := Parallel.flatMap_set_perm Buffer.held hb
        have hheld : b.held = after.toList := by rw [Buffer.held, hpc]
        refine (h.perm.trans (hrest.append_left block)).trans ?_
        rw [hheld]
        exact ((hset { b with pc := .copying copyStart (k + 1) after }).append_left block).symm
      slot := fun j y hy => by
        by_cases hj : copyStart + k = base + j
        · have heq : j = before.length + k := by omega
          rw [heq, hat] at hy
          refine Or.inl ?_
          show (c.queue.shared.set (copyStart + k) (some x))[base + j]? = _
          rw [← hj, List.getElem?_set_self hin]
          exact congrArg some hy
        · rcases h.slot j y hy with hshared | ⟨b₀, hmem, howes⟩
          · exact Or.inl ((List.getElem?_set_ne hj).trans hshared)
          · by_cases hne : b₀ = b
            · -- the thread itself, which has gone past another slot
              subst hne
              obtain ⟨_, _, _, hcopy, hlow, hhigh⟩ := howes
              rw [hpc] at hcopy
              cases hcopy
              have hi : i < c.buffers.length := (List.getElem?_eq_some_iff.mp hb).1
              refine Or.inr ⟨_, List.mem_of_getElem? (List.getElem?_set_self hi), _, _, _, rfl, ?_,
                hhigh⟩
              omega
            · exact Or.inr ⟨b₀, Parallel.mem_set_of_ne hb hmem hne, howes⟩
      sits := fun b₀ hmem => by
        rcases List.mem_or_eq_of_mem_set hmem with hmem | rfl
        · exact h.sits b₀ hmem
        · exact ⟨hsize, hle, hk, before, rest, hblock, hstart⟩ }

/-- A busy thread can move, and keeps the phase. -/
theorem Holds.move (h : Holds old base pushed block c) (hb : c.buffers[i]? = some b)
    (hbusy : b.idle = false) :
    ∃ d block', step c (.move i) = some d ∧ Holds old base pushed block' d := by
  have hstep : ∀ {b' q'}, b.move c.queue = some (b', q') →
      step c (.move i) = some ⟨q', c.buffers.set i b'⟩ := by
    intro b' q' hmove
    simp only [step, hb, Option.bind_eq_bind, Option.bind_some, hmove]
    rfl
  have hsits := h.sits b (List.mem_of_getElem? hb)
  have hnone : base + (pushed ++ []).length ≤ old.length := by
    rw [List.append_nil]
    exact h.room
  cases hpc : b.pc with
  | idle =>
      rw [Buffer.idle_iff.mpr hpc] at hbusy
      cases hbusy
  | flushing after =>
      refine ⟨_, _, hstep ?_, h.reserve hb hpc⟩
      simp only [Buffer.move, hpc]
  | copying copyStart k after =>
      cases hx : b.localQueue[k]? with
      | some x =>
          obtain ⟨hin, hcopy⟩ := h.copy hb hpc hx
          refine ⟨_, block, hstep ?_, hcopy⟩
          simp only [Buffer.move, hpc, hx, write_natCast hin, Option.map_some]
      | none =>
          have hend := List.getElem?_eq_none_iff.mp hx
          have hheld : (b.emptied after).held = b.held ++ [] := by
            rw [List.append_nil]
            cases after <;> simp [Buffer.emptied, Buffer.held, hpc]
          have howes : ∀ pos, ¬ b.Owes pos := by
            rintro pos ⟨_, _, _, hcopy, hlow, hhigh⟩
            rw [hpc] at hcopy
            cases hcopy
            omega
          have hnew : (b.emptied after).Sits base block := by
            refine ⟨hsits.1, Nat.zero_le _, ?_⟩
            cases after with
            | none => trivial
            | some x => exact hsits.1
          have hnext := h.local hb hnone hheld howes hnew
          rw [List.append_nil] at hnext
          refine ⟨_, block, hstep ?_, hnext⟩
          simp only [Buffer.move, hpc, hx]
  | storing toAdd =>
      unfold Buffer.Sits at hsits
      rw [hpc] at hsits
      obtain ⟨hsize, -, hlt⟩ := hsits
      have hheld : ({ b with localQueue := b.localQueue ++ [toAdd], pc := .idle } : Buffer α).held
          = b.held ++ [] := by
        rw [List.append_nil, Buffer.held, Buffer.held, hpc]
      have howes : ∀ pos, ¬ b.Owes pos := by
        rintro pos ⟨_, _, _, hcopy, -⟩
        rw [hpc] at hcopy
        cases hcopy
      have hnext := h.local hb hnone hheld howes ⟨hsize, by
        show (b.localQueue ++ [toAdd]).length ≤ b.localSize
        rw [List.length_append]
        exact hlt, trivial⟩
      rw [List.append_nil] at hnext
      refine ⟨_, block, hstep ?_, hnext⟩
      simp only [Buffer.move, hpc, if_pos hlt]

/-- A call, which pushes at most one value. -/
theorem Holds.call (h : Holds old base pushed block c) {f : Buffer α → Buffer α} {x : List α}
    (hcall : c.call i f = some d) (hroom : base + (pushed ++ x).length ≤ old.length)
    (hheld : ∀ b : Buffer α, b.pc = .idle → (f b).held = b.held ++ x)
    (hsits : ∀ b : Buffer α, b.pc = .idle → b.Sits base block → (f b).Sits base block) :
    Holds old base (pushed ++ x) block d := by
  obtain ⟨b, hb, hcall⟩ := Option.bind_eq_some_iff.mp hcall
  split at hcall
  case isTrue hidle =>
    cases hcall
    have hpc := Buffer.idle_iff.mp hidle
    refine h.local hb hroom (hheld b hpc) (fun pos howes => ?_)
      (hsits b hpc (h.sits b (List.mem_of_getElem? hb)))
    rw [howes.copying] at hidle
    cases hidle
  case isFalse => cases hcall

theorem Holds.construct (h : Holds old base pushed block c) {givenSize : Nat}
    (hsize : 1 ≤ givenSize) :
    Holds old base pushed block
      { c with buffers := c.buffers ++ [⟨givenSize, [], .idle⟩] } where
  outEnd := h.outEnd
  length := h.length
  earlier := h.earlier
  room := h.room
  sharedIn := h.sharedIn
  perm := by
    rw [List.flatMap_append]
    simpa [Buffer.held] using h.perm
  slot j y hy := by
    rcases h.slot j y hy with hshared | ⟨b₀, hmem, howes⟩
    · exact Or.inl hshared
    · exact Or.inr ⟨b₀, List.mem_append_left _ hmem, howes⟩
  sits b₀ hmem := by
    rcases List.mem_append.mp hmem with hmem | hmem
    · exact h.sits b₀ hmem
    · rw [List.mem_singleton.mp hmem]
      exact ⟨hsize, Nat.zero_le _, trivial⟩

/-- `push_back` of the queue itself, with no thread in a call. -/
theorem Holds.pushBack (h : Holds old base pushed block c) (hidle : c.allIdle = true) {x : α}
    {q : Queue α} (hq : c.queue.pushBack x = some q)
    (hroom : base + (pushed ++ [x]).length ≤ old.length) :
    Holds old base (pushed ++ [x]) (block ++ [x]) { c with queue := q } := by
  have hlt : c.queue.sharedIn < c.queue.shared.length := by
    have hlen := h.perm.length_eq
    rw [List.length_append] at hlen hroom
    rw [h.sharedIn, h.length]
    rw [List.length_singleton] at hroom
    omega
  rw [Queue.pushBack, write_natCast hlt] at hq
  cases hq
  have hnone : ∀ b ∈ c.buffers, ∀ pos, ¬ b.Owes pos := by
    intro b hb pos howes
    have hb' := List.all_eq_true.mp hidle b hb
    rw [howes.copying] at hb'
    cases hb'
  exact
    { outEnd := h.outEnd
      length := List.length_set.trans h.length
      earlier := by
        show (c.queue.shared.set c.queue.sharedIn (some x)).take base = _
        rw [List.take_set_of_le (by rw [h.sharedIn]; omega)]
        exact h.earlier
      room := hroom
      sharedIn := by
        show c.queue.sharedIn + 1 = _
        rw [h.sharedIn, List.length_append, List.length_singleton, Nat.add_assoc]
      perm := by
        refine (h.perm.append_right [x]).trans ?_
        rw [List.append_assoc, List.append_assoc]
        exact List.perm_append_comm.append_left block
      slot := fun j y hy => by
        refine Or.inl ?_
        show (c.queue.shared.set c.queue.sharedIn (some x))[base + j]? = _
        by_cases hj : j < block.length
        · rw [List.getElem?_append_left hj] at hy
          rw [List.getElem?_set_ne (by rw [h.sharedIn]; omega)]
          rcases h.slot j y hy with hshared | ⟨b, hb, howes⟩
          · exact hshared
          · exact absurd howes (hnone b hb _)
        · have hjlt := (List.getElem?_eq_some_iff.mp hy).1
          rw [List.length_append, List.length_singleton] at hjlt
          have heq : j = block.length := by omega
          subst heq
          rw [List.getElem?_append_right (Nat.le_refl _), Nat.sub_self] at hy
          rw [← h.sharedIn, List.getElem?_set_self hlt]
          exact congrArg some hy
      sits := fun b hb => (h.sits b hb).append _ }

theorem Buffer.push_full (h : b.localQueue.length = b.localSize) (x : α) :
    b.push x = { b with pc := .flushing (some x) } := by
  rw [Buffer.push, if_pos h]

theorem Buffer.push_room (h : b.localQueue.length ≠ b.localSize) (x : α) :
    b.push x = { b with pc := .storing x } := by
  rw [Buffer.push, if_neg h]

/-- A push adds its value to what the buffer holds. -/
theorem Buffer.held_push (b : Buffer α) (x : α) : (b.push x).held = b.localQueue ++ [x] := by
  by_cases hfull : b.localQueue.length = b.localSize
  · rw [Buffer.push_full hfull]
    rfl
  · rw [Buffer.push_room hfull]
    rfl

/-- A step that is not `slide_window`. -/
theorem Holds.step (h : Holds old base pushed block c) {e : Event α}
    (hstep : QueueBuffer.step c e = some d)
    (hslide : e ≠ .slide) (hroom : base + (pushed ++ pushes [e]).length ≤ old.length) :
    ∃ block', Holds old base (pushed ++ pushes [e]) block' d := by
  have hnil : pushed ++ pushes ([] : List (Event α)) = pushed := List.append_nil _
  cases e with
  | construct givenSize =>
      rw [QueueBuffer.step] at hstep
      split at hstep
      case isTrue hsize =>
        cases hstep
        exact ⟨block, hnil.symm ▸ h.construct hsize⟩
      case isFalse => cases hstep
  | push i toAdd =>
      refine ⟨block, h.call hstep hroom (fun b hpc => ?_) fun b hpc hsits => ?_⟩
      · rw [Buffer.held_push, Buffer.held, hpc]
        rfl
      · by_cases hfull : b.localQueue.length = b.localSize
        · rw [Buffer.push_full hfull]
          exact ⟨hsits.1, hsits.2.1, trivial⟩
        · rw [Buffer.push_room hfull]
          exact ⟨hsits.1, hsits.2.1, Nat.lt_of_le_of_ne hsits.2.1 hfull⟩
  | flush i =>
      refine ⟨block, h.call hstep hroom (fun b hpc => ?_) fun b hpc hsits => ?_⟩
      · unfold Buffer.held
        rw [hpc]
        rfl
      · exact ⟨hsits.1, hsits.2.1, trivial⟩
  | move i =>
      obtain ⟨b, hb, hmove⟩ := Option.bind_eq_some_iff.mp hstep
      have hbusy : b.idle = false := by
        cases hidle : b.idle with
        | false => rfl
        | true =>
            rw [Buffer.move, Buffer.idle_iff.mp hidle] at hmove
            cases hmove
      obtain ⟨d', block', hstep', h'⟩ := h.move hb hbusy
      cases hstep.symm.trans hstep'
      exact ⟨block', hnil.symm ▸ h'⟩
  | pushBack toAdd =>
      rw [QueueBuffer.step] at hstep
      split at hstep
      case isTrue hidle =>
        obtain ⟨q, hq, rfl⟩ := Option.map_eq_some_iff.mp hstep
        exact ⟨_, h.pushBack hidle hq hroom⟩
      case isFalse => cases hstep
  | slide => exact absurd rfl hslide

-- =========================================================== the windows

/-- With all buffers flushed, the block is in the array, and holds what
was pushed. -/
theorem Holds.flushed (h : Holds old base pushed block c) (hflushed : c.flushed = true) :
    pushed.Perm block
      ∧ slice c.queue.shared base c.queue.sharedIn = some (block.map some) := by
  have hempty : ∀ b ∈ c.buffers, b.pc = .idle ∧ b.localQueue = [] := by
    intro b hb
    have hb' := List.all_eq_true.mp hflushed b hb
    rw [Buffer.flushed, Bool.and_eq_true, List.isEmpty_iff] at hb'
    exact ⟨Buffer.idle_iff.mp hb'.1, hb'.2⟩
  have hheld : c.buffers.flatMap Buffer.held = [] := by
    refine List.flatMap_eq_nil_iff.mpr fun b hb => ?_
    obtain ⟨hpc, hlocal⟩ := hempty b hb
    rw [Buffer.held, hpc]
    exact hlocal
  have hslot : ∀ j x, block[j]? = some x → c.queue.shared[base + j]? = some (some x) := by
    intro j x hx
    rcases h.slot j x hx with hshared | ⟨b, hb, _, _, _, hcopy, -⟩
    · exact hshared
    · rw [(hempty b hb).1] at hcopy
      cases hcopy
  have hlen := h.length_block
  have hin := h.sharedIn
  have htotal := h.length
  refine ⟨by simpa [hheld] using h.perm, ?_⟩
  rw [slice, if_pos ⟨by omega, by omega, by omega⟩]
  refine congrArg some (List.ext_getElem? fun j => ?_)
  rw [List.getElem?_take, List.getElem?_map]
  by_cases hj : j < block.length
  · rw [if_pos (by omega), List.getElem?_drop, Int.toNat_natCast,
      hslot j block[j] (List.getElem?_eq_getElem hj), List.getElem?_eq_getElem hj]
    rfl
  · rw [if_neg (by omega), List.getElem?_eq_none (by omega)]
    rfl

/-- The phase that `slide_window` begins. -/
theorem Holds.slide (h : Holds old base pushed block c) (hflushed : c.flushed = true) :
    Holds c.queue.shared c.queue.sharedIn [] [] { c with queue := c.queue.slideWindow } := by
  have hheld : c.buffers.flatMap Buffer.held = [] := by
    have hperm := h.perm
    have hblock := (h.flushed hflushed).1
    have hlen := hperm.length_eq
    rw [List.length_append, hblock.length_eq] at hlen
    exact List.eq_nil_of_length_eq_zero (by omega)
  exact
    { outEnd := rfl
      length := rfl
      earlier := rfl
      room := by
        have hlen := h.length_block
        rw [h.sharedIn, h.length]
        exact hlen
      sharedIn := rfl
      perm := by
        rw [hheld]
        exact List.Perm.refl _
      slot := fun j x hx => by cases hx
      sits := fun b hb => by
        have hb' := List.all_eq_true.mp hflushed b hb
        rw [Buffer.flushed, Bool.and_eq_true] at hb'
        obtain ⟨hsize, hle, -⟩ := h.sits b hb
        refine ⟨hsize, hle, ?_⟩
        rw [Buffer.idle_iff.mp hb'.1]
        trivial }

theorem holds_start (shared : List (Option α)) : Holds shared 0 [] [] (start shared) where
  outEnd := rfl
  length := rfl
  earlier := rfl
  room := Nat.zero_le _
  sharedIn := rfl
  perm := List.Perm.refl _
  slot j x hx := by cases hx
  sits b hb := by cases hb

/-- The values pushed by the first event and by the others. -/
theorem pushes_cons (e : Event α) (events : List (Event α)) :
    pushes (e :: events) = pushes [e] ++ pushes events := by
  rw [← List.singleton_append, pushes, List.filterMap_append]
  rfl

/-- A run without `slide_window` stays in the phase. -/
theorem Holds.phase (events : List (Event α)) : ∀ {pushed block : List α} {c : Config α},
    Holds old base pushed block c → run c events = some d → Event.slide ∉ events →
    base + (pushed ++ pushes events).length ≤ old.length →
    ∃ block', Holds old base (pushed ++ pushes events) block' d := by
  induction events with
  | nil =>
      intro pushed block c h hrun _ _
      cases hrun
      exact ⟨block, (List.append_nil pushed).symm ▸ h⟩
  | cons e events ih =>
      intro pushed block c h hrun hslide hroom
      obtain ⟨c', hstep, hrun⟩ := Option.bind_eq_some_iff.mp hrun
      rw [List.mem_cons, not_or] at hslide
      rw [pushes_cons, ← List.append_assoc] at hroom ⊢
      have hroom' : base + (pushed ++ pushes [e]).length ≤ old.length := by
        rw [List.length_append] at hroom
        omega
      obtain ⟨block', h'⟩ := h.step hstep (Ne.symm hslide.1) hroom'
      exact ih h' hrun hslide.2 hroom

/-- Any run is in some phase, and every value pushed before the phase has
its slot below it. -/
theorem Holds.phases (events : List (Event α)) :
    ∀ {old : List (Option α)} {base : Nat} {pushed block : List α} {c : Config α},
    Holds old base pushed block c → run c events = some d →
    base + (pushed ++ pushes events).length ≤ old.length →
    ∃ (old' : List (Option α)) (base' : Nat) (pushed' block' : List α),
      Holds old' base' pushed' block' d ∧ old'.length = old.length
        ∧ base' + pushed'.length = base + (pushed ++ pushes events).length := by
  induction events with
  | nil =>
      intro old base pushed block c h hrun _
      cases hrun
      refine ⟨old, base, pushed, block, h, rfl, ?_⟩
      rw [show pushed ++ pushes [] = pushed from List.append_nil _]
  | cons e events ih =>
      intro old base pushed block c h hrun hroom
      obtain ⟨c', hstep, hrun⟩ := Option.bind_eq_some_iff.mp hrun
      rw [pushes_cons, ← List.append_assoc] at hroom ⊢
      by_cases hslide : e = .slide
      · subst hslide
        rw [QueueBuffer.step] at hstep
        split at hstep
        case isTrue hflushed =>
          cases hstep
          have hlen : c.queue.sharedIn = base + pushed.length := by
            rw [h.sharedIn, (h.flushed hflushed).1.length_eq]
          have hnone : pushed ++ pushes [Event.slide] = pushed := List.append_nil _
          rw [hnone, List.length_append] at hroom ⊢
          obtain ⟨old', base', pushed', block', h', hold, hsum⟩ :=
            ih (h.slide hflushed) hrun (by rw [hlen, h.length, List.nil_append]; omega)
          refine ⟨old', base', pushed', block', h', hold.trans h.length, ?_⟩
          rw [hsum, hlen, List.nil_append, Nat.add_assoc]
        case isFalse => cases hstep
      · have hroom' : base + (pushed ++ pushes [e]).length ≤ old.length := by
          rw [List.length_append] at hroom
          omega
        obtain ⟨block', h'⟩ := h.step hstep hslide hroom'
        exact ih h' hrun hroom

/-- Where a phase begins. -/
theorem holds_phase (shared : List (Option α)) {history : List (Event α)}
    (hrun : run (start shared) history = some c)
    (hlast : history = [] ∨ history.getLast? = some .slide)
    (hroom : (pushes history).length ≤ shared.length) :
    Holds c.queue.shared c.queue.outEnd [] [] c ∧ c.queue.shared.length = shared.length
      ∧ c.queue.outEnd = (pushes history).length := by
  rcases hlast with rfl | hlast
  · cases hrun
    exact ⟨holds_start shared, rfl, rfl⟩
  · obtain ⟨before, rfl⟩ := List.getLast?_eq_some_iff.mp hlast
    rw [run, List.foldlM_append] at hrun
    obtain ⟨c₀, hrun₀, hslide⟩ := Option.bind_eq_some_iff.mp hrun
    obtain ⟨c₁, hslide, hpure⟩ := Option.bind_eq_some_iff.mp hslide
    cases hpure
    have hpushes : pushes (before ++ [Event.slide]) = pushes before := by
      rw [pushes, List.filterMap_append]
      exact List.append_nil _
    rw [hpushes] at hroom ⊢
    obtain ⟨old, base, pushed, block, h, hold, hsum⟩ :=
      (holds_start shared).phases before hrun₀ (by rw [Nat.zero_add]; exact hroom)
    rw [QueueBuffer.step] at hslide
    split at hslide
    case isTrue hflushed =>
      cases hslide
      refine ⟨h.slide hflushed, h.length.trans hold, ?_⟩
      show c₀.queue.sharedIn = _
      rw [h.sharedIn, ← (h.flushed hflushed).1.length_eq, hsum, Nat.zero_add]
      rfl
    case isFalse => cases hslide

-- ============================================================ the result

/-- A slice depends only on what comes before its end. -/
theorem slice_eq_of_take {β : Type} {l l' : List β} {i j : Int} (hlen : l.length = l'.length)
    (h : l.take j.toNat = l'.take j.toNat) : slice l i j = slice l' i j := by
  unfold slice
  rw [hlen]
  split
  case isTrue hin =>
    have hsub : (j - i).toNat = j.toNat - i.toNat := by omega
    rw [hsub, ← List.drop_take, ← List.drop_take, h]
  case isFalse => rfl

/-- From one `slide_window` to the next no thread gets stuck, and when
the buffers are flushed the new window is what was pushed, behind the
old one and with nothing before it changed. -/
theorem slideWindow_window (shared : List (Option α)) (history events : List (Event α))
    (c d : Config α) (hhistory : run (start shared) history = some c)
    (hlast : history = [] ∨ history.getLast? = some .slide)
    (hrun : run c events = some d) (hslide : Event.slide ∉ events)
    (hroom : (pushes (history ++ events)).length ≤ shared.length) :
    (∀ i b, d.buffers[i]? = some b → b.idle = false → ∃ d', step d (.move i) = some d')
      ∧ (d.flushed = true →
        (∃ values : List α, d.queue.slideWindow.window = some (values.map some)
            ∧ values.Perm (pushes events))
          ∧ d.queue.slideWindow.outStart = c.queue.outEnd
          ∧ slice d.queue.slideWindow.shared c.queue.outStart c.queue.outEnd = c.queue.window
          ∧ d.queue.slideWindow.shared.take c.queue.outEnd
              = c.queue.shared.take c.queue.outEnd) := by
  have hsplit : pushes (history ++ events) = pushes history ++ pushes events := by
    rw [pushes, List.filterMap_append]
    rfl
  rw [hsplit, List.length_append] at hroom
  obtain ⟨h, hlen, hend⟩ := holds_phase shared hhistory hlast (by omega)
  obtain ⟨block, h'⟩ := h.phase events hrun hslide (by rw [hlen, hend, List.nil_append]; omega)
  rw [List.nil_append] at h'
  refine ⟨fun i b hb hbusy => ?_, fun hflushed => ⟨⟨block, ?_, ?_⟩, h'.outEnd, ?_, h'.earlier⟩⟩
  · obtain ⟨d', -, hd', -⟩ := h'.move hb hbusy
    exact ⟨d', hd'⟩
  · rw [Queue.window, Queue.slideWindow]
    dsimp only
    rw [h'.outEnd]
    exact (h'.flushed hflushed).2
  · exact (h'.flushed hflushed).1.symm
  · refine slice_eq_of_take h'.length ?_
    rw [Int.toNat_natCast]
    exact h'.earlier

/-- One value from the main thread, and a window of it. -/
def firstPhase : List (Event Nat) := [.construct 1, .construct 2, .pushBack 9, .slide]

/-- Two threads, whose flushes overlap; the first one's buffer fills. -/
def secondPhase : List (Event Nat) :=
  [.push 0 5, .push 1 6, .move 0, .move 1, .push 0 7, .flush 1, .move 1, .move 0, .move 0,
    .move 1, .move 0, .move 0, .move 1, .flush 0, .move 0, .move 0, .move 0]

/-- The memory after the first phase. -/
def afterFirst : Config Nat :=
  (run (start [none, none, none, none]) firstPhase).getD (start [])

/-- The memory after both. -/
def afterSecond : Config Nat := (run afterFirst secondPhase).getD (start [])

/-- The second phase, with two flushes that overlap. -/
theorem slideWindow_window_two :
    (∀ i b, afterSecond.buffers[i]? = some b → b.idle = false →
        ∃ d', step afterSecond (.move i) = some d')
      ∧ (afterSecond.flushed = true →
        (∃ values : List Nat, afterSecond.queue.slideWindow.window = some (values.map some)
            ∧ values.Perm (pushes secondPhase))
          ∧ afterSecond.queue.slideWindow.outStart = afterFirst.queue.outEnd
          ∧ slice afterSecond.queue.slideWindow.shared afterFirst.queue.outStart
              afterFirst.queue.outEnd = afterFirst.queue.window
          ∧ afterSecond.queue.slideWindow.shared.take afterFirst.queue.outEnd
              = afterFirst.queue.shared.take afterFirst.queue.outEnd) :=
  slideWindow_window [none, none, none, none] firstPhase secondPhase _ _ rfl (Or.inr rfl) rfl
    (by intro h; simp [secondPhase] at h) (by decide)

example : afterSecond.flushed = true
    ∧ afterSecond.queue.shared = [some 9, some 6, some 5, some 7] := by decide

end ThesisBench.Gapbs.QueueBuffer
