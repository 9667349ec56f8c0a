import Wandio.ThreadReader.StepTheorems
import Wandio.Utils.RingBuffer

/-!
# The ring of the threaded reader

`Ring` says which read of the parent each slot holds: the caller is at read number `head`,
the producer `k` reads further on. One lemma for each operation of the two threads.
-/

namespace Wandio.ThreadReader

open RingBuffer

/-- The slot at distance `j` from position `head` of a ring of `n` slots. -/
def State.slotAt (s : State) (n head j : ℕ) : BufferT := s.buffer ((head + j) % n)

/-- A slot holds the result of a read. -/
def Holds (b : BufferT) (r : ReadResult) : Prop :=
  b.len = r.ret ∧ (0 < r.ret → b.space.take r.data.length = r.data)

/-- The producer's reads: one more than it has counted between a read and `relock`. -/
def ProducerPc.ahead : ProducerPc → ℕ
  | .relock => 1
  | _ => 0

/-- The ring when the caller is at read `head` and the next `k` reads are in the slots. -/
structure Ring (n : ℕ) (parent : ℕ → ReadResult) (s : State) (head k : ℕ) : Prop where
  pos : 0 < n
  inBuffer_eq : s.inBuffer = head % n
  index_eq : s.index = (head + k) % n
  k_le : k ≤ n
  full : ∀ j, j < k → (s.slotAt n head j).state = .full ∧
    Holds (s.slotAt n head j) (parent (head + j))
  free : ∀ j, k ≤ j → j < n → (s.slotAt n head j).state = .empty
  live_head : Live parent head
  live : s.producer ≠ .exited → Live parent (head + k)
  reads : s.producer ≠ .exited → s.parentOps.length = head + k + s.producer.ahead
  reading : s.producer = .reading → k < n
  relock : s.producer = .relock → k < n ∧ Holds (s.slotAt n head k) (parent (head + k))
  exited : s.producer = .exited →
    s.closing = true ∨ (0 < k ∧ (parent (head + k - 1)).ret ≤ 0)

@[simp] theorem signal_ahead (pc : ProducerPc) : pc.signal.ahead = pc.ahead := by cases pc <;> rfl

@[simp] theorem signal_eq_exited (pc : ProducerPc) : pc.signal = .exited ↔ pc = .exited := by
  cases pc <;> simp [ProducerPc.signal]

@[simp] theorem signal_eq_reading (pc : ProducerPc) : pc.signal = .reading ↔ pc = .reading := by
  cases pc <;> simp [ProducerPc.signal]

@[simp] theorem signal_eq_relock (pc : ProducerPc) : pc.signal = .relock ↔ pc = .relock := by
  cases pc <;> simp [ProducerPc.signal]

theorem Live.succ {parent : ℕ → ReadResult} {k : ℕ} (h : Live parent k)
    (hk : 0 < (parent k).ret) : Live parent (k + 1) := by
  intro i hi
  rcases Nat.lt_succ_iff_lt_or_eq.mp hi with hlt | rfl
  · exact h i hlt
  · exact hk

namespace Ring

variable {n : ℕ} {parent : ℕ → ReadResult} {s t : State} {head k : ℕ}

/-- Steps that leave the slots and the producer alone do not matter to the ring. -/
theorem congr (h : Ring n parent s head k) (hb : t.buffer = s.buffer)
    (hin : t.inBuffer = s.inBuffer) (hi : t.index = s.index) (hcl : t.closing = s.closing)
    (hops : t.parentOps = s.parentOps)
    (hpc : t.producer = s.producer) : Ring n parent t head k := by
  have hslot : t.slotAt n head = s.slotAt n head := by
    funext j; rw [State.slotAt, State.slotAt, hb]
  constructor
  · exact h.pos
  · rw [hin]; exact h.inBuffer_eq
  · rw [hi]; exact h.index_eq
  · exact h.k_le
  · rw [hslot]; exact h.full
  · rw [hslot]; exact h.free
  · exact h.live_head
  · rw [hpc]; exact h.live
  · rw [hpc, hops]; exact h.reads
  · rw [hpc]; exact h.reading
  · rw [hpc, hslot]; exact h.relock
  · rw [hpc, hcl]; exact h.exited

/-- The caller is at the oldest slot. -/
theorem inb_eq (h : Ring n parent s head k) : s.inb = s.slotAt n head 0 := by
  rw [State.inb, h.inBuffer_eq, State.slotAt, Nat.add_zero]

/-- The producer is at the slot behind the full ones. -/
theorem slot_eq (h : Ring n parent s head k) : s.buffer s.index = s.slotAt n head k := by
  rw [h.index_eq, State.slotAt]

/-- A slot that is not empty has been filled. -/
theorem pos_of_inb (h : Ring n parent s head k) (hin : s.inb.state ≠ .empty) : 0 < k := by
  by_contra hk
  refine hin ?_
  rw [h.inb_eq]
  exact h.free 0 (by omega) h.pos

/-- The producer's slot is free when the ring has room. -/
theorem lt_of_slot (h : Ring n parent s head k) (hslot : (s.buffer s.index).state ≠ .full) :
    k < n := by
  refine lt_of_le_of_ne h.k_le fun hk => hslot ?_
  have hfull := (h.full 0 (by rw [hk]; exact h.pos)).1
  rw [h.slot_eq, State.slotAt, hk, Nat.add_mod_right]
  rwa [State.slotAt, Nat.add_zero] at hfull

/-! ## The caller -/

/-- A slot that held data and was read to its end is given back. -/
theorem release (h : Ring n parent s head (k + 1)) (hret : 0 < (parent head).ret)
    (b : BufferT) (hb : b.state = .empty) (offset : ℕ) :
    Ring n parent { (s.setSlot s.inBuffer b).signalSpaceAvail with
      inBuffer := (s.inBuffer + 1) % n, offset := offset } (head + 1) k := by
  set t : State := { (s.setSlot s.inBuffer b).signalSpaceAvail with
    inBuffer := (s.inBuffer + 1) % n, offset := offset } with ht
  have hk := h.k_le
  have hslot : ∀ j, j + 1 < n → t.slotAt n (head + 1) j = s.slotAt n head (j + 1) := by
    intro j hj
    have hne := slot_ne n head (i := 0) (j := j + 1) (by omega) (by omega)
    rw [State.slotAt, State.slotAt, show head + 1 + j = head + (j + 1) by omega]
    show Function.update s.buffer s.inBuffer _ _ = _
    rw [h.inBuffer_eq]
    exact Function.update_of_ne hne.symm _ _
  have hlast : t.slotAt n (head + 1) (n - 1) = b := by
    rw [State.slotAt, show head + 1 + (n - 1) = head + n by have := h.pos; omega,
      Nat.add_mod_right, ← h.inBuffer_eq]
    exact Function.update_self _ _ _
  have hpc : t.producer = s.producer.signal := rfl
  have hadd : head + 1 + k = head + (k + 1) := by omega
  constructor
  · exact h.pos
  · show (s.inBuffer + 1) % n = _
    rw [h.inBuffer_eq, Nat.mod_add_mod]
  · rw [hadd]
    exact h.index_eq
  · omega
  · intro j hj
    rw [hslot j (by omega), show head + 1 + j = head + (j + 1) by omega]
    exact h.full _ (by omega)
  · intro j hj hjn
    by_cases hjl : j + 1 < n
    · rw [hslot j hjl]
      exact h.free _ (by omega) hjl
    · rw [show j = n - 1 by omega, hlast]
      exact hb
  · exact h.live_head.succ hret
  · intro hex
    rw [hadd]
    exact h.live (by simpa [hpc] using hex)
  · intro hex
    rw [hpc, signal_ahead, hadd]
    exact h.reads (by simpa [hpc] using hex)
  · intro hr
    have := h.reading (by simpa [hpc] using hr)
    omega
  · intro hr
    obtain ⟨hlt, hholds⟩ := h.relock (by simpa [hpc] using hr)
    rw [hslot k hlt, hadd]
    exact ⟨by omega, hholds⟩
  · intro hex
    rcases h.exited (by simpa [hpc] using hex) with hcl | ⟨_, hterm⟩
    · exact .inl hcl
    · -- the terminal read is not the one given back
      have hk0 : k ≠ 0 := by
        rintro rfl
        simp only [Nat.zero_add, Nat.add_sub_cancel] at hterm
        omega
      refine .inr ⟨by omega, ?_⟩
      rw [show head + 1 + k - 1 = head + (k + 1) - 1 by omega]
      exact hterm

/-! ## The producer -/

/-- Leaving the loop: a closing reader, or the terminal read is the last one in the ring. -/
theorem exit (h : Ring n parent s head k) (hwhy : s.closing = true ∨
    (0 < k ∧ (parent (head + k - 1)).ret ≤ 0)) : Ring n parent (producerExit s) head k := by
  refine ⟨h.pos, h.inBuffer_eq, h.index_eq, h.k_le, h.full, h.free, h.live_head, ?_, ?_, ?_, ?_,
    fun _ => hwhy⟩ <;> simp [producerExit]

/-- The top of the producer's loop. -/
theorem loop (h : Ring n parent s head k) (hex : s.producer ≠ .exited)
    (hahead : s.producer.ahead = 0) : Ring n parent (producerLoop s) head k := by
  have hreads := h.reads hex
  rw [hahead] at hreads
  unfold producerLoop
  split
  · exact ⟨h.pos, h.inBuffer_eq, h.index_eq, h.k_le, h.full, h.free, h.live_head,
      fun _ => h.live hex, fun _ => hreads, by simp, by simp, by simp⟩
  · next hwait =>
    split
    · next hcl => exact h.exit (.inl hcl)
    · next hcl =>
      refine ⟨h.pos, h.inBuffer_eq, h.index_eq, h.k_le, h.full, h.free, h.live_head,
        fun _ => h.live hex, fun _ => hreads, fun _ => h.lt_of_slot ?_, by simp, by simp⟩
      intro hfull
      exact hwait ⟨hfull, Bool.eq_false_of_not_eq_true hcl⟩

/-- The producer's write to its own slot leaves the others alone. -/
theorem slotAt_setSlot (h : Ring n parent s head k) (hk : k < n) (b : BufferT) {j : ℕ}
    (hj : j < n) (hne : j ≠ k) :
    (s.setSlot s.index b).slotAt n head j = s.slotAt n head j := by
  rw [State.slotAt, State.slotAt, State.setSlot, h.index_eq]
  exact update_slot_ne _ _ hk hj hne

theorem slotAt_setSlot_self (h : Ring n parent s head k) (b : BufferT) :
    (s.setSlot s.index b).slotAt n head k = b := by
  rw [State.slotAt, ← h.index_eq]
  exact Function.update_self _ _ _

/-- A read of the parent goes into the producer's slot. -/
theorem read (h : Ring n parent s head k) (hparent : WellBehaved parent)
    (hpc : s.producer = .reading) : Ring n parent (producerRead parent s) head k := by
  have hk := h.reading hpc
  have hex : s.producer ≠ .exited := by simp [hpc]
  have hreads : s.parentOps.length = head + k := by
    have := h.reads hex
    rwa [hpc] at this
  set r := parent s.parentOps.length with hr
  have hr' : r = parent (head + k) := by rw [hr, hreads]
  set b : BufferT := { s.buffer s.index with
    space := memcpyAt (s.buffer s.index).space 0 r.data, len := cInt r.ret } with hb
  have hother : ∀ j, j < n → j ≠ k →
      (producerRead parent s).slotAt n head j = s.slotAt n head j := fun j hj hne =>
    h.slotAt_setSlot hk b hj hne
  have hself : (producerRead parent s).slotAt n head k = b := h.slotAt_setSlot_self b
  refine ⟨h.pos, h.inBuffer_eq, h.index_eq, h.k_le, ?_, ?_, h.live_head, fun _ => h.live hex, ?_,
    by simp [producerRead], fun _ => ⟨hk, ?_⟩, by simp [producerRead]⟩
  · intro j hj
    rw [hother j (by omega) (by omega)]
    exact h.full j hj
  · intro j hj hjn
    by_cases hjk : j = k
    · rw [hjk, hself, hb]
      simp only [h.slot_eq]
      exact h.free k le_rfl hk
    · rw [hother j hjn hjk]
      exact h.free j hj hjn
  · intro _
    show (s.parentOps ++ [ParentOp.read]).length = _
    rw [List.length_append, hreads]
    rfl
  · rw [hself, ← hr']
    constructor
    · have hge := hparent.ret_ge s.parentOps.length
      by_cases hpos : 0 < r.ret
      · have hlen : r.ret = r.data.length := hparent.data_length _ hpos
        have hle : r.data.length ≤ wandioBufferSize := hparent.data_le _ hpos
        refine cInt_of_range hge ?_
        have : wandioBufferSize = 1048576 := rfl
        omega
      · exact cInt_of_range hge (by omega)
    · intro _
      have : (memcpyAt (s.buffer s.index).space 0 r.data).take (0 + r.data.length) =
          (s.buffer s.index).space.take 0 ++ r.data := take_memcpyAt r.data (Nat.zero_le _)
      simpa using this

/-- The slot is handed over to the caller. -/
theorem handOver (h : Ring n parent s head k) (hpc : s.producer = .relock) :
    Ring n parent (producerRelock n s) head (k + 1) := by
  obtain ⟨hk, hholds⟩ := h.relock hpc
  have hex : s.producer ≠ .exited := by simp [hpc]
  set b : BufferT := { s.buffer s.index with state := .full } with hb
  -- the ring with the slot in it, whatever the producer does next
  have hring : ∀ pc : ProducerPc, (pc ≠ .exited → 0 < (parent (head + k)).ret) →
      pc.ahead = 0 → pc ≠ .reading → (pc = .exited → (parent (head + k)).ret ≤ 0) →
      Ring n parent { (s.setSlot s.index b).signalDataReady with
        index := (s.index + 1) % n, producer := pc } head (k + 1) := by
    intro pc hlive hahead hreading hexited
    have hother : ∀ j, j < n → j ≠ k →
        (s.setSlot s.index b).slotAt n head j = s.slotAt n head j := fun j hj hne =>
      h.slotAt_setSlot hk b hj hne
    have hself : (s.setSlot s.index b).slotAt n head k = b := h.slotAt_setSlot_self b
    refine ⟨h.pos, h.inBuffer_eq, ?_, hk, ?_, ?_, h.live_head, ?_, ?_, ?_, ?_, ?_⟩
    · show (s.index + 1) % n = _
      rw [h.index_eq, Nat.mod_add_mod, Nat.add_assoc]
    · intro j hj
      show ((s.setSlot s.index b).slotAt n head j).state = _ ∧
        Holds ((s.setSlot s.index b).slotAt n head j) _
      by_cases hjk : j = k
      · rw [hjk, hself, hb]
        refine ⟨rfl, ?_⟩
        rw [← h.slot_eq] at hholds
        exact hholds
      · rw [hother j (by omega) hjk]
        exact h.full j (by omega)
    · intro j hj hjn
      show ((s.setSlot s.index b).slotAt n head j).state = _
      rw [hother j hjn (by omega)]
      exact h.free j (by omega) hjn
    · intro hpc'
      exact (h.live hex).succ (hlive hpc')
    · intro _
      have := h.reads hex
      rw [hpc] at this
      rw [hahead]
      exact this
    · intro hpc'
      exact absurd hpc' hreading
    · intro hpc'
      simp only at hpc'
      rw [hpc'] at hahead
      contradiction
    · intro hpc'
      exact .inr ⟨by omega, by simpa using hexited hpc'⟩
  have hlen : (s.buffer s.index).len = (parent (head + k)).ret := by
    rw [h.slot_eq]
    exact hholds.1
  unfold producerRelock
  simp only
  split
  · next hpos =>
    have hgo := hring .start (fun _ => hlen ▸ hpos) rfl (by simp) (by simp)
    exact hgo.loop (by simp) rfl
  · next hpos =>
    have hstop := hring .exited (by simp) rfl (by simp) (fun _ => by omega)
    exact hstop.exit (.inr ⟨by omega, by simp only [Nat.add_succ_sub_one]; omega⟩)

end Ring

end Wandio.ThreadReader
