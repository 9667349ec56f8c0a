import Wandio.ThreadWriter.StepTheorems
import Wandio.Utils.RingBuffer

/-!
# The ring of the threaded writer

`Running` is the ring invariant while the consumer is at work: the `k` slots from the
consumer's one on are handed over, the next one is being filled, the others are free, and
the bytes given to the child followed by those in the ring are all the bytes stored so far.
Every operation of the two threads on the ring has one lemma here; who calls it when is the
business of `DeliveryTheorems`.
-/

namespace Wandio.ThreadWriter

open RingBuffer

/-- The bytes of a slot that the consumer hands to the child. -/
def BufferT.payload (b : BufferT) : List Byte := b.buffer.take b.len

/-- The slot at distance `j` from position `head`. -/
def State.slotAt (s : State) (head j : ℕ) : BufferT := s.buffer ((head + j) % buffers)

/-- The consumer is between releasing the mutex and taking it again. -/
def ConsumerPc.busy : ConsumerPc → Bool
  | .writing | .flushing | .relock => true
  | _ => false

/-- The number of slots that the child has got and the ring still holds. -/
def ConsumerPc.written : ConsumerPc → ℕ
  | .flushing | .relock => 1
  | _ => 0

/-- What the ring holds from position `head` on: the `k` slots handed over and the first
`fill` bytes of the output buffer. -/
def segments (s : State) (head k fill : ℕ) : List (List Byte) :=
  (window s.buffer buffers head k).map BufferT.payload ++ [s.out.buffer.take fill]

/-- The ring while the consumer is at position `head`, with `k` slots handed over and `fill`
bytes in the output buffer, after `stored` has been copied into it. -/
structure Running (s : State) (head k fill : ℕ) (stored : List Byte) : Prop where
  index_eq : s.index = head % buffers
  outBuffer_eq : s.outBuffer = (head + k) % buffers
  k_le : k ≤ buffers
  full : ∀ j, j < k → (s.slotAt head j).state = .full ∧ 0 < (s.slotAt head j).len
  free : ∀ j, k < j → j < buffers → (s.slotAt head j).state = .empty ∧
    (s.slotAt head j).len = 0 ∧ (s.slotAt head j).flush = false
  openSlot : k < buffers → s.out.state = .empty ∧ s.out.len = s.offset ∧ s.out.flush = false
  offset_lt : s.offset < wandioBufferSize
  fill_full : k = buffers → s.offset = 0 ∧ fill = 0
  fill_closing : s.closing = true → fill = s.offset
  fits : fill ≤ s.out.buffer.length
  busy : s.consumer.busy = true → 0 < k ∨ s.closing = true
  alive : s.consumer ≠ .exited
  bytes : childBytes s.child ++ ((segments s head k fill).drop s.consumer.written).flatten = stored
  undestroyed : .wdestroy ∉ s.child

theorem buffers_pos : 0 < buffers := by decide

theorem written_le_one (pc : ConsumerPc) : pc.written ≤ 1 := by
  cases pc <;> simp [ConsumerPc.written]

theorem busy_of_written {pc : ConsumerPc} (h : pc.written ≠ 0) : pc.busy = true := by
  cases pc <;> simp_all [ConsumerPc.written, ConsumerPc.busy]

@[simp] theorem signal_written (pc : ConsumerPc) : pc.signal.written = pc.written := by
  cases pc <;> rfl

@[simp] theorem signal_busy (pc : ConsumerPc) : pc.signal.busy = pc.busy := by cases pc <;> rfl

@[simp] theorem signal_eq_exited (pc : ConsumerPc) : pc.signal = .exited ↔ pc = .exited := by
  cases pc <;> simp [ConsumerPc.signal]

@[simp] theorem childBytes_append (ops ops' : List ChildOp) :
    childBytes (ops ++ ops') = childBytes ops ++ childBytes ops' := List.flatMap_append

theorem out_setOut (s : State) (b : BufferT) : (s.setOut b).out = b :=
  Function.update_self _ _ _

/-- Dropping from a queue that is followed by one more segment. -/
theorem flatten_drop_append {α : Type*} (xss : List (List α)) (ys : List α) {n : ℕ}
    (h : n ≤ xss.length) : ((xss ++ [ys]).drop n).flatten = (xss.drop n).flatten ++ ys := by
  rw [List.drop_append_of_le_length h, List.flatten_append, List.flatten_singleton]

namespace Running

variable {s t : State} {head k fill : ℕ} {stored : List Byte}

/-- Steps that only move the caller, or wake the consumer up, do not matter to the ring. -/
theorem congr (h : Running s head k fill stored) (hb : t.buffer = s.buffer)
    (ho : t.offset = s.offset) (hout : t.outBuffer = s.outBuffer) (hi : t.index = s.index)
    (hcl : t.closing = s.closing) (hch : t.child = s.child)
    (hbusy : t.consumer.busy = s.consumer.busy) (hex : t.consumer ≠ .exited)
    (hw : t.consumer.written = s.consumer.written) : Running t head k fill stored := by
  have hslot : t.slotAt head = s.slotAt head := by
    funext j; rw [State.slotAt, State.slotAt, hb]
  have hbuf : t.out = s.out := by rw [State.out, State.out, hb, hout]
  have hseg : segments t head k fill = segments s head k fill := by
    rw [segments, segments, hb, hbuf]
  constructor
  · rw [hi]; exact h.index_eq
  · rw [hout]; exact h.outBuffer_eq
  · exact h.k_le
  · rw [hslot]; exact h.full
  · rw [hslot]; exact h.free
  · rw [hbuf, ho]; exact h.openSlot
  · rw [ho]; exact h.offset_lt
  · rw [ho]; exact h.fill_full
  · rw [hcl, ho]; exact h.fill_closing
  · rw [hbuf]; exact h.fits
  · rw [hbusy, hcl]; exact h.busy
  · exact hex
  · rw [hch, hseg, hw]; exact h.bytes
  · rw [hch]; exact h.undestroyed

/-- The output buffer is the slot behind the queue. -/
theorem out_eq (h : Running s head k fill stored) : s.out = s.slotAt head k := by
  rw [State.out, h.outBuffer_eq, State.slotAt]

/-- The consumer is at the oldest slot. -/
theorem slot_eq (h : Running s head k fill stored) : s.buffer s.index = s.slotAt head 0 := by
  rw [h.index_eq, State.slotAt, Nat.add_zero]

/-- An output buffer that is not full has room: not every slot is handed over. -/
theorem lt_of_out (h : Running s head k fill stored) (hout : s.out.state ≠ .full) :
    k < buffers := by
  refine lt_of_le_of_ne h.k_le fun hk => hout ?_
  have hfull := (h.full 0 (by rw [hk]; exact buffers_pos)).1
  rw [h.out_eq, State.slotAt, hk, Nat.add_mod_right]
  rwa [State.slotAt, Nat.add_zero] at hfull

/-- While the owner has not closed the writer, what the child has got is handed over. -/
theorem written_le (h : Running s head k fill stored) (hcl : s.closing = false) :
    s.consumer.written ≤ k := by
  by_cases hw : s.consumer.written = 0
  · omega
  · have h1 := written_le_one s.consumer
    rcases h.busy (busy_of_written hw) with hk | hk
    · omega
    · rw [hcl] at hk; contradiction

/-! ## The caller -/

/-- Writing the output buffer leaves the other slots alone. -/
theorem slotAt_setOut (h : Running s head k fill stored) (hk : k < buffers) (b : BufferT) {j : ℕ}
    (hj : j < buffers) (hne : j ≠ k) : (s.setOut b).slotAt head j = s.slotAt head j := by
  rw [State.slotAt, State.slotAt, State.setOut, State.setSlot, h.outBuffer_eq]
  exact update_slot_ne _ _ hk hj hne

theorem window_setOut (h : Running s head k fill stored) (hk : k < buffers) (b : BufferT) :
    window (s.setOut b).buffer buffers head k = window s.buffer buffers head k := by
  rw [State.setOut, State.setSlot, h.outBuffer_eq]
  exact window_update _ _ le_rfl hk

/-- The slot being filled changes to `b`, which is not handed over: `data` more bytes are in
the ring. -/
theorem setOpen (h : Running s head k fill stored) (hk : k < buffers) (hcl : s.closing = false)
    (b : BufferT) (offset : ℕ) {fill' : ℕ} (data : List Byte) (hstate : b.state = .empty)
    (hlen : b.len = offset) (hflush : b.flush = false) (hlt : offset < wandioBufferSize)
    (hfits : fill' ≤ b.buffer.length)
    (hdata : b.buffer.take fill' = s.out.buffer.take fill ++ data) :
    Running { s.setOut b with offset := offset } head k fill' (stored ++ data) := by
  set t : State := { s.setOut b with offset := offset } with ht
  have hout : t.out = b := out_setOut s b
  have hslot : ∀ j, j < buffers → j ≠ k →
      t.slotAt head j = s.slotAt head j :=
    fun j hj hne => h.slotAt_setOut hk b hj hne
  constructor
  · exact h.index_eq
  · exact h.outBuffer_eq
  · exact h.k_le
  · intro j hj
    rw [hslot j (by omega) (by omega)]
    exact h.full j hj
  · intro j hj hjn
    rw [hslot j hjn (by omega)]
    exact h.free j hj hjn
  · intro _
    rw [hout]
    exact ⟨hstate, hlen, hflush⟩
  · exact hlt
  · intro hkn
    omega
  · intro hc
    rw [show t.closing = s.closing from rfl, hcl] at hc
    contradiction
  · rw [hout]
    exact hfits
  · exact h.busy
  · exact h.alive
  · have hwin : window t.buffer buffers head k =
        window s.buffer buffers head k := h.window_setOut hk b
    have hle : s.consumer.written ≤ ((window s.buffer buffers head k).map BufferT.payload).length :=
      by simpa using h.written_le hcl
    have hold := h.bytes
    rw [segments, flatten_drop_append _ _ hle] at hold
    rw [segments, hout, hwin, hdata, show t.consumer = s.consumer from rfl,
      flatten_drop_append _ _ hle, ← hold, show t.child = s.child from rfl]
    simp
  · exact h.undestroyed

/-- The slot being filled is handed over as `b`, with all the bytes put in it. -/
theorem handOver (h : Running s head k fill stored) (hk : k < buffers) (hcl : s.closing = false)
    (b : BufferT) (hstate : b.state = .full) (hlen : 0 < b.len)
    (hpay : b.payload = s.out.buffer.take fill) :
    Running { s.setOut b with offset := 0, outBuffer := (s.outBuffer + 1) % buffers }
      head (k + 1) 0 stored := by
  set t : State := { s.setOut b with offset := 0, outBuffer := (s.outBuffer + 1) % buffers } with ht
  have hslot : ∀ j, j < buffers → j ≠ k → t.slotAt head j = s.slotAt head j :=
    fun j hj hne => h.slotAt_setOut hk b hj hne
  have hnew : t.slotAt head k = b := by
    rw [State.slotAt, ← h.outBuffer_eq]
    exact Function.update_self _ _ _
  have hidx : t.outBuffer = (head + (k + 1)) % buffers := by
    show (s.outBuffer + 1) % buffers = _
    rw [h.outBuffer_eq, Nat.mod_add_mod, Nat.add_assoc]
  have hout : t.out = t.slotAt head (k + 1) := by rw [State.out, hidx, State.slotAt]
  constructor
  · exact h.index_eq
  · exact hidx
  · exact hk
  · intro j hj
    by_cases hjk : j = k
    · rw [hjk, hnew]
      exact ⟨hstate, hlen⟩
    · rw [hslot j (by omega) hjk]
      exact h.full j (by omega)
  · intro j hj hjn
    rw [hslot j hjn (by omega)]
    exact h.free j (by omega) hjn
  · intro hkn
    rw [hout, hslot _ hkn (by omega)]
    exact h.free _ (by omega) hkn
  · show 0 < wandioBufferSize
    decide
  · intro _
    exact ⟨rfl, rfl⟩
  · intro _
    rfl
  · exact Nat.zero_le _
  · intro _
    exact .inl (by omega)
  · exact h.alive
  · have hwin : window t.buffer buffers head k = window s.buffer buffers head k :=
      h.window_setOut hk b
    have hseg : segments t head (k + 1) 0 = segments s head k fill ++ [[]] := by
      have hlast : t.buffer ((head + k) % buffers) = b := hnew
      simp [segments, window_succ, hwin, hlast, hpay]
    have hle : s.consumer.written ≤ (segments s head k fill).length := by
      have := h.written_le hcl
      simp only [segments, List.length_append, List.length_map, length_window]
      omega
    rw [hseg, show t.consumer = s.consumer from rfl, flatten_drop_append _ _ hle, List.append_nil]
    exact h.bytes
  · exact h.undestroyed

/-! ## The consumer -/

/-- The consumer goes to sleep or leaves the mutex for a slot that is handed over, or for
the output buffer once the writer is closing. -/
theorem loop (h : Running s head k fill stored) (hw : s.consumer.written = 0) :
    Running (consumerLoop s) head k fill stored := by
  by_cases hwait : (s.buffer s.index).state = .empty ∧ s.closing = false
  · rw [consumerLoop, if_pos hwait]
    refine ⟨h.index_eq, h.outBuffer_eq, h.k_le, h.full, h.free, h.openSlot, h.offset_lt,
      h.fill_full, h.fill_closing, h.fits, by simp [ConsumerPc.busy], by simp, ?_, h.undestroyed⟩
    have hold := h.bytes
    rw [hw] at hold
    exact hold
  · rw [consumerLoop, if_neg hwait]
    refine ⟨h.index_eq, h.outBuffer_eq, h.k_le, h.full, h.free, h.openSlot, h.offset_lt,
      h.fill_full, h.fill_closing, h.fits, ?_, by simp, ?_, h.undestroyed⟩
    · -- with no slot handed over the consumer is at the output buffer, which is empty
      intro _
      by_cases hk : k = 0
      · refine .inr (Bool.eq_true_of_not_eq_false fun hcl => hwait ⟨?_, hcl⟩)
        rw [h.slot_eq, ← hk, ← h.out_eq]
        exact (h.openSlot (hk ▸ buffers_pos)).1
      · exact .inl (by omega)
    · have hold := h.bytes
      rw [hw] at hold
      exact hold

/-- The slot the consumer is at is the first segment of the ring. -/
theorem segments_eq_cons (h : Running s head k fill stored) (hbusy : s.consumer.busy = true) :
    segments s head k fill = (s.buffer s.index).payload :: (segments s head k fill).drop 1 := by
  by_cases hk : k = 0
  · subst hk
    have hcl : s.closing = true := by
      rcases h.busy hbusy with hk | hcl
      · omega
      · exact hcl
    have hslot : s.buffer s.index = s.out := by rw [h.slot_eq, h.out_eq]
    have hlen := (h.openSlot buffers_pos).2.1
    rw [segments, hslot, h.fill_closing hcl, BufferT.payload, hlen]
    rfl
  · obtain ⟨m, rfl⟩ := Nat.exists_eq_succ_of_ne_zero hk
    simp [segments, window_cons, h.index_eq]

/-- The child gets the bytes of the slot. -/
theorem write (h : Running s head k fill stored) (hpc : s.consumer = .writing) :
    Running (consumerWrite s) head k fill stored := by
  have hbusy : s.consumer.busy = true := by rw [hpc]; rfl
  have hchild : childBytes (consumerWrite s).child =
      childBytes s.child ++ (s.buffer s.index).payload := by
    by_cases hlen : 0 < (s.buffer s.index).len
    · simp [consumerWrite, hlen, childBytes, ChildOp.payload, BufferT.payload]
    · simp [consumerWrite, BufferT.payload, Nat.eq_zero_of_not_pos hlen]
  refine ⟨h.index_eq, h.outBuffer_eq, h.k_le, h.full, h.free, h.openSlot, h.offset_lt,
    h.fill_full, h.fill_closing, h.fits, fun _ => h.busy hbusy, by simp [consumerWrite], ?_, ?_⟩
  · have hold := h.bytes
    rw [hpc, show ConsumerPc.writing.written = 0 from rfl, List.drop_zero,
      h.segments_eq_cons hbusy, List.flatten_cons] at hold
    rw [hchild, List.append_assoc]
    exact hold
  · have hnew := h.undestroyed
    simp only [consumerWrite]
    split <;> simp [hnew]

/-- A flush passes no bytes on. -/
theorem flush (h : Running s head k fill stored) (hpc : s.consumer = .flushing) :
    Running (consumerFlush s) head k fill stored := by
  have hbusy : s.consumer.busy = true := by rw [hpc]; rfl
  have hchild : childBytes (consumerFlush s).child = childBytes s.child := by
    by_cases hf : (s.buffer s.index).flush = true
    · simp [consumerFlush, hf, childBytes, ChildOp.payload]
    · simp [consumerFlush, hf]
  refine ⟨h.index_eq, h.outBuffer_eq, h.k_le, h.full, h.free, h.openSlot, h.offset_lt,
    h.fill_full, h.fill_closing, h.fits, fun _ => h.busy hbusy, by simp [consumerFlush], ?_, ?_⟩
  · have hold := h.bytes
    rw [hpc] at hold
    rw [hchild]
    exact hold
  · have hnew := h.undestroyed
    simp only [consumerFlush]
    split <;> simp [hnew]

/-- A slot that was handed over is given back; the consumer is at the next one. -/
theorem release (h : Running s head (k + 1) fill stored) (hpc : s.consumer = .relock) :
    Running { consumerRelease s with consumer := .start } (head + 1) k fill stored := by
  set t : State := { consumerRelease s with consumer := .start } with ht
  have hk := h.k_le
  have hslot : ∀ j, j + 1 < buffers → t.slotAt (head + 1) j = s.slotAt head (j + 1) := by
    intro j hj
    have hne := slot_ne buffers head (i := 0) (j := j + 1) (by omega) (by omega)
    have hadd : head + 1 + j = head + (j + 1) := by omega
    rw [State.slotAt, State.slotAt, hadd]
    show Function.update s.buffer s.index _ _ = _
    rw [h.index_eq]
    exact Function.update_of_ne hne.symm _ _
  have hlast : t.slotAt (head + 1) (buffers - 1) =
      { s.buffer s.index with len := 0, state := .empty, flush := false } := by
    have hadd : head + 1 + (buffers - 1) = head + buffers := by
      have := buffers_pos
      omega
    rw [State.slotAt, hadd, Nat.add_mod_right, ← h.index_eq]
    exact Function.update_self _ _ _
  have hidx : t.outBuffer = (head + 1 + k) % buffers := by
    rw [show head + 1 + k = head + (k + 1) by omega]
    exact h.outBuffer_eq
  have hout : t.out = t.slotAt (head + 1) k := by rw [State.out, hidx, State.slotAt]
  -- the output buffer is another slot, unless every slot was handed over
  have hbuf : t.out.buffer.take fill = s.out.buffer.take fill ∧ fill ≤ t.out.buffer.length := by
    by_cases hkn : k + 1 = buffers
    · rw [(h.fill_full hkn).2]
      simp
    · have hsame : t.out = s.out := by rw [hout, h.out_eq, hslot k (by omega)]
      rw [hsame]
      exact ⟨rfl, h.fits⟩
  constructor
  · show (s.index + 1) % buffers = _
    rw [h.index_eq, Nat.mod_add_mod]
  · exact hidx
  · omega
  · intro j hj
    rw [hslot j (by omega)]
    exact h.full _ (by omega)
  · intro j hj hjn
    by_cases hjl : j + 1 < buffers
    · rw [hslot j hjl]
      exact h.free _ (by omega) hjl
    · rw [show j = buffers - 1 by omega, hlast]
      exact ⟨rfl, rfl, rfl⟩
  · intro hkn
    by_cases hkl : k + 1 < buffers
    · have hsame : t.out = s.out := by rw [hout, h.out_eq, hslot k hkl]
      rw [hsame]
      exact h.openSlot hkl
    · have hzero := (h.fill_full (by omega)).1
      rw [hout, show k = buffers - 1 by omega, hlast]
      exact ⟨rfl, hzero.symm, rfl⟩
  · exact h.offset_lt
  · intro hkn
    omega
  · exact h.fill_closing
  · exact hbuf.2
  · intro hb
    contradiction
  · simp [ht]
  · have hwin : window t.buffer buffers (head + 1) k = window s.buffer buffers (head + 1) k := by
      show window (Function.update s.buffer s.index _) _ _ _ = _
      rw [h.index_eq]
      exact window_tail_update _ _ (by omega)
    have hold := h.bytes
    rw [hpc, ConsumerPc.written, segments, window_cons] at hold
    rw [segments, hwin, hbuf.1]
    exact hold
  · exact h.undestroyed

end Running

end Wandio.ThreadWriter
