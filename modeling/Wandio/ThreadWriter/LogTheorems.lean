import Wandio.ThreadWriter.DeliveryTheorems

/-!
# The operations on the child

Which operations the child gets does not depend on the interleaving: the calls of the owner
cut their bytes into slots (`cut`), and the child gets a write for each slot, with a flush
behind it if the slot was handed over by `thread_wflush`. `child_eq_cut` says so for every
run that ends.
-/

namespace Wandio.ThreadWriter

open Transition RingBuffer

/-- What the calls of the owner come to: the slots handed over, each with its `flush`, and the
bytes in the output buffer. -/
structure Cut where
  handed : List (List Byte × Bool)
  pending : List Byte

/-- A byte is written: a slot is handed over as soon as it is full. -/
def Cut.put (c : Cut) (b : Byte) : Cut :=
  if c.pending.length + 1 = wandioBufferSize then ⟨c.handed ++ [(c.pending ++ [b], false)], []⟩
  else { c with pending := c.pending ++ [b] }

def Cut.call (c : Cut) : Call → Cut
  | .wwrite buffer => buffer.foldl Cut.put c
  | .wflush => if c.pending = [] then c else ⟨c.handed ++ [(c.pending, true)], []⟩

def cut (calls : List Call) : Cut := calls.foldl Cut.call ⟨[], []⟩

/-- The child operations for a slot. -/
def slotOps (slot : List Byte × Bool) : List ChildOp :=
  .wwrite slot.1 :: if slot.2 then [.wflush] else []

/-- The child operation for what is in the output buffer at the end. -/
def lastOps (bytes : List Byte) : List ChildOp := if bytes = [] then [] else [.wwrite bytes]

/-- All that the child is asked to do before it is destroyed. -/
def Cut.ops (c : Cut) : List ChildOp := c.handed.flatMap slotOps ++ lastOps c.pending

section Cut

variable {c : Cut} {bs : List Byte}

/-- Bytes that do not fill the output buffer. -/
theorem foldl_put_lt (h : c.pending.length + bs.length < wandioBufferSize) :
    bs.foldl Cut.put c = ⟨c.handed, c.pending ++ bs⟩ := by
  induction bs generalizing c with
  | nil => rw [List.append_nil, List.foldl_nil]
  | cons b bs ih =>
    rw [List.length_cons] at h
    have hput : c.put b = ⟨c.handed, c.pending ++ [b]⟩ := by
      rw [Cut.put, if_neg (by omega)]
    rw [List.foldl_cons, hput, ih, List.append_assoc, List.singleton_append]
    rw [List.length_append, List.length_singleton]
    omega

/-- Bytes that fill it. -/
theorem foldl_put_eq (h : c.pending.length + bs.length = wandioBufferSize) (hne : bs ≠ []) :
    bs.foldl Cut.put c = ⟨c.handed ++ [(c.pending ++ bs, false)], []⟩ := by
  obtain ⟨init, b, rfl⟩ := List.eq_nil_or_concat' bs |>.resolve_left hne
  rw [List.length_append, List.length_singleton] at h
  have hinit := foldl_put_lt (c := c) (show c.pending.length + init.length < _ by omega)
  have hfull : (c.pending ++ init).length + 1 = wandioBufferSize := by
    rw [List.length_append]
    omega
  rw [List.foldl_append, hinit, List.foldl_cons, List.foldl_nil, Cut.put, if_pos hfull,
    List.append_assoc]

theorem cut_append (calls calls' : List Call) :
    cut (calls ++ calls') = calls'.foldl Cut.call (cut calls) := by
  rw [cut, List.foldl_append]
  rfl

end Cut

/-! ## The log of a running ring -/

/-- The child operations for a slot that was handed over. -/
def BufferT.ops (b : BufferT) : List ChildOp :=
  lastOps b.payload ++ if b.flush then [.wflush] else []

/-- What is left for the child, when `segments` are the operations for the slots from the
consumer's one on. -/
def State.remaining (s : State) (segments : List (List ChildOp)) : List ChildOp :=
  match s.consumer with
  | .flushing => (if (s.buffer s.index).flush then [.wflush] else []) ++ (segments.drop 1).flatten
  | .relock => (segments.drop 1).flatten
  | _ => segments.flatten

/-- The operations for the `k` slots handed over and the output buffer. -/
def opSegments (s : State) (k : ℕ) : List (List ChildOp) :=
  (window s.buffer buffers s.index k).map BufferT.ops ++ [lastOps (s.out.buffer.take s.offset)]

/-- With `k` slots handed over: what the child has got and what is left for it are the
operations of `c`. -/
structure Logged (s : State) (k : ℕ) (c : Cut) : Prop where
  pending : s.out.buffer.take s.offset = c.pending
  length : c.pending.length = s.offset
  loaded : ∀ b ∈ window s.buffer buffers s.index k, b.payload ≠ []
  log : s.child ++ s.remaining (opSegments s k) = c.ops

section Logged

variable {s t : State} {head k fill : ℕ} {stored : List Byte} {c : Cut}

theorem signal_remaining (segments : List (List ChildOp)) (h : t.consumer = s.consumer.signal)
    (hb : t.buffer = s.buffer) (hi : t.index = s.index) :
    t.remaining segments = s.remaining segments := by
  unfold State.remaining
  rw [h, hb, hi]
  cases s.consumer <;> rfl

/-- One more segment at the end is left, too. -/
theorem remaining_append {segments : List (List ChildOp)} (ops : List ChildOp)
    (h : s.consumer.written ≤ segments.length) :
    s.remaining (segments ++ [ops]) = s.remaining segments ++ ops := by
  unfold State.remaining
  cases hpc : s.consumer with
  | flushing =>
    rw [hpc] at h
    have hdrop := flatten_drop_append segments ops h
    show _ ++ ((segments ++ [ops]).drop 1).flatten = (_ ++ (segments.drop 1).flatten) ++ ops
    rw [List.append_assoc]
    exact congrArg _ hdrop
  | relock =>
    rw [hpc] at h
    exact flatten_drop_append _ _ h
  | _ => simp

/-- The window of the ring from the consumer's slot on. -/
theorem Running.window_index (h : Running s head k fill stored) (j : ℕ) :
    window s.buffer buffers s.index j = window s.buffer buffers head j := by
  unfold window
  rw [h.index_eq]
  simp only [Nat.mod_add_mod]

/-- The ring determines how many slots are handed over. -/
theorem Running.unique {head' k' fill' : ℕ} {stored' : List Byte}
    (h : Running s head k fill stored) (h' : Running s head' k' fill' stored') : k = k' := by
  have hle := h.k_le
  have hle' := h'.k_le
  have hout := h.outBuffer_eq
  have hindex := h.index_eq
  rw [h'.outBuffer_eq] at hout
  rw [h'.index_eq] at hindex
  have hfull : ∀ {head k fill stored}, Running s head k fill stored → k = buffers →
      s.out.state = .full := by
    intro head k fill stored h hk
    rw [h.out_eq, State.slotAt, hk, Nat.add_mod_right]
    exact (h.full 0 (by rw [hk]; exact buffers_pos)).1
  -- two counts with the same slot behind them differ by a whole round of the ring
  by_cases hk : k < buffers
  · by_cases hk' : k' < buffers
    · unfold buffers at *
      omega
    · have hopen := (h.openSlot hk).1
      rw [hfull h' (by omega)] at hopen
      contradiction
  · by_cases hk' : k' < buffers
    · have hopen := (h'.openSlot hk').1
      rw [hfull h (by omega)] at hopen
      contradiction
    · omega

/-- Steps that do not concern the ring, but for a wake-up of the consumer. -/
theorem Logged.congr (h : Logged s k c) (hb : t.buffer = s.buffer) (ho : t.offset = s.offset)
    (hout : t.outBuffer = s.outBuffer) (hi : t.index = s.index) (hch : t.child = s.child)
    (hpc : t.consumer = s.consumer ∨ t.consumer = s.consumer.signal) : Logged t k c := by
  have hbuf : t.out = s.out := by rw [State.out, State.out, hb, hout]
  have hseg : opSegments t k = opSegments s k := by rw [opSegments, opSegments, hb, hbuf, ho, hi]
  constructor
  · rw [hbuf, ho]
    exact h.pending
  · rw [ho]
    exact h.length
  · rw [hb, hi]
    exact h.loaded
  · rw [hch, hseg]
    rcases hpc with hpc | hpc
    · have hsame : t.remaining (opSegments s k) = s.remaining (opSegments s k) := by
        unfold State.remaining
        rw [hpc, hb, hi]
      rw [hsame]
      exact h.log
    · rw [signal_remaining _ hpc hb hi]
      exact h.log

/-! ## The caller -/

/-- What is left in front of the output buffer. -/
theorem Logged.handed (h : Logged s k c) (hr : Running s head k fill stored)
    (hcl : s.closing = false) :
    s.child ++ s.remaining ((window s.buffer buffers s.index k).map BufferT.ops) =
      c.handed.flatMap slotOps := by
  have hle : s.consumer.written ≤ ((window s.buffer buffers s.index k).map BufferT.ops).length := by
    simpa using hr.written_le hcl
  have hlog := h.log
  rw [opSegments, remaining_append _ hle, h.pending, ← List.append_assoc, Cut.ops] at hlog
  exact List.append_cancel_right hlog

/-- The output buffer changes to `b`, which is not handed over: its first bytes are those of
`c'`. -/
theorem Logged.setOpen (h : Logged s k c) (hr : Running s head k fill stored) (hk : k < buffers)
    (hcl : s.closing = false) (b : BufferT) (offset : ℕ) {bytes : List Byte}
    (hbytes : b.buffer.take offset = bytes) (hlen : bytes.length = offset) :
    Logged { s.setOut b with offset := offset } k ⟨c.handed, bytes⟩ := by
  have hwindow : window (s.setOut b).buffer buffers s.index k =
      window s.buffer buffers s.index k := by
    have hset := hr.window_setOut hk b
    rw [← hr.window_index] at hset
    rw [← hset]
    unfold window
    rw [hr.index_eq]
    simp only [Nat.mod_add_mod]
  have hout : (s.setOut b).out = b := out_setOut s b
  have hlog := h.handed hr hcl
  have hle : s.consumer.written ≤ ((window s.buffer buffers s.index k).map BufferT.ops).length := by
    simpa using hr.written_le hcl
  refine ⟨?_, hlen, ?_, ?_⟩
  · show (s.setOut b).out.buffer.take offset = bytes
    rw [hout, hbytes]
  · show ∀ b' ∈ window (s.setOut b).buffer buffers s.index k, b'.payload ≠ []
    rw [hwindow]
    exact h.loaded
  · -- the consumer's slot is another one, or the consumer is not at work
    have hflush : s.consumer = .flushing → (s.setOut b).buffer s.index = s.buffer s.index := by
      intro hpc
      have hpos : 0 < k := by
        rcases hr.busy (by rw [hpc]; rfl) with hk | hopen
        · exact hk
        · rw [hcl] at hopen
          contradiction
      have hslot := hr.slotAt_setOut hk b (j := 0) buffers_pos (by omega)
      rw [State.slotAt, State.slotAt, Nat.add_zero, ← hr.index_eq] at hslot
      exact hslot
    have hremaining : ∀ segments, ({ s.setOut b with offset := offset } : State).remaining segments
        = s.remaining segments := by
      intro segments
      unfold State.remaining
      show (match s.consumer with | .flushing => _ | .relock => _ | _ => _) = _
      cases hpc : s.consumer with
      | flushing =>
        show (if ((s.setOut b).buffer s.index).flush then [ChildOp.wflush] else []) ++ _ = _
        rw [hflush hpc]
      | _ => rfl
    -- only the last segment, that of the output buffer, is a new one
    rw [hremaining, opSegments]
    show s.child ++ s.remaining ((window (s.setOut b).buffer buffers s.index k).map BufferT.ops ++
      [lastOps ((s.setOut b).out.buffer.take offset)]) = _
    rw [hwindow, hout, hbytes, remaining_append _ hle, ← List.append_assoc, hlog]
    rfl

/-- The output buffer is handed over as `b`. -/
theorem Logged.handOver (h : Logged s k c) (hr : Running s head k fill stored) (hk : k < buffers)
    (hcl : s.closing = false) (b : BufferT) {bytes : List Byte} (hbytes : b.payload = bytes)
    (hne : bytes ≠ []) :
    Logged { s.setOut b with offset := 0, outBuffer := (s.outBuffer + 1) % buffers } (k + 1)
      ⟨c.handed ++ [(bytes, b.flush)], []⟩ := by
  -- first the slot is filled, and then it is the next one that is open
  have hopened := h.setOpen hr hk hcl b 0 (List.take_zero ..) rfl
  have hopen := hopened.log
  set u : State := { s.setOut b with offset := 0 } with hu
  have hwindow : window u.buffer buffers u.index (k + 1) =
      window u.buffer buffers u.index k ++ [b] := by
    rw [window_succ]
    congr 2
    show (s.setOut b).buffer ((s.index + k) % buffers) = b
    rw [hr.index_eq, Nat.mod_add_mod, ← hr.outBuffer_eq]
    exact Function.update_self _ _ _
  refine ⟨rfl, rfl, ?_, ?_⟩
  · show ∀ b' ∈ window u.buffer buffers u.index (k + 1), b'.payload ≠ []
    rw [hwindow]
    intro b' hb'
    rcases List.mem_append.mp hb' with hold | hnew
    · exact hopened.loaded b' hold
    · rw [List.mem_singleton.mp hnew, hbytes]
      exact hne
  have hle : u.consumer.written ≤
      ((window u.buffer buffers u.index k).map BufferT.ops).length := by
    rw [List.length_map, length_window]
    exact hr.written_le hcl
  have hops : b.ops = slotOps (bytes, b.flush) := by
    rw [BufferT.ops, hbytes, lastOps, if_neg hne]
    rfl
  have hcut : (⟨c.handed ++ [(bytes, b.flush)], []⟩ : Cut).ops =
      c.handed.flatMap slotOps ++ slotOps (bytes, b.flush) := by
    simp [Cut.ops, lastOps]
  rw [opSegments, remaining_append _ hle] at hopen
  have hnil : lastOps (u.out.buffer.take u.offset) = [] := rfl
  rw [hnil, List.append_nil, Cut.ops] at hopen
  show u.child ++ u.remaining ((window u.buffer buffers u.index (k + 1)).map BufferT.ops ++
    [lastOps []]) = _
  rw [hwindow, List.map_append, List.map_singleton, remaining_append, remaining_append _ hle, hops,
    ← List.append_assoc, ← List.append_assoc, hopen, hcut]
  · simp [lastOps]
  · rw [List.length_append]
    omega

/-- Copying a slice does not touch what is counted. -/
theorem Logged.copy {slice : ℕ} (h : Logged s k c) (hr : Running s head k fill stored)
    (hk : k < buffers) (hcl : s.closing = false) (hfits : s.offset ≤ s.out.buffer.length) :
    Logged (wwriteCopy s slice) k c := by
  -- `memcpy` writes behind `offset`
  have htake : (memcpyAt s.out.buffer s.offset (s.rest.take slice)).take s.offset = c.pending := by
    rw [← h.pending]
    have hmore := take_memcpyAt (s.rest.take slice) hfits
    have hshort := congrArg (List.take s.offset) hmore
    rw [List.take_take, min_eq_left (Nat.le_add_right _ _), List.take_append_of_le_length,
      List.take_take, min_self] at hshort
    · exact hshort
    · rw [List.length_take]
      omega
  exact (h.setOpen hr hk hcl
    { s.out with buffer := memcpyAt s.out.buffer s.offset (s.rest.take slice) } s.offset htake
    h.length).congr rfl rfl rfl rfl rfl (.inl rfl)

/-- The slice is counted; a filled slot is handed over. -/
theorem Logged.commit {slice : ℕ} (h : Logged s k c) (hr : Running s head k fill stored)
    (hk : k < buffers) (hcl : s.closing = false) (hpos : 0 < slice) (hle : slice ≤ s.rest.length)
    (hsize : s.offset + slice ≤ wandioBufferSize)
    (htake : s.out.buffer.take (s.offset + slice) = c.pending ++ s.rest.take slice) :
    Logged (wwriteAdvance (wwriteCommit s slice))
      (if wandioBufferSize ≤ s.offset + slice then k + 1 else k)
      ((s.rest.take slice).foldl Cut.put c) := by
  have hslice : (s.rest.take slice).length = slice := by simp [hle]
  have hlength := h.length
  have hoffset : (wwriteCommit s slice).offset = s.offset + slice := rfl
  have hlen := (hr.openSlot hk).2.1
  have hne : s.rest.take slice ≠ [] := by
    apply List.ne_nil_of_length_pos
    omega
  -- the slice fills the buffer exactly, or it leaves room
  by_cases hfull : wandioBufferSize ≤ s.offset + slice
  · rw [foldl_put_eq (by omega) hne, if_pos hfull]
    have hbytes : ({ s.out with len := s.out.len + slice, state := .full, flush := false } :
        BufferT).payload = c.pending ++ s.rest.take slice := by
      simp only [BufferT.payload, hlen, htake]
    have hnew := h.handOver hr hk hcl _ hbytes (by simp [hne])
    have hset : wwriteAdvance (wwriteCommit s slice) = { { s.setOut
        { s.out with len := s.out.len + slice, state := .full, flush := false } with
        offset := 0, outBuffer := (s.outBuffer + 1) % buffers } with
        rest := s.rest.drop slice, copied := cInt (s.copied + slice),
        consumer := s.consumer.signal } := by
      rw [wwriteAdvance, if_pos (hoffset ▸ hfull)]
      simp [wwriteCommit, State.setOut, State.setSlot, State.out, State.signalDataReady]
    rw [hset]
    exact hnew.congr rfl rfl rfl rfl rfl (.inr rfl)
  · rw [foldl_put_lt (by omega), if_neg hfull, wwriteAdvance, if_neg (hoffset ▸ hfull)]
    have hnew := h.setOpen hr hk hcl { s.out with len := s.out.len + slice } (s.offset + slice)
      htake (by rw [List.length_append]; omega)
    exact hnew.congr rfl rfl rfl rfl rfl (.inl rfl)

/-- A flush hands the output buffer over unless it is empty. -/
theorem Logged.flushed (h : Logged s k c) (hr : Running s head k s.offset stored)
    (hcl : s.closing = false) :
    Logged (threadWflush s) (if 0 < s.offset then k + 1 else k) (c.call .wflush) := by
  have hlength := h.length
  have hnil : c.pending = [] ↔ ¬ 0 < s.offset := by
    rw [← List.length_eq_zero_iff]
    omega
  unfold threadWflush Cut.call
  split
  · next hpos =>
    have hk : k < buffers := by
      refine lt_of_le_of_ne hr.k_le fun hkn => ?_
      have := (hr.fill_full hkn).1
      omega
    have hlen := (hr.openSlot hk).2.1
    have hne : ¬ c.pending = [] := fun hnone => hnil.mp hnone hpos
    have hbytes : ({ s.out with state := .full, flush := true } : BufferT).payload =
        c.pending := by
      simp only [BufferT.payload, hlen, h.pending]
    have hnew := h.handOver hr hk hcl _ hbytes hne
    rw [if_neg hne]
    exact hnew.congr rfl rfl rfl rfl rfl (.inr rfl)
  · next hzero =>
    rw [if_pos (hnil.mpr hzero)]
    exact h.congr rfl rfl rfl rfl rfl (.inl rfl)

/-! ## The consumer -/

theorem Logged.loop (h : Logged s k c) (hbusy : s.consumer.busy = false) :
    Logged (consumerLoop s) k c := by
  -- nothing of the oldest slot has been written yet
  have hsame : s.remaining (opSegments s k) = (opSegments s k).flatten := by
    unfold State.remaining
    cases hpc : s.consumer with
    | flushing =>
      rw [hpc] at hbusy
      contradiction
    | relock =>
      rw [hpc] at hbusy
      contradiction
    | _ => rfl
  have hlog := h.log
  rw [hsame] at hlog
  unfold consumerLoop
  split <;> exact ⟨h.pending, h.length, h.loaded, hlog⟩

/-- The operations for the slot the consumer is at come first. -/
theorem Running.opSegments_eq_cons (hr : Running s head k fill stored) :
    opSegments s k = (s.buffer s.index).ops :: (opSegments s k).drop 1 := by
  by_cases hk : k = 0
  · subst hk
    have hslot : s.buffer s.index = s.out := by rw [hr.slot_eq, hr.out_eq]
    obtain ⟨_, hlen, hflush⟩ := hr.openSlot buffers_pos
    rw [opSegments, hslot, BufferT.ops, hflush, BufferT.payload, hlen]
    simp
  · obtain ⟨m, rfl⟩ := Nat.exists_eq_succ_of_ne_zero hk
    have hindex : s.index % buffers = s.index := by rw [hr.index_eq, Nat.mod_mod]
    simp [opSegments, window_cons, hindex]

/-- The child write of `thread_consumer`. -/
theorem child_consumerWrite (s : State) (hfits : 0 < (s.buffer s.index).len →
    (s.buffer s.index).payload ≠ []) :
    (consumerWrite s).child = s.child ++ lastOps (s.buffer s.index).payload := by
  unfold consumerWrite lastOps
  simp only
  by_cases hlen : 0 < (s.buffer s.index).len
  · rw [if_pos hlen, if_neg (hfits hlen)]
    rfl
  · have hzero : (s.buffer s.index).len = 0 := by omega
    rw [if_neg hlen, if_pos (by rw [BufferT.payload, hzero, List.take_zero]), List.append_nil]

/-- The consumer's slot has the bytes it counts. -/
theorem Logged.payload_ne_nil (h : Logged s k c) (hr : Running s head k fill stored)
    (hlen : 0 < (s.buffer s.index).len) : (s.buffer s.index).payload ≠ [] := by
  by_cases hk : k = 0
  · subst hk
    have hslot : s.buffer s.index = s.out := by rw [hr.slot_eq, hr.out_eq]
    have hout := (hr.openSlot buffers_pos).2.1
    rw [hslot] at hlen ⊢
    rw [BufferT.payload, hout, h.pending]
    apply List.ne_nil_of_length_pos
    rw [h.length]
    omega
  · apply h.loaded
    rw [mem_window]
    refine ⟨0, by omega, ?_⟩
    rw [Nat.add_zero, hr.index_eq, Nat.mod_mod]

theorem Logged.write (h : Logged s k c) (hr : Running s head k fill stored)
    (hpc : s.consumer = .writing) : Logged (consumerWrite s) k c := by
  refine ⟨h.pending, h.length, h.loaded, ?_⟩
  have hlog := h.log
  have hremaining : s.remaining (opSegments s k) = (opSegments s k).flatten := by
    unfold State.remaining
    rw [hpc]
  rw [hremaining, hr.opSegments_eq_cons, List.flatten_cons, BufferT.ops] at hlog
  rw [child_consumerWrite s (h.payload_ne_nil hr), ← hlog]
  show _ ++ ((if (s.buffer s.index).flush then [ChildOp.wflush] else []) ++
    ((opSegments s k).drop 1).flatten) = _
  simp only [List.append_assoc]

theorem Logged.flush (h : Logged s k c) (hpc : s.consumer = .flushing) :
    Logged (consumerFlush s) k c := by
  refine ⟨h.pending, h.length, h.loaded, ?_⟩
  have hlog := h.log
  have hremaining : s.remaining (opSegments s k) =
      (if (s.buffer s.index).flush then [.wflush] else []) ++
        ((opSegments s k).drop 1).flatten := by
    unfold State.remaining
    rw [hpc]
  have hchild : (consumerFlush s).child =
      s.child ++ if (s.buffer s.index).flush then [.wflush] else [] := by
    unfold consumerFlush
    simp only
    split <;> simp
  rw [hremaining, ← List.append_assoc, ← hchild] at hlog
  exact hlog

/-- A slot that was handed over is given back. -/
theorem Logged.release (h : Logged s (k + 1) c) (hr : Running s head (k + 1) fill stored)
    (hpc : s.consumer = .relock) : Logged { consumerRelease s with consumer := .start } k c := by
  set t : State := { consumerRelease s with consumer := .start } with ht
  have hnew : Running t (head + 1) k fill stored := hr.release hpc
  have hle := hr.k_le
  -- the output buffer is another slot, unless every slot was handed over
  have hpending : t.out.buffer.take t.offset = s.out.buffer.take s.offset := by
    by_cases hk : k + 1 = buffers
    · have hzero : s.offset = 0 := (hr.fill_full hk).1
      rw [show t.offset = s.offset from rfl, hzero, List.take_zero, List.take_zero]
    · have hne : s.outBuffer ≠ s.index := by
        rw [hr.outBuffer_eq, hr.index_eq]
        have := slot_ne buffers head (i := 0) (j := k + 1) (by omega) (by omega)
        rw [Nat.add_zero] at this
        exact this.symm
      have hsame : t.out = s.out := Function.update_of_ne hne _ _
      rw [hsame]
      rfl
  have hwindow : window t.buffer buffers t.index k =
      window s.buffer buffers (head + 1) k := by
    rw [hnew.window_index]
    show window (Function.update s.buffer s.index _) _ _ _ = _
    rw [hr.index_eq]
    exact window_tail_update _ _ (by omega)
  have hlog := h.log
  refine ⟨hpending.trans h.pending, h.length, ?_, ?_⟩
  · show ∀ b ∈ window t.buffer buffers t.index k, b.payload ≠ []
    rw [hwindow]
    intro b hb
    apply h.loaded
    rw [hr.window_index, window_cons]
    exact List.mem_cons_of_mem _ hb
  have hremaining : s.remaining (opSegments s (k + 1)) =
      ((opSegments s (k + 1)).drop 1).flatten := by
    unfold State.remaining
    rw [hpc]
  rw [hremaining, opSegments, hr.window_index, window_cons] at hlog
  show s.child ++ (opSegments t k).flatten = _
  rw [opSegments, hwindow, hpending]
  exact hlog

end Logged

/-! ## Runs -/

/-- Where the caller is in its calls: those before have made `c`, with the bytes of the running
write that are counted. -/
def Cutting (all : List Call) (s : State) (c : Cut) : Prop :=
  ∃ done pre, all = done ++ s.calls ∧ c = pre.foldl Cut.put (cut done) ∧
    match s.caller with
    | .waitSpace _ | .copying _ => ∃ tl, s.calls = .wwrite (pre ++ s.rest) :: tl
    | .copied slice => (∃ tl, s.calls = .wwrite (pre ++ s.rest) :: tl) ∧
        s.out.buffer.take (s.offset + slice) = c.pending ++ s.rest.take slice
    | _ => pre = []

/-- The invariant of every run of `system all`, with that of `DeliveryTheorems`. -/
def LogInv (all : List Call) (s : State) : Prop :=
  ∃ c, Cutting all s c ∧
    ((∃ head k fill stored, Running s head k fill stored ∧ Logged s k c) ∨
      ((∃ stored, Drained s stored) ∧ s.child = c.ops) ∨
      ((∃ stored, Ended s stored) ∧ s.child = c.ops ++ [.wdestroy]))

section Runs

variable {all : List Call} {s t : State} {c : Cut}

/-- While the writer is open the log is that of a running ring. -/
theorem LogInv.running (h : LogInv all s) (hcl : s.closing = false) {head k fill : ℕ}
    {stored : List Byte} (hr : Running s head k fill stored) :
    ∃ c, Cutting all s c ∧ Logged s k c := by
  obtain ⟨c, hcut, hring⟩ := h
  rcases hring with ⟨head', k', fill', stored', hr', hlog⟩ | ⟨⟨_, hd⟩, _⟩ | ⟨⟨_, he⟩, _⟩
  · rw [hr'.unique hr] at hlog
    exact ⟨c, hcut, hlog⟩
  · rw [hd.closing] at hcl
    contradiction
  · rw [he.closing] at hcl
    contradiction

/-- A step of the consumer leaves the caller alone, but for a wake-up. -/
theorem Cutting.consumer (h : Cutting all s c) (ho : t.offset = s.offset)
    (hcalls : t.calls = s.calls) (hrest : t.rest = s.rest)
    (hout : t.out.buffer = s.out.buffer)
    (hpc : t.caller = s.caller ∨ t.caller = s.caller.signal) : Cutting all t c := by
  obtain ⟨done, pre, hall, hc, hprog⟩ := h
  refine ⟨done, pre, by rw [hcalls]; exact hall, hc, ?_⟩
  rw [ho, hcalls, hrest, hout]
  rcases hpc with hpc | hpc
  · rw [hpc]
    exact hprog
  · rw [hpc]
    cases hcaller : s.caller <;> rw [hcaller] at hprog <;> exact hprog

/-- The output buffer has the same bytes after a slot is given back. -/
theorem out_buffer_consumerRelease (s : State) :
    (consumerRelease s).out.buffer = s.out.buffer := by
  by_cases hi : s.outBuffer = s.index
  · simp [consumerRelease, State.out, State.setSlot, State.signalSpaceAvail, hi]
  · simp [consumerRelease, State.out, State.setSlot, State.signalSpaceAvail,
      Function.update_of_ne hi]

/-- What `consumerLoop` leaves alone. -/
theorem consumerLoop_fields (s : State) :
    (consumerLoop s).offset = s.offset ∧ (consumerLoop s).calls = s.calls ∧
      (consumerLoop s).rest = s.rest ∧ (consumerLoop s).out = s.out ∧
      (consumerLoop s).caller = s.caller ∧ (consumerLoop s).child = s.child := by
  unfold consumerLoop
  split <;> exact ⟨rfl, rfl, rfl, rfl, rfl, rfl⟩

theorem Cutting.loop (h : Cutting all s c) : Cutting all (consumerLoop s) c := by
  obtain ⟨ho, hcalls, hrest, hout, hpc, _⟩ := consumerLoop_fields s
  exact h.consumer ho hcalls hrest (by rw [hout]) (.inl hpc)

theorem Cutting.release (h : Cutting all s c) : Cutting all (consumerRelease s) c :=
  h.consumer rfl rfl rfl (out_buffer_consumerRelease s) (.inr rfl)

theorem Cutting.relock (h : Cutting all s c) : Cutting all (consumerRelock s) c := by
  unfold consumerRelock
  split
  · exact h.release.loop
  · exact h.release.consumer rfl rfl rfl rfl (.inl rfl)

theorem LogInv.loop (h : LogInv all s) (hbusy : s.consumer.busy = false)
    (hex : s.consumer ≠ .exited) : LogInv all (consumerLoop s) := by
  obtain ⟨c, hcut, hring⟩ := h
  refine ⟨c, hcut.loop, ?_⟩
  rcases hring with ⟨head, k, fill, stored, hr, hlog⟩ | ⟨⟨_, hd⟩, _⟩ | ⟨⟨_, he⟩, _⟩
  · refine .inl ⟨head, k, fill, stored, hr.loop ?_, hlog.loop hbusy⟩
    by_contra hw
    rw [busy_of_written hw] at hbusy
    contradiction
  · rw [hd.busy] at hbusy
    contradiction
  · exact absurd he.exited hex

theorem LogInv.relock (h : LogInv all s) (hpc : s.consumer = .relock) :
    LogInv all (consumerRelock s) := by
  obtain ⟨c, hcut, hring⟩ := h
  refine ⟨c, hcut.relock, ?_⟩
  have hmore : 0 < (s.buffer s.index).len → (consumerRelock s).child = s.child := by
    intro hlen
    rw [consumerRelock, if_pos hlen]
    exact (consumerLoop_fields _).2.2.2.2.2
  have hend : ¬ 0 < (s.buffer s.index).len →
      (consumerRelock s).child = s.child ++ [.wdestroy] := by
    intro hlen
    rw [consumerRelock, if_neg hlen]
  rcases hring with ⟨head, k, fill, stored, hr, hlog⟩ | ⟨⟨stored, hd⟩, hchild⟩ | ⟨⟨_, he⟩, _⟩
  · cases k with
    | succ k =>
      obtain ⟨hlen, hnew⟩ := hr.relock hpc
      refine .inl ⟨head + 1, k, fill, stored, hnew, ?_⟩
      rw [consumerRelock, if_pos hlen, ← consumerLoop_consumer _ .start]
      exact (hlog.release hr hpc).loop rfl
    | zero =>
      -- the child has got all of it
      have hchild : s.child = c.ops := by
        have hall := hlog.log
        have hremaining : s.remaining (opSegments s 0) = [] := by
          unfold State.remaining
          rw [hpc]
          rfl
        rw [hremaining, List.append_nil] at hall
        exact hall
      obtain ⟨_, hlen, hlast⟩ := hr.relock_last hpc
      split at hlast
      · next hpos =>
        refine .inr (.inl ⟨⟨stored, hlast⟩, ?_⟩)
        rw [hmore (by omega), hchild]
      · next hzero =>
        refine .inr (.inr ⟨⟨stored, hlast⟩, ?_⟩)
        rw [hend (by omega), hchild]
  · refine .inr (.inr ⟨⟨stored, hd.relock⟩, ?_⟩)
    rw [hend (by rw [hd.slot_len]; decide), hchild]
  · exact absurd he.exited (by rw [hpc]; decide)

theorem LogInv.consumerStep (h : LogInv all s) (hs : consumerStep s = some t) : LogInv all t := by
  cases consumerMove hs with
  | loop hpc =>
    apply h.loop
    · rcases hpc with hpc | hpc <;> rw [hpc] <;> rfl
    · rcases hpc with hpc | hpc <;> rw [hpc] <;> decide
  | write hpc =>
    obtain ⟨c, hcut, hring⟩ := h
    refine ⟨c, hcut.consumer rfl rfl rfl rfl (.inl rfl), ?_⟩
    rcases hring with ⟨head, k, fill, stored, hr, hlog⟩ | ⟨⟨stored, hd⟩, hchild⟩ | ⟨⟨_, he⟩, _⟩
    · exact .inl ⟨head, k, fill, stored, hr.write hpc, hlog.write hr hpc⟩
    · refine .inr (.inl ⟨⟨stored, hd.write⟩, ?_⟩)
      rw [← hchild, consumerWrite, if_neg (by rw [hd.slot_len]; decide)]
    · exact absurd he.exited (by rw [hpc]; decide)
  | flush hpc =>
    obtain ⟨c, hcut, hring⟩ := h
    refine ⟨c, hcut.consumer rfl rfl rfl rfl (.inl rfl), ?_⟩
    rcases hring with ⟨head, k, fill, stored, hr, hlog⟩ | ⟨⟨stored, hd⟩, hchild⟩ | ⟨⟨_, he⟩, _⟩
    · exact .inl ⟨head, k, fill, stored, hr.flush hpc, hlog.flush hpc⟩
    · refine .inr (.inl ⟨⟨stored, hd.flush⟩, ?_⟩)
      rw [← hchild, consumerFlush, if_neg (by rw [hd.slot_flush]; decide)]
    · exact absurd he.exited (by rw [hpc]; decide)
  | relock hpc => exact h.relock hpc

/-- A write goes on or returns. -/
theorem logInv_wwriteLoop (done : List Call) (pre : List Byte) {tl : List Call} {head k fill : ℕ}
    {stored : List Byte} (hr : Running s head k fill stored)
    (hlog : Logged s k (pre.foldl Cut.put (cut done))) (hall : all = done ++ s.calls)
    (hcalls : s.calls = .wwrite (pre ++ s.rest) :: tl) : LogInv all (wwriteLoop s) := by
  have hring : ∀ pc, Running { s with caller := pc } head k fill stored := fun pc =>
    hr.congr rfl rfl rfl rfl rfl rfl rfl hr.alive rfl
  have hlogged : ∀ pc, Logged { s with caller := pc } k (pre.foldl Cut.put (cut done)) :=
    fun pc => hlog.congr rfl rfl rfl rfl rfl (.inl rfl)
  unfold wwriteLoop wwriteSpace
  split
  · split
    · exact ⟨_, ⟨done, pre, hall, rfl, tl, hcalls⟩,
        .inl ⟨head, k, fill, stored, hring _, hlogged _⟩⟩
    · exact ⟨_, ⟨done, pre, hall, rfl, tl, hcalls⟩,
        .inl ⟨head, k, fill, stored, hring _, hlogged _⟩⟩
  · next hrest =>
    have hnil : s.rest = [] := List.eq_nil_of_length_eq_zero (by omega)
    rw [hnil, List.append_nil] at hcalls
    refine ⟨cut (done ++ [.wwrite pre]), ⟨done ++ [.wwrite pre], [], ?_, rfl, rfl⟩,
      .inl ⟨head, k, fill, stored, ?_, ?_⟩⟩
    · rw [hall, hcalls]
      simp [State.return, hcalls]
    · exact hr.congr rfl rfl rfl rfl rfl rfl rfl hr.alive rfl
    · rw [cut_append]
      exact hlog.congr rfl rfl rfl rfl rfl (.inl rfl)

theorem LogInv.callerStep (h : LogInv all s) (hinv : Inv all s) (hs : callerStep s = some t) :
    LogInv all t := by
  obtain ⟨fill, stored, ⟨_, _, _, hprog⟩, hrings⟩ := hinv
  -- between two calls all the calls made are in the log
  have hidle : s.caller = .idle → s.closing = false ∧ ∃ head k done,
      Running s head k s.offset stored ∧ Logged s k (cut done) ∧ all = done ++ s.calls := by
    intro hpc
    rw [hpc] at hprog
    obtain ⟨hcl, rfl, _⟩ := hprog
    obtain ⟨head, k, hr⟩ := running_of_open hcl hrings
    obtain ⟨c, ⟨done, pre, hall, rfl, hpre⟩, hlog⟩ := h.running hcl hr
    rw [hpc] at hpre
    obtain rfl : pre = [] := hpre
    exact ⟨hcl, head, k, done, hr, hlog, hall⟩
  cases callerMove hs with
  | close hpc hcalls =>
    obtain ⟨_, head, k, done, hr, hlog, hall⟩ := hidle hpc
    refine ⟨_, ⟨done, [], hall, rfl, rfl⟩, .inl ⟨head, k, _, stored, hr.close, ?_⟩⟩
    exact hlog.congr rfl rfl rfl rfl rfl (.inr rfl)
  | wwrite hpc hcalls =>
    obtain ⟨_, head, k, done, hr, hlog, hall⟩ := hidle hpc
    exact logInv_wwriteLoop done []
      (hr.congr rfl rfl rfl rfl rfl rfl rfl hr.alive rfl)
      (hlog.congr rfl rfl rfl rfl rfl (.inl rfl)) hall hcalls
  | wflush hpc hcalls =>
    obtain ⟨hcl, head, k, done, hr, hlog, hall⟩ := hidle hpc
    refine ⟨cut (done ++ [.wflush]), ⟨done ++ [.wflush], [], ?_, rfl, ?_⟩,
      .inl ⟨head, _, _, stored, hr.flushed hcl, ?_⟩⟩
    · rw [hall, hcalls]
      unfold threadWflush
      split <;>
        simp [State.return, State.signalDataReady, State.setOut, State.setSlot, hcalls]
    · have hback : (threadWflush s).caller = .idle := by
        unfold threadWflush
        split <;> rfl
      rw [hback]
    · rw [cut_append]
      exact hlog.flushed hr hcl
  | wake hpc =>
    rw [hpc] at hprog
    obtain ⟨hcl, rfl, hrest, _⟩ := hprog
    obtain ⟨head, k, hr⟩ := running_of_open hcl hrings
    obtain ⟨c, ⟨done, pre, hall, rfl, hpre⟩, hlog⟩ := h.running hcl hr
    rw [hpc] at hpre
    obtain ⟨tl, hcalls⟩ := hpre
    have hgo := logInv_wwriteLoop _ _ hr hlog hall hcalls
    rw [wwriteLoop, if_pos hrest] at hgo
    exact hgo
  | @copy slice hpc =>
    rw [hpc] at hprog
    obtain ⟨hcl, rfl, hout, hpos, hle, hsize, _⟩ := hprog
    obtain ⟨head, k, hr⟩ := running_of_open hcl hrings
    obtain ⟨c, ⟨done, pre, hall, hc, hpre⟩, hlog⟩ := h.running hcl hr
    rw [hpc] at hpre
    obtain ⟨tl, hcalls⟩ := hpre
    have hk := hr.lt_of_out (by simp [hout])
    refine ⟨c, ⟨done, pre, hall, hc, ⟨tl, hcalls⟩, ?_⟩,
      .inl ⟨head, k, _, _, hr.copy hcl hout hle, hlog.copy hr hk hcl hr.fits⟩⟩
    have htake := take_memcpyAt (s.rest.take slice) hr.fits
    rw [List.length_take, min_eq_left hle, hlog.pending] at htake
    show (s.setOut _).out.buffer.take _ = _
    rw [out_setOut]
    exact htake
  | @commit slice hpc =>
    rw [hpc] at hprog
    obtain ⟨hcl, rfl, hout, hpos, hle, hsize, _⟩ := hprog
    obtain ⟨head, k, hr⟩ := running_of_open hcl hrings
    obtain ⟨c, ⟨done, pre, hall, rfl, hpre⟩, hlog⟩ := h.running hcl hr
    rw [hpc] at hpre
    obtain ⟨⟨tl, hcalls⟩, htake⟩ := hpre
    have hk := hr.lt_of_out (by simp [hout])
    have hlog' := hlog.commit hr hk hcl hpos hle hsize htake
    rw [← List.foldl_append] at hlog'
    have hkept : all = done ++ (wwriteAdvance (wwriteCommit s slice)).calls ∧
        (wwriteAdvance (wwriteCommit s slice)).calls =
          .wwrite ((pre ++ s.rest.take slice) ++ (wwriteAdvance (wwriteCommit s slice)).rest)
            :: tl := by
      have hwrite : s.calls = .wwrite ((pre ++ s.rest.take slice) ++ s.rest.drop slice) :: tl := by
        rw [List.append_assoc, List.take_append_drop]
        exact hcalls
      unfold wwriteAdvance
      split <;> exact ⟨hall, hwrite⟩
    exact logInv_wwriteLoop _ _ (hr.commit hcl hout hpos) hlog' hkept.1 hkept.2
  | joined hpc hex =>
    obtain ⟨c, ⟨done, pre, hall, hc, hpre⟩, hring⟩ := h
    rw [hpc] at hpre
    refine ⟨c, ⟨done, pre, hall, hc, hpre⟩, .inr (.inr ?_)⟩
    rcases hring with ⟨_, _, _, _, hr, _⟩ | ⟨⟨_, hd⟩, _⟩ | ⟨⟨stored, he⟩, hchild⟩
    · exact absurd hex hr.alive
    · have := hd.busy
      rw [hex] at this
      contradiction
    · exact ⟨⟨stored, he.exited, he.closing, he.child⟩, hchild⟩

theorem logInv_step (s : State) (l : Label) (t : State) (h : Inv all s ∧ LogInv all s)
    (hs : step s l = some t) : Inv all t ∧ LogInv all t := by
  refine ⟨inv_step s l t h.1 hs, ?_⟩
  cases l with
  | caller => exact h.2.callerStep h.1 hs
  | consumer => exact h.2.consumerStep hs
  | wakeCaller =>
    obtain ⟨hpc, rfl⟩ := wakeCaller_eq hs
    obtain ⟨c, ⟨done, pre, hall, hc, hpre⟩, hring⟩ := h.2
    rw [hpc] at hpre
    refine ⟨c, ⟨done, pre, hall, hc, hpre⟩, ?_⟩
    rcases hring with ⟨head, k, fill, stored, hr, hlog⟩ | ⟨⟨stored, hd⟩, hchild⟩ |
      ⟨⟨stored, he⟩, hchild⟩
    · exact .inl ⟨head, k, fill, stored, hr.congr rfl rfl rfl rfl rfl rfl rfl hr.alive rfl,
        hlog.congr rfl rfl rfl rfl rfl (.inl rfl)⟩
    · exact .inr (.inl ⟨⟨stored, hd.busy, hd.slot_len, hd.slot_flush, hd.closing, hd.bytes,
        hd.undestroyed⟩, hchild⟩)
    · exact .inr (.inr ⟨⟨stored, he.exited, he.closing, he.child⟩, hchild⟩)
  | wakeConsumer =>
    obtain ⟨hpc, rfl⟩ := wakeConsumer_eq hs
    obtain ⟨c, hcut, hring⟩ := h.2
    refine ⟨c, hcut.consumer rfl rfl rfl rfl (.inl rfl), ?_⟩
    rcases hring with ⟨head, k, fill, stored, hr, hlog⟩ | ⟨⟨_, hd⟩, _⟩ | ⟨⟨_, he⟩, _⟩
    · exact .inl ⟨head, k, fill, stored, hr.congr rfl rfl rfl rfl rfl rfl (by rw [hpc]; rfl)
        (by simp) (by rw [hpc]; rfl), hlog.congr rfl rfl rfl rfl rfl (.inr (by rw [hpc]; rfl))⟩
    · exact absurd hd.busy (by simp [hpc, ConsumerPc.busy])
    · exact absurd he.exited (by simp [hpc])

theorem logInv_reachable (h : Reachable (system all) s) : LogInv all s := by
  have hboth : Inv all s ∧ LogInv all s := by
    refine h.invariant ⟨inv_init all, ?_⟩ logInv_step
    obtain ⟨_, _, _, hring⟩ := inv_init all
    obtain ⟨head, k, hr⟩ := running_of_open rfl hring
    refine ⟨⟨[], []⟩, ⟨[], [], rfl, rfl, rfl⟩, .inl ⟨head, k, _, _, hr, ?_⟩⟩
    have hk : k = 0 := by
      by_contra hk
      have hfull := (hr.full 0 (by omega)).1
      contradiction
    subst hk
    exact ⟨rfl, rfl, nofun, rfl⟩
  exact hboth.2

/-- In every run that ends the child has got the same operations: those for the slots that the
calls are cut into, and the `wandio_wdestroy`. -/
theorem child_eq_cut (h : Reachable (system all) s) (hclosed : s.caller = .closed) :
    s.child = (cut all).ops ++ [.wdestroy] := by
  obtain ⟨_, _, ⟨_, _, _, hprog⟩, _⟩ := inv_reachable h
  rw [hclosed] at hprog
  obtain ⟨_, hcalls, _, hex⟩ := hprog
  obtain ⟨c, ⟨done, pre, hall, hc, hpre⟩, hring⟩ := logInv_reachable h
  rw [hclosed] at hpre
  obtain rfl : pre = [] := hpre
  rw [hcalls, List.append_nil] at hall
  rw [hall]
  rcases hring with ⟨_, _, _, _, hr, _⟩ | ⟨⟨_, hd⟩, _⟩ | ⟨_, hchild⟩
  · exact absurd hex hr.alive
  · have := hd.busy
    rw [hex] at this
    contradiction
  · rw [hchild, hc]
    rfl

end Runs

end Wandio.ThreadWriter
