import Wandio.ThreadWriter.RingTheorems
import Mathlib.Data.List.Forall2

/-!
# Delivery by the threaded writer

The invariant of a whole run joins the ring (`Running`, and the two states the consumer
passes through after the last slot) with the progress of the caller through its calls.
`thread_wclose` returns only after the consumer has ended, and then the child has every
byte of every `thread_wwrite`, in call order.
-/

namespace Wandio.ThreadWriter

open Transition RingBuffer

/-- `thread_wwrite` returns its length, as an `int`. -/
def Returned (c : Call) (r : ℤ) : Prop := ∀ buffer, c = .wwrite buffer → r = cInt buffer.length

/-- Inside a `thread_wwrite`: `done` are the calls that have returned and the bytes in front
of `rest` have been stored. -/
def InWrite (s : State) (done : List Call) (stored : List Byte) : Prop :=
  ∃ pre tl, s.calls = .wwrite (pre ++ s.rest) :: tl ∧ stored = callBytes done ++ pre ∧
    s.copied = cInt pre.length

/-- The caller has come to `pc` after the calls `done`, with `stored` copied into the ring
and `fill` bytes in the output buffer. -/
def Progress (s : State) (done : List Call) (fill : ℕ) (stored : List Byte) : CallerPc → Prop
  | .idle => s.closing = false ∧ fill = s.offset ∧ stored = callBytes done
  | .waitSpace _ =>
    s.closing = false ∧ fill = s.offset ∧ 0 < s.rest.length ∧ InWrite s done stored
  | .copying slice =>
    s.closing = false ∧ fill = s.offset ∧ s.out.state = .empty ∧ 0 < slice ∧
      slice ≤ s.rest.length ∧ s.offset + slice ≤ wandioBufferSize ∧ InWrite s done stored
  | .copied slice =>
    s.closing = false ∧ fill = s.offset + slice ∧ s.out.state = .empty ∧ 0 < slice ∧
      slice ≤ s.rest.length ∧ s.offset + slice ≤ wandioBufferSize ∧
      ∃ before, InWrite s done before ∧ stored = before ++ s.rest.take slice
  | .joining => s.closing = true ∧ s.calls = [] ∧ stored = callBytes done
  | .closed => s.closing = true ∧ s.calls = [] ∧ stored = callBytes done ∧ s.consumer = .exited

/-- The caller's side of a state after `all` or some of its calls. -/
def CallerInv (all : List Call) (s : State) (fill : ℕ) (stored : List Byte) : Prop :=
  ∃ done, all = done ++ s.calls ∧ List.Forall₂ Returned done s.returns ∧
    Progress s done fill stored s.caller

/-- The consumer has emptied the output buffer of a closing writer and is about to find that
the slot behind it has no data. -/
structure Drained (s : State) (stored : List Byte) : Prop where
  busy : s.consumer.busy = true
  slot_len : (s.buffer s.index).len = 0
  slot_flush : (s.buffer s.index).flush = false
  closing : s.closing = true
  bytes : childBytes s.child = stored
  undestroyed : .wdestroy ∉ s.child

/-- The consumer has ended: the child was destroyed after all its writes. -/
structure Ended (s : State) (stored : List Byte) : Prop where
  exited : s.consumer = .exited
  closing : s.closing = true
  child : ∃ ops, s.child = ops ++ [.wdestroy] ∧ .wdestroy ∉ ops ∧ childBytes ops = stored

/-- The invariant of every run of `system all`. -/
def Inv (all : List Call) (s : State) : Prop :=
  ∃ fill stored, CallerInv all s fill stored ∧
    ((∃ head k, Running s head k fill stored) ∨ Drained s stored ∨ Ended s stored)

@[simp] theorem callBytes_append (cs cs' : List Call) :
    callBytes (cs ++ cs') = callBytes cs ++ callBytes cs' := List.flatMap_append

/-- What relates the calls that have returned to their results. -/
theorem forall₂_of_mem_zip {R : Call → ℤ → Prop} {done calls : List Call} {returns : List ℤ}
    (h : List.Forall₂ R done returns) {c : Call} {r : ℤ}
    (hmem : (c, r) ∈ (done ++ calls).zip returns) : R c r := by
  apply List.forall₂_zip h
  rw [← List.append_nil returns, List.zip_append h.length_eq] at hmem
  simpa using hmem

/-- The results of the calls that have returned. -/
theorem Inv.returned {all : List Call} {s : State} (h : Inv all s) {c : Call} {r : ℤ}
    (hmem : (c, r) ∈ all.zip s.returns) : Returned c r := by
  obtain ⟨_, _, ⟨done, hall, hdone, _⟩, _⟩ := h
  rw [hall] at hmem
  exact forall₂_of_mem_zip hdone hmem

/-! ## Steps of the consumer seen by the caller -/

/-- A step of the consumer leaves the caller's progress alone, but for a wake-up. -/
theorem CallerInv.consumer {all : List Call} {s t : State} {fill : ℕ} {stored : List Byte}
    (h : CallerInv all s fill stored) (hcl : t.closing = s.closing) (ho : t.offset = s.offset)
    (hcalls : t.calls = s.calls) (hrest : t.rest = s.rest) (hcopied : t.copied = s.copied)
    (hret : t.returns = s.returns) (hpc : t.caller = s.caller ∨ t.caller = s.caller.signal)
    (hout : s.out.state = .empty → t.out.state = .empty)
    (hex : s.consumer = .exited → t.consumer = .exited) : CallerInv all t fill stored := by
  obtain ⟨done, hall, hdone, hprog⟩ := h
  refine ⟨done, by rw [hcalls]; exact hall, by rw [hret]; exact hdone, ?_⟩
  have hwrite : ∀ st, InWrite s done st → InWrite t done st := by
    intro st hw
    rw [InWrite, hcalls, hrest, hcopied]
    exact hw
  have hsame : Progress t done fill stored s.caller := by
    cases hc : s.caller with
    | idle =>
      rw [hc] at hprog
      rw [Progress, hcl, ho]
      exact hprog
    | waitSpace signalled =>
      rw [hc] at hprog
      obtain ⟨h1, h2, h3, h4⟩ := hprog
      exact ⟨hcl.trans h1, h2.trans ho.symm, by rw [hrest]; exact h3, hwrite _ h4⟩
    | copying slice =>
      rw [hc] at hprog
      obtain ⟨h1, h2, h3, h4, h5, h6, h7⟩ := hprog
      exact ⟨hcl.trans h1, h2.trans ho.symm, hout h3, h4, by rw [hrest]; exact h5,
        by rw [ho]; exact h6, hwrite _ h7⟩
    | copied slice =>
      rw [hc] at hprog
      obtain ⟨h1, h2, h3, h4, h5, h6, before, h7, h8⟩ := hprog
      exact ⟨hcl.trans h1, by rw [ho]; exact h2, hout h3, h4, by rw [hrest]; exact h5,
        by rw [ho]; exact h6, before, hwrite _ h7, by rw [hrest]; exact h8⟩
    | joining =>
      rw [hc] at hprog
      rw [Progress, hcl, hcalls]
      exact hprog
    | closed =>
      rw [hc] at hprog
      obtain ⟨h1, h2, h3, h4⟩ := hprog
      exact ⟨hcl.trans h1, hcalls.trans h2, h3, hex h4⟩
  rcases hpc with hpc | hpc
  · rw [hpc]
    exact hsame
  · rw [hpc]
    cases hc : s.caller <;> rw [hc] at hsame <;> exact hsame

/-- Giving a slot back can only empty the output buffer. -/
theorem out_consumerRelease (s : State) (h : s.out.state = .empty) :
    (consumerRelease s).out.state = .empty := by
  by_cases hi : s.outBuffer = s.index
  · simp [consumerRelease, State.out, State.setSlot, State.signalSpaceAvail, hi]
  · simpa [consumerRelease, State.out, State.setSlot, State.signalSpaceAvail,
      Function.update_of_ne hi] using h

/-- `consumerLoop` looks at the slots and at `closing` only. -/
theorem consumerLoop_consumer (s : State) (pc : ConsumerPc) :
    consumerLoop { s with consumer := pc } = consumerLoop s := rfl

theorem consumerLoop_inv {all : List Call} {s : State} {fill : ℕ} {stored : List Byte}
    (hc : CallerInv all s fill stored) (hex : s.consumer ≠ .exited) :
    CallerInv all (consumerLoop s) fill stored := by
  have hcongr : ∀ pc, CallerInv all { s with consumer := pc } fill stored := fun pc =>
    hc.consumer rfl rfl rfl rfl rfl rfl (.inl rfl) id fun h => absurd h hex
  unfold consumerLoop
  split <;> exact hcongr _

/-- A consumer that holds the mutex at the top of its loop goes to sleep or to the child. -/
theorem inv_consumerLoop {all : List Call} {s : State} (h : Inv all s)
    (hbusy : s.consumer.busy = false) (hex : s.consumer ≠ .exited) :
    Inv all (consumerLoop s) := by
  obtain ⟨fill, stored, hc, hring⟩ := h
  refine ⟨fill, stored, consumerLoop_inv hc hex, ?_⟩
  rcases hring with ⟨head, k, hr⟩ | hd | he
  · refine .inl ⟨head, k, hr.loop ?_⟩
    by_contra hw
    rw [busy_of_written hw] at hbusy
    contradiction
  · rw [hd.busy] at hbusy
    contradiction
  · exact absurd he.exited hex

theorem callerInv_release {all : List Call} {s : State} {fill : ℕ} {stored : List Byte}
    (hc : CallerInv all s fill stored) (pc : ConsumerPc) (hex : s.consumer ≠ .exited) :
    CallerInv all { consumerRelease s with consumer := pc } fill stored :=
  hc.consumer rfl rfl rfl rfl rfl rfl (.inr rfl) (out_consumerRelease s) fun h => absurd h hex

/-- The consumer ends after a slot without data. -/
theorem consumerRelock_ended {s : State} {stored : List Byte}
    (hlen : (s.buffer s.index).len = 0) (hcl : s.closing = true)
    (hbytes : childBytes s.child = stored) (hund : .wdestroy ∉ s.child) :
    Ended (consumerRelock s) stored := by
  rw [consumerRelock, if_neg (by omega)]
  exact ⟨rfl, hcl, s.child, rfl, hund, hbytes⟩

/-- Without a slot handed over, a consumer that takes the mutex again has been at the output
buffer of a closing writer. -/
theorem Running.relock_last {s : State} {head fill : ℕ} {stored : List Byte}
    (h : Running s head 0 fill stored) (hpc : s.consumer = .relock) :
    s.closing = true ∧ (s.buffer s.index).len = s.offset ∧
      if 0 < s.offset then Drained (consumerRelock s) stored
      else Ended (consumerRelock s) stored := by
  have hcl : s.closing = true := by
    rcases h.busy (by rw [hpc]; rfl) with hk | hk
    · omega
    · exact hk
  have hlen : (s.buffer s.index).len = s.offset := by
    rw [h.slot_eq, ← h.out_eq]
    exact (h.openSlot buffers_pos).2.1
  have hbytes : childBytes s.child = stored := by
    have hold := h.bytes
    rw [hpc, show ConsumerPc.relock.written = 1 from rfl] at hold
    simpa [segments] using hold
  refine ⟨hcl, hlen, ?_⟩
  split
  · next hpos =>
    -- the next slot is free
    have hfree := h.free 1 (by omega) (by decide)
    have hne : (s.index + 1) % buffers ≠ s.index := by
      have := slot_ne buffers head (i := 0) (j := 1) (by omega) (by decide)
      rw [h.index_eq, Nat.mod_add_mod]
      exact this.symm
    have hslot : (consumerRelease s).buffer ((s.index + 1) % buffers) = s.slotAt head 1 := by
      rw [State.slotAt, ← Nat.mod_add_mod head, ← h.index_eq]
      exact Function.update_of_ne hne _ _
    have hloop : consumerRelock s = { consumerRelease s with consumer := .writing } := by
      rw [consumerRelock, if_pos (by omega), consumerLoop, if_neg]
      rw [show (consumerRelease s).closing = s.closing from rfl, hcl]
      simp
    rw [hloop]
    refine ⟨rfl, ?_, ?_, hcl, hbytes, h.undestroyed⟩
    · exact (congrArg BufferT.len hslot).trans hfree.2.1
    · exact (congrArg BufferT.flush hslot).trans hfree.2.2
  · next hzero => exact consumerRelock_ended (by omega) hcl hbytes h.undestroyed

/-- A slot that was handed over had data, so the consumer goes on. -/
theorem Running.relock {s : State} {head k fill : ℕ} {stored : List Byte}
    (h : Running s head (k + 1) fill stored) (hpc : s.consumer = .relock) :
    0 < (s.buffer s.index).len ∧ Running (consumerRelock s) (head + 1) k fill stored := by
  have hlen : 0 < (s.buffer s.index).len := by
    rw [h.slot_eq]
    exact (h.full 0 (by omega)).2
  refine ⟨hlen, ?_⟩
  rw [consumerRelock, if_pos hlen, ← consumerLoop_consumer _ .start]
  exact (h.release hpc).loop rfl

/-- The child has nothing to do for an empty slot. -/
theorem Drained.write {s : State} {stored : List Byte} (h : Drained s stored) :
    Drained (consumerWrite s) stored := by
  refine ⟨rfl, h.slot_len, h.slot_flush, h.closing, ?_, ?_⟩
  · simpa [consumerWrite, h.slot_len] using h.bytes
  · simpa [consumerWrite, h.slot_len] using h.undestroyed

theorem Drained.flush {s : State} {stored : List Byte} (h : Drained s stored) :
    Drained (consumerFlush s) stored := by
  refine ⟨rfl, h.slot_len, h.slot_flush, h.closing, ?_, ?_⟩
  · simpa [consumerFlush, h.slot_flush] using h.bytes
  · simpa [consumerFlush, h.slot_flush] using h.undestroyed

theorem Drained.relock {s : State} {stored : List Byte} (h : Drained s stored) :
    Ended (consumerRelock s) stored :=
  consumerRelock_ended h.slot_len h.closing h.bytes h.undestroyed

/-- Taking the mutex again after the child calls. -/
theorem inv_consumerRelock {all : List Call} {s : State} (h : Inv all s)
    (hpc : s.consumer = .relock) : Inv all (consumerRelock s) := by
  obtain ⟨fill, stored, hc, hring⟩ := h
  have hex : s.consumer ≠ .exited := by simp [hpc]
  have hcaller : CallerInv all (consumerRelock s) fill stored := by
    by_cases hlen : 0 < (s.buffer s.index).len
    · rw [consumerRelock, if_pos hlen, ← consumerLoop_consumer _ .start]
      exact consumerLoop_inv (callerInv_release hc .start hex) (by simp)
    · rw [consumerRelock, if_neg hlen]
      exact (callerInv_release hc .exited hex).consumer rfl rfl rfl rfl rfl rfl (.inl rfl) id id
  refine ⟨fill, stored, hcaller, ?_⟩
  rcases hring with ⟨head, k, hr⟩ | hd | he
  · cases k with
    | succ k => exact .inl ⟨head + 1, k, (hr.relock hpc).2⟩
    | zero =>
      obtain ⟨_, _, hlast⟩ := hr.relock_last hpc
      split at hlast
      · exact .inr (.inl hlast)
      · exact .inr (.inr hlast)
  · exact .inr (.inr hd.relock)
  · exact absurd he.exited hex

/-- Every step of the consumer keeps the invariant. -/
theorem inv_consumerStep {all : List Call} {s t : State} (h : Inv all s)
    (hs : consumerStep s = some t) : Inv all t := by
  cases consumerMove hs with
  | loop hpc =>
    apply inv_consumerLoop h
    · rcases hpc with hpc | hpc <;> rw [hpc] <;> rfl
    · rcases hpc with hpc | hpc <;> simp [hpc]
  | write hpc =>
    obtain ⟨fill, stored, hc, hring⟩ := h
    refine ⟨fill, stored, hc.consumer rfl rfl rfl rfl rfl rfl (.inl rfl) id (by simp [hpc]), ?_⟩
    rcases hring with ⟨head, k, hr⟩ | hd | he
    · exact .inl ⟨head, k, hr.write hpc⟩
    · exact .inr (.inl hd.write)
    · exact absurd he.exited (by simp [hpc])
  | flush hpc =>
    obtain ⟨fill, stored, hc, hring⟩ := h
    refine ⟨fill, stored, hc.consumer rfl rfl rfl rfl rfl rfl (.inl rfl) id (by simp [hpc]), ?_⟩
    rcases hring with ⟨head, k, hr⟩ | hd | he
    · exact .inl ⟨head, k, hr.flush hpc⟩
    · exact .inr (.inl hd.flush)
    · exact absurd he.exited (by simp [hpc])
  | relock hpc => exact inv_consumerRelock h hpc

/-! ## Steps of the caller -/

/-- While the writer is open the ring is running. -/
theorem running_of_open {s : State} {fill : ℕ} {stored : List Byte} (hcl : s.closing = false)
    (h : (∃ head k, Running s head k fill stored) ∨ Drained s stored ∨ Ended s stored) :
    ∃ head k, Running s head k fill stored := by
  rcases h with h | h | h
  · exact h
  · rw [h.closing] at hcl
    contradiction
  · rw [h.closing] at hcl
    contradiction

section Write

variable {all done : List Call} {s : State} {head k : ℕ} {stored : List Byte}

/-- A write with data left waits for a slot or starts a copy. -/
theorem inv_wwriteSpace (hr : Running s head k s.offset stored) (hcl : s.closing = false)
    (hall : all = done ++ s.calls) (hdone : List.Forall₂ Returned done s.returns)
    (hrest : 0 < s.rest.length) (hw : InWrite s done stored) : Inv all (wwriteSpace s) := by
  have hring : ∀ pc, Running { s with caller := pc } head k s.offset stored := fun pc =>
    hr.congr rfl rfl rfl rfl rfl rfl rfl hr.alive rfl
  unfold wwriteSpace
  split
  · exact ⟨s.offset, stored, ⟨done, hall, hdone, hcl, rfl, hrest, hw⟩, .inl ⟨head, k, hring _⟩⟩
  · next hout =>
    have hk := hr.lt_of_out hout
    have hlt := hr.offset_lt
    refine ⟨s.offset, stored, ⟨done, hall, hdone, hcl, rfl, (hr.openSlot hk).1, ?_, ?_, ?_, hw⟩,
      .inl ⟨head, k, hring _⟩⟩
    · omega
    · exact Nat.min_le_right _ _
    · show s.offset + min (wandioBufferSize - s.offset) s.rest.length ≤ wandioBufferSize
      omega

/-- A write goes on, or returns the length of its buffer. -/
theorem inv_wwriteLoop (hr : Running s head k s.offset stored) (hcl : s.closing = false)
    (hall : all = done ++ s.calls) (hdone : List.Forall₂ Returned done s.returns)
    (hw : InWrite s done stored) : Inv all (wwriteLoop s) := by
  unfold wwriteLoop
  split
  · next hrest => exact inv_wwriteSpace hr hcl hall hdone hrest hw
  · next hrest =>
    obtain ⟨pre, tl, hcalls, hstored, hcopied⟩ := hw
    have hnil : s.rest = [] := List.eq_nil_of_length_eq_zero (by omega)
    rw [hnil, List.append_nil] at hcalls
    refine ⟨s.offset, stored, ⟨done ++ [.wwrite pre], ?_, ?_, hcl, rfl, ?_⟩,
      .inl ⟨head, k, hr.congr rfl rfl rfl rfl rfl rfl rfl hr.alive rfl⟩⟩
    · rw [hall, hcalls]
      simp [State.return, hcalls]
    · refine List.rel_append hdone (.cons ?_ .nil)
      rintro buffer ⟨⟩
      exact hcopied
    · rw [hstored, callBytes_append]
      simp [callBytes, Call.bytes]

end Write

/-- Copying a slice puts it in the ring. -/
theorem Running.copy {s : State} {head k slice : ℕ} {stored : List Byte}
    (h : Running s head k s.offset stored) (hcl : s.closing = false)
    (hout : s.out.state = .empty) (hle : slice ≤ s.rest.length) :
    Running (wwriteCopy s slice) head k (s.offset + slice) (stored ++ s.rest.take slice) := by
  have hk := h.lt_of_out (by simp [hout])
  obtain ⟨hstate, hlen, hflush⟩ := h.openSlot hk
  have hslice : (s.rest.take slice).length = slice := by simp [hle]
  have htake := take_memcpyAt (s.rest.take slice) h.fits
  have hroom := le_length_memcpyAt (s.rest.take slice) h.fits
  rw [hslice] at htake hroom
  have hnew := h.setOpen hk hcl
    { s.out with buffer := memcpyAt s.out.buffer s.offset (s.rest.take slice) } _ _
    hstate hlen hflush h.offset_lt hroom htake
  exact hnew.congr rfl rfl rfl rfl rfl rfl rfl hnew.alive rfl

theorem inv_wwriteCopy {all done : List Call} {s : State} {fill slice : ℕ} {stored : List Byte}
    (hring : ∃ head k, Running s head k fill stored)
    (hall : all = done ++ s.calls) (hdone : List.Forall₂ Returned done s.returns)
    (hp : Progress s done fill stored (.copying slice)) : Inv all (wwriteCopy s slice) := by
  obtain ⟨head, k, hr⟩ := hring
  obtain ⟨hcl, rfl, hout, hpos, hle, hsize, hw⟩ := hp
  refine ⟨s.offset + slice, _, ⟨done, hall, hdone, hcl, rfl, ?_, hpos, hle, hsize,
    stored, hw, rfl⟩, .inl ⟨head, k, hr.copy hcl hout hle⟩⟩
  exact (congrArg BufferT.state (out_setOut s _)).trans hout

/-- After a copy the slice is counted; a filled slot is handed over. -/
theorem Running.commit {s : State} {head k slice : ℕ} {stored : List Byte}
    (h : Running s head k (s.offset + slice) stored) (hcl : s.closing = false)
    (hout : s.out.state = .empty) (hpos : 0 < slice) :
    Running (wwriteAdvance (wwriteCommit s slice)) head
      (if wandioBufferSize ≤ s.offset + slice then k + 1 else k)
      (wwriteAdvance (wwriteCommit s slice)).offset stored := by
  have hk := h.lt_of_out (by simp [hout])
  obtain ⟨hstate, hlen, hflush⟩ := h.openSlot hk
  have hoffset : (wwriteCommit s slice).offset = s.offset + slice := rfl
  by_cases hfull : wandioBufferSize ≤ s.offset + slice
  · have hnew := h.handOver hk hcl
      { s.out with len := s.out.len + slice, state := .full, flush := false }
      rfl (by simp only; omega) (by simp only [BufferT.payload, hlen])
    have hset : wwriteAdvance (wwriteCommit s slice) = { { s.setOut
        { s.out with len := s.out.len + slice, state := .full, flush := false } with
        offset := 0, outBuffer := (s.outBuffer + 1) % buffers } with
        rest := s.rest.drop slice, copied := cInt (s.copied + slice),
        consumer := s.consumer.signal } := by
      rw [wwriteAdvance, if_pos (hoffset ▸ hfull)]
      simp [wwriteCommit, State.setOut, State.setSlot, State.out, State.signalDataReady]
    rw [hset, if_pos hfull]
    exact hnew.congr rfl rfl rfl rfl rfl rfl (by simp [State.setOut, State.setSlot])
      (by simpa using h.alive) (by simp [State.setOut, State.setSlot])
  · rw [wwriteAdvance, if_neg (hoffset ▸ hfull), if_neg hfull]
    have hnew := h.setOpen hk hcl { s.out with len := s.out.len + slice }
      (s.offset + slice) [] hstate (by simp [hlen]) hflush
      (not_le.mp hfull) h.fits (by simp)
    rw [List.append_nil] at hnew
    exact hnew.congr rfl rfl rfl rfl rfl rfl rfl h.alive rfl

/-- After a copy the slice is counted, a filled slot is handed over and the write goes on. -/
theorem inv_wwriteCopied {all done : List Call} {s : State} {fill slice : ℕ} {stored : List Byte}
    (hring : ∃ head k, Running s head k fill stored)
    (hall : all = done ++ s.calls) (hdone : List.Forall₂ Returned done s.returns)
    (hp : Progress s done fill stored (.copied slice)) :
    Inv all (wwriteLoop (wwriteAdvance (wwriteCommit s slice))) := by
  obtain ⟨head, k, hr⟩ := hring
  obtain ⟨hcl, rfl, hout, hpos, hle, hsize, before, ⟨pre, tl, hcalls, hbefore, hcopied⟩, rfl⟩ := hp
  have hslice : (s.rest.take slice).length = slice := by simp [hle]
  have hwrite : InWrite (wwriteCommit s slice) done (before ++ s.rest.take slice) := by
    refine ⟨pre ++ s.rest.take slice, tl, ?_, ?_, ?_⟩
    · rw [List.append_assoc, show (wwriteCommit s slice).rest = s.rest.drop slice from rfl,
        List.take_append_drop]
      exact hcalls
    · rw [hbefore, List.append_assoc]
    · rw [show (wwriteCommit s slice).copied = cInt (s.copied + slice) from rfl, hcopied,
        cInt_cInt_add, List.length_append, hslice]
      push_cast
      rfl
  -- handing a slot over does not change where the write is
  have hkept : (wwriteAdvance (wwriteCommit s slice)).closing = false ∧
      all = done ++ (wwriteAdvance (wwriteCommit s slice)).calls ∧
      List.Forall₂ Returned done (wwriteAdvance (wwriteCommit s slice)).returns ∧
      InWrite (wwriteAdvance (wwriteCommit s slice)) done (before ++ s.rest.take slice) := by
    unfold wwriteAdvance
    split <;> exact ⟨hcl, hall, hdone, hwrite⟩
  obtain ⟨hcl', hall', hdone', hwrite'⟩ := hkept
  exact inv_wwriteLoop (hr.commit hcl hout hpos) hcl' hall' hdone' hwrite'

/-- A flush hands the output buffer over unless it is empty. -/
theorem Running.flushed {s : State} {head k : ℕ} {stored : List Byte}
    (h : Running s head k s.offset stored) (hcl : s.closing = false) :
    Running (threadWflush s) head (if 0 < s.offset then k + 1 else k) (threadWflush s).offset
      stored := by
  unfold threadWflush
  split
  · next hpos =>
    have hk : k < buffers := by
      refine lt_of_le_of_ne h.k_le fun hkn => ?_
      have := (h.fill_full hkn).1
      omega
    have hlen := (h.openSlot hk).2.1
    have hnew := h.handOver hk hcl { s.out with state := .full, flush := true }
      rfl (by simp only; omega) (by simp only [BufferT.payload, hlen])
    refine hnew.congr rfl rfl rfl rfl rfl rfl ?_ ?_ ?_
    · simp [State.return, State.signalDataReady, State.setOut, State.setSlot]
    · simpa [State.return, State.signalDataReady, State.setOut, State.setSlot] using h.alive
    · simp [State.return, State.signalDataReady, State.setOut, State.setSlot]
  · exact h.congr rfl rfl rfl rfl rfl rfl rfl h.alive rfl

theorem inv_threadWflush {all done : List Call} {s : State} {fill : ℕ} {stored : List Byte}
    {tl : List Call} (hring : ∃ head k, Running s head k fill stored)
    (hall : all = done ++ s.calls) (hdone : List.Forall₂ Returned done s.returns)
    (hp : Progress s done fill stored .idle) (hcalls : s.calls = .wflush :: tl) :
    Inv all (threadWflush s) := by
  obtain ⟨head, k, hr⟩ := hring
  obtain ⟨hcl, rfl, rfl⟩ := hp
  have hall' : all = (done ++ [.wflush]) ++ tl := by rw [hall, hcalls]; simp
  have hdone' : ∀ r, List.Forall₂ Returned (done ++ [.wflush]) (s.returns ++ [r]) := fun r =>
    List.rel_append hdone (.cons (by rintro _ ⟨⟩) .nil)
  have hbytes : callBytes done = callBytes (done ++ [.wflush]) := by
    rw [callBytes_append]
    simp [callBytes, Call.bytes]
  refine ⟨_, _, ⟨done ++ [.wflush], ?_, ?_, ?_⟩, .inl ⟨head, _, hr.flushed hcl⟩⟩
  · rw [hall']
    unfold threadWflush
    split <;>
      simp [State.return, State.signalDataReady, State.setOut, State.setSlot, hcalls]
  · unfold threadWflush
    split <;> exact hdone' _
  · unfold threadWflush
    split <;> exact ⟨hcl, rfl, hbytes⟩

/-- `thread_wclose` leaves the ring as it is. -/
theorem Running.close {s : State} {head k : ℕ} {stored : List Byte}
    (h : Running s head k s.offset stored) : Running (threadWclose s) head k s.offset stored := by
  refine ⟨h.index_eq, h.outBuffer_eq, h.k_le, h.full, h.free, h.openSlot, h.offset_lt,
    h.fill_full, fun _ => rfl, h.fits, fun _ => .inr rfl, ?_, ?_, h.undestroyed⟩
  · simpa [threadWclose, State.signalDataReady] using h.alive
  · have hold := h.bytes
    rw [show (threadWclose s).consumer = s.consumer.signal from rfl, signal_written]
    exact hold

/-- The first half of `thread_wclose`. -/
theorem inv_threadWclose {all done : List Call} {s : State} {fill : ℕ} {stored : List Byte}
    (hring : ∃ head k, Running s head k fill stored)
    (hall : all = done ++ s.calls) (hdone : List.Forall₂ Returned done s.returns)
    (hp : Progress s done fill stored .idle) (hcalls : s.calls = []) :
    Inv all (threadWclose s) := by
  obtain ⟨head, k, hr⟩ := hring
  obtain ⟨hcl, rfl, rfl⟩ := hp
  exact ⟨s.offset, _, ⟨done, hall, hdone, rfl, hcalls, rfl⟩, .inl ⟨head, k, hr.close⟩⟩

/-- Every step of the caller keeps the invariant. -/
theorem inv_callerStep {all : List Call} {s t : State} (h : Inv all s)
    (hs : callerStep s = some t) : Inv all t := by
  obtain ⟨fill, stored, ⟨done, hall, hdone, hprog⟩, hring⟩ := h
  cases callerMove hs with
  | close hpc hcalls =>
    rw [hpc] at hprog
    exact inv_threadWclose (running_of_open hprog.1 hring) hall hdone hprog hcalls
  | @wwrite buffer tl hpc hcalls =>
    rw [hpc] at hprog
    obtain ⟨head, k, hr⟩ := running_of_open hprog.1 hring
    obtain ⟨hcl, rfl, hstored⟩ := hprog
    refine inv_wwriteLoop (hr.congr rfl rfl rfl rfl rfl rfl rfl hr.alive rfl) hcl hall hdone ?_
    exact ⟨[], tl, hcalls, by rw [hstored, List.append_nil], rfl⟩
  | wflush hpc hcalls =>
    rw [hpc] at hprog
    exact inv_threadWflush (running_of_open hprog.1 hring) hall hdone hprog hcalls
  | wake hpc =>
    rw [hpc] at hprog
    obtain ⟨hcl, rfl, hrest, hw⟩ := hprog
    obtain ⟨head, k, hr⟩ := running_of_open hcl hring
    exact inv_wwriteSpace hr hcl hall hdone hrest hw
  | copy hpc =>
    rw [hpc] at hprog
    exact inv_wwriteCopy (running_of_open hprog.1 hring) hall hdone hprog
  | commit hpc =>
    rw [hpc] at hprog
    exact inv_wwriteCopied (running_of_open hprog.1 hring) hall hdone hprog
  | joined hpc hex =>
    rw [hpc] at hprog
    obtain ⟨hcl, hcalls, hstored⟩ := hprog
    refine ⟨fill, stored, ⟨done, hall, hdone, hcl, hcalls, hstored, hex⟩, .inr (.inr ?_)⟩
    rcases hring with ⟨head, k, hr⟩ | hd | he
    · exact absurd hex hr.alive
    · have := hd.busy
      rw [hex] at this
      contradiction
    · exact ⟨he.exited, he.closing, he.child⟩

/-! ## Runs -/

theorem inv_init (all : List Call) : Inv all (threadWopen all) := by
  refine ⟨0, [], ⟨[], rfl, .nil, rfl, rfl, rfl⟩, .inl ⟨0, 0, ?_⟩⟩
  constructor <;>
    simp [threadWopen, buffers, State.slotAt, State.out, ConsumerPc.busy, segments, childBytes,
      ConsumerPc.written, wandioBufferSize]

/-- Every step of a run keeps the invariant. -/
theorem inv_step {all : List Call} (s : State) (l : Label) (t : State) (h : Inv all s)
    (hs : step s l = some t) : Inv all t := by
  cases l with
  | caller => exact inv_callerStep h hs
  | consumer => exact inv_consumerStep h hs
  | wakeCaller =>
    obtain ⟨fill, stored, ⟨done, hall, hdone, hprog⟩, hring⟩ := h
    obtain ⟨hpc, rfl⟩ := wakeCaller_eq hs
    rw [hpc] at hprog
    obtain ⟨head, k, hr⟩ := running_of_open hprog.1 hring
    exact ⟨fill, stored, ⟨done, hall, hdone, hprog⟩,
      .inl ⟨head, k, hr.congr rfl rfl rfl rfl rfl rfl rfl hr.alive rfl⟩⟩
  | wakeConsumer =>
    obtain ⟨fill, stored, hc, hring⟩ := h
    obtain ⟨hpc, rfl⟩ := wakeConsumer_eq hs
    refine ⟨fill, stored, hc.consumer rfl rfl rfl rfl rfl rfl (.inl rfl) id (by simp [hpc]), ?_⟩
    rcases hring with ⟨head, k, hr⟩ | hd | he
    · exact .inl ⟨head, k, hr.congr rfl rfl rfl rfl rfl rfl (by rw [hpc]; rfl) (by simp)
        (by rw [hpc]; rfl)⟩
    · exact absurd hd.busy (by simp [hpc, ConsumerPc.busy])
    · exact absurd he.exited (by simp [hpc])

theorem inv_reachable {all : List Call} {s : State} (h : Reachable (system all) s) : Inv all s :=
  h.invariant (inv_init all) inv_step

/-- When `thread_wclose` returns, the child has got the bytes of all calls, and these have
returned. -/
theorem Inv.closed {all : List Call} {s : State} (h : Inv all s) (hclosed : s.caller = .closed) :
    (∃ ops, s.child = ops ++ [.wdestroy] ∧ .wdestroy ∉ ops ∧ childBytes ops = callBytes all) ∧
      List.Forall₂ Returned all s.returns := by
  obtain ⟨fill, stored, ⟨done, hall, hdone, hprog⟩, hring⟩ := h
  rw [hclosed] at hprog
  obtain ⟨hcl, hcalls, hstored, hex⟩ := hprog
  rw [hcalls, List.append_nil] at hall
  subst hall
  refine ⟨?_, hdone⟩
  rcases hring with ⟨head, k, hr⟩ | hd | he
  · exact absurd hex hr.alive
  · have := hd.busy
    rw [hex] at this
    contradiction
  · obtain ⟨ops, hchild, hund, hbytes⟩ := he.child
    exact ⟨ops, hchild, hund, hbytes.trans hstored⟩

/-- Exactly-once delivery in order: when `thread_wclose` returns, the payloads of the child
writes are the data of all `thread_wwrite` calls in call order, the child was destroyed once
and after them, and every `thread_wwrite` has returned its length. -/
theorem threadWriter_delivers (all : List Call)
    (hlen : ∀ buffer, Call.wwrite buffer ∈ all → buffer.length < 2 ^ 31) (s : State)
    (h : Reachable (system all) s) (hclosed : s.caller = .closed) :
    (∃ ops, s.child = ops ++ [.wdestroy] ∧ .wdestroy ∉ ops ∧ childBytes ops = callBytes all) ∧
      List.Forall₂ (fun c r => ∀ buffer, c = .wwrite buffer → r = buffer.length) all s.returns := by
  obtain ⟨hchild, hreturned⟩ := (inv_reachable h).closed hclosed
  refine ⟨hchild, ?_⟩
  rw [List.forall₂_iff_zip] at hreturned ⊢
  refine ⟨hreturned.1, fun {c r} hmem buffer hc => ?_⟩
  rw [hreturned.2 hmem buffer hc]
  exact cInt_of_lt (hlen buffer (hc ▸ (List.of_mem_zip hmem).1))

/-- Two writes with a flush in between; the consumer starts after the writer is closing. -/
def flushedCalls : List Call := [.wwrite [1, 2], .wflush, .wwrite [3]]

/-- The caller runs to its `pthread_join`, then the consumer to its end. -/
def lazySchedule : List Label :=
  List.replicate 8 .caller ++ List.replicate 10 .consumer ++ [.caller]

theorem threadWriter_delivers_flushed :
    ∃ s, Reachable (system flushedCalls) s ∧ s.caller = .closed ∧
      (∃ ops, s.child = ops ++ [.wdestroy] ∧ .wdestroy ∉ ops ∧ childBytes ops = [1, 2, 3]) := by
  obtain ⟨s, hs, hp⟩ := exists_reachable_of_exec (system flushedCalls) lazySchedule
    (fun s => s.caller = .closed) (by decide)
  have hclosed : s.caller = .closed := by simpa using hp
  have hlen : ∀ buffer, Call.wwrite buffer ∈ flushedCalls → buffer.length < 2 ^ 31 := by
    intro buffer hmem
    simp only [flushedCalls, List.mem_cons, Call.wwrite.injEq, List.not_mem_nil, or_false,
      reduceCtorEq, false_or] at hmem
    rcases hmem with rfl | rfl <;> decide
  exact ⟨s, hs, hclosed, (threadWriter_delivers flushedCalls hlen s hs hclosed).1⟩

end Wandio.ThreadWriter
