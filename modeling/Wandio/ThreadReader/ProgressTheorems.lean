import Wandio.ThreadReader.RingTheorems

/-!
# Progress of the threaded reader

For every parent and all lengths of the calls: the ring as far as only the states of the
slots matter (`Slots`), wake-ups (`NoLostWakeup`), and what is done to the parent
(`ParentUse`). Together they leave no state in which both threads sleep, and none in which
the caller waits for a producer that has ended.
-/

namespace Wandio.ThreadReader

open Transition RingBuffer

/-- The caller is between releasing the mutex for a copy and taking it again. -/
def CallerPc.busy : CallerPc → Bool
  | .copying _ | .copied _ => true
  | _ => false

/-- The ring when the caller is at position `head` and the next `k` slots are full. -/
structure Slots (n : ℕ) (s : State) (head k : ℕ) : Prop where
  pos : 0 < n
  inBuffer_eq : s.inBuffer = head % n
  index_eq : s.index = (head + k) % n
  k_le : k ≤ n
  full : ∀ j, j < k → (s.slotAt n head j).state = .full
  free : ∀ j, k ≤ j → j < n → (s.slotAt n head j).state = .empty
  room : s.producer = .reading ∨ s.producer = .relock → k < n
  copying : s.caller.busy = true → 0 < k ∧ 0 < s.inb.len
  exited : s.producer = .exited →
    s.closing = true ∨ (0 < k ∧ (s.slotAt n head (k - 1)).len ≤ 0)

/-- Until the owner closes the reader he is not in `thread_close`. -/
def ClosingPc (s : State) : Prop :=
  s.closing = true ↔ s.caller = .joining ∨ s.caller = .closed

@[simp] theorem signal_busy (pc : CallerPc) : pc.signal.busy = pc.busy := by cases pc <;> rfl

@[simp] theorem signal_eq_joining (pc : CallerPc) : pc.signal = .joining ↔ pc = .joining := by
  cases pc <;> simp [CallerPc.signal]

@[simp] theorem signal_eq_closed (pc : CallerPc) : pc.signal = .closed ↔ pc = .closed := by
  cases pc <;> simp [CallerPc.signal]

namespace Slots

variable {n : ℕ} {parent : ℕ → ReadResult} {s t : State} {head k : ℕ}

/-- Steps of the caller that leave the slots alone. -/
theorem congr (h : Slots n s head k) (hb : t.buffer = s.buffer) (hin : t.inBuffer = s.inBuffer)
    (hi : t.index = s.index) (hcl : s.closing = true → t.closing = true)
    (hpc : t.producer = s.producer ∨ t.producer = s.producer.signal)
    (hbusy : t.caller.busy = true → 0 < k ∧ 0 < s.inb.len) : Slots n t head k := by
  have hslot : t.slotAt n head = s.slotAt n head := by
    funext j
    rw [State.slotAt, State.slotAt, hb]
  have hinb : t.inb = s.inb := by rw [State.inb, State.inb, hb, hin]
  have hreading : t.producer = .reading ∨ t.producer = .relock →
      s.producer = .reading ∨ s.producer = .relock := by
    rcases hpc with hpc | hpc <;> rw [hpc] <;> simp
  have hexited : t.producer = .exited → s.producer = .exited := by
    rcases hpc with hpc | hpc <;> rw [hpc] <;> simp
  refine ⟨h.pos, hin.trans h.inBuffer_eq, hi.trans h.index_eq, h.k_le, ?_, ?_,
    fun hr => h.room (hreading hr), ?_, fun hex => ?_⟩
  · rw [hslot]
    exact h.full
  · rw [hslot]
    exact h.free
  · rw [hinb]
    exact hbusy
  · rw [hslot]
    exact (h.exited (hexited hex)).imp_left hcl

/-- The caller is at the oldest slot. -/
theorem inb_eq (h : Slots n s head k) : s.inb = s.slotAt n head 0 := by
  rw [State.inb, h.inBuffer_eq, State.slotAt, Nat.add_zero]

/-- The producer is at the slot behind the full ones. -/
theorem slot_eq (h : Slots n s head k) : s.buffer s.index = s.slotAt n head k := by
  rw [h.index_eq, State.slotAt]

theorem pos_of_inb (h : Slots n s head k) (hin : s.inb.state ≠ .empty) : 0 < k := by
  by_contra hk
  apply hin
  rw [h.inb_eq]
  exact h.free 0 (by omega) h.pos

/-- With the caller's slot empty the producer's slot is that slot. -/
theorem index_of_empty (h : Slots n s head k) (hin : s.inb.state = .empty) :
    k = 0 ∧ (s.buffer s.index).state = .empty := by
  have hk : k = 0 := by
    by_contra hk
    have hfull := h.full 0 (by omega)
    rw [← h.inb_eq, hin] at hfull
    contradiction
  refine ⟨hk, ?_⟩
  rw [h.slot_eq, hk]
  exact h.free 0 (by omega) h.pos

theorem lt_of_slot (h : Slots n s head k) (hslot : (s.buffer s.index).state ≠ .full) :
    k < n := by
  refine lt_of_le_of_ne h.k_le fun hk => hslot ?_
  have hfull := h.full 0 (by rw [hk]; exact h.pos)
  rw [h.slot_eq, State.slotAt, hk, Nat.add_mod_right]
  rwa [State.slotAt, Nat.add_zero] at hfull

/-- A slot with data is given back. -/
theorem release (h : Slots n s head k) (hbusy : s.caller.busy = true) (offset : ℕ)
    {pc : CallerPc} (hpc : pc.busy = false) :
    Slots n { (s.setSlot s.inBuffer { s.inb with state := .empty }).signalSpaceAvail with
      inBuffer := (s.inBuffer + 1) % n, offset := offset, caller := pc } (head + 1) (k - 1) := by
  obtain ⟨hk, hlen⟩ := h.copying hbusy
  obtain ⟨m, rfl⟩ : ∃ m, k = m + 1 := ⟨k - 1, by omega⟩
  set t : State := { (s.setSlot s.inBuffer { s.inb with state := .empty }).signalSpaceAvail with
    inBuffer := (s.inBuffer + 1) % n, offset := offset, caller := pc } with ht
  have hle := h.k_le
  have hslot : ∀ j, j + 1 < n → t.slotAt n (head + 1) j = s.slotAt n head (j + 1) := by
    intro j hj
    have hne := slot_ne n head (i := 0) (j := j + 1) (by omega) (by omega)
    rw [State.slotAt, State.slotAt, show head + 1 + j = head + (j + 1) by omega]
    show Function.update s.buffer s.inBuffer _ _ = _
    rw [h.inBuffer_eq]
    exact Function.update_of_ne hne.symm _ _
  have hlast : t.slotAt n (head + 1) (n - 1) = { s.inb with state := .empty } := by
    rw [State.slotAt, show head + 1 + (n - 1) = head + n by have := h.pos; omega,
      Nat.add_mod_right, ← h.inBuffer_eq]
    exact Function.update_self _ _ _
  have hproducer : t.producer = s.producer.signal := rfl
  refine ⟨h.pos, ?_, ?_, by omega, ?_, ?_, ?_, ?_, ?_⟩
  · show (s.inBuffer + 1) % n = _
    rw [h.inBuffer_eq, Nat.mod_add_mod]
  · rw [show head + 1 + (m + 1 - 1) = head + (m + 1) by omega]
    exact h.index_eq
  · intro j hj
    rw [hslot j (by omega)]
    exact h.full _ (by omega)
  · intro j hj hjn
    by_cases hjl : j + 1 < n
    · rw [hslot j hjl]
      exact h.free _ (by omega) hjl
    · rw [show j = n - 1 by omega, hlast]
  · intro hr
    have := h.room (by simpa [hproducer] using hr)
    omega
  · intro hb
    rw [show t.caller = pc from rfl, hpc] at hb
    contradiction
  · intro hex
    rcases h.exited (by simpa [hproducer] using hex) with hcl | ⟨_, hterm⟩
    · exact .inl hcl
    · -- the last slot has no data, so it is not the one given back
      have hm : m ≠ 0 := by
        rintro rfl
        rw [h.inb_eq] at hlen
        rw [show 0 + 1 - 1 = 0 from rfl] at hterm
        omega
      refine .inr ⟨by omega, ?_⟩
      rw [hslot _ (by omega), show m + 1 - 1 - 1 + 1 = m + 1 - 1 by omega]
      exact hterm

/-! ## The producer -/

theorem exit (h : Slots n s head k)
    (hwhy : s.closing = true ∨ (0 < k ∧ (s.slotAt n head (k - 1)).len ≤ 0)) :
    Slots n (producerExit s) head k := by
  refine ⟨h.pos, h.inBuffer_eq, h.index_eq, h.k_le, h.full, h.free, ?_, ?_, fun _ => hwhy⟩
  · simp [producerExit]
  · intro hbusy
    exact h.copying (by simpa [producerExit, State.signalDataReady] using hbusy)

theorem loop (h : Slots n s head k) : Slots n (producerLoop s) head k := by
  unfold producerLoop
  split
  · exact ⟨h.pos, h.inBuffer_eq, h.index_eq, h.k_le, h.full, h.free, by simp, h.copying, by simp⟩
  · next hwait =>
    split
    · next hcl => exact h.exit (.inl hcl)
    · next hcl =>
      refine ⟨h.pos, h.inBuffer_eq, h.index_eq, h.k_le, h.full, h.free, ?_, h.copying, by simp⟩
      intro _
      apply h.lt_of_slot
      intro hfull
      exact hwait ⟨hfull, Bool.eq_false_of_not_eq_true hcl⟩

/-- A write to the producer's slot leaves the full ones alone. -/
theorem setSlot (h : Slots n s head k) (hk : k < n) (b : BufferT) :
    (∀ j, j < n → j ≠ k → (s.setSlot s.index b).slotAt n head j = s.slotAt n head j) ∧
      (s.setSlot s.index b).slotAt n head k = b ∧ (0 < k → (s.setSlot s.index b).inb = s.inb) := by
  have hother : ∀ j, j < n → j ≠ k →
      (s.setSlot s.index b).slotAt n head j = s.slotAt n head j := by
    intro j hj hne
    rw [State.slotAt, State.slotAt, State.setSlot, h.index_eq]
    exact update_slot_ne _ _ hk hj hne
  refine ⟨hother, ?_, fun hpos => ?_⟩
  · rw [State.slotAt, ← h.index_eq]
    exact Function.update_self _ _ _
  · have hinb : (s.setSlot s.index b).inb = (s.setSlot s.index b).slotAt n head 0 := by
      rw [State.inb, State.slotAt, Nat.add_zero, ← h.inBuffer_eq]
      rfl
    rw [hinb, hother 0 (by omega) (by omega), h.inb_eq]

theorem read (h : Slots n s head k) (hpc : s.producer = .reading) :
    Slots n (producerRead parent s) head k := by
  have hk := h.room (.inl hpc)
  obtain ⟨hother, hself, hinb⟩ := h.setSlot hk { s.buffer s.index with
    space := memcpyAt (s.buffer s.index).space 0 (parent s.parentOps.length).data
    len := cInt (parent s.parentOps.length).ret }
  refine ⟨h.pos, h.inBuffer_eq, h.index_eq, h.k_le, ?_, ?_, fun _ => hk, ?_, ?_⟩
  · intro j hj
    have hslot := hother j (by omega) (by omega)
    exact (congrArg BufferT.state hslot).trans (h.full j hj)
  · intro j hj hjn
    by_cases hjk : j = k
    · subst hjk
      refine (congrArg BufferT.state hself).trans ?_
      show (s.buffer s.index).state = .empty
      rw [h.slot_eq]
      exact h.free j le_rfl hk
    · exact (congrArg BufferT.state (hother j hjn hjk)).trans (h.free j hj hjn)
  · intro hbusy
    obtain ⟨hpos, hlen⟩ := h.copying hbusy
    refine ⟨hpos, ?_⟩
    show 0 < (s.setSlot s.index _).inb.len
    rw [hinb hpos]
    exact hlen
  · intro hex
    contradiction

theorem handOver (h : Slots n s head k) (hpc : s.producer = .relock) :
    Slots n (producerRelock n s) head (k + 1) := by
  have hk := h.room (.inr hpc)
  obtain ⟨hother, hself, hinb⟩ := h.setSlot hk { s.buffer s.index with state := .full }
  -- the ring with the slot in it, whatever the producer does next
  have hring : ∀ pc : ProducerPc, pc ≠ .reading → pc ≠ .relock →
      (pc = .exited → (s.buffer s.index).len ≤ 0) →
      Slots n { (s.setSlot s.index { s.buffer s.index with state := .full }).signalDataReady with
        index := (s.index + 1) % n, producer := pc } head (k + 1) := by
    intro pc hreading hrelock hexited
    refine ⟨h.pos, h.inBuffer_eq, ?_, hk, ?_, ?_, ?_, ?_, ?_⟩
    · show (s.index + 1) % n = _
      rw [h.index_eq, Nat.mod_add_mod, Nat.add_assoc]
    · intro j hj
      show ((s.setSlot s.index _).slotAt n head j).state = _
      by_cases hjk : j = k
      · rw [hjk, hself]
      · rw [hother j (by omega) hjk]
        exact h.full j (by omega)
    · intro j hj hjn
      show ((s.setSlot s.index _).slotAt n head j).state = _
      rw [hother j hjn (by omega)]
      exact h.free j (by omega) hjn
    · rintro (hr | hr)
      · exact absurd hr hreading
      · exact absurd hr hrelock
    · intro hbusy
      have hbusy' : s.caller.signal.busy = true := hbusy
      rw [signal_busy] at hbusy'
      obtain ⟨hpos, hlen⟩ := h.copying hbusy'
      refine ⟨by omega, ?_⟩
      show 0 < (s.setSlot s.index _).inb.len
      rw [hinb hpos]
      exact hlen
    · intro hex
      refine .inr ⟨by omega, ?_⟩
      show ((s.setSlot s.index _).slotAt n head (k + 1 - 1)).len ≤ 0
      rw [Nat.add_sub_cancel, hself]
      exact hexited hex
  -- the mutex is held from the hand-over to the next test, so both are one section
  unfold producerRelock
  simp only
  split
  · exact (hring .start (by simp) (by simp) (by simp)).loop
  · next hpos =>
    have hstop := hring .exited (by simp) (by simp) (fun _ => by omega)
    exact hstop.exit (hstop.exited rfl)

end Slots

/-! ## Wake-ups -/

/-- A thread that waits on a condition, without a wake-up pending, waits for it to hold. -/
structure NoLostWakeup (s : State) : Prop where
  caller : s.caller = .waitData false → s.inb.state = .empty
  producer : s.producer = .waitSpace false →
    (s.buffer s.index).state = .full ∧ s.closing = false

theorem signal_ne_waitData (pc : CallerPc) : pc.signal ≠ .waitData false := by
  cases pc <;> simp [CallerPc.signal]

theorem signal_ne_waitSpace (pc : ProducerPc) : pc.signal ≠ .waitSpace false := by
  cases pc <;> simp [ProducerPc.signal]

/-- What is known of every state: the ring, the wake-ups and where the owner is. -/
structure Awake (n : ℕ) (s : State) : Prop where
  slots : ∃ head k, Slots n s head k
  wakeups : NoLostWakeup s
  closing : ClosingPc s

section Awake

variable {n : ℕ} {parent : ℕ → ReadResult} {s t : State}

/-- The test of the inner `while` of `thread_read`. -/
theorem Awake.readSlot (h : Awake n s) (hcl : s.closing = false) : Awake n (readSlot s) := by
  obtain ⟨⟨head, k, hs⟩, hw, _⟩ := h
  have hopen : ∀ t : State, t.closing = s.closing → t.caller ≠ .joining → t.caller ≠ .closed →
      ClosingPc t := by
    intro t ht hjoining hclosed
    refine iff_of_false (by rw [ht, hcl]; decide) ?_
    rintro (hpc | hpc)
    · exact hjoining hpc
    · exact hclosed hpc
  -- asleep, at the end of the call, or on to the copy
  unfold ThreadReader.readSlot
  split
  · next hempty =>
    exact ⟨⟨head, k, hs.congr rfl rfl rfl id (.inl rfl) nofun⟩, ⟨fun _ => hempty, hw.producer⟩,
      hopen _ rfl nofun nofun⟩
  · next hfull =>
    split
    · exact ⟨⟨head, k, hs.congr rfl rfl rfl id (.inl rfl) nofun⟩, ⟨nofun, hw.producer⟩,
        hopen _ rfl nofun nofun⟩
    · exact ⟨⟨head, k, hs.congr rfl rfl rfl id (.inl rfl)
        fun _ => ⟨hs.pos_of_inb hfull, by omega⟩⟩, ⟨nofun, hw.producer⟩, hopen _ rfl nofun nofun⟩

theorem Awake.readCommit (h : Awake n s) {slice : ℕ} (hpc : s.caller = .copied slice) :
    Awake n (readCommit n s slice) := by
  obtain ⟨⟨head, k, hs⟩, hw, hcl⟩ := h
  have hbusy : s.caller.busy = true := by rw [hpc]; rfl
  have hopen : s.closing = false := by
    apply Bool.eq_false_of_not_eq_true
    intro htrue
    have := hcl.mp htrue
    rw [hpc] at this
    simp at this
  have hidle : ∀ t : State, t.closing = s.closing → t.caller = .loop → ClosingPc t := by
    intro t ht hloop
    refine iff_of_false (by rw [ht, hopen]; decide) ?_
    rw [hloop]
    simp
  unfold ThreadReader.readCommit
  simp only
  split
  · exact ⟨⟨head + 1, k - 1, hs.release hbusy 0 (show CallerPc.loop.busy = false from rfl)⟩,
      ⟨nofun, fun hwait => absurd hwait (signal_ne_waitSpace _)⟩, hidle _ rfl rfl⟩
  · exact ⟨⟨head, k, hs.congr rfl rfl rfl id (.inl rfl) nofun⟩, ⟨nofun, hw.producer⟩,
      hidle _ rfl rfl⟩

theorem Awake.callerStep (h : Awake n s) (hs : callerStep n s = some t) : Awake n t := by
  have hring := h.slots
  have hw := h.wakeups
  have hcl := h.closing
  obtain ⟨head, k, hslots⟩ := hring
  unfold ClosingPc at hcl
  cases callerMove hs with
  | close hpc hcalls =>
    exact ⟨⟨head, k, hslots.congr rfl rfl rfl (fun _ => rfl) (.inr rfl) nofun⟩,
      ⟨nofun, fun hwait => absurd hwait (signal_ne_waitSpace _)⟩, iff_of_true rfl (.inl rfl)⟩
  | enter hpc hcalls =>
    rw [hpc] at hcl
    refine ⟨⟨head, k, hslots.congr rfl rfl rfl id (.inl rfl) nofun⟩, ⟨nofun, hw.producer⟩, ?_⟩
    exact iff_of_false (fun htrue => by simpa using hcl.mp htrue) (by simp)
  | test hpc hlen =>
    rw [hpc] at hcl
    apply h.readSlot
    exact Bool.eq_false_of_not_eq_true fun htrue => by simpa using hcl.mp htrue
  | leave hpc hlen =>
    rw [hpc] at hcl
    refine ⟨⟨head, k, hslots.congr rfl rfl rfl id (.inl rfl) nofun⟩, ⟨nofun, hw.producer⟩, ?_⟩
    exact iff_of_false (fun htrue => by simpa using hcl.mp htrue) (by simp [State.return])
  | wake hpc =>
    rw [hpc] at hcl
    apply h.readSlot
    exact Bool.eq_false_of_not_eq_true fun htrue => by simpa using hcl.mp htrue
  | copy hpc =>
    rw [hpc] at hcl
    refine ⟨⟨head, k, hslots.congr rfl rfl rfl id (.inl rfl) fun _ => ?_⟩, ⟨nofun, hw.producer⟩,
      ?_⟩
    · exact hslots.copying (by rw [hpc]; rfl)
    · exact iff_of_false (fun htrue => by simpa using hcl.mp htrue) (by simp [readCopy])
  | commit hpc => exact h.readCommit hpc
  | joined hpc hex =>
    rw [hpc] at hcl
    exact ⟨⟨head, k, hslots.congr rfl rfl rfl id (.inl rfl) nofun⟩, ⟨nofun, hw.producer⟩,
      iff_of_true (hcl.mpr (.inl rfl)) (.inr rfl)⟩

/-- Leaving the loop wakes the caller up. -/
theorem NoLostWakeup.exit (s : State) : NoLostWakeup (producerExit s) :=
  ⟨fun hwait => absurd hwait (signal_ne_waitData _), nofun⟩

/-- The producer waits for space only if there is none. -/
theorem NoLostWakeup.loop (h : s.caller = .waitData false → s.inb.state = .empty) :
    NoLostWakeup (producerLoop s) := by
  unfold producerLoop
  split
  · next hwait => exact ⟨h, fun _ => hwait⟩
  · split
    · exact .exit s
    · exact ⟨h, nofun⟩

/-- The steps of the producer leave the owner where he is, but for a wake-up. -/
theorem ClosingPc.producer (h : ClosingPc s) (hcl : t.closing = s.closing)
    (hpc : t.caller = s.caller ∨ t.caller = s.caller.signal ∨
      t.caller = s.caller.signal.signal) : ClosingPc t := by
  unfold ClosingPc at h ⊢
  rw [hcl, h]
  rcases hpc with hpc | hpc | hpc <;> rw [hpc] <;> simp

theorem producerLoop_fields (s : State) :
    (producerLoop s).closing = s.closing ∧
      ((producerLoop s).caller = s.caller ∨ (producerLoop s).caller = s.caller.signal) := by
  unfold producerLoop
  split
  · exact ⟨rfl, .inl rfl⟩
  · split
    · exact ⟨rfl, .inr rfl⟩
    · exact ⟨rfl, .inl rfl⟩

theorem Awake.loop (h : Awake n s) : Awake n (producerLoop s) := by
  obtain ⟨head, k, hslots⟩ := h.slots
  obtain ⟨hcl, hpc⟩ := producerLoop_fields s
  refine ⟨⟨head, k, hslots.loop⟩, .loop h.wakeups.caller, h.closing.producer hcl ?_⟩
  rcases hpc with hpc | hpc
  · exact .inl hpc
  · exact .inr (.inl hpc)

/-- A step of the producer leaves the caller where it is, but for a wake-up. -/
theorem producerStep_fields (hs : producerStep n parent s = some t) :
    t.closing = s.closing ∧ (t.caller = s.caller ∨ t.caller = s.caller.signal ∨
      t.caller = s.caller.signal.signal) := by
  cases producerMove hs with
  | loop hpc => exact (producerLoop_fields s).imp_right fun h => h.imp_right .inl
  | read hpc => exact ⟨rfl, .inl rfl⟩
  | relock hpc =>
    unfold producerRelock
    simp only
    split
    · obtain ⟨hcl, hcaller⟩ := producerLoop_fields
        { (s.setSlot s.index { s.buffer s.index with state := .full }).signalDataReady with
          index := (s.index + 1) % n }
      exact ⟨hcl, .inr hcaller⟩
    · exact ⟨rfl, .inr (.inr rfl)⟩

theorem Awake.producerStep (h : Awake n s) (hs : producerStep n parent s = some t) :
    Awake n t := by
  obtain ⟨head, k, hslots⟩ := h.slots
  obtain ⟨hcl, hcaller⟩ := producerStep_fields hs
  have hclosing : ClosingPc t := h.closing.producer hcl hcaller
  cases producerMove hs with
  | loop hpc => exact ⟨⟨head, k, hslots.loop⟩, .loop h.wakeups.caller, hclosing⟩
  | read hpc =>
    refine ⟨⟨head, k, hslots.read hpc⟩, ⟨fun hwait => ?_, nofun⟩, hclosing⟩
    -- the states of the slots are as before
    have hempty := h.wakeups.caller hwait
    by_cases hi : s.inBuffer = s.index
    · show (Function.update s.buffer s.index _ s.inBuffer).state = .empty
      rw [hi, Function.update_self]
      show (s.buffer s.index).state = .empty
      rw [← hi]
      exact hempty
    · show (Function.update s.buffer s.index _ s.inBuffer).state = .empty
      rw [Function.update_of_ne hi]
      exact hempty
  | relock hpc =>
    refine ⟨⟨head, k + 1, hslots.handOver hpc⟩, ?_, hclosing⟩
    unfold producerRelock
    simp only
    split
    · exact .loop fun hwait => absurd hwait (signal_ne_waitData _)
    · exact .exit _

theorem awake_step (s : State) (l : Label) (t : State) (h : Awake n s)
    (hs : step n parent s l = some t) : Awake n t := by
  cases l with
  | caller => exact h.callerStep hs
  | producer => exact h.producerStep hs
  | wakeCaller =>
    obtain ⟨head, k, hslots⟩ := h.slots
    obtain ⟨hpc, rfl⟩ := wakeCaller_eq hs
    exact ⟨⟨head, k, hslots.congr rfl rfl rfl id (.inl rfl) nofun⟩, ⟨nofun, h.wakeups.producer⟩,
      h.closing.producer rfl (.inr (.inl (by rw [hpc]; rfl)))⟩
  | wakeProducer =>
    obtain ⟨head, k, hslots⟩ := h.slots
    obtain ⟨hpc, rfl⟩ := wakeProducer_eq hs
    exact ⟨⟨head, k, hslots.congr rfl rfl rfl id (.inr (by rw [hpc]; rfl)) hslots.copying⟩,
      ⟨h.wakeups.caller, nofun⟩, h.closing.producer rfl (.inl rfl)⟩

theorem awake_reachable (hn : 0 < n) {lens : List ℕ} (h : Reachable (system n parent lens) s) :
    Awake n s := by
  refine h.invariant ⟨⟨0, 0, ?_⟩, ⟨nofun, nofun⟩, iff_of_false nofun (by simp [system, threadOpen])⟩
    awake_step
  constructor <;> simp [system, threadOpen, State.slotAt, CallerPc.busy, hn]

/-! ## Someone can take a step -/

/-- A producer that has not ended is at work or sleeps. -/
theorem producer_step_isSome (hex : s.producer ≠ .exited) (hwait : s.producer ≠ .waitSpace false) :
    (step n parent s .producer).isSome = true := by
  show (ThreadReader.producerStep n parent s).isSome = true
  unfold ThreadReader.producerStep
  cases hpc : s.producer with
  | waitSpace signalled =>
    cases signalled with
    | false => exact absurd hpc hwait
    | true => rfl
  | exited => exact absurd hpc hex
  | start => rfl
  | reading => rfl
  | relock => rfl

/-- A caller that waits for data waits for a producer that is awake. -/
theorem Awake.producer_of_waitData (h : Awake n s) (hpc : s.caller = .waitData false) :
    s.producer ≠ .waitSpace false ∧ s.producer ≠ .exited := by
  -- the caller's slot is empty, so the ring is, and the producer's slot is the same one
  obtain ⟨head, k, hslots⟩ := h.slots
  obtain ⟨hk, hempty⟩ := hslots.index_of_empty (h.wakeups.caller hpc)
  constructor
  · intro hwait
    have hfull := (h.wakeups.producer hwait).1
    rw [hempty] at hfull
    contradiction
  · intro hex
    rcases hslots.exited hex with hcl | ⟨hpos, _⟩
    · have hjoin := h.closing.mp hcl
      rw [hpc] at hjoin
      simp at hjoin
    · omega

/-- The two threads do not sleep at the same time. -/
theorem Awake.not_both_asleep (h : Awake n s)
    (hpc : s.caller = .waitData false ∨ s.caller = .joining) : s.producer ≠ .waitSpace false := by
  rcases hpc with hpc | hpc
  · exact (h.producer_of_waitData hpc).1
  · intro hwait
    -- the owner has set `closing` and signalled before the join
    have hopen := (h.wakeups.producer hwait).2
    rw [h.closing.mpr (.inl hpc)] at hopen
    contradiction

theorem Awake.exists_step (h : Awake n s) (hclosed : s.caller ≠ .closed) :
    (step n parent s .caller).isSome = true ∨ (step n parent s .producer).isSome = true := by
  have hcaller : step n parent s .caller = ThreadReader.callerStep n s := rfl
  unfold ThreadReader.callerStep at hcaller
  rw [hcaller]
  cases hpc : s.caller with
  | idle =>
    left
    cases s.calls <;> rfl
  | loop =>
    left
    simp only
    split <;> rfl
  | waitData signalled =>
    cases signalled with
    | true => exact .inl rfl
    | false =>
      obtain ⟨hwait, hex⟩ := h.producer_of_waitData hpc
      exact .inr (producer_step_isSome hex hwait)
  | copying slice => exact .inl rfl
  | copied slice => exact .inl rfl
  | joining =>
    by_cases hex : s.producer = .exited
    · left
      simp only [hex, if_true]
      rfl
    -- the join waits for a producer that is awake
    · exact .inr (producer_step_isSome hex (h.not_both_asleep (.inr hpc)))
  | closed => exact absurd hpc hclosed

end Awake

/-! ## What is done to the parent -/

/-- The reads of the parent that have begun, and its end. Between a read and `relock` the result
of the last one is in the producer's slot; all others have returned data. -/
structure ParentUse (parent : ℕ → ReadResult) (s : State) (reads : ℕ) : Prop where
  ops : s.parentOps = List.replicate reads .read ++ if s.producer = .exited then [.destroy] else []
  live : ∀ i, i + 1 < reads → 0 < cInt (parent i).ret
  last : s.producer ≠ .exited → ∀ i, i + 1 = reads →
    if s.producer = .relock then (s.buffer s.index).len = cInt (parent i).ret
    else 0 < cInt (parent i).ret

section ParentUse

variable {n : ℕ} {parent : ℕ → ReadResult} {s t : State} {reads : ℕ}

/-- The steps of the caller do not concern the parent. -/
theorem ParentUse.congr (h : ParentUse parent s reads) (hops : t.parentOps = s.parentOps)
    (hpc : t.producer = s.producer ∨ t.producer = s.producer.signal)
    (hlen : (t.buffer t.index).len = (s.buffer s.index).len) : ParentUse parent t reads := by
  have hexited : t.producer = .exited ↔ s.producer = .exited := by
    rcases hpc with hpc | hpc
    · rw [hpc]
    · rw [hpc]
      simp
  have hrelock : t.producer = .relock ↔ s.producer = .relock := by
    rcases hpc with hpc | hpc
    · rw [hpc]
    · rw [hpc]
      simp
  refine ⟨?_, h.live, fun hex i hi => ?_⟩
  · rw [hops, h.ops]
    simp only [hexited]
  · have hlast := h.last (fun hs => hex (hexited.mpr hs)) i hi
    simp only [hrelock, hlen]
    exact hlast

/-- Giving a slot back leaves the lengths alone. -/
theorem len_readCommit (n : ℕ) (s : State) (slice : ℕ) :
    ((readCommit n s slice).buffer (readCommit n s slice).index).len = (s.buffer s.index).len := by
  unfold readCommit
  simp only
  split
  · show (Function.update s.buffer s.inBuffer _ s.index).len = _
    by_cases hi : s.index = s.inBuffer
    · rw [hi, Function.update_self]
      rfl
    · rw [Function.update_of_ne hi]
  · rfl

theorem ParentUse.callerStep (h : ParentUse parent s reads) (hs : callerStep n s = some t) :
    ParentUse parent t reads := by
  -- two sections of the caller begin with the same test
  have hslot : ∀ s : State, ParentUse parent s reads → ParentUse parent (readSlot s) reads := by
    intro s h
    unfold readSlot
    split
    · exact h.congr rfl (.inl rfl) rfl
    · split <;> exact h.congr rfl (.inl rfl) rfl
  cases callerMove hs with
  | close hpc hcalls => exact h.congr rfl (.inr rfl) rfl
  | enter hpc hcalls => exact h.congr rfl (.inl rfl) rfl
  | test hpc hlen => exact hslot s h
  | leave hpc hlen => exact h.congr rfl (.inl rfl) rfl
  | wake hpc => exact hslot s h
  | copy hpc => exact h.congr rfl (.inl rfl) rfl
  | @commit slice hpc =>
    refine h.congr ?_ ?_ (len_readCommit n s slice)
    · unfold readCommit
      simp only
      split <;> rfl
    · unfold readCommit
      simp only
      split
      · exact .inr rfl
      · exact .inl rfl
  | joined hpc hex => exact h.congr rfl (.inl rfl) rfl

/-- A producer that is not at work: every read has returned data. -/
theorem ParentUse.live_all (h : ParentUse parent s reads) (hex : s.producer ≠ .exited)
    (hrelock : s.producer ≠ .relock) : ∀ i, i < reads → 0 < cInt (parent i).ret := by
  intro i hi
  by_cases hlast : i + 1 = reads
  · have hpos := h.last hex i hlast
    rw [if_neg hrelock] at hpos
    exact hpos
  · exact h.live i (by omega)

/-- The parent is destroyed when the producer leaves its loop. -/
theorem parentUse_exit (hops : s.parentOps = List.replicate reads .read)
    (hlive : ∀ i, i + 1 < reads → 0 < cInt (parent i).ret) :
    ParentUse parent (producerExit s) reads := by
  refine ⟨?_, hlive, fun hex => absurd rfl hex⟩
  have hexited : (producerExit s).producer = .exited := rfl
  show s.parentOps ++ [.destroy] = _
  rw [hops, if_pos hexited]

theorem parentUse_loop (hops : s.parentOps = List.replicate reads .read)
    (hlive : ∀ i, i < reads → 0 < cInt (parent i).ret) :
    ParentUse parent (producerLoop s) reads := by
  unfold producerLoop
  split
  · refine ⟨?_, fun i hi => hlive i (by omega), fun _ i hi => ?_⟩
    · rw [if_neg (by simp), List.append_nil]
      exact hops
    · rw [if_neg (by simp)]
      exact hlive i (by omega)
  · split
    · exact parentUse_exit hops fun i hi => hlive i (by omega)
    · refine ⟨?_, fun i hi => hlive i (by omega), fun _ i hi => ?_⟩
      · rw [if_neg (by simp), List.append_nil]
        exact hops
      · rw [if_neg (by simp)]
        exact hlive i (by omega)

theorem ParentUse.producerStep (h : ParentUse parent s reads)
    (hs : producerStep n parent s = some t) : ∃ reads, ParentUse parent t reads := by
  have hops : s.producer ≠ .exited → s.parentOps = List.replicate reads .read := by
    intro hex
    rw [h.ops, if_neg hex, List.append_nil]
  cases producerMove hs with
  | loop hpc =>
    have hex : s.producer ≠ .exited := by
      rcases hpc with hpc | hpc <;> rw [hpc] <;> decide
    have hrelock : s.producer ≠ .relock := by
      rcases hpc with hpc | hpc <;> rw [hpc] <;> decide
    exact ⟨reads, parentUse_loop (hops hex) (h.live_all hex hrelock)⟩
  | read hpc =>
    have hex : s.producer ≠ .exited := by rw [hpc]; decide
    -- the read that begins now is the last, and those before it have returned data
    have hlive := h.live_all hex (by rw [hpc]; decide)
    refine ⟨reads + 1, ?_, fun i hi => hlive i (by omega), fun _ i hi => ?_⟩
    · show s.parentOps ++ [.read] = List.replicate (reads + 1) .read ++ _
      rw [hops hex, List.replicate_succ', if_neg (by simp [producerRead]), List.append_nil]
    · obtain rfl : i = reads := by omega
      have hrelock : (producerRead parent s).producer = .relock := rfl
      rw [if_pos hrelock]
      show (Function.update s.buffer s.index _ s.index).len = _
      rw [Function.update_self, hops hex, List.length_replicate]
  | relock hpc =>
    have hex : s.producer ≠ .exited := by rw [hpc]; decide
    refine ⟨reads, ?_⟩
    unfold producerRelock
    simp only
    split
    -- the loop goes on only behind a read that has returned data
    · next hlen =>
      refine parentUse_loop (hops hex) fun i hi => ?_
      by_cases hlast : i + 1 = reads
      · have hslot := h.last hex i hlast
        rw [if_pos hpc] at hslot
        omega
      · exact h.live i (by omega)
    · exact parentUse_exit (hops hex) h.live

theorem parentUse_step {l : Label} (h : ParentUse parent s reads)
    (hs : step n parent s l = some t) : ∃ reads, ParentUse parent t reads := by
  cases l with
  | caller => exact ⟨reads, h.callerStep hs⟩
  | producer => exact h.producerStep hs
  | wakeCaller =>
    obtain ⟨hpc, rfl⟩ := wakeCaller_eq hs
    exact ⟨reads, h.congr rfl (.inl rfl) rfl⟩
  | wakeProducer =>
    obtain ⟨hpc, rfl⟩ := wakeProducer_eq hs
    exact ⟨reads, h.congr rfl (.inr (by rw [hpc]; rfl)) rfl⟩

theorem parentUse_reachable {lens : List ℕ} (h : Reachable (system n parent lens) s) :
    ∃ reads, ParentUse parent s reads :=
  h.invariant (I := fun s => ∃ reads, ParentUse parent s reads) ⟨0, rfl, nofun, nofun⟩
    fun _ _ _ ⟨_, huse⟩ hs => parentUse_step huse hs

end ParentUse

/-! ## What is left for the producer -/

/-- The number of steps in which the producer of a closing reader ends. -/
def ProducerPc.stepsLeft : ProducerPc → ℕ
  | .start => 1
  | .waitSpace _ => 1
  | .reading => 2
  | .relock => 1
  | .exited => 0

section Closing

variable {n : ℕ} {parent : ℕ → ReadResult} {s t : State}

theorem producerLoop_of_closing (hcl : s.closing = true) : producerLoop s = producerExit s := by
  unfold producerLoop
  rw [if_neg, if_pos hcl]
  rintro ⟨_, hopen⟩
  rw [hcl] at hopen
  contradiction

/-- A step of a closing reader. -/
theorem closing_step {l : Label} (h : Awake n s) (hcl : s.closing = true)
    (hs : step n parent s l = some t) :
    t.closing = true ∧
      (if l = .producer then 1 else 0) + t.producer.stepsLeft ≤ s.producer.stepsLeft := by
  have hcaller := h.closing.mp hcl
  cases l with
  | caller =>
    cases callerMove hs with
    -- a caller that has set `closing` can only join
    | joined hpc hex => exact ⟨hcl, by simp⟩
    | _ hpc => rcases hcaller with h' | h' <;> rw [hpc] at h' <;> contradiction
  | producer =>
    have hcl' : t.closing = true := (producerStep_fields hs).1.trans hcl
    refine ⟨hcl', ?_⟩
    rw [if_pos rfl]
    cases producerMove hs with
    | loop hpc =>
      rw [producerLoop_of_closing hcl]
      rcases hpc with hpc | hpc <;> rw [hpc] <;> exact le_rfl
    | read hpc =>
      rw [hpc]
      exact le_rfl
    | relock hpc =>
      rw [hpc]
      unfold producerRelock
      simp only
      rw [producerLoop_of_closing]
      · split <;> exact le_rfl
      · exact hcl
  | wakeCaller =>
    obtain ⟨hpc, rfl⟩ := wakeCaller_eq hs
    rw [hpc] at hcaller
    simp at hcaller
  | wakeProducer =>
    obtain ⟨hpc, rfl⟩ := wakeProducer_eq hs
    -- a producer asleep would be that of an open reader
    have hopen := (h.wakeups.producer hpc).2
    rw [hcl] at hopen
    contradiction

/-- A closing reader's producer ends within two steps. -/
theorem closing_run (h : Awake n s) (hcl : s.closing = true) {lens : List ℕ} {ls : List Label}
    (hrun : exec (system n parent lens) s ls = some t) :
    countSteps (system n parent lens) (fun _ l => l = .producer) s ls ≤ 2 := by
  have hcount := countSteps_le (S := system n parent lens) (p := fun _ l => l = .producer)
    (I := fun s k => (Awake n s ∧ s.closing = true) ∧ k = s.producer.stepsLeft)
    (fun s l t k h hs => ?_) ⟨⟨h, hcl⟩, rfl⟩ hrun
  · have hle : s.producer.stepsLeft ≤ 2 := by
      cases s.producer <;> simp [ProducerPc.stepsLeft]
    omega
  · obtain ⟨⟨hawake, hclosing⟩, rfl⟩ := h
    obtain ⟨hcl', hle⟩ := closing_step hawake hclosing hs
    refine ⟨_, ⟨⟨awake_step s l t hawake hs, hcl'⟩, rfl⟩, ?_⟩
    simpa using hle

/-- `pthread_join` returns when the producer has ended. -/
theorem exited_of_callerStep (hs : callerStep n s = some t) (ht : t.caller = .closed) :
    t.producer = .exited := by
  have hslot : ∀ s : State, (readSlot s).caller ≠ .closed := by
    intro s
    unfold readSlot
    split
    · nofun
    · split <;> nofun
  cases callerMove hs with
  | test hpc hlen => exact absurd ht (hslot s)
  | wake hpc => exact absurd ht (hslot s)
  | commit hpc =>
    unfold readCommit at ht
    simp only at ht
    split at ht <;> contradiction
  | joined hpc hex => exact hex
  | close | enter | leave | copy => contradiction

/-- A closed reader takes no step. -/
theorem step_of_closed (hpc : s.caller = .closed) (hex : s.producer = .exited) (l : Label) :
    step n parent s l = none := by
  cases l with
  | caller =>
    show callerStep n s = none
    unfold callerStep
    rw [hpc]
  | producer =>
    show producerStep n parent s = none
    unfold producerStep
    rw [hex]
  | wakeCaller =>
    unfold step
    rw [hpc]
  | wakeProducer =>
    unfold step
    rw [hex]

/-- A closed reader has no producer left. -/
theorem exited_step {l : Label} (hs : s.caller = .closed → s.producer = .exited)
    (hstep : step n parent s l = some t) (ht : t.caller = .closed) : t.producer = .exited := by
  have hopen : s.caller ≠ .closed := by
    intro hpc
    rw [step_of_closed hpc (hs hpc)] at hstep
    contradiction
  -- only `pthread_join` leads to a closed reader
  cases l with
  | caller => exact exited_of_callerStep hstep ht
  | producer =>
    obtain ⟨_, hcaller⟩ := producerStep_fields hstep
    apply absurd _ hopen
    rcases hcaller with hpc | hpc | hpc <;> rw [hpc] at ht <;> simpa using ht
  | wakeCaller =>
    obtain ⟨_, rfl⟩ := wakeCaller_eq hstep
    contradiction
  | wakeProducer =>
    obtain ⟨_, rfl⟩ := wakeProducer_eq hstep
    exact absurd ht hopen

theorem exited_reachable {lens : List ℕ} (h : Reachable (system n parent lens) s) :
    s.caller = .closed → s.producer = .exited :=
  h.invariant (I := fun s => s.caller = .closed → s.producer = .exited)
    (by simp [system, threadOpen]) fun _ _ _ hs hstep => exited_step hs hstep

end Closing

/-! ## Runs -/

/-- In every state of every run, for every parent and all lengths of the calls: until the reader
is closed one of the threads can take a step, without a spurious wake-up; the caller does not
sleep on `data_ready`, or in `pthread_join`, while the producer sleeps on `space_avail`; a
thread that sleeps without a wake-up pending has the condition it waits for false. Once the
reader is closing the producer does not sleep and ends within two steps. The parent is read
until it returns a value that is not positive, and destroyed once, at the end of the producer,
which has come when `thread_close` returns. -/
theorem threadReader_progresses (n : ℕ) (hn : 0 < n) (parent : ℕ → ReadResult) (lens : List ℕ)
    (s : State) (h : Reachable (system n parent lens) s) :
    (s.caller ≠ .closed →
      (step n parent s .caller).isSome = true ∨ (step n parent s .producer).isSome = true) ∧
    (s.caller = .waitData false ∨ s.caller = .joining → s.producer ≠ .waitSpace false) ∧
    (s.caller = .waitData false → s.inb.state = .empty) ∧
    (s.producer = .waitSpace false → (s.buffer s.index).state = .full ∧ s.closing = false) ∧
    (s.closing = true → s.producer ≠ .exited → (step n parent s .producer).isSome = true) ∧
    (s.closing = true → ∀ ls t, exec (system n parent lens) s ls = some t →
      countSteps (system n parent lens) (fun _ l => l = .producer) s ls ≤ 2) ∧
    (s.caller = .closed → s.producer = .exited) ∧
    ∃ reads, s.parentOps =
        List.replicate reads .read ++ (if s.producer = .exited then [.destroy] else []) ∧
      ∀ i, i + 1 < reads → -2 ^ 31 ≤ (parent i).ret → 0 < (parent i).ret := by
  have hawake := awake_reachable hn h
  obtain ⟨reads, huse⟩ := parentUse_reachable h
  refine ⟨hawake.exists_step, hawake.not_both_asleep, hawake.wakeups.caller,
    hawake.wakeups.producer, ?_, fun hcl ls t hrun => closing_run hawake hcl hrun,
    exited_reachable h, reads, huse.ops, ?_⟩
  · intro hcl hex
    apply producer_step_isSome hex
    intro hwait
    have hopen := (hawake.wakeups.producer hwait).2
    rw [hcl] at hopen
    contradiction
  · intro i hi hge
    have hlive := huse.live i hi
    by_contra hpos
    rw [cInt_of_range hge (by omega)] at hlive
    contradiction

/-- A reader that is closed while its producer is in the parent's first read. -/
theorem threadReader_progresses_close : ∃ s,
    Reachable (system 1 (fun _ => ⟨0, []⟩) []) s ∧ s.closing = true ∧ s.producer = .reading ∧
      (step 1 (fun _ => ⟨0, []⟩) s .producer).isSome = true := by
  obtain ⟨s, hs, hp⟩ := exists_reachable_of_exec (system 1 (fun _ => ⟨0, []⟩) [])
    [.producer, .caller] (fun s => s.closing ∧ s.producer = .reading) (by decide)
  obtain ⟨hcl, hpc⟩ : s.closing = true ∧ s.producer = .reading := by simpa using hp
  obtain ⟨_, _, _, _, hmoves, _⟩ := threadReader_progresses 1 (by decide) _ [] s hs
  exact ⟨s, hs, hcl, hpc, hmoves hcl (by rw [hpc]; decide)⟩

end Wandio.ThreadReader
