import Wandio.ThreadWriter.DeliveryTheorems

/-!
# Progress of the threaded writer

No wake-up is lost: a thread that sleeps without one pending has its reason to sleep. With
the ring invariant this leaves no state in which both threads sleep. Once the writer is
closing the consumer never sleeps again, and what is left for it to do is counted by
`Left`.
-/

namespace Wandio.ThreadWriter

open Transition RingBuffer

/-- A thread that waits on a condition, without a wake-up pending, waits for it to hold. -/
structure NoLostWakeup (s : State) : Prop where
  caller : s.caller = .waitSpace false → s.out.state = .full
  consumer : s.consumer = .waitData false →
    (s.buffer s.index).state = .empty ∧ s.closing = false

section NoLostWakeup

variable {s t : State}

theorem signal_ne_waitSpace (pc : CallerPc) : pc.signal ≠ .waitSpace false := by
  cases pc <;> simp [CallerPc.signal]

theorem signal_ne_waitData (pc : ConsumerPc) : pc.signal ≠ .waitData false := by
  cases pc <;> simp [ConsumerPc.signal]

/-- An assignment to the output buffer that keeps its state keeps that of every slot. -/
theorem state_setOut {b : BufferT} (hstate : b.state = s.out.state) (i : ℕ) :
    ((s.setOut b).buffer i).state = (s.buffer i).state := by
  by_cases hi : i = s.outBuffer
  · subst hi
    rw [show (s.setOut b).buffer s.outBuffer = b from out_setOut s b, hstate]
    rfl
  · rw [show (s.setOut b).buffer i = s.buffer i from Function.update_of_ne hi _ _]

/-- The caller waits for space only if there is none. -/
theorem NoLostWakeup.wwriteLoop (h : s.consumer = .waitData false →
    (s.buffer s.index).state = .empty ∧ s.closing = false) : NoLostWakeup (wwriteLoop s) := by
  unfold ThreadWriter.wwriteLoop wwriteSpace
  split
  · split
    · next hfull => exact ⟨fun _ => hfull, h⟩
    · exact ⟨nofun, h⟩
  · exact ⟨nofun, h⟩

theorem NoLostWakeup.callerStep (h : NoLostWakeup s) (hs : callerStep s = some t) :
    NoLostWakeup t := by
  cases callerMove hs with
  | close hpc hcalls => exact ⟨nofun, fun hwait => absurd hwait (signal_ne_waitData _)⟩
  | wwrite hpc hcalls => exact .wwriteLoop h.consumer
  | wflush hpc hcalls =>
    unfold threadWflush
    split
    · exact ⟨nofun, fun hwait => absurd hwait (signal_ne_waitData _)⟩
    · exact ⟨nofun, h.consumer⟩
  | wake hpc =>
    unfold wwriteSpace
    split
    · next hfull => exact ⟨fun _ => hfull, h.consumer⟩
    · exact ⟨nofun, h.consumer⟩
  | @copy slice hpc =>
    refine ⟨nofun, fun hwait => ?_⟩
    obtain ⟨hempty, hcl⟩ := h.consumer hwait
    have hsame := state_setOut (s := s)
      (b := { s.out with buffer := memcpyAt s.out.buffer s.offset (s.rest.take slice) }) rfl s.index
    exact ⟨hsame.trans hempty, hcl⟩
  | @commit slice hpc =>
    apply NoLostWakeup.wwriteLoop
    intro hwait
    -- a filled slot is handed over with a wake-up, any other change leaves the slot's state
    unfold wwriteAdvance at hwait ⊢
    split at hwait
    · exact absurd hwait (signal_ne_waitData _)
    · next hroom =>
      rw [if_neg hroom]
      obtain ⟨hempty, hcl⟩ := h.consumer hwait
      have hsame := state_setOut (s := s) (b := { s.out with len := s.out.len + slice }) rfl s.index
      exact ⟨hsame.trans hempty, hcl⟩
  | joined hpc hex => exact ⟨nofun, h.consumer⟩

/-- The consumer waits for data only if there is none. -/
theorem NoLostWakeup.consumerLoop (h : s.caller = .waitSpace false → s.out.state = .full) :
    NoLostWakeup (consumerLoop s) := by
  unfold ThreadWriter.consumerLoop
  split
  · next hwait => exact ⟨h, fun _ => hwait⟩
  · exact ⟨h, nofun⟩

theorem NoLostWakeup.consumerStep (h : NoLostWakeup s) (hs : consumerStep s = some t) :
    NoLostWakeup t := by
  cases consumerMove hs with
  | loop hpc => exact .consumerLoop h.caller
  | write hpc => exact ⟨h.caller, nofun⟩
  | flush hpc => exact ⟨h.caller, nofun⟩
  | relock hpc =>
    -- the slot is given back with a wake-up
    unfold consumerRelock
    split
    · exact .consumerLoop fun hwait => absurd hwait (signal_ne_waitSpace _)
    · exact ⟨fun hwait => absurd hwait (signal_ne_waitSpace _), nofun⟩

theorem noLostWakeup_step (s : State) (l : Label) (t : State) (h : NoLostWakeup s)
    (hs : step s l = some t) : NoLostWakeup t := by
  cases l with
  | caller => exact h.callerStep hs
  | consumer => exact h.consumerStep hs
  | wakeCaller =>
    obtain ⟨_, rfl⟩ := wakeCaller_eq hs
    refine ⟨fun hwait => ?_, h.consumer⟩
    exact absurd hwait (by simp)
  | wakeConsumer =>
    obtain ⟨_, rfl⟩ := wakeConsumer_eq hs
    refine ⟨h.caller, fun hwait => ?_⟩
    exact absurd hwait (by simp)

theorem noLostWakeup_reachable {all : List Call} (h : Reachable (system all) s) :
    NoLostWakeup s := by
  refine h.invariant ?_ noLostWakeup_step
  exact ⟨nofun, nofun⟩

end NoLostWakeup

/-! ## Someone can take a step -/

section Progress

variable {all : List Call} {s : State}

/-- A consumer that has not ended is at work or sleeps. -/
theorem consumer_step_isSome (hex : s.consumer ≠ .exited) (hwait : s.consumer ≠ .waitData false) :
    (step s .consumer).isSome = true := by
  show (consumerStep s).isSome = true
  unfold consumerStep
  cases hpc : s.consumer with
  | waitData signalled =>
    cases signalled with
    | false => exact absurd hpc hwait
    | true => rfl
  | exited => exact absurd hpc hex
  | start => rfl
  | writing => rfl
  | flushing => rfl
  | relock => rfl

/-- With the output buffer full the oldest slot is, too. -/
theorem Running.full_of_out {head k fill : ℕ} {stored : List Byte}
    (h : Running s head k fill stored) (hout : s.out.state = .full) :
    (s.buffer s.index).state = .full := by
  -- the slot behind the `k` full ones is open unless these are all
  have hk : ¬ k < buffers := by
    intro hk
    rw [(h.openSlot hk).1] at hout
    contradiction
  rw [h.slot_eq]
  have := buffers_pos
  exact (h.full 0 (by omega)).1

/-- A caller that waits for space waits for a consumer that is awake. -/
theorem consumer_awake_of_full (h : Inv all s) (hw : NoLostWakeup s)
    (hpc : s.caller = .waitSpace false) :
    s.consumer ≠ .waitData false ∧ s.consumer ≠ .exited := by
  obtain ⟨fill, stored, ⟨done, _, _, hprog⟩, hring⟩ := h
  rw [hpc] at hprog
  obtain ⟨head, k, hr⟩ := running_of_open hprog.1 hring
  refine ⟨fun hwait => ?_, hr.alive⟩
  have hempty := (hw.consumer hwait).1
  rw [hr.full_of_out (hw.caller hpc)] at hempty
  contradiction

/-- A writer that is being closed has said so to the consumer. -/
theorem closing_of_joining (h : Inv all s) (hpc : s.caller = .joining) : s.closing = true := by
  obtain ⟨_, _, ⟨_, _, _, hprog⟩, _⟩ := h
  rw [hpc] at hprog
  exact hprog.1

/-- A closing writer is being closed or has been. -/
theorem joining_of_closing (h : Inv all s) (hcl : s.closing = true) :
    s.caller = .joining ∨ s.caller = .closed := by
  obtain ⟨_, _, ⟨_, _, _, hprog⟩, _⟩ := h
  cases hpc : s.caller with
  | joining => exact .inl rfl
  | closed => exact .inr rfl
  | _ =>
    rw [hpc] at hprog
    have hopen := hprog.1
    rw [hcl] at hopen
    contradiction

/-- The two threads do not sleep at the same time. -/
theorem not_both_asleep (h : Inv all s) (hw : NoLostWakeup s)
    (hpc : s.caller = .waitSpace false ∨ s.caller = .joining) : s.consumer ≠ .waitData false := by
  rcases hpc with hpc | hpc
  · exact (consumer_awake_of_full h hw hpc).1
  · intro hwait
    -- the owner has set `closing` and signalled before the join
    have hopen := (hw.consumer hwait).2
    rw [closing_of_joining h hpc] at hopen
    contradiction

/-- Until the writer is closed one of the threads can take a step. -/
theorem exists_step (h : Inv all s) (hw : NoLostWakeup s) (hclosed : s.caller ≠ .closed) :
    (step s .caller).isSome = true ∨ (step s .consumer).isSome = true := by
  have hcaller : step s .caller = callerStep s := rfl
  unfold callerStep at hcaller
  rw [hcaller]
  cases hpc : s.caller with
  | idle =>
    left
    cases s.calls with
    | nil => rfl
    | cons c tl => cases c <;> rfl
  | waitSpace signalled =>
    cases signalled with
    | true => exact .inl rfl
    | false =>
      obtain ⟨hwait, hex⟩ := consumer_awake_of_full h hw hpc
      exact .inr (consumer_step_isSome hex hwait)
  | copying slice => exact .inl rfl
  | copied slice => exact .inl rfl
  | joining =>
    by_cases hex : s.consumer = .exited
    · left
      simp only [hex, if_true]
      rfl
    · exact .inr (consumer_step_isSome hex (not_both_asleep h hw (.inr hpc)))
  | closed => exact absurd hpc hclosed

end Progress

/-! ## What is left for the consumer -/

/-- A closing writer and the number of iterations that are left for its consumer: one for each
slot handed over, one for the output buffer if there is something in it, and one that finds a
slot without data. -/
inductive Left (s : State) : ℕ → Prop where
  | running {head k fill : ℕ} {stored : List Byte} (h : Running s head k fill stored) :
    Left s (k + (if 0 < s.offset then 1 else 0) + 1)
  | drained {stored : List Byte} (h : Drained s stored) : Left s 1
  | ended {stored : List Byte} (h : Ended s stored) : Left s 0

/-- The number of steps in which a consumer at `pc` ends, with `n` iterations left. -/
def stepsLeft (n : ℕ) : ConsumerPc → ℕ
  | .start => 3 * n + 1
  | .waitData _ => 3 * n + 1
  | .writing => 3 * n
  | .flushing => 3 * n - 1
  | .relock => 3 * n - 2
  | .exited => 0

/-- An iteration of `thread_consumer` ends. -/
def iterationEnds (s : State) (l : Label) : Bool := l = .consumer ∧ s.consumer = .relock

section Left

variable {all : List Call} {s t : State} {n : ℕ}

/-- No more than the five slots and one iteration more. -/
theorem Left.le (h : Left s n) : n ≤ buffers + 1 := by
  cases h with
  | running h =>
    -- with all slots full there is nothing in the output buffer
    by_cases hk : s.offset = 0
    · rw [if_neg (by omega)]
      have := h.k_le
      omega
    · have hlt := h.k_le
      have hne : _ ≠ buffers := fun hkn => hk (h.fill_full hkn).1
      split <;> omega
  | drained h => decide
  | ended h => decide

theorem stepsLeft_le (n : ℕ) (pc : ConsumerPc) : stepsLeft n pc ≤ 3 * n + 1 := by
  cases pc <;> simp only [stepsLeft] <;> omega

/-- Inversion for a consumer that is at work or about to. -/
theorem Left.alive (h : Left s n) (hex : s.consumer ≠ .exited) : 0 < n := by
  cases h with
  | running h => omega
  | drained h => omega
  | ended h => exact absurd h.exited hex

/-- A closing writer's consumer does not go to sleep. -/
theorem consumerLoop_of_closing (hcl : s.closing = true) :
    consumerLoop s = { s with consumer := .writing } := by
  unfold consumerLoop
  rw [if_neg]
  rintro ⟨_, hopen⟩
  rw [hcl] at hopen
  contradiction

theorem left_loop (h : Left s n) (hcl : s.closing = true) (hbusy : s.consumer.busy = false)
    (hex : s.consumer ≠ .exited) : Left (consumerLoop s) n := by
  have hoffset : (consumerLoop s).offset = s.offset := by rw [consumerLoop_of_closing hcl]
  cases h with
  | running h =>
    rw [← hoffset]
    apply Left.running (h.loop _)
    -- a consumer that is about to wait has written nothing of its slot
    by_contra hw
    rw [busy_of_written hw] at hbusy
    contradiction
  | drained h =>
    rw [h.busy] at hbusy
    contradiction
  | ended h => exact absurd h.exited hex

theorem left_write (h : Left s n) (hpc : s.consumer = .writing) : Left (consumerWrite s) n := by
  cases h with
  | running h => exact .running (h.write hpc)
  | drained h => exact .drained (h.write)
  | ended h => exact absurd h.exited (by rw [hpc]; decide)

theorem left_flush (h : Left s n) (hpc : s.consumer = .flushing) : Left (consumerFlush s) n := by
  cases h with
  | running h => exact .running (h.flush hpc)
  | drained h => exact .drained (h.flush)
  | ended h => exact absurd h.exited (by rw [hpc]; decide)

theorem left_relock (h : Left s (n + 1)) (hcl : s.closing = true) (hpc : s.consumer = .relock) :
    Left (consumerRelock s) n ∧ stepsLeft n (consumerRelock s).consumer + 1 = 3 * (n + 1) - 2 := by
  have hmore : 0 < (s.buffer s.index).len →
      (consumerRelock s).consumer = .writing ∧ (consumerRelock s).offset = s.offset := by
    intro hlen
    rw [consumerRelock, if_pos hlen, consumerLoop_of_closing (s := consumerRelease s) hcl]
    exact ⟨rfl, rfl⟩
  have hlast : (s.buffer s.index).len = 0 → (consumerRelock s).consumer = .exited := by
    intro hlen
    rw [consumerRelock, if_neg (by omega)]
  obtain ⟨m, hm⟩ : ∃ m, m = n + 1 := ⟨_, rfl⟩
  rw [← hm] at h
  cases h with
  | @running head k fill stored h =>
    cases k with
    | succ k =>
      obtain ⟨hlen, hnext⟩ := h.relock hpc
      obtain ⟨hwriting, hoffset⟩ := hmore hlen
      have hn : n = k + (if 0 < (consumerRelock s).offset then 1 else 0) + 1 := by
        rw [hoffset]
        omega
      refine ⟨hn ▸ .running hnext, ?_⟩
      rw [hwriting]
      simp only [stepsLeft]
      omega
    -- no slot is handed over: the output buffer is written, or the thread ends
    | zero =>
      obtain ⟨_, hlen, hnext⟩ := h.relock_last hpc
      split at hnext
      · next hpos =>
        rw [if_pos hpos] at hm
        have hn : n = 1 := by omega
        refine ⟨hn ▸ .drained hnext, ?_⟩
        rw [(hmore (by omega)).1, hn]
        rfl
      · next hzero =>
        rw [if_neg hzero] at hm
        have hn : n = 0 := by omega
        refine ⟨hn ▸ .ended hnext, ?_⟩
        rw [hlast (by omega), hn]
        rfl
  | drained h =>
    have hn : n = 0 := by omega
    refine ⟨hn ▸ .ended h.relock, ?_⟩
    rw [hlast h.slot_len, hn]
    rfl
  | ended h => omega

/-- A step of the consumer of a closing writer. -/
theorem left_consumerStep (h : Left s n) (hcl : s.closing = true)
    (hs : consumerStep s = some t) :
    ∃ m, Left t m ∧ (if s.consumer = .relock then 1 else 0) + m = n ∧
      stepsLeft m t.consumer + 1 = stepsLeft n s.consumer := by
  cases consumerMove hs with
  | loop hpc =>
    have hidle : s.consumer.busy = false := by
      rcases hpc with hpc | hpc <;> rw [hpc] <;> rfl
    have hex : s.consumer ≠ .exited := by
      rcases hpc with hpc | hpc <;> rw [hpc] <;> decide
    refine ⟨n, left_loop h hcl hidle hex, ?_, ?_⟩
    · rcases hpc with hpc | hpc <;> simp [hpc]
    · rw [consumerLoop_of_closing hcl]
      rcases hpc with hpc | hpc <;> rw [hpc] <;> rfl
  | write hpc =>
    have hpos := h.alive (by rw [hpc]; decide)
    refine ⟨n, left_write h hpc, by simp [hpc], ?_⟩
    rw [hpc]
    show 3 * n - 1 + 1 = 3 * n
    omega
  | flush hpc =>
    have hpos := h.alive (by rw [hpc]; decide)
    refine ⟨n, left_flush h hpc, by simp [hpc], ?_⟩
    rw [hpc]
    show 3 * n - 2 + 1 = 3 * n - 1
    omega
  | relock hpc =>
    obtain ⟨m, rfl⟩ : ∃ m, n = m + 1 := ⟨n - 1, by have := h.alive (by rw [hpc]; decide); omega⟩
    obtain ⟨hleft, hsteps⟩ := left_relock h hcl hpc
    rw [if_pos hpc]
    exact ⟨m, hleft, by omega, by rw [hpc]; exact hsteps⟩

/-- A closing writer: the invariants of every run, and what is left. -/
structure Closing (all : List Call) (s : State) (n : ℕ) : Prop where
  inv : Inv all s
  awake : NoLostWakeup s
  closing : s.closing = true
  left : Left s n

theorem closing_step {l : Label} (h : Closing all s n) (hs : step s l = some t) :
    ∃ m, Closing all t m ∧ (if iterationEnds s l then 1 else 0) + m = n ∧
      stepsLeft m t.consumer + (if l = .consumer then 1 else 0) = stepsLeft n s.consumer := by
  have hinv := inv_step s l t h.inv hs
  have hawake := noLostWakeup_step s l t h.awake hs
  cases l with
  | consumer =>
    obtain ⟨m, hleft, hended, hsteps⟩ := left_consumerStep h.left h.closing hs
    have hcl : t.closing = true := by
      have hcl := h.closing
      cases consumerMove hs with
      | loop hpc =>
        rw [consumerLoop_of_closing hcl]
        exact hcl
      | write hpc => exact hcl
      | flush hpc => exact hcl
      | relock hpc =>
        unfold consumerRelock
        split
        · rw [consumerLoop_of_closing (s := consumerRelease s) hcl]
          exact hcl
        · exact hcl
    refine ⟨m, ⟨hinv, hawake, hcl, hleft⟩, ?_, hsteps⟩
    simpa [iterationEnds] using hended
  | caller =>
    have hcaller := joining_of_closing h.inv h.closing
    cases callerMove hs with
    | joined hpc hex =>
      refine ⟨n, ⟨hinv, hawake, h.closing, ?_⟩, by simp [iterationEnds], by simp⟩
      cases h.left with
      | running hr => exact absurd hex hr.alive
      | drained hd =>
        have := hd.busy
        rw [hex] at this
        contradiction
      | ended he => exact .ended ⟨he.exited, he.closing, he.child⟩
    -- all other sections begin with an open writer
    | _ hpc => rcases hcaller with h' | h' <;> rw [hpc] at h' <;> contradiction
  | wakeCaller =>
    obtain ⟨hpc, rfl⟩ := wakeCaller_eq hs
    have hcaller := joining_of_closing h.inv h.closing
    rw [hpc] at hcaller
    simp at hcaller
  | wakeConsumer =>
    obtain ⟨hpc, rfl⟩ := wakeConsumer_eq hs
    have hopen := (h.awake.consumer hpc).2
    rw [h.closing] at hopen
    contradiction

/-- The state in which a writer is found to be closing. -/
theorem closing_reachable (h : Reachable (system all) s) (hcl : s.closing = true) :
    ∃ n, Closing all s n := by
  have hinv := inv_reachable h
  have hawake := noLostWakeup_reachable h
  obtain ⟨fill, stored, _, hring⟩ := hinv
  rcases hring with ⟨head, k, hr⟩ | hd | he
  · exact ⟨_, inv_reachable h, hawake, hcl, .running hr⟩
  · exact ⟨_, inv_reachable h, hawake, hcl, .drained hd⟩
  · exact ⟨_, inv_reachable h, hawake, hcl, .ended he⟩

/-- Once a writer is closing, its consumer ends within the iterations of the five slots and one
more, and within the steps of these. -/
theorem closing_run (h : Closing all s n) {ls : List Label}
    (hrun : exec (system all) s ls = some t) :
    countSteps (system all) iterationEnds s ls ≤ buffers + 1 ∧
      countSteps (system all) (fun _ l => l = .consumer) s ls ≤ 3 * (buffers + 1) + 1 := by
  have hle := h.left.le
  constructor
  · have hcount := countSteps_le (S := system all) (p := iterationEnds) (I := Closing all)
      (fun s l t n h hs => ?_) h hrun
    · exact hcount.trans hle
    · obtain ⟨m, hm, hended, _⟩ := closing_step h hs
      exact ⟨m, hm, hended.le⟩
  · have hcount := countSteps_le (S := system all) (p := fun _ l => l = .consumer)
      (I := fun s k => ∃ n, Closing all s n ∧ k = stepsLeft n s.consumer)
      (fun s l t k h hs => ?_) ⟨n, h, rfl⟩ hrun
    · have := stepsLeft_le n s.consumer
      omega
    · obtain ⟨n, hn, rfl⟩ := h
      obtain ⟨m, hm, _, hsteps⟩ := closing_step hn hs
      refine ⟨_, ⟨m, hm, rfl⟩, ?_⟩
      by_cases hl : l = .consumer
      · rw [if_pos hl] at hsteps
        simp only [hl, decide_true, if_true]
        omega
      · rw [if_neg hl] at hsteps
        simp only [hl, decide_false, Bool.false_eq_true, if_false]
        omega

end Left

/-! ## Runs -/

/-- In every state of every run: until the writer is closed one of the threads can take a step,
without a spurious wake-up; the caller does not sleep on `space_avail`, or in `pthread_join`,
while the consumer sleeps on `data_ready`; a thread that sleeps without a wake-up pending has
the condition it waits for false. Once the writer is closing the consumer does not sleep, and
ends after the iterations of the five slots and one more, at the latest. -/
theorem threadWriter_progresses (all : List Call) (s : State) (h : Reachable (system all) s) :
    (s.caller ≠ .closed → (step s .caller).isSome = true ∨ (step s .consumer).isSome = true) ∧
    (s.caller = .waitSpace false ∨ s.caller = .joining → s.consumer ≠ .waitData false) ∧
    (s.caller = .waitSpace false → s.out.state = .full) ∧
    (s.consumer = .waitData false → (s.buffer s.index).state = .empty ∧ s.closing = false) ∧
    (s.closing = true → s.consumer ≠ .exited → (step s .consumer).isSome = true) ∧
    (s.closing = true → ∀ ls t, exec (system all) s ls = some t →
      countSteps (system all) iterationEnds s ls ≤ buffers + 1 ∧
        countSteps (system all) (fun _ l => l = .consumer) s ls ≤ 3 * (buffers + 1) + 1) := by
  have hinv := inv_reachable h
  have hawake := noLostWakeup_reachable h
  refine ⟨exists_step hinv hawake, not_both_asleep hinv hawake, hawake.caller, hawake.consumer,
    ?_, ?_⟩
  · intro hcl hex
    apply consumer_step_isSome hex
    intro hwait
    have hopen := (hawake.consumer hwait).2
    rw [hcl] at hopen
    contradiction
  · intro hcl ls t hrun
    obtain ⟨n, hn⟩ := closing_reachable h hcl
    exact closing_run hn hrun

/-- A writer that is closing, with one slot handed over and one byte in the next. -/
theorem threadWriter_progresses_flushed : ∃ s, Reachable (system flushedCalls) s ∧
    s.closing = true ∧ s.consumer = .start ∧ (step s .consumer).isSome = true := by
  obtain ⟨s, hs, hp⟩ := exists_reachable_of_exec (system flushedCalls)
    (List.replicate 8 .caller) (fun s => s.closing ∧ s.consumer = .start) (by decide)
  obtain ⟨hcl, hpc⟩ : s.closing = true ∧ s.consumer = .start := by simpa using hp
  obtain ⟨_, _, _, _, hmoves, _⟩ := threadWriter_progresses flushedCalls s hs
  exact ⟨s, hs, hcl, hpc, hmoves hcl (by rw [hpc]; decide)⟩

end Wandio.ThreadWriter
