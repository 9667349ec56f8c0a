import Wandio.ThreadReader.DeliveryTheorems
import Wandio.ThreadReader.ProgressTheorems
import Mathlib.Algebra.BigOperators.Group.List.Basic

/-!
# Termination of the threaded reader

Over a parent whose data end, no order of the steps goes on for ever: every step of a thread uses
up some work that is known when the reader is opened, and only a spurious wake-up gives a thread a
step more. Since one of the threads can always take a step, all calls return and the reader closes.
-/

namespace Wandio.ThreadReader

open Loop Transition

/-- What a call of `len` bytes may take, for its slices and for its beginning and end. -/
def callWork (len : ℕ) : ℕ := 4 * len + 2

/-- What the caller has still to do, with `calls` to make and `len` bytes to go in the running one.
A wake-up that it gives to the producer is a step too. -/
def CallerPc.work (calls : List ℕ) (len : ℕ) : CallerPc → ℕ
  | .idle => (calls.map callWork).sum + 3
  | .loop => (calls.tail.map callWork).sum + 3 + 4 * len + 1
  | .waitData signalled => (calls.tail.map callWork).sum + 3 + 4 * len + if signalled then 1 else 0
  | .copying _ => (calls.tail.map callWork).sum + 3 + 4 * len
  | .copied _ => (calls.tail.map callWork).sum + 3 + 4 * len + 3
  | .joining => 1
  | .closed => 0

/-- What the producer has still to do before its next read, or its end. -/
def ProducerPc.work : ProducerPc → ℕ
  | .start => 1
  | .waitSpace signalled => if signalled then 1 else 0
  | .reading => 0
  | .relock => 2
  | .exited => 0

/-- The reads of the parent so far. -/
def State.reads (s : State) : ℕ := s.parentOps.count .read

/-- What the two threads have still to do over a parent that ends with its read `K`. -/
def State.work (K : ℕ) (s : State) : ℕ :=
  s.caller.work s.calls s.len + (3 * (K + 1 - s.reads) + s.producer.work)

/-- A step that is no spurious wake-up. -/
def ofThread (_ : State) (l : Label) : Bool := l = .caller ∨ l = .producer

def spurious (_ : State) (l : Label) : Bool := l = .wakeCaller ∨ l = .wakeProducer

section Steps

variable {n K : ℕ} {parent : ℕ → ReadResult} {lens : List ℕ} {s t : State}

/-! ## Steps of the caller -/

theorem ProducerPc.work_signal (pc : ProducerPc) : pc.signal.work ≤ pc.work + 1 := by
  cases pc with
  | waitSpace signalled => cases signalled <;> decide
  | start | reading | relock | exited => exact Nat.le_succ _

theorem CallerPc.work_signal (calls : List ℕ) (len : ℕ) (pc : CallerPc) :
    pc.signal.work calls len ≤ pc.work calls len + 1 := by
  cases pc with
  | waitData signalled =>
    cases signalled with
    | false => exact le_rfl
    | true => exact Nat.le_succ _
  | idle | loop | copying | copied | joining | closed => exact Nat.le_succ _

/-- The test of the inner `while` uses up a step, from wherever it is made. -/
theorem readSlot_work (hcaller : s.caller = .loop ∨ s.caller = .waitData true) :
    (readSlot s).caller.work (readSlot s).calls (readSlot s).len <
        s.caller.work s.calls s.len ∧
      (readSlot s).parentOps = s.parentOps ∧ (readSlot s).producer = s.producer := by
  have hwork : s.caller.work s.calls s.len =
      (s.calls.tail.map callWork).sum + 3 + 4 * s.len + 1 := by
    rcases hcaller with hpc | hpc <;> rw [hpc] <;> rfl
  rw [hwork]
  unfold readSlot
  split
  · refine ⟨?_, rfl, rfl⟩
    simp only [CallerPc.work, Bool.false_eq_true, if_false]
    omega
  · split
    · refine ⟨?_, rfl, rfl⟩
      simp only [State.return, CallerPc.work]
      omega
    · refine ⟨?_, rfl, rfl⟩
      simp only [CallerPc.work]
      omega

/-- A slice has been copied; the producer may get a slot. -/
theorem readCommit_fields (n : ℕ) (s : State) (slice : ℕ) :
    (readCommit n s slice).caller = .loop ∧ (readCommit n s slice).calls = s.calls ∧
      (readCommit n s slice).len = s.len ∧ (readCommit n s slice).parentOps = s.parentOps ∧
      (readCommit n s slice).producer.work ≤ s.producer.work + 1 := by
  unfold readCommit
  simp only
  split
  · exact ⟨rfl, rfl, rfl, rfl, s.producer.work_signal⟩
  · exact ⟨rfl, rfl, rfl, rfl, Nat.le_succ _⟩

theorem callerStep_work {head k : ℕ} (h : Inv n parent lens s head k)
    (hs : callerStep n s = some t) : t.work K < s.work K := by
  have hprog := h.progress
  have hsignal := s.producer.work_signal
  unfold State.work State.reads
  cases callerMove hs with
  | close hpc hcalls =>
    simp only [threadClose, State.signalSpaceAvail, hpc, hcalls, CallerPc.work, List.map_nil,
      List.sum_nil]
    omega
  | @enter len tl hpc hcalls =>
    simp only [hpc, hcalls, CallerPc.work, List.tail_cons, List.map_cons, List.sum_cons, callWork]
    omega
  | test hpc hlen =>
    obtain ⟨hlt, hops, hproducer⟩ := readSlot_work (.inl hpc)
    rw [hops, hproducer]
    omega
  | leave hpc hlen =>
    simp only [State.return, hpc, CallerPc.work]
    omega
  | wake hpc =>
    obtain ⟨hlt, hops, hproducer⟩ := readSlot_work (.inr hpc)
    rw [hops, hproducer]
    omega
  | @copy slice hpc =>
    rw [hpc] at hprog
    obtain ⟨_, _, _, hpos, hle, _⟩ := hprog
    simp only [readCopy, hpc, CallerPc.work]
    omega
  | @commit slice hpc =>
    obtain ⟨hcaller, hcalls, hlen, hops, hproducer⟩ := readCommit_fields n s slice
    rw [hcaller, hcalls, hlen, hops, hpc]
    simp only [CallerPc.work]
    omega
  | joined hpc hex =>
    simp only [hpc, CallerPc.work]
    omega

/-! ## Steps of the producer -/

/-- At the top of its loop the producer goes to sleep, to its next read or to its end. -/
theorem producerLoop_work (s : State) :
    (producerLoop s).producer.work = 0 ∧ (producerLoop s).reads = s.reads ∧
      ((producerLoop s).caller = s.caller ∨
        s.closing = true ∧ (producerLoop s).caller = s.caller.signal) := by
  unfold producerLoop
  split
  · exact ⟨rfl, rfl, .inl rfl⟩
  · split
    · next hclosing =>
      refine ⟨rfl, ?_, .inr ⟨hclosing, rfl⟩⟩
      exact List.count_append
    · exact ⟨rfl, rfl, .inl rfl⟩

theorem producerRelock_work (n : ℕ) (s : State) :
    (producerRelock n s).producer.work = 0 ∧ (producerRelock n s).reads = s.reads := by
  unfold producerRelock
  simp only
  split
  · obtain ⟨hwork, hreads, _⟩ := producerLoop_work
      { (s.setSlot s.index { s.buffer s.index with state := .full }).signalDataReady with
        index := (s.index + 1) % n }
    exact ⟨hwork, hreads⟩
  · refine ⟨rfl, ?_⟩
    exact List.count_append

/-- A wake-up is a step more for the caller. -/
theorem CallerFrame.work_le (h : CallerFrame s t) :
    t.caller.work t.calls t.len ≤ s.caller.work s.calls s.len + 1 := by
  rw [h.calls, h.len]
  rcases h.caller with hpc | hpc
  · rw [hpc]
    exact Nat.le_succ _
  · rw [hpc]
    exact CallerPc.work_signal _ _ _

/-- A parent that has returned data in all its reads is not at its end. -/
theorem ParentUse.reads_le (hparent : WellBehaved parent) (hend : Ends parent K) {reads : ℕ}
    (h : ParentUse parent s reads) (hpc : s.producer = .reading) :
    s.reads = reads ∧ reads ≤ K := by
  have hops := h.ops
  rw [if_neg (by rw [hpc]; decide), List.append_nil] at hops
  constructor
  · rw [State.reads, hops, List.count_replicate_self]
  · have hlive : Live parent reads := by
      intro i hi
      have hpos := h.live_all (by rw [hpc]; decide) (by rw [hpc]; decide) i hi
      have hge := hparent.ret_ge i
      by_contra hnot
      rw [cInt_of_range hge (by omega)] at hpos
      contradiction
    exact hlive.le_of_ends hend

theorem producerStep_work (hparent : WellBehaved parent) (hend : Ends parent K) {reads : ℕ}
    (huse : ParentUse parent s reads) (hclosing : ClosingPc s)
    (hs : producerStep n parent s = some t) : t.work K < s.work K := by
  unfold State.work
  cases producerMove hs with
  | loop hpc =>
    obtain ⟨hwork, hreads, hcaller⟩ := producerLoop_work s
    have hframe := producerLoop_frame s
    have hone : s.producer.work = 1 := by
      rcases hpc with hpc | hpc <;> rw [hpc] <;> rfl
    have hsame : (producerLoop s).caller = s.caller := by
      rcases hcaller with hsame | ⟨hcl, hsignal⟩
      · exact hsame
      · rw [hsignal]
        rcases hclosing.mp hcl with hpc | hpc <;> rw [hpc] <;> rfl
    rw [hwork, hreads, hsame, hframe.calls, hframe.len, hone]
    omega
  | read hpc =>
    obtain ⟨hreads, hle⟩ := huse.reads_le hparent hend hpc
    have hnext : (producerRead parent s).reads = s.reads + 1 := List.count_append
    have hpc' : (producerRead parent s).producer = .relock := rfl
    have hframe := producerRead_frame parent s
    have hcaller : (producerRead parent s).caller = s.caller := rfl
    rw [hnext, hpc', hpc, hcaller, hframe.calls, hframe.len]
    simp only [ProducerPc.work]
    omega
  | relock hpc =>
    obtain ⟨hwork, hreads⟩ := producerRelock_work n s
    have hle := (producerRelock_frame n s).work_le
    rw [hwork, hreads, hpc]
    simp only [ProducerPc.work]
    omega

/-! ## Runs -/

/-- The owner closes the reader behind his last call. -/
def Served (s : State) : Prop := s.caller = .joining ∨ s.caller = .closed → s.calls = []

theorem Served.of_frame (h : Served s) (hf : CallerFrame s t) : Served t := by
  intro hpc
  rw [hf.calls]
  apply h
  rcases hf.caller with hcaller | hcaller
  · rwa [hcaller] at hpc
  · rw [hcaller] at hpc
    simpa using hpc

/-- Behind a test of the inner `while` the owner is in a call, or between two. -/
theorem served_readSlot (s : State) : Served (readSlot s) := by
  unfold readSlot
  split
  · exact nofun
  · split <;> exact nofun

theorem served_step {l : Label} (h : Served s) (hs : step n parent s l = some t) : Served t := by
  cases l with
  | caller =>
    cases callerMove hs with
    | close hpc hcalls => exact fun _ => hcalls
    | enter hpc hcalls => exact nofun
    | test hpc hlen => exact served_readSlot s
    | leave hpc hlen => exact nofun
    | wake hpc => exact served_readSlot s
    | copy hpc => exact nofun
    | @commit slice hpc =>
      intro hcaller
      rw [(readCommit_fields n s slice).1] at hcaller
      simp at hcaller
    | joined hpc hex => exact fun _ => h (.inl hpc)
  | producer =>
    apply h.of_frame
    cases producerMove hs with
    | loop hpc => exact producerLoop_frame s
    | read hpc => exact producerRead_frame parent s
    | relock hpc => exact producerRelock_frame n s
  | wakeCaller =>
    obtain ⟨hpc, rfl⟩ := wakeCaller_eq hs
    exact nofun
  | wakeProducer =>
    obtain ⟨hpc, rfl⟩ := wakeProducer_eq hs
    exact h

theorem served_reachable (h : Reachable (system n parent lens) s) : Served s :=
  h.invariant (show Served (threadOpen lens) from nofun) fun s l t hs hstep =>
    served_step hs (show step n parent s l = some t from hstep)

/-- Every step of a thread uses up work, and a spurious wake-up adds one step. -/
theorem step_work (hn : 0 < n) (hparent : WellBehaved parent) (hend : Ends parent K)
    (h : Reachable (system n parent lens) s) {l : Label} (hs : step n parent s l = some t) :
    (if ofThread s l then 1 else 0) + t.work K ≤ s.work K + if spurious s l then 1 else 0 := by
  cases l with
  | caller =>
    obtain ⟨head, k, hinv⟩ := inv_reachable hn hparent h
    have hlt := callerStep_work (K := K) hinv hs
    simp only [ofThread, spurious, true_or, reduceCtorEq, or_self, decide_true, decide_false,
      if_true, Bool.false_eq_true, if_false]
    omega
  | producer =>
    obtain ⟨reads, huse⟩ := parentUse_reachable h
    have hlt := producerStep_work hparent hend huse (awake_reachable hn h).closing hs
    simp only [ofThread, spurious, or_true, reduceCtorEq, or_self, decide_true, decide_false,
      if_true, Bool.false_eq_true, if_false]
    omega
  | wakeCaller =>
    obtain ⟨hpc, rfl⟩ := wakeCaller_eq hs
    simp only [ofThread, spurious, true_or, reduceCtorEq, or_self, decide_true, decide_false,
      if_true, Bool.false_eq_true, if_false, State.work, State.reads, hpc, CallerPc.work]
    omega
  | wakeProducer =>
    obtain ⟨hpc, rfl⟩ := wakeProducer_eq hs
    simp only [ofThread, spurious, or_true, reduceCtorEq, or_self, decide_true, decide_false,
      if_true, Bool.false_eq_true, if_false, State.work, State.reads, hpc, ProducerPc.work]
    omega

/-- Before the end one of the threads takes a step, and some of the work is done. -/
theorem exists_thread_step (hn : 0 < n) (hparent : WellBehaved parent) (hend : Ends parent K)
    (h : Reachable (system n parent lens) s) (hclosed : s.caller ≠ .closed) :
    ∃ l t, (l = .caller ∨ l = .producer) ∧ step n parent s l = some t ∧ t.work K < s.work K := by
  rcases (awake_reachable hn h).exists_step hclosed with hstep | hstep
  · obtain ⟨t, ht⟩ := Option.isSome_iff_exists.mp hstep
    obtain ⟨head, k, hinv⟩ := inv_reachable hn hparent h
    exact ⟨.caller, t, .inl rfl, ht, callerStep_work hinv ht⟩
  · obtain ⟨t, ht⟩ := Option.isSome_iff_exists.mp hstep
    obtain ⟨reads, huse⟩ := parentUse_reachable h
    exact ⟨.producer, t, .inr rfl, ht,
      producerStep_work hparent hend huse (awake_reachable hn h).closing ht⟩

/-- From every state of a run the two threads come to the end of the reader. -/
theorem exists_closing_run (hn : 0 < n) (hparent : WellBehaved parent) (hend : Ends parent K)
    (h : Reachable (system n parent lens) s) :
    ∃ ls t, (∀ l ∈ ls, l = .caller ∨ l = .producer) ∧
      exec (system n parent lens) s ls = some t ∧ t.caller = .closed := by
  apply exists_exec (I := fun s w => Reachable (system n parent lens) s ∧ s.work K = w) _ ⟨h, rfl⟩
  rintro s w ⟨hs, rfl⟩ hclosed
  obtain ⟨l, t, hl, ht, hlt⟩ := exists_thread_step hn hparent hend hs hclosed
  exact ⟨l, t, _, hl, ht, ⟨hs.next ht, rfl⟩, hlt⟩

/-- Over a parent whose data end with its read `K`: in no run do the two threads take more steps
than the lengths of the calls and `K` allow, and one for each spurious wake-up; and from every state
of every run they come, by themselves, to a state in which all calls have returned and the reader is
closed. -/
theorem threadReader_terminates (n : ℕ) (hn : 0 < n) (parent : ℕ → ReadResult)
    (hparent : WellBehaved parent) (K : ℕ) (hend : Ends parent K) (lens : List ℕ) :
    (∀ ls t, exec (system n parent lens) (threadOpen lens) ls = some t →
      countSteps (system n parent lens) ofThread (threadOpen lens) ls ≤
        (lens.map fun len => 4 * len + 2).sum + 3 * K + 7 +
          countSteps (system n parent lens) spurious (threadOpen lens) ls) ∧
    ∀ s, Reachable (system n parent lens) s → ∃ ls t, (∀ l ∈ ls, l = .caller ∨ l = .producer) ∧
      exec (system n parent lens) s ls = some t ∧ t.caller = .closed ∧
      t.log.map Prod.fst = lens := by
  constructor
  · intro ls t hrun
    have hcount : countSteps (system n parent lens) ofThread (threadOpen lens) ls ≤
        (threadOpen lens).work K +
          countSteps (system n parent lens) spurious (threadOpen lens) ls :=
      countSteps_le_add (I := Reachable (system n parent lens))
        (fun s l t hs hstep => ⟨hs.next hstep, step_work hn hparent hend hs hstep⟩) .init hrun
    have hwork : (threadOpen lens).work K = (lens.map callWork).sum + 3 * K + 7 := by
      simp only [State.work, threadOpen, State.reads, CallerPc.work, ProducerPc.work,
        List.count_nil]
      omega
    rw [hwork] at hcount
    exact hcount
  · intro s hs
    obtain ⟨ls, t, hls, hrun, hclosed⟩ := exists_closing_run hn hparent hend hs
    have ht := hs.exec hrun
    obtain ⟨head, k, hinv⟩ := inv_reachable hn hparent ht
    refine ⟨ls, t, hls, hrun, hclosed, ?_⟩
    rw [hinv.lens_eq, served_reachable ht (.inr hclosed), List.append_nil]

theorem twoReads_ends : Ends twoReads 2 := by
  refine ⟨?_, by decide⟩
  intro i hi
  have hcases : i = 0 ∨ i = 1 := by omega
  rcases hcases with rfl | rfl <;> decide

theorem threadReader_terminates_two :
    ∃ ls t, (∀ l ∈ ls, l = Label.caller ∨ l = .producer) ∧
      exec (system 1 twoReads [2, 5, 1]) (threadOpen [2, 5, 1]) ls = some t ∧
      t.caller = .closed ∧ t.log.map Prod.fst = [2, 5, 1] :=
  (threadReader_terminates 1 (by decide) twoReads twoReads_wellBehaved 2 twoReads_ends
    [2, 5, 1]).2 _ .init

end Steps

end Wandio.ThreadReader
