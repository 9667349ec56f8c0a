import Wandio.ThreadWriter.LogTheorems
import Wandio.ThreadWriter.ProgressTheorems
import Mathlib.Algebra.BigOperators.Group.List.Basic

/-!
# Termination of the threaded writer

No order of the steps goes on for ever: each step of a thread uses up some of a budget that is known
when the writer is opened, and only a spurious wake-up adds to it. A slot that is handed over is
work for the consumer; the bytes that have filled it pay for it, or the flush. Since one of the
threads can always take a step, all calls return, the child gets all bytes and the writer closes.
-/

namespace Wandio.ThreadWriter

open Transition

/-- What a call takes: a write its beginning and a slice that leaves its slot open, a flush its
beginning and a slot that is handed over. -/
def Call.work : Call → ℕ
  | .wwrite _ => 3
  | .wflush => 6

/-- The two sections of `thread_wclose`, and what the consumer does between them. -/
def closeWork : ℕ := 3 * (buffers + 1) + 3

/-- What the caller has still to do, with `calls` to make, but for the slots that get full. A
wake-up that it gets is a step too. -/
def CallerPc.work (calls : List Call) : CallerPc → ℕ
  | .idle => (calls.map Call.work).sum + closeWork
  | .waitSpace signalled =>
    (calls.tail.map Call.work).sum + closeWork + 2 + if signalled then 1 else 0
  | .copying _ => (calls.tail.map Call.work).sum + closeWork + 2
  | .copied _ => (calls.tail.map Call.work).sum + closeWork + 1
  | .joining => 1
  | .closed => 0

/-- The number of bytes that the caller has still to store. -/
def CallerPc.bytes (rest : List Byte) (calls : List Call) : CallerPc → ℕ
  | .idle => (callBytes calls).length
  | .waitSpace _ | .copying _ | .copied _ | .joining | .closed =>
    rest.length + (callBytes calls.tail).length

/-- What the consumer has still to do with the `k` slots handed over. -/
def ConsumerPc.work (k : ℕ) : ConsumerPc → ℕ
  | .start => 4 * k + 1
  | .waitData signalled => 4 * k + if signalled then 1 else 0
  | .writing => 4 * k
  | .flushing => 4 * k - 1
  | .relock => 4 * k - 2
  | .exited => 0

/-- What the two threads of an open writer have still to do, where a slot that gets full is another
slice for the caller and, with its wake-up, five steps for the consumer. -/
def State.work (s : State) (k : ℕ) : ℕ :=
  s.caller.work s.calls + 7 * ((s.offset + s.caller.bytes s.rest s.calls) / wandioBufferSize) +
    s.consumer.work k

/-- A slice fills its slot or takes the rest of the buffer. -/
def Sliced (s : State) : Prop :=
  ∀ slice, s.caller = .copying slice ∨ s.caller = .copied slice →
    slice = min (wandioBufferSize - s.offset) s.rest.length

/-- What is left of the budget of a run. -/
inductive Budget (all : List Call) (s : State) : ℕ → Prop where
  | opened {head k fill : ℕ} {stored : List Byte} (hcl : s.closing = false)
      (hr : Running s head k fill stored) (hslice : Sliced s) : Budget all s (s.work k)
  | closing {n : ℕ} (h : Closing all s n) :
      Budget all s (stepsLeft n s.consumer + s.caller.work s.calls)

/-- A step that is no spurious wake-up. -/
def ofThread (_ : State) (l : Label) : Bool := l = .caller ∨ l = .consumer

def spurious (_ : State) (l : Label) : Bool := l = .wakeCaller ∨ l = .wakeConsumer

section Steps

variable {all : List Call} {s t : State} {head k fill n : ℕ} {stored : List Byte}

theorem CallerPc.work_signal (calls : List Call) (pc : CallerPc) :
    pc.signal.work calls ≤ pc.work calls + 1 := by
  cases pc with
  | waitSpace signalled =>
    cases signalled with
    | false => exact le_rfl
    | true => exact Nat.le_succ _
  | idle | copying | copied | joining | closed => exact Nat.le_succ _

theorem CallerPc.bytes_signal (rest : List Byte) (calls : List Call) (pc : CallerPc) :
    pc.signal.bytes rest calls = pc.bytes rest calls := by
  cases pc <;> rfl

/-- A slot that is handed over with a wake-up. -/
theorem ConsumerPc.work_handOver (k : ℕ) (pc : ConsumerPc) :
    pc.signal.work (k + 1) ≤ pc.work k + 5 := by
  cases pc with
  | waitData signalled =>
    show 4 * (k + 1) + 1 ≤ 4 * k + (if signalled then 1 else 0) + 5
    omega
  | start | writing | flushing | relock | exited =>
    simp only [ConsumerPc.signal, ConsumerPc.work]
    omega

/-! ## Steps of the caller -/

/-- What is left at the tests of a write. -/
def State.writeWork (s : State) (k : ℕ) : ℕ :=
  (s.calls.tail.map Call.work).sum + closeWork +
    7 * ((s.offset + (s.rest.length + (callBytes s.calls.tail).length)) / wandioBufferSize) +
    s.consumer.work k

theorem wwriteSpace_budget (all : List Call) (hcl : s.closing = false)
    (hr : Running s head k fill stored) :
    ∃ m, Budget all (wwriteSpace s) m ∧ m = s.writeWork k + 2 := by
  have hring : ∀ pc, Running { s with caller := pc } head k fill stored := fun pc =>
    hr.congr rfl rfl rfl rfl rfl rfl rfl hr.alive rfl
  unfold wwriteSpace
  split
  · refine ⟨_, .opened hcl (hring _) ?_, ?_⟩
    · rintro slice (hpc | hpc) <;> contradiction
    · simp only [State.work, State.writeWork, CallerPc.work, CallerPc.bytes, Bool.false_eq_true,
        if_false]
      omega
  · refine ⟨_, .opened hcl (hring _) ?_, ?_⟩
    · rintro slice (hpc | hpc)
      · exact (CallerPc.copying.inj hpc).symm
      · contradiction
    · simp only [State.work, State.writeWork, CallerPc.work, CallerPc.bytes]
      omega

/-- A write returns, or it has a slice to copy. -/
theorem wwriteLoop_budget (all : List Call) (hcl : s.closing = false)
    (hr : Running s head k fill stored) :
    ∃ m, Budget all (wwriteLoop s) m ∧ m ≤ s.writeWork k + 2 ∧
      (s.rest = [] → m = s.writeWork k) := by
  unfold wwriteLoop
  split
  · next hrest =>
    obtain ⟨m, hm, rfl⟩ := wwriteSpace_budget all hcl hr
    exact ⟨_, hm, le_rfl, fun hnil => by simp [hnil] at hrest⟩
  · next hrest =>
    have hzero : s.rest.length = 0 := by omega
    have hwork : (s.return s.copied).work k = s.writeWork k := by
      simp only [State.work, State.writeWork, State.return, CallerPc.work, CallerPc.bytes, hzero,
        Nat.zero_add]
    refine ⟨_, .opened hcl (hr.congr rfl rfl rfl rfl rfl rfl rfl hr.alive rfl) ?_, ?_⟩
    · rintro slice (hpc | hpc) <;> contradiction
    · rw [hwork]
      exact ⟨Nat.le_add_right _ _, fun _ => rfl⟩

/-- A full slot is handed over with a wake-up. -/
theorem wwriteAdvance_full (h : wandioBufferSize ≤ s.offset) :
    (wwriteAdvance s).offset = 0 ∧ (wwriteAdvance s).calls = s.calls ∧
      (wwriteAdvance s).rest = s.rest ∧ (wwriteAdvance s).consumer = s.consumer.signal := by
  unfold wwriteAdvance
  rw [if_pos h]
  exact ⟨rfl, rfl, rfl, rfl⟩

/-- What is left behind a slice: a slot that gets full is paid for by the bytes in it. -/
theorem wwriteAdvance_work {slice : ℕ} (hle : slice ≤ s.rest.length)
    (hsize : s.offset + slice ≤ wandioBufferSize) :
    (wwriteAdvance (wwriteCommit s slice)).writeWork
        (if wandioBufferSize ≤ s.offset + slice then k + 1 else k) +
      (if wandioBufferSize ≤ s.offset + slice then 2 else 0) ≤ s.writeWork k := by
  have hoffset : (wwriteCommit s slice).offset = s.offset + slice := rfl
  have hdrop : (wwriteCommit s slice).rest.length = s.rest.length - slice := List.length_drop
  have hcalls : (wwriteCommit s slice).calls = s.calls := rfl
  have hconsumer : (wwriteCommit s slice).consumer = s.consumer := rfl
  by_cases hfull : wandioBufferSize ≤ s.offset + slice
  · obtain ⟨hzero, hcalls', hrest', hsignal⟩ := wwriteAdvance_full (hoffset ▸ hfull)
    have hover := s.consumer.work_handOver k
    have hsum : s.offset + (s.rest.length + (callBytes s.calls.tail).length) =
        0 + (s.rest.length - slice + (callBytes s.calls.tail).length) + wandioBufferSize := by
      omega
    rw [if_pos hfull, if_pos hfull]
    unfold State.writeWork
    rw [hzero, hcalls', hrest', hsignal, hdrop, hcalls, hconsumer, hsum,
      Nat.add_div_right _ (by decide)]
    omega
  · have hopen : wwriteAdvance (wwriteCommit s slice) = wwriteCommit s slice :=
      if_neg (hoffset ▸ hfull)
    have hsum : s.offset + slice + (s.rest.length - slice + (callBytes s.calls.tail).length) =
        s.offset + (s.rest.length + (callBytes s.calls.tail).length) := by
      omega
    rw [if_neg hfull, if_neg hfull, hopen]
    unfold State.writeWork
    rw [hoffset, hdrop, hcalls, hconsumer, hsum]
    exact le_rfl

/-- A flush returns, and hands over what there is with a wake-up. -/
theorem threadWflush_fields (s : State) :
    (threadWflush s).caller = .idle ∧ (threadWflush s).calls = s.calls.tail ∧
      (threadWflush s).closing = s.closing ∧ (threadWflush s).offset = 0 ∧
      (threadWflush s).consumer =
        if 0 < s.offset then s.consumer.signal else s.consumer := by
  unfold threadWflush
  split
  · exact ⟨rfl, rfl, rfl, rfl, rfl⟩
  · next hzero => exact ⟨rfl, rfl, rfl, Nat.eq_zero_of_not_pos hzero, rfl⟩

/-- A flush pays for the slot that it hands over. -/
theorem threadWflush_work {tl : List Call} (hpc : s.caller = .idle)
    (hcalls : s.calls = .wflush :: tl) :
    (threadWflush s).work (if 0 < s.offset then k + 1 else k) < s.work k := by
  obtain ⟨hidle, htail, _, hzero, hconsumer⟩ := threadWflush_fields s
  have hbytes : callBytes (.wflush :: tl) = callBytes tl := rfl
  have hdiv : (0 + (callBytes tl).length) / wandioBufferSize ≤
      (s.offset + (callBytes tl).length) / wandioBufferSize := Nat.div_le_div_right (by omega)
  have hover : (threadWflush s).consumer.work (if 0 < s.offset then k + 1 else k) ≤
      s.consumer.work k + 5 := by
    rw [hconsumer]
    split
    · exact s.consumer.work_handOver k
    · exact Nat.le_add_right _ _
  unfold State.work
  rw [hidle, htail, hzero, hpc, hcalls]
  simp only [CallerPc.work, CallerPc.bytes, List.tail_cons, List.map_cons, List.sum_cons, hbytes,
    Call.work]
  omega

theorem callerStep_budget (h : Reachable (system all) s) (hcl : s.closing = false)
    (hr : Running s head k fill stored) (hslice : Sliced s) (hs : step s .caller = some t) :
    ∃ m, Budget all t m ∧ m < s.work k := by
  obtain ⟨fill', stored', ⟨done, hall, hdone, hprog⟩, hring⟩ := inv_reachable h
  obtain ⟨head', k', hr'⟩ := running_of_open hcl hring
  obtain rfl := hr.unique hr'
  cases callerMove (show callerStep s = some t from hs) with
  | close hpc hcalls =>
    obtain ⟨n, hn⟩ := closing_reachable (h.next (l := .caller) hs) rfl
    refine ⟨_, .closing hn, ?_⟩
    have hle := hn.left.le
    have hsteps := stepsLeft_le n (threadWclose s).consumer
    have hjoin : (threadWclose s).caller.work (threadWclose s).calls = 1 := rfl
    rw [hjoin]
    simp only [State.work, hpc, hcalls, CallerPc.work, List.map_nil, List.sum_nil, closeWork]
    omega
  | @wwrite buffer tl hpc hcalls =>
    obtain ⟨m, hm, hle, _⟩ := wwriteLoop_budget all
      (s := { s with rest := buffer, copied := 0 }) hcl
      (hr.congr rfl rfl rfl rfl rfl rfl rfl hr.alive rfl)
    refine ⟨m, hm, ?_⟩
    have hbytes : (callBytes (.wwrite buffer :: tl)).length =
        buffer.length + (callBytes tl).length := List.length_append
    simp only [State.writeWork, hcalls, List.tail_cons] at hle
    simp only [State.work, hpc, hcalls, CallerPc.work, CallerPc.bytes, List.map_cons,
      List.sum_cons, hbytes, Call.work]
    omega
  | @wflush tl hpc hcalls =>
    rw [hpc] at hprog
    obtain ⟨_, rfl, _⟩ := hprog
    obtain ⟨hidle, _, hopen, _⟩ := threadWflush_fields s
    refine ⟨_, .opened (hopen.trans hcl) (hr'.flushed hcl) ?_, threadWflush_work hpc hcalls⟩
    rintro slice (hpc' | hpc') <;> rw [hidle] at hpc' <;> contradiction
  | wake hpc =>
    obtain ⟨m, hm, rfl⟩ := wwriteSpace_budget all hcl hr
    refine ⟨_, hm, ?_⟩
    simp only [State.work, State.writeWork, hpc, CallerPc.work, CallerPc.bytes, if_true]
    omega
  | @copy slice hpc =>
    rw [hpc] at hprog
    obtain ⟨_, rfl, hout, _, hle, _⟩ := hprog
    refine ⟨_, .opened hcl (hr'.copy hcl hout hle) ?_, ?_⟩
    · rintro slice' (hpc' | hpc')
      · contradiction
      · obtain rfl := CallerPc.copied.inj hpc'
        exact hslice slice (.inl hpc)
    · simp only [State.work, wwriteCopy, State.setOut, State.setSlot, hpc, CallerPc.work,
        CallerPc.bytes]
      omega
  | @commit slice hpc =>
    have hslice' := hslice slice (.inr hpc)
    rw [hpc] at hprog
    obtain ⟨_, rfl, hout, hpos, hle, hsize, _⟩ := hprog
    have hopen : (wwriteAdvance (wwriteCommit s slice)).closing = false := by
      unfold wwriteAdvance
      split <;> exact hcl
    have hrest : (wwriteAdvance (wwriteCommit s slice)).rest = s.rest.drop slice := by
      unfold wwriteAdvance
      split <;> rfl
    obtain ⟨m, hm, hmore, hdone⟩ := wwriteLoop_budget all hopen (hr'.commit hcl hout hpos)
    refine ⟨m, hm, ?_⟩
    have hwork := wwriteAdvance_work (k := k) hle hsize
    have hstart : s.work k = s.writeWork k + 1 := by
      simp only [State.work, State.writeWork, hpc, CallerPc.work, CallerPc.bytes]
      omega
    by_cases hfull : wandioBufferSize ≤ s.offset + slice
    · rw [if_pos hfull] at hwork hmore
      rw [if_pos hfull] at hwork
      omega
    · -- the slot is still open, so this was the last slice
      have hlast : s.rest.drop slice = [] := List.drop_eq_nil_of_le (by omega)
      rw [if_neg hfull] at hwork hdone
      rw [if_neg hfull] at hwork
      have heq := hdone (hrest.trans hlast)
      omega
  | joined hpc hex =>
    rw [hpc] at hprog
    have hclosing := hprog.1
    rw [hcl] at hclosing
    contradiction

/-! ## Steps of the consumer -/

/-- What a step of the consumer leaves alone, and a wake-up of the caller. -/
structure CallerFrame (s t : State) : Prop where
  calls : t.calls = s.calls
  rest : t.rest = s.rest
  offset : t.offset = s.offset
  closing : t.closing = s.closing
  caller : t.caller = s.caller ∨ t.caller = s.caller.signal

theorem callerFrame_loop (s : State) : CallerFrame s (consumerLoop s) := by
  unfold consumerLoop
  split <;> exact ⟨rfl, rfl, rfl, rfl, .inl rfl⟩

theorem callerFrame_relock (s : State) : CallerFrame s (consumerRelock s) := by
  unfold consumerRelock
  split
  · have hloop := callerFrame_loop (consumerRelease s)
    have hcaller := (consumerLoop_fields (consumerRelease s)).2.2.2.2.1
    exact ⟨hloop.calls, hloop.rest, hloop.offset, hloop.closing, .inr hcaller⟩
  · exact ⟨rfl, rfl, rfl, rfl, .inr rfl⟩

theorem callerFrame_consumerStep (hs : consumerStep s = some t) : CallerFrame s t := by
  cases consumerMove hs with
  | loop hpc => exact callerFrame_loop s
  | write hpc => exact ⟨rfl, rfl, rfl, rfl, .inl rfl⟩
  | flush hpc => exact ⟨rfl, rfl, rfl, rfl, .inl rfl⟩
  | relock hpc => exact callerFrame_relock s

namespace CallerFrame

theorem sliced (hf : CallerFrame s t) (h : Sliced s) : Sliced t := by
  intro slice hpc
  rw [hf.offset, hf.rest]
  apply h
  rcases hf.caller with hcaller | hcaller
  · rwa [hcaller] at hpc
  · rw [hcaller] at hpc
    cases hs : s.caller with
    | copying | copied =>
      rw [hs] at hpc
      exact hpc
    | idle | waitSpace | joining | closed =>
      rw [hs] at hpc
      rcases hpc with hpc | hpc <;> contradiction

/-- A wake-up is a step more for the caller. -/
theorem caller_work_le (hf : CallerFrame s t) :
    t.caller.work t.calls ≤ s.caller.work s.calls + 1 := by
  rw [hf.calls]
  rcases hf.caller with hcaller | hcaller
  · rw [hcaller]
    exact Nat.le_succ _
  · rw [hcaller]
    exact s.caller.work_signal _

/-- The bytes to come stay the same. -/
theorem bytes (hf : CallerFrame s t) :
    t.offset + t.caller.bytes t.rest t.calls = s.offset + s.caller.bytes s.rest s.calls := by
  rw [hf.offset, hf.rest, hf.calls]
  rcases hf.caller with hcaller | hcaller
  · rw [hcaller]
  · rw [hcaller, CallerPc.bytes_signal]

end CallerFrame

/-- At the top of its loop the consumer goes to sleep or to a slot. -/
theorem consumerLoop_work (s : State) (k : ℕ) : (consumerLoop s).consumer.work k = 4 * k := by
  unfold consumerLoop
  split <;> rfl

theorem consumerStep_budget (hcl : s.closing = false) (hr : Running s head k fill stored)
    (hslice : Sliced s) (hs : consumerStep s = some t) : ∃ m, Budget all t m ∧ m < s.work k := by
  have hframe := callerFrame_consumerStep hs
  have hopen : t.closing = false := hframe.closing.trans hcl
  have hsliced := hframe.sliced hslice
  have hbytes := hframe.bytes
  have hpos : s.consumer.busy = true → 0 < k := by
    intro hbusy
    rcases hr.busy hbusy with hk | hclosing
    · exact hk
    · rw [hcl] at hclosing
      contradiction
  cases consumerMove hs with
  | loop hpc =>
    have hwritten : s.consumer.written = 0 := by
      rcases hpc with hpc | hpc <;> rw [hpc] <;> rfl
    refine ⟨_, .opened hopen (hr.loop hwritten) hsliced, ?_⟩
    have hone : s.consumer.work k = 4 * k + 1 := by
      rcases hpc with hpc | hpc <;> rw [hpc] <;> rfl
    unfold State.work
    rw [hbytes, hframe.calls, (consumerLoop_fields s).2.2.2.2.1, consumerLoop_work, hone]
    omega
  | write hpc =>
    refine ⟨_, .opened hopen (hr.write hpc) hsliced, ?_⟩
    have hk := hpos (by rw [hpc]; rfl)
    have hcaller : (consumerWrite s).caller.work (consumerWrite s).calls = s.caller.work s.calls :=
      rfl
    have hnext : (consumerWrite s).consumer = .flushing := rfl
    unfold State.work
    rw [hbytes, hcaller, hnext, hpc]
    simp only [ConsumerPc.work]
    omega
  | flush hpc =>
    refine ⟨_, .opened hopen (hr.flush hpc) hsliced, ?_⟩
    have hk := hpos (by rw [hpc]; rfl)
    have hcaller : (consumerFlush s).caller.work (consumerFlush s).calls = s.caller.work s.calls :=
      rfl
    have hnext : (consumerFlush s).consumer = .relock := rfl
    unfold State.work
    rw [hbytes, hcaller, hnext, hpc]
    simp only [ConsumerPc.work]
    omega
  | relock hpc =>
    obtain ⟨j, rfl⟩ : ∃ j, k = j + 1 := ⟨k - 1, by have := hpos (by rw [hpc]; rfl); omega⟩
    obtain ⟨hlen, hnext⟩ := hr.relock hpc
    refine ⟨_, .opened hopen hnext hsliced, ?_⟩
    have hle := hframe.caller_work_le
    have hconsumer : (consumerRelock s).consumer.work j = 4 * j := by
      rw [consumerRelock, if_pos hlen, consumerLoop_work]
    unfold State.work
    rw [hbytes, hconsumer, hpc]
    simp only [ConsumerPc.work]
    omega

/-! ## Runs -/

/-- A closing writer: the consumer comes to its end, and the owner to his. -/
theorem closing_budget {l : Label} (h : Closing all s n) (hs : step s l = some t) :
    ∃ m, Budget all t m ∧ m < stepsLeft n s.consumer + s.caller.work s.calls := by
  obtain ⟨m, hm, _, hsteps⟩ := closing_step h hs
  have hcaller := joining_of_closing h.inv h.closing
  cases l with
  | caller =>
    refine ⟨_, .closing hm, ?_⟩
    cases callerMove (show callerStep s = some t from hs) with
    | joined hpc hex =>
      simp only [reduceCtorEq, if_false, Nat.add_zero] at hsteps
      simp only [hsteps, hpc, CallerPc.work]
      omega
    -- all other sections begin with an open writer
    | _ hpc => rcases hcaller with h' | h' <;> rw [hpc] at h' <;> contradiction
  | consumer =>
    refine ⟨_, .closing hm, ?_⟩
    have hframe := callerFrame_consumerStep (show consumerStep s = some t from hs)
    have hsame : t.caller = s.caller := by
      rcases hframe.caller with hsame | hsignal
      · exact hsame
      · rw [hsignal]
        rcases hcaller with hpc | hpc <;> rw [hpc] <;> rfl
    rw [if_pos rfl] at hsteps
    rw [hsame, hframe.calls]
    omega
  | wakeCaller =>
    obtain ⟨hpc, _⟩ := wakeCaller_eq hs
    rw [hpc] at hcaller
    simp at hcaller
  | wakeConsumer =>
    obtain ⟨hpc, _⟩ := wakeConsumer_eq hs
    have hopen := (h.awake.consumer hpc).2
    rw [h.closing] at hopen
    contradiction

/-- Every step of a thread uses up some of the budget. -/
theorem step_budget_lt (h : Reachable (system all) s) (hb : Budget all s n) {l : Label}
    (hl : l = .caller ∨ l = .consumer) (hs : step s l = some t) : ∃ m, Budget all t m ∧ m < n := by
  cases hb with
  | closing hclosing => exact closing_budget hclosing hs
  | opened hcl hr hslice =>
    rcases hl with rfl | rfl
    · exact callerStep_budget h hcl hr hslice hs
    · exact consumerStep_budget hcl hr hslice hs

/-- A spurious wake-up adds one step. -/
theorem wake_budget (hb : Budget all s n) {l : Label} (hl : l = .wakeCaller ∨ l = .wakeConsumer)
    (hs : step s l = some t) : ∃ m, Budget all t m ∧ m ≤ n + 1 := by
  cases hb with
  | closing hclosing =>
    obtain ⟨m, hm, hlt⟩ := closing_budget hclosing hs
    exact ⟨m, hm, by omega⟩
  | opened hcl hr hslice =>
    rcases hl with rfl | rfl
    · obtain ⟨hpc, rfl⟩ := wakeCaller_eq hs
      refine ⟨_, .opened hcl (hr.congr rfl rfl rfl rfl rfl rfl rfl hr.alive rfl) ?_, ?_⟩
      · rintro slice (hpc' | hpc') <;> contradiction
      · simp only [State.work, hpc, CallerPc.work, CallerPc.bytes, Bool.false_eq_true, if_false,
          if_true]
        omega
    · obtain ⟨hpc, rfl⟩ := wakeConsumer_eq hs
      refine ⟨_, .opened hcl (hr.congr rfl rfl rfl rfl rfl rfl (by rw [hpc]; rfl) (by simp)
        (by rw [hpc]; rfl)) hslice, ?_⟩
      simp only [State.work, hpc, ConsumerPc.work, Bool.false_eq_true, if_false, if_true]
      omega

/-- The two kinds of steps together. -/
theorem step_budget (h : Reachable (system all) s) (hb : Budget all s n) {l : Label}
    (hs : step s l = some t) : ∃ m, Budget all t m ∧
      (if ofThread s l then 1 else 0) + m ≤ n + if spurious s l then 1 else 0 := by
  have hpaid : (l = .caller ∨ l = .consumer) → ∃ m, Budget all t m ∧
      (if ofThread s l then 1 else 0) + m ≤ n + if spurious s l then 1 else 0 := by
    intro hl
    obtain ⟨m, hm, hlt⟩ := step_budget_lt h hb hl hs
    refine ⟨m, hm, ?_⟩
    rw [if_pos (show ofThread s l = true from decide_eq_true hl)]
    omega
  have hraised : (l = .wakeCaller ∨ l = .wakeConsumer) → ofThread s l = false → ∃ m,
      Budget all t m ∧ (if ofThread s l then 1 else 0) + m ≤ n + if spurious s l then 1 else 0 := by
    intro hl hother
    obtain ⟨m, hm, hle⟩ := wake_budget hb hl hs
    refine ⟨m, hm, ?_⟩
    rw [hother, if_pos (show spurious s l = true from decide_eq_true hl)]
    simpa using hle
  cases l with
  | caller => exact hpaid (.inl rfl)
  | consumer => exact hpaid (.inr rfl)
  | wakeCaller => exact hraised (.inl rfl) rfl
  | wakeConsumer => exact hraised (.inr rfl) rfl

/-- The budget that is known when the writer is opened. -/
theorem budget_open (all : List Call) : Budget all (threadWopen all)
    ((all.map Call.work).sum + 7 * ((callBytes all).length / wandioBufferSize) + 22) := by
  obtain ⟨fill, stored, ⟨done, _, _, hprog⟩, hring⟩ := inv_init all
  have hcl : (threadWopen all).closing = false := rfl
  obtain ⟨head, k, hr⟩ := running_of_open hcl hring
  -- no slot is handed over
  have hk : k = 0 := by
    by_contra hk
    have hfull := (hr.full 0 (by omega)).1
    contradiction
  have hwork : (threadWopen all).work k =
      (all.map Call.work).sum + 7 * ((callBytes all).length / wandioBufferSize) + 22 := by
    rw [hk]
    simp only [State.work, threadWopen, CallerPc.work, CallerPc.bytes, ConsumerPc.work, closeWork,
      buffers, Nat.zero_add]
    omega
  rw [← hwork]
  exact .opened hcl hr (fun slice hpc => by rcases hpc with hpc | hpc <;> contradiction)

/-- Before the end one of the threads takes a step, and some of the budget is used up. -/
theorem exists_thread_step (h : Reachable (system all) s) (hb : Budget all s n)
    (hclosed : s.caller ≠ .closed) :
    ∃ l t m, (l = .caller ∨ l = .consumer) ∧ step s l = some t ∧ Budget all t m ∧ m < n := by
  rcases exists_step (inv_reachable h) (noLostWakeup_reachable h) hclosed with hstep | hstep
  · obtain ⟨t, ht⟩ := Option.isSome_iff_exists.mp hstep
    obtain ⟨m, hm, hlt⟩ := step_budget_lt h hb (.inl rfl) ht
    exact ⟨.caller, t, m, .inl rfl, ht, hm, hlt⟩
  · obtain ⟨t, ht⟩ := Option.isSome_iff_exists.mp hstep
    obtain ⟨m, hm, hlt⟩ := step_budget_lt h hb (.inr rfl) ht
    exact ⟨.consumer, t, m, .inr rfl, ht, hm, hlt⟩

/-- From every state of a run the two threads come to the end of the writer. -/
theorem exists_closing_run (h : Reachable (system all) s) (hb : Budget all s n) :
    ∃ ls t, (∀ l ∈ ls, l = .caller ∨ l = .consumer) ∧
      exec (system all) s ls = some t ∧ t.caller = .closed := by
  apply exists_exec (I := fun s n => Reachable (system all) s ∧ Budget all s n) _ ⟨h, hb⟩
  rintro s n ⟨hs, hn⟩ hclosed
  obtain ⟨l, t, m, hl, ht, hm, hlt⟩ := exists_thread_step hs hn hclosed
  exact ⟨l, t, m, hl, ht, ⟨hs.next ht, hm⟩, hlt⟩

/-- In no run do the two threads take more steps than three a write, six a flush, seven for each
slot that the bytes of the calls fill, and 22 allow, and one for each spurious wake-up; and from
every state of every run they come, by themselves, to a state in which the writer is closed, all
calls have returned and the child, with the bytes of all of them, has been destroyed. -/
theorem threadWriter_terminates (all : List Call) :
    (∀ ls t, exec (system all) (threadWopen all) ls = some t →
      countSteps (system all) ofThread (threadWopen all) ls ≤
        (all.map Call.work).sum + 7 * ((callBytes all).length / wandioBufferSize) + 22 +
          countSteps (system all) spurious (threadWopen all) ls) ∧
    ∀ s, Reachable (system all) s → ∃ ls t, (∀ l ∈ ls, l = .caller ∨ l = .consumer) ∧
      exec (system all) s ls = some t ∧ t.caller = .closed ∧
      List.Forall₂ Returned all t.returns ∧
      ∃ ops, t.child = ops ++ [.wdestroy] ∧ .wdestroy ∉ ops ∧ childBytes ops = callBytes all := by
  have hbudget : ∀ s, Reachable (system all) s → ∃ n, Budget all s n := by
    intro s hs
    induction hs with
    | init => exact ⟨_, budget_open all⟩
    | next hs hstep ih =>
      obtain ⟨n, hn⟩ := ih
      obtain ⟨m, hm, _⟩ := step_budget hs hn hstep
      exact ⟨m, hm⟩
  constructor
  · intro ls t hrun
    refine countSteps_le_budget (I := fun s n => Reachable (system all) s ∧ Budget all s n)
      (fun s l t n hs hstep => ?_) ⟨.init, budget_open all⟩ hrun
    obtain ⟨m, hm, hle⟩ := step_budget hs.1 hs.2 hstep
    exact ⟨m, ⟨hs.1.next hstep, hm⟩, hle⟩
  · intro s hs
    obtain ⟨n, hn⟩ := hbudget s hs
    obtain ⟨ls, t, hls, hrun, hclosed⟩ := exists_closing_run hs hn
    obtain ⟨hchild, hreturned⟩ := (inv_reachable (hs.exec hrun)).closed hclosed
    exact ⟨ls, t, hls, hrun, hclosed, hreturned, hchild⟩

end Steps

end Wandio.ThreadWriter
