import Wandio.ThreadWriter.LogTheorems
import Mathlib.Data.List.Induction

/-!
# Flushes of the threaded writer

`thread_wflush` marks the output buffer and hands it over. When the bytes written so far have
just filled a slot there is nothing in the output buffer to mark, and the flush is lost:
`flush_reaches_child_iff` says that this is the only case.
-/

namespace Wandio.ThreadWriter

open Transition

/-- The number of bytes written since the last `thread_wflush`. -/
def unflushed (calls : List Call) : ℕ :=
  calls.foldl
    (fun n c =>
      match c with
      | .wwrite buffer => n + buffer.length
      | .wflush => 0) 0

/-- The child is flushed behind `bytes` and in front of all other bytes. -/
def FlushedAt (ops : List ChildOp) (bytes : List Byte) : Prop :=
  ∃ before after, ops = before ++ .wflush :: after ∧ childBytes before = bytes

/-! ## The bytes in front of a flush -/

/-- The bytes of the slots and of the output buffer. -/
def Cut.bytes (c : Cut) : List Byte := c.handed.flatMap Prod.fst ++ c.pending

section Cut

variable {c : Cut} {calls : List Call}

theorem Cut.call_wflush :
    c.call .wflush = if c.pending = [] then c else ⟨c.handed ++ [(c.pending, true)], []⟩ := rfl

theorem Cut.put_bytes (b : Byte) : (c.put b).bytes = c.bytes ++ [b] := by
  unfold Cut.put Cut.bytes
  split <;> simp

theorem foldl_put_bytes (bs : List Byte) : (bs.foldl Cut.put c).bytes = c.bytes ++ bs := by
  induction bs generalizing c with
  | nil => rw [List.foldl_nil, List.append_nil]
  | cons b bs ih =>
    rw [List.foldl_cons, ih, Cut.put_bytes, List.append_assoc, List.singleton_append]

theorem Cut.call_bytes (call : Call) : (c.call call).bytes = c.bytes ++ call.bytes := by
  cases call with
  | wwrite buffer => exact foldl_put_bytes buffer
  | wflush =>
    rw [Cut.call_wflush, Call.bytes, List.append_nil]
    split
    · rfl
    · simp [Cut.bytes]

theorem cut_bytes (calls : List Call) : (cut calls).bytes = callBytes calls := by
  induction calls using List.reverseRecOn with
  | nil => rfl
  | append_singleton calls call ih =>
    rw [cut_append, List.foldl_cons, List.foldl_nil, Cut.call_bytes, ih, callBytes_append]
    simp [callBytes]

/-- No slot is larger than the output buffer, which is not full. -/
structure Cut.Fits (c : Cut) : Prop where
  handed : ∀ slot ∈ c.handed, slot.1.length ≤ wandioBufferSize
  pending : c.pending.length < wandioBufferSize

theorem Cut.Fits.put (h : c.Fits) (b : Byte) : (c.put b).Fits := by
  have hpending := h.pending
  unfold Cut.put
  split
  · next hfull =>
    refine ⟨fun slot hslot => ?_, Nat.zero_lt_succ _⟩
    rcases List.mem_append.mp hslot with hold | hnew
    · exact h.handed slot hold
    · rw [List.mem_singleton.mp hnew, List.length_append, List.length_singleton]
      omega
  · next hfree =>
    refine ⟨h.handed, ?_⟩
    show (c.pending ++ [b]).length < wandioBufferSize
    rw [List.length_append, List.length_singleton]
    omega

theorem Cut.Fits.call (h : c.Fits) (call : Call) : (c.call call).Fits := by
  cases call with
  | wwrite buffer =>
    show (buffer.foldl Cut.put c).Fits
    induction buffer generalizing c with
    | nil => exact h
    | cons b buffer ih => exact ih (h.put b)
  | wflush =>
    rw [Cut.call_wflush]
    split
    · exact h
    · refine ⟨fun slot hslot => ?_, Nat.zero_lt_succ _⟩
      rcases List.mem_append.mp hslot with hold | hnew
      · exact h.handed slot hold
      · rw [List.mem_singleton.mp hnew]
        exact h.pending.le

/-- The output buffer is not full between two bytes. -/
theorem foldl_put_length (bs : List Byte) (h : c.pending.length < wandioBufferSize) :
    (bs.foldl Cut.put c).pending.length = (c.pending.length + bs.length) % wandioBufferSize := by
  induction bs generalizing c with
  | nil =>
    rw [List.foldl_nil, List.length_nil, Nat.add_zero, Nat.mod_eq_of_lt h]
  | cons b bs ih =>
    have hput : (c.put b).pending.length = (c.pending.length + 1) % wandioBufferSize := by
      unfold Cut.put
      split
      · next hfull => rw [hfull, Nat.mod_self, List.length_nil]
      · rw [Nat.mod_eq_of_lt (by omega), List.length_append, List.length_singleton]
    have hlt : (c.put b).pending.length < wandioBufferSize := by
      rw [hput]
      exact Nat.mod_lt _ (by decide)
    rw [List.foldl_cons, ih hlt, hput, Nat.mod_add_mod, List.length_cons]
    congr 1
    omega

/-- What is in the output buffer. -/
theorem pending_length (calls : List Call) :
    (cut calls).pending.length = unflushed calls % wandioBufferSize := by
  induction calls using List.reverseRecOn with
  | nil => rfl
  | append_singleton calls call ih =>
    have hlt : (cut calls).pending.length < wandioBufferSize := by
      rw [ih]
      exact Nat.mod_lt _ (by decide)
    rw [cut_append, List.foldl_cons, List.foldl_nil, unflushed, List.foldl_append]
    cases call with
    | wwrite buffer =>
      show (buffer.foldl Cut.put (cut calls)).pending.length =
        (unflushed calls + buffer.length) % wandioBufferSize
      rw [foldl_put_length buffer hlt, ih, Nat.mod_add_mod]
    | wflush =>
      show ((cut calls).call .wflush).pending.length = 0 % wandioBufferSize
      rw [Cut.call_wflush]
      split
      · next hnil => rw [hnil, List.length_nil, Nat.zero_mod]
      · rfl

theorem pending_eq_nil_iff (calls : List Call) :
    (cut calls).pending = [] ↔ wandioBufferSize ∣ unflushed calls := by
  rw [← List.length_eq_zero_iff, pending_length, Nat.dvd_iff_mod_eq_zero]

/-! ## The slots that are flushed -/

/-- Slots that are full are handed over without a flush. -/
theorem foldl_put_handed (bs : List Byte) :
    ∃ more, (bs.foldl Cut.put c).handed = c.handed ++ more ∧ ∀ slot ∈ more, slot.2 = false := by
  induction bs generalizing c with
  | nil => exact ⟨[], by rw [List.foldl_nil, List.append_nil], nofun⟩
  | cons b bs ih =>
    obtain ⟨more, hmore, hfalse⟩ := ih (c := c.put b)
    rw [List.foldl_cons, hmore]
    unfold Cut.put
    split
    · refine ⟨(c.pending ++ [b], false) :: more, by simp, fun slot hslot => ?_⟩
      rcases List.mem_cons.mp hslot with rfl | hslot
      · rfl
      · exact hfalse slot hslot
    · exact ⟨more, rfl, hfalse⟩

theorem foldl_call_handed (calls : List Call) :
    ∃ more, (calls.foldl Cut.call c).handed = c.handed ++ more := by
  induction calls generalizing c with
  | nil => exact ⟨[], by rw [List.foldl_nil, List.append_nil]⟩
  | cons call calls ih =>
    obtain ⟨more, hmore⟩ := ih (c := c.call call)
    rw [List.foldl_cons, hmore]
    cases call with
    | wwrite buffer =>
      obtain ⟨full, hfull, _⟩ := foldl_put_handed (c := c) buffer
      exact ⟨full ++ more, by rw [Cut.call, hfull, List.append_assoc]⟩
    | wflush =>
      rw [Cut.call_wflush]
      split
      · exact ⟨more, rfl⟩
      · exact ⟨(c.pending, true) :: more, by simp⟩

/-- One list in two ways: an entry is in the first part or in the second. -/
theorem mem_of_append_eq {α : Type*} {xs ys hs hs' : List α} {x : α}
    (h : xs ++ ys = hs ++ x :: hs') :
    (∃ rest, xs = hs ++ x :: rest) ∨ ∃ rest, hs = xs ++ rest ∧ ys = rest ++ x :: hs' := by
  -- one of the two first parts is a prefix of the other
  rcases List.append_eq_append_iff.mp h with ⟨rest, hhs, hys⟩ | ⟨rest, hxs, hrest⟩
  · exact .inr ⟨rest, hhs, hys⟩
  · cases rest with
    | nil =>
      rw [List.append_nil] at hxs
      rw [List.nil_append] at hrest
      exact .inr ⟨[], by rw [hxs, List.append_nil], by rw [List.nil_append, hrest]⟩
    | cons y rest =>
      rw [List.cons_append, List.cons.injEq] at hrest
      exact .inl ⟨rest, by rw [hxs, hrest.1]⟩

/-- A slot that is handed over with a flush comes from a `thread_wflush`. -/
theorem wflush_of_handed (calls : List Call) {hs hs' : List (List Byte × Bool)} {x : List Byte}
    (h : (cut calls).handed = hs ++ (x, true) :: hs') :
    ∃ before after, calls = before ++ .wflush :: after ∧ (cut before).pending ≠ [] ∧
      callBytes before = hs.flatMap Prod.fst ++ x := by
  induction calls using List.reverseRecOn generalizing hs hs' with
  | nil =>
    have hnil : [] = hs ++ (x, true) :: hs' := h
    simp at hnil
  | append_singleton calls call ih =>
    have hold : ∀ {rest}, (cut calls).handed = hs ++ (x, true) :: rest →
        ∃ before after, calls ++ [call] = before ++ .wflush :: after ∧
          (cut before).pending ≠ [] ∧ callBytes before = hs.flatMap Prod.fst ++ x := by
      intro rest hrest
      obtain ⟨before, after, rfl, hne, hbytes⟩ := ih hrest
      exact ⟨before, after ++ [call], by simp, hne, hbytes⟩
    rw [cut_append, List.foldl_cons, List.foldl_nil] at h
    cases call with
    | wwrite buffer =>
      obtain ⟨more, hmore, hfalse⟩ := foldl_put_handed (c := cut calls) buffer
      rw [Cut.call, hmore] at h
      -- the slots of a write are not flushed
      rcases mem_of_append_eq h with ⟨rest, hrest⟩ | ⟨rest, _, rfl⟩
      · exact hold hrest
      · have hflag := hfalse (x, true) (by simp)
        contradiction
    | wflush =>
      rw [Cut.call_wflush] at h
      split at h
      · exact hold h
      · next hne =>
        rcases mem_of_append_eq h with ⟨rest, hrest⟩ | ⟨rest, hhs, hslot⟩
        · exact hold hrest
        · -- the slot is the one of this flush
          cases rest with
          | nil =>
            rw [List.nil_append, List.cons.injEq, Prod.mk.injEq] at hslot
            rw [List.append_nil] at hhs
            refine ⟨calls, [], rfl, hne, ?_⟩
            rw [← cut_bytes, Cut.bytes, hhs, hslot.1.1]
          | cons y rest => simp at hslot

end Cut

/-! ## The operations that are flushes -/

section Ops

variable {calls all before after : List Call} {bytes : List Byte}

theorem childBytes_slotOps (handed : List (List Byte × Bool)) :
    childBytes (handed.flatMap slotOps) = handed.flatMap Prod.fst := by
  induction handed with
  | nil => rfl
  | cons slot handed ih =>
    have hslot : childBytes (slotOps slot) = slot.1 := by
      unfold slotOps
      split <;> simp [childBytes, ChildOp.payload]
    rw [List.flatMap_cons, childBytes_append, ih, hslot, List.flatMap_cons]

theorem wflush_notMem_lastOps (bytes : List Byte) : .wflush ∉ lastOps bytes := by
  unfold lastOps
  split <;> simp

/-- A flush among the operations for slots. -/
theorem flushed_slot (handed : List (List Byte × Bool)) {last ops ops' : List ChildOp}
    (hlast : .wflush ∉ last) (h : handed.flatMap slotOps ++ last = ops ++ .wflush :: ops') :
    ∃ hs x hs', handed = hs ++ (x, true) :: hs' ∧ childBytes ops = hs.flatMap Prod.fst ++ x := by
  induction handed generalizing ops with
  | nil =>
    have hmem : ChildOp.wflush ∈ last := by
      rw [List.flatMap_nil, List.nil_append] at h
      simp [h]
    exact absurd hmem hlast
  | cons slot handed ih =>
    rw [List.flatMap_cons, List.append_assoc] at h
    rcases mem_of_append_eq h with ⟨rest, hslot⟩ | ⟨rest, rfl, hrest⟩
    · -- the flush of the first slot
      refine ⟨[], slot.1, handed, ?_, ?_⟩
      · unfold slotOps at hslot
        split at hslot
        · next htrue => rw [← htrue, List.nil_append]
        · cases ops <;> simp at hslot
      · unfold slotOps at hslot
        split at hslot
        · cases ops with
          | nil => simp at hslot
          | cons op ops =>
            rw [List.cons_append, List.cons.injEq] at hslot
            cases ops with
            | nil => simp [← hslot.1, childBytes, ChildOp.payload]
            | cons op' ops => simp at hslot
        · cases ops <;> simp at hslot
    · obtain ⟨hs, x, hs', rfl, hbytes⟩ := ih hrest
      refine ⟨slot :: hs, x, hs', rfl, ?_⟩
      have hslot : childBytes (slotOps slot) = slot.1 := by
        simpa using childBytes_slotOps [slot]
      rw [childBytes_append, hbytes, hslot, List.flatMap_cons, List.append_assoc]

/-- The flush of a slot. -/
theorem flushedAt_of_pending (hne : (cut before).pending ≠ []) :
    FlushedAt (cut (before ++ .wflush :: after)).ops (callBytes before) := by
  set c := cut before with hc
  have hcall : c.call .wflush = ⟨c.handed ++ [(c.pending, true)], []⟩ := if_neg hne
  obtain ⟨more, hmore⟩ := foldl_call_handed (c := c.call .wflush) after
  -- the slot that this flush hands over is behind those before it
  refine ⟨c.handed.flatMap slotOps ++ [.wwrite c.pending],
    more.flatMap slotOps ++ lastOps (cut (before ++ .wflush :: after)).pending, ?_, ?_⟩
  · have hhanded : (cut (before ++ .wflush :: after)).handed =
        (c.handed ++ [(c.pending, true)]) ++ more := by
      rw [cut_append, List.foldl_cons, ← hc, hmore, hcall]
    rw [Cut.ops, hhanded]
    simp [slotOps]
  · rw [childBytes_append, childBytes_slotOps, ← cut_bytes]
    simp [childBytes, ChildOp.payload, Cut.bytes, hc]

/-- No other flush reaches the child. -/
theorem pending_of_flushedAt (h : FlushedAt (cut all).ops bytes) :
    ∃ before after, all = before ++ .wflush :: after ∧ (cut before).pending ≠ [] ∧
      callBytes before = bytes := by
  obtain ⟨ops, ops', hops, hbytes⟩ := h
  obtain ⟨hs, x, hs', hhanded, hslots⟩ :=
    flushed_slot (cut all).handed (wflush_notMem_lastOps _) hops
  rw [← hbytes, hslots]
  exact wflush_of_handed all hhanded

/-- The child is destroyed at the end. -/
theorem flushedAt_wdestroy (ops : List ChildOp) :
    FlushedAt (ops ++ [.wdestroy]) bytes ↔ FlushedAt ops bytes := by
  constructor
  · rintro ⟨before, after, hops, hbytes⟩
    rcases mem_of_append_eq hops with ⟨rest, hrest⟩ | ⟨rest, _, hrest⟩
    · exact ⟨before, rest, hrest, hbytes⟩
    · cases rest <;> simp at hrest
  · rintro ⟨before, after, rfl, hbytes⟩
    exact ⟨before, after ++ [.wdestroy], by simp, hbytes⟩

/-! ## What is written between flushes -/

theorem unflushed_append_wwrite (buffer : List Byte) :
    unflushed (calls ++ [.wwrite buffer]) = unflushed calls + buffer.length := by
  rw [unflushed, List.foldl_append]
  rfl

theorem unflushed_le (calls : List Call) : unflushed calls ≤ (callBytes calls).length := by
  induction calls using List.reverseRecOn with
  | nil => exact Nat.le_refl _
  | append_singleton calls call ih =>
    rw [callBytes_append, List.length_append]
    cases call with
    | wwrite buffer =>
      rw [unflushed_append_wwrite]
      simp [callBytes, Call.bytes] at ih ⊢
      omega
    | wflush =>
      rw [unflushed, List.foldl_append]
      exact Nat.zero_le _

/-- Nothing is written behind a flush. -/
theorem unflushed_eq_zero (hafter : callBytes after = []) :
    unflushed (before ++ .wflush :: after) = 0 := by
  have hzero : unflushed after = 0 := by
    have hle := unflushed_le after
    rw [hafter] at hle
    exact Nat.le_zero.mp hle
  rw [unflushed, List.foldl_append, List.foldl_cons]
  exact hzero

/-- Something has been written, and nothing since the last flush. -/
theorem exists_wflush (hzero : unflushed calls = 0) (hne : callBytes calls ≠ []) :
    ∃ before after, calls = before ++ .wflush :: after ∧ callBytes after = [] := by
  induction calls using List.reverseRecOn with
  | nil => exact absurd rfl hne
  | append_singleton calls call ih =>
    cases call with
    | wflush => exact ⟨calls, [], rfl, rfl⟩
    | wwrite buffer =>
      rw [unflushed_append_wwrite] at hzero
      obtain rfl : buffer = [] := List.eq_nil_of_length_eq_zero (by omega)
      rw [callBytes_append] at hne
      obtain ⟨before, after, rfl, hafter⟩ := ih (by simpa using hzero)
        (by simpa [callBytes, Call.bytes] using hne)
      refine ⟨before, after ++ [.wwrite []], by simp, ?_⟩
      rw [callBytes_append, hafter]
      rfl

/-- No flush finds that the bytes since the one before have just filled a slot. -/
def FlushesOff (all : List Call) : Prop :=
  ∀ before after, all = before ++ .wflush :: after →
    unflushed before = 0 ∨ ¬ wandioBufferSize ∣ unflushed before

theorem flushedAt_of_flushesOff (h : FlushesOff all) (hall : all = before ++ .wflush :: after)
    (hne : callBytes before ≠ []) : FlushedAt (cut all).ops (callBytes before) := by
  induction hn : before.length using Nat.strong_induction_on generalizing before after with
  | _ n ih =>
    -- nothing since the flush before, or something in the output buffer
    rcases h before after hall with hzero | hdvd
    · -- an earlier flush serves for this one
      obtain ⟨before', after', rfl, hafter⟩ := exists_wflush hzero hne
      have hbytes : callBytes (before' ++ .wflush :: after') = callBytes before' := by
        have hflush : callBytes (.wflush :: after') = callBytes after' := rfl
        rw [callBytes_append, hflush, hafter, List.append_nil]
      rw [hbytes] at hne ⊢
      have hall' : all = before' ++ .wflush :: (after' ++ .wflush :: after) := by
        rw [hall, List.append_assoc]
        rfl
      refine ih before'.length ?_ hall' hne rfl
      rw [← hn, List.length_append, List.length_cons]
      omega
    · rw [hall]
      exact flushedAt_of_pending (fun hnil => hdvd ((pending_eq_nil_iff before).mp hnil))

theorem flushesOff_of_flushedAt
    (h : ∀ before after, all = before ++ .wflush :: after → callBytes before ≠ [] →
      FlushedAt (cut all).ops (callBytes before)) : FlushesOff all := by
  intro before after hall
  by_contra hlost
  push Not at hlost
  -- a flush with something to do that finds the output buffer empty
  obtain ⟨hpos, hdvd⟩ := hlost
  have hne : callBytes before ≠ [] := by
    intro hnil
    have hle := unflushed_le before
    rw [hnil] at hle
    exact hpos (Nat.le_zero.mp hle)
  obtain ⟨before', after', hall', hpending, hbytes⟩ :=
    pending_of_flushedAt (h before after hall hne)
  have hnil := (pending_eq_nil_iff before).mpr hdvd
  rw [hall] at hall'
  -- the flush that reaches the child behind these bytes is this one, an earlier or a later one
  rcases List.append_eq_append_iff.mp hall' with ⟨rest, rfl, hrest⟩ | ⟨rest, rfl, hrest⟩
  · cases rest with
    | nil =>
      rw [List.append_nil] at hpending
      exact hpending hnil
    | cons call rest =>
      rw [List.cons_append, List.cons.injEq] at hrest
      obtain ⟨rfl, _⟩ := hrest
      have hflush : callBytes (.wflush :: rest) = callBytes rest := rfl
      rw [callBytes_append, hflush, List.append_right_eq_self] at hbytes
      apply hpending
      rw [pending_eq_nil_iff, unflushed_eq_zero hbytes]
      exact dvd_zero _
  · cases rest with
    | nil =>
      rw [List.append_nil] at hnil
      exact hpending hnil
    | cons call rest =>
      rw [List.cons_append, List.cons.injEq] at hrest
      obtain ⟨rfl, _⟩ := hrest
      have hflush : callBytes (.wflush :: rest) = callBytes rest := rfl
      rw [callBytes_append, hflush, eq_comm, List.append_right_eq_self] at hbytes
      exact hpos (unflushed_eq_zero hbytes)

end Ops

/-- In every run that ends: each `thread_wflush` behind at least one byte has brought the child
a flush behind all bytes written before it and in front of all others, if and only if at each
the number of bytes written since the one before is zero or no multiple of the size of a
slot. -/
theorem flush_reaches_child_iff (all : List Call) (s : State) (h : Reachable (system all) s)
    (hclosed : s.caller = .closed) :
    (∀ before after, all = before ++ .wflush :: after → callBytes before ≠ [] →
      FlushedAt s.child (callBytes before)) ↔
    ∀ before after, all = before ++ .wflush :: after →
      unflushed before = 0 ∨ ¬ wandioBufferSize ∣ unflushed before := by
  rw [child_eq_cut h hclosed]
  simp only [flushedAt_wdestroy]
  constructor
  · exact fun hflushed => flushesOff_of_flushedAt hflushed
  · exact fun hoff before after hall hne => flushedAt_of_flushesOff hoff hall hne

theorem flush_reaches_child_iff_flushed : ∃ s, Reachable (system flushedCalls) s ∧
    s.caller = .closed ∧ FlushedAt s.child [1, 2] := by
  obtain ⟨s, hs, hp⟩ := exists_reachable_of_exec (system flushedCalls) lazySchedule
    (fun s => s.caller = .closed) (by decide)
  have hclosed : s.caller = .closed := by simpa using hp
  refine ⟨s, hs, hclosed, (flush_reaches_child_iff flushedCalls s hs hclosed).mpr ?_
    [.wwrite [1, 2]] [.wwrite [3]] rfl (by decide)⟩
  intro before after hall
  rcases before with _ | ⟨call, _ | ⟨call', _ | ⟨call'', before⟩⟩⟩
  · exact .inl rfl
  · right
    obtain rfl : call = .wwrite [1, 2] := by simp [flushedCalls] at hall; exact hall.1.symm
    decide
  · simp [flushedCalls] at hall
  · simp [flushedCalls] at hall

/-- The caller fills a slot, flushes and closes before the consumer begins. -/
theorem exec_full {block : List Byte} (hlength : block.length = wandioBufferSize) :
    ∃ t, exec (system [.wwrite block, .wflush]) (threadWopen [.wwrite block, .wflush])
      (List.replicate 5 .caller) = some t ∧ t.caller = .joining ∧ t.consumer = .start ∧
      t.index = 0 ∧ t.closing = true ∧ 0 < (t.buffer 0).len ∧ (t.buffer 1).len = 0 := by
  have hpos : 0 < wandioBufferSize := by decide
  simp [exec, system, step, callerStep, threadWopen, wwriteLoop, wwriteSpace, hlength, hpos,
    State.out, wwriteCopy, wwriteAdvance, wwriteCommit, State.setOut, State.setSlot,
    State.signalDataReady, ConsumerPc.signal, State.return, threadWflush, threadWclose,
    buffers, List.replicate]

/-- The consumer of a closing writer empties the first slot and ends at the second. -/
theorem exec_closing (calls : List Call) {t : State} (hcaller : t.caller = .joining)
    (hstart : t.consumer = .start) (hindex : t.index = 0) (hcl : t.closing = true)
    (hlen : 0 < (t.buffer 0).len) (hzero : (t.buffer 1).len = 0) :
    ∃ u, exec (system calls) t (List.replicate 7 .consumer ++ [.caller]) = some u ∧
      u.caller = .closed := by
  simp [exec, system, step, callerStep, consumerStep, consumerLoop, consumerWrite, consumerFlush,
    consumerRelock, consumerRelease, State.signalSpaceAvail, CallerPc.signal, State.setSlot,
    buffers, List.replicate, hcaller, hstart, hindex, hcl, hlen, hzero]

/-- A slot is filled and then flushed: the child gets its bytes and no flush. -/
theorem child_of_full {block : List Byte} (hlength : block.length = wandioBufferSize) :
    ∃ s, Reachable (system [.wwrite block, .wflush]) s ∧ s.caller = .closed ∧
      s.child = [.wwrite block, .wdestroy] := by
  have hpos : 0 < wandioBufferSize := by decide
  obtain ⟨t, ht, hcaller, hstart, hindex, hcl, hlen, hzero⟩ := exec_full hlength
  obtain ⟨s, hrun, hclosed⟩ := exec_closing [.wwrite block, .wflush] hcaller hstart
    hindex hcl hlen hzero
  have hs : Reachable (system [.wwrite block, .wflush]) s := (Reachable.init.exec ht).exec hrun
  refine ⟨s, hs, hclosed, ?_⟩
  have hne : block ≠ [] := by
    apply List.ne_nil_of_length_pos
    omega
  have hput : block.foldl Cut.put ⟨[], []⟩ = ⟨[(block, false)], []⟩ :=
    foldl_put_eq (c := ⟨[], []⟩) (by simpa using hlength) hne
  have hcut : cut [.wwrite block, .wflush] = ⟨[(block, false)], []⟩ := by
    show (block.foldl Cut.put ⟨[], []⟩).call .wflush = _
    rw [hput]
    rfl
  rw [child_eq_cut hs hclosed, hcut]
  rfl

/-- A slot full of zeros. -/
def zeros : List Byte := List.replicate wandioBufferSize 0

/-- The child gets the zeros and is not flushed. -/
theorem flush_lost : ∃ s, Reachable (system [.wwrite zeros, .wflush]) s ∧ s.caller = .closed ∧
    callBytes [.wwrite zeros] ≠ [] ∧ ¬ FlushedAt s.child (callBytes [.wwrite zeros]) := by
  have hlength : zeros.length = wandioBufferSize := List.length_replicate
  obtain ⟨s, hs, hclosed, hchild⟩ := child_of_full hlength
  refine ⟨s, hs, hclosed, ?_, ?_⟩
  · intro hnil
    have hzero := congrArg List.length hnil
    simp only [callBytes, Call.bytes, List.flatMap_cons, List.flatMap_nil, List.append_nil,
      hlength, List.length_nil] at hzero
    exact absurd hzero (by decide)
  · rintro ⟨before, after, hops, _⟩
    have hmem : ChildOp.wflush ∈ s.child := by rw [hops]; simp
    rw [hchild] at hmem
    simp at hmem

end Wandio.ThreadWriter
