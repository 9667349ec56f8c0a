import Wandio.ThreadReader.RingTheorems

/-!
# Delivery by the threaded reader

The invariant of a whole run joins the ring with the caller: what the calls have returned,
and what the running one has copied, is the parent's stream up to the caller's place in the
oldest slot.
-/

namespace Wandio.ThreadReader

open Loop Transition RingBuffer

/-! ## The stream of a parent -/

theorem bytesUpTo_succ (parent : ℕ → ReadResult) (k : ℕ) :
    bytesUpTo parent (k + 1) = bytesUpTo parent k ++ (parent k).data := by
  simp [bytesUpTo, List.range_succ]

theorem bytesUpTo_mono (parent : ℕ → ReadResult) {k m : ℕ} (h : k ≤ m) :
    bytesUpTo parent k <+: bytesUpTo parent m := by
  induction m, h using Nat.le_induction with
  | base => exact List.prefix_rfl
  | succ m _ ih =>
    rw [bytesUpTo_succ]
    exact ih.trans (List.prefix_append _ _)

theorem Live.le_of_ends {parent : ℕ → ReadResult} {k m : ℕ} (hk : Live parent k)
    (hm : Ends parent m) : k ≤ m := by
  by_contra hlt
  have hpos := hk m (by omega)
  have hend := hm.2
  omega

/-- A parent ends once. -/
theorem Ends.unique {parent : ℕ → ReadResult} {k m : ℕ} (hk : Ends parent k)
    (hm : Ends parent m) : k = m :=
  le_antisymm (hk.1.le_of_ends hm) (hm.1.le_of_ends hk)

@[simp] theorem delivered_append (log log' : List (ℕ × ReadResult)) :
    delivered (log ++ log') = delivered log ++ delivered log' := List.flatMap_append

@[simp] theorem delivered_singleton (len : ℕ) (r : ReadResult) :
    delivered [(len, r)] = r.data := by simp [delivered]

section CallOk

variable {parent : ℕ → ReadResult} {before out : List Byte} {len k : ℕ}

/-- A call that returns all it was asked for. -/
theorem CallOk.of_full (hk : Live parent k) (hpre : before ++ out <+: bytesUpTo parent k)
    (hlen : out.length = len) : CallOk parent before len ⟨len, out⟩ where
  written _ := by simp only [hlen]
  none_written h := by
    have hz : out.length = 0 := by
      simp only at h
      omega
    exact List.eq_nil_of_length_eq_zero hz
  stream := ⟨k, hk, hpre⟩
  short h := by
    simp only at h
    omega
  le := le_rfl
  terminal hpos m hm hbefore := by
    -- nothing is left after the end
    exfalso
    have hle := (hpre.trans (bytesUpTo_mono parent (hk.le_of_ends hm))).length_le
    rw [hbefore, List.length_append] at hle
    omega

/-- A call that comes to the end: it returns what it has got, or the terminal value. -/
theorem CallOk.of_end (hk : Ends parent k) (hall : before ++ out = bytesUpTo parent k)
    (hlen : out.length < len) :
    CallOk parent before len
      ⟨if (out.length : ℤ) < 1 then (parent k).ret else out.length, out⟩ := by
  have hterm := hk.2
  by_cases hout : (out.length : ℤ) < 1
  · have hnil : out = [] := List.eq_nil_of_length_eq_zero (by omega)
    simp only [hout, if_true]
    refine ⟨?_, ?_, ⟨k, hk.1, hall ▸ List.prefix_rfl⟩, ?_, ?_, ?_⟩
    · intro h
      simp only at h
      omega
    · exact fun _ => hnil
    · exact fun _ => ⟨k, hk, hall⟩
    · simp only
      omega
    · intro _ m hm _
      rw [hk.unique hm]
  · simp only [hout, if_false]
    refine ⟨fun _ => rfl, ?_, ⟨k, hk.1, hall ▸ List.prefix_rfl⟩, fun _ => ⟨k, hk, hall⟩, ?_, ?_⟩
    · intro h
      simp only at h
      omega
    · simp only
      omega
    · intro _ m hm hbefore
      exfalso
      have hlen := congrArg List.length hall
      rw [hbefore, hm.unique hk, List.length_append] at hlen
      omega

/-- How `thread_read(len)` returns, when `before` has been delivered: with all bytes that it was
asked for, or at the end of the data. Its `int` counts them. -/
inductive Answered (parent : ℕ → ReadResult) (before : List Byte) (len : ℕ) : ReadResult → Prop
  | full {k : ℕ} {out : List Byte} (hk : Live parent k)
      (hpre : before ++ out <+: bytesUpTo parent k) (hlen : out.length = len) :
      Answered parent before len ⟨cInt out.length, out⟩
  | ended {k : ℕ} {out : List Byte} (hk : Ends parent k)
      (hall : before ++ out = bytesUpTo parent k) (hlen : out.length < len) :
      Answered parent before len
        ⟨if cInt out.length < 1 then (parent k).ret else cInt out.length, out⟩

variable {r : ReadResult}

theorem Answered.length_le (h : Answered parent before len r) : r.data.length ≤ len := by
  cases h with
  | full hk hpre hlen => exact hlen.le
  | ended hk hall hlen => exact hlen.le

/-- What is delivered is a part of the parent's stream. -/
theorem Answered.stream (h : Answered parent before len r) :
    ∃ k, Live parent k ∧ before ++ r.data <+: bytesUpTo parent k := by
  cases h with
  | @full k _ hk hpre hlen => exact ⟨k, hk, hpre⟩
  | @ended k _ hk hall hlen => exact ⟨k, hk.1, hall ▸ List.prefix_rfl⟩

/-- A call whose length fits its `int` keeps its promises. -/
theorem Answered.callOk (h : Answered parent before len r) (hsmall : len < 2 ^ 31) :
    CallOk parent before len r := by
  cases h with
  | full hk hpre hlen =>
    rw [cInt_of_lt (by omega), hlen]
    exact CallOk.of_full hk hpre hlen
  | ended hk hall hlen =>
    rw [cInt_of_lt (by omega)]
    exact CallOk.of_end hk hall hlen

end CallOk

/-! ## The invariant -/

/-- The first of the calls is running: it has copied `out` and has `len` bytes to go. -/
structure InRead (calls : List ℕ) (len : ℕ) (out : List Byte) (copied : ℤ) : Prop where
  calls_eq : ∃ tl, calls = (len + out.length) :: tl
  copied_eq : copied = cInt out.length

/-- The caller is at byte `place` of read `head`; `total` is what it has got so far. -/
structure At (parent : ℕ → ReadResult) (head k place : ℕ) (total : List Byte) : Prop where
  total_eq : total = bytesUpTo parent head ++ (parent head).data.take place
  place_le : place = 0 ∨ (0 < k ∧ 0 < (parent head).ret ∧ place ≤ (parent head).data.length)

/-- Where the caller is in its calls, by its program counter. -/
def Progress (parent : ℕ → ReadResult) (s : State) (head k : ℕ) : CallerPc → Prop
  | .idle => s.closing = false ∧ At parent head k s.offset (delivered s.log)
  | .loop =>
    s.closing = false ∧ At parent head k s.offset (delivered s.log ++ s.out) ∧
      InRead s.calls s.len s.out s.copied
  | .waitData _ =>
    s.closing = false ∧ At parent head k s.offset (delivered s.log ++ s.out) ∧
      InRead s.calls s.len s.out s.copied ∧ 0 < s.len
  | .copying slice =>
    s.closing = false ∧ At parent head k s.offset (delivered s.log ++ s.out) ∧
      InRead s.calls s.len s.out s.copied ∧
      0 < slice ∧ slice ≤ s.len ∧ 0 < k ∧ 0 < (parent head).ret ∧
      s.offset + slice ≤ (parent head).data.length
  | .copied slice =>
    s.closing = false ∧ At parent head k (s.offset + slice) (delivered s.log ++ s.out) ∧
      InRead s.calls s.len s.out s.copied ∧ 0 < slice ∧ 0 < k ∧ 0 < (parent head).ret
  | .joining => s.closing = true
  | .closed => s.closing = true

/-- The invariant of every run. -/
structure Inv (n : ℕ) (parent : ℕ → ReadResult) (lens : List ℕ) (s : State) (head k : ℕ) :
    Prop where
  ring : Ring n parent s head k
  inside : s.offset = 0 ∨ s.offset < (parent head).data.length
  lens_eq : lens = s.log.map Prod.fst ++ s.calls
  log : Each (fun before e => Answered parent (delivered before) e.1 e.2) s.log
  progress : Progress parent s head k s.caller

/-- More slots may be full without any change to the caller's place. -/
theorem At.mono {parent : ℕ → ReadResult} {head k k' place : ℕ} {total : List Byte}
    (h : At parent head k place total) (hk : k ≤ k') : At parent head k' place total :=
  ⟨h.total_eq, h.place_le.imp id fun ⟨h1, h2, h3⟩ => ⟨by omega, h2, h3⟩⟩

/-- What a step of the producer may do to the caller: nothing but wake it up. -/
structure CallerFrame (s t : State) : Prop where
  closing : t.closing = s.closing
  offset : t.offset = s.offset
  log : t.log = s.log
  out : t.out = s.out
  calls : t.calls = s.calls
  len : t.len = s.len
  copied : t.copied = s.copied
  caller : t.caller = s.caller ∨ t.caller = s.caller.signal

theorem CallerFrame.trans {s t u : State} (h : CallerFrame s t) (h' : CallerFrame t u) :
    CallerFrame s u := by
  refine ⟨h'.closing.trans h.closing, h'.offset.trans h.offset, h'.log.trans h.log,
    h'.out.trans h.out, h'.calls.trans h.calls, h'.len.trans h.len, h'.copied.trans h.copied, ?_⟩
  have hsignal : ∀ pc : CallerPc, pc.signal.signal = pc.signal := fun pc => by cases pc <;> rfl
  rcases h.caller with h1 | h1 <;> rcases h'.caller with h2 | h2 <;> rw [h2, h1] <;>
    simp [hsignal]

theorem producerExit_frame (s : State) : CallerFrame s (producerExit s) :=
  ⟨rfl, rfl, rfl, rfl, rfl, rfl, rfl, .inr rfl⟩

theorem producerLoop_frame (s : State) : CallerFrame s (producerLoop s) := by
  unfold producerLoop
  split
  · exact ⟨rfl, rfl, rfl, rfl, rfl, rfl, rfl, .inl rfl⟩
  · split
    · exact producerExit_frame s
    · exact ⟨rfl, rfl, rfl, rfl, rfl, rfl, rfl, .inl rfl⟩

theorem producerRead_frame (parent : ℕ → ReadResult) (s : State) :
    CallerFrame s (producerRead parent s) :=
  ⟨rfl, rfl, rfl, rfl, rfl, rfl, rfl, .inl rfl⟩

theorem producerRelock_frame (n : ℕ) (s : State) : CallerFrame s (producerRelock n s) := by
  have hgive : CallerFrame s { (s.setSlot s.index
      { s.buffer s.index with state := .full }).signalDataReady with
      index := (s.index + 1) % n } := ⟨rfl, rfl, rfl, rfl, rfl, rfl, rfl, .inr rfl⟩
  unfold producerRelock
  simp only
  split
  · exact hgive.trans (producerLoop_frame _)
  · exact hgive.trans (producerExit_frame _)

/-- Steps of the producer do not change the caller's progress, but for a wake-up. -/
theorem Progress.producer {parent : ℕ → ReadResult} {s t : State} {head k k' : ℕ} {pc : CallerPc}
    (h : Progress parent s head k pc) (hk : k ≤ k') (hf : CallerFrame s t) :
    Progress parent t head k' pc := by
  have hin : InRead s.calls s.len s.out s.copied → InRead t.calls t.len t.out t.copied := by
    rw [hf.calls, hf.len, hf.out, hf.copied]
    exact id
  have hat : ∀ {place total}, At parent head k place total → At parent head k' place total :=
    fun ha => ha.mono hk
  cases pc with
  | idle =>
    obtain ⟨h1, h2⟩ := h
    exact ⟨hf.closing.trans h1, by rw [hf.offset, hf.log]; exact hat h2⟩
  | loop =>
    obtain ⟨h1, h2, h3⟩ := h
    exact ⟨hf.closing.trans h1, by rw [hf.offset, hf.log, hf.out]; exact hat h2, hin h3⟩
  | waitData signalled =>
    obtain ⟨h1, h2, h3, h4⟩ := h
    exact ⟨hf.closing.trans h1, by rw [hf.offset, hf.log, hf.out]; exact hat h2, hin h3,
      by rw [hf.len]; exact h4⟩
  | copying slice =>
    obtain ⟨h1, h2, h3, h4, h5, h6, h7, h8⟩ := h
    exact ⟨hf.closing.trans h1, by rw [hf.offset, hf.log, hf.out]; exact hat h2, hin h3, h4,
      by rw [hf.len]; exact h5, by omega, h7, by rw [hf.offset]; exact h8⟩
  | copied slice =>
    obtain ⟨h1, h2, h3, h4, h5, h6⟩ := h
    exact ⟨hf.closing.trans h1, by rw [hf.offset, hf.log, hf.out]; exact hat h2, hin h3, h4,
      by omega, h6⟩
  | joining => exact hf.closing.trans h
  | closed => exact hf.closing.trans h

theorem Progress.signal {parent : ℕ → ReadResult} {s : State} {head k : ℕ} {pc : CallerPc}
    (h : Progress parent s head k pc) : Progress parent s head k pc.signal := by
  cases pc <;> exact h

section Steps

variable {n : ℕ} {parent : ℕ → ReadResult} {lens : List ℕ} {s t : State} {head k : ℕ}

/-! ## Steps of the producer -/

/-- A step of the producer that leaves the caller alone. -/
theorem Inv.producer {k' : ℕ} (h : Inv n parent lens s head k) (hring : Ring n parent t head k')
    (hk : k ≤ k') (hf : CallerFrame s t) : Inv n parent lens t head k' := by
  have hprog := h.progress.producer hk hf
  refine ⟨hring, by rw [hf.offset]; exact h.inside, by rw [hf.log, hf.calls]; exact h.lens_eq,
    by rw [hf.log]; exact h.log, ?_⟩
  rcases hf.caller with hpc | hpc
  · rw [hpc]
    exact hprog
  · rw [hpc]
    exact hprog.signal

/-- Every step of the producer keeps the invariant. -/
theorem inv_producerStep (hparent : WellBehaved parent) (h : Inv n parent lens s head k)
    (hs : producerStep n parent s = some t) : ∃ k', Inv n parent lens t head k' := by
  cases producerMove hs with
  | loop hpc =>
    have hring := h.ring.loop (by rcases hpc with hpc | hpc <;> simp [hpc])
      (by rcases hpc with hpc | hpc <;> rw [hpc] <;> rfl)
    exact ⟨k, h.producer hring le_rfl (producerLoop_frame s)⟩
  | read hpc =>
    exact ⟨k, h.producer (h.ring.read hparent hpc) le_rfl (producerRead_frame parent s)⟩
  | relock hpc =>
    exact ⟨k + 1, h.producer (h.ring.handOver hpc) (by omega) (producerRelock_frame n s)⟩

/-! ## Steps of the caller -/

/-- A call returns. -/
theorem inv_return {r : ℤ} (h : Inv n parent lens s head k) (hcl : s.closing = false)
    (hat : At parent head k s.offset (delivered s.log ++ s.out))
    (hin : InRead s.calls s.len s.out s.copied)
    (hok : Answered parent (delivered s.log) (s.len + s.out.length) ⟨r, s.out⟩) :
    Inv n parent lens (s.return r) head k := by
  obtain ⟨tl, hcalls⟩ := hin.calls_eq
  have hlog : (s.return r).log = s.log ++ [(s.len + s.out.length, ⟨r, s.out⟩)] := by
    simp [State.return, hcalls]
  refine ⟨h.ring.congr rfl rfl rfl rfl rfl rfl, h.inside, ?_, ?_, hcl, ?_⟩
  · rw [h.lens_eq, hlog, hcalls]
    simp [State.return, hcalls]
  · rw [hlog]
    exact Each.append h.log hok
  · rw [hlog, delivered_append, delivered_singleton]
    exact hat

/-- The bytes before the caller's place are a part of the parent's stream. -/
theorem At.stream_le {place : ℕ} {total : List Byte} (h : At parent head k place total)
    (hlive : Live parent head) : ∃ m, Live parent m ∧ total <+: bytesUpTo parent m := by
  rcases h.place_le with hz | ⟨_, hret, _⟩
  · have htotal : total = bytesUpTo parent head := by
      rw [h.total_eq, hz, List.take_zero, List.append_nil]
    exact ⟨head, hlive, htotal ▸ List.prefix_rfl⟩
  · refine ⟨head + 1, hlive.succ hret, ?_⟩
    rw [h.total_eq, bytesUpTo_succ]
    exact (List.prefix_append_right_inj _).mpr (List.take_prefix _ _)

/-- The test of the inner `while`, with the mutex held. -/
theorem inv_readSlot (hparent : WellBehaved parent) (h : Inv n parent lens s head k)
    (hcl : s.closing = false) (hat : At parent head k s.offset (delivered s.log ++ s.out))
    (hin : InRead s.calls s.len s.out s.copied) (hlen : 0 < s.len) :
    Inv n parent lens (readSlot s) head k := by
  have hring : ∀ pc, Ring n parent { s with caller := pc } head k := fun _ =>
    h.ring.congr rfl rfl rfl rfl rfl rfl
  unfold readSlot
  split
  · exact ⟨hring _, h.inside, h.lens_eq, h.log, hcl, hat, hin, hlen⟩
  · next hempty =>
    have hk := h.ring.pos_of_inb hempty
    have hholds := (h.ring.full 0 hk).2
    rw [← h.ring.inb_eq, Nat.add_zero] at hholds
    rw [hholds.1]
    split
    · next hret =>
      -- the slot holds the terminal read, and everything before it has been delivered
      have hend : Ends parent head := ⟨h.ring.live_head, by omega⟩
      have hzero : s.offset = 0 := by
        rcases hat.place_le with hz | ⟨_, hpos, _⟩
        · exact hz
        · omega
      have hall : delivered s.log ++ s.out = bytesUpTo parent head := by
        rw [hat.total_eq, hzero, List.take_zero, List.append_nil]
      refine inv_return h hcl hat hin ?_
      rw [hin.copied_eq]
      exact .ended hend hall (by omega)
    · next hret =>
      have hpos : 0 < (parent head).ret := by omega
      have hdata := hparent.data_length head hpos
      have hinside : s.offset < (parent head).data.length := by
        rcases h.inside with hz | hlt
        · omega
        · exact hlt
      refine ⟨hring _, h.inside, h.lens_eq, h.log, hcl, hat, hin, ?_, ?_, hk, hpos, ?_⟩
      · omega
      · simp only
        omega
      · simp only
        omega

/-- A slot that holds a read gives its bytes, wherever the copy starts. -/
theorem Holds.slice {b : BufferT} {r : ReadResult} (h : Holds b r) (hret : 0 < r.ret)
    {offset slice : ℕ} (hle : offset + slice ≤ r.data.length) :
    r.data.take offset ++ (b.space.drop offset).take slice = r.data.take (offset + slice) := by
  rw [List.take_add]
  congr 1
  have hdrop : r.data.drop offset = (b.space.drop offset).take (r.data.length - offset) := by
    conv_lhs => rw [← h.2 hret, List.drop_take]
  rw [hdrop, List.take_take, Nat.min_eq_left (by omega)]

/-- The `memcpy` moves the caller's place and the bytes it has got by a slice. -/
theorem inv_readCopy {slice : ℕ} (h : Inv n parent lens s head k)
    (hp : Progress parent s head k (.copying slice)) :
    Inv n parent lens (readCopy s slice) head k := by
  obtain ⟨hcl, hat, hin, hpos, hle, hk, hret, hroom⟩ := hp
  have hholds := (h.ring.full 0 hk).2
  rw [← h.ring.inb_eq, Nat.add_zero] at hholds
  have hslice := hholds.slice hret hroom
  have hlen : ((s.inb.space.drop s.offset).take slice).length = slice := by
    have := congrArg List.length hslice
    simp only [List.length_append, List.length_take] at this ⊢
    omega
  refine ⟨h.ring.congr rfl rfl rfl rfl rfl rfl, h.inside, h.lens_eq, h.log, hcl, ⟨?_, ?_⟩, ?_,
    hpos, hk, hret⟩
  · show delivered s.log ++ (s.out ++ (s.inb.space.drop s.offset).take slice) = _
    rw [← List.append_assoc, hat.total_eq, List.append_assoc, hslice]
    rfl
  · exact .inr ⟨hk, hret, hroom⟩
  · obtain ⟨⟨tl, hcalls⟩, hcopied⟩ := hin
    have hout : (s.out ++ (s.inb.space.drop s.offset).take slice).length =
        s.out.length + slice := by rw [List.length_append, hlen]
    refine ⟨⟨tl, ?_⟩, ?_⟩
    · show s.calls = _
      rw [hcalls, show (readCopy s slice).out = s.out ++ (s.inb.space.drop s.offset).take slice
        from rfl, hout, show (readCopy s slice).len = s.len - slice from rfl]
      congr 1
      omega
    · show cInt (s.copied + slice) = cInt ((s.out ++ _).length : ℕ)
      rw [hcopied, hout, cInt_cInt_add, Nat.cast_add]

/-- After a copy the slot is given back if it was read to its end. -/
theorem inv_readCommit (hparent : WellBehaved parent) {slice : ℕ}
    (h : Inv n parent lens s head k) (hp : Progress parent s head k (.copied slice)) :
    ∃ head' k', Inv n parent lens (readCommit n s slice) head' k' := by
  obtain ⟨hcl, hat, hin, hpos, hk, hret⟩ := hp
  have hholds := (h.ring.full 0 hk).2
  rw [← h.ring.inb_eq, Nat.add_zero] at hholds
  have hdata := hparent.data_length head hret
  have hplace : s.offset + slice ≤ (parent head).data.length := by
    rcases hat.place_le with hz | ⟨_, _, hle⟩
    · omega
    · exact hle
  have hinb : ∀ pc, ({ s with offset := s.offset + slice, caller := pc } : State).inb = s.inb :=
    fun _ => rfl
  unfold readCommit
  simp only [hinb]
  by_cases hend : s.inb.len ≤ ((s.offset + slice : ℕ) : ℤ)
  · rw [if_pos hend]
    rw [hholds.1] at hend
    obtain ⟨m, rfl⟩ : ∃ m, k = m + 1 := ⟨k - 1, by omega⟩
    have hall : s.offset + slice = (parent head).data.length := by omega
    have hnext : delivered s.log ++ s.out = bytesUpTo parent (head + 1) := by
      rw [hat.total_eq, hall, List.take_length, bytesUpTo_succ]
    have hring := h.ring.release hret { s.inb with state := .empty } rfl 0
    refine ⟨head + 1, m, hring.congr rfl rfl rfl rfl rfl rfl, .inl rfl, h.lens_eq, h.log, hcl,
      ⟨?_, .inl rfl⟩, hin⟩
    rw [List.take_zero, List.append_nil]
    exact hnext
  · rw [if_neg hend]
    rw [hholds.1] at hend
    exact ⟨head, k, h.ring.congr rfl rfl rfl rfl rfl rfl, .inr (by simp only; omega), h.lens_eq,
      h.log, hcl, hat, hin⟩

/-- `thread_close` up to `pthread_join`. -/
theorem inv_threadClose (h : Inv n parent lens s head k) :
    Inv n parent lens (threadClose s) head k := by
  have hr := h.ring
  have hpc : (threadClose s).producer = s.producer.signal := rfl
  refine ⟨⟨hr.pos, hr.inBuffer_eq, hr.index_eq, hr.k_le, hr.full, hr.free, hr.live_head, ?_, ?_,
    ?_, ?_, fun _ => .inl rfl⟩, h.inside, h.lens_eq, h.log, rfl⟩
  all_goals rw [hpc]
  · simpa using hr.live
  · rw [signal_ahead, Ne, signal_eq_exited]
    exact hr.reads
  · simpa using hr.reading
  · rw [signal_eq_relock]
    exact hr.relock

/-- Every step of the caller keeps the invariant. -/
theorem inv_callerStep (hparent : WellBehaved parent) (h : Inv n parent lens s head k)
    (hs : callerStep n s = some t) : ∃ head' k', Inv n parent lens t head' k' := by
  have hprog := h.progress
  cases callerMove hs with
  | close hpc hcalls =>
    exact ⟨head, k, inv_threadClose h⟩
  | enter hpc hcalls =>
    rw [hpc] at hprog
    obtain ⟨hcl, hat⟩ := hprog
    refine ⟨head, k, h.ring.congr rfl rfl rfl rfl rfl rfl, h.inside, h.lens_eq, h.log, hcl, ?_, ?_⟩
    · rw [List.append_nil]
      exact hat
    · exact ⟨⟨_, hcalls⟩, (cInt_of_lt (n := 0) (by decide)).symm⟩
  | test hpc hlen =>
    rw [hpc] at hprog
    obtain ⟨hcl, hat, hin⟩ := hprog
    exact ⟨head, k, inv_readSlot hparent h hcl hat hin hlen⟩
  | leave hpc hzero =>
    rw [hpc] at hprog
    obtain ⟨hcl, hat, hin⟩ := hprog
    obtain ⟨m, hm, hpre⟩ := hat.stream_le h.ring.live_head
    refine ⟨head, k, inv_return h hcl hat hin ?_⟩
    rw [hin.copied_eq, hzero, Nat.zero_add]
    exact .full hm hpre rfl
  | wake hpc =>
    rw [hpc] at hprog
    obtain ⟨hcl, hat, hin, hlen⟩ := hprog
    exact ⟨head, k, inv_readSlot hparent h hcl hat hin hlen⟩
  | copy hpc =>
    rw [hpc] at hprog
    exact ⟨head, k, inv_readCopy h hprog⟩
  | commit hpc =>
    rw [hpc] at hprog
    exact inv_readCommit hparent h hprog
  | joined hpc hex =>
    rw [hpc] at hprog
    exact ⟨head, k, h.ring.congr rfl rfl rfl rfl rfl rfl, h.inside, h.lens_eq, h.log, hprog⟩

end Steps

/-! ## Runs -/

section Runs

variable {n : ℕ} {parent : ℕ → ReadResult} {lens : List ℕ}

theorem inv_init (hn : 0 < n) : Inv n parent lens (threadOpen lens) 0 0 := by
  refine ⟨?_, .inl rfl, rfl, ?_, rfl, ⟨rfl, .inl rfl⟩⟩
  · constructor <;> simp [threadOpen, State.slotAt, Live, ProducerPc.ahead, hn]
  · exact Each.nil

/-- Every step of a run keeps the invariant. -/
theorem inv_step (hparent : WellBehaved parent) (s : State) (l : Label) (t : State)
    (h : ∃ head k, Inv n parent lens s head k) (hs : step n parent s l = some t) :
    ∃ head k, Inv n parent lens t head k := by
  obtain ⟨head, k, h⟩ := h
  cases l with
  | caller => exact inv_callerStep hparent h hs
  | producer =>
    obtain ⟨k', h'⟩ := inv_producerStep hparent h hs
    exact ⟨head, k', h'⟩
  | wakeCaller =>
    obtain ⟨hpc, rfl⟩ := wakeCaller_eq hs
    have hprog := h.progress
    rw [hpc] at hprog
    exact ⟨head, k, h.ring.congr rfl rfl rfl rfl rfl rfl, h.inside, h.lens_eq, h.log, hprog⟩
  | wakeProducer =>
    obtain ⟨hpc, rfl⟩ := wakeProducer_eq hs
    have hr := h.ring
    refine ⟨head, k, h.producer ⟨hr.pos, hr.inBuffer_eq, hr.index_eq, hr.k_le, hr.full,
      hr.free, hr.live_head, ?_, ?_, ?_, ?_, ?_⟩ le_rfl
      ⟨rfl, rfl, rfl, rfl, rfl, rfl, rfl, .inl rfl⟩⟩
    · exact fun _ => hr.live (by simp [hpc])
    · intro _
      have := hr.reads (by simp [hpc])
      rwa [hpc] at this
    all_goals simp

theorem inv_reachable (hn : 0 < n) (hparent : WellBehaved parent) {s : State}
    (h : Reachable (system n parent lens) s) : ∃ head k, Inv n parent lens s head k :=
  h.invariant ⟨0, 0, inv_init hn⟩ (inv_step hparent)

/-- With lengths that fit an `int` every call has kept its promises. -/
theorem Inv.logOk {s : State} {head k : ℕ} (h : Inv n parent lens s head k)
    (hsmall : ∀ l ∈ lens, l < 2 ^ 31) : LogOk parent s.log := by
  intro before e after hlog
  apply (h.log before e after hlog).callOk
  apply hsmall
  rw [h.lens_eq, hlog]
  simp

/-- What the calls have returned is a part of the parent's stream. -/
theorem Inv.stream {s : State} {head k : ℕ} (h : Inv n parent lens s head k) :
    ∃ m, Live parent m ∧ delivered s.log <+: bytesUpTo parent m := by
  rcases List.eq_nil_or_concat' s.log with hnil | ⟨log, e, hlog⟩
  · refine ⟨head, h.ring.live_head, ?_⟩
    rw [hnil]
    exact List.nil_prefix
  · obtain ⟨m, hm, hpre⟩ := (h.log log e [] hlog).stream
    refine ⟨m, hm, ?_⟩
    rw [hlog, delivered_append, show delivered [e] = e.2.data from delivered_singleton _ _]
    exact hpre

/-- Exactly-once delivery in order: at every moment of every run the calls that have
returned are the first ones of `lens`, and each of them has kept its promises: what it
returned continues the parent's stream, it was short only at the end of the stream, and
after the end it returned the parent's terminal value. -/
theorem threadReader_delivers (n : ℕ) (hn : 0 < n) (parent : ℕ → ReadResult)
    (hparent : WellBehaved parent) (lens : List ℕ) (hsmall : ∀ l ∈ lens, l < 2 ^ 31) (s : State)
    (h : Reachable (system n parent lens) s) :
    lens = s.log.map Prod.fst ++ s.calls ∧ LogOk parent s.log ∧
      ∃ k, Live parent k ∧ delivered s.log <+: bytesUpTo parent k := by
  obtain ⟨head, k, hinv⟩ := inv_reachable hn hparent h
  exact ⟨hinv.lens_eq, hinv.logOk hsmall, hinv.stream⟩

/-- Two data reads, then end of file. -/
def twoReads : ℕ → ReadResult
  | 0 => ⟨3, [1, 2, 3]⟩
  | 1 => ⟨1, [4]⟩
  | _ => ⟨0, []⟩

theorem twoReads_wellBehaved : WellBehaved twoReads := by
  constructor <;> intro k <;> rcases k with _ | _ | k <;> simp [twoReads, wandioBufferSize]

/-- The producer works when the caller waits: with one slot they take turns. -/
def turns : List Label :=
  [Label.caller, .caller, .producer, .producer, .producer] ++ List.replicate 9 Label.caller ++
    [Label.producer, .producer, .producer] ++ List.replicate 4 Label.caller ++
    [Label.producer, .producer, .producer] ++ List.replicate 3 Label.caller

theorem threadReader_delivers_turns :
    ∃ s, Reachable (system 1 twoReads [2, 5, 1]) s ∧ s.log.length = 3 ∧
      LogOk twoReads s.log := by
  obtain ⟨s, hs, hp⟩ := exists_reachable_of_exec (system 1 twoReads [2, 5, 1]) turns
    (fun s => s.log.length = 3) (by decide)
  exact ⟨s, hs, by simpa using hp,
    (threadReader_delivers 1 (by decide) twoReads twoReads_wellBehaved [2, 5, 1] (by decide)
      s hs).2.1⟩

end Runs

end Wandio.ThreadReader
