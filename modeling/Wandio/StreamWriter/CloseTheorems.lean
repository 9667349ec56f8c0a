import Wandio.StreamWriter.WriteTheorems

/-!
# What the zlib and the lzma writer drain

A flush and every turn of a close pass what is staged in `outbuff` to the child, be `outbuff`
full, empty or in between when they begin. So the child has received all that the compressor
has emitted, up to the call that comes to the end of the stream.
-/

namespace Wandio.StreamWriter

open Codec Loop

variable {κ σ : Type*}

/-- A streaming compressor, `Running` up to the first call that finishes. Offered input and room
it takes some input or holds less, and its code is an `accepts` one. When it finishes it answers
`streamEnd` or, with a code `goesOn`, holds no more than before, and less if there was room. -/
structure Streaming (z : Coder κ Action Byte) (accepts goesOn : ℤ → Prop) (streamEnd : ℤ)
    (Running Finishing : κ → Prop) (held : κ → ℕ) : Prop where
  accepted : ∀ k input room, Running k → input ≠ [] → 0 < room →
    accepts (z.call k .run input room).code
  running : ∀ k input room, Running k → input ≠ [] → 0 < room →
    Running (z.call k .run input room).state
  advances : ∀ k input room, Running k → input ≠ [] → 0 < room →
    0 < (z.call k .run input room).consumed ∨ held (z.call k .run input room).state < held k
  finish : ∀ k room, Running k ∨ Finishing k →
    (z.call k .finish [] room).code = streamEnd ∨
      (goesOn (z.call k .finish [] room).code ∧ Finishing (z.call k .finish [] room).state ∧
        held (z.call k .finish [] room).state ≤ held k ∧
        (0 < room → held (z.call k .finish [] room).state < held k))

/-- A compressor that can be flushed while it runs. -/
def Flushes (z : Coder κ Action Byte) (streamError : ℤ) (Running : κ → Prop) : Prop :=
  ∀ k room, Running k →
    (z.call k .flush [] room).code ≠ streamError ∧ Running (z.call k .flush [] room).state

/-- A writer that accepts every write and every flush. -/
structure ByteFlushSink (σ : Type*) extends ByteSink σ, FlushSink σ where
  flush_ret : ∀ s, 0 ≤ (flush s).1
  received_flush : ∀ s, received (flush s).2 = received s

/-- What the compressor has taken and emitted so far. -/
def TracedAt (Running : κ → Prop) (t : Traced κ Byte) (fed out : List Byte) : Prop :=
  Running t.state ∧ t.fed = fed ∧ t.emitted = out

section Close

variable {z : Coder κ Action Byte} {accepts goesOn : ℤ → Prop} {streamEnd streamError : ℤ}
  {Running Finishing : κ → Prop} {held : κ → ℕ} {child : ByteSink σ} {c : σ} {fed : List Byte}
  {s t : State (Traced κ Byte) σ}

/-- With its history a streaming compressor is an encoder. -/
theorem Streaming.encoder {p : ℤ → Bool}
    (hz : Streaming z accepts goesOn streamEnd Running Finishing held)
    (hp : ∀ code, accepts code → p code = true) :
    Encoder z.traced p (TracedAt Running) fun t => held t.state where
  accepted k fed out input room hk hne hroom := hp _ (hz.accepted k.state input room hk.1 hne hroom)
  at_run k fed out input room hk hne hroom := by
    obtain ⟨hrunning, hfed, hout⟩ := hk
    refine ⟨hz.running k.state input room hrunning hne hroom, ?_, ?_⟩
    · rw [traced_fed, hfed, traced_consumed]
    · rw [traced_emitted, hout, traced_output]
  advances k fed out input room hk hne hroom := hz.advances k.state input room hk.1 hne hroom

/-- What has been emitted is with the child or in `outbuff`, which has room for no more than its
size; `fed` has been taken, and no input is left. -/
structure Staged (child : ByteSink σ) (c : σ) (fed : List Byte) (s : State (Traced κ Byte) σ) :
    Prop where
  nil : s.nextIn = []
  room : s.outbuff.length ≤ wandioBufferSize
  fed_eq : s.strm.fed = fed
  emitted : child.received s.child ++ s.outbuff = child.received c ++ s.strm.emitted

theorem Pumping.staged (h : Pumping (TracedAt Running) child c fed s) (hnil : s.nextIn = []) :
    Staged child c fed s ∧ Running s.strm.state := by
  obtain ⟨out, ⟨hrunning, hfed, hemitted⟩, hout⟩ := h.emitted
  exact ⟨⟨hnil, h.room, hfed, by rw [hemitted]; exact hout⟩, hrunning⟩

theorem Staged.pumping (h : Staged child c fed s) (hrunning : Running s.strm.state)
    (herr : s.err = .ok) : Pumping (TracedAt Running) child c fed s :=
  ⟨herr, h.room, _, ⟨hrunning, h.fed_eq, rfl⟩, h.emitted⟩

/-- A call without input: what it emits goes to `outbuff`. -/
theorem Staged.call (h : Staged child c fed s) (z : Coder κ Action Byte) (action : Action) :
    Staged child c fed
      { s with
        strm := (z.traced.call s.strm action [] s.availOut).state
        nextIn := []
        outbuff := s.outbuff ++ (z.traced.call s.strm action [] s.availOut).output } := by
  have houtput := z.output_le s.strm.state action [] s.availOut
  have hroom := h.room
  refine ⟨rfl, ?_, ?_, ?_⟩
  · show (s.outbuff ++ (z.call s.strm.state action [] s.availOut).output).length ≤ _
    unfold State.availOut at houtput ⊢
    rw [List.length_append]
    omega
  · rw [traced_fed, List.take_nil, List.append_nil]
    exact h.fed_eq
  · rw [traced_emitted, traced_output, ← List.append_assoc, h.emitted, List.append_assoc]

/-- What is in `outbuff` is passed to the child. -/
theorem Staged.drain (h : Staged child c fed s) :
    Staged child c fed
      { s with child := (child.write s.child s.outbuff).2, outbuff := [] } := by
  refine ⟨h.nil, Nat.zero_le _, h.fed_eq, ?_⟩
  rw [List.append_nil, child.received_write]
  exact h.emitted

/-! ## The close -/

/-- What the turns of a close work at: what the compressor holds, and a full `outbuff`. -/
def closeLeft (held : κ → ℕ) (s : State (Traced κ Byte) σ) : ℕ :=
  2 * held s.strm.state + if s.availOut = 0 then 1 else 0

/-- One turn of a close. -/
theorem wcloseTurn_spec {p : ℤ → Bool}
    (hz : Streaming z accepts goesOn streamEnd Running Finishing held)
    (hp : ∀ code, goesOn code → p code = true) (hend : p streamEnd = false)
    (h : Staged child c fed s) (hk : Running s.strm.state ∨ Finishing s.strm.state) :
    (∃ t, wcloseTurn z.traced child.toSink p s = .next t ∧ Staged child c fed t ∧
        Finishing t.strm.state ∧ closeLeft held t < closeLeft held s) ∨
      ∃ t, wcloseTurn z.traced child.toSink p s = .done t ∧
        (z.call s.strm.state .finish s.nextIn s.availOut).code = streamEnd ∧
        t.strm = (z.traced.call s.strm .finish s.nextIn s.availOut).state ∧
        t.strm.fed = fed ∧ child.received t.child = child.received c ++ t.strm.emitted := by
  have hstaged := (h.call z .finish).drain
  have hfinish := hz.finish s.strm.state s.availOut hk
  rw [h.nil]
  unfold wcloseTurn
  rw [h.nil]
  simp only [traced_code, List.drop_nil]
  by_cases hcode : (z.call s.strm.state .finish [] s.availOut).code = streamEnd
  · -- the last call; what it has emitted is passed on as well
    right
    rw [hcode, hend]
    refine ⟨_, rfl, rfl, rfl, hstaged.fed_eq, ?_⟩
    have hemitted := hstaged.emitted
    rw [List.append_nil] at hemitted
    exact hemitted
  · left
    obtain ⟨hgoes, hfinishing, hle, hlt⟩ := hfinish.resolve_left hcode
    rw [hp _ hgoes]
    refine ⟨_, rfl, hstaged, hfinishing, ?_⟩
    have hempty : wandioBufferSize - ([] : List Byte).length ≠ 0 := by decide
    unfold closeLeft
    show 2 * held (z.call s.strm.state .finish [] s.availOut).state +
      (if wandioBufferSize - ([] : List Byte).length = 0 then 1 else 0) < _
    rw [if_neg hempty]
    by_cases hfull : s.availOut = 0
    · rw [if_pos hfull]
      omega
    · have hless := hlt (Nat.pos_of_ne_zero hfull)
      omega

/-- The last call of the close comes to the end of the stream, and the child has received all of
it. -/
theorem wclose_spec {p : ℤ → Bool}
    (hz : Streaming z accepts goesOn streamEnd Running Finishing held)
    (hp : ∀ code, goesOn code → p code = true) (hend : p streamEnd = false)
    (h : Staged child c fed s) (hk : Running s.strm.state) :
    ∃ t u, Yields (wclose z.traced child.toSink p s) t ∧
      Visits (wcloseTurn z.traced child.toSink p) s u ∧
      wcloseTurn z.traced child.toSink p u = .done t ∧
      (z.call u.strm.state .finish u.nextIn u.availOut).code = streamEnd ∧
      t.strm = (z.traced.call u.strm .finish u.nextIn u.availOut).state ∧
      t.strm.fed = fed ∧ child.received t.child = child.received c ++ t.strm.emitted := by
  have htotal : ∃ t, Yields (fun fuel => loop (wcloseTurn z.traced child.toSink p) fuel s) t ∧
      ∃ u, Visits (wcloseTurn z.traced child.toSink p) s u ∧
        wcloseTurn z.traced child.toSink p u = .done t ∧
        (z.call u.strm.state .finish u.nextIn u.availOut).code = streamEnd ∧
        t.strm = (z.traced.call u.strm .finish u.nextIn u.availOut).state ∧
        t.strm.fed = fed ∧ child.received t.child = child.received c ++ t.strm.emitted := by
    refine loop_total_visits (closeLeft held)
      (I := fun u => Staged child c fed u ∧ (Running u.strm.state ∨ Finishing u.strm.state))
      ?_ ?_ ⟨h, .inl hk⟩
    · rintro u v - ⟨hu, hku⟩ hv
      rcases wcloseTurn_spec hz hp hend hu hku with ⟨w, hw, hstaged, hfinishing, hlt⟩ | ⟨w, hw, -⟩
      · rw [hv] at hw
        cases hw
        exact ⟨⟨hstaged, .inr hfinishing⟩, hlt⟩
      · rw [hv] at hw
        cases hw
    · rintro u r hvisits ⟨hu, hku⟩ hr
      rcases wcloseTurn_spec hz hp hend hu hku with ⟨w, hw, -⟩ | ⟨w, hw, hlast⟩
      · rw [hr] at hw
        cases hw
      · have hsame : r = w := by
          rw [hr] at hw
          exact Turn.done.inj hw
        rw [hsame]
        exact ⟨u, hvisits, hw, hlast⟩
  obtain ⟨t, ht, u, hu⟩ := htotal
  exact ⟨t, u, ht, hu⟩

end Close

/-! ## The flush of the zlib writer -/

section Flush

variable {z : Coder κ Action Byte} {Running : κ → Prop} {child : ByteFlushSink σ} {c : σ}
  {fed : List Byte} {s : State (Traced κ Byte) σ}

/-- A flush that does not fail: `deflate` is called once, and `outbuff` is passed on. -/
theorem zlibWflush_eq {s : State κ σ} (child : ByteFlushSink σ)
    (hroom : s.outbuff.length ≤ wandioBufferSize)
    (hcode : (z.call s.strm .flush s.nextIn s.availOut).code ≠ zStreamError) :
    ∃ c', zlibWflush z child.toFlushSink s =
        ((child.flush c').1,
          { s with
            strm := (z.call s.strm .flush s.nextIn s.availOut).state
            nextIn := s.nextIn.drop (z.call s.strm .flush s.nextIn s.availOut).consumed
            outbuff := []
            child := (child.flush c').2 }) ∧
      child.received c' = child.received s.child ++
        (s.outbuff ++ (z.call s.strm .flush s.nextIn s.availOut).output) := by
  have houtput := z.output_le s.strm .flush s.nextIn s.availOut
  set a := z.call s.strm .flush s.nextIn s.availOut with ha
  have hsize : wandioBufferSize < 2 ^ 31 := by decide
  have hwritten : cInt (child.write s.child (s.outbuff ++ a.output)).1 =
      (s.outbuff ++ a.output).length := by
    rw [child.write_ret]
    refine cInt_of_lt ?_
    unfold State.availOut at houtput
    rw [List.length_append]
    omega
  have hres : ¬ cInt (child.write s.child (s.outbuff ++ a.output)).1 < 0 := by
    rw [hwritten]
    omega
  have hret := child.flush_ret (child.write s.child (s.outbuff ++ a.output)).2
  refine ⟨(child.write s.child (s.outbuff ++ a.output)).2, ?_, child.received_write _ _⟩
  unfold zlibWflush
  simp only [← ha, hcode, hres, not_lt.mpr hret, if_false]

/-- A flush leaves `outbuff` empty, and the child has what was in it. -/
theorem zlibWflush_spec (hz : Flushes z zStreamError Running)
    (h : Pumping (TracedAt Running) child.toByteSink c fed s) (hnil : s.nextIn = []) :
    ∃ ret t, zlibWflush z.traced child.toFlushSink s = (ret, t) ∧ 0 ≤ ret ∧
      Pumping (TracedAt Running) child.toByteSink c fed t ∧ t.nextIn = [] := by
  obtain ⟨hstaged, hrunning⟩ := h.staged hnil
  obtain ⟨hcode, hrunning'⟩ := hz s.strm.state s.availOut hrunning
  have hcalled := hstaged.call z .flush
  obtain ⟨c', heq, hreceived⟩ :=
    zlibWflush_eq child h.room (show (z.traced.call _ _ s.nextIn _).code ≠ _ by rwa [hnil])
  rw [hnil] at heq hreceived
  refine ⟨_, _, heq, child.flush_ret c', ?_, List.drop_nil⟩
  refine Staged.pumping ⟨List.drop_nil, Nat.zero_le _, hcalled.fed_eq, ?_⟩ hrunning' h.err
  rw [List.append_nil, child.received_flush, hreceived]
  exact hcalled.emitted

/-- A call of the zlib writer, which is no longer than `avail_in` can tell. -/
theorem zlibCall_spec {goesOn : ℤ → Prop} {streamEnd : ℤ} {Finishing : κ → Prop} {held : κ → ℕ}
    (hz : Streaming z (· = zOk) goesOn streamEnd Running Finishing held)
    (hflush : Flushes z zStreamError Running)
    (h : Pumping (TracedAt Running) child.toByteSink c fed s) (hnil : s.nextIn = [])
    (call : ZlibCall) (hlen : call.buffer.length < 2 ^ 32) :
    ∃ ret t, Yields (zlibCall z.traced child.toFlushSink call s) (ret, t) ∧
      (∀ b, call = .write b → ret = b.length) ∧
      Pumping (TracedAt Running) child.toByteSink c (fed ++ call.buffer) t ∧ t.nextIn = [] := by
  cases call with
  | write b =>
    obtain ⟨t, ht, hpump, hnil'⟩ :=
      wwrite_spec (hz.encoder fun code hc => decide_eq_true hc) cUInt b h
    have hshort : b.length < 2 ^ 32 := hlen
    rw [cUInt_of_lt hshort, List.take_length] at hpump
    refine ⟨b.length, t, ht, fun b' hb => ?_, hpump, hnil'⟩
    cases hb
    rfl
  | flush =>
    obtain ⟨ret, t, ht, -, hpump, hnil'⟩ := zlibWflush_spec hflush h hnil
    refine ⟨ret, t, ?_, fun b hb => (nomatch hb), ?_, hnil'⟩
    · exact ⟨0, fun _ _ => by rw [zlibCall, ht]⟩
    · rw [show ZlibCall.flush.buffer = [] from rfl, List.append_nil]
      exact hpump

end Flush

/-! ## Runs -/

/-- The bytes that a sequence of calls brings. -/
def brought (calls : List ZlibCall) : List Byte := calls.flatMap ZlibCall.buffer

/-- Every write has returned its length. -/
def WritesReturned (log : List (ZlibCall × ℤ)) : Prop :=
  ∀ e ∈ log, ∀ b, e.1 = .write b → e.2 = b.length

section Runs

variable {z : Coder κ Action Byte} {Running : κ → Prop} {c : σ}

theorem pumping_wopen (child : ByteSink σ) {k : κ} (hk : Running k) (c : σ) :
    Pumping (TracedAt Running) child c [] (wopen ⟨k, [], []⟩ c : State (Traced κ Byte) σ) :=
  ⟨rfl, Nat.zero_le _, [], ⟨hk, rfl, rfl⟩, rfl⟩

/-- What holds between the calls of the zlib writer. -/
structure Served (Running : κ → Prop) (child : ByteFlushSink σ) (c : σ)
    (log : List (ZlibCall × ℤ)) (s : State (Traced κ Byte) σ) : Prop where
  returned : WritesReturned log
  pumping : Pumping (TracedAt Running) child.toByteSink c (brought (log.map Prod.fst)) s
  nil : s.nextIn = []

theorem zlibCalls_spec {goesOn : ℤ → Prop} {streamEnd : ℤ} {Finishing : κ → Prop} {held : κ → ℕ}
    (hz : Streaming z (· = zOk) goesOn streamEnd Running Finishing held)
    (hflush : Flushes z zStreamError Running) (child : ByteFlushSink σ) {k : κ} (hk : Running k)
    (calls : List ZlibCall) (hcalls : ∀ call ∈ calls, call.buffer.length < 2 ^ 32) :
    ∃ q, Yields (fun fuel =>
          runCalls (fun call s => zlibCall z.traced child.toFlushSink call s fuel) calls
            (zlibWopen ⟨k, [], []⟩ c)) q ∧
      Served Running child c q.1 q.2 ∧ q.1.map Prod.fst = calls := by
  have hopen : Served Running child c [] (zlibWopen ⟨k, [], []⟩ c) :=
    ⟨fun e he => absurd he List.not_mem_nil, pumping_wopen child.toByteSink hk c, rfl⟩
  have hcall : ∀ log call s, call ∈ calls → Served Running child c log s →
      ∃ r, Yields (zlibCall z.traced child.toFlushSink call s) r ∧
        Served Running child c (log ++ [(call, r.1)]) r.2 := by
    intro log call s hmem h
    obtain ⟨ret, t, ht, hret, hpump, hnil⟩ :=
      zlibCall_spec hz hflush h.pumping h.nil call (hcalls call hmem)
    refine ⟨(ret, t), ht, fun e he b hb => ?_, ?_, hnil⟩
    · rcases List.mem_append.mp he with hold | hnew
      · exact h.returned e hold b hb
      · rw [List.mem_singleton.mp hnew] at hb ⊢
        exact hret b hb
    · rw [List.map_append, brought, List.flatMap_append]
      show Pumping _ _ _ (brought (log.map Prod.fst) ++ (call.buffer ++ [])) t
      rw [List.append_nil]
      exact hpump
  exact runCalls_total hcall [] hopen

end Runs

/-- Over a child that accepts everything, the zlib writer's writes and flushes, and the lzma
writer's writes, return; every write returns its length; the compressor takes what is written in
order; and the last call of the close, which tells the compressor to finish, comes to the end of
the stream, when the child has received all that the compressor has emitted. -/
theorem emitted_received (z : Coder κ Action Byte) (Running Finishing : κ → Prop) (held : κ → ℕ)
    (child : ByteFlushSink σ) (k : κ) (hk : Running k) (c : σ) :
    (Streaming z (· = zOk) (fun code => code = zOk ∨ code = zBufError) zStreamEnd
        Running Finishing held → Flushes z zStreamError Running →
      ∀ calls : List ZlibCall, (∀ call ∈ calls, call.buffer.length < 2 ^ 32) →
      ∃ log s t u, Yields (fun fuel =>
          runCalls (fun call s => zlibCall z.traced child.toFlushSink call s fuel) calls
            (zlibWopen ⟨k, [], []⟩ c)) (log, s) ∧
        log.map Prod.fst = calls ∧ WritesReturned log ∧
        Yields (zlibWclose z.traced child.toSink s) t ∧
        Visits (wcloseTurn z.traced child.toSink fun res =>
          res ≠ zStreamEnd ∧ res ≠ zStreamError) s u ∧
        wcloseTurn z.traced child.toSink
          (fun res => res ≠ zStreamEnd ∧ res ≠ zStreamError) u = .done t ∧
        (z.call u.strm.state .finish u.nextIn u.availOut).code = zStreamEnd ∧
        t.strm = (z.traced.call u.strm .finish u.nextIn u.availOut).state ∧
        t.strm.fed = brought calls ∧
        child.received t.child = child.received c ++ t.strm.emitted) ∧
    (Streaming z (· = lzmaOk) (· = lzmaOk) lzmaStreamEnd Running Finishing held →
      ∀ buffers : List (List Byte),
      ∃ s t u, Yields (fun fuel =>
          runCalls (fun b s => lzmaWwrite z.traced child.toSink b s fuel) buffers
            (lzmaWopen ⟨k, [], []⟩ c)) (buffers.map fun b => (b, (b.length : ℤ)), s) ∧
        Yields (lzmaWclose z.traced child.toSink s) t ∧
        Visits (wcloseTurn z.traced child.toSink fun res => res = lzmaOk) s u ∧
        wcloseTurn z.traced child.toSink (fun res => res = lzmaOk) u = .done t ∧
        (z.call u.strm.state .finish u.nextIn u.availOut).code = lzmaStreamEnd ∧
        t.strm = (z.traced.call u.strm .finish u.nextIn u.availOut).state ∧
        t.strm.fed = buffers.flatten ∧
        child.received t.child = child.received c ++ t.strm.emitted) := by
  constructor
  · intro hz hflush calls hcalls
    obtain ⟨⟨log, s⟩, hlog, hserved, hfst⟩ :=
      zlibCalls_spec (c := c) hz hflush child hk calls hcalls
    obtain ⟨hstaged, hrunning⟩ := hserved.pumping.staged hserved.nil
    rw [hfst] at hstaged
    have hgoes : ∀ code : ℤ, code = zOk ∨ code = zBufError →
        decide (code ≠ zStreamEnd ∧ code ≠ zStreamError) = true := by
      rintro code (rfl | rfl) <;> decide
    obtain ⟨t, u, ht, hu⟩ := wclose_spec hz hgoes (by decide) hstaged hrunning
    exact ⟨log, s, t, u, hlog, hfst, hserved.returned, ht, hu⟩
  · intro hz buffers
    obtain ⟨s, hs, hpump, hnil⟩ := writes_spec (hz.encoder fun code hc => decide_eq_true hc) id
      buffers (pumping_wopen child.toByteSink hk c) rfl
    obtain ⟨hstaged, hrunning⟩ := hpump.staged hnil
    have htaken : ([] ++ buffers.flatMap fun b => b.take (id b.length)) = buffers.flatten := by
      simp [List.flatMap_def]
    rw [htaken] at hstaged
    obtain ⟨t, u, ht, hu⟩ := wclose_spec hz (fun code hc => decide_eq_true hc) (by decide)
      hstaged hrunning
    exact ⟨s, t, u, hs, ht, hu⟩

/-! ## Compressors of one letter -/

/-- A compressor that emits `stream` when it is told to finish. -/
def atEnd (stream : List Byte) : Coder (Stored Byte) Action Byte :=
  storing (fun a => a = .finish) (fun _ => stream) 0 fun left => if left = 0 then 1 else 0

theorem atEnd_held_le (stream : List Byte) (k : Stored Byte) (input : List Byte) (room : ℕ) :
    ((atEnd stream).call k .finish input room).state.held (fun _ => stream) ≤
      k.held fun _ => stream := by
  rw [atEnd, storing_end (by decide)]
  show ((k.left.getD stream).drop room).length ≤ _
  rw [List.length_drop]
  unfold Stored.held
  cases k.left with
  | none =>
    rw [Option.getD_none]
    simp only
    omega
  | some left => exact Nat.sub_le _ _

theorem atEnd_streaming (stream : List Byte) {goesOn : ℤ → Prop} (hgoes : goesOn 0) :
    Streaming (atEnd stream) (· = 0) goesOn 1 (fun k => k.left = none) (fun _ => True)
      (Stored.held fun _ => stream) where
  accepted k input room _ _ _ := by
    rw [atEnd, storing_run (by decide)]
  running k input room hk _ _ := by
    rw [atEnd, storing_run (by decide)]
    exact hk
  advances k input room _ hne _ := by
    rw [atEnd, storing_run (by decide)]
    exact .inl (List.length_pos_iff.mpr hne)
  finish k room _ := by
    by_cases hleft : ((k.left.getD stream).drop room).length = 0
    · left
      rw [atEnd, storing_end (by decide)]
      exact if_pos hleft
    · right
      have hcode : ((atEnd stream).call k .finish [] room).code = 0 := by
        rw [atEnd, storing_end (by decide)]
        exact if_neg hleft
      rw [hcode]
      refine ⟨hgoes, trivial, atEnd_held_le stream k [] room, fun hroom => ?_⟩
      exact storing_held_lt (by decide) k [] hroom (Nat.pos_of_ne_zero hleft)

theorem atEnd_flushes (stream : List Byte) :
    Flushes (atEnd stream) zStreamError fun k => k.left = none := by
  intro k room hk
  rw [atEnd, storing_run (by decide)]
  exact ⟨show (0 : ℤ) ≠ zStreamError by decide, hk⟩

/-- What `gzip` makes of the letter a. -/
def gzipLetter : List Byte :=
  [0x1f, 0x8b, 8, 0, 0, 0, 0, 0, 0, 3, 0x4b, 4, 0, 0x43, 0xbe, 0xb7, 0xe8, 1, 0, 0, 0]

/-- What `xz` makes of the letter a. -/
def xzLetter : List Byte :=
  [0xfd, 0x37, 0x7a, 0x58, 0x5a, 0, 0, 4, 0xe6, 0xd6, 0xb4, 0x46, 2, 0, 0x21, 1, 0x16, 0, 0, 0,
    0x74, 0x2f, 0xe5, 0xa3, 1, 0, 0, 0x61, 0, 0, 0, 0, 5, 0x2b, 0x65, 0x2e, 0x77, 0x84, 2, 0x33, 0,
    1, 0x19, 1, 0xa5, 0x2c, 0x81, 0xcc, 0x1f, 0xb6, 0xf3, 0x7d, 1, 0, 0, 0, 0, 4, 0x59, 0x5a]

/-- A child that keeps the payload of every write, and has nothing to flush. -/
def collectingFlush : ByteFlushSink (List Byte) where
  toByteSink := collecting
  flush s := (0, s)
  flush_ret _ := le_rfl
  received_flush _ := rfl

/-- The letter is written and the writer closed. -/
theorem emitted_received_letter :
    (∃ log s t, Yields (fun fuel =>
        runCalls (fun call s =>
          zlibCall (atEnd gzipLetter).traced collectingFlush.toFlushSink call s fuel)
          [.write [0x61]] (zlibWopen ⟨⟨[], none⟩, [], []⟩ [])) (log, s) ∧
      WritesReturned log ∧ Yields (zlibWclose (atEnd gzipLetter).traced collecting.toSink s) t ∧
      t.strm.fed = [0x61] ∧ t.child = t.strm.emitted) ∧
    ∃ s t, Yields (fun fuel =>
        runCalls (fun b s => lzmaWwrite (atEnd xzLetter).traced collecting.toSink b s fuel) [[0x61]]
          (lzmaWopen ⟨⟨[], none⟩, [], []⟩ [])) ([([0x61], 1)], s) ∧
      Yields (lzmaWclose (atEnd xzLetter).traced collecting.toSink s) t ∧
      t.strm.fed = [0x61] ∧ t.child = t.strm.emitted := by
  constructor
  · obtain ⟨log, s, t, u, hlog, -, hreturned, ht, -, -, -, -, hfed, hreceived⟩ :=
      (emitted_received (atEnd gzipLetter) (fun k => k.left = none) (fun _ => True)
        (Stored.held fun _ => gzipLetter) collectingFlush ⟨[], none⟩ rfl []).1
        (atEnd_streaming gzipLetter (.inl rfl)) (atEnd_flushes gzipLetter) [.write [0x61]]
        (by decide)
    exact ⟨log, s, t, hlog, hreturned, ht, hfed, hreceived⟩
  · obtain ⟨s, t, u, hs, ht, -, -, -, -, hfed, hreceived⟩ :=
      (emitted_received (atEnd xzLetter) (fun k => k.left = none) (fun _ => True)
        (Stored.held fun _ => xzLetter) collectingFlush ⟨[], none⟩ rfl []).2
        (atEnd_streaming xzLetter rfl) [[0x61]]
    exact ⟨s, t, hs, ht, hfed, hreceived⟩

end Wandio.StreamWriter
