import Wandio.ZstdWriter.Model
import Mathlib.Data.Prod.Lex

/-!
# When the zstd writer accepts a run of writes

`zstd_wwrite` takes a child write of zero bytes for a failed one, and `zstd_wclose` relies on
an output buffer that only a write sets up. So a run is accepted exactly when something was
written and the compressor emitted something whenever it was called.
-/

namespace Wandio.ZstdWriter

open Codec Loop

variable {κ σ : Type*} {z : Coder κ Action Byte} {held : κ → ℕ} {child : ByteSink σ}
  {c : σ} {fed : List Byte} {s : State (Traced κ Byte) σ}

/-! ## A compressor that speaks -/

theorem speaks_skip_iff {k : κ} {bufs : List (List Byte)} :
    Speaks z k ([] :: bufs) ↔ Speaks z k bufs := by
  constructor
  · intro h
    cases h with
    | skip h => exact h
    | call hb => exact absurd rfl hb
  · exact .skip

theorem speaks_call_iff {k : κ} {b : List Byte} {bufs : List (List Byte)} (hb : b ≠ []) :
    Speaks z k (b :: bufs) ↔ (z.call k .compressStream b wandioBufferSize).output ≠ [] ∧
      Speaks z (z.call k .compressStream b wandioBufferSize).state
        (b.drop (z.call k .compressStream b wandioBufferSize).consumed :: bufs) := by
  constructor
  · intro h
    cases h with
    | skip => exact absurd rfl hb
    | call _ hout h => exact ⟨hout, h⟩
  · rintro ⟨hout, h⟩
    exact .call hb hout h

/-! ## One write -/

/-- The compressor has taken `fed`, and everything it emitted is with the child. -/
structure Flowing (child : ByteSink σ) (c : σ) (fed : List Byte) (s : State (Traced κ Byte) σ) :
    Prop where
  err : s.err = .ok
  fed_eq : s.stream.fed = fed
  received : child.received s.child = child.received c ++ s.stream.emitted
  size : ∀ b, s.outputBuffer = some b → b.size = wandioBufferSize
  initialised : fed ≠ [] → s.outputBuffer ≠ none

/-- A writer that will refuse every further write. -/
structure Refused (s : State (Traced κ Byte) σ) : Prop where
  err : s.err = .error
  size : ∀ b, s.outputBuffer = some b → b.size = wandioBufferSize

/-- The bytes between `outbuff` and `outbuff + pos` are those just emitted. -/
theorem writeOut_emitted (child : ByteSink σ) {t : State κ σ} {old output : List Byte}
    (h : t.outbuff = memcpyAt old 0 output) :
    writeOut child.toSink t output.length =
      ((output.length : ℤ), { t with child := (child.write t.child output).2 }) := by
  have htake : t.outbuff.take output.length = output := by
    have : (memcpyAt old 0 output).take (0 + output.length) = old.take 0 ++ output :=
      take_memcpyAt output (Nat.zero_le _)
    simpa [h] using this
  simp [writeOut, htake, child.write_ret]

/-- The loop of `zstd_wwrite` over the buffer `b`. -/
structure Writing (z : Coder κ Action Byte) (child : ByteSink σ) (c : σ) (fed b : List Byte)
    (bufs : List (List Byte)) (k : κ) (s : State (Traced κ Byte) σ) : Prop where
  flowing : Flowing child c (fed ++ b.take s.inputBuffer.pos) s
  src_eq : s.inputBuffer.src = b
  pos_le : s.inputBuffer.pos ≤ b.length
  speaks : Speaks z k (b :: bufs) ↔
    Speaks z s.stream.state (b.drop s.inputBuffer.pos :: bufs)

/-- How a write ends: all is taken, or the compressor has kept silent. -/
def Wrote (z : Coder κ Action Byte) (child : ByteSink σ) (c : σ) (fed b : List Byte)
    (bufs : List (List Byte)) (k : κ) (r : ℤ × State (Traced κ Byte) σ) : Prop :=
  (r.1 = b.length ∧ Flowing child c (fed ++ b) r.2 ∧
      (Speaks z k (b :: bufs) ↔ Speaks z r.2.stream.state bufs)) ∨
    (r.1 = -1 ∧ Refused r.2 ∧ ¬ Speaks z k (b :: bufs))

/-- What a turn of the loop works at: the input that is left and what the compressor holds. -/
def workLeft (held : κ → ℕ) (s : State (Traced κ Byte) σ) : ℕ ×ₗ ℕ :=
  toLex (s.inputBuffer.src.length - s.inputBuffer.pos, held s.stream.state)

section Turn

variable {b : List Byte} {bufs : List (List Byte)} {k : κ}

/-- A turn with input left: the compressor is called, and the loop goes on if it spoke. -/
theorem wwriteTurn_call (hz : Compressor z held) (h : Writing z child c fed b bufs k s)
    (hpos : s.inputBuffer.pos < b.length) :
    (∃ t, wwriteTurn z.traced child.toSink s = .next t ∧ Writing z child c fed b bufs k t ∧
        workLeft held t < workLeft held s) ∨
      (∃ r, wwriteTurn z.traced child.toSink s = .done r ∧ Wrote z child c fed b bufs k r) := by
  set rest := b.drop s.inputBuffer.pos with hrest
  set a := z.call s.stream.state .compressStream rest wandioBufferSize with ha
  have hne : rest ≠ [] := by
    rw [← List.length_pos_iff, hrest, List.length_drop]
    omega
  have hconsumed : a.consumed ≤ b.length - s.inputBuffer.pos := by
    have := z.consumed_le s.stream.state .compressStream rest wandioBufferSize
    rwa [hrest, List.length_drop, ← hrest] at this
  have houtput : a.output.length ≤ wandioBufferSize := z.output_le _ _ _ _
  have hcode : zstdIsError a.code = false := by
    have := hz.no_error s.stream.state .compressStream rest wandioBufferSize
    simp only [zstdIsError, decide_eq_false_iff_not, not_lt]
    exact this
  have hint : cInt (a.output.length : ℤ) = a.output.length :=
    cInt_of_lt (houtput.trans_lt (by decide))
  -- the state between the compressor's call and the child's write, and the one behind both
  set t : State (Traced κ Byte) σ :=
    { s with
      stream := (z.traced.call s.stream .compressStream rest wandioBufferSize).state
      outputBuffer := some ⟨wandioBufferSize, a.output.length⟩
      outbuff := memcpyAt s.outbuff 0 a.output
      inputBuffer := { s.inputBuffer with pos := s.inputBuffer.pos + a.consumed } } with ht
  set u : State (Traced κ Byte) σ :=
    { t with child := (child.write s.child a.output).2 } with hu
  have hturn : wwriteTurn z.traced child.toSink s =
      if (a.output.length : ℤ) ≤ 0 then .done (-1, { u with err := .error }) else .next u := by
    have hwrite : writeOut child.toSink t a.output.length = ((a.output.length : ℤ), u) :=
      writeOut_emitted child rfl
    have hbody : wwriteTurn z.traced child.toSink s =
        if zstdIsError a.code then .done (-1, { t with err := .error })
        else if cInt (writeOut child.toSink t a.output.length).1 ≤ 0 then
          .done (-1, { (writeOut child.toSink t a.output.length).2 with err := .error })
        else .next (writeOut child.toSink t a.output.length).2 := by
      rw [wwriteTurn, h.src_eq, if_pos hpos]
      rfl
    rw [hbody, hcode, hwrite, hint]
    rfl
  rw [hturn]
  have hiff := h.speaks.trans (speaks_call_iff hne)
  have hsize : ∀ o, u.outputBuffer = some o → o.size = wandioBufferSize := by
    rintro o ho
    rw [← Option.some.inj ho]
  by_cases hout : a.output = []
  · refine .inr ⟨(-1, { u with err := .error }), by simp [hout], .inr ⟨rfl, ⟨rfl, hsize⟩, ?_⟩⟩
    rw [hiff]
    exact fun hs => hs.1 hout
  · refine .inl ⟨u, ?_, ⟨⟨h.flowing.err, ?_, ?_, hsize, ?_⟩, h.src_eq, ?_, ?_⟩, ?_⟩
    · have : 0 < a.output.length := List.length_pos_iff.mpr hout
      rw [if_neg (by omega)]
    · show s.stream.fed ++ rest.take a.consumed = fed ++ b.take (s.inputBuffer.pos + a.consumed)
      rw [h.flowing.fed_eq, List.take_add, List.append_assoc]
    · show child.received (child.write s.child a.output).2 = _ ++ (s.stream.emitted ++ a.output)
      rw [child.received_write, h.flowing.received, List.append_assoc]
    · exact fun _ => by simp [hu, ht]
    · show s.inputBuffer.pos + a.consumed ≤ b.length
      omega
    · rw [hiff]
      show _ ↔ Speaks z a.state (b.drop (s.inputBuffer.pos + a.consumed) :: bufs)
      rw [← List.drop_drop]
      exact ⟨fun hs => hs.2, fun hs => ⟨hout, hs⟩⟩
    · have hleft : workLeft held u =
          toLex (b.length - (s.inputBuffer.pos + a.consumed), held a.state) := by
        show toLex (s.inputBuffer.src.length - _, _) = _
        rw [h.src_eq]
        rfl
      rw [hleft, workLeft, h.src_eq, Prod.Lex.toLex_lt_toLex]
      rcases hz.advances s.stream.state rest wandioBufferSize hne (by decide) with hlt | hlt
      · left
        rw [← ha] at hlt
        simp only
        omega
      · by_cases hzero : a.consumed = 0
        · right
          simp only [hzero, Nat.add_zero, true_and]
          exact hlt
        · left
          simp only
          omega

/-- The loop of `zstd_wwrite` is left. -/
theorem wwriteLoop_spec (hz : Compressor z held) (h : Writing z child c fed b bufs k s) :
    ∃ r, Yields (fun fuel => loop (wwriteTurn z.traced child.toSink) fuel s) r ∧
      Wrote z child c fed b bufs k r := by
  refine loop_total (workLeft held) (fun s t h ht => ?_) (fun s r h hr => ?_) h
  · by_cases hpos : s.inputBuffer.pos < b.length
    · rcases wwriteTurn_call hz h hpos with ⟨t', ht', hw⟩ | ⟨r, hr, _⟩
      · rw [ht] at ht'
        cases ht'
        exact hw
      · rw [ht] at hr
        cases hr
    · rw [wwriteTurn, h.src_eq, if_neg hpos] at ht
      cases ht
  · by_cases hpos : s.inputBuffer.pos < b.length
    · rcases wwriteTurn_call hz h hpos with ⟨t, ht, _⟩ | ⟨r', hr', hw⟩
      · rw [hr] at ht
        cases ht
      · rw [hr] at hr'
        cases hr'
        exact hw
    · rw [wwriteTurn, h.src_eq, if_neg hpos] at hr
      cases hr
      have hall : s.inputBuffer.pos = b.length := le_antisymm h.pos_le (not_lt.mp hpos)
      have hflow := h.flowing
      have hspeaks := h.speaks
      rw [hall, List.take_length] at hflow
      rw [hall, List.drop_length, speaks_skip_iff] at hspeaks
      exact .inl ⟨by rw [hall], hflow, hspeaks⟩

end Turn

/-- What `zstd_wwrite` does to a writer without an error. -/
theorem zstdWwrite_spec (hz : Compressor z held) (w : WriteCall) (bufs : List (List Byte))
    (h : Flowing child c fed s) :
    ∃ r, Yields (zstdWwrite z.traced child.toSink w s) r ∧
      ((r.1 = max w.len 0 ∧ Flowing child c (fed ++ w.data) r.2 ∧
          (Speaks z s.stream.state (w.data :: bufs) ↔ Speaks z r.2.stream.state bufs) ∧
          (s.outputBuffer = none → w.data = [] → r.2.outputBuffer = none)) ∨
        (r.1 = -1 ∧ Refused r.2 ∧ ¬ Speaks z s.stream.state (w.data :: bufs))) := by
  have herr := h.err
  by_cases hlen : w.len ≤ 0
  · have hdata : w.data = [] := by
      by_contra hne
      have := w.data_ne_nil.mp hne
      omega
    refine ⟨(0, s), ⟨0, fun fuel _ => by simp [zstdWwrite, herr, hlen]⟩, .inl ⟨?_, ?_, ?_, ?_⟩⟩
    · simp only
      omega
    · rw [hdata, List.append_nil]
      exact h
    · rw [hdata]
      exact speaks_skip_iff
    · exact fun hnone _ => hnone
  · have hdata : w.data ≠ [] := w.data_ne_nil.mpr (by omega)
    set s₀ : State (Traced κ Byte) σ := { s with inputBuffer := ⟨w.data, 0⟩ } with hs₀
    have hstart : Writing z child c fed w.data bufs s.stream.state s₀ := by
      refine ⟨⟨h.err, ?_, h.received, h.size, ?_⟩, rfl, Nat.zero_le _, Iff.rfl⟩
      · rw [List.take_zero, List.append_nil]
        exact h.fed_eq
      · rw [List.take_zero, List.append_nil]
        exact h.initialised
    obtain ⟨r, hr, hw⟩ := wwriteLoop_spec hz hstart
    refine ⟨r, ?_, ?_⟩
    · have hcall : zstdWwrite z.traced child.toSink w s =
          fun fuel => loop (wwriteTurn z.traced child.toSink) fuel s₀ := by
        funext fuel
        simp [zstdWwrite, herr, hlen, hs₀]
      rw [hcall]
      exact hr
    · rcases hw with ⟨hret, hflow, hspeaks⟩ | hsilent
      · refine .inl ⟨?_, hflow, hspeaks, fun _ hnil => absurd hnil hdata⟩
        rw [hret, w.length_data]
        omega
      · exact .inr hsilent

/-! ## Sequences of writes -/

/-- A writer with an error refuses all that follows. -/
theorem writes_refused (z : Coder κ Action Byte) (child : ByteSink σ) (calls : List WriteCall)
    (h : Refused s) :
    ∃ q, Yields
        (fun fuel => runCalls (fun w s => zstdWwrite z.traced child.toSink w s fuel) calls s) q ∧
      Refused q.2 := by
  have hcall : ∀ (log : List (WriteCall × ℤ)) (w : WriteCall) (t : State (Traced κ Byte) σ),
      w ∈ calls → Refused t →
        ∃ r, Yields (zstdWwrite z.traced child.toSink w t) r ∧ Refused r.2 :=
    fun _ w t _ ht => ⟨(-1, t), ⟨0, fun fuel _ => by simp [zstdWwrite, ht.err]⟩, ht⟩
  obtain ⟨q, hq, href, _⟩ := runCalls_total hcall [] h
  exact ⟨q, hq, href⟩

/-- What a sequence of writes does: all are accepted if the compressor speaks, and otherwise
one of them is not. -/
theorem writes_spec (hz : Compressor z held) (calls : List WriteCall) (h : Flowing child c fed s) :
    ∃ q, Yields
        (fun fuel => runCalls (fun w s => zstdWwrite z.traced child.toSink w s fuel) calls s) q ∧
      ((q.1 = calls.map (fun w => (w, max w.len 0)) ∧
          Flowing child c (fed ++ calls.flatMap WriteCall.data) q.2 ∧
          Speaks z s.stream.state (calls.map WriteCall.data) ∧
          (s.outputBuffer = none → calls.flatMap WriteCall.data = [] → q.2.outputBuffer = none)) ∨
        (q.1 ≠ calls.map (fun w => (w, max w.len 0)) ∧ Refused q.2 ∧
          ¬ Speaks z s.stream.state (calls.map WriteCall.data))) := by
  induction calls generalizing fed s with
  | nil =>
    refine ⟨([], s), .pure _, .inl ⟨rfl, ?_, .nil _, fun hnone _ => hnone⟩⟩
    rw [List.flatMap_nil, List.append_nil]
    exact h
  | cons w calls ih =>
    obtain ⟨r, hr, hw⟩ := zstdWwrite_spec hz w (calls.map WriteCall.data) h
    rcases hw with ⟨hret, hflow, hspeaks, hnone⟩ | ⟨hret, href, hsilent⟩
    · obtain ⟨q, hq, hrest⟩ := ih hflow
      refine ⟨((w, r.1) :: q.1, q.2), hr.bind (hq.map fun q => ((w, r.1) :: q.1, q.2)), ?_⟩
      rcases hrest with ⟨hrets, hflow', hspeaks', hnone'⟩ | ⟨hrets, href, hsilent⟩
      · refine .inl ⟨?_, ?_, hspeaks.mpr hspeaks', ?_⟩
        · rw [hrets, hret, List.map_cons]
        · rw [List.flatMap_cons, ← List.append_assoc]
          exact hflow'
        · intro hs hnil
          rw [List.flatMap_cons, List.append_eq_nil_iff] at hnil
          exact hnone' (hnone hs hnil.1) hnil.2
      · refine .inr ⟨?_, href, fun hs => hsilent (hspeaks.mp hs)⟩
        rw [List.map_cons]
        exact fun heq => hrets (List.cons.inj heq).2
    · obtain ⟨q, hq, href'⟩ := writes_refused z child calls href
      refine ⟨((w, r.1) :: q.1, q.2), hr.bind (hq.map fun q => ((w, r.1) :: q.1, q.2)), ?_⟩
      refine .inr ⟨?_, href', hsilent⟩
      rw [List.map_cons]
      intro heq
      have hmax := (Prod.mk.inj (List.cons.inj heq).1).2
      rw [hret] at hmax
      omega

/-! ## The close -/

/-- Closing hands on what the compressor still emits. -/
structure Closing (child : ByteSink σ) (s t : State (Traced κ Byte) σ) : Prop where
  buffer : t.outputBuffer = none ↔ s.outputBuffer = none
  size : ∀ b, t.outputBuffer = some b → b.size = wandioBufferSize
  fed_eq : t.stream.fed = s.stream.fed
  handed : ∃ new, t.stream.emitted = s.stream.emitted ++ new ∧
    child.received t.child = child.received s.child ++ new

/-- How a close ends. -/
def ClosedAs (child : ByteSink σ) (s : State (Traced κ Byte) σ) :
    Closed (Traced κ Byte) σ → Prop
  | .destroyed t => s.outputBuffer ≠ none ∧ Closing child s t
  | .failed _ => False
  | .uninitialised => s.outputBuffer = none

/-- A turn of the loop of `zstd_wclose` with an output buffer. -/
theorem wcloseTurn_spec (hz : Compressor z held) {t : State (Traced κ Byte) σ}
    (h : Closing child s t) {b : OutBuffer} (hb : t.outputBuffer = some b) :
    ∃ u, Closing child s u ∧ u.outputBuffer ≠ none ∧
      wcloseTurn z.traced child.toSink t =
        (if (z.call t.stream.state .endStream [] b.size).code ≠ 0 then .next u
          else .done (.destroyed u)) ∧
      u.stream.state = (z.call t.stream.state .endStream [] b.size).state := by
  set a := z.call t.stream.state .endStream [] b.size with ha
  set v : State (Traced κ Byte) σ :=
    { t with
      stream := (z.traced.call t.stream .endStream [] b.size).state
      outputBuffer := some ⟨b.size, a.output.length⟩
      outbuff := memcpyAt t.outbuff 0 a.output } with hv
  have hwrite : writeOut child.toSink v a.output.length =
      ((a.output.length : ℤ), { v with child := (child.write t.child a.output).2 }) :=
    writeOut_emitted child rfl
  have hcode : zstdIsError a.code = false := by
    have := hz.no_error t.stream.state .endStream [] b.size
    simp only [zstdIsError, decide_eq_false_iff_not, not_lt]
    exact this
  refine ⟨{ v with child := (child.write t.child a.output).2 }, ⟨?_, ?_, ?_, ?_⟩, ?_, ?_, rfl⟩
  · have hne : ¬ s.outputBuffer = none := by
      rw [← h.buffer, hb]
      exact Option.some_ne_none b
    simp [hv, hne]
  · rintro o ho
    rw [← Option.some.inj ho]
    exact h.size b hb
  · show t.stream.fed ++ List.take _ [] = _
    rw [List.take_nil, List.append_nil]
    exact h.fed_eq
  · obtain ⟨new, hemitted, hreceived⟩ := h.handed
    refine ⟨new ++ a.output, ?_, ?_⟩
    · show t.stream.emitted ++ a.output = _
      rw [hemitted, List.append_assoc]
    · show child.received (child.write t.child a.output).2 = _
      rw [child.received_write, hreceived, List.append_assoc]
  · simp [hv]
  · have hbody : wcloseTurn z.traced child.toSink t =
        if zstdIsError a.code then .done (.failed v)
        else if a.code ≠ 0 then .next (writeOut child.toSink v a.output.length).2
        else .done (.destroyed (writeOut child.toSink v a.output.length).2) := by
      rw [wcloseTurn, hb]
      rfl
    rw [hbody, hcode, hwrite]
    rfl

/-- `zstd_wclose` ends, and ends well if the output buffer has been set up. -/
theorem zstdWclose_spec (hz : Compressor z held) (child : ByteSink σ)
    (hsize : ∀ b, s.outputBuffer = some b → b.size = wandioBufferSize) :
    ∃ r, Yields (zstdWclose z.traced child.toSink s) r ∧ ClosedAs child s r := by
  refine loop_total (fun t : State (Traced κ Byte) σ => held t.stream.state)
    (I := Closing child s) (fun t u h hu => ?_) (fun t r h hr => ?_)
    ⟨Iff.rfl, hsize, rfl, [], by simp⟩
  · cases hb : t.outputBuffer with
    | none =>
      rw [wcloseTurn, hb] at hu
      cases hu
    | some b =>
      obtain ⟨u', hclosing, _, hturn, hstate⟩ := wcloseTurn_spec hz h hb
      rw [hturn] at hu
      split at hu
      · next hcode =>
        cases hu
        refine ⟨hclosing, ?_⟩
        rw [hstate]
        exact hz.flushes _ _ (by rw [h.size b hb]; decide) hcode
      · cases hu
  · cases hb : t.outputBuffer with
    | none =>
      rw [wcloseTurn, hb] at hr
      cases hr
      exact h.buffer.mp hb
    | some b =>
      obtain ⟨u', hclosing, hsome, hturn, _⟩ := wcloseTurn_spec hz h hb
      rw [hturn] at hr
      split at hr
      · cases hr
      · cases hr
        exact ⟨fun hnone => hsome (hclosing.buffer.mpr hnone), hclosing⟩

/-! ## Whole runs -/

/-- A run over a compressor without errors is accepted if and only if something was written
and the compressor emitted something in every call of `ZSTD_compressStream`. -/
theorem zstdWriter_accepts_iff (z : Coder κ Action Byte) (held : κ → ℕ) (hz : Compressor z held)
    (child : ByteSink σ) (k : κ) (c : σ) (calls : List WriteCall) :
    ∃ o, Yields (run z.traced child.toSink calls (zstdWopen ⟨k, [], []⟩ c)) o ∧
      (Accepted child c calls o ↔
        (∃ w ∈ calls, 0 < w.len) ∧ Speaks z k (calls.map WriteCall.data)) := by
  have hopen : Flowing child c [] (zstdWopen (κ := Traced κ Byte) ⟨k, [], []⟩ c) :=
    ⟨rfl, rfl, by simp [zstdWopen], by simp [zstdWopen], fun h => absurd rfl h⟩
  have hwrote : calls.flatMap WriteCall.data ≠ [] ↔ ∃ w ∈ calls, 0 < w.len := by
    simp only [ne_eq, List.flatMap_eq_nil_iff, not_forall, ← WriteCall.data_ne_nil, exists_prop]
  obtain ⟨q, hq, hwrites⟩ := writes_spec hz calls hopen
  have hsize : ∀ b, q.2.outputBuffer = some b → b.size = wandioBufferSize := by
    rcases hwrites with ⟨_, hflow, _⟩ | ⟨_, href, _⟩
    · exact hflow.size
    · exact href.size
  obtain ⟨r, hr, hclosed⟩ := zstdWclose_spec hz child hsize
  refine ⟨⟨q.1, r⟩, hq.bind (hr.map fun r => (⟨q.1, r⟩ : Outcome (Traced κ Byte) σ)), ?_⟩
  rcases hwrites with ⟨hrets, hflow, hspeaks, hnone⟩ | ⟨hrets, _, hsilent⟩
  · rw [List.nil_append] at hflow
    constructor
    · rintro ⟨_, t, hd, _⟩
      simp only at hd
      rw [hd] at hclosed
      refine ⟨hwrote.mp fun hnil => hclosed.1 (hnone rfl hnil), hspeaks⟩
    · rintro ⟨hsome, _⟩
      refine ⟨hrets, ?_⟩
      have hbuffer := hflow.initialised (hwrote.mpr hsome)
      cases r with
      | destroyed t =>
        obtain ⟨_, hclosing⟩ := hclosed
        obtain ⟨new, hemitted, hreceived⟩ := hclosing.handed
        refine ⟨t, rfl, hclosing.fed_eq.trans hflow.fed_eq, ?_⟩
        rw [hreceived, hflow.received, hemitted, List.append_assoc]
      | failed t => exact absurd hclosed id
      | uninitialised => exact absurd hclosed hbuffer
  · constructor
    · rintro ⟨hrets', _⟩
      exact absurd hrets' hrets
    · rintro ⟨_, hspeaks⟩
      exact absurd hspeaks hsilent

/-! ## A compressor that keeps short inputs to itself -/

/-- The frame zstd makes of a short input that does not compress: magic number, frame
header, the header of a last raw block, the input. -/
def rawFrame (data : List Byte) : List Byte :=
  [0x28, 0xb5, 0x2f, 0xfd, 0x00, 0x58] ++
    [UInt8.ofNat (8 * data.length + 1), UInt8.ofNat ((8 * data.length + 1) / 2 ^ 8),
      UInt8.ofNat ((8 * data.length + 1) / 2 ^ 16)] ++ data

/-- As zstd does with less than a block of input, this compressor emits nothing before the
frame is ended. -/
def shortFrame : Coder (Stored Byte) Action Byte :=
  storing (fun a => a = .endStream) rawFrame 1 (fun left => left)

theorem shortFrame_compressor : Compressor shortFrame (Stored.held rawFrame) where
  no_error k a input room := by cases a <;> simp [shortFrame, storing]
  advances k input room hne _ := by
    rw [shortFrame, storing_run (by decide)]
    exact .inl (List.length_pos_iff.mpr hne)
  flushes k room hroom hcode := by
    refine storing_held_lt (by decide) k [] hroom ?_
    rw [shortFrame, storing_end (by decide)] at hcode
    simp only [ne_eq, Nat.cast_eq_zero] at hcode
    omega

/-- `zstd_wwrite` of the one byte 1. -/
def oneByte : WriteCall := ⟨[1], 1, by decide⟩

/-- A compressor that emits what it takes at once. -/
def passing : Coder Unit Action Byte where
  call k _ input room := ⟨k, min input.length room, input.take room, 0⟩
  consumed_le _ _ _ _ := Nat.min_le_left _ _
  output_le _ _ _ _ := List.length_take_le _ _

theorem passing_compressor : Compressor passing fun _ => 0 where
  no_error _ _ _ _ := le_rfl
  advances _ _ _ hne hroom := .inl (lt_min (List.length_pos_iff.mpr hne) hroom)
  flushes _ _ _ hcode := absurd rfl hcode

/-- Two writes of a byte are accepted, if the compressor does not keep the byte to itself. -/
theorem zstdWriter_accepts_iff_passing :
    (∃ o, Yields (run passing.traced collecting.toSink [oneByte, oneByte]
        (zstdWopen ⟨(), [], []⟩ [])) o ∧
      Accepted collecting [] [oneByte, oneByte] o ∧
      Speaks passing () [oneByte.data, oneByte.data]) ∧
    ∃ o, Yields (run shortFrame.traced collecting.toSink [oneByte]
        (zstdWopen ⟨⟨[], none⟩, [], []⟩ [])) o ∧
      ¬ Accepted collecting [] [oneByte] o ∧ ¬ Speaks shortFrame ⟨[], none⟩ [oneByte.data] := by
  constructor
  · obtain ⟨o, ho, haccepted⟩ := zstdWriter_accepts_iff passing (fun _ => 0) passing_compressor
      collecting () [] [oneByte, oneByte]
    have hspeaks : Speaks passing () [oneByte.data, oneByte.data] :=
      .call (by decide) (by decide) (.skip (.call (by decide) (by decide) (.skip (.nil ()))))
    exact ⟨o, ho, haccepted.mpr ⟨⟨oneByte, by simp, by decide⟩, hspeaks⟩, hspeaks⟩
  · obtain ⟨o, ho, haccepted⟩ := zstdWriter_accepts_iff shortFrame (Stored.held rawFrame)
      shortFrame_compressor collecting ⟨[], none⟩ [] [oneByte]
    have hsilent : ¬ Speaks shortFrame ⟨[], none⟩ [oneByte.data] := by
      intro h
      exact ((speaks_call_iff (by decide)).mp h).1 (by decide)
    exact ⟨o, ho, fun h => hsilent (haccepted.mp h).2, hsilent⟩

/-- A write of one byte is refused, and a run without writes passes an output buffer that
has never been set up. -/
theorem zstdWriter_refuses :
    Compressor shortFrame (Stored.held rawFrame) ∧
    (∃ o, Yields (run shortFrame.traced collecting.toSink [oneByte]
        (zstdWopen ⟨⟨[], none⟩, [], []⟩ [])) o ∧
      o.rets = [(oneByte, -1)] ∧ ¬ Accepted collecting [] [oneByte] o) ∧
    (∃ o, Yields (run shortFrame.traced collecting.toSink []
        (zstdWopen ⟨⟨[], none⟩, [], []⟩ [])) o ∧
      o.closed = .uninitialised ∧ ¬ Accepted collecting [] [] o) := by
  refine ⟨shortFrame_compressor, ?_, ?_⟩
  · refine ⟨⟨[(oneByte, -1)], .destroyed ⟨rawFrame [1], .error, ⟨⟨[1], some []⟩, [1],
      rawFrame [1]⟩, some ⟨wandioBufferSize, 10⟩, ⟨[1], 1⟩, rawFrame [1]⟩⟩,
      ⟨3, fun fuel hfuel => ?_⟩, rfl, fun h => ?_⟩
    · obtain ⟨m, rfl⟩ : ∃ m, fuel = m + 3 := ⟨fuel - 3, by omega⟩
      rfl
    · have := congrArg (List.map Prod.snd) h.rets
      simp [oneByte] at this
  · refine ⟨⟨[], .uninitialised⟩, ⟨1, fun fuel hfuel => ?_⟩, rfl, fun h => ?_⟩
    · obtain ⟨m, rfl⟩ : ∃ m, fuel = m + 1 := ⟨fuel - 1, by omega⟩
      rfl
    · obtain ⟨s, hs, _⟩ := h.closed
      cases hs

end Wandio.ZstdWriter
