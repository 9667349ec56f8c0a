import Wandio.StreamWriter.Model
import Mathlib.Data.Prod.Lex

/-!
# What the writes of a stream writer do

Every byte a compressor emits is either with the child or waits in `outbuff`, and every byte
of a write is taken by the compressor before the write returns.
-/

namespace Wandio.StreamWriter

open Codec Loop

variable {κ σ : Type*}

/-- A compressor at work. `At k fed out` says that in state `k` it has taken `fed` and
emitted `out`; while it runs it accepts all input, and offered input and room it takes some
input or gives up some of what it holds. -/
structure Encoder (z : Coder κ Action Byte) (accepts : ℤ → Bool)
    (At : κ → List Byte → List Byte → Prop) (held : κ → ℕ) : Prop where
  accepted : ∀ k fed out input room, At k fed out → input ≠ [] → 0 < room →
    accepts (z.call k .run input room).code = true
  at_run : ∀ k fed out input room, At k fed out → input ≠ [] → 0 < room →
    At (z.call k .run input room).state (fed ++ input.take (z.call k .run input room).consumed)
      (out ++ (z.call k .run input room).output)
  advances : ∀ k fed out input room, At k fed out → input ≠ [] → 0 < room →
    0 < (z.call k .run input room).consumed ∨ held (z.call k .run input room).state < held k

/-- The compressor has taken `fed`; what it emitted is with the child or in `outbuff`. -/
structure Pumping (At : κ → List Byte → List Byte → Prop) (child : ByteSink σ) (c : σ)
    (fed : List Byte) (s : State κ σ) : Prop where
  err : s.err = .ok
  room : s.outbuff.length ≤ wandioBufferSize
  emitted : ∃ out, At s.strm fed out ∧
    child.received s.child ++ s.outbuff = child.received c ++ out

/-- The loop of a write of `piece`. -/
structure Writing (At : κ → List Byte → List Byte → Prop) (child : ByteSink σ) (c : σ)
    (fed piece : List Byte) (s : State κ σ) : Prop where
  taken : ∃ before, before ++ s.nextIn = piece ∧ Pumping At child c (fed ++ before) s

/-- What the turns of a write work at: the input left, what the compressor holds, and a full
`outbuff`. -/
def workLeft (held : κ → ℕ) (s : State κ σ) : ℕ ×ₗ ℕ :=
  toLex (s.nextIn.length, 2 * held s.strm + if s.availOut = 0 then 1 else 0)

section Loop

variable {z : Coder κ Action Byte} {accepts : ℤ → Bool}
  {At : κ → List Byte → List Byte → Prop} {held : κ → ℕ} {child : ByteSink σ} {c : σ}
  {fed piece : List Byte} {s t : State κ σ} {len : ℕ}

/-- A turn that passes a full `outbuff` to the child. -/
theorem Writing.flush (h : Writing At child c fed piece s) (hfull : s.availOut = 0)
    (hin : 0 < s.nextIn.length) :
    ∃ t, wwriteTurn z child.toSink accepts len s = .next t ∧ Writing At child c fed piece t ∧
      workLeft held t < workLeft held s := by
  obtain ⟨before, hbefore, hpump⟩ := h.taken
  have hlen : s.outbuff.length = wandioBufferSize := by
    have hroom := hpump.room
    unfold State.availOut at hfull
    omega
  have hsize : (wandioBufferSize : ℤ) = 1048576 := rfl
  have hint : cInt (s.outbuff.length : ℤ) = s.outbuff.length :=
    cInt_of_lt (hlen ▸ (by decide : wandioBufferSize < 2 ^ 31))
  set t : State κ σ := { s with child := (child.write s.child s.outbuff).2, outbuff := [] } with ht
  refine ⟨t, ?_, ⟨before, hbefore, hpump.err, Nat.zero_le _, ?_⟩, ?_⟩
  · rw [wwriteTurn, if_pos ⟨hpump.err, hin⟩, if_pos (by omega)]
    simp only [child.write_ret, hint]
    rw [if_neg (by omega)]
  · obtain ⟨out, hat, hout⟩ := hpump.emitted
    refine ⟨out, hat, ?_⟩
    rw [List.append_nil, child.received_write]
    exact hout
  · have hempty : t.availOut ≠ 0 := by
      show wandioBufferSize - 0 ≠ 0
      omega
    -- the input is the same, but `outbuff` is no longer full
    rw [workLeft, workLeft, Prod.Lex.toLex_lt_toLex, if_pos hfull, if_neg hempty]
    right
    exact ⟨rfl, Nat.lt_succ_self _⟩

/-- What a run of the compressor emits goes to `outbuff`. -/
theorem Writing.ran (h : Writing At child c fed piece s)
    (hat : ∀ fed out, At s.strm fed out →
      At (z.call s.strm .run s.nextIn s.availOut).state
        (fed ++ s.nextIn.take (z.call s.strm .run s.nextIn s.availOut).consumed)
        (out ++ (z.call s.strm .run s.nextIn s.availOut).output)) :
    Writing At child c fed piece
      { s with
        strm := (z.call s.strm .run s.nextIn s.availOut).state
        nextIn := s.nextIn.drop (z.call s.strm .run s.nextIn s.availOut).consumed
        outbuff := s.outbuff ++ (z.call s.strm .run s.nextIn s.availOut).output
        err := .ok } := by
  obtain ⟨before, hbefore, hpump⟩ := h.taken
  obtain ⟨out, hout, hemitted⟩ := hpump.emitted
  have houtput := z.output_le s.strm .run s.nextIn s.availOut
  have hroom := hpump.room
  set a := z.call s.strm .run s.nextIn s.availOut with ha
  refine ⟨before ++ s.nextIn.take a.consumed, ?_, rfl, ?_, out ++ a.output, ?_, ?_⟩
  · rw [List.append_assoc, List.take_append_drop]
    exact hbefore
  · show (s.outbuff ++ a.output).length ≤ wandioBufferSize
    unfold State.availOut at houtput
    rw [List.length_append]
    omega
  · rw [← List.append_assoc]
    exact hat _ _ hout
  · show child.received s.child ++ (s.outbuff ++ a.output) = _
    rw [← List.append_assoc, hemitted, List.append_assoc]

/-- A turn in which the compressor runs. -/
theorem Writing.run (hz : Encoder z accepts At held) (h : Writing At child c fed piece s)
    (hroom : s.availOut ≠ 0) (hin : 0 < s.nextIn.length) :
    ∃ t, wwriteTurn z child.toSink accepts len s = .next t ∧ Writing At child c fed piece t ∧
      workLeft held t < workLeft held s := by
  obtain ⟨before, hbefore, hpump⟩ := h.taken
  obtain ⟨out, hat, hout⟩ := hpump.emitted
  have hne : s.nextIn ≠ [] := List.length_pos_iff.mp hin
  have hpos : 0 < s.availOut := Nat.pos_of_ne_zero hroom
  have hran := h.ran fun fed out hout => hz.at_run s.strm fed out s.nextIn s.availOut hout hne hpos
  set a := z.call s.strm .run s.nextIn s.availOut with ha
  have hcode : accepts a.code = true := hz.accepted _ _ _ _ _ hat hne hpos
  set t : State κ σ :=
    { s with
      strm := a.state
      nextIn := s.nextIn.drop a.consumed
      outbuff := s.outbuff ++ a.output
      err := .ok } with ht
  refine ⟨t, ?_, hran, ?_⟩
  · rw [wwriteTurn, if_pos ⟨hpump.err, hin⟩, if_neg (by omega)]
    simp only [← ha, hcode, if_true, ht]
  · rw [workLeft, workLeft, Prod.Lex.toLex_lt_toLex, if_neg hroom]
    have hlen : t.nextIn.length = s.nextIn.length - a.consumed := List.length_drop
    rw [hlen]
    -- a call takes some input, or the compressor holds less behind it
    rcases hz.advances _ _ _ _ _ hat hne hpos with hlt | hlt
    · left
      rw [← ha] at hlt
      simp only
      omega
    · by_cases hzero : a.consumed = 0
      · right
        show _ ∧ 2 * held a.state + _ < 2 * held s.strm + 0
        rw [← ha] at hlt
        refine ⟨by simp [hzero], ?_⟩
        split <;> omega
      · left
        simp only
        omega

/-- The loop of a write ends when all input is taken. -/
theorem wwriteLoop_spec (len : ℕ) (hz : Encoder z accepts At held)
    (h : Writing At child c fed piece s) :
    ∃ t, Yields (fun fuel => loop (wwriteTurn z child.toSink accepts len) fuel s)
        ((len : ℤ), t) ∧ Pumping At child c (fed ++ piece) t ∧ t.nextIn = [] := by
  have hturn : ∀ s : State κ σ, Writing At child c fed piece s → 0 < s.nextIn.length →
      ∃ t, wwriteTurn z child.toSink accepts len s = .next t ∧
        Writing At child c fed piece t ∧ workLeft held t < workLeft held s := by
    intro s h hin
    by_cases hfull : s.availOut = 0
    · exact h.flush hfull hin
    · exact h.run hz hfull hin
  -- both ways out of the loop need `nextIn` to be empty
  suffices hspec : ∃ r, Yields (fun fuel => loop (wwriteTurn z child.toSink accepts len) fuel s) r ∧
      r.1 = (len : ℤ) ∧ Pumping At child c (fed ++ piece) r.2 ∧ r.2.nextIn = [] by
    obtain ⟨⟨ret, t⟩, hr, rfl, hpump⟩ := hspec
    exact ⟨t, hr, hpump⟩
  refine loop_total (workLeft held) (I := Writing At child c fed piece) (fun s t h ht => ?_)
    (fun s r h hr => ?_) h
  · by_cases hin : 0 < s.nextIn.length
    · obtain ⟨t', ht', hw⟩ := hturn s h hin
      rw [ht] at ht'
      cases ht'
      exact hw
    · rw [wwriteTurn, if_neg (fun hif => hin hif.2)] at ht
      cases ht
  · by_cases hin : 0 < s.nextIn.length
    · obtain ⟨t', ht', _⟩ := hturn s h hin
      rw [hr] at ht'
      cases ht'
    · rw [wwriteTurn, if_neg (fun hif => hin hif.2)] at hr
      cases hr
      obtain ⟨before, hbefore, hpump⟩ := h.taken
      have hnil : s.nextIn = [] := List.eq_nil_of_length_eq_zero (by omega)
      rw [hnil, List.append_nil] at hbefore
      exact ⟨by simp [hnil], hbefore ▸ hpump, hnil⟩

/-- A write: the compressor takes as many bytes as `avail_in` says. -/
theorem wwrite_spec (hz : Encoder z accepts At held) (availIn : ℕ → ℕ) (buffer : List Byte)
    (h : Pumping At child c fed s) :
    ∃ t, Yields (wwrite z child.toSink accepts availIn buffer s) ((buffer.length : ℤ), t) ∧
      Pumping At child c (fed ++ buffer.take (availIn buffer.length)) t ∧ t.nextIn = [] := by
  set s₀ : State κ σ := { s with nextIn := buffer.take (availIn buffer.length) } with hs₀
  have hstart : Writing At child c fed (buffer.take (availIn buffer.length)) s₀ :=
    ⟨[], rfl, by rw [List.append_nil]; exact ⟨h.err, h.room, h.emitted⟩⟩
  obtain ⟨t, ht, hpump⟩ := wwriteLoop_spec buffer.length hz hstart
  refine ⟨t, ?_, hpump⟩
  have hcall : wwrite z child.toSink accepts availIn buffer s = fun fuel =>
      loop (wwriteTurn z child.toSink accepts buffer.length) fuel s₀ := by
    funext fuel
    simp only [wwrite, h.err, hs₀]
  rw [hcall]
  exact ht

/-- A sequence of writes. -/
theorem writes_spec (hz : Encoder z accepts At held) (availIn : ℕ → ℕ)
    (buffers : List (List Byte)) (h : Pumping At child c fed s) (hnil : s.nextIn = []) :
    ∃ t, Yields (fun fuel =>
          runCalls (fun b s => wwrite z child.toSink accepts availIn b s fuel) buffers s)
        (buffers.map fun b => (b, (b.length : ℤ)), t) ∧
      Pumping At child c (fed ++ buffers.flatMap fun b => b.take (availIn b.length)) t ∧
      t.nextIn = [] := by
  induction buffers generalizing fed s with
  | nil =>
    refine ⟨s, .pure _, ?_, hnil⟩
    rw [List.flatMap_nil, List.append_nil]
    exact h
  | cons b buffers ih =>
    obtain ⟨t, ht, hpump, htnil⟩ := wwrite_spec hz availIn b h
    obtain ⟨u, hu, hpump', hunil⟩ := ih hpump htnil
    refine ⟨u, ht.bind (hu.map fun q => ((b, (b.length : ℤ)) :: q.1, q.2)), ?_, hunil⟩
    rw [List.flatMap_cons, ← List.append_assoc]
    exact hpump'

end Loop

end Wandio.StreamWriter
