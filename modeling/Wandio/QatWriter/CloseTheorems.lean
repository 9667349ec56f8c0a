import Wandio.QatWriter.Model

/-!
# What the QAT writer feeds to its codec

The last call of `_qat_wwrite` has nothing to write, and the loop is not entered for nothing. So
`qzCompress` is never called with `last`, and a close does not call it at all.
-/

namespace Wandio.QatWriter

open Codec Loop
open StreamWriter (FlushSink)

variable {κ σ : Type*}

/-- A call of `qzCompress`: what it was offered, and what came of it. -/
structure QzCall where
  last : Bool
  offered : List Byte
  consumed : ℕ
  output : List Byte

/-- The window it consumed. -/
def QzCall.taken (call : QzCall) : List Byte := call.offered.take call.consumed

/-- A codec that remembers its calls, and otherwise is the same. -/
def Qatzip.recorded (qz : Qatzip κ) : Qatzip (κ × List QzCall) where
  call k last input room :=
    let a := qz.call k.1 last input room
    { state := (a.state, k.2 ++ [⟨last, input, a.consumed, a.output⟩])
      consumed := a.consumed
      output := a.output
      code := a.code }
  consumed_le k := qz.consumed_le k.1
  output_le k := qz.output_le k.1
  maxCompressedLength := qz.maxCompressedLength

/-- A writer has fed `data` to its codec and has finished: the windows consumed are the data, the
close has made a call that is the last one, and the child has received the output behind `start`.
`before` are the calls up to the close. -/
structure Finished (data start received : List Byte) (before calls : List QzCall) : Prop where
  taken : calls.flatMap QzCall.taken = data
  last : ∃ call ∈ calls.drop before.length, call.last = true
  received : received = start ++ calls.flatMap QzCall.output

section Close

variable {qz : Qatzip κ} {child : FlushSink σ} {s : State κ σ}

theorem makeRoom_err {child : Sink σ} {srcLen : ℕ}
    (hroom : (makeRoom qz child srcLen s).1 = true) :
    (makeRoom qz child srcLen s).2.err = s.err := by
  unfold makeRoom at hroom ⊢
  split at hroom
  · next hspace =>
    rw [if_pos hspace]
    simp only at hroom ⊢
    split at hroom
    · cases hroom
    · next hwritten =>
      rw [if_neg hwritten]
      rfl
  · next hspace => rw [if_neg hspace]

/-- The invariant rule for `_qat_wwrite`. -/
theorem qatWwriteLast_invariant {child : Sink σ} {buffer : List Byte} {len : ℤ} {last : Bool}
    {I : State κ σ → Prop}
    (hroom : ∀ t srcLen, t.err = .ok → I t → I (makeRoom qz child srcLen t).2)
    (hfail : ∀ t input room, I t →
      I { t with sess := (qz.call t.sess last input room).state, err := .error })
    (happend : ∀ t input, t.err = .ok → I t →
      I (t.append (qz.call t.sess last input (outbuffSize - t.outbuff.length)).state
        (qz.call t.sess last input (outbuffSize - t.outbuff.length)).output
        (qz.output_le _ _ _ _)))
    (h : I s) {fuel : ℕ} {r : ℤ × State κ σ}
    (hr : qatWwriteLast qz child buffer len last s fuel = some r) : I r.2 := by
  have hnext : ∀ v u : Writing κ σ, I v.io →
      wwriteTurn qz child buffer len last v = .next u → I u.io := by
    intro v u hv hu
    unfold wwriteTurn at hu
    split at hu
    · next hgo =>
      simp only at hu
      split at hu
      · cases hu
      · next t hmade =>
        have ht := hroom v.io (cUInt len.toNat) hgo.1 hv
        have hok := makeRoom_err (congrArg Prod.fst hmade)
        rw [hmade] at ht hok
        split at hu
        · cases hu
        · cases hu
          exact happend t _ (hok.trans hgo.1) ht
    · cases hu
  have hdone : ∀ (v : Writing κ σ) (r : ℤ × State κ σ), I v.io →
      wwriteTurn qz child buffer len last v = .done r → I r.2 := by
    intro v r hv hr
    unfold wwriteTurn at hr
    split at hr
    · next hgo =>
      have ht := hroom v.io (cUInt len.toNat) hgo.1 hv
      simp only at hr
      split at hr
      · next t hmade =>
        cases hr
        rw [hmade] at ht
        exact ht
      · next t hmade =>
        rw [hmade] at ht
        split at hr
        · cases hr
          exact hfail t _ _ ht
        · cases hr
    · cases hr
      exact hv
  exact loop_invariant hnext hdone h hr

/-- There is nothing to be written, and the loop is left at once. -/
theorem wwriteTurn_nothing (child : Sink σ) (buffer : List Byte) (last : Bool) (s : State κ σ) :
    wwriteTurn qz child buffer 0 last ⟨s, 0⟩ = .done (0, s) := by
  rw [wwriteTurn, if_neg]
  · rfl
  · exact fun h => lt_irrefl 0 h.2

theorem qatWflush_eq (s : State κ σ) (fuel : ℕ) :
    qatWflush qz child s (fuel + 1) = some (passOn child s) := by
  rw [qatWflush, qatWwriteLast, loop, wwriteTurn_nothing]
  rfl

theorem passOn_sess (s : State κ σ) : (passOn child s).2.sess = s.sess := by
  unfold passOn
  simp only
  split
  · rfl
  · split
    · rfl
    · split <;> rfl

/-- A close makes no call. -/
theorem qatWclose_yields (s : State κ σ) :
    Yields (qatWclose qz child s) (s.sess, (passOn child s).2.child) := by
  have hflush : Yields (qatWflush qz child s) (passOn child s) := by
    refine ⟨1, fun fuel hfuel => ?_⟩
    obtain ⟨n, rfl⟩ : ∃ n, fuel = n + 1 := ⟨fuel - 1, by omega⟩
    exact qatWflush_eq s n
  have hclose := hflush.map fun r => (r.2.sess, r.2.child)
  rw [passOn_sess] at hclose
  exact hclose

end Close

/-! ## What holds over a run -/

/-- The calls made so far were not the last one. -/
def NoLast (s : State (κ × List QzCall) σ) : Prop := ∀ call ∈ s.sess.2, call.last = false

/-- Behind `c`, the child has received what has been emitted, but for what is in `outbuff`. -/
def Passed (child : ByteSink σ) (c : σ) (s : State (κ × List QzCall) σ) : Prop :=
  child.received s.child ++ s.outbuff = child.received c ++ s.sess.2.flatMap QzCall.output

/-- Up to the first error. -/
def PassedOn (child : ByteSink σ) (c : σ) (s : State (κ × List QzCall) σ) : Prop :=
  s.err ≠ .error → Passed child c s

section Runs

variable {qz : Qatzip κ} {child : ByteSink σ} {flush : σ → ℤ × σ} {c : σ}
  {s : State (κ × List QzCall) σ}

theorem makeRoom_sess (qz : Qatzip κ) (child : Sink σ) (srcLen : ℕ) (s : State κ σ) :
    (makeRoom qz child srcLen s).2.sess = s.sess := by
  unfold makeRoom
  split
  · simp only
    split <;> rfl
  · rfl

theorem qatWwrite_noLast {child : Sink σ} {w : WriteCall} {fuel : ℕ}
    {r : ℤ × State (κ × List QzCall) σ} (h : NoLast s)
    (hr : qatWwrite qz.recorded child w s fuel = some r) : NoLast r.2 := by
  have hcall : ∀ (t : State (κ × List QzCall) σ) (input : List Byte) (room : ℕ), NoLast t →
      ∀ call ∈ (qz.recorded.call t.sess false input room).state.2, call.last = false := by
    intro t input room ht call hmem
    rcases List.mem_append.mp hmem with hold | hnew
    · exact ht call hold
    · rw [List.mem_singleton.mp hnew]
  apply qatWwriteLast_invariant (I := NoLast) _ hcall _ h hr
  · intro t srcLen _ ht
    unfold NoLast
    rw [makeRoom_sess]
    exact ht
  · exact fun t input _ ht => hcall t input _ ht

/-- `outbuff` is passed on in its order, or it is an error. -/
theorem makeRoom_passed {srcLen : ℕ} (h : Passed child c s) :
    PassedOn child c (makeRoom qz.recorded child.toSink srcLen s).2 := by
  unfold makeRoom
  split
  · simp only
    split
    · exact fun hok => absurd rfl hok
    · intro _
      show child.received (child.write s.child s.outbuff).2 ++ [] = _
      rw [child.received_write, List.append_nil]
      exact h
  · exact fun _ => h

/-- The output of a call goes behind what is in `outbuff`. -/
theorem append_passed {last : Bool} {input : List Byte} (h : Passed child c s) :
    Passed child c (s.append
      (qz.recorded.call s.sess last input (outbuffSize - s.outbuff.length)).state
      (qz.recorded.call s.sess last input (outbuffSize - s.outbuff.length)).output
      (qz.recorded.output_le _ _ _ _)) := by
  show child.received s.child ++ (s.outbuff ++ _) =
    child.received c ++ List.flatMap QzCall.output (s.sess.2 ++ [_])
  rw [← List.append_assoc, h, List.flatMap_append, List.append_assoc, List.flatMap_singleton]
  rfl

theorem qatWwrite_passedOn {w : WriteCall} {fuel : ℕ} {r : ℤ × State (κ × List QzCall) σ}
    (h : PassedOn child c s) (hr : qatWwrite qz.recorded child.toSink w s fuel = some r) :
    PassedOn child c r.2 := by
  apply qatWwriteLast_invariant (I := PassedOn child c) _ _ _ h hr
  · intro t srcLen hok ht
    exact makeRoom_passed (ht (by rw [hok]; decide))
  · exact fun t input room _ herr => absurd rfl herr
  · intro t input hok ht _
    exact append_passed (ht (by rw [hok]; decide))

/-- All of `outbuff` is passed on, and a flush of the child loses nothing. -/
theorem passOn_received (hflush : ∀ c, child.received (flush c).2 = child.received c)
    (hok : s.err ≠ .error) (h : Passed child c s) :
    child.received (passOn ⟨child.toSink, flush⟩ s).2.child =
      child.received c ++ s.sess.2.flatMap QzCall.output := by
  have hwrite : ¬ cInt (child.write s.child s.outbuff).1 < 0 := by
    have hlen : s.outbuff.length < 2 ^ 31 := lt_of_le_of_lt s.outbuff_le (by decide)
    rw [child.write_ret, cInt_of_lt hlen]
    exact not_lt.mpr (Int.natCast_nonneg _)
  unfold passOn
  rw [if_neg hok]
  simp only
  rw [if_neg hwrite]
  split <;>
  · show child.received (flush (child.write s.child s.outbuff).2).2 = _
    rw [hflush, child.received_write]
    exact h

theorem passOn_ok (hok : (passOn ⟨child.toSink, flush⟩ s).2.err ≠ .error) :
    s.err ≠ .error ∧ (passOn ⟨child.toSink, flush⟩ s).2.outbuff = [] := by
  unfold passOn at hok ⊢
  split at hok
  · next herr => exact absurd herr hok
  · next herr =>
    rw [if_neg herr]
    refine ⟨herr, ?_⟩
    simp only at hok ⊢
    split at hok
    · exact absurd rfl hok
    · next hwrite =>
      rw [if_neg hwrite]
      split at hok
      · exact absurd rfl hok
      · next hflush =>
        rw [if_neg hflush]
        rfl

theorem passOn_passedOn (hflush : ∀ c, child.received (flush c).2 = child.received c)
    (h : PassedOn child c s) : PassedOn child c (passOn ⟨child.toSink, flush⟩ s).2 := by
  intro hok
  obtain ⟨herr, hempty⟩ := passOn_ok hok
  unfold Passed
  rw [hempty, List.append_nil, passOn_sess]
  exact passOn_received hflush herr (h herr)

theorem qatCall_flush {fuel : ℕ} {r : ℤ × State κ σ} {child : FlushSink σ} {s : State κ σ}
    {qz : Qatzip κ} (hr : qatCall qz child .wflush s fuel = some r) : r = passOn child s := by
  cases fuel with
  | zero => cases hr
  | succ fuel =>
    rw [qatCall, qatWflush_eq, Option.some_inj] at hr
    exact hr.symm

theorem qatCall_noLast {child : FlushSink σ} {call : Call} {fuel : ℕ}
    {r : ℤ × State (κ × List QzCall) σ} (h : NoLast s)
    (hr : qatCall qz.recorded child call s fuel = some r) : NoLast r.2 := by
  cases call with
  | wwrite w => exact qatWwrite_noLast h hr
  | wflush =>
    rw [qatCall_flush hr]
    unfold NoLast
    rw [passOn_sess]
    exact h

theorem qatCall_passedOn (hflush : ∀ c, child.received (flush c).2 = child.received c) {call : Call}
    {fuel : ℕ} {r : ℤ × State (κ × List QzCall) σ} (h : PassedOn child c s)
    (hr : qatCall qz.recorded ⟨child.toSink, flush⟩ call s fuel = some r) :
    PassedOn child c r.2 := by
  cases call with
  | wwrite w => exact qatWwrite_passedOn h hr
  | wflush =>
    rw [qatCall_flush hr]
    exact passOn_passedOn hflush h

end Runs

section Calls

variable {qz : Qatzip κ} {child : ByteSink σ} {flush : σ → ℤ × σ} {sess : κ} {c : σ}
  {calls : List Call} {log : List (Call × ℤ)} {s : State (κ × List QzCall) σ}

/-- Before the first error the child receives all that the codec has emitted, in order. -/
theorem qatWclose_received (hflush : ∀ c, child.received (flush c).2 = child.received c)
    (hrun : Yields (fun fuel => runCalls (fun call s =>
      qatCall qz.recorded ⟨child.toSink, flush⟩ call s fuel) calls (qatWopen (sess, []) c))
        (log, s)) (hok : s.err ≠ .error) :
    ∃ c', Yields (qatWclose qz.recorded ⟨child.toSink, flush⟩ s) (s.sess, c') ∧
      child.received c' = child.received c ++ s.sess.2.flatMap QzCall.output := by
  obtain ⟨fuel, hfuel⟩ := hrun
  have hopen : PassedOn child c (qatWopen (sess, []) c) := fun _ => rfl
  have hpassed : PassedOn child c s :=
    runCalls_invariant (I := fun _ s => PassedOn child c s)
      (fun _ _ _ _ _ _ h hr => qatCall_passedOn hflush h hr) [] hopen (hfuel fuel le_rfl)
  exact ⟨_, qatWclose_yields s, passOn_received hflush hok (hpassed hok)⟩

/-- The close makes no call of the codec, and no call is the last one: the writer does not
finish. -/
theorem never_finished
    (hrun : Yields (fun fuel => runCalls (fun call s =>
      qatCall qz.recorded ⟨child.toSink, flush⟩ call s fuel) calls (qatWopen (sess, []) c))
        (log, s)) :
    ∃ k c', Yields (qatWclose qz.recorded ⟨child.toSink, flush⟩ s) (k, c') ∧ k.2 = s.sess.2 ∧
      (∀ call ∈ k.2, call.last = false) ∧
        ¬ Finished (calls.flatMap Call.data) (child.received c) (child.received c') s.sess.2
          k.2 := by
  obtain ⟨fuel, hfuel⟩ := hrun
  have hopen : NoLast (qatWopen ((sess, []) : κ × List QzCall) c) := by
    intro call hcall
    cases hcall
  have hlast : NoLast s :=
    runCalls_invariant (I := fun _ s => NoLast s)
      (fun _ _ _ _ _ _ h hr => qatCall_noLast h hr) [] hopen (hfuel fuel le_rfl)
  refine ⟨_, _, qatWclose_yields s, rfl, hlast, ?_⟩
  intro hfinished
  obtain ⟨call, hcall, _⟩ := hfinished.last
  rw [List.drop_length] at hcall
  cases hcall

end Calls

/-! ## One byte -/

/-- A codec that keeps its input as it is. -/
def copying : Qatzip Unit where
  call _ _ input room := ⟨(), (input.take room).length, input.take room, 0⟩
  consumed_le _ _ input room := by
    rw [List.length_take]
    exact min_le_right _ _
  output_le _ _ input room := List.length_take_le _ _
  maxCompressedLength n := n

/-- A child that keeps what is written to it. -/
def collectingSink : FlushSink (List Byte) := ⟨collecting.toSink, fun c => (0, c)⟩

/-- The write of one byte. -/
def byteCall : Call := .wwrite ⟨[65], 1, le_rfl⟩

/-- Behind the write of one byte. -/
def byteWritten : State (Unit × List QzCall) (List Byte) where
  sess := ((), [⟨false, [65], 1, [65]⟩])
  child := []
  outbuff := [65]
  outbuff_le := by decide
  err := .ok

theorem byteCall_yields :
    Yields (fun fuel => runCalls (fun call s =>
      qatCall copying.recorded collectingSink call s fuel) [byteCall] (qatWopen ((), []) []))
        ([(byteCall, 0)], byteWritten) := by
  refine Yields.runCalls_cons ⟨2, fun fuel hfuel => ?_⟩ .runCalls_nil
  obtain ⟨n, rfl⟩ : ∃ n, fuel = n + 2 := ⟨fuel - 2, by omega⟩
  rfl

theorem never_finished_byte :
    ∃ k c', Yields (qatWclose copying.recorded collectingSink byteWritten) (k, c') ∧
      k.2 = byteWritten.sess.2 ∧ (∀ call ∈ k.2, call.last = false) ∧
        ¬ Finished ([byteCall].flatMap Call.data) [] c' byteWritten.sess.2 k.2 :=
  @never_finished _ _ copying collecting _ _ _ _ _ _ byteCall_yields

/-- The byte comes to the child, but no last call is made. -/
theorem not_finished_byte :
    ¬ ∀ log s k c', Yields (fun fuel => runCalls (fun call s =>
        qatCall copying.recorded collectingSink call s fuel) [byteCall] (qatWopen ((), []) []))
          (log, s) →
      Yields (qatWclose copying.recorded collectingSink s) (k, c') →
        Finished ([byteCall].flatMap Call.data) [] c' s.sess.2 k.2 := by
  intro h
  have hlast := (h _ _ _ _ byteCall_yields (qatWclose_yields _)).last
  revert hlast
  decide

end Wandio.QatWriter
