import Wandio.StreamWriter.CloseTheorems

/-!
# What a flush of the zlib writer leaves behind

`zlib_wflush` calls `deflate` once, with the room that is left in `outbuff` then. What does not
fit there stays with the compressor, and nothing but a later call brings it out.
-/

namespace Wandio.StreamWriter

open Codec Loop

variable {κ σ : Type*}

/-- A compressor that keeps the documented rule of `Z_SYNC_FLUSH`. `At k fed out` says that in
state `k` it has taken `fed` and emitted `out`. A flush emits the `due` bytes as far as there is
room, and is complete if it comes back with room left: then all of the input can be decoded from
the output. -/
structure SyncFlushes (z : Coder κ Action Byte) (At : κ → List Byte → List Byte → Prop)
    (inflate : List Byte → List Byte) (due : κ → ℕ) (Complete : κ → Prop) : Prop where
  at_run : ∀ k fed out input room, At k fed out → (z.call k .run input room).code = zOk →
    At (z.call k .run input room).state (fed ++ input.take (z.call k .run input room).consumed)
      (out ++ (z.call k .run input room).output)
  at_flush : ∀ k fed out room, At k fed out → (z.call k .flush [] room).code ≠ zStreamError →
    At (z.call k .flush [] room).state fed (out ++ (z.call k .flush [] room).output)
  emits : ∀ k fed out room, At k fed out → (z.call k .flush [] room).code ≠ zStreamError →
    (z.call k .flush [] room).output.length = min (due k) room
  complete : ∀ k fed out room, At k fed out → (z.call k .flush [] room).code ≠ zStreamError →
    (Complete (z.call k .flush [] room).state ↔ (z.call k .flush [] room).output.length < room)
  inflates : ∀ k fed out, At k fed out → Complete k → inflate out = fed

/-- The bytes of a sequence of calls that `avail_in` can tell. -/
def taken (calls : List ZlibCall) : List Byte :=
  calls.flatMap fun call => call.buffer.take (cUInt call.buffer.length)

/-- `avail_in` tells the length of a write below 4 GiB. -/
theorem take_cUInt_eq_iff (b : List Byte) : b.take (cUInt b.length) = b ↔ b.length < 2 ^ 32 := by
  constructor
  · intro h
    have hlen := congrArg List.length h
    rw [List.length_take] at hlen
    unfold cUInt at hlen
    omega
  · intro h
    rw [cUInt_of_lt h, List.take_length]

theorem length_taken_le (calls : List ZlibCall) :
    (taken calls).length ≤ (brought calls).length := by
  induction calls with
  | nil => exact le_rfl
  | cons call calls ih =>
    have hle := List.length_take_le' (cUInt call.buffer.length) call.buffer
    simp only [taken, brought, List.flatMap_cons, List.length_append] at ih ⊢
    omega

/-- All bytes are taken if no write is too long. -/
theorem taken_eq_brought_iff (calls : List ZlibCall) :
    taken calls = brought calls ↔ ∀ call ∈ calls, call.buffer.length < 2 ^ 32 := by
  induction calls with
  | nil => exact iff_of_true rfl nofun
  | cons call calls ih =>
    rw [List.forall_mem_cons, ← ih, ← take_cUInt_eq_iff]
    constructor
    · intro h
      have hle := length_taken_le calls
      have hle' := List.length_take_le' (cUInt call.buffer.length) call.buffer
      -- no part is longer than what it is taken from
      have hlen := congrArg List.length h
      simp only [taken, brought, List.flatMap_cons, List.length_append] at hlen hle
      exact List.append_inj h (by omega)
    · rintro ⟨hcall, hcalls⟩
      simp only [taken, brought, List.flatMap_cons] at hcalls ⊢
      rw [hcall, hcalls]

section Calls

variable {z : Coder κ Action Byte} {At : κ → List Byte → List Byte → Prop}
  {inflate : List Byte → List Byte} {due : κ → ℕ} {Complete : κ → Prop} {child : ByteFlushSink σ}
  {c : σ} {fed : List Byte} {s t : State κ σ} {ret : ℤ} {fuel : ℕ}

/-- A turn of a write that records no error. -/
theorem Writing.next (hz : SyncFlushes z At inflate due Complete) {piece : List Byte} {len : ℕ}
    (h : s.err = .ok → Writing At child.toByteSink c fed piece s)
    (ht : wwriteTurn z child.toSink (fun err => err = zOk) len s = .next t) (hok : t.err = .ok) :
    Writing At child.toByteSink c fed piece t := by
  by_cases hin : s.err = .ok ∧ 0 < s.nextIn.length
  · by_cases hfull : s.availOut = 0
    · obtain ⟨u, hu, hwriting, -⟩ : ∃ u,
          wwriteTurn z child.toSink (fun err => err = zOk) len s = .next u ∧
            Writing At child.toByteSink c fed piece u ∧
            workLeft (fun _ => 0) u < workLeft (fun _ => 0) s :=
        (h hin.1).flush hfull hin.2
      rw [ht] at hu
      cases hu
      exact hwriting
    · rw [wwriteTurn, if_pos hin, if_neg (by omega)] at ht
      cases ht
      have hcode : (z.call s.strm .run s.nextIn s.availOut).code = zOk := by
        by_contra hne
        simp [hne] at hok
      simp only [hcode, decide_true, if_true]
      exact (h hin.1).ran fun fed out hat =>
        hz.at_run s.strm fed out s.nextIn s.availOut hat hcode
  · rw [wwriteTurn, if_neg hin] at ht
    cases ht

/-- The last turn of a write that records no error: no input is left. -/
theorem Writing.done {piece : List Byte} {len : ℕ}
    (h : s.err = .ok → Writing At child.toByteSink c fed piece s)
    (ht : wwriteTurn z child.toSink (fun err => err = zOk) len s = .done (ret, t))
    (hok : t.err = .ok) : Pumping At child.toByteSink c (fed ++ piece) t ∧ t.nextIn = [] := by
  by_cases hin : s.err = .ok ∧ 0 < s.nextIn.length
  · by_cases hfull : s.availOut = 0
    · obtain ⟨u, hu, -⟩ : ∃ u,
          wwriteTurn z child.toSink (fun err => err = zOk) len s = .next u ∧
            Writing At child.toByteSink c fed piece u ∧
            workLeft (fun _ => 0) u < workLeft (fun _ => 0) s :=
        (h hin.1).flush hfull hin.2
      rw [ht] at hu
      cases hu
    · rw [wwriteTurn, if_pos hin, if_neg (by omega)] at ht
      cases ht
  · rw [wwriteTurn, if_neg hin] at ht
    cases ht
    obtain ⟨before, hbefore, hpump⟩ := (h hok).taken
    have hnil : s.nextIn = [] := by
      by_contra hne
      exact hin ⟨hok, List.length_pos_iff.mpr hne⟩
    rw [hnil, List.append_nil] at hbefore
    exact ⟨hbefore ▸ hpump, hnil⟩

/-- A write that records no error: the compressor has taken what `avail_in` tells. -/
theorem zlibWwrite_pumping (hz : SyncFlushes z At inflate due Complete) {b : List Byte}
    (h : s.err = .ok → Pumping At child.toByteSink c fed s)
    (hr : zlibWwrite z child.toSink b s fuel = some (ret, t)) (hok : t.err = .ok) :
    s.err = .ok ∧ Pumping At child.toByteSink c (fed ++ b.take (cUInt b.length)) t ∧
      t.nextIn = [] := by
  unfold zlibWwrite wwrite at hr
  cases herr : s.err with
  | eof =>
    simp only [herr] at hr
    cases hr
    exact absurd (herr.symm.trans hok) (by decide)
  | error =>
    simp only [herr] at hr
    cases hr
    exact absurd (herr.symm.trans hok) (by decide)
  | ok =>
    simp only [herr] at hr
    have hpump := h herr
    have hstart : Writing At child.toByteSink c fed (b.take (cUInt b.length))
        { s with nextIn := b.take (cUInt b.length), err := .ok } := by
      refine ⟨[], rfl, rfl, hpump.room, ?_⟩
      rw [List.append_nil]
      exact hpump.emitted
    refine ⟨rfl, loop_invariant
      (I := fun u => u.err = .ok → Writing At child.toByteSink c fed (b.take (cUInt b.length)) u)
      (Q := fun r => r.2.err = .ok →
        Pumping At child.toByteSink c (fed ++ b.take (cUInt b.length)) r.2 ∧ r.2.nextIn = [])
      (fun u v hu hv => Writing.next hz hu hv) (fun u r hu hv => Writing.done hu hv)
      (fun _ => hstart) hr hok⟩

/-- A flush that fails records it. -/
theorem zlibWflush_streamError (child : ByteFlushSink σ)
    (hcode : (z.call s.strm .flush s.nextIn s.availOut).code = zStreamError)
    (hr : zlibWflush z child.toFlushSink s = (ret, t)) : ret = -1 ∧ t.err = .error := by
  unfold zlibWflush at hr
  simp only [hcode, if_true] at hr
  cases hr
  exact ⟨rfl, rfl⟩

/-- A flush does not take an error back. -/
theorem zlibWflush_err (hr : zlibWflush z child.toFlushSink s = (ret, t)) (hok : t.err = .ok) :
    s.err = .ok := by
  unfold zlibWflush at hr
  simp only at hr
  split at hr
  · cases hr
    cases hok
  · split at hr
    · cases hr
      cases hok
    · split at hr
      · cases hr
        cases hok
      · cases hr
        exact hok

/-- What a flush that does not fail leaves behind. -/
theorem zlibWflush_pumping (hz : SyncFlushes z At inflate due Complete)
    (h : Pumping At child.toByteSink c fed s) (hnil : s.nextIn = [])
    (hr : zlibWflush z child.toFlushSink s = (ret, t))
    (hcode : (z.call s.strm .flush [] s.availOut).code ≠ zStreamError) :
    Pumping At child.toByteSink c fed t ∧ t.nextIn = [] ∧ t.outbuff = [] ∧
      t.strm = (z.call s.strm .flush [] s.availOut).state := by
  rw [← hnil] at hcode
  obtain ⟨c', heq, hreceived⟩ := zlibWflush_eq child h.room hcode
  rw [hnil] at heq hreceived hcode
  rw [hr] at heq
  cases heq
  obtain ⟨out, hat, hout⟩ := h.emitted
  refine ⟨⟨h.err, Nat.zero_le _, _, hz.at_flush _ _ _ _ hat hcode, ?_⟩, List.drop_nil, rfl, rfl⟩
  rw [child.received_flush, hreceived, List.append_nil, ← List.append_assoc, hout,
    List.append_assoc]

/-- Behind calls that have recorded no error. -/
structure Unfailed (At : κ → List Byte → List Byte → Prop) (child : ByteFlushSink σ) (c : σ)
    (calls : List ZlibCall) (s : State κ σ) : Prop where
  pumping : Pumping At child.toByteSink c (taken calls) s
  nil : s.nextIn = []

theorem zlibCall_unfailed (hz : SyncFlushes z At inflate due Complete) {calls : List ZlibCall}
    (h : s.err = .ok → Unfailed At child c calls s) {call : ZlibCall}
    (hr : zlibCall z child.toFlushSink call s fuel = some (ret, t)) (hok : t.err = .ok) :
    Unfailed At child c (calls ++ [call]) t := by
  have htaken : taken (calls ++ [call]) =
      taken calls ++ call.buffer.take (cUInt call.buffer.length) := by
    rw [taken, List.flatMap_append, List.flatMap_singleton]
    rfl
  cases call with
  | write b =>
    obtain ⟨-, hpump, hnil⟩ := zlibWwrite_pumping hz (fun herr => (h herr).pumping) hr hok
    exact ⟨by rw [htaken]; exact hpump, hnil⟩
  | flush =>
    have hflush : zlibWflush z child.toFlushSink s = (ret, t) := Option.some.inj hr
    obtain ⟨hpump, hnil⟩ := h (zlibWflush_err hflush hok)
    have hcode : (z.call s.strm .flush [] s.availOut).code ≠ zStreamError := by
      rw [← hnil]
      intro hcode
      rw [(zlibWflush_streamError child hcode hflush).2] at hok
      cases hok
    obtain ⟨hpump', hnil', -⟩ := zlibWflush_pumping hz hpump hnil hflush hcode
    refine ⟨?_, hnil'⟩
    rw [htaken, show ZlibCall.flush.buffer.take _ = [] from rfl, List.append_nil]
    exact hpump'

end Calls

/-! ## Runs -/

section Runs

variable {z : Coder κ Action Byte} {At : κ → List Byte → List Byte → Prop}
  {inflate : List Byte → List Byte} {due : κ → ℕ} {Complete : κ → Prop} {child : ByteFlushSink σ}
  {c : σ} {k : κ} {calls : List ZlibCall} {fuel : ℕ} {log : List (ZlibCall × ℤ)} {s t : State κ σ}
  {ret : ℤ}

theorem zlibCalls_unfailed (hz : SyncFlushes z At inflate due Complete) (hk : At k [] [])
    (hrun : runCalls (fun call s => zlibCall z child.toFlushSink call s fuel) calls
      (zlibWopen k c) = some (log, s)) (hok : s.err = .ok) :
    Unfailed At child c (log.map Prod.fst) s := by
  refine runCalls_invariant (I := fun log s => s.err = .ok →
    Unfailed At child c (log.map Prod.fst) s) ?_ [] (fun _ => ⟨?_, rfl⟩) hrun hok
  · intro log call s ret t _ hs hr hokt
    rw [List.map_append]
    exact zlibCall_unfailed hz hs hr hokt
  · exact ⟨rfl, Nat.zero_le _, [], hk, rfl⟩

/-- The bytes of all calls can be decoded from what the child has received, and the compressor
holds nothing back. -/
def Decodable (inflate : List Byte → List Byte) (Complete : κ → Prop) (child : ByteFlushSink σ)
    (c : σ) (calls : List ZlibCall) (s : State κ σ) : Prop :=
  Complete s.strm ∧
    ∃ out, child.received s.child = child.received c ++ out ∧ inflate out = brought calls

/-- Behind any calls that have recorded no error, a flush that succeeds is complete exactly if what
the compressor had to emit left room in `outbuff`, and no write has been longer than `avail_in` can
tell. -/
theorem flush_complete_iff (hz : SyncFlushes z At inflate due Complete) (hk : At k [] [])
    (hrun : runCalls (fun call s => zlibCall z child.toFlushSink call s fuel) calls
      (zlibWopen k c) = some (log, s)) (hok : s.err = .ok)
    (hflush : zlibWflush z child.toFlushSink s = (ret, t)) (hret : 0 ≤ ret) :
    Decodable inflate Complete child c calls t ↔
      due s.strm < s.availOut ∧ ∀ call ∈ calls, call.buffer.length < 2 ^ 32 := by
  obtain ⟨hpump, hnil⟩ := zlibCalls_unfailed hz hk hrun hok
  rw [runCalls_fst hrun] at hpump
  have hcode : (z.call s.strm .flush [] s.availOut).code ≠ zStreamError := by
    rw [← hnil]
    intro hcode
    have := (zlibWflush_streamError child hcode hflush).1
    omega
  obtain ⟨_, hat, _⟩ := hpump.emitted
  have hemits := hz.emits _ _ _ s.availOut hat hcode
  have hcomplete := hz.complete _ _ _ s.availOut hat hcode
  obtain ⟨hpump', -, houtbuff, hstrm⟩ := zlibWflush_pumping hz hpump hnil hflush hcode
  obtain ⟨out, hat', hout⟩ := hpump'.emitted
  rw [houtbuff, List.append_nil] at hout
  have hroom : Complete t.strm ↔ due s.strm < s.availOut := by
    rw [hstrm, hcomplete, hemits]
    omega
  rw [← taken_eq_brought_iff, ← hroom, Decodable]
  refine and_congr_right fun hc => ?_
  rw [← hz.inflates _ _ _ hat' hc]
  constructor
  · rintro ⟨out', hout', hbrought⟩
    rwa [List.append_cancel_left (hout.symm.trans hout')]
  · intro hbrought
    exact ⟨out, hout, hbrought⟩

end Runs

/-! ## A compressor that holds back -/

/-- What is held back, and whether a flush has been complete. -/
structure Held where
  held : List Byte
  flushed : Bool

/-- A compressor that stores its input and holds back the last `kept` bytes of it. -/
def holdingBack (kept : ℕ) : Coder Held Action Byte where
  call k a input room :=
    match a with
    | .run =>
      let n := min ((k.held ++ input).length - kept) room
      ⟨⟨(k.held ++ input).drop n, false⟩, input.length, (k.held ++ input).take n, zOk⟩
    | .flush | .finish =>
      ⟨⟨k.held.drop room, k.held.length < room⟩, 0, k.held.take room,
        if room = 0 then zBufError else zOk⟩
  consumed_le k a input room := by
    cases a with
    | run => exact le_rfl
    | flush => exact Nat.zero_le _
    | finish => exact Nat.zero_le _
  output_le k a input room := by
    cases a with
    | run => exact (List.length_take_le _ _).trans (Nat.min_le_right _ _)
    | flush => exact List.length_take_le _ _
    | finish => exact List.length_take_le _ _

/-- What has been taken is emitted or held back, and emitted behind a complete flush. -/
def HeldAt (k : Held) (fed out : List Byte) : Prop :=
  out ++ k.held = fed ∧ (k.flushed = true → k.held = [])

theorem holdingBack_syncFlushes (kept : ℕ) :
    SyncFlushes (holdingBack kept) HeldAt id (fun k => k.held.length)
      fun k => k.flushed = true where
  at_run k fed out input room h _ := by
    refine ⟨?_, nofun⟩
    show (out ++ List.take _ _) ++ List.drop _ _ = fed ++ input.take input.length
    rw [List.append_assoc, List.take_append_drop, List.take_length, ← List.append_assoc, h.1]
  at_flush k fed out room h _ := by
    refine ⟨?_, fun hflushed => ?_⟩
    · show (out ++ k.held.take room) ++ k.held.drop room = fed
      rw [List.append_assoc, List.take_append_drop, h.1]
    · exact List.drop_of_length_le (of_decide_eq_true hflushed).le
  emits k fed out room _ _ := by
    show (k.held.take room).length = _
    rw [List.length_take, Nat.min_comm]
  complete k fed out room _ _ := by
    show decide (k.held.length < room) = true ↔ (k.held.take room).length < room
    rw [decide_eq_true_iff, List.length_take]
    omega
  inflates k fed out h hk := by
    rw [← h.1, h.2 hk, List.append_nil]
    rfl

/-- The first write goes through in one call of the compressor. -/
theorem zlibWwrite_holdingBack (kept : ℕ) {b : List Byte} (hpos : 0 < b.length)
    (hlen : b.length < 2 ^ 32) :
    zlibWwrite (holdingBack kept) collecting.toSink b (zlibWopen ⟨[], false⟩ []) 2 =
      some ((b.length : ℤ),
        { strm := ⟨b.drop (min (b.length - kept) wandioBufferSize), false⟩
          nextIn := []
          outbuff := b.take (min (b.length - kept) wandioBufferSize)
          child := []
          err := .ok }) := by
  have hroom : ¬ wandioBufferSize - ([] : List Byte).length ≤ 0 := by decide
  unfold zlibWwrite wwrite
  simp only [zlibWopen, wopen, cUInt_of_lt hlen, List.take_length]
  rw [loop, wwriteTurn, if_pos ⟨rfl, hpos⟩, State.availOut, if_neg hroom]
  simp only
  rw [loop, wwriteTurn, if_neg]
  · simp only [holdingBack, List.drop_length, List.length_nil, List.nil_append, decide_true,
      if_true]
    simp
  · simp [holdingBack]

/-- Two bytes are written and flushed: they fit. -/
theorem flush_complete_iff_letters : ∃ s t,
    runCalls (fun call s => zlibCall (holdingBack 4) collectingFlush.toFlushSink call s 2)
      [.write [1, 2]] (zlibWopen ⟨[], false⟩ []) = some ([(.write [1, 2], 2)], s) ∧
    zlibWflush (holdingBack 4) collectingFlush.toFlushSink s = (0, t) ∧
    Decodable id (fun k => k.flushed = true) collectingFlush [] [.write [1, 2]] t := by
  have hrun : runCalls (fun call s => zlibCall (holdingBack 4) collectingFlush.toFlushSink call s 2)
      [.write [1, 2]] (zlibWopen ⟨[], false⟩ []) =
        some ([(.write [1, 2], 2)], ⟨⟨[1, 2], false⟩, [], [], [], .ok⟩) := rfl
  have hflush : zlibWflush (holdingBack 4) collectingFlush.toFlushSink
      ⟨⟨[1, 2], false⟩, [], [], [], .ok⟩ = (0, ⟨⟨[], true⟩, [], [], [1, 2], .ok⟩) := rfl
  refine ⟨_, _, hrun, hflush, ?_⟩
  have hopen : HeldAt ⟨[], false⟩ [] [] := ⟨rfl, fun _ => rfl⟩
  refine (flush_complete_iff (holdingBack_syncFlushes 4) hopen hrun rfl hflush le_rfl).mpr
    ⟨by decide, ?_⟩
  intro call hcall
  rw [List.mem_singleton.mp hcall]
  show 2 < 2 ^ 32
  decide

/-- Without room no flush is complete. -/
theorem holdingBack_flush_zero (kept : ℕ) (k : Held) (input : List Byte) :
    ((holdingBack kept).call k .flush input 0).state.flushed = false :=
  decide_eq_false (Nat.not_lt_zero k.held.length)

/-- 1 MiB and 32 KiB. -/
def longWrite : List Byte := List.replicate (2 ^ 20 + 2 ^ 15) 0

theorem length_longWrite : longWrite.length = 2 ^ 20 + 2 ^ 15 := List.length_replicate

/-- The last 32 KiB of a long write stay with the compressor, as `outbuff` is full when it is
flushed. -/
theorem flush_incomplete :
    SyncFlushes (holdingBack (2 ^ 15)) HeldAt id (fun k => k.held.length)
      (fun k => k.flushed = true) ∧
    HeldAt ⟨[], false⟩ [] [] ∧ ∃ s t,
      runCalls (fun call s => zlibCall (holdingBack (2 ^ 15)) collectingFlush.toFlushSink call s 2)
        [.write longWrite] (zlibWopen ⟨[], false⟩ []) =
          some ([(.write longWrite, (longWrite.length : ℤ))], s) ∧
      s.err = .ok ∧ zlibWflush (holdingBack (2 ^ 15)) collectingFlush.toFlushSink s = (0, t) ∧
      t.child.length = wandioBufferSize ∧ wandioBufferSize < longWrite.length ∧
      ¬ Decodable id (fun k => k.flushed = true) collectingFlush [] [.write longWrite] t := by
  have hlen := length_longWrite
  have hsize : wandioBufferSize = 2 ^ 20 := rfl
  have hwrite := zlibWwrite_holdingBack (2 ^ 15) (show 0 < longWrite.length by omega) (by omega)
  have hstaged : min (longWrite.length - 2 ^ 15) wandioBufferSize = wandioBufferSize := by omega
  rw [hstaged] at hwrite
  set s : State Held (List Byte) := ⟨⟨longWrite.drop wandioBufferSize, false⟩, [],
    longWrite.take wandioBufferSize, [], .ok⟩ with hs
  have hfull : s.outbuff.length = wandioBufferSize := by
    rw [hs, List.length_take]
    omega
  have hroom : s.availOut = 0 := by rw [State.availOut, hfull, Nat.sub_self]
  have hcode : ((holdingBack (2 ^ 15)).call s.strm .flush s.nextIn s.availOut).code ≠
      zStreamError := by
    rw [hroom]
    show zBufError ≠ zStreamError
    decide
  obtain ⟨c', hflush, hreceived⟩ := zlibWflush_eq collectingFlush hfull.le hcode
  refine ⟨holdingBack_syncFlushes _, ⟨rfl, nofun⟩, s, _, ?_, rfl, hflush, ?_, by omega, ?_⟩
  · have hcall : zlibCall (holdingBack (2 ^ 15)) collectingFlush.toFlushSink (.write longWrite)
        (zlibWopen ⟨[], false⟩ []) 2 = some ((longWrite.length : ℤ), s) := hwrite
    rw [runCalls, hcall]
    rfl
  · show c'.length = wandioBufferSize
    have hc' : c' = [] ++ (s.outbuff ++ _) := hreceived
    rw [hc', hroom, List.nil_append, List.length_append, hfull]
    rfl
  · rintro ⟨hcomplete, -⟩
    rw [hroom] at hcomplete
    have hheld := holdingBack_flush_zero (2 ^ 15) s.strm s.nextIn
    exact absurd (hcomplete.symm.trans hheld) (by decide)

end Wandio.StreamWriter
