import Wandio.Readers.WindowModel
import Wandio.ZstdLz4Reader.Model

/-!
# The input window of the zstd/lz4 reader

Between `inbuf_index` and `inbuf_len` lies what the parent has returned and the decoders have not
taken. A reset, a compaction, a read of the parent and a call of a decoder keep it so.
-/

namespace Wandio.ZstdLz4Reader

open Codec InputWindow Loop Readers

variable {ζ κ σ : Type*}

/-- The decoders count what they take in calls that do not fail. -/
def takes (code : ℤ) : Bool := 0 ≤ code

/-- The window is what the parent has returned, but for what the decoders have taken. -/
def Tracked (s : State (ζ × ℕ) (κ × ℕ) (σ × List Byte)) : Prop :=
  Tracks inbufSize s.inbuf s.inbufIndex s.inbufLen s.parent.2 (s.stream.2 + s.dcCtxt.2)

section Turns

variable {build : Build} {zstd : Coder ζ Unit Byte} {lz4 : Coder κ Unit Byte}
  {parent : ShortSource σ} {len : ℕ} {s : State (ζ × ℕ) (κ × ℕ) (σ × List Byte)}
  {l : Locals (ζ × ℕ) (κ × ℕ) (σ × List Byte)}

/-- A reset and a compaction keep the bytes that have not been taken. -/
theorem topTurn_tracked (h : Tracked l.io) : Tracked (topTurn build l).io := by
  unfold topTurn
  simp only
  split
  · split
    · next hempty => exact h.reset hempty
    · split
      · exact tracks_memmove h
      · exact h
  · exact h

theorem inbufSize_lt : inbufSize < 2 ^ 31 := by decide

/-- A read of the parent puts what it returns behind them. -/
theorem fillTurn_tracked (h : Tracked l.io) :
    (fillTurn parent.logged.toSource l).All (fun m => Tracked m.io) fun r => Tracked r.2 := by
  have hread := tracks_read parent inbufSize_lt h
  unfold fillTurn
  simp only
  split
  · next hneg =>
    rw [Int.toNat_of_nonpos hneg.le] at hread
    exact .done hread
  · split
    · next hend =>
      rw [hend.1] at hread
      exact .done hread
    · exact .next hread

/-- A call of a decoder counts what it takes, if it does not fail. -/
theorem decompress_counted (build : Build) (zstd : Coder ζ Unit Byte) (lz4 : Coder κ Unit Byte)
    (len : ℕ) (outbufIndex : ℤ) (s : State (ζ × ℕ) (κ × ℕ) (σ × List Byte)) :
    ∃ stream dcCtxt consumed output code,
      decompress build (zstd.counted takes) (lz4.counted takes) len outbufIndex s =
        ⟨{ s with stream := stream, dcCtxt := dcCtxt }, consumed, output, code⟩ ∧
      consumed ≤ (window s).length ∧
      stream.2 + dcCtxt.2 = s.stream.2 + s.dcCtxt.2 + if takes code then consumed else 0 := by
  unfold decompress
  split
  · exact ⟨s.stream, s.dcCtxt, 0, [], -1, rfl, Nat.zero_le _, rfl⟩
  · split
    · refine ⟨_, _, _, _, _, rfl, (zstd.counted takes).consumed_le .., ?_⟩
      exact Nat.add_right_comm ..
    · split
      · refine ⟨_, _, _, _, _, rfl, (lz4.counted takes).consumed_le .., ?_⟩
        exact (Nat.add_assoc ..).symm
      · exact ⟨s.stream, s.dcCtxt, 0, [], 1, rfl, Nat.zero_le _, rfl⟩

/-- A call of a decoder takes its bytes from the front, and none if it fails. -/
theorem decodeFrame_tracked (h : Tracked s) :
    (decodeFrame build (zstd.counted takes) (lz4.counted takes) len l s).All
      (fun m => Tracked m.io) fun r => Tracked r.2 := by
  obtain ⟨stream, dcCtxt, consumed, output, code, hcall, hle, hcount⟩ :=
    decompress_counted build zstd lz4 len l.outbufIndex s
  unfold decodeFrame
  rw [hcall]
  simp only
  split
  · next hfailed =>
    have hcount' : stream.2 + dcCtxt.2 = s.stream.2 + s.dcCtxt.2 := by
      rw [hcount, if_neg (by simp [takes, hfailed]), Nat.add_zero]
    apply Turn.All.done
    show Tracks inbufSize s.inbuf s.inbufIndex s.inbufLen s.parent.2 (stream.2 + dcCtxt.2)
    rw [hcount']
    exact h
  · next hok =>
    have hcount' : stream.2 + dcCtxt.2 = s.stream.2 + s.dcCtxt.2 + consumed := by
      rw [hcount, if_pos (by simpa [takes] using hok)]
    have hconsume : Tracks inbufSize s.inbuf (s.inbufIndex + consumed) s.inbufLen s.parent.2
        (stream.2 + dcCtxt.2) := by
      rw [hcount']
      have hlen : (window s).length ≤ s.inbufLen - s.inbufIndex := List.length_take_le ..
      exact h.consume (hle.trans hlen)
    split
    · exact .done hconsume
    · split
      · exact .done hconsume
      · exact .next hconsume

/-- No turn of a read loses a byte of the window. -/
theorem readTurn_tracked (h : Tracked l.io) :
    (readTurn build (zstd.counted takes) (lz4.counted takes) parent.logged.toSource len l).All
      (fun m => Tracked m.io) fun r => Tracked r.2 := by
  unfold readTurn
  split
  · exact .next (topTurn_tracked h)
  · exact fillTurn_tracked h
  · unfold decodeTurn
    split
    · exact .done h
    · split
      · exact .done h
      · exact decodeFrame_tracked h

/-- A read leaves in the window what the next one needs. -/
theorem zstdLz4Read_tracked {fuel : ℕ} {r : ReadResult × State (ζ × ℕ) (κ × ℕ) (σ × List Byte)}
    (h : Tracked s)
    (hr : zstdLz4Read build (zstd.counted takes) (lz4.counted takes) parent.logged.toSource len s
      fuel = some r) : Tracked r.2 := by
  unfold zstdLz4Read at hr
  split at hr
  · cases hr
    exact h
  · cases hr
    exact h
  · exact loop_all (I := fun l => Tracked l.io) (Q := fun r => Tracked r.2)
      (fun l hl => readTurn_tracked hl) h hr

/-- A reader that has just been opened has read nothing. -/
theorem tracked_open (stream : ζ) (dcCtxt : κ) (c : σ) :
    Tracked (zstdLz4Open (stream, 0) (dcCtxt, 0) (c, ([] : List Byte))) :=
  .empty inbufSize []

/-- Wherever a turn is taken, the window is what has been returned and not been taken. -/
theorem takes_tracked {lens : List ℕ} (h : Tracked s)
    (htakes : Takes build (zstd.counted takes) (lz4.counted takes) parent.logged.toSource s lens
      len l) : Tracked l.io := by
  induction htakes with
  | now hok hvisits =>
    exact hvisits.all (I := fun l => Tracked l.io) (Q := fun r => Tracked r.2)
      (fun l hl => readTurn_tracked hl) h
  | later hread _ ih => exact ih (zstdLz4Read_tracked h hread)

end Turns

/-- The loop that fills `inbuf`. -/
def inbufLoop : FillLoop (Locals ζ κ σ) (ReadResult × State ζ κ σ) σ where
  size := inbufSize
  start l := l.io.inbufIndex
  stop l := l.io.inbufLen
  source l := l.io.parent
  inside l := l.point = .fill
  left r := r.2.parent
  err r := r.2.err

instance :
    DecidablePred (inbufLoop : FillLoop (Locals ζ κ σ) (ReadResult × State ζ κ σ) σ).inside :=
  fun l => inferInstanceAs (Decidable (l.point = .fill))

/-- A turn of the loop that fills `inbuf` is one of a loop that fills an array. -/
theorem fillTurn_fills (parent : ShortSource σ) :
    Fills parent.toSource (inbufLoop : FillLoop (Locals ζ κ σ) _ σ) (fillTurn parent.toSource) := by
  constructor
  intro l hpoint
  obtain ⟨hbytes, _⟩ := read_ret parent l.io.parent
    ((Nat.sub_le inbufSize l.io.inbufLen).trans_lt inbufSize_lt)
  unfold fillTurn
  simp only
  rw [hbytes]
  split
  · next hneg => exact .done ⟨rfl, .inl ⟨hneg, rfl⟩⟩
  · next hret =>
    split
    · next hend => exact .done ⟨rfl, .inr ⟨hend.1, hend.2.symm, rfl⟩⟩
    · next hmore =>
      refine .next
        ⟨⟨not_lt.mp hret, fun hzero hempty => hmore ⟨hzero, hempty.symm⟩⟩, rfl, rfl, rfl, ?_⟩
      exact fills_iff (by decide) rfl

/-- At `l` the window is what it should be, and if the parent is about to be read, the window it is
given is inside of `inbuf`, and the loop comes to its end as the parent has it. -/
structure WindowKept (parent : ShortSource (σ × List Byte))
    (l : Locals (ζ × ℕ) (κ × ℕ) (σ × List Byte)) : Prop where
  tracked : Tracked l.io
  inside : l.point = .fill → l.io.inbufLen + (inbufSize - l.io.inbufLen) ≤ inbufSize
  fills : l.point = .fill → ∃ r,
    Yields (fun fuel =>
      loop (part (fun l => l.point = .fill) (fillTurn parent.toSource)) fuel l) r ∧
      FillLeft parent.toSource inbufLoop l r

/-- With the window as it should be a read of the parent stays inside of `inbuf`, and the loop
that fills it comes to its end. -/
theorem Tracked.windowKept {l : Locals (ζ × ℕ) (κ × ℕ) (σ × List Byte)} (h : Tracked l.io)
    (parent : ShortSource (σ × List Byte)) : WindowKept parent l := by
  refine ⟨h, fun _ => ?_, fun hpoint => (fillTurn_fills parent).left inbufSize_lt l hpoint⟩
  have hstop := h.holds.stop_le
  omega

end Wandio.ZstdLz4Reader
