import Wandio.QatReader.Model
import Wandio.Readers.WindowModel

/-!
# The input window of the QAT reader

Between `indecomp` and `inoffset` lies what the parent has returned and `qzDecompress` has not
taken.
-/

namespace Wandio.QatReader

open Codec InputWindow Loop Readers

variable {κ σ : Type*}

/-- A codec that counts what it takes in calls that do not fail. -/
def Qatzip.counted (qz : Qatzip κ) : Qatzip (κ × ℕ) where
  toCoder := qz.toCoder.counted qz.accepts
  ok := qz.ok
  bufError := qz.bufError
  dataError := qz.dataError

/-- The window is what the parent has returned, but for what the codec has taken. -/
def Tracked (s : State (κ × ℕ) (σ × List Byte)) : Prop :=
  Tracks insize s.inbuff s.indecomp s.inoffset s.parent.2 s.sess.2

section Turns

variable {qz : Qatzip κ} {parent : ShortSource σ} {len : ℕ} {s : State (κ × ℕ) (σ × List Byte)}
  {l : Locals (κ × ℕ) (σ × List Byte)}

theorem insize_lt : insize < 2 ^ 31 := by decide

theorem leave_io (l : Locals κ σ) (rc : ℤ) : (l.leave rc).2 = l.io := by
  unfold Locals.leave
  split <;> rfl

/-- A compaction keeps the bytes that have not been taken. -/
theorem makeRoom_tracked (h : Tracked s) : Tracked (makeRoom s) := by
  unfold makeRoom
  simp only
  split
  · split
    · next hempty => exact h.reset hempty
    · split
      · exact tracks_memmove h
      · exact h
  · exact h

/-- A read of the parent puts what it returns behind them. -/
theorem fillTurn_tracked (h : Tracked l.io) :
    (fillTurn parent.logged.toSource l).All (fun m => Tracked m.io) fun r => Tracked r.2 := by
  have hread := tracks_read parent insize_lt h
  unfold fillTurn
  simp only
  split
  · next hneg =>
    rw [Int.toNat_of_nonpos hneg.le] at hread
    apply Turn.All.done
    rw [leave_io]
    exact hread
  · split
    · next hend =>
      rw [hend.1] at hread
      apply Turn.All.done
      rw [leave_io]
      exact hread
    · exact .next hread

/-- A call of `qzDecompress` counts what it takes, if it does not fail. -/
theorem call_counted (qz : Qatzip κ) (k : κ × ℕ) (input : List Byte) (room : ℕ) :
    (qz.counted.call k () input room).state.2 = k.2 +
      if qz.counted.accepts (qz.counted.call k () input room).code
        then (qz.counted.call k () input room).consumed else 0 := rfl

/-- `qzDecompress` takes a part of the window. -/
theorem decodeTurn_tracked (h : Tracked l.io) :
    (decodeTurn qz.counted len l).All (fun m => Tracked m.io) fun r => Tracked r.2 := by
  have hcount := call_counted qz l.io.sess
    ((window l.io).take (cUInt (l.io.inoffset - l.io.indecomp))) (dstLen len)
  have hle := qz.counted.consumed_le l.io.sess ()
    ((window l.io).take (cUInt (l.io.inoffset - l.io.indecomp))) (dstLen len)
  unfold decodeTurn
  simp only
  split
  · apply Turn.All.done
    rw [leave_io]
    exact h
  · split
    · next hok =>
      rw [if_pos hok] at hcount
      have hwindow := hle.trans ((List.length_take_le' _ _).trans (List.length_take_le _ _))
      have hconsume := h.consume hwindow
      rw [← hcount] at hconsume
      exact .next hconsume
    · next hfailed =>
      rw [if_neg hfailed, Nat.add_zero] at hcount
      apply Turn.All.done
      unfold Tracked
      rw [hcount]
      exact h

/-- No turn of a read loses a byte of the window. -/
theorem readTurn_tracked (h : Tracked l.io) :
    (readTurn qz.counted parent.logged.toSource len l).All (fun m => Tracked m.io)
      fun r => Tracked r.2 := by
  unfold readTurn
  split
  · unfold topTurn
    split
    · exact .next (makeRoom_tracked h)
    · exact .done h
  · exact fillTurn_tracked h
  · exact decodeTurn_tracked h

/-- A read leaves in the window what the next one needs. -/
theorem qatRead_tracked {fuel : ℕ} {r : ReadResult × State (κ × ℕ) (σ × List Byte)}
    (h : Tracked s) (hr : qatRead qz.counted parent.logged.toSource len s fuel = some r) :
    Tracked r.2 := by
  unfold qatRead at hr
  split at hr
  · cases hr
    exact h
  · cases hr
    exact h
  · exact loop_all (I := fun l => Tracked l.io) (Q := fun r => Tracked r.2)
      (fun l hl => readTurn_tracked hl) h hr

/-- A reader that has just been opened has read nothing. -/
theorem tracked_open (sess : κ) (c : σ) : Tracked (qatOpen (sess, 0) (c, ([] : List Byte))) :=
  .empty insize []

/-- Wherever a turn is taken, the window is what has been returned and not been taken. -/
theorem takes_tracked {lens : List ℕ} (h : Tracked s)
    (htakes : Takes qz.counted parent.logged.toSource s lens len l) : Tracked l.io := by
  induction htakes with
  | now hok hvisits =>
    exact hvisits.all (I := fun l => Tracked l.io) (Q := fun r => Tracked r.2)
      (fun l hl => readTurn_tracked hl) h
  | later hread _ ih => exact ih (qatRead_tracked h hread)

end Turns

/-- The loop of `_read_from_parent`. -/
def inbuffLoop : FillLoop (Locals κ σ) (ReadResult × State κ σ) σ where
  size := insize
  start l := l.io.indecomp
  stop l := l.io.inoffset
  source l := l.io.parent
  inside l := l.point = .fill
  left r := r.2.parent
  err r := r.2.err

instance : DecidablePred (inbuffLoop : FillLoop (Locals κ σ) (ReadResult × State κ σ) σ).inside :=
  fun l => inferInstanceAs (Decidable (l.point = .fill))

/-- A turn of `_read_from_parent` is one of a loop that fills an array. -/
theorem fillTurn_fills (parent : ShortSource σ) :
    Fills parent.toSource (inbuffLoop : FillLoop (Locals κ σ) _ σ) (fillTurn parent.toSource) := by
  constructor
  intro l hpoint
  obtain ⟨hbytes, _⟩ := read_ret parent l.io.parent
    ((Nat.sub_le insize l.io.inoffset).trans_lt insize_lt)
  unfold fillTurn
  simp only
  rw [hbytes]
  split
  · next hneg =>
    exact .done ⟨congrArg State.parent (leave_io _ _),
      .inl ⟨hneg, congrArg State.err (leave_io _ _)⟩⟩
  · next hret =>
    split
    · next hend =>
      exact .done ⟨congrArg State.parent (leave_io _ _),
        .inr ⟨hend.1, hend.2.symm, congrArg State.err (leave_io _ _)⟩⟩
    · next hmore =>
      refine .next
        ⟨⟨not_lt.mp hret, fun hzero hempty => hmore ⟨hzero, hempty.symm⟩⟩, rfl, rfl, rfl, ?_⟩
      exact fills_iff (by decide) rfl

/-- At `l` the window is what it should be, and if the parent is about to be read, the window it is
given is inside of `inbuff`, and the loop comes to its end as the parent has it. -/
structure WindowKept (parent : ShortSource (σ × List Byte))
    (l : Locals (κ × ℕ) (σ × List Byte)) : Prop where
  tracked : Tracked l.io
  inside : l.point = .fill → l.io.inoffset + (insize - l.io.inoffset) ≤ insize
  fills : l.point = .fill → ∃ r,
    Yields (fun fuel =>
      loop (part (fun l => l.point = .fill) (fillTurn parent.toSource)) fuel l) r ∧
      FillLeft parent.toSource inbuffLoop l r

theorem Tracked.windowKept {l : Locals (κ × ℕ) (σ × List Byte)} (h : Tracked l.io)
    (parent : ShortSource (σ × List Byte)) : WindowKept parent l := by
  refine ⟨h, fun _ => ?_, fun hpoint => (fillTurn_fills parent).left insize_lt l hpoint⟩
  have hstop := h.holds.stop_le
  omega

end Wandio.QatReader
