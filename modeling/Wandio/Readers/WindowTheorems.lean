import Wandio.QatReader.BufferTheorems
import Wandio.QatReader.WindowTheorems
import Wandio.ZstdLz4Reader.HeldTheorems
import Wandio.ZstdLz4Reader.WindowTheorems

/-!
# The input windows of the readers

Whatever the parent returns and however much of it the decoders take at a time: over any reads, the
readers hold what they have read and not decoded.
-/

namespace Wandio.Readers

open Codec Loop

variable {ζ κ κ' σ : Type*}

/-- In any reads from an open on, wherever the loops take a turn and wherever a read ends, the
window of the zstd/lz4 reader, and the one of the QAT reader, is what the parent has returned and
the decoder has not taken. Where the parent is about to be read, it is read until the array is
full, or it returns 0 or fails. -/
theorem windows_kept (build : ZstdLz4Reader.Build) (zstd : Coder ζ Unit Byte)
    (lz4 : Coder κ Unit Byte) (stream : ζ) (dcCtxt : κ) (qz : QatReader.Qatzip κ') (sess : κ')
    (parent : ShortSource σ) (c : σ) (lens : List ℕ) :
    ((∀ len l, ZstdLz4Reader.Takes build (zstd.counted ZstdLz4Reader.takes)
        (lz4.counted ZstdLz4Reader.takes) parent.logged.toSource
        (ZstdLz4Reader.zstdLz4Open (stream, 0) (dcCtxt, 0) (c, [])) lens len l →
          ZstdLz4Reader.WindowKept parent.logged l) ∧
      ∀ fuel log t, runCalls (fun len s => ZstdLz4Reader.zstdLz4Read build
        (zstd.counted ZstdLz4Reader.takes) (lz4.counted ZstdLz4Reader.takes)
        parent.logged.toSource len s fuel) lens
        (ZstdLz4Reader.zstdLz4Open (stream, 0) (dcCtxt, 0) (c, [])) = some (log, t) →
          ZstdLz4Reader.Tracked t) ∧
    (∀ len l, QatReader.Takes qz.counted parent.logged.toSource
        (QatReader.qatOpen (sess, 0) (c, [])) lens len l →
          QatReader.WindowKept parent.logged l) ∧
      ∀ fuel log t, runCalls (fun len s => QatReader.qatRead qz.counted parent.logged.toSource len s
        fuel) lens (QatReader.qatOpen (sess, 0) (c, [])) = some (log, t) →
          QatReader.Tracked t := by
  refine ⟨⟨?_, ?_⟩, ?_, ?_⟩
  · intro len l htakes
    have htracked := ZstdLz4Reader.takes_tracked (ZstdLz4Reader.tracked_open stream dcCtxt c) htakes
    exact htracked.windowKept parent.logged
  · intro fuel log t hrun
    exact runCalls_invariant (I := fun _ s => ZstdLz4Reader.Tracked s)
      (fun _ _ _ _ _ _ h hr => ZstdLz4Reader.zstdLz4Read_tracked h hr) []
      (ZstdLz4Reader.tracked_open stream dcCtxt c) hrun
  · intro len l htakes
    have htracked := QatReader.takes_tracked (QatReader.tracked_open sess c) htakes
    exact htracked.windowKept parent.logged
  · intro fuel log t hrun
    exact runCalls_invariant (I := fun _ s => QatReader.Tracked s)
      (fun _ _ _ _ _ _ h hr => QatReader.qatRead_tracked h hr) []
      (QatReader.tracked_open sess c) hrun

/-! ## Short reads -/

/-- The frame of a word, which comes in pieces of six and eight bytes. -/
def wordOpen : ZstdLz4Reader.State (Option (List Byte × List Byte) × ℕ)
    (Option (List Byte × List Byte) × ℕ) ((List Byte × List ℕ) × List Byte) :=
  ZstdLz4Reader.zstdLz4Open (none, 0) (none, 0) ((ZstdLz4Reader.helloFrame, [6]), [])

def wordReads (lens : List ℕ) :=
  runCalls (fun len s => ZstdLz4Reader.zstdLz4Read (ZstdLz4Reader.bothLibs false)
    ((ZstdLz4Reader.oneFrame ZstdLz4Reader.helloFrame ZstdLz4Reader.hello).counted
      ZstdLz4Reader.takes)
    ((ZstdLz4Reader.oneFrame ZstdLz4Reader.letterFrame [0x61]).counted ZstdLz4Reader.takes)
    (shortSource chunked).logged.toSource len s 20) lens wordOpen

/-- Three bytes, which come one by one. -/
def bytesOpen : QatReader.State (Bool × ℕ) ((List Byte × List ℕ) × List Byte) :=
  QatReader.qatOpen (false, 0) (([1, 2, 3], [1, 1, 1]), [])

def bytesReads (lens : List ℕ) :=
  runCalls (fun len s => QatReader.qatRead (QatReader.copying 2).counted
    (shortSource chunked).logged.toSource len s 20) lens bytesOpen

/-- The reads return what is there, and the first loop of each is left as its parent has it. -/
theorem windows_kept_pieces :
    (∃ log t, wordReads [8, 8] = some (log, t) ∧
      log.map Prod.snd = [⟨5, ZstdLz4Reader.hello⟩, ⟨0, []⟩] ∧ ZstdLz4Reader.Tracked t) ∧
    (∃ r, FillLeft (shortSource chunked).logged.toSource ZstdLz4Reader.inbufLoop
      ⟨wordOpen, .fill, 0, []⟩ r) ∧
    (∃ log t, bytesReads [2, 2] = some (log, t) ∧
      log.map Prod.snd = [⟨2, [1, 2]⟩, ⟨1, [3]⟩] ∧ QatReader.Tracked t) ∧
    ∃ r, FillLeft (shortSource chunked).logged.toSource QatReader.inbuffLoop
      ⟨bytesOpen, .fill, 0, []⟩ r := by
  obtain ⟨⟨hpoints, hends⟩, -⟩ := windows_kept (ZstdLz4Reader.bothLibs false)
    (ZstdLz4Reader.oneFrame ZstdLz4Reader.helloFrame ZstdLz4Reader.hello)
    (ZstdLz4Reader.oneFrame ZstdLz4Reader.letterFrame [0x61]) none none (QatReader.copying 2) false
    (shortSource chunked) (ZstdLz4Reader.helloFrame, [6]) [8, 8]
  obtain ⟨-, hqatPoints, hqatEnds⟩ := windows_kept (ZstdLz4Reader.bothLibs false)
    (ZstdLz4Reader.oneFrame ZstdLz4Reader.helloFrame ZstdLz4Reader.hello)
    (ZstdLz4Reader.oneFrame ZstdLz4Reader.letterFrame [0x61]) none none (QatReader.copying 2) false
    (shortSource chunked) ([1, 2, 3], [1, 1, 1]) [2, 2]
  have hword : (wordReads [8, 8]).any (fun q =>
      q.1.map Prod.snd = [⟨5, ZstdLz4Reader.hello⟩, ⟨0, []⟩]) = true := by decide +kernel
  have hbytes : (bytesReads [2, 2]).any (fun q =>
      q.1.map Prod.snd = [⟨2, [1, 2]⟩, ⟨1, [3]⟩]) = true := by decide +kernel
  refine ⟨?_, ?_, ?_, ?_⟩
  · obtain ⟨⟨log, t⟩, hrun, hlog⟩ := (Option.any_eq_true _ _).mp hword
    exact ⟨log, t, hrun, of_decide_eq_true hlog, hends 20 log t hrun⟩
  · obtain ⟨r, -, hleft⟩ := (hpoints 8 _ (.now rfl (.single rfl))).fills rfl
    exact ⟨r, hleft⟩
  · obtain ⟨⟨log, t⟩, hrun, hlog⟩ := (Option.any_eq_true _ _).mp hbytes
    exact ⟨log, t, hrun, of_decide_eq_true hlog, hqatEnds 20 log t hrun⟩
  · obtain ⟨r, -, hleft⟩ := (hqatPoints 2 _ (.now rfl (.single rfl))).fills rfl
    exact ⟨r, hleft⟩

end Wandio.Readers
