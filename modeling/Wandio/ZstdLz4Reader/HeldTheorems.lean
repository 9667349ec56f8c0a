import Wandio.ZstdLz4Reader.FrameTheorems

/-!
# Output that a decoder keeps back

A decoder that has no room for all of its output keeps the rest back, and may have taken the
whole frame by then. At the end of the file `zstd_lz4_read` looks at `inbuf` only, and what
the decoder has kept back is lost.
-/

namespace Wandio.ZstdLz4Reader

open Codec Loop

variable {ζ κ σ : Type*}

/-- Among the reads of at least one byte, those that return 0 come behind all others. -/
theorem reads_zero {all : List Byte} {lens : List ℕ} (hlens : ∀ len ∈ lens, 4 ≤ len) :
    Each (fun before e => e.2.ret = 0 → delivered before = all) (reads all lens) := by
  induction lens generalizing all with
  | nil => exact .nil
  | cons len lens ih =>
    intro before e after hlog hzero
    have hlen := hlens len (List.mem_cons_self ..)
    rw [reads] at hlog
    cases before with
    | nil =>
      rw [List.nil_append, List.cons.injEq] at hlog
      rw [← hlog.1] at hzero
      have hnone : (all.take len).length = 0 := Int.ofNat_eq_zero.mp hzero
      rw [List.length_take] at hnone
      exact (List.eq_nil_of_length_eq_zero (by omega)).symm
    | cons e' before =>
      rw [List.cons_append, List.cons.injEq] at hlog
      have hrest := ih (fun l hl => hlens l (List.mem_cons_of_mem _ hl)) before e after hlog.2 hzero
      show e'.2.data ++ delivered before = all
      rw [hrest, ← hlog.1]
      exact List.take_append_drop ..

/-- Over a single frame, every sequence of reads returns the contents in order and 0 only
behind all of them, provided the end of the file finds the frame finished and no read has 2³¹
bytes to return. -/
theorem held_output_returned (movable : Bool) (zstd : Coder ζ Unit Byte) (lz4 : Coder κ Unit Byte)
    (F : Frames ζ Byte) (G : Frames κ Byte) (hlib : Libraries zstd lz4 F G)
    (parent : ByteSource σ) (stream : ζ) (hstream : F.Fresh stream) (dcCtxt : κ)
    (hdcCtxt : G.Fresh dcCtxt) (c : σ) (f contents : List Byte) (hframe : IsFrame F G (f, contents))
    (hfile : parent.content c = f) (lens : List ℕ) (hlens : ∀ len ∈ lens, 4 ≤ len)
    (hfit : ∀ e ∈ reads contents lens, e.2.data.length < 2 ^ 31)
    (hend : ∀ len l, Takes (bothLibs movable) zstd lz4 parent.toSource
      (zstdLz4Open stream dcCtxt c) lens len l → EndsIdle parent l) :
    ∃ t, Yields (fun fuel => runCalls
        (fun len s => zstdLz4Read (bothLibs movable) zstd lz4 parent.toSource len s fuel) lens
        (zstdLz4Open stream dcCtxt c)) (reads contents lens, t) ∧
      Each (fun before e => e.2.ret = 0 → delivered before = contents) (reads contents lens) := by
  have hopen : Resting F G parent True (zstdLz4Open stream dcCtxt c)
      ([(f, contents)].flatMap Prod.snd) := by
    refine resting_open hstream hdcCtxt (fun p hp => ?_) ?_ fun _ => rfl
    · rw [List.mem_singleton.mp hp]
      exact hframe
    · rw [hfile, List.flatMap_singleton]
  rw [List.flatMap_singleton] at hopen
  obtain ⟨t, ht⟩ := runCalls_frames movable hlib hlens hfit hopen fun len l hl =>
    ⟨.inl trivial, hend len l hl⟩
  exact ⟨t, ht, reads_zero hlens⟩

/-- The word hello as a zstd frame. -/
def helloFrame : List Byte :=
  [0x28, 0xb5, 0x2f, 0xfd, 0x20, 0x05, 0x29, 0, 0, 0x68, 0x65, 0x6c, 0x6c, 0x6f]

def hello : List Byte := [0x68, 0x65, 0x6c, 0x6c, 0x6f]

theorem hello_libraries : Libraries (oneFrame helloFrame hello) (oneFrame letterFrame [0x61])
    (oneFrames helloFrame hello) (oneFrames letterFrame [0x61]) := by
  apply oneFrame_libraries
  · exact .inl (List.prefix_append _ _)
  · exact List.prefix_append _ _

abbrev HelloState :=
  State (Option (List Byte × List Byte)) (Option (List Byte × List Byte)) (List Byte × List ℕ)

/-- A read of eight bytes of it, with ten turns. -/
def helloRead (s : HelloState) : Option (ReadResult × HelloState) :=
  loop (readTurn (bothLibs false) (oneFrame helloFrame hello) (oneFrame letterFrame [0x61])
    chunked.toSource 8) 10 (.start s)

/-- No turn of such a read finds a frame unfinished at the end of the parent. -/
def HelloIdle (s : HelloState) : Prop :=
  ∀ l ∈ turns (readTurn (bothLibs false) (oneFrame helloFrame hello) (oneFrame letterFrame [0x61])
    chunked.toSource 8) 10 (.start s), EndsIdle chunked l

instance (s : HelloState) : Decidable (HelloIdle s) := inferInstanceAs (Decidable (∀ _ ∈ _, _))

/-- A read that finds the frame at its end, and one that returns 0. -/
theorem held_output_returned_hello :
    ∃ t, Yields (fun fuel => runCalls
        (fun len s => zstdLz4Read (bothLibs false) (oneFrame helloFrame hello)
          (oneFrame letterFrame [0x61]) chunked.toSource len s fuel) [8, 8]
        (zstdLz4Open none none (helloFrame, [6]))) ([(8, ⟨5, hello⟩), (8, ⟨0, []⟩)], t) ∧
      Each (fun before e => e.2.ret = 0 → delivered before = hello)
        [(8, ⟨5, hello⟩), (8, ⟨0, []⟩)] := by
  have hfirst : HelloIdle (zstdLz4Open none none (helloFrame, [6])) := by decide +kernel
  have hsecond : (helloRead (zstdLz4Open none none (helloFrame, [6]))).any
      (fun q => (helloRead q.2).isSome && decide (HelloIdle q.2)) = true := by
    decide +kernel
  refine held_output_returned false _ _ _ _ hello_libraries chunked none rfl none rfl
    (helloFrame, [6]) helloFrame hello (.inl ⟨rfl, rfl⟩) rfl [8, 8] (by decide) (by decide) ?_
  intro len l hl
  obtain ⟨q, hq, hall⟩ := (Option.any_eq_true _ _).mp hsecond
  rw [Bool.and_eq_true, decide_eq_true_eq] at hall
  cases hl with
  | now hok h => exact hfirst l (mem_turns (Option.isSome_iff_exists.mpr ⟨q, hq⟩) h)
  | @later _ t _ _ fuel _ _ r hread h =>
    rw [zstdLz4Read_ok _ _ _ _ _ rfl] at hread
    -- the first read ends in the same state whatever bound there is
    obtain rfl : q = (r, t) := Option.some_inj.mp
      ((loop_mono hq (Nat.le_max_left 10 fuel)).symm.trans
        (loop_mono hread (Nat.le_max_right 10 fuel)))
    cases h with
    | now hok h => exact hall.2 l (mem_turns hall.1 h)
    | later hread h => cases h

/-- There is room for four letters of it: the decoder has taken the whole frame and keeps the last
letter back, as a decoder may that has not answered 0, and the second read returns 0. It depends on
the decoder: libzstd leaves a byte of the input where it stands as long as it has more to give here,
and then nothing is lost. -/
theorem held_output_lost :
    Libraries (oneFrame helloFrame hello) (oneFrame letterFrame [0x61])
        (oneFrames helloFrame hello) (oneFrames letterFrame [0x61]) ∧
      IsFrame (oneFrames helloFrame hello) (oneFrames letterFrame [0x61]) (helloFrame, hello) ∧
      ∃ t, runCalls
        (fun len s => zstdLz4Read (bothLibs false) (oneFrame helloFrame hello)
          (oneFrame letterFrame [0x61]) chunked.toSource len s 8) [4, 4]
        (zstdLz4Open none none (helloFrame, [])) =
        some ([(4, ⟨4, [0x68, 0x65, 0x6c, 0x6c]⟩), (4, ⟨0, []⟩)], t) :=
  ⟨hello_libraries, .inl ⟨rfl, rfl⟩, _, rfl⟩

end Wandio.ZstdLz4Reader
