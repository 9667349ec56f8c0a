import Wandio.ZstdLz4Reader.ReadTheorems
import Mathlib.Data.List.GetD

/-!
# Frames anywhere in the input

The magic test reads four bytes at `inbuf_index` without asking how many there are. A frame
whose first bytes are the last ones of `inbuf` is not recognised, because the loop that
decodes goes on with it before `inbuf` is filled again.
-/

namespace Wandio.ZstdLz4Reader

open Codec Loop

variable {ζ κ σ : Type*}

/-- Over zstd, lz4 and skippable frames one behind the other, wherever they begin and however
the file is cut into chunks, every sequence of reads returns the contents of the frames in
order, provided the magic tests of the run stay inside of the window, the end of the file
finds no frame unfinished and no read has 2³¹ bytes to return. -/
theorem frames_anywhere (movable : Bool) (zstd : Coder ζ Unit Byte) (lz4 : Coder κ Unit Byte)
    (F : Frames ζ Byte) (G : Frames κ Byte) (hlib : Libraries zstd lz4 F G)
    (parent : ByteSource σ) (stream : ζ) (hstream : F.Fresh stream) (dcCtxt : κ)
    (hdcCtxt : G.Fresh dcCtxt) (c : σ) (frames : List (List Byte × List Byte))
    (hframes : ∀ p ∈ frames, IsFrame F G p) (hfile : parent.content c = frames.flatMap Prod.fst)
    (lens : List ℕ) (hlens : ∀ len ∈ lens, 4 ≤ len)
    (hfit : ∀ e ∈ reads (frames.flatMap Prod.snd) lens, e.2.data.length < 2 ^ 31)
    (hmagic : ∀ len l, Takes (bothLibs movable) zstd lz4 parent.toSource
      (zstdLz4Open stream dcCtxt c) lens len l → MagicInWindow l)
    (hend : ∀ len l, Takes (bothLibs movable) zstd lz4 parent.toSource
      (zstdLz4Open stream dcCtxt c) lens len l → EndsIdle parent l) :
    ∃ t, Yields (fun fuel => runCalls
      (fun len s => zstdLz4Read (bothLibs movable) zstd lz4 parent.toSource len s fuel) lens
      (zstdLz4Open stream dcCtxt c)) (reads (frames.flatMap Prod.snd) lens, t) := by
  have hopen : Resting F G parent False (zstdLz4Open stream dcCtxt c)
      (frames.flatMap Prod.snd) := resting_open hstream hdcCtxt hframes hfile fun hs => hs.elim
  exact runCalls_frames movable hlib hlens hfit hopen fun len l hl =>
    ⟨.inr (hmagic len l hl), hend len l hl⟩

/-! ## A decoder of one frame -/

/-- A decoder that knows one frame `f` and its contents `c`. It takes what it is offered of
the frame and emits as much as there is room for; its state is the rest of both. -/
def oneFrame (f c : List Byte) : Coder (Option (List Byte × List Byte)) Unit Byte where
  call k _ input room :=
    let p := k.getD (f, c)
    let todo := p.1.drop input.length
    let out := p.2.drop room
    ⟨if todo.isEmpty ∧ out.isEmpty then none else some (todo, out), min p.1.length input.length,
      p.2.take room, if todo.isEmpty ∧ out.isEmpty then 0 else 1⟩
  consumed_le _ _ _ _ := Nat.min_le_right _ _
  output_le _ _ _ _ := List.length_take_le _ _

def oneFrames (f c : List Byte) : Frames (Option (List Byte × List Byte)) Byte where
  Frame f' c' := f' = f ∧ c' = c
  Fresh k := k = none
  At k todo out := k.getD (f, c) = (todo, out) ∧ (todo ≠ [] ∨ out ≠ [])

theorem oneFrame_decoder {f c : List Byte} (hf : f ≠ []) :
    FrameDecoder (oneFrame f c) (oneFrames f c) where
  start k f' c' hk h := by
    obtain ⟨rfl, rfl⟩ := h
    rw [show k = none from hk]
    exact ⟨rfl, .inl hf⟩
  progress k todo out input rest room hat hin hroom _ := by
    obtain ⟨hk, hne⟩ := hat
    have hpos := List.length_pos_iff.mpr hin
    simp only [oneFrame, hk]
    rcases hne with htodo | hout
    · left
      have := List.length_pos_iff.mpr htodo
      omega
    · right
      apply List.ne_nil_of_length_pos
      have := List.length_pos_iff.mpr hout
      rw [List.length_take]
      omega
  call k todo out input rest room hat hin hroom _ := by
    obtain ⟨hk, _⟩ := hat
    have htodo : todo.drop (min todo.length input.length) = todo.drop input.length := by
      rcases Nat.le_total todo.length input.length with hle | hle
      · rw [Nat.min_eq_left hle, List.drop_length, List.drop_eq_nil_of_le hle]
      · rw [Nat.min_eq_right hle]
    simp only [oneFrame, hk, htodo]
    refine ⟨Nat.min_le_left _ _, out.drop room, (List.take_append_drop ..).symm, ?_⟩
    by_cases hdone : (todo.drop input.length).isEmpty ∧ (out.drop room).isEmpty
    · left
      rw [if_pos hdone, if_pos hdone]
      rw [List.isEmpty_iff, List.isEmpty_iff] at hdone
      have hle := List.drop_eq_nil_iff.mp hdone.1
      exact ⟨rfl, by omega, hdone.2, rfl⟩
    · right
      rw [if_neg hdone, if_neg hdone]
      rw [List.isEmpty_iff, List.isEmpty_iff, not_and_or] at hdone
      exact ⟨by decide, hdone, rfl, hdone⟩

/-- Two decoders of one frame each. -/
theorem oneFrame_libraries {f c f' c' : List Byte}
    (hf : [0x28, 0xb5, 0x2f, 0xfd] <+: f ∨
      c = [] ∧ ∃ b : Byte, b &&& 0xf0 = 0x50 ∧ [b, 0x2a, 0x4d, 0x18] <+: f)
    (hf' : [0x04, 0x22, 0x4d, 0x18] <+: f') :
    Libraries (oneFrame f c) (oneFrame f' c') (oneFrames f c) (oneFrames f' c') where
  zstd := by
    apply oneFrame_decoder
    rintro rfl
    rcases hf with hf | ⟨_, b, _, hf⟩ <;> rw [List.prefix_nil] at hf <;> contradiction
  lz4 := by
    apply oneFrame_decoder
    rintro rfl
    rw [List.prefix_nil] at hf'
    contradiction
  zstdFrame g d h := by
    obtain ⟨rfl, rfl⟩ := h
    exact hf
  lz4Frame g d h := by
    obtain ⟨rfl, rfl⟩ := h
    exact hf'

/-! ## A frame at the end of `inbuf` -/

/-- The letter a as an lz4 frame. -/
def letterFrame : List Byte :=
  [0x04, 0x22, 0x4d, 0x18, 0x60, 0x40, 0x82, 0x01, 0, 0, 0x80, 0x61, 0, 0, 0, 0]

/-- A skippable frame with a payload of `n` zeros. -/
def skippable (n : ℕ) : List Byte :=
  [0x50, 0x2a, 0x4d, 0x18] ++
    [UInt8.ofNat n, UInt8.ofNat (n / 2 ^ 8), UInt8.ofNat (n / 2 ^ 16), UInt8.ofNat (n / 2 ^ 24)] ++
    List.replicate n 0

theorem length_skippable (n : ℕ) : (skippable n).length = n + 8 := by
  simp [skippable]

theorem letter_libraries (n : ℕ) :
    Libraries (oneFrame (skippable n) []) (oneFrame letterFrame [0x61])
      (oneFrames (skippable n) []) (oneFrames letterFrame [0x61]) := by
  apply oneFrame_libraries
  · refine .inr ⟨rfl, 0x50, by decide, ?_⟩
    rw [skippable, List.append_assoc]
    exact List.prefix_append _ _
  · exact List.prefix_append _ _

theorem letter_frames (n : ℕ) : ∀ p ∈ [(skippable n, []), (letterFrame, [0x61])],
    IsFrame (oneFrames (skippable n) []) (oneFrames letterFrame [0x61]) p := by
  intro p hp
  rcases List.mem_cons.mp hp with rfl | hp
  · exact .inl ⟨rfl, rfl⟩
  · rw [List.mem_singleton.mp hp]
    exact .inr ⟨rfl, rfl⟩

instance (l : Locals ζ κ σ) : Decidable (MagicInWindow l) :=
  inferInstanceAs (Decidable (_ → _ → _))

instance (parent : ByteSource σ) (l : Locals ζ κ σ) : Decidable (EndsIdle parent l) :=
  inferInstanceAs (Decidable (_ → _ → _ → _))

/-- A skippable frame of one byte and the letter, in one chunk. -/
theorem frames_anywhere_letter :
    ∃ t, Yields (fun fuel => runCalls
      (fun len s => zstdLz4Read (bothLibs false) (oneFrame (skippable 1) [])
        (oneFrame letterFrame [0x61]) chunked.toSource len s fuel) [4]
      (zstdLz4Open none none (skippable 1 ++ letterFrame, []))) ([(4, ⟨1, [0x61]⟩)], t) := by
  have hall : ∀ l ∈ turns (readTurn (bothLibs false) (oneFrame (skippable 1) [])
      (oneFrame letterFrame [0x61]) chunked.toSource 4) 10
      (.start (zstdLz4Open none none (skippable 1 ++ letterFrame, []))),
      MagicInWindow l ∧ EndsIdle chunked l := by
    decide +kernel
  have hturns : ∀ len l, Takes (bothLibs false) (oneFrame (skippable 1) [])
      (oneFrame letterFrame [0x61]) chunked.toSource
      (zstdLz4Open none none (skippable 1 ++ letterFrame, [])) [4] len l →
      MagicInWindow l ∧ EndsIdle chunked l := by
    intro len l hl
    cases hl with
    | now hok h =>
      exact hall l (mem_turns (by decide +kernel) h)
    | later hread h => cases h
  exact frames_anywhere false _ _ _ _ (letter_libraries 1) chunked none rfl none rfl
    (skippable 1 ++ letterFrame, []) [(skippable 1, []), (letterFrame, [0x61])] (letter_frames 1)
    rfl [4] (by decide) (by decide) (fun len l hl => (hturns len l hl).1)
    fun len l hl => (hturns len l hl).2

/-- The reader when the first `inbufSize` bytes of a file are in `inbuf`, which are a skippable
frame and two bytes of another. -/
def straddling (dec : DecoderT) (index : ℕ) :
    State (Option (List Byte × List Byte)) (Option (List Byte × List Byte))
      (List Byte × List ℕ) where
  stream := none
  dcCtxt := none
  err := .ok
  dec := dec
  parent := (letterFrame.drop 2, [])
  inbufIndex := index
  inbufLen := inbufSize
  inbuf := skippable (inbufSize - 10) ++ letterFrame.take 2

theorem length_skippable_straddling : (skippable (inbufSize - 10)).length = inbufSize - 2 := by
  rw [length_skippable]
  decide

theorem length_inbuf_straddling (dec : DecoderT) (index : ℕ) :
    (straddling dec index).inbuf.length = inbufSize := by
  rw [straddling, List.length_append, length_skippable_straddling]
  decide

/-- Behind the skippable frame the magic test reads two bytes of the next frame and two that
`memset` has written. -/
theorem identify_straddling :
    identify (bothLibs false) (straddling .undefined (inbufSize - 2)) = .undefined := by
  -- the test looks behind the end of `inbuf`, where there are zeros
  have hbuf : ∀ i, (straddling .undefined (inbufSize - 2)).inbuf.getD (inbufSize - 2 + i) 0 =
      (letterFrame.take 2).getD i 0 := by
    intro i
    rw [straddling, List.getD_append_right _ _ _ _
      (length_skippable_straddling.trans_le (Nat.le_add_right _ _)),
      length_skippable_straddling, Nat.add_sub_cancel_left]
  have hident : identify (bothLibs false) (straddling .undefined (inbufSize - 2)) =
      magic (bothLibs false) fun i =>
        (straddling .undefined (inbufSize - 2)).inbuf.getD (inbufSize - 2 + i) 0 := if_pos rfl
  rw [hident, funext hbuf]
  decide

theorem identify_skippable :
    identify (bothLibs false) (straddling .undefined 0) = .skipFrame := by
  have hident : identify (bothLibs false) (straddling .undefined 0) =
      magic (bothLibs false) fun i => (straddling .undefined 0).inbuf.getD (0 + i) 0 := if_pos rfl
  rw [hident]
  apply magic_skipFrame (b := 0x50) (by decide)
  intro i hi
  rw [Nat.zero_add, straddling, List.getD_append _ _ _ _
    (by rw [length_skippable_straddling]; exact hi.trans (by decide))]
  rw [skippable, List.append_assoc, List.getD_append _ _ _ _ (by exact hi)]

/-- A frame without contents that ends inside of the window. -/
theorem decodeFrame_skip {build : Build} {zstd : Coder ζ Unit Byte} {lz4 : Coder κ Unit Byte}
    {len n : ℕ} {l : Locals ζ κ σ} {s t : State ζ κ σ} (hlen : 0 < len) (hn : 0 < n)
    (hcall : decompress build zstd lz4 len l.outbufIndex s = ⟨t, n, [], 0⟩)
    (hmore : s.inbufIndex + n < t.inbufLen) (hindex : l.outbufIndex = 0) (hbuffer : l.buffer = []) :
    decodeFrame build zstd lz4 len l s =
      .next ⟨{ t with inbufIndex := s.inbufIndex + n, dec := .undefined }, .decode, 0, []⟩ := by
  have hint : cInt (l.outbufIndex + (([] : List Byte).length : ℕ)) = 0 := by
    rw [hindex]
    rfl
  simp only [decodeFrame, hcall, hint, hbuffer]
  rw [if_neg (by omega), if_neg fun hstuck => absurd hstuck.1 (by omega), if_neg (by omega),
    if_pos trivial, if_neg (by omega), hindex]
  rfl

/-- The skippable frame is recognised and skipped. -/
theorem decode_straddling :
    decodeTurn (bothLibs false) (oneFrame (skippable (inbufSize - 10)) [])
        (oneFrame letterFrame [0x61]) 4 ⟨straddling .undefined 0, .decode, 0, []⟩ =
      .next ⟨straddling .undefined (inbufSize - 2), .decode, 0, []⟩ := by
  have hwindow : (window (straddling .skipFrame 0)).length = inbufSize := by
    rw [window, List.length_take, List.length_drop, length_inbuf_straddling]
    rfl
  have hcall : (oneFrame (skippable (inbufSize - 10)) []).call none ()
      (window (straddling .skipFrame 0)) 4 = ⟨none, inbufSize - 2, [], 0⟩ := by
    have hdrop : (skippable (inbufSize - 10)).drop inbufSize = [] :=
      List.drop_eq_nil_of_le (length_skippable_straddling.trans_le (Nat.sub_le _ _))
    simp only [oneFrame, Option.getD_none, hwindow, hdrop, length_skippable_straddling]
    rfl
  have hdecompress : decompress (bothLibs false) (oneFrame (skippable (inbufSize - 10)) [])
      (oneFrame letterFrame [0x61]) 4 0 (straddling .skipFrame 0) =
      ⟨straddling .skipFrame 0, inbufSize - 2, [], 0⟩ := by
    refine (decompress_zstd false _ _ 4 0 (.inr rfl)).trans ?_
    simp only [show (straddling .skipFrame 0).stream = none from rfl, Nat.sub_zero, hcall]
    rfl
  have hmore : (straddling .skipFrame 0).inbufIndex + (inbufSize - 2) <
      (straddling .skipFrame 0).inbufLen := by
    show 0 + (inbufSize - 2) < inbufSize
    decide
  have hpos : 0 < inbufSize - 2 := by decide
  have hidentified : decodeTurn (bothLibs false) (oneFrame (skippable (inbufSize - 10)) [])
      (oneFrame letterFrame [0x61]) 4 ⟨straddling .undefined 0, .decode, 0, []⟩ =
      decodeFrame (bothLibs false) (oneFrame (skippable (inbufSize - 10)) [])
        (oneFrame letterFrame [0x61]) 4 ⟨straddling .undefined 0, .decode, 0, []⟩
        (straddling .skipFrame 0) :=
    decodeTurn_identified le_rfl identify_skippable (by decide)
  have hframe := decodeFrame_skip (l := ⟨straddling .undefined 0, .decode, 0, []⟩)
    (by decide : 0 < 4) hpos hdecompress hmore rfl rfl
  rw [hidentified, hframe, ← Nat.zero_add (inbufSize - 2)]
  rfl

/-- A read of the parent that fills `inbuf`. -/
theorem fillTurn_full {parent : Source σ} {s : State ζ κ σ} {data : List Byte} {c : σ} {o : ℤ}
    {b : List Byte}
    (hread : parent.read s.parent (inbufSize - s.inbufLen) = (⟨data.length, data⟩, c))
    (hdata : data ≠ []) (hfull : s.inbufLen + data.length = inbufSize) :
    fillTurn parent ⟨s, .fill, o, b⟩ =
      .next ⟨{ s with
        parent := c, inbuf := memcpyAt s.inbuf s.inbufLen data, inbufLen := inbufSize },
        .decode, o, b⟩ := by
  have hpos := List.length_pos_iff.mpr hdata
  have hint : cInt (data.length : ℤ) = data.length := by
    apply cInt_of_lt
    have hsize : inbufSize < 2 ^ 31 := by decide
    omega
  simp only [fillTurn, hread, hint, Int.toNat_natCast, hfull]
  rw [if_neg (by omega), if_neg fun hend => absurd hend.1 (by omega), if_pos (.inr le_rfl)]

/-- A source that hands out a whole file at once. -/
theorem chunked_read {file : List Byte} {len : ℕ} (hpos : 0 < len) (hlen : len ≤ file.length) :
    chunked.read (file, []) len = (⟨len, file.take len⟩, (file.drop len, [])) := by
  have hsize : chunkSize len len file.length = len := by
    unfold chunkSize
    omega
  have hchunked : chunked.read = chunkedRead := rfl
  rw [hchunked, chunkedRead, if_neg (by omega)]
  simp only [List.headD_nil, hsize, List.tail_nil]

/-- A skippable frame that ends two bytes before the end of `inbuf`, and the letter: the first
read fails. -/
theorem frames_misread :
    Libraries (oneFrame (skippable (inbufSize - 10)) []) (oneFrame letterFrame [0x61])
        (oneFrames (skippable (inbufSize - 10)) []) (oneFrames letterFrame [0x61]) ∧
      (∀ p ∈ [(skippable (inbufSize - 10), []), (letterFrame, [0x61])],
        IsFrame (oneFrames (skippable (inbufSize - 10)) []) (oneFrames letterFrame [0x61]) p) ∧
      ∃ t, Yields (fun fuel => runCalls
        (fun len s => zstdLz4Read (bothLibs false) (oneFrame (skippable (inbufSize - 10)) [])
          (oneFrame letterFrame [0x61]) chunked.toSource len s fuel) [4]
        (zstdLz4Open none none (skippable (inbufSize - 10) ++ letterFrame, [])))
        ([(4, ⟨-1, []⟩)], t) := by
  refine ⟨letter_libraries _, letter_frames _, straddling .undefined (inbufSize - 2), ?_⟩
  set file := skippable (inbufSize - 10) ++ letterFrame with hfile
  have hlen : file.length = inbufSize + 14 := by
    rw [hfile, List.length_append, length_skippable_straddling]
    decide
  have hinbuf : file.take inbufSize = (straddling .undefined 0).inbuf := by
    rw [hfile, List.take_append, length_skippable_straddling,
      List.take_of_length_le (length_skippable_straddling.trans_le (Nat.sub_le _ _))]
    rfl
  have hrest : file.drop inbufSize = letterFrame.drop 2 := by
    rw [hfile, List.drop_append, length_skippable_straddling,
      List.drop_eq_nil_of_le (length_skippable_straddling.trans_le (Nat.sub_le _ _))]
    rfl
  have hread : chunked.read (file, []) inbufSize =
      (⟨(straddling .undefined 0).inbuf.length, (straddling .undefined 0).inbuf⟩,
        (letterFrame.drop 2, [])) := by
    rw [chunked_read (by decide) (by omega), hinbuf, hrest, length_inbuf_straddling]
  have hne : (straddling .undefined 0).inbuf ≠ [] := by
    apply List.ne_nil_of_length_pos
    rw [length_inbuf_straddling]
    decide
  have hstate :
      memcpyAt [] 0 (straddling .undefined 0).inbuf = (straddling .undefined 0).inbuf := by
    rw [memcpyAt, List.take_nil, List.nil_append, List.drop_nil, List.append_nil]
  have hfill : fillTurn chunked.toSource ⟨zstdLz4Open none none (file, []), .fill, 0, []⟩ =
      .next
        ⟨{ straddling .undefined 0 with inbuf := memcpyAt [] 0 (straddling .undefined 0).inbuf },
          .decode, 0, []⟩ :=
    fillTurn_full hread hne ((Nat.zero_add _).trans (length_inbuf_straddling _ _))
  rw [hstate] at hfill
  -- the frame that is not recognised is an error
  have hlast : decodeTurn (bothLibs false) (oneFrame (skippable (inbufSize - 10)) [])
      (oneFrame letterFrame [0x61]) 4 ⟨straddling .undefined (inbufSize - 2), .decode, 0, []⟩ =
      .done (⟨-1, []⟩, straddling .undefined (inbufSize - 2)) := by
    unfold decodeTurn
    rw [if_neg (by decide), if_pos identify_straddling]
  have hrun : Yields (zstdLz4Read (bothLibs false) (oneFrame (skippable (inbufSize - 10)) [])
      (oneFrame letterFrame [0x61]) chunked.toSource 4 (zstdLz4Open none none (file, [])))
      (⟨-1, []⟩, straddling .undefined (inbufSize - 2)) := by
    rw [zstdLz4Read_ok _ _ _ _ _ rfl]
    have htop : readTurn (bothLibs false) (oneFrame (skippable (inbufSize - 10)) [])
        (oneFrame letterFrame [0x61]) chunked.toSource 4
        (.start (zstdLz4Open none none (file, []))) =
        .next ⟨zstdLz4Open none none (file, []), .fill, 0, []⟩ := rfl
    -- `inbuf` is filled, the first frame is skipped, and the second is not found
    refine .next htop (.next (t := ⟨straddling .undefined 0, .decode, 0, []⟩) ?_
      (.next (t := ⟨straddling .undefined (inbufSize - 2), .decode, 0, []⟩) ?_ (.done ?_)))
    · simp only [readTurn]
      exact hfill
    · simp only [readTurn]
      exact decode_straddling
    · simp only [readTurn]
      exact hlast
  exact hrun.runCalls_cons .runCalls_nil

end Wandio.ZstdLz4Reader
