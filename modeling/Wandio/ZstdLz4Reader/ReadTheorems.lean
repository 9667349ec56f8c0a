import Wandio.ZstdLz4Reader.Model
import Mathlib.Data.Prod.Lex

/-!
# The reads of the zstd/lz4 reader

A read goes on until the caller's buffer is full or the file is at its end. Over complete
frames it returns what they hold, as long as the magic test of every frame finds its four
bytes in the window and the end of the file finds no frame unfinished.
-/

namespace Wandio.ZstdLz4Reader

open Codec Loop

variable {ζ κ σ : Type*}

/-! ## The formats -/

/-- A frame, of either library. -/
def IsFrame (F : Frames ζ Byte) (G : Frames κ Byte) (p : List Byte × List Byte) : Prop :=
  F.Frame p.1 p.2 ∨ G.Frame p.1 p.2

/-- The decoders of the libraries: zstd knows zstd and skippable frames, lz4 its own. Every
frame begins with its magic number; a skippable frame has no contents. -/
structure Libraries (zstd : Coder ζ Unit Byte) (lz4 : Coder κ Unit Byte) (F : Frames ζ Byte)
    (G : Frames κ Byte) : Prop where
  zstd : FrameDecoder zstd F
  lz4 : FrameDecoder lz4 G
  zstdFrame : ∀ f c, F.Frame f c →
    [0x28, 0xb5, 0x2f, 0xfd] <+: f ∨
      c = [] ∧ ∃ b : Byte, b &&& 0xf0 = 0x50 ∧ [b, 0x2a, 0x4d, 0x18] <+: f
  lz4Frame : ∀ f c, G.Frame f c → [0x04, 0x22, 0x4d, 0x18] <+: f

/-- Both libraries are built in. -/
def bothLibs (movable : Bool) : Build := ⟨true, true, movable⟩

/-! ## Where a reader is in the file -/

section Position

variable (F : Frames ζ Byte) (G : Frames κ Byte) (parent : ByteSource σ)

/-- The bytes of the file that no decoder has taken. -/
def bytesLeft (s : State ζ κ σ) : List Byte := window s ++ parent.content s.parent

/-- No frame has been begun. -/
structure Idle (s : State ζ κ σ) : Prop where
  dec : s.dec = .undefined
  stream : F.Fresh s.stream
  dcCtxt : G.Fresh s.dcCtxt

/-- One of the decoders is inside a frame, with `todo` and `out` to come. -/
inductive Busy (s : State ζ κ σ) (todo out : List Byte) : Prop where
  | zstd (hdec : s.dec = .zstd ∨ s.dec = .skipFrame) (hstream : F.At s.stream todo out)
      (hdcCtxt : G.Fresh s.dcCtxt)
  | lz4 (hdec : s.dec = .lz4) (hstream : F.Fresh s.stream) (hdcCtxt : G.At s.dcCtxt todo out)

/-- The reader is in front of `frames`, or inside of the one before them; `left` is what is
still to be decoded. -/
inductive Place (frames : List (List Byte × List Byte)) (s : State ζ κ σ) (left : List Byte) :
    Prop where
  | between (hidle : Idle F G s) (hbytes : bytesLeft parent s = frames.flatMap Prod.fst)
      (hleft : left = frames.flatMap Prod.snd)
  | inside (todo out : List Byte) (hbusy : Busy F G s todo out)
      (hbytes : bytesLeft parent s = todo ++ frames.flatMap Prod.fst)
      (hleft : left = out ++ frames.flatMap Prod.snd)

/-- The window is inside of `inbuf`. -/
structure Buffered (s : State ζ κ σ) : Prop where
  index_le : s.inbufIndex ≤ s.inbufLen
  len_le : s.inbufLen ≤ inbufSize
  written : s.inbufLen ≤ s.inbuf.length

/-- Nothing of the file has been decoded yet, and when the decoding begins `inbuf` is full or
has the whole file. -/
structure Unbegun (l : Locals ζ κ σ) : Prop where
  dec : l.io.dec = .undefined
  inbufIndex : l.io.inbufIndex = 0
  top : l.point = .top → l.io.inbufLen = 0
  decode : l.point = .decode → l.io.inbufLen = inbufSize ∨ parent.content l.io.parent = []

/-- `left` is what the frames of the file still hold. If the file is a `single` frame, this
frame has not been begun or there is no other behind it. -/
def Ahead (single : Prop) (l : Locals ζ κ σ) (left : List Byte) : Prop :=
  ∃ frames, (∀ p ∈ frames, IsFrame F G p) ∧ Place F G parent frames l.io left ∧
    (single → frames = [] ∨ frames.length = 1 ∧ Unbegun parent l)

/-- In a read of `len` bytes: the buffer and what is still to be decoded make up `all`. -/
structure Reading (single : Prop) (all : List Byte) (len : ℕ) (l : Locals ζ κ σ) : Prop where
  err : l.io.err = .ok
  inbuf : Buffered l.io
  outbufIndex : l.outbufIndex = l.buffer.length
  room : l.buffer.length < len
  ahead : ∃ left, Ahead F G parent single l left ∧ all = l.buffer ++ left
  fill : l.point = .fill → l.io.inbufLen = inbufSize → l.io.inbufIndex < l.io.inbufLen
  decode : l.point = .decode → l.io.inbufIndex < l.io.inbufLen

/-- Between two reads, with `left` still to be returned. -/
def Resting (single : Prop) (s : State ζ κ σ) (left : List Byte) : Prop :=
  s.err = .ok ∧ Buffered s ∧ Ahead F G parent single (.start s) left ∨ s.err = .eof ∧ left = []

/-- What a read of `len` bytes returns when `all` is left. -/
def nextBytes (all : List Byte) (len : ℕ) : ReadResult := ⟨(all.take len).length, all.take len⟩

/-- How many of the loops are still ahead of the program. -/
def Point.ahead : Point → ℕ
  | .top => 2
  | .fill => 1
  | .decode => 0

/-- The measure of a read: what is left to take and to fill, then what is left of the parent,
then the place in the loops. -/
def workLeft (len : ℕ) (l : Locals ζ κ σ) : ℕ ×ₗ ℕ ×ₗ ℕ :=
  toLex ((bytesLeft parent l.io).length + (len - l.buffer.length),
    toLex ((parent.content l.io.parent).length, l.point.ahead))

/-! ### The conditions on the turns of a read -/

/-- The magic test looks at bytes of the window only. -/
def MagicInWindow (l : Locals ζ κ σ) : Prop :=
  l.point = .decode → l.io.dec = .undefined → l.io.inbufIndex + 4 ≤ l.io.inbufLen

/-- At the end of the file no frame is unfinished. -/
def EndsIdle (l : Locals ζ κ σ) : Prop :=
  l.point = .fill → parent.content l.io.parent = [] → l.io.inbufIndex = l.io.inbufLen →
    l.io.dec = .undefined

end Position

/-! ## The window -/

section Window

variable {s : State ζ κ σ}

theorem length_window (h : Buffered s) : (window s).length = s.inbufLen - s.inbufIndex := by
  have := h.written
  rw [window, List.length_take, List.length_drop]
  omega

theorem window_eq_nil (h : Buffered s) : window s = [] ↔ s.inbufIndex = s.inbufLen := by
  have := h.index_le
  rw [← List.length_eq_zero_iff, length_window h]
  omega

/-- A list at the front of the window is what the magic test sees. -/
theorem getD_inbuf {m : List Byte} (hm : m <+: window s) {i : ℕ} (hi : i < m.length) :
    s.inbuf.getD (s.inbufIndex + i) 0 = m.getD i 0 := by
  obtain ⟨rest, hrest⟩ := hm
  have hwindow : (m ++ rest)[i]? = (s.inbuf.drop s.inbufIndex)[i]? := by
    have hlt : i < (window s).length := by
      rw [← hrest, List.length_append]
      omega
    rw [hrest, window, List.getElem?_take_of_lt]
    rw [window, List.length_take] at hlt
    omega
  rw [List.getElem?_append_left hi, List.getElem?_drop] at hwindow
  rw [List.getD_eq_getElem?_getD, List.getD_eq_getElem?_getD, hwindow]

/-- Compaction leaves the window as it is. -/
theorem window_compact (h : Buffered s) :
    window { s with
      inbuf := memcpyAt s.inbuf 0 (window s), inbufIndex := 0,
      inbufLen := s.inbufLen - s.inbufIndex } = window s := by
  have htake : (memcpyAt s.inbuf 0 (window s)).take (0 + (window s).length) =
      s.inbuf.take 0 ++ window s := take_memcpyAt _ (Nat.zero_le _)
  rw [Nat.zero_add, List.take_zero, List.nil_append, length_window h] at htake
  exact htake

/-- A read of the parent makes the window longer. -/
theorem window_fill (h : Buffered s) (data : List Byte) (c : σ) :
    window { s with
      parent := c, inbuf := memcpyAt s.inbuf s.inbufLen data,
      inbufLen := s.inbufLen + data.length } = window s ++ data := by
  have hindex := h.index_le
  have htake : (memcpyAt s.inbuf s.inbufLen data).take (s.inbufLen + data.length) =
      s.inbuf.take s.inbufLen ++ data := take_memcpyAt data h.written
  have hlen : (s.inbuf.take s.inbufLen).length = s.inbufLen := by
    rw [List.length_take, Nat.min_eq_left h.written]
  show ((memcpyAt s.inbuf s.inbufLen data).drop s.inbufIndex).take
    (s.inbufLen + data.length - s.inbufIndex) = _
  rw [← List.drop_take, htake, List.drop_append_of_le_length (by omega), List.drop_take]
  rfl

theorem window_advance {n : ℕ} (t : State ζ κ σ) (hinbuf : t.inbuf = s.inbuf)
    (hindex : t.inbufIndex = s.inbufIndex + n) (hlen : t.inbufLen = s.inbufLen) :
    window t = (window s).drop n := by
  rw [window, window, hinbuf, hindex, hlen, List.drop_take, List.drop_drop, Nat.sub_sub]

end Window

/-! ## The decoders -/

section Magic

variable {buf : ℕ → Byte} {movable : Bool}

theorem magic_skipFrame {b : Byte} (hb : b &&& 0xf0 = 0x50)
    (h : ∀ i, i < 4 → buf i = [b, 0x2a, 0x4d, 0x18].getD i 0) :
    magic (bothLibs movable) buf = .skipFrame := by
  have h0 : buf 0 = b := h 0 (by omega)
  have h1 : buf 1 = 0x2a := h 1 (by omega)
  have h2 : buf 2 = 0x4d := h 2 (by omega)
  have h3 : buf 3 = 0x18 := h 3 (by omega)
  unfold magic
  rw [if_pos ⟨by rw [h0]; exact hb, h1, h2, h3⟩]

theorem magic_zstd (h : ∀ i, i < 4 → buf i = [0x28, 0xb5, 0x2f, 0xfd].getD i 0) :
    magic (bothLibs movable) buf = .zstd := by
  have h0 : buf 0 = 0x28 := h 0 (by omega)
  have h1 : buf 1 = 0xb5 := h 1 (by omega)
  have h2 : buf 2 = 0x2f := h 2 (by omega)
  have h3 : buf 3 = 0xfd := h 3 (by omega)
  unfold magic
  rw [if_neg fun hskip => absurd hskip.1 (by rw [h0]; decide), if_pos ⟨rfl, h0, h1, h2, h3⟩]

theorem magic_lz4 (h : ∀ i, i < 4 → buf i = [0x04, 0x22, 0x4d, 0x18].getD i 0) :
    magic (bothLibs movable) buf = .lz4 := by
  have h0 : buf 0 = 0x04 := h 0 (by omega)
  have h1 : buf 1 = 0x22 := h 1 (by omega)
  have h2 : buf 2 = 0x4d := h 2 (by omega)
  have h3 : buf 3 = 0x18 := h 3 (by omega)
  unfold magic
  rw [if_neg fun hskip => absurd hskip.1 (by rw [h0]; decide),
    if_neg fun hzstd => absurd hzstd.2.1 (by rw [h0]; decide), if_pos ⟨rfl, h0, h1, h2, h3⟩]

end Magic

section Decoders

variable {F : Frames ζ Byte} {G : Frames κ Byte} {zstd : Coder ζ Unit Byte}
  {lz4 : Coder κ Unit Byte} {s : State ζ κ σ} {movable : Bool} {f c rest todo out : List Byte}

/-- The magic test sees the magic number of a frame that begins in the window, and so finds
the decoder for it. -/
theorem identify_frame (movable : Bool) (hlib : Libraries zstd lz4 F G) (h : Idle F G s)
    (hbuf : Buffered s) (hin : s.inbufIndex + 4 ≤ s.inbufLen)
    (hframe : IsFrame F G (f, c)) (hwindow : window s <+: f ++ rest) :
    identify (bothLibs movable) s ≠ .undefined ∧
      Busy F G { s with dec := identify (bothLibs movable) s } f c := by
  have hsee : ∀ m : List Byte, m.length = 4 → m <+: f →
      ∀ i, i < 4 → s.inbuf.getD (s.inbufIndex + i) 0 = m.getD i 0 := by
    intro m hm hf i hi
    have hfront : m <+: window s := by
      apply List.prefix_of_prefix_length_le (hf.trans (List.prefix_append f rest)) hwindow
      rw [length_window hbuf]
      omega
    exact getD_inbuf hfront (by omega)
  have hdec : identify (bothLibs movable) s =
      magic (bothLibs movable) fun i => s.inbuf.getD (s.inbufIndex + i) 0 := if_pos h.dec
  rcases hframe with hz | hl
  · have hat := hlib.zstd.start s.stream f c h.stream hz
    rcases hlib.zstdFrame f c hz with hm | ⟨_, b, hb, hm⟩
    · rw [hdec, magic_zstd (hsee _ rfl hm)]
      exact ⟨by decide, .zstd (.inl rfl) hat h.dcCtxt⟩
    · rw [hdec, magic_skipFrame hb (hsee _ rfl hm)]
      exact ⟨by decide, .zstd (.inr rfl) hat h.dcCtxt⟩
  · rw [hdec, magic_lz4 (hsee _ rfl (hlib.lz4Frame f c hl))]
    exact ⟨by decide, .lz4 rfl h.stream (hlib.lz4.start s.dcCtxt f c h.dcCtxt hl)⟩

/-- What a decoder does inside of a frame. -/
structure Decoded (F : Frames ζ Byte) (G : Frames κ Byte) (s : State ζ κ σ) (room : ℕ)
    (todo out : List Byte) (a : Answer (State ζ κ σ) Byte) : Prop where
  state : ∃ stream dcCtxt, a.state = { s with stream := stream, dcCtxt := dcCtxt }
  consumed_le : a.consumed ≤ (window s).length
  output_le : a.output.length ≤ room
  progress : 0 < a.consumed ∨ a.output ≠ []
  taken : a.consumed ≤ todo.length
  code : ∃ out', out = a.output ++ out' ∧
    (a.code = 0 ∧ a.consumed = todo.length ∧ out' = [] ∧
        F.Fresh a.state.stream ∧ G.Fresh a.state.dcCtxt ∨
      0 < a.code ∧ (todo.drop a.consumed ≠ [] ∨ out' ≠ []) ∧
        Busy F G a.state (todo.drop a.consumed) out')

theorem decompress_zstd (movable : Bool) (zstd : Coder ζ Unit Byte) (lz4 : Coder κ Unit Byte)
    (len pos : ℕ) (hdec : s.dec = .zstd ∨ s.dec = .skipFrame) :
    decompress (bothLibs movable) zstd lz4 len pos s =
      let a := zstd.call s.stream () (window s) (len - pos)
      ⟨{ s with stream := a.state }, a.consumed, a.output, a.code⟩ := by
  unfold decompress
  rw [if_neg (by omega), if_pos ⟨rfl, hdec⟩, Int.toNat_natCast]

theorem decompress_lz4 (movable : Bool) (zstd : Coder ζ Unit Byte) (lz4 : Coder κ Unit Byte)
    (len pos : ℕ) (hdec : s.dec = .lz4) :
    decompress (bothLibs movable) zstd lz4 len pos s =
      let a := lz4.call s.dcCtxt () (window s) (len - pos)
      ⟨{ s with dcCtxt := a.state }, a.consumed, a.output, a.code⟩ := by
  unfold decompress
  rw [if_neg (by omega),
    if_neg fun hz => by rcases hz.2 with hz | hz <;> rw [hdec] at hz <;> contradiction,
    if_pos ⟨rfl, .inl hdec⟩, Int.toNat_natCast]

theorem decompress_busy (hlib : Libraries zstd lz4 F G) (h : Busy F G s todo out)
    (hwindow : window s ≠ []) (hfront : window s <+: todo ++ rest) {len pos : ℕ}
    (hpos : pos < len) :
    Decoded F G s (len - pos) todo out
      (decompress (bothLibs movable) zstd lz4 len pos s) := by
  have hroom : 0 < len - pos := by omega
  cases h with
  | zstd hdec hstream hdcCtxt =>
    rw [decompress_zstd movable zstd lz4 len pos hdec]
    obtain ⟨htaken, out', hout, hcode⟩ :=
      hlib.zstd.call s.stream todo out (window s) rest (len - pos) hstream hwindow hroom hfront
    refine ⟨⟨_, s.dcCtxt, rfl⟩, zstd.consumed_le .., zstd.output_le ..,
      hlib.zstd.progress _ _ _ _ _ _ hstream hwindow hroom hfront, htaken, out', hout, ?_⟩
    rcases hcode with ⟨hzero, hall, hnil, hfresh⟩ | ⟨hpos, hmore, hat⟩
    · exact .inl ⟨hzero, hall, hnil, hfresh, hdcCtxt⟩
    · exact .inr ⟨hpos, hmore, .zstd hdec hat hdcCtxt⟩
  | lz4 hdec hstream hdcCtxt =>
    rw [decompress_lz4 movable zstd lz4 len pos hdec]
    obtain ⟨htaken, out', hout, hcode⟩ :=
      hlib.lz4.call s.dcCtxt todo out (window s) rest (len - pos) hdcCtxt hwindow hroom hfront
    refine ⟨⟨s.stream, _, rfl⟩, lz4.consumed_le .., lz4.output_le ..,
      hlib.lz4.progress _ _ _ _ _ _ hdcCtxt hwindow hroom hfront, htaken, out', hout, ?_⟩
    rcases hcode with ⟨hzero, hall, hnil, hfresh⟩ | ⟨hpos, hmore, hat⟩
    · exact .inl ⟨hzero, hall, hnil, hstream, hfresh⟩
    · exact .inr ⟨hpos, hmore, .lz4 hdec hstream hat⟩

end Decoders

/-! ## The turns of a read -/

section Turns

variable {F : Frames ζ Byte} {G : Frames κ Byte} {zstd : Coder ζ Unit Byte}
  {lz4 : Coder κ Unit Byte} {parent : ByteSource σ} {s t : State ζ κ σ} {single : Prop}
  {frames : List (List Byte × List Byte)} {all left : List Byte} {len : ℕ} {l : Locals ζ κ σ}

theorem four_le_frame (hlib : Libraries zstd lz4 F G) {p : List Byte × List Byte}
    (h : IsFrame F G p) : 4 ≤ p.1.length := by
  rcases h with hz | hl
  · rcases hlib.zstdFrame _ _ hz with hm | ⟨_, b, _, hm⟩
    · exact hm.length_le
    · exact hm.length_le
  · exact (hlib.lz4Frame _ _ hl).length_le

theorem Busy.dec_ne {todo out : List Byte} (h : Busy F G s todo out) : s.dec ≠ .undefined := by
  cases h with
  | zstd hdec =>
    rcases hdec with hdec | hdec <;> rw [hdec] <;> decide
  | lz4 hdec =>
    rw [hdec]
    decide

theorem Place.congr (h : Place F G parent frames s left) (hdec : t.dec = s.dec)
    (hstream : t.stream = s.stream) (hdcCtxt : t.dcCtxt = s.dcCtxt)
    (hleft : bytesLeft parent t = bytesLeft parent s) : Place F G parent frames t left := by
  cases h with
  | between hidle hb hl =>
    exact .between ⟨hdec.trans hidle.dec, hstream ▸ hidle.stream, hdcCtxt ▸ hidle.dcCtxt⟩
      (hleft.trans hb) hl
  | inside todo out hbusy hb hl =>
    refine .inside todo out ?_ (hleft.trans hb) hl
    cases hbusy with
    | zstd hd hat hfresh => exact .zstd (hdec ▸ hd) (hstream ▸ hat) (hdcCtxt ▸ hfresh)
    | lz4 hd hfresh hat => exact .lz4 (hdec ▸ hd) (hstream ▸ hfresh) (hdcCtxt ▸ hat)

/-- When no frame has been begun at the end of the file, everything has been decoded. -/
theorem Place.of_nil (hlib : Libraries zstd lz4 F G) (hall : ∀ p ∈ frames, IsFrame F G p)
    (h : Place F G parent frames s left) (hnil : bytesLeft parent s = [])
    (hdec : s.dec = .undefined) : left = [] := by
  cases h with
  | between hidle hb hl =>
    cases frames with
    | nil => exact hl
    | cons p frames =>
      have hfour := four_le_frame hlib (hall p (List.mem_cons_self ..))
      rw [hnil, List.flatMap_cons, eq_comm, List.append_eq_nil_iff] at hb
      rw [hb.1, List.length_nil] at hfour
      omega
  | inside todo out hbusy hb hl => exact absurd hdec hbusy.dec_ne

/-- At the top of the loop the window may be moved, and stays what it is. -/
theorem topTurn_spec (build : Build) (l : Locals ζ κ σ) (hbuf : Buffered l.io) :
    ∃ index len inbuf point,
      topTurn build l =
        { l with
          io := { l.io with inbufIndex := index, inbufLen := len, inbuf := inbuf }
          point := point } ∧
      Buffered { l.io with inbufIndex := index, inbufLen := len, inbuf := inbuf } ∧
      window { l.io with inbufIndex := index, inbufLen := len, inbuf := inbuf } = window l.io ∧
      (point = .fill ∧ (len = inbufSize → index < len) ∨ point = .decode ∧ index < len) ∧
      (l.io.inbufIndex = l.io.inbufLen → index = 0 ∧ point = .fill) := by
  have hindex := hbuf.index_le
  have hle := hbuf.len_le
  simp only [topTurn]
  split
  · split
    · refine ⟨0, 0, l.io.inbuf, .fill, rfl, ⟨le_rfl, Nat.zero_le _, Nat.zero_le _⟩, ?_,
        .inl ⟨rfl, fun hfull => absurd hfull (by decide)⟩, fun _ => ⟨rfl, rfl⟩⟩
      -- the window is empty
      rw [(window_eq_nil hbuf).mpr (by omega), window]
      rfl
    · split
      · refine ⟨0, l.io.inbufLen - l.io.inbufIndex, memcpyAt l.io.inbuf 0 (window l.io), .fill, rfl,
          ⟨Nat.zero_le _, (Nat.sub_le _ _).trans hle, ?_⟩, window_compact hbuf,
          .inl ⟨rfl, fun _ => by omega⟩, fun _ => ⟨rfl, rfl⟩⟩
        have hwritten : 0 + (window l.io).length ≤
            (memcpyAt l.io.inbuf 0 (window l.io)).length := le_length_memcpyAt _ (Nat.zero_le _)
        rw [length_window hbuf, Nat.zero_add] at hwritten
        exact hwritten
      · exact ⟨l.io.inbufIndex, l.io.inbufLen, l.io.inbuf, .fill, rfl, hbuf, rfl,
          .inl ⟨rfl, fun _ => by omega⟩, fun hempty => by omega⟩
  · exact ⟨l.io.inbufIndex, l.io.inbufLen, l.io.inbuf, .decode, rfl, hbuf, rfl,
      .inr ⟨rfl, by omega⟩, fun hempty => by omega⟩

theorem topTurn_reading (build : Build) (h : Reading F G parent single all len l)
    (hpoint : l.point = .top) :
    Reading F G parent single all len (topTurn build l) ∧
      workLeft parent len (topTurn build l) < workLeft parent len l := by
  obtain ⟨left, ⟨frames, hframes, hplace, hsingle⟩, hall⟩ := h.ahead
  obtain ⟨index, inbufLen, inbuf, point, hturn, hbuf, hwindow, hnext, hempty⟩ :=
    topTurn_spec build l h.inbuf
  rw [hturn]
  refine ⟨⟨h.err, hbuf, h.outbufIndex, h.room, ⟨left, ⟨frames, hframes,
    hplace.congr rfl rfl rfl ?_, fun hs => ?_⟩, hall⟩, ?_, ?_⟩, ?_⟩
  · rw [bytesLeft, hwindow]
    rfl
  · -- nothing has been read of a file that has not been begun
    refine (hsingle hs).imp id (And.imp id fun hun => ?_)
    obtain ⟨rfl, rfl⟩ := hempty (hun.inbufIndex.trans (hun.top hpoint).symm)
    exact ⟨hun.dec, rfl, Point.noConfusion, Point.noConfusion⟩
  · rintro rfl hfull
    rcases hnext with ⟨_, hlt⟩ | ⟨hd, _⟩
    · exact hlt hfull
    · contradiction
  · rintro rfl
    rcases hnext with ⟨hf, _⟩ | ⟨_, hlt⟩
    · contradiction
    · exact hlt
  · rw [workLeft, workLeft, bytesLeft, bytesLeft, hwindow, hpoint]
    refine Prod.Lex.toLex_lt_toLex.mpr (.inr ⟨rfl, Prod.Lex.toLex_lt_toLex.mpr (.inr ⟨rfl, ?_⟩)⟩)
    show point.ahead < 2
    rcases hnext with ⟨rfl, _⟩ | ⟨rfl, _⟩ <;> decide

/-- A read of the parent, also of no bytes at all. -/
theorem read_room (parent : ByteSource σ) (c : σ) (room : ℕ) :
    ∃ data d, parent.read c room = (⟨data.length, data⟩, d) ∧ data.length ≤ room ∧
      parent.content c = data ++ parent.content d ∧
      (data = [] → 0 < room → parent.content c = []) := by
  rcases Nat.eq_zero_or_pos room with rfl | hpos
  · obtain ⟨hret, hcontent⟩ := parent.read_zero c
    exact ⟨[], (parent.read c 0).2, Prod.ext hret rfl, le_rfl, hcontent.symm,
      fun _ h => absurd h (by omega)⟩
  · obtain ⟨data, d, hread, hle, hcontent, hend⟩ := parent.read_spec c hpos
    exact ⟨data, d, hread, hle, hcontent, fun hnil _ => hend hnil⟩

/-- The variables when `data` has been read into `inbuf` and the loop is not left by a return. -/
def Locals.filled (l : Locals ζ κ σ) (data : List Byte) (c : σ) : Locals ζ κ σ :=
  let inbufLen := l.io.inbufLen + data.length
  { l with
    io := { l.io with
      parent := c, inbuf := memcpyAt l.io.inbuf l.io.inbufLen data, inbufLen := inbufLen }
    point := if (data.length : ℤ) = 0 ∨ inbufSize ≤ inbufLen then .decode else .fill }

/-- At the end of the file, with nothing left in `inbuf`, all has been returned. -/
theorem Reading.eof (hlib : Libraries zstd lz4 F G) (h : Reading F G parent single all len l)
    (hpoint : l.point = .fill) (hend : EndsIdle parent l)
    (hcontent : parent.content l.io.parent = []) (hempty : l.io.inbufIndex = l.io.inbufLen)
    (ht : t.err = .eof) :
    (Locals.mk t l.point l.outbufIndex l.buffer).ret l.outbufIndex = (nextBytes all len, t) ∧
      Resting F G parent single t (all.drop len) := by
  obtain ⟨left, ⟨frames, hframes, hplace, _⟩, hall⟩ := h.ahead
  have hroom := h.room
  have hwindow : window l.io = [] := (window_eq_nil h.inbuf).mpr hempty
  have hdone : left = [] := by
    refine hplace.of_nil hlib hframes ?_ (hend hpoint hcontent hempty)
    rw [bytesLeft, hwindow, hcontent]
    rfl
  rw [hdone, List.append_nil] at hall
  refine ⟨Prod.ext ?_ rfl, .inr ⟨ht, ?_⟩⟩
  · rw [hall, nextBytes, List.take_of_length_le (by omega), h.outbufIndex]
    show (⟨_, l.buffer.take _⟩ : ReadResult) = _
    rw [Int.toNat_natCast, List.take_length]
  · rw [hall, List.drop_eq_nil_of_le (by omega)]

section Filled

variable {data : List Byte} {c : σ}

/-- At the end of a fill `inbuf` is full or has the rest of the file. -/
theorem filled_end (hcontent : parent.content l.io.parent = data ++ parent.content c)
    (hnone : data = [] → 0 < inbufSize - l.io.inbufLen → parent.content l.io.parent = [])
    (hdata : data.length ≤ inbufSize - l.io.inbufLen) (hle : l.io.inbufLen ≤ inbufSize)
    (hpoint : (l.filled data c).point = .decode) :
    (l.filled data c).io.inbufLen = inbufSize ∨ parent.content c = [] := by
  show l.io.inbufLen + data.length = inbufSize ∨ parent.content c = []
  by_cases hfull : l.io.inbufLen + data.length = inbufSize
  · exact .inl hfull
  · right
    have hnil : data = [] := by
      simp only [Locals.filled] at hpoint
      split at hpoint
      · next hstop =>
        apply List.eq_nil_of_length_eq_zero
        omega
      · exact Point.noConfusion hpoint
    rw [hnil, List.length_nil] at hfull
    have hempty := hnone hnil (by omega)
    rw [hcontent, List.append_eq_nil_iff] at hempty
    exact hempty.2

/-- A fill moves bytes of the parent into the window. -/
theorem bytesLeft_filled (hbuf : Buffered l.io)
    (hcontent : parent.content l.io.parent = data ++ parent.content c) :
    bytesLeft parent (l.filled data c).io = bytesLeft parent l.io := by
  have hwindow : window (l.filled data c).io = window l.io ++ data := window_fill hbuf data c
  rw [bytesLeft, bytesLeft, hwindow, hcontent, List.append_assoc]
  rfl

/-- There is less of the parent left, or the loop goes on to decode. -/
theorem workLeft_filled (hpoint : l.point = .fill) (hbuf : Buffered l.io)
    (hcontent : parent.content l.io.parent = data ++ parent.content c) :
    workLeft parent len (l.filled data c) < workLeft parent len l := by
  rw [workLeft, workLeft, hpoint, bytesLeft_filled hbuf hcontent]
  refine Prod.Lex.toLex_lt_toLex.mpr (.inr ⟨rfl, Prod.Lex.toLex_lt_toLex.mpr ?_⟩)
  show (parent.content c).length < (parent.content l.io.parent).length ∨ _
  by_cases hnil : data = []
  · right
    refine ⟨?_, ?_⟩
    · show (parent.content c).length = (parent.content l.io.parent).length
      rw [hcontent, hnil, List.nil_append]
    · simp [Locals.filled, hnil, Point.ahead]
  · left
    have := List.length_pos_iff.mpr hnil
    rw [hcontent, List.length_append]
    omega

/-- A fill keeps what holds between the turns. -/
theorem Reading.filled (h : Reading F G parent single all len l)
    (hcontent : parent.content l.io.parent = data ++ parent.content c)
    (hnone : data = [] → 0 < inbufSize - l.io.inbufLen → parent.content l.io.parent = [])
    (hdata : data.length ≤ inbufSize - l.io.inbufLen)
    (hmore : data = [] → l.io.inbufIndex < l.io.inbufLen) :
    Reading F G parent single all len (l.filled data c) := by
  obtain ⟨left, ⟨frames, hframes, hplace, hsingle⟩, hall⟩ := h.ahead
  have hindex := h.inbuf.index_le
  have hle := h.inbuf.len_le
  refine ⟨h.err, ⟨?_, ?_, ?_⟩, h.outbufIndex, h.room, ⟨left, ⟨frames, hframes,
    hplace.congr rfl rfl rfl (bytesLeft_filled h.inbuf hcontent), fun hs => ?_⟩, hall⟩, ?_, ?_⟩
  · show l.io.inbufIndex ≤ l.io.inbufLen + data.length
    omega
  · show l.io.inbufLen + data.length ≤ inbufSize
    omega
  · exact le_length_memcpyAt data h.inbuf.written
  · refine (hsingle hs).imp id (And.imp id fun hun => ⟨hun.dec, hun.inbufIndex, ?_,
      filled_end hcontent hnone hdata hle⟩)
    intro htop
    simp only [Locals.filled] at htop
    split at htop <;> exact Point.noConfusion htop
  · intro hf hfull
    have hfull' : l.io.inbufLen + data.length = inbufSize := hfull
    simp only [Locals.filled, hfull', le_refl, or_true, if_true] at hf
    exact absurd hf (by decide)
  · intro _
    show l.io.inbufIndex < l.io.inbufLen + data.length
    by_cases hnil : data = []
    · have := hmore hnil
      omega
    · have := List.length_pos_iff.mpr hnil
      omega

end Filled

/-- A turn that fills `inbuf` goes on with the read, or ends it at the end of the file. -/
theorem fillTurn_reading (hlib : Libraries zstd lz4 F G)
    (h : Reading F G parent single all len l) (hpoint : l.point = .fill)
    (hend : EndsIdle parent l) :
    (∃ m, fillTurn parent.toSource l = .next m ∧ Reading F G parent single all len m ∧
        workLeft parent len m < workLeft parent len l) ∨
      (∃ t, fillTurn parent.toSource l = .done (nextBytes all len, t) ∧
        Resting F G parent single t (all.drop len)) := by
  have hle := h.inbuf.len_le
  obtain ⟨data, c, hread, hdata, hcontent, hnone⟩ :=
    read_room parent l.io.parent (inbufSize - l.io.inbufLen)
  have hint : cInt (data.length : ℤ) = data.length :=
    cInt_of_lt (hdata.trans_lt ((Nat.sub_le _ _).trans_lt (by decide)))
  unfold fillTurn
  simp only [hread, hint]
  rw [if_neg (by omega)]
  split
  · next hzero =>
    right
    have hfull : l.io.inbufLen ≠ inbufSize := fun hfull => by
      have := h.fill hpoint hfull
      omega
    have hempty := hnone (List.eq_nil_of_length_eq_zero (by omega)) (by omega)
    let t : State ζ κ σ :=
      { l.io with parent := c, inbuf := memcpyAt l.io.inbuf l.io.inbufLen data, err := .eof }
    obtain ⟨hret, hresting⟩ :=
      h.eof (t := t) hlib hpoint hend hempty hzero.2.symm rfl
    exact ⟨t, congrArg Turn.done hret, hresting⟩
  · next hgo =>
    left
    have hmore : data = [] → l.io.inbufIndex < l.io.inbufLen := by
      rintro rfl
      have hindex := h.inbuf.index_le
      rw [List.length_nil] at hgo
      omega
    exact ⟨l.filled data c, rfl, h.filled hcontent hnone hdata hmore,
      workLeft_filled hpoint h.inbuf hcontent⟩

/-- A file of one frame has the frame's magic number in the window when it is decoded. -/
theorem Unbegun.four_le (hlib : Libraries zstd lz4 F G) (h : Unbegun parent l)
    (hbuf : Buffered l.io) (hpoint : l.point = .decode) {p : List Byte × List Byte}
    (hp : IsFrame F G p) (hbytes : p.1 <+: bytesLeft parent l.io) :
    l.io.inbufIndex + 4 ≤ l.io.inbufLen := by
  have hindex := h.inbufIndex
  rcases h.decode hpoint with hfull | hnil
  · rw [hindex, hfull]
    decide
  · have hfour := (four_le_frame hlib hp).trans hbytes.length_le
    rw [bytesLeft, hnil, List.append_nil, length_window hbuf] at hfour
    omega

/-- With bytes in the window a decoder is inside of a frame, after the magic test if not
before. -/
theorem Ahead.identified (movable : Bool) (hlib : Libraries zstd lz4 F G)
    (h : Ahead F G parent single l left) (hbuf : Buffered l.io) (hpoint : l.point = .decode)
    (hlt : l.io.inbufIndex < l.io.inbufLen) (hmagic : single ∨ MagicInWindow l) :
    identify (bothLibs movable) l.io ≠ .undefined ∧
      ∃ (todo out : List Byte) (frames : List (List Byte × List Byte)),
        (∀ p ∈ frames, IsFrame F G p) ∧ (single → frames = []) ∧
        Busy F G { l.io with dec := identify (bothLibs movable) l.io } todo out ∧
        bytesLeft parent l.io = todo ++ frames.flatMap Prod.fst ∧
        left = out ++ frames.flatMap Prod.snd := by
  obtain ⟨frames, hall, hplace, hsingle⟩ := h
  cases hplace with
  | between hidle hb hl =>
    cases frames with
    | nil =>
      have hnil := (List.append_eq_nil_iff.mp hb).1
      rw [window_eq_nil hbuf] at hnil
      omega
    | cons p frames =>
      have hp := hall p (List.mem_cons_self ..)
      rw [List.flatMap_cons] at hb
      have hfront : window l.io <+: p.1 ++ frames.flatMap Prod.fst :=
        hb ▸ List.prefix_append _ _
      have hone : single → frames = [] ∧ Unbegun parent l := fun hs =>
        ((hsingle hs).resolve_left (List.cons_ne_nil _ _)).imp
          (fun hlen => List.eq_nil_of_length_eq_zero (Nat.succ.inj hlen)) id
      have hfour : l.io.inbufIndex + 4 ≤ l.io.inbufLen := by
        rcases hmagic with hs | hm
        · exact (hone hs).2.four_le hlib hbuf hpoint hp (hb ▸ List.prefix_append _ _)
        · exact hm hpoint hidle.dec
      obtain ⟨hne, hbusy⟩ := identify_frame movable hlib hidle hbuf hfour hp hfront
      exact ⟨hne, p.1, p.2, frames, fun q hq => hall q (List.mem_cons_of_mem _ hq),
        fun hs => (hone hs).1, hbusy, hb, hl⟩
  | inside todo out hbusy hb hl =>
    have hsame : identify (bothLibs movable) l.io = l.io.dec := if_neg hbusy.dec_ne
    rw [hsame]
    exact ⟨hbusy.dec_ne, todo, out, frames, hall,
      fun hs => (hsingle hs).resolve_right fun hun => hbusy.dec_ne hun.2.dec, hbusy, hb, hl⟩

/-- A decoder that is given bytes and room takes or emits some. -/
theorem Decoded.moves {room : ℕ} {todo out : List Byte} {a : Answer (State ζ κ σ) Byte}
    (h : Decoded F G s room todo out a) : 0 < a.consumed + a.output.length := by
  rcases h.progress with hconsumed | houtput
  · omega
  · have := List.length_pos_iff.mpr houtput
    omega

/-- Where the reader is after a call of a decoder. -/
theorem Decoded.place {room : ℕ} {todo out : List Byte} {a : Answer (State ζ κ σ) Byte}
    (h : Decoded F G s room todo out a) (hbuf : Buffered s)
    (hbytes : bytesLeft parent s = todo ++ frames.flatMap Prod.fst)
    (ht : t = { a.state with
      inbufIndex := s.inbufIndex + a.consumed
      dec := if a.code = 0 then .undefined else s.dec }) :
    Buffered t ∧ (bytesLeft parent t).length + a.consumed = (bytesLeft parent s).length ∧
      ∃ out', out = a.output ++ out' ∧
        Place F G parent frames t (out' ++ frames.flatMap Prod.snd) := by
  obtain ⟨stream, dcCtxt, hstate⟩ := h.state
  obtain ⟨out', hout, hcode⟩ := h.code
  have hle := h.consumed_le
  have hindex := hbuf.index_le
  have hlen : t.inbufLen = s.inbufLen := by rw [ht, hstate]
  have hinbuf : t.inbuf = s.inbuf := by rw [ht, hstate]
  have hnext : t.inbufIndex = s.inbufIndex + a.consumed := by rw [ht]
  have hparent : t.parent = s.parent := by rw [ht, hstate]
  have hwindow : window t = (window s).drop a.consumed := window_advance t hinbuf hnext hlen
  have hleft : bytesLeft parent t = todo.drop a.consumed ++ frames.flatMap Prod.fst := by
    rw [bytesLeft, hwindow, hparent, ← List.drop_append_of_le_length hle,
      ← List.drop_append_of_le_length h.taken, ← hbytes, bytesLeft]
  refine ⟨⟨?_, ?_, ?_⟩, ?_, out', hout, ?_⟩
  · rw [length_window hbuf] at hle
    rw [hnext, hlen]
    omega
  · rw [hlen]
    exact hbuf.len_le
  · rw [hlen, hinbuf]
    exact hbuf.written
  · have htaken := h.taken
    rw [hleft, hbytes, List.length_append, List.length_append, List.length_drop]
    omega
  · rcases hcode with ⟨hzero, hlast, rfl, hz, hl⟩ | ⟨hpos, _, hbusy⟩
    · -- the frame is done with
      have hdec : t.dec = .undefined := by rw [ht, hzero, if_pos rfl]
      refine .between ⟨hdec, ?_, ?_⟩ ?_ rfl
      · rw [ht]
        exact hz
      · rw [ht]
        exact hl
      · rw [hleft, hlast, List.drop_length, List.nil_append]
    · have hdec : t.dec = a.state.dec := by rw [ht, hstate, if_neg (by omega)]
      refine .inside _ out' ?_ hleft rfl
      cases hbusy with
      | zstd hd hat hfresh =>
        rw [← hdec] at hd
        exact .zstd hd (ht ▸ hat) (ht ▸ hfresh)
      | lz4 hd hfresh hat =>
        rw [← hdec] at hd
        exact .lz4 hd (ht ▸ hfresh) (ht ▸ hat)

/-- A frame is identified and goes to its decoder. -/
theorem decodeTurn_identified {build : Build} {dec : DecoderT} (hlen : 4 ≤ len)
    (hident : identify build l.io = dec) (hne : dec ≠ .undefined) :
    decodeTurn build zstd lz4 len l =
      decodeFrame build zstd lz4 len l { l.io with dec := dec } := by
  unfold decodeTurn
  rw [if_neg fun hshort => absurd hshort.2 (by omega), hident, if_neg hne]

/-- After a call of a decoder in a read of `len` bytes: `got` is what the caller's buffer has
of `all`, and there is less left to take and to fill. -/
structure Advanced (F : Frames ζ Byte) (G : Frames κ Byte) (parent : ByteSource σ)
    (single : Prop) (all : List Byte) (len : ℕ) (l : Locals ζ κ σ) (got : List Byte)
    (t : State ζ κ σ) : Prop where
  err : t.err = .ok
  inbuf : Buffered t
  got_le : got.length ≤ len
  ahead : ∃ frames left, (∀ p ∈ frames, IsFrame F G p) ∧ (single → frames = []) ∧
    Place F G parent frames t left ∧ all = got ++ left
  less : (bytesLeft parent t).length + (len - got.length) <
    (bytesLeft parent l.io).length + (len - l.buffer.length)

section Advanced

variable {got : List Byte}

/-- With the caller's buffer full the read is over. -/
theorem Advanced.resting (h : Advanced F G parent single all len l got t)
    (hfull : got.length = len) :
    (⟨got.length, got⟩ : ReadResult) = nextBytes all len ∧
      Resting F G parent single t (all.drop len) := by
  obtain ⟨frames, left, hframes, hsingle, hplace, hall⟩ := h.ahead
  have hgot : all.take len = got := by rw [hall, ← hfull, List.take_left]
  refine ⟨by rw [nextBytes, hgot], .inl ⟨h.err, h.inbuf, frames, hframes, ?_,
    fun hs => .inl (hsingle hs)⟩⟩
  rw [hall, ← hfull, List.drop_left]
  exact hplace

/-- With room left in the caller's buffer the read goes on. -/
theorem Advanced.reading (h : Advanced F G parent single all len l got t)
    (hmore : got.length < len) :
    Reading F G parent single all len
      ⟨t, if t.inbufLen ≤ t.inbufIndex then .top else .decode, got.length, got⟩ := by
  obtain ⟨frames, left, hframes, hsingle, hplace, hall⟩ := h.ahead
  refine ⟨h.err, h.inbuf, rfl, hmore, ⟨left, ⟨frames, hframes, hplace,
    fun hs => .inl (hsingle hs)⟩, hall⟩, ?_, ?_⟩
  · intro hf
    simp only at hf
    split at hf <;> contradiction
  · intro hdec
    simp only at hdec ⊢
    split at hdec
    · contradiction
    · omega

/-- The length of the caller's buffer is not changed by the conversion to an `int`. -/
theorem Advanced.cInt_length (h : Advanced F G parent single all len l got t)
    (hfit : (all.take len).length < 2 ^ 31) : cInt (got.length : ℤ) = got.length := by
  obtain ⟨_, _, _, _, _, hall⟩ := h.ahead
  have hle := h.got_le
  apply cInt_of_lt
  rw [hall, List.length_take, List.length_append] at hfit
  omega

/-- There is less left, wherever the loop goes on. -/
theorem Advanced.workLeft (h : Advanced F G parent single all len l got t) (point : Point)
    (outbufIndex : ℤ) :
    workLeft parent len ⟨t, point, outbufIndex, got⟩ < workLeft parent len l :=
  Prod.Lex.toLex_lt_toLex.mpr (.inl h.less)

end Advanced

/-- What a call of a decoder does to the caller's buffer and to the state, with `s` the state
after the magic test. -/
theorem Decoded.advanced {todo out : List Byte} {a : Answer (State ζ κ σ) Byte}
    (hd : Decoded F G s (len - l.buffer.length) todo out a)
    (h : Reading F G parent single all len l) (hbuf : Buffered s) (herr : s.err = .ok)
    (hsame : bytesLeft parent s = bytesLeft parent l.io)
    (hframes : ∀ p ∈ frames, IsFrame F G p) (hsingle : single → frames = [])
    (hbytes : bytesLeft parent s = todo ++ frames.flatMap Prod.fst)
    (hall : all = l.buffer ++ (out ++ frames.flatMap Prod.snd))
    (ht : t = { a.state with
      inbufIndex := s.inbufIndex + a.consumed
      dec := if a.code = 0 then .undefined else s.dec }) :
    Advanced F G parent single all len l (l.buffer ++ a.output) t := by
  obtain ⟨hbuf', hwork, out', hout, hplace⟩ := hd.place hbuf hbytes ht
  have hroom := h.room
  have hroom' := hd.output_le
  have hlen : (l.buffer ++ a.output).length = l.buffer.length + a.output.length :=
    List.length_append ..
  refine ⟨?_, hbuf', by omega, ⟨frames, _, hframes, hsingle, hplace, ?_⟩, ?_⟩
  · obtain ⟨_, _, hstate⟩ := hd.state
    rw [ht, hstate]
    exact herr
  · rw [hall, hout]
    simp only [List.append_assoc]
  · have hmoves := hd.moves
    rw [← hsame]
    omega

/-- A turn that decodes calls the decoder of the frame, and the read is over when the caller's
buffer is full. -/
theorem decodeTurn_advanced (movable : Bool) (hlib : Libraries zstd lz4 F G)
    (h : Reading F G parent single all len l) (hpoint : l.point = .decode) (hlen : 4 ≤ len)
    (hfit : (all.take len).length < 2 ^ 31) (hmagic : single ∨ MagicInWindow l) :
    ∃ got t, Advanced F G parent single all len l got t ∧
      decodeTurn (bothLibs movable) zstd lz4 len l =
        if got.length = len then .done (⟨got.length, got⟩, t)
        else .next
          ⟨t, if t.inbufLen ≤ t.inbufIndex then .top else .decode, got.length, got⟩ := by
  obtain ⟨left, hahead, hall⟩ := h.ahead
  have hbuf := h.inbuf
  have hlt := h.decode hpoint
  obtain ⟨hne, todo, out, frames, hframes, hsingle, hbusy, hbytes, hleft⟩ :=
    hahead.identified movable hlib hbuf hpoint hlt hmagic
  set s : State ζ κ σ := { l.io with dec := identify (bothLibs movable) l.io } with hs
  have hbufs : Buffered s := ⟨hbuf.index_le, hbuf.len_le, hbuf.written⟩
  have hwindow : window s ≠ [] := by
    rw [Ne, window_eq_nil hbufs]
    show l.io.inbufIndex ≠ l.io.inbufLen
    omega
  have hfront : window s <+: todo ++ frames.flatMap Prod.fst := by
    rw [← hbytes]
    exact List.prefix_append _ _
  have hd : Decoded F G s (len - l.buffer.length) todo out
      (decompress (bothLibs movable) zstd lz4 len l.outbufIndex s) := by
    rw [h.outbufIndex]
    exact decompress_busy hlib hbusy hwindow hfront h.room
  rw [decodeTurn_identified hlen rfl hne, ← hs]
  unfold decodeFrame
  set a := decompress (bothLibs movable) zstd lz4 len l.outbufIndex s
  set t : State ζ κ σ :=
    { a.state with
      inbufIndex := s.inbufIndex + a.consumed
      dec := if a.code = 0 then .undefined else s.dec } with ht
  have hadv : Advanced F G parent single all len l (l.buffer ++ a.output) t :=
    hd.advanced h hbufs h.err rfl hframes hsingle hbytes (hleft ▸ hall) ht
  have hcode : ¬ a.code < 0 := by
    obtain ⟨_, _, hcode⟩ := hd.code
    rcases hcode with hcode | hcode <;> omega
  -- so many bytes fit in an `int`
  have hint : cInt (l.outbufIndex + a.output.length) = ((l.buffer ++ a.output).length : ℕ) := by
    rw [h.outbufIndex, ← Nat.cast_add, ← List.length_append]
    exact hadv.cInt_length hfit
  have hbuffer : memcpyAt l.buffer l.outbufIndex.toNat a.output = l.buffer ++ a.output := by
    rw [h.outbufIndex, Int.toNat_natCast, memcpyAt_length]
  have hstuck : ¬ (t.inbufIndex = s.inbufIndex ∧ ((l.buffer ++ a.output).length : ℤ) = 0) := by
    rintro ⟨hsame, hnone⟩
    have hsame' : s.inbufIndex + a.consumed = s.inbufIndex := hsame
    have hmoves := hd.moves
    rw [List.length_append] at hnone
    omega
  refine ⟨l.buffer ++ a.output, t, hadv, ?_⟩
  simp only [hint, hbuffer]
  rw [if_neg hcode, if_neg hstuck]
  by_cases hfull : (l.buffer ++ a.output).length = len
  · rw [if_pos (Nat.cast_inj.mpr hfull), if_pos hfull]
    show Turn.done ((⟨_, (l.buffer ++ a.output).take _⟩ : ReadResult), t) = _
    rw [Int.toNat_natCast, List.take_length]
  · rw [if_neg fun hcast => hfull (Nat.cast_inj.mp hcast), if_neg hfull]

/-- A turn that decodes goes on with the read, or ends it with the caller's buffer full. -/
theorem decodeTurn_reading (movable : Bool) (hlib : Libraries zstd lz4 F G)
    (h : Reading F G parent single all len l) (hpoint : l.point = .decode) (hlen : 4 ≤ len)
    (hfit : (all.take len).length < 2 ^ 31) (hmagic : single ∨ MagicInWindow l) :
    (∃ m, decodeTurn (bothLibs movable) zstd lz4 len l = .next m ∧
        Reading F G parent single all len m ∧ workLeft parent len m < workLeft parent len l) ∨
      (∃ t, decodeTurn (bothLibs movable) zstd lz4 len l = .done (nextBytes all len, t) ∧
        Resting F G parent single t (all.drop len)) := by
  obtain ⟨got, t, hadv, hturn⟩ := decodeTurn_advanced movable hlib h hpoint hlen hfit hmagic
  by_cases hfull : got.length = len
  · right
    obtain ⟨hret, hresting⟩ := hadv.resting hfull
    rw [if_pos hfull, hret] at hturn
    exact ⟨t, hturn, hresting⟩
  · left
    rw [if_neg hfull] at hturn
    have hle := hadv.got_le
    exact ⟨_, hturn, hadv.reading (by omega), hadv.workLeft ..⟩

theorem zstdLz4Read_ok (build : Build) (zstd : Coder ζ Unit Byte) (lz4 : Coder κ Unit Byte)
    (parent : Source σ) (len : ℕ) (hok : s.err = .ok) :
    zstdLz4Read build zstd lz4 parent len s =
      fun fuel => loop (readTurn build zstd lz4 parent len) fuel (.start s) := by
  funext fuel
  simp only [zstdLz4Read, hok]

/-- A read returns as much as there is, up to `len` bytes. -/
theorem read_frames (movable : Bool) (hlib : Libraries zstd lz4 F G) (hlen : 4 ≤ len)
    (hfit : (nextBytes all len).data.length < 2 ^ 31)
    (h : Resting F G parent single s all)
    (hturns : ∀ l, s.err = .ok →
      Visits (readTurn (bothLibs movable) zstd lz4 parent.toSource len) (.start s) l →
      (single ∨ MagicInWindow l) ∧ EndsIdle parent l) :
    ∃ t, Yields (zstdLz4Read (bothLibs movable) zstd lz4 parent.toSource len s)
        (nextBytes all len, t) ∧ Resting F G parent single t (all.drop len) := by
  rcases h with ⟨hok, hbuf, hahead⟩ | ⟨heof, rfl⟩
  · have hstart : Reading F G parent single all len (.start s) :=
      ⟨hok, hbuf, rfl, show 0 < len by omega, ⟨all, hahead, rfl⟩, Point.noConfusion,
        Point.noConfusion⟩
    have hread := zstdLz4Read_ok (bothLibs movable) zstd lz4 parent.toSource len hok
    -- every turn keeps the invariant, or is the last and returns what is promised
    have hturn : ∀ l,
        Visits (readTurn (bothLibs movable) zstd lz4 parent.toSource len) (.start s) l →
        Reading F G parent single all len l →
        (∃ m, readTurn (bothLibs movable) zstd lz4 parent.toSource len l = .next m ∧
            Reading F G parent single all len m ∧ workLeft parent len m < workLeft parent len l) ∨
          (∃ t, readTurn (bothLibs movable) zstd lz4 parent.toSource len l =
              .done (nextBytes all len, t) ∧ Resting F G parent single t (all.drop len)) := by
      intro l hl hreading
      obtain ⟨hmagic, hend⟩ := hturns l hok hl
      unfold readTurn
      cases hpoint : l.point with
      | top => exact .inl ⟨_, rfl, topTurn_reading (bothLibs movable) hreading hpoint⟩
      | fill => exact fillTurn_reading hlib hreading hpoint hend
      | decode => exact decodeTurn_reading movable hlib hreading hpoint hlen hfit hmagic
    obtain ⟨q, hq, t, rfl, ht⟩ := loop_total_visits (workLeft parent len)
      (I := Reading F G parent single all len)
      (Q := fun q => ∃ t, q = (nextBytes all len, t) ∧ Resting F G parent single t (all.drop len))
      (fun l m hl hreading hm => by
        rcases hturn l hl hreading with ⟨m', hm', hkeep⟩ | ⟨t, ht, _⟩
        · rw [hm] at hm'
          cases hm'
          exact hkeep
        · rw [hm] at ht
          cases ht)
      (fun l q hl hreading hq => by
        rcases hturn l hl hreading with ⟨m', hm', _⟩ | ⟨t, ht, hrest⟩
        · rw [hq] at hm'
          cases hm'
        · rw [hq] at ht
          cases ht
          exact ⟨t, rfl, hrest⟩) hstart
    exact ⟨t, hread ▸ hq, ht⟩
  · refine ⟨s, ⟨0, fun fuel _ => ?_⟩, .inr ⟨heof, List.drop_nil⟩⟩
    simp only [zstdLz4Read, heof, nextBytes, List.take_nil, List.length_nil, Nat.cast_zero]

end Turns

/-! ## Runs -/

/-- The reads of `lens` bytes, each with the bytes of `all` that are its turn. -/
def reads : List Byte → List ℕ → List (ℕ × ReadResult)
  | _, [] => []
  | all, len :: lens => (len, nextBytes all len) :: reads (all.drop len) lens

section Runs

variable {F : Frames ζ Byte} {G : Frames κ Byte} {zstd : Coder ζ Unit Byte}
  {lz4 : Coder κ Unit Byte} {parent : ByteSource σ} {single : Prop} {lens : List ℕ}

theorem runCalls_frames (movable : Bool) (hlib : Libraries zstd lz4 F G) {all : List Byte}
    {s : State ζ κ σ} (hlens : ∀ len ∈ lens, 4 ≤ len)
    (hfit : ∀ e ∈ reads all lens, e.2.data.length < 2 ^ 31)
    (h : Resting F G parent single s all)
    (hturns : ∀ len l, Takes (bothLibs movable) zstd lz4 parent.toSource s lens len l →
      (single ∨ MagicInWindow l) ∧ EndsIdle parent l) :
    ∃ t, Yields (fun fuel => runCalls
      (fun len s => zstdLz4Read (bothLibs movable) zstd lz4 parent.toSource len s fuel) lens s)
      (reads all lens, t) := by
  induction lens generalizing s all with
  | nil => exact ⟨s, .runCalls_nil⟩
  | cons len lens ih =>
    obtain ⟨t, hread, ht⟩ := read_frames movable hlib (hlens len (List.mem_cons_self ..))
      (hfit _ (List.mem_cons_self ..)) h fun l hok hl => hturns len l (.now hok hl)
    obtain ⟨n, hn⟩ := id hread
    obtain ⟨u, hrun⟩ := ih (fun l hl => hlens l (List.mem_cons_of_mem _ hl))
      (fun e he => hfit e (List.mem_cons_of_mem _ he)) ht
      fun len' l hl => hturns len' l (.later (hn n le_rfl) hl)
    exact ⟨u, hread.runCalls_cons hrun⟩

/-- A reader that has just been opened. -/
theorem resting_open {stream : ζ} {dcCtxt : κ} {c : σ} (hstream : F.Fresh stream)
    (hdcCtxt : G.Fresh dcCtxt) {frames : List (List Byte × List Byte)}
    (hframes : ∀ p ∈ frames, IsFrame F G p) (hfile : parent.content c = frames.flatMap Prod.fst)
    (hsingle : single → frames.length = 1) :
    Resting F G parent single (zstdLz4Open stream dcCtxt c) (frames.flatMap Prod.snd) := by
  refine .inl ⟨rfl, ⟨le_rfl, Nat.zero_le _, le_rfl⟩, frames, hframes, ?_,
    fun hs => .inr ⟨hsingle hs, ?_⟩⟩
  · exact .between ⟨rfl, hstream, hdcCtxt⟩ hfile rfl
  · exact ⟨rfl, rfl, fun _ => rfl, Point.noConfusion⟩

end Runs

end Wandio.ZstdLz4Reader
