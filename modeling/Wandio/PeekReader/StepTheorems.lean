import Wandio.PeekReader.Model

/-!
# The steps of the peeking reader

All that a `peek_read` and a `peek_peek` can do over any child, be it one that fails. A buffer
that is empty is always refilled with a new block, since the size asked for is larger than the
old length.
-/

namespace Wandio.PeekReader

variable {σ : Type*} {child : Source σ} {addr len : ℤ} {s t : State σ}

/-- A buffer is there if there is something in it; a negative `length` is an error. -/
structure Wf (s : State σ) : Prop where
  offset_nonneg : 0 ≤ s.offset
  offset_le : 0 ≤ s.length → s.offset ≤ s.length
  empty : s.buffer = none → s.length = 0

/-- The number of bytes in the buffer that have not been read. -/
def State.left (s : State σ) : ℤ := s.length - s.offset

/-- What `refill_buffer` asks the child for when the buffer has `length` bytes. -/
def refillAmount (len length : ℤ) : ℤ :=
  let amount := if len < peekSize then peekSize else len
  let amount := if amount < length then length else amount
  amount + (minReadSize - amount.tmod minReadSize)

/-- The rest of a `peek_read` into a buffer at `addr` comes straight from the child, when
`left` of its `len` bytes have been copied. -/
def Aligned (addr len left : ℤ) : Prop :=
  (len - left).tmod minReadSize = 0 ∧ (addr + left).tmod 4096 = 0

instance (addr len left : ℤ) : Decidable (Aligned addr len left) :=
  inferInstanceAs (Decidable (_ ∧ _))

/-- A reader that has just been opened is well formed. -/
theorem wf_peekOpen (c : σ) : Wf (peekOpen c) := ⟨le_rfl, fun _ => le_rfl, fun _ => rfl⟩

/-- Freeing a buffer that is used up leaves the reader well formed. -/
theorem Wf.freeDrained (h : Wf s) : Wf (freeDrained s) := by
  unfold PeekReader.freeDrained
  split
  · exact ⟨le_rfl, fun _ => le_rfl, fun _ => rfl⟩
  · exact h

theorem Wf.withOffset (h : Wf s) {offset : ℤ} (hnonneg : 0 ≤ offset)
    (hle : 0 ≤ s.length → offset ≤ s.length) (c : σ) :
    Wf { s with offset := offset, child := c } := ⟨hnonneg, hle, h.empty⟩

/-- A refill asks for more than there is. -/
theorem lt_refillAmount (len length : ℤ) : length < refillAmount len length := by
  have hmin : minReadSize = 4096 := rfl
  unfold refillAmount
  simp only
  set amount := if (if len < peekSize then peekSize else len) < length then length
    else if len < peekSize then peekSize else len with hamount
  have hmod : amount.tmod minReadSize < minReadSize := Int.tmod_lt_of_pos _ (by decide)
  have hle : length ≤ amount := by
    rw [hamount]
    split <;> omega
  omega

theorem window_zero (s : State σ) : s.window 0 = [] := by
  unfold State.window
  cases s.buffer with
  | none => rfl
  | some b => exact List.take_zero ..

/-- A refill reads into the start of a new block. -/
theorem refillBuffer_eq (child : Source σ) (len : ℤ) (h : s.length = s.offset) :
    refillBuffer child len s =
      let r := child.read s.child (refillAmount len s.length).toNat
      some (r.1.ret, ⟨r.2, some ⟨(refillAmount len s.length).toNat, memcpyAt [] 0 r.1.data⟩,
        r.1.ret, 0⟩) := by
  have hlt := lt_refillAmount len s.length
  have hamount : refillAmount len s.length =
    (if (if len < peekSize then peekSize else len) < s.length then s.length
      else if len < peekSize then peekSize else len) +
    (minReadSize - (if (if len < peekSize then peekSize else len) < s.length then s.length
      else if len < peekSize then peekSize else len).tmod minReadSize) := rfl
  unfold refillBuffer
  rw [if_neg (by omega)]
  simp only [← hamount, hlt, if_true]

/-- As much as there is, up to `len` bytes, is taken from the buffer. -/
theorem takeBuffered_eq (h : Wf s) (hlength : 0 ≤ s.length) (hlen : 0 ≤ len) :
    takeBuffered len s =
      (min len s.left, s.window (min len s.left),
        { s with offset := s.offset + min len s.left }) := by
  have hnonneg := h.offset_nonneg
  have hle := h.offset_le hlength
  unfold takeBuffered
  split
  · rfl
  · next hempty =>
    -- no buffer, or nothing in it
    have hzero : s.length = 0 := by
      by_contra hne
      apply hempty
      refine ⟨?_, hne⟩
      rw [Option.isSome_iff_ne_none]
      exact fun hb => hne (h.empty hb)
    have hmin : min len s.left = 0 := by
      unfold State.left
      omega
    rw [hmin, window_zero, Int.add_zero]

/-- What a `peek_read` of `len` bytes into a buffer at `addr` does: its result and the state
behind it. -/
inductive ReadMove (child : Source σ) (addr len : ℤ) (s : State σ) :
    ReadResult → State σ → Prop where
  | sticky (herr : s.length < 0) : ReadMove child addr len s ⟨s.length, []⟩ s
  | buffered (hok : 0 ≤ s.length) (hlen : len ≤ s.left) :
      ReadMove child addr len s ⟨len, s.window len⟩
        (freeDrained { s with offset := s.offset + len })
  | direct {r : ReadResult} {c : σ} (hok : 0 ≤ s.length) (hmore : s.left < len)
      (haligned : Aligned addr len s.left)
      (hread : child.read s.child (len - s.left).toNat = (r, c)) (hret : 1 ≤ r.ret) :
      ReadMove child addr len s ⟨s.left + r.ret, s.window s.left ++ r.data⟩
        (freeDrained { s with offset := s.length, child := c })
  | directShort {r : ReadResult} {c : σ} (hok : 0 ≤ s.length) (hmore : s.left < len)
      (haligned : Aligned addr len s.left)
      (hread : child.read s.child (len - s.left).toNat = (r, c)) (hret : r.ret < 1) :
      ReadMove child addr len s ⟨if 0 < s.left then s.left else r.ret, s.window s.left⟩
        { s with offset := s.length, child := c }
  | refill {r : ReadResult} {c : σ} (hok : 0 ≤ s.length) (hmore : s.left < len)
      (haligned : ¬ Aligned addr len s.left)
      (hread : child.read s.child (refillAmount (len - s.left) s.length).toNat = (r, c))
      (hret : 1 ≤ r.ret) :
      ReadMove child addr len s
        ⟨s.left + min (len - s.left) r.ret,
          s.window s.left ++ (memcpyAt [] 0 r.data).take (min (len - s.left) r.ret).toNat⟩
        (freeDrained ⟨c, some ⟨(refillAmount (len - s.left) s.length).toNat,
          memcpyAt [] 0 r.data⟩, r.ret, min (len - s.left) r.ret⟩)
  | refillShort {r : ReadResult} {c : σ} (hok : 0 ≤ s.length) (hmore : s.left < len)
      (haligned : ¬ Aligned addr len s.left)
      (hread : child.read s.child (refillAmount (len - s.left) s.length).toNat = (r, c))
      (hret : r.ret < 1) :
      ReadMove child addr len s ⟨if 0 < s.left then s.left else r.ret, s.window s.left⟩
        ⟨c, some ⟨(refillAmount (len - s.left) s.length).toNat, memcpyAt [] 0 r.data⟩,
          r.ret, 0⟩

/-- A `peek_read` never fails its `assert`. -/
theorem readMove (child : Source σ) (addr : ℤ) (h : Wf s) (hlen : 0 ≤ len) :
    ∃ r t, peekRead child addr len s = some (r, t) ∧ ReadMove child addr len s r t := by
  unfold peekRead
  by_cases herr : s.length < 0
  · rw [if_pos herr]
    exact ⟨_, _, rfl, .sticky herr⟩
  have hok : 0 ≤ s.length := not_lt.mp herr
  have hle := h.offset_le hok
  rw [if_neg herr, takeBuffered_eq h hok hlen]
  simp only
  by_cases hbuffered : len ≤ s.left
  · rw [min_eq_left hbuffered, if_neg (by omega)]
    exact ⟨_, _, rfl, .buffered hok hbuffered⟩
  have hmore : s.left < len := not_le.mp hbuffered
  have hoffset : s.offset + s.left = s.length := by
    unfold State.left
    omega
  rw [min_eq_right hmore.le, if_pos (by omega), hoffset]
  unfold readMore
  simp only [Int.sub_self, ne_eq, not_true_eq_false, if_false]
  obtain ⟨r, c, hread⟩ : ∃ r c, child.read s.child (len - s.left).toNat = (r, c) := ⟨_, _, rfl⟩
  obtain ⟨r', c', hread'⟩ :
      ∃ r c, child.read s.child (refillAmount (len - s.left) s.length).toNat = (r, c) :=
    ⟨_, _, rfl⟩
  split
  · next haligned =>
    rw [hread]
    split
    · next hret => exact ⟨_, _, rfl, .directShort hok hmore haligned hread hret⟩
    · next hret => exact ⟨_, _, rfl, .direct hok hmore haligned hread (not_lt.mp hret)⟩
  · next haligned =>
    rw [refillBuffer_eq child _ rfl]
    simp only [hread', Option.map_some]
    split
    · next hret => exact ⟨_, _, rfl, .refillShort hok hmore haligned hread' hret⟩
    · next hret =>
      have hmin : (if len - s.left < r'.ret then len - s.left else r'.ret) =
          min (len - s.left) r'.ret := by
        split <;> omega
      rw [hmin]
      exact ⟨_, _, rfl, .refill hok hmore haligned hread' (not_lt.mp hret)⟩

/-- A read leaves the reader well formed. -/
theorem ReadMove.wf {r : ReadResult} (h : Wf s) (hlen : 0 ≤ len)
    (hmove : ReadMove child addr len s r t) : Wf t := by
  have hnonneg := h.offset_nonneg
  cases hmove with
  | sticky => exact h
  | buffered hok hle =>
    unfold State.left at hle
    exact (h.withOffset (by omega) (fun _ => by omega) s.child).freeDrained
  | direct hok => exact (h.withOffset hok (fun _ => le_rfl) _).freeDrained
  | directShort hok => exact h.withOffset hok (fun _ => le_rfl) _
  | refill hok hmore _ hread hret =>
    refine Wf.freeDrained ⟨?_, fun _ => min_le_right _ _, fun h => nomatch h⟩
    show 0 ≤ min (len - s.left) _
    omega
  | refillShort => exact ⟨le_rfl, id, fun h => nomatch h⟩

/-- What a peek asks the child for, if there is not enough in the buffer. -/
def State.readAmount (len : ℤ) (s : State σ) : ℤ :=
  len - (s.length - s.offset) +
    (peekSize - (s.length + (len - (s.length - s.offset))).tmod peekSize)

/-- A peek that needs more reads more. -/
theorem readAmount_pos (hmore : s.left < len) : 0 < s.readAmount len := by
  have hmod : (s.length + (len - (s.length - s.offset))).tmod peekSize < peekSize :=
    Int.tmod_lt_of_pos _ (by decide)
  unfold State.left at hmore
  unfold State.readAmount
  omega

/-- The block that a peek reads into: a larger one, with the old bytes at its start. -/
def State.extended (len : ℤ) (s : State σ) : Block :=
  ⟨(s.length + s.readAmount len).toNat,
    (s.buffer.map Block.bytes).getD [] |>.take s.length.toNat⟩

/-- What a `peek_peek` of `len` bytes does, when there has been no error. -/
inductive PeekMove (child : Source σ) (len : ℤ) (s : State σ) : ReadResult → State σ → Prop where
  | enough (hlen : len ≤ s.left) : PeekMove child len s ⟨len, s.window len⟩ s
  | fail {r : ReadResult} {c : σ} (hmore : s.left < len)
      (hread : child.read s.child (s.readAmount len).toNat = (r, c)) (hret : r.ret < 0) :
      PeekMove child len s ⟨r.ret, []⟩
        { s with
          buffer := some ⟨(s.extended len).size,
            memcpyAt (s.extended len).bytes s.length.toNat r.data⟩
          child := c }
  | extend {r : ReadResult} {c : σ} (hmore : s.left < len)
      (hread : child.read s.child (s.readAmount len).toNat = (r, c)) (hret : 0 ≤ r.ret) :
      PeekMove child len s
        (peekCopy len { s with
          buffer := some ⟨(s.extended len).size,
            memcpyAt (s.extended len).bytes s.length.toNat r.data⟩
          child := c
          length := s.length + r.ret }).1
        { s with
          buffer := some ⟨(s.extended len).size,
            memcpyAt (s.extended len).bytes s.length.toNat r.data⟩
          child := c
          length := s.length + r.ret }

/-- A peek leaves the reader well formed. -/
theorem PeekMove.wf {r : ReadResult} (h : Wf s) (hok : 0 ≤ s.length)
    (hmove : PeekMove child len s r t) : Wf t := by
  have hle := h.offset_le hok
  cases hmove with
  | enough => exact h
  | fail => exact ⟨h.offset_nonneg, h.offset_le, fun h => nomatch h⟩
  | @extend q _ _ _ hret =>
    refine ⟨h.offset_nonneg, fun _ => ?_, fun h => nomatch h⟩
    show s.offset ≤ s.length + q.ret
    omega

/-- The buffer of a peek keeps its bytes when it grows. -/
theorem alignedrealloc_eq (h : Wf s) (hok : 0 ≤ s.length) (hmore : s.left < len) :
    alignedrealloc s.buffer (sizeT s.length) (sizeT (s.length + s.readAmount len)) =
      some (some (s.extended len)) := by
  have hpos := readAmount_pos hmore
  have hold : sizeT s.length = s.length.toNat := if_neg (by omega)
  have hnew : sizeT (s.length + s.readAmount len) = (s.length + s.readAmount len).toNat :=
    if_neg (by omega)
  unfold alignedrealloc State.extended
  rw [hold, hnew, if_neg (by omega), if_neg (by omega)]
  cases hb : s.buffer with
  | none =>
    have hzero := h.empty hb
    simp [hzero]
  | some b => rfl

/-- A `peek_peek` never fails an `assert`, unless there has been an error. -/
theorem peekMove (child : Source σ) (len : ℤ) (h : Wf s) (hok : 0 ≤ s.length) :
    ∃ r t, peekPeek child len s = some (r, t) ∧ PeekMove child len s r t := by
  unfold peekPeek
  by_cases hmore : s.left < len
  · have htotal : len - (s.length - s.offset) +
        (peekSize - (s.length + (len - (s.length - s.offset))).tmod peekSize) =
        s.readAmount len := rfl
    obtain ⟨r, c, hread⟩ :
        ∃ r c, child.read s.child (s.readAmount len).toNat = (r, c) := ⟨_, _, rfl⟩
    rw [if_pos (show s.length - s.offset < len from hmore)]
    simp only [htotal, alignedrealloc_eq h hok hmore, Option.map_some, hread]
    split
    · next hret => exact ⟨_, _, rfl, .fail hmore hread hret⟩
    · next hret => exact ⟨_, _, rfl, .extend hmore hread (not_lt.mp hret)⟩
  · have hlen : len ≤ s.left := not_lt.mp hmore
    rw [if_neg (show ¬ s.length - s.offset < len from hmore)]
    refine ⟨⟨len, s.window len⟩, s, ?_, .enough hlen⟩
    have hmin : min len (s.length - s.offset) = len := min_eq_left hlen
    simp only [peekCopy, hmin]

end Wandio.PeekReader
