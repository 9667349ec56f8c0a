import Wandio.HttpReader.FillTheorems
import Wandio.Utils.Transition

/-!
# Where an http reader is

As long as curl reports no errors, the buffer of an http reader is the part of the object that
begins at `off0`, and reading and seeking go by the position `off0 + p_buf`. How much comes in
each transfer makes no difference, and neither do the transfers in which nothing comes.
-/

namespace Wandio.HttpReader

open Loop Transition

/-- Curl reports no errors and knows the length of what it delivers. -/
def Clean (net : ℕ → Transfer) : Prop :=
  ∀ i, (net i).failed = false ∧ (net i).lengthKnown = true ∧ (net i).addHandle = 0 ∧
    (net i).addAgain = 0

/-- The buffer is the part of the object that begins at `off0`, and the transfer is behind
it. -/
structure Window (object : List Byte) (s : State) : Prop where
  pBuf_le : s.pBuf ≤ s.lBuf
  lBuf_le : s.lBuf ≤ mBuf
  fits : s.off0 + s.lBuf ≤ object.length
  bytes : s.buf.take s.lBuf = (object.drop s.off0).take s.lBuf
  position : s.position = s.off0 + s.lBuf
  length : s.totalLength = object.length
  done : s.doneReading → s.off0 = object.length

/-- The state between two calls: the buffer is empty at the end of the object only. -/
structure Coherent (object : List Byte) (s : State) : Prop extends Window object s where
  atEnd : s.lBuf = 0 → s.off0 = object.length

section Window

variable {net : ℕ → Transfer} {object : List Byte} {s t : State}

/-- The bytes between `p_buf` and `l_buf` are those of the object. -/
theorem Window.buffered_eq (h : Window object s) :
    s.buffered = (object.drop (httpTell s)).take (s.lBuf - s.pBuf) := by
  rw [State.buffered, h.bytes, httpTell, List.drop_take, List.drop_drop]

/-- One piece is delivered. -/
theorem Window.deliver (h : Window object s) (size : ℕ) :
    Window object (deliver object s size) := by
  set piece := (object.drop s.position).take size with hpiece
  have hfits := h.fits
  have hposition := h.position
  have hlength : piece.length ≤ object.length - s.position := by
    rw [hpiece, List.length_take, List.length_drop]
    omega
  have hbuf : s.lBuf ≤ s.buf.length := by
    have hlen := congrArg List.length h.bytes
    rw [List.length_take, List.length_take, List.length_drop] at hlen
    omega
  unfold HttpReader.deliver writeCb
  rw [← hpiece]
  by_cases hroom : mBuf < piece.length + s.lBuf
  · rw [if_pos hroom]
    exact h
  · rw [if_neg hroom]
    refine ⟨?_, ?_, ?_, ?_, ?_, h.length, h.done⟩
    · show s.pBuf ≤ s.lBuf + piece.length
      exact h.pBuf_le.trans (Nat.le_add_right _ _)
    · show s.lBuf + piece.length ≤ mBuf
      omega
    · show s.off0 + (s.lBuf + piece.length) ≤ object.length
      omega
    · show (memcpyAt s.buf s.lBuf piece).take (s.lBuf + piece.length) =
        (object.drop s.off0).take (s.lBuf + piece.length)
      have hdrop : (object.drop s.off0).drop s.lBuf = object.drop s.position := by
        rw [List.drop_drop, hposition]
      have htake : (object.drop s.position).take piece.length = piece := by
        rw [hpiece, List.length_take, List.take_eq_take_iff]
        omega
      rw [take_memcpyAt _ hbuf, h.bytes, List.take_add, hdrop, htake]
    · show s.position + piece.length = s.off0 + (s.lBuf + piece.length)
      omega

/-- The state behind the loop of `fill_buffer`, when the buffer has been used up. -/
theorem Window.filled (h : Window object s) (net : ℕ → Transfer) (hdone : s.doneReading = false) :
    Window object (filled net object s) ∧ (filled net object s).off0 = s.off0 + s.lBuf := by
  have hstart : Window object { s with off0 := s.off0 + s.lBuf, pBuf := 0, lBuf := 0 } := by
    refine ⟨le_rfl, Nat.zero_le _, h.fits, rfl, h.position, h.length, fun hd => ?_⟩
    rw [show s.doneReading = true from hd] at hdone
    contradiction
  have hpieces : ∀ (pieces : List ℕ) (t : State), Window object t →
      Window object (pieces.foldl (HttpReader.deliver object) t) := by
    intro pieces
    induction pieces with
    | nil => exact fun t ht => ht
    | cons size pieces ih => exact fun t ht => ih _ (ht.deliver size)
  have hperformed := hpieces (net s.transfers).pieces _ hstart
  refine ⟨⟨hperformed.pBuf_le, hperformed.lBuf_le, hperformed.fits, hperformed.bytes,
    hperformed.position, ?_, hperformed.done⟩, (filled_fields net object s).1⟩
  show (if _ then _ else _) = _
  rw [if_neg (by rw [hperformed.length]; omega)]
  exact hperformed.length

/-- `prepare` starts a transfer at `off0`. -/
theorem Window.prepare {off0 : ℕ} (hlength : s.totalLength = object.length)
    (hoff0 : off0 ≤ object.length) (curl : Easy) (buf : List Byte) (rc : ℤ) :
    Window object
      (prepare rc { s with curl := curl, buf := buf, off0 := off0, doneReading := false }) :=
  ⟨le_rfl, Nat.zero_le _, hoff0, rfl, rfl, hlength, fun h => nomatch h⟩

/-- `fill_buffer` moves on without a loss, if there is more. -/
theorem Window.fill (hnet : Clean net) (h : Window object s) (hp : s.pBuf = s.lBuf)
    (fuel : ℕ) {r : ℤ} (hfill : fillBuffer net object fuel s = some (r, t)) :
    Window object t ∧ httpTell t = httpTell s ∧ t.pBuf = 0 ∧
      (0 < r ∧ 0 < t.lBuf ∨ r = fillFinished ∧ t.lBuf = 0 ∧ t.off0 = object.length ∨
        r = fillRetry) := by
  obtain ⟨hfailed, _, _, hagain⟩ := hnet s.transfers
  have hpos := (filled_fields net object s).2.1
  cases fuel with
  | zero => contradiction
  | succ fuel =>
    rw [fillBuffer_succ hp, Option.some_inj, fillResult] at hfill
    simp only [hfailed, hagain, Bool.false_eq_true, if_false, if_true] at hfill
    by_cases hdone : s.doneReading
    · -- the end has been found before
      rw [if_pos hdone, Prod.mk.injEq] at hfill
      obtain ⟨rfl, rfl⟩ := hfill
      have hend := h.done hdone
      have hfits := h.fits
      have hl : s.lBuf = 0 := by omega
      refine ⟨⟨le_rfl, Nat.zero_le _, hfits, rfl, h.position, h.length, fun _ => ?_⟩, ?_, rfl,
        .inr (.inl ⟨rfl, rfl, ?_⟩)⟩
      · show s.off0 + s.lBuf = object.length
        omega
      · show s.off0 + s.lBuf + 0 = s.off0 + s.pBuf
        omega
      · show s.off0 + s.lBuf = object.length
        omega
    · have hdone' : s.doneReading = false := by simpa using hdone
      obtain ⟨hwindow, hoff0⟩ := h.filled net hdone'
      have hlength := hwindow.length
      have hfits := hwindow.fits
      rw [if_neg hdone] at hfill
      set u := HttpReader.filled net object s with hu
      have htell : u.off0 + 0 = httpTell s := by rw [httpTell]; omega
      by_cases hr : Restarts net object s
      · rw [if_pos hr, Prod.mk.injEq] at hfill
        obtain ⟨rfl, rfl⟩ := hfill
        have hdone'' : (initIo u).doneReading = false := by
          show u.doneReading = false
          rw [(filled_fields net object s).2.2.1]
          exact hdone'
        have hoff : u.off0 ≤ object.length := (Nat.le_add_right _ _).trans hfits
        have hprepared := Window.prepare (s := u) hlength hoff ⟨[], 0⟩ [] 0
        refine ⟨?_, htell, rfl, .inr (.inr rfl)⟩
        have hsame : initIo u = { u with
            curl := ⟨[], 0⟩, buf := [], off0 := u.off0, doneReading := false } := by
          rw [← hdone'']
          rfl
        rw [hsame]
        exact hprepared
      · rw [if_neg hr, Prod.mk.injEq] at hfill
        obtain ⟨rfl, ht⟩ := hfill
        have hstop : u.lBuf = 0 → u.totalLength ≤ u.off0 := by
          intro hl
          by_contra hmore
          exact hr ⟨hdone', hfailed, hl, by rw [← hu]; omega⟩
        by_cases hend : u.lBuf < mBuf - curlMaxWriteSize ∧ u.totalLength ≤ u.off0
        · rw [if_pos hend] at ht
          subst ht
          refine ⟨⟨hwindow.pBuf_le, hwindow.lBuf_le, hfits, hwindow.bytes, hwindow.position,
            hlength, fun _ => ?_⟩, ?_, hpos, .inr (.inl ⟨?_, ?_, ?_⟩)⟩
          · show u.off0 = object.length
            omega
          · show u.off0 + u.pBuf = httpTell s
            rw [hpos]
            exact htell
          · show (u.lBuf : ℤ) = 0
            omega
          · show u.lBuf = 0
            omega
          · show u.off0 = object.length
            omega
        · rw [if_neg hend] at ht
          subst ht
          have hroom : 0 < mBuf - curlMaxWriteSize := by decide
          have hl : u.lBuf ≠ 0 := fun hl => hend ⟨by omega, hstop hl⟩
          refine ⟨hwindow, ?_, hpos, .inl ⟨by omega, by omega⟩⟩
          rw [httpTell, hpos]
          exact htell

end Window

/-! ## Reading -/

section Read

variable {net : ℕ → Transfer} {object : List Byte} {s t : State} {fuel : ℕ}

/-- In a read of `len` bytes that has begun at `pos`. -/
structure Copying (object : List Byte) (pos len : ℕ) (v : Reading) : Prop where
  window : Window object v.io
  tell : httpTell v.io = pos + v.out.length
  out : v.out = (object.drop pos).take v.out.length
  rest : v.out.length + v.rest = len
  atEnd : v.rest = 0 → v.io.lBuf = 0 → v.io.off0 = object.length

/-- What a read that began at `pos` returns. -/
structure ReadAt (object : List Byte) (pos len : ℕ) (r : ReadResult) (t : State) : Prop where
  ret : r.ret = (min len (object.length - pos) : ℕ)
  data : r.data = (object.drop pos).take (min len (object.length - pos))
  tell : httpTell t = pos + min len (object.length - pos)
  coherent : Coherent object t

section Copying

variable {pos len : ℕ} {v : Reading} (h : Copying object pos len v)
include h

/-- What is copied goes on where the copy has come to. -/
theorem Copying.copied {n : ℕ} (hn : n ≤ v.io.lBuf - v.io.pBuf) :
    (v.out ++ v.io.buffered.take n).length = v.out.length + n ∧
      v.out ++ v.io.buffered.take n = (object.drop pos).take (v.out.length + n) := by
  have hfits := h.window.fits
  have htell : v.io.off0 + v.io.pBuf = pos + v.out.length := h.tell
  have hbuffered := h.window.buffered_eq
  have hlen : (v.io.buffered.take n).length = n := by
    rw [hbuffered, List.length_take, List.length_take, List.length_drop, httpTell]
    omega
  refine ⟨by rw [List.length_append, hlen], ?_⟩
  rw [List.take_add, ← h.out, hbuffered, List.take_take, Nat.min_eq_left hn, List.drop_drop, h.tell]

/-- The rest is in the buffer. -/
theorem Copying.last (hrest : v.rest ≠ 0) (henough : v.rest ≤ v.io.lBuf - v.io.pBuf) :
    Copying object pos len
      ⟨{ v.io with pBuf := v.io.pBuf + v.rest }, 0, v.out ++ v.io.buffered.take v.rest⟩ := by
  have hlb := h.window.pBuf_le
  have htell : v.io.off0 + v.io.pBuf = pos + v.out.length := h.tell
  obtain ⟨hlen, hout⟩ := h.copied henough
  refine ⟨⟨?_, h.window.lBuf_le, h.window.fits, h.window.bytes, h.window.position, h.window.length,
    h.window.done⟩, ?_, ?_, ?_, fun _ hl => ?_⟩
  · show v.io.pBuf + v.rest ≤ v.io.lBuf
    omega
  · show v.io.off0 + (v.io.pBuf + v.rest) = pos + (v.out ++ v.io.buffered.take v.rest).length
    omega
  · rw [hlen]
    exact hout
  · rw [hlen]
    exact h.rest
  · have hzero : v.io.lBuf = 0 := hl
    omega

/-- The buffer is used up and filled. -/
theorem Copying.fill (hnet : Clean net) (hshort : v.io.lBuf - v.io.pBuf < v.rest) {ret : ℤ}
    {io : State}
    (hfill : fillBuffer net object fuel { v.io with pBuf := v.io.lBuf } = some (ret, io)) :
    Copying object pos len ⟨io, v.rest - (v.io.lBuf - v.io.pBuf), v.out ++ v.io.buffered⟩ ∧
      (0 < ret ∨ ret = fillFinished ∧ io.lBuf = 0 ∧ io.off0 = object.length ∨ ret = fillRetry) := by
  have hlb := h.window.pBuf_le
  have hrest := h.rest
  have htell : v.io.off0 + v.io.pBuf = pos + v.out.length := h.tell
  have hall : v.io.buffered.take (v.io.lBuf - v.io.pBuf) = v.io.buffered := by
    apply List.take_of_length_le
    rw [h.window.buffered_eq, List.length_take]
    exact Nat.min_le_left _ _
  obtain ⟨hlen, hout⟩ := h.copied le_rfl
  rw [hall] at hlen hout
  have hused : Window object { v.io with pBuf := v.io.lBuf } :=
    ⟨le_rfl, h.window.lBuf_le, h.window.fits, h.window.bytes, h.window.position, h.window.length,
      h.window.done⟩
  obtain ⟨hwindow, hio, _, hret⟩ := hused.fill hnet rfl _ hfill
  refine ⟨⟨hwindow, ?_, ?_, ?_, fun hz => ?_⟩, hret.imp (fun hpos => hpos.1) id⟩
  · rw [hio, hlen]
    show v.io.off0 + v.io.lBuf = _
    omega
  · rw [hlen]
    exact hout
  · rw [hlen]
    show v.out.length + (v.io.lBuf - v.io.pBuf) + (v.rest - (v.io.lBuf - v.io.pBuf)) = len
    omega
  · have hz' : v.rest - (v.io.lBuf - v.io.pBuf) = 0 := hz
    omega

/-- A turn of the loop that goes on. -/
theorem Copying.next (hnet : Clean net) {w : Reading}
    (hv : readTurn (fillBuffer net object fuel) len v = .next w) : Copying object pos len w := by
  cases readMove_next hv with
  | copy hmore henough => exact h.last hmore henough
  | refill hshort hfill => exact (h.fill hnet hshort hfill).1

/-- A turn that leaves the loop. -/
theorem Copying.done (hnet : Clean net) {q : Option (ReadResult × State)}
    (hv : readTurn (fillBuffer net object fuel) len v = .done q) :
    ∀ r t, q = some (r, t) → ReadAt object pos len r t := by
  have hrest := h.rest
  cases readMove_done hv with
  | finish hzero =>
    -- everything has been copied
    rintro r t hrt
    cases hrt
    have htell : v.io.off0 + v.io.pBuf = pos + v.out.length := h.tell
    have hfits := h.window.fits
    have hlb := h.window.pBuf_le
    have hlen : v.out.length = len := by omega
    have hmin : min len (object.length - pos) = len := by omega
    refine ⟨?_, ?_, ?_, ⟨h.window, h.atEnd hzero⟩⟩
    · rw [hmin]
      show (len : ℤ) - v.rest = len
      omega
    · rw [hmin, ← hlen]
      exact h.out
    · rw [hmin, ← hlen]
      exact h.tell
  | hang =>
    intro r t hrt
    cases hrt
  | @finished io hshort hfill =>
    -- the end of the object
    obtain ⟨hnext, hret⟩ := h.fill hnet hshort hfill
    rintro r t hrt
    cases hrt
    obtain ⟨hl, hoff0⟩ : io.lBuf = 0 ∧ io.off0 = object.length := by
      rcases hret with hpos | ⟨_, hend⟩ | hretry
      · exact absurd hpos (by decide)
      · exact hend
      · exact absurd hretry (by decide)
    have hp := hnext.window.pBuf_le
    have htell : io.off0 + io.pBuf = pos + (v.out ++ v.io.buffered).length := hnext.tell
    have hcount : (v.out ++ v.io.buffered).length + (v.rest - (v.io.lBuf - v.io.pBuf)) =
        len := hnext.rest
    have hmin : min len (object.length - pos) = (v.out ++ v.io.buffered).length := by
      rw [show io.lBuf = 0 from hl] at hp
      have hp' : io.pBuf = 0 := Nat.le_zero.mp hp
      omega
    refine ⟨?_, ?_, ?_, ⟨hnext.window, fun _ => hoff0⟩⟩
    · rw [hmin]
      show (len : ℤ) - (v.rest - (v.io.lBuf - v.io.pBuf) : ℕ) = _
      omega
    · rw [hmin]
      exact hnext.out
    · rw [hmin]
      exact hnext.tell
  | fail hshort hfill hpos hfinished hretry =>
    obtain ⟨_, hret⟩ := h.fill hnet hshort hfill
    rcases hret with hpos' | ⟨hfinished', _⟩ | hretry'
    · exact absurd hpos' hpos
    · exact absurd hfinished' hfinished
    · exact absurd hretry' hretry

end Copying

/-- A read that returns. -/
theorem Coherent.httpRead (hnet : Clean net) (h : Coherent object s) {len : ℕ} {r : ReadResult}
    (hr : httpRead net object len s fuel = some (r, t)) : ReadAt object (httpTell s) len r t := by
  unfold HttpReader.httpRead httpReadWith at hr
  split at hr
  · next hl =>
    -- the end of the object
    cases hr
    have hend := h.atEnd hl
    have hp := h.pBuf_le
    have hmin : min len (object.length - httpTell s) = 0 := by rw [httpTell]; omega
    refine ⟨?_, ?_, ?_, h⟩
    · rw [hmin]
      rfl
    · rw [hmin, List.take_zero]
    · rw [hmin, Nat.add_zero]
  · next hl =>
    rw [Option.join_eq_some_iff] at hr
    have hstart : Copying object (httpTell s) len ⟨s, len, []⟩ :=
      ⟨h.toWindow, rfl, rfl, Nat.zero_add _, fun _ hz => absurd hz hl⟩
    exact loop_invariant (I := Copying object (httpTell s) len)
      (Q := fun q => ∀ r t, q = some (r, t) → ReadAt object (httpTell s) len r t)
      (fun v w hv hw => hv.next hnet hw) (fun v q hv hq => hv.done hnet hq) hstart hr r t rfl

/-! ## Seeking -/

/-- A seek to an offset in the object that does not fail. -/
theorem Coherent.httpSeek (hnet : Clean net) (h : Coherent object s) {off : ℕ}
    (hoff : off < object.length) {ret : ℤ}
    (hr : httpSeek net object off .set s fuel = some (ret, t)) (hret : 0 ≤ ret) :
    ret = off ∧ httpTell t = off ∧ Coherent object t := by
  unfold HttpReader.httpSeek httpSeekWith at hr
  simp only [Int.toNat_natCast] at hr
  rw [if_neg (by omega)] at hr
  split at hr
  · next hin =>
    -- inside of the buffer
    cases hr
    have hhere : httpTell { s with pBuf := s.pBuf + (off - httpTell s) } = off := by
      have htell : httpTell s = s.off0 + s.pBuf := rfl
      show s.off0 + (s.pBuf + (off - httpTell s)) = off
      omega
    rw [hhere]
    refine ⟨rfl, rfl, ⟨⟨?_, h.lBuf_le, h.fits, h.bytes, h.position, h.length, h.done⟩, h.atEnd⟩⟩
    show s.pBuf + (off - httpTell s) ≤ s.lBuf
    omega
  · split at hr
    · -- by a new transfer
      unfold reconnect at hr
      simp only [(hnet s.transfers).2.2.1] at hr
      rw [if_neg (by decide), Option.map_eq_some_iff] at hr
      obtain ⟨⟨n, u⟩, hfill, hu⟩ := hr
      have hprepared := Window.prepare (s := s) h.length hoff.le s.curl s.buf 0
      obtain ⟨hwindow, htell, _, hmore⟩ := hprepared.fill hnet rfl _ hfill
      simp only at hu
      split at hu
      · rw [seekFailed, Prod.mk.injEq] at hu
        rw [← hu.1] at hret
        omega
      · next hpos =>
        rw [Prod.mk.injEq] at hu
        obtain ⟨rfl, rfl⟩ := hu
        refine ⟨rfl, htell, ⟨hwindow, fun hl => ?_⟩⟩
        rcases hmore with ⟨_, hl'⟩ | ⟨hfin, _⟩ | hretry
        · omega
        · rw [hfin] at hpos
          exact absurd le_rfl hpos
        · rw [hretry] at hpos
          exact absurd (by decide) hpos
    · -- by reading
      unfold skip at hr
      rw [Option.map_eq_some_iff] at hr
      obtain ⟨⟨r, u⟩, hread, hu⟩ := hr
      have hreadAt := h.httpRead (t := u) hnet hread
      simp only at hu
      split at hu
      · rw [seekFailed, Prod.mk.injEq] at hu
        rw [← hu.1] at hret
        omega
      · next hthere =>
        rw [Prod.mk.injEq] at hu
        obtain ⟨rfl, rfl⟩ := hu
        have hr := hreadAt.ret
        have htell := hreadAt.tell
        refine ⟨rfl, ?_, hreadAt.coherent⟩
        rw [htell]
        omega

/-- A reader that has been opened. -/
theorem coherent_of_open (hnet : Clean net) (hne : object ≠ []) {hdrs : List (List Byte)}
    (hopen : httpOpenHdrs net object hdrs fuel = some (some s)) : Coherent object s := by
  have hpos : 0 < object.length := List.length_pos_iff.mpr hne
  unfold httpOpenHdrs at hopen
  simp only [connected_eq] at hopen
  split at hopen
  · cases hopen
  · rw [Option.map_eq_some_iff] at hopen
    obtain ⟨⟨r, t⟩, hfill, ht⟩ := hopen
    set requests := if _ = (0 : ℤ) then [(⟨hdrs, 0⟩ : Easy)] else [] with hrequests
    cases fuel with
    | zero => contradiction
    | succ fuel =>
      rw [fillBuffer_known rfl rfl rfl (hnet 0).2.1 rfl] at hfill
      have hstart : Window object
          ⟨⟨hdrs, 0⟩, [], 0, object.length, 0, 0, false, 0, 0, requests⟩ :=
        ⟨le_rfl, Nat.zero_le _, Nat.zero_le _, rfl, rfl, rfl, fun h => nomatch h⟩
      obtain ⟨hwindow, htell, _, hmore⟩ := hstart.fill hnet rfl _ hfill
      split at ht
      · cases ht
      · next hret =>
        obtain rfl : t = s := Option.some.inj ht
        refine ⟨hwindow, fun hl => ?_⟩
        rcases hmore with ⟨_, hl'⟩ | ⟨_, _, hend⟩ | hretry
        · omega
        · exact hend
        · rw [hretry] at hret
          exact absurd (show fillRetry < 0 by decide) hret

end Read

/-! ## Runs -/

/-- A call on a reader. -/
inductive Call where
  | read (len : ℕ)
  /-- With `SEEK_SET`. -/
  | seek (offset : ℕ)

/-- A reader whose owner reads, and seeks to offsets in the object, as long as no seek fails.
A label is a call and a bound under which it returns. -/
def calls (net : ℕ → Transfer) (object : List Byte) (s₀ : State) : System State (Call × ℕ) where
  init := s₀
  next s l :=
    match l.1 with
    | .read len => (httpRead net object len s l.2).map Prod.snd
    | .seek offset =>
      if offset < object.length then
        (httpSeek net object offset .set s l.2).bind fun r => if 0 ≤ r.1 then some r.2 else none
      else none

section Runs

variable {net : ℕ → Transfer} {object : List Byte} {s₀ s : State}

theorem coherent_of_reachable (hnet : Clean net) (h₀ : Coherent object s₀)
    (hs : Reachable (calls net object s₀) s) : Coherent object s := by
  refine hs.invariant h₀ ?_
  rintro s ⟨call, fuel⟩ t h hst
  cases call with
  | read len =>
    have hst' : (httpRead net object len s fuel).map Prod.snd = some t := hst
    rw [Option.map_eq_some_iff] at hst'
    obtain ⟨⟨r, u⟩, hread, rfl⟩ := hst'
    exact (h.httpRead hnet hread).coherent
  | seek offset =>
    simp only [calls] at hst
    split at hst
    · next hoff =>
      rw [Option.bind_eq_some_iff] at hst
      obtain ⟨⟨ret, u⟩, hseek, hu⟩ := hst
      split at hu
      · next hret =>
        cases hu
        exact (h.httpSeek hnet hoff hseek hret).2.2
      · cases hu
    · cases hst

/-- Over an object of known length, and as long as curl reports no errors and no seek fails:
the buffer is the part of the object that begins at `off0`, a read that returns gives the next
bytes and moves on by as many, and a seek that does not fail goes to its offset. -/
theorem httpReader_coherent (hnet : Clean net) (hne : object ≠ []) {hdrs : List (List Byte)}
    {bound : ℕ} (hopen : httpOpenHdrs net object hdrs bound = some (some s₀))
    (hs : Reachable (calls net object s₀) s) :
    (s.pBuf ≤ s.lBuf ∧ s.lBuf ≤ mBuf ∧ s.off0 + s.lBuf ≤ object.length ∧
      s.buf.take s.lBuf = (object.drop s.off0).take s.lBuf) ∧
    (∀ len fuel r t, httpRead net object len s fuel = some (r, t) →
      r.ret = (min len (object.length - httpTell s) : ℕ) ∧
      r.data = (object.drop (httpTell s)).take (min len (object.length - httpTell s)) ∧
      (httpTell t : ℤ) = httpTell s + r.ret) ∧
    (∀ (off fuel : ℕ) ret t, off < object.length →
      httpSeek net object off .set s fuel = some (ret, t) → 0 ≤ ret →
      ret = off ∧ httpTell t = off) := by
  have h := coherent_of_reachable hnet (coherent_of_open hnet hne hopen) hs
  refine ⟨⟨h.pBuf_le, h.lBuf_le, h.fits, h.bytes⟩, ?_, ?_⟩
  · intro len fuel r t hread
    have hr := h.httpRead hnet hread
    refine ⟨hr.ret, hr.data, ?_⟩
    rw [hr.ret, hr.tell]
    omega
  · intro off fuel ret t hoff hseek hret
    obtain ⟨hval, htell, _⟩ := h.httpSeek hnet hoff hseek hret
    exact ⟨hval, htell⟩

end Runs

/-- A network that delivers up to two bytes each time, and nothing the second time. -/
def pausingNet (i : ℕ) : Transfer := ⟨if i = 1 then [] else [2], true, true, none, 0, 0⟩

theorem pausingNet_clean : Clean pausingNet := fun _ => ⟨rfl, rfl, rfl, rfl⟩

/-- Three bytes in two transfers, with a new start in between. -/
theorem httpReader_coherent_restart : ∃ s₀ r t,
    httpOpenHdrs pausingNet [1, 2, 3] [] 1 = some (some s₀) ∧
    httpRead pausingNet [1, 2, 3] 5 s₀ 5 = some (r, t) ∧ r.ret = 3 ∧ r.data = [1, 2, 3] ∧
    (httpTell t : ℤ) = 3 := by
  obtain ⟨s₀, hopen⟩ : ∃ s₀, httpOpenHdrs pausingNet [1, 2, 3] [] 1 = some (some s₀) := ⟨_, rfl⟩
  obtain ⟨⟨r, t⟩, hread⟩ : ∃ q, httpRead pausingNet [1, 2, 3] 5 s₀ 5 = some q := by
    cases hopen
    exact ⟨_, rfl⟩
  have hinit : Reachable (calls pausingNet [1, 2, 3] s₀) s₀ := .init
  obtain ⟨_, hreads, _⟩ := httpReader_coherent pausingNet_clean (by decide) hopen hinit
  have htell : httpTell s₀ = 0 := by
    cases hopen
    rfl
  obtain ⟨hret, hdata, hmoved⟩ := hreads 5 5 r t hread
  rw [htell] at hret hdata hmoved
  exact ⟨s₀, r, t, hopen, hread, hret, hdata, by rw [hmoved, hret]; rfl⟩

end Wandio.HttpReader
