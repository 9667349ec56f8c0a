import Wandio.Lz4Writer.WriteTheorems
import Wandio.StreamWriter.CloseTheorems

/-!
# What passes through outbuf

The header, the compressed pieces and what a flush or the end of the frame brings are all staged
in `outbuf`. The library is never given less room than it may need, and what it emits comes to
the child in order, once.
-/

namespace Wandio.Lz4Writer

open Loop
open StreamWriter (FlushSink)

variable {κ σ : Type*}

/-! ## The calls of the library -/

/-- What the library is called for while a frame is open. -/
inductive Op where
  | update (piece : List Byte)
  | flush
  | finish

/-- A call of the library: what for, the room it was told, and what it has put there. -/
structure FrameCall where
  op : Op
  room : ℕ
  result : Option (List Byte)

/-- The input of a call. -/
def FrameCall.piece (call : FrameCall) : List Byte :=
  match call.op with
  | .update piece => piece
  | .flush | .finish => []

/-- The output of a call. -/
def FrameCall.output (call : FrameCall) : List Byte := call.result.getD []

/-- `outbuf_index` at a call: what is in front of the room it was told. -/
def FrameCall.index (call : FrameCall) : ℕ := outbufSize - call.room

/-- The library, with the calls that have been made since the frame was begun. -/
def Lz4Frame.recorded (lz4 : Lz4Frame κ) : Lz4Frame (κ × List FrameCall) where
  compressBound := lz4.compressBound
  compressBegin k room :=
    let r := lz4.compressBegin k.1 room
    (r.1, (r.2, []))
  compressUpdate k room input :=
    let r := lz4.compressUpdate k.1 room input
    (r.1, (r.2, k.2 ++ [⟨.update input, room, r.1⟩]))
  flush k room :=
    let r := lz4.flush k.1 room
    (r.1, (r.2, k.2 ++ [⟨.flush, room, r.1⟩]))
  compressEnd k room :=
    let r := lz4.compressEnd k.1 room
    (r.1, (r.2, k.2 ++ [⟨.finish, room, r.1⟩]))
  begin_le k room := lz4.begin_le k.1 room
  update_le k room input := lz4.update_le k.1 room input
  flush_le k room := lz4.flush_le k.1 room
  end_le k room := lz4.end_le k.1 room

section Recorded

variable {lz4 : Lz4Frame κ} {k : κ × List FrameCall} {k' : κ} {room : ℕ} {input out : List Byte}

theorem Lz4Frame.recorded_update (h : lz4.compressUpdate k.1 room input = (some out, k')) :
    lz4.recorded.compressUpdate k room input =
      (some out, (k', k.2 ++ [⟨.update input, room, some out⟩])) := by
  simp only [recorded, h]

theorem Lz4Frame.recorded_flush (h : lz4.flush k.1 room = (some out, k')) :
    lz4.recorded.flush k room = (some out, (k', k.2 ++ [⟨.flush, room, some out⟩])) := by
  simp only [recorded, h]

theorem Lz4Frame.recorded_end (h : lz4.compressEnd k.1 room = (some out, k')) :
    lz4.recorded.compressEnd k room =
      (some out, (k', k.2 ++ [⟨.finish, room, some out⟩])) := by
  simp only [recorded, h]

end Recorded

/-- What a library promises whose contexts are `Active` between the begin and the end of a frame:
a piece never becomes longer than `LZ4F_compressBound`, which fits `outbuf` for the pieces that
are cut, and what a flush or an end brings fits an empty `outbuf`. -/
structure Lz4Frame.Fits (lz4 : Lz4Frame κ) (Active : κ → Prop) : Prop where
  bound_le : ∀ n : ℕ, n ≤ outbufSizeMax → lz4.compressBound n ≤ outbufSize
  update : ∀ k room input, Active k → lz4.compressBound input.length ≤ room →
    ∃ out k', lz4.compressUpdate k room input = (some out, k') ∧ Active k' ∧
      out.length ≤ lz4.compressBound input.length
  flush : ∀ k, Active k → ∃ out k', lz4.flush k outbufSize = (some out, k') ∧ Active k'
  finish : ∀ k, Active k → ∃ out k', lz4.compressEnd k outbufSize = (some out, k')

/-- A call that succeeds and does not run over `outbuf`, with a piece as the writer cuts them and
as much room as the library may need for it. -/
structure FrameCall.Safe (lz4 : Lz4Frame κ) (call : FrameCall) : Prop where
  room_le : call.room ≤ outbufSize
  result : ∃ out, call.result = some out ∧ call.index + out.length ≤ outbufSize
  piece : ∀ piece, call.op = .update piece →
    piece.length ≤ outbufSizeMax ∧ lz4.compressBound piece.length ≤ call.room

theorem FrameCall.Safe.of_room {lz4 : Lz4Frame κ} {op : Op} {out : List Byte}
    (hop : ∀ piece, op ≠ .update piece) (hout : out.length ≤ outbufSize) :
    FrameCall.Safe lz4 ⟨op, outbufSize, some out⟩ := by
  refine ⟨le_rfl, ⟨out, rfl, ?_⟩, fun piece h => absurd h (hop piece)⟩
  show outbufSize - outbufSize + out.length ≤ outbufSize
  omega

/-- A child that accepts every write. A flush of it may fail, and keeps what it has received. -/
structure KeepingSink (σ : Type*) extends ByteSink σ, FlushSink σ where
  received_flush : ∀ s, received (flush s).2 = received s

/-! ## One call after the other -/

/-- The library has been given `data` in safe calls, and what it has emitted behind the header is
with the child or in `outbuf`. -/
structure Staged (lz4 : Lz4Frame κ) (Active : κ → Prop) (child : ByteSink σ) (c : σ)
    (header data : List Byte) (s : State (κ × List FrameCall) σ) : Prop where
  err : s.err ≠ .eof
  active : Active s.cctx.1
  safe : ∀ call ∈ s.cctx.2, call.Safe lz4
  pieces : s.cctx.2.flatMap FrameCall.piece = data
  emitted : child.received s.child ++ s.outbuf =
    child.received c ++ (header ++ s.cctx.2.flatMap FrameCall.output)

section Calls

variable {lz4 : Lz4Frame κ} {Active : κ → Prop} {child : KeepingSink σ} {c : σ}
  {header data : List Byte} {s t : State (κ × List FrameCall) σ} {w : WriteCall}

/-- The library is called, and its output goes to `outbuf` or to the child. -/
theorem Staged.called (h : Staged lz4 Active child.toByteSink c header data s) (call : FrameCall)
    {k : κ} (hcall : call.Safe lz4) (hk : Active k) (hcctx : t.cctx = (k, s.cctx.2 ++ [call]))
    (herr : t.err = s.err)
    (hout : child.received t.child ++ t.outbuf =
      child.received s.child ++ s.outbuf ++ call.output) :
    Staged lz4 Active child.toByteSink c header (data ++ call.piece) t := by
  refine ⟨by rw [herr]; exact h.err, by rw [hcctx]; exact hk, ?_, ?_, ?_⟩
  · intro old hold
    rw [hcctx, List.mem_append, List.mem_singleton] at hold
    rcases hold with hold | rfl
    · exact h.safe old hold
    · exact hcall
  · rw [hcctx, List.flatMap_append, h.pieces, List.flatMap_singleton]
  · rw [hout, hcctx, h.emitted, List.flatMap_append, List.flatMap_singleton]
    simp only [List.append_assoc]

theorem Staged.compressed (hfits : lz4.Fits Active)
    (h : Staged lz4 Active child.toByteSink c header data s) {piece : List Byte}
    (hpiece : (piece.length : ℤ) ≤ outbufSizeMax)
    (ht : Compressed lz4.recorded.toLz4F child.toByteSink piece s t) :
    Staged lz4 Active child.toByteSink c header (data ++ piece) t := by
  obtain ⟨room, out, hbound, hroom, hupdate, hout⟩ := ht.output
  obtain ⟨out', k, hlz4, hk, hle⟩ := hfits.update s.cctx.1 room piece h.active hbound
  rw [Lz4Frame.recorded_update hlz4, Prod.mk.injEq, Option.some_inj] at hupdate
  obtain ⟨rfl, hcctx⟩ := hupdate
  refine h.called ⟨.update piece, room, some out'⟩ ⟨hroom, ⟨out', rfl, ?_⟩, ?_⟩ hk
    hcctx.symm ht.err hout
  · have hbound' : lz4.compressBound piece.length ≤ room := hbound
    show outbufSize - room + out'.length ≤ outbufSize
    omega
  · rintro _ ⟨⟩
    exact ⟨hpiece, hbound⟩

/-- The loop of a write stands between two pieces. -/
structure Cutting (lz4 : Lz4Frame κ) (Active : κ → Prop) (child : ByteSink σ) (c : σ)
    (header data : List Byte) (w : WriteCall) (v : Writing (κ × List FrameCall) σ) : Prop where
  err : v.io.err = .ok
  nonneg : 0 ≤ v.inbufIndex
  lt : v.inbufIndex < w.len
  staged : Staged lz4 Active child c header (data ++ w.buffer.take v.inbufIndex.toNat) v.io

/-- The bytes up to an index, and the piece there. -/
theorem take_append_pieceAt {index : ℤ} (hnonneg : 0 ≤ index) (hlt : index < w.len) :
    w.buffer.take index.toNat ++ pieceAt w index =
      w.buffer.take (index + (pieceAt w index).length).toNat := by
  have hmax := outbufSizeMax_eq
  have hfits := w.fits
  have hend : (index + (pieceAt w index).length).toNat =
      index.toNat + (min outbufSizeMax (w.len - index)).toNat := by
    rw [pieceAt, List.length_take, List.length_drop]
    omega
  rw [hend, List.take_add, pieceAt]

/-- A write that finds no error takes all its bytes. -/
theorem Staged.write (hfits : lz4.Fits Active) (hlen : w.len < 2 ^ 31)
    (h : Staged lz4 Active child.toByteSink c header data s) (hok : s.err = .ok) :
    ∃ ret t, Yields (lz4Wwrite lz4.recorded.toLz4F child.toSink w s) (ret, t) ∧ 0 ≤ ret ∧
      t.err = .ok ∧ Staged lz4 Active child.toByteSink c header (data ++ w.data) t := by
  have hcall : lz4Wwrite lz4.recorded.toLz4F child.toSink w s = fun fuel =>
      if w.len ≤ 0 then some (0, s)
      else (loop (wwriteTurn lz4.recorded.toLz4F child.toSink w) fuel ⟨s, 0⟩).bind id := by
    funext fuel
    unfold lz4Wwrite
    simp only [hok]
  rw [hcall]
  by_cases hpos : 0 < w.len
  · simp only [if_neg (not_le.mpr hpos)]
    have hturn : ∀ v, Cutting lz4 Active child.toByteSink c header data w v →
        ∃ t n, 0 < n ∧ t.err = .ok ∧
          Staged lz4 Active child.toByteSink c header
            (data ++ w.buffer.take (v.inbufIndex + n).toNat) t ∧
          wwriteTurn lz4.recorded.toLz4F child.toSink w v =
            (if w.len ≤ v.inbufIndex + n then .done (some (n, t))
              else .next ⟨t, v.inbufIndex + n⟩) ∧
          v.inbufIndex + n ≤ w.len := by
      intro v hv
      have hmax := outbufSizeMax_eq
      have hlt := hv.lt
      have hlength := length_pieceAt hv.nonneg hv.lt
      have hshort : ((pieceAt w v.inbufIndex).length : ℤ) ≤ outbufSizeMax := by omega
      obtain ⟨t, hcompressed, hturn⟩ := wwriteTurn_eq lz4.recorded.toLz4F
        child.toByteSink hlen hv.nonneg hv.lt (hfits.bound_le _ hshort)
        fun room hroom => by
          obtain ⟨out, k, hupdate, _⟩ := hfits.update v.io.cctx.1 room _ hv.staged.active hroom
          show (lz4.compressUpdate v.io.cctx.1 room _).1.isSome
          rw [hupdate]
          rfl
      have hstaged := hv.staged.compressed hfits hshort hcompressed
      rw [List.append_assoc, take_append_pieceAt hv.nonneg hv.lt] at hstaged
      exact ⟨t, _, by omega, hcompressed.err.trans hv.err, hstaged, hturn, by omega⟩
    have hstart : Cutting lz4 Active child.toByteSink c header data w ⟨s, 0⟩ := by
      refine ⟨hok, le_rfl, hpos, ?_⟩
      rw [Int.toNat_zero, List.take_zero, List.append_nil]
      exact h
    obtain ⟨r, hloop, ret, t, rfl, hret, herr, hstaged⟩ :
        ∃ r, Yields (fun fuel =>
          loop (wwriteTurn lz4.recorded.toLz4F child.toSink w) fuel ⟨s, 0⟩) r ∧
          ∃ ret t, r = some (ret, t) ∧ 0 ≤ ret ∧ t.err = .ok ∧
            Staged lz4 Active child.toByteSink c header (data ++ w.data) t := by
      refine loop_total (fun v => (w.len - v.inbufIndex).toNat)
        (I := Cutting lz4 Active child.toByteSink c header data w) (fun v u hv hu => ?_)
        (fun v r hv hr => ?_) hstart
      · obtain ⟨t, n, hn, herr, hstaged, heq, -⟩ := hturn v hv
        rw [hu] at heq
        have hnonneg := hv.nonneg
        have hlt := hv.lt
        split at heq
        · cases heq
        · cases heq
          exact ⟨⟨herr, by simp only; omega, by simp only; omega, hstaged⟩, by simp only; omega⟩
      · obtain ⟨t, n, hn, herr, hstaged, heq, hle⟩ := hturn v hv
        rw [hr] at heq
        split at heq
        · next hlast =>
          cases heq
          rw [le_antisymm hle hlast] at hstaged
          exact ⟨n, t, rfl, hn.le, herr, hstaged⟩
        · cases heq
    exact ⟨ret, t, hloop.bind (g := fun r _ => id r) (.pure _), hret, herr, hstaged⟩
  · have hnil : w.data = [] := by
      by_contra hne
      exact hpos (w.data_ne_nil.mp hne)
    simp only [if_pos (not_lt.mp hpos)]
    refine ⟨0, s, .pure _, le_rfl, hok, ?_⟩
    rw [hnil, List.append_nil]
    exact h

/-- `outbuf` has been passed to the child. -/
theorem Staged.emptied (h : Staged lz4 Active child.toByteSink c header data s) :
    Staged lz4 Active child.toByteSink c header data
      { s with child := (child.write s.child s.outbuf).2 }.emptied := by
  refine ⟨h.err, h.active, h.safe, h.pieces, ?_⟩
  exact (List.append_nil _).trans ((child.received_write _ _).trans h.emitted)

/-- Flushing the child changes nothing but the child's state and `err`. -/
theorem flushChild_spec (h : Staged lz4 Active child.toByteSink c header data s) :
    Staged lz4 Active child.toByteSink c header data (flushChild child.toFlushSink s).2 ∧
      (flushChild child.toFlushSink s).2.outbuf = s.outbuf ∧
      ((∀ c, 0 ≤ (child.flush c).1) → 0 ≤ (flushChild child.toFlushSink s).1 ∧
        (flushChild child.toFlushSink s).2.err = s.err) := by
  have hemitted : child.received (child.flush s.child).2 ++ s.outbuf = _ :=
    (congrArg (· ++ s.outbuf) (child.received_flush s.child)).trans h.emitted
  unfold flushChild
  simp only
  split
  · next hneg =>
    refine ⟨⟨by simp, h.active, h.safe, h.pieces, hemitted⟩, rfl, fun hflush => ?_⟩
    exact absurd (hflush s.child) (not_le.mpr hneg)
  · exact ⟨⟨h.err, h.active, h.safe, h.pieces, hemitted⟩, rfl, fun _ => ⟨le_rfl, rfl⟩⟩

/-- A flush returns, with everything that has been emitted passed to the child. -/
theorem Staged.flush (hfits : lz4.Fits Active)
    (h : Staged lz4 Active child.toByteSink c header data s) :
    ∃ ret t, lz4Wflush lz4.recorded child.toFlushSink s = some (ret, t) ∧ t.outbuf = [] ∧
      Staged lz4 Active child.toByteSink c header data t ∧
      ((∀ c, 0 ≤ (child.flush c).1) → 0 ≤ ret ∧ t.err = s.err) := by
  have hempty := h.emptied
  set u := { s with child := (child.write s.child s.outbuf).2 }.emptied with hu
  obtain ⟨out, k, hflush, hk⟩ := hfits.flush s.cctx.1 h.active
  have hrecorded : lz4.recorded.flush u.cctx outbufSize =
      (some out, (k, s.cctx.2 ++ [⟨.flush, outbufSize, some out⟩])) :=
    Lz4Frame.recorded_flush hflush
  have hfit : out.length ≤ outbufSize := lz4.flush_le s.cctx.1 outbufSize out (by rw [hflush]; rfl)
  have hsafe : FrameCall.Safe lz4 ⟨.flush, outbufSize, some out⟩ :=
    .of_room (fun _ => nofun) hfit
  -- behind the call of the library the child has what it has emitted
  have hpassed : ∀ c', child.received c' = child.received u.child ++ out →
      Staged lz4 Active child.toByteSink c header data
        { u with cctx := (k, s.cctx.2 ++ [⟨.flush, outbufSize, some out⟩]), child := c' } := by
    intro c' hc'
    have hcalled : Staged lz4 Active child.toByteSink c header (data ++ [])
        { u with cctx := (k, s.cctx.2 ++ [⟨.flush, outbufSize, some out⟩]), child := c' } := by
      refine hempty.called ⟨.flush, outbufSize, some out⟩ hsafe hk rfl rfl ?_
      show child.received c' ++ [] = child.received u.child ++ [] ++ out
      rw [hc', List.append_nil, List.append_nil]
    rwa [List.append_nil] at hcalled
  have hspec : ∀ c', child.received c' = child.received u.child ++ out →
      ∃ ret t, some (flushChild child.toFlushSink
          { u with cctx := (k, s.cctx.2 ++ [⟨.flush, outbufSize, some out⟩]), child := c' }) =
            some (ret, t) ∧ t.outbuf = [] ∧
        Staged lz4 Active child.toByteSink c header data t ∧
        ((∀ c, 0 ≤ (child.flush c).1) → 0 ≤ ret ∧ t.err = s.err) := by
    intro c' hc'
    obtain ⟨hstaged, houtbuf, hgood⟩ := flushChild_spec (hpassed c' hc')
    exact ⟨_, _, rfl, houtbuf, hstaged, hgood⟩
  unfold lz4Wflush
  simp only [child.write_ret]
  rw [if_neg (by omega), if_neg (by simp)]
  simp only [← hu, hrecorded]
  split
  · next hsome =>
    rw [if_neg (by omega), if_neg (by simp)]
    exact hspec _ (child.received_write _ _)
  · next hnone =>
    have hnil : out = [] := List.eq_nil_of_length_eq_zero (by omega)
    exact hspec u.child (by rw [hnil, List.append_nil])

/-- The frame is ended behind a flush, and the child has everything then. -/
theorem Staged.close (hfits : lz4.Fits Active)
    (h : Staged lz4 Active child.toByteSink c header data s) :
    ∃ ret t k c', lz4Wflush lz4.recorded child.toFlushSink s = some (ret, t) ∧ t.outbuf = [] ∧
      lz4Wclose lz4.recorded child.toFlushSink s = some (k, c') ∧
      (∃ out, k.2 = t.cctx.2 ++ [⟨.finish, outbufSize, some out⟩]) ∧
      (∀ call ∈ k.2, call.Safe lz4) ∧ k.2.flatMap FrameCall.piece = data ∧
      child.received c' = child.received c ++ (header ++ k.2.flatMap FrameCall.output) := by
  obtain ⟨ret, t, hflush, houtbuf, ht, _⟩ := h.flush hfits
  obtain ⟨out, k, hend⟩ := hfits.finish t.cctx.1 ht.active
  have hfit : out.length ≤ outbufSize := lz4.end_le t.cctx.1 outbufSize out (by rw [hend]; rfl)
  have hsafe : FrameCall.Safe lz4 ⟨.finish, outbufSize, some out⟩ :=
    .of_room (fun _ => nofun) hfit
  have hclose : lz4Wclose lz4.recorded child.toFlushSink s =
      some ((k, t.cctx.2 ++ [⟨.finish, outbufSize, some out⟩]), (child.write t.child out).2) := by
    unfold lz4Wclose
    rw [hflush, Option.bind_some]
    simp only [Lz4Frame.recorded_end hend]
  refine ⟨ret, t, _, _, hflush, houtbuf, hclose, ⟨out, rfl⟩, ?_, ?_, ?_⟩
  · intro call hcall
    rcases List.mem_append.mp hcall with hold | hnew
    · exact ht.safe call hold
    · rwa [List.mem_singleton.mp hnew]
  · simp only [List.flatMap_append, ht.pieces, List.flatMap_singleton]
    exact List.append_nil _
  · have hemitted := ht.emitted
    rw [houtbuf, List.append_nil] at hemitted
    rw [child.received_write, hemitted, List.flatMap_append, List.flatMap_singleton]
    simp only [List.append_assoc]
    rfl

end Calls

/-! ## Runs -/

/-- The bytes of the calls that have not failed. -/
def accepted (log : List (Lz4Call × ℤ)) : List Byte :=
  log.flatMap fun e => if e.2 < 0 then [] else e.1.data

section Runs

variable {lz4 : Lz4Frame κ} {Active : κ → Prop} {child : KeepingSink σ} {c : σ}
  {header data : List Byte} {s : State (κ × List FrameCall) σ}

/-- A call: it takes its bytes or fails, and fails only if flushing the child does. -/
theorem Staged.lz4Call (hfits : lz4.Fits Active) (call : Lz4Call)
    (hlen : ∀ w, call = .write w → w.len < 2 ^ 31)
    (h : Staged lz4 Active child.toByteSink c header data s) :
    ∃ r, Yields (lz4Call lz4.recorded child.toFlushSink call s) r ∧
      Staged lz4 Active child.toByteSink c header
        (data ++ if r.1 < 0 then [] else call.data) r.2 ∧
      ((∀ c, 0 ≤ (child.flush c).1) → s.err = .ok → 0 ≤ r.1 ∧ r.2.err = .ok) := by
  cases call with
  | write w =>
    cases herr : s.err with
    | ok =>
      obtain ⟨ret, t, hyields, hret, hok, hstaged⟩ := h.write hfits (hlen w rfl) herr
      refine ⟨(ret, t), hyields, ?_, fun _ _ => ⟨hret, hok⟩⟩
      rw [if_neg (not_lt.mpr hret)]
      exact hstaged
    | eof => exact absurd herr h.err
    | error =>
      refine ⟨(-1, s), ⟨0, fun fuel _ => ?_⟩, ?_, nofun⟩
      · show lz4Wwrite lz4.recorded.toLz4F child.toSink w s fuel = _
        unfold lz4Wwrite
        simp only [herr]
      · rw [if_pos (show (-1 : ℤ) < 0 by decide), List.append_nil]
        exact h
  | flush =>
    obtain ⟨ret, t, hflush, _, hstaged, hgood⟩ := h.flush hfits
    refine ⟨(ret, t), ⟨0, fun _ _ => hflush⟩, ?_, fun hchild hok => ?_⟩
    · have hnil : (if ret < 0 then [] else Lz4Call.flush.data) = [] := by split <;> rfl
      rw [hnil, List.append_nil]
      exact hstaged
    · obtain ⟨hret, herr⟩ := hgood hchild
      exact ⟨hret, herr.trans hok⟩

/-- Every sequence of writes and flushes returns, and so does the close behind it. All calls of
the library are safe, it is given the bytes of the calls that have not failed, and the child has
received the header and then what the library has emitted. The last call of the library ends the
frame, with all of `outbuf` as its room. If flushing the child does not fail no call does. -/
theorem staging_lossless (hfits : lz4.Fits Active) (child : KeepingSink σ) (c : σ) {cctx k₀ : κ}
    (hbegin : lz4.compressBegin cctx outbufSize = (some header, k₀)) (hactive : Active k₀)
    (calls : List Lz4Call) (hlen : ∀ w, .write w ∈ calls → w.len < 2 ^ 31) :
    ∃ s₀ log s ret t k c',
      lz4Wopen lz4.recorded.toLz4F (cctx, []) c = some s₀ ∧
      Yields (fun fuel => runCalls (fun call s =>
        Lz4Writer.lz4Call lz4.recorded child.toFlushSink call s fuel) calls s₀) (log, s) ∧
      log.map Prod.fst = calls ∧
      lz4Wflush lz4.recorded child.toFlushSink s = some (ret, t) ∧ t.outbuf = [] ∧
      lz4Wclose lz4.recorded child.toFlushSink s = some (k, c') ∧
      (∃ out, k.2 = t.cctx.2 ++ [⟨.finish, outbufSize, some out⟩]) ∧
      (∀ call ∈ k.2, call.Safe lz4) ∧
      k.2.flatMap FrameCall.piece = accepted log ∧
      child.received c' = child.received c ++ (header ++ k.2.flatMap FrameCall.output) ∧
      ((∀ c, 0 ≤ (child.flush c).1) →
        (∀ e ∈ log, 0 ≤ e.2) ∧ accepted log = calls.flatMap Lz4Call.data) := by
  have hopen : ∃ s₀, lz4Wopen lz4.recorded.toLz4F (cctx, []) c = some s₀ ∧
      s₀.err = .ok ∧ Staged lz4 Active child.toByteSink c header [] s₀ := by
    have hrecorded : lz4.recorded.compressBegin (cctx, []) outbufSize =
        (some header, (k₀, [])) := by
      show ((lz4.compressBegin cctx outbufSize).1, _) = _
      rw [hbegin]
    unfold lz4Wopen
    split
    · next heq =>
      rw [hrecorded] at heq
      cases heq
    · next heq =>
      rw [hrecorded] at heq
      cases heq
      refine ⟨_, rfl, rfl, nofun, hactive, nofun, rfl, ?_⟩
      rw [List.flatMap_nil, List.append_nil]
  obtain ⟨s₀, hopen, hok, hstart⟩ := hopen
  have hcall : ∀ log call s, call ∈ calls →
      (Staged lz4 Active child.toByteSink c header (accepted log) s ∧
        ((∀ c, 0 ≤ (child.flush c).1) → s.err = .ok ∧ ∀ e ∈ log, 0 ≤ e.2)) →
      ∃ r, Yields (Lz4Writer.lz4Call lz4.recorded child.toFlushSink call s) r ∧
        Staged lz4 Active child.toByteSink c header (accepted (log ++ [(call, r.1)])) r.2 ∧
        ((∀ c, 0 ≤ (child.flush c).1) →
          r.2.err = .ok ∧ ∀ e ∈ log ++ [(call, r.1)], 0 ≤ e.2) := by
    intro log call s hmem hs
    obtain ⟨⟨ret, t⟩, hyields, hstep, herr⟩ :=
      hs.1.lz4Call hfits call fun w hw => hlen w (hw ▸ hmem)
    refine ⟨(ret, t), hyields, ?_, fun hchild => ?_⟩
    · rw [accepted, List.flatMap_append, List.flatMap_singleton]
      exact hstep
    · obtain ⟨hret, hok'⟩ := herr hchild (hs.2 hchild).1
      refine ⟨hok', fun e he => ?_⟩
      rcases List.mem_append.mp he with he | he
      · exact (hs.2 hchild).2 e he
      · rw [List.mem_singleton.mp he]
        exact hret
  obtain ⟨⟨log, s⟩, hrun, ⟨hstaged, hgood⟩, hcalls⟩ :=
    runCalls_total hcall [] ⟨hstart, fun _ => ⟨hok, nofun⟩⟩
  rw [List.nil_append] at hstaged hgood
  obtain ⟨ret, t, k, c', hflush, houtbuf, hclose, hended, hsafe, hpieces, hreceived⟩ :=
    hstaged.close hfits
  refine ⟨s₀, log, s, ret, t, k, c', hopen, hrun, hcalls, hflush, houtbuf, hclose, hended,
    hsafe, hpieces, hreceived, fun hchild => ⟨(hgood hchild).2, ?_⟩⟩
  rw [← hcalls, List.flatMap_map, accepted]
  refine List.flatMap_congr fun e he => ?_
  rw [if_neg (not_lt.mpr ((hgood hchild).2 e he))]

end Runs

/-! ## A flush between two writes -/

/-- A block that is stored as it is. -/
def storedBlock (data : List Byte) : List Byte :=
  [UInt8.ofNat data.length, UInt8.ofNat (data.length / 256), UInt8.ofNat (data.length / 65536),
    0x80] ++ data

/-- What is held makes a block if it is anything. -/
def heldBlock (held : List Byte) : List Byte := if held = [] then [] else storedBlock held

/-- The header of a frame without a content size. -/
def frameHeader (room : ℕ) : Option (List Byte) :=
  if 7 ≤ room then some [0x04, 0x22, 0x4d, 0x18, 0x40, 0x40, 0xc0] else none

/-- A library that holds up to 64 KiB, and stores its blocks. -/
def holdingLz4 : Lz4Frame (List Byte) where
  compressBound n := n + 65544
  compressBegin k room := (frameHeader room, k)
  compressUpdate k room input :=
    if (k ++ input).length < 65536 then (some [], k ++ input)
    else if (storedBlock (k ++ input)).length ≤ room then (some (storedBlock (k ++ input)), [])
    else (none, k)
  flush k room := if (heldBlock k).length ≤ room then (some (heldBlock k), []) else (none, k)
  compressEnd k room :=
    if (heldBlock k ++ [0, 0, 0, 0]).length ≤ room then (some (heldBlock k ++ [0, 0, 0, 0]), [])
    else (none, k)
  begin_le k room out hout := by
    simp only [frameHeader] at hout
    split at hout
    · next hroom =>
      rw [← Option.some.inj hout]
      exact hroom
    · cases hout
  update_le k room input out hout := by
    split at hout
    · rw [← Option.some.inj hout]
      exact Nat.zero_le _
    · split at hout
      · next hroom =>
        rw [← Option.some.inj hout]
        exact hroom
      · cases hout
  flush_le k room out hout := by
    split at hout
    · next hroom =>
      rw [← Option.some.inj hout]
      exact hroom
    · cases hout
  end_le k room out hout := by
    split at hout
    · next hroom =>
      rw [← Option.some.inj hout]
      exact hroom
    · cases hout

theorem length_heldBlock_le (held : List Byte) : (heldBlock held).length ≤ held.length + 4 := by
  unfold heldBlock storedBlock
  split
  · exact Nat.zero_le _
  · simp

theorem holdingLz4_fits : holdingLz4.Fits fun k => k.length < 65536 where
  bound_le n hn := by
    rw [outbufSizeMax_eq] at hn
    rw [outbufSize_eq]
    show n + 65544 ≤ _
    omega
  update k room input hk hroom := by
    have hbound : input.length + 65544 ≤ room := hroom
    have hblock : (storedBlock (k ++ input)).length = k.length + input.length + 4 := by
      simp [storedBlock]
    show ∃ out k', (if (k ++ input).length < 65536 then _ else _) = (some out, k') ∧ _
    by_cases hshort : (k ++ input).length < 65536
    · rw [if_pos hshort]
      exact ⟨_, _, rfl, hshort, Nat.zero_le _⟩
    · rw [if_neg hshort, if_pos (by omega)]
      refine ⟨_, _, rfl, by decide, ?_⟩
      show _ ≤ input.length + 65544
      omega
  flush k hk := by
    have hle := length_heldBlock_le k
    have hsize := outbufSize_eq
    refine ⟨_, _, if_pos ?_, by decide⟩
    omega
  finish k hk := by
    have hle := length_heldBlock_le k
    have hsize := outbufSize_eq
    refine ⟨_, _, if_pos ?_⟩
    rw [List.length_append, List.length_cons, List.length_cons, List.length_cons, List.length_cons,
      List.length_nil]
    omega

/-- A child that keeps what it is given, and has nothing to do for a flush. -/
def keeping : KeepingSink (List Byte) :=
  { StreamWriter.collectingFlush with }

/-- Two bytes, a flush, a third byte, and the close. -/
theorem staging_lossless_holding : ∃ log s k received,
    Yields (fun fuel => (lz4Wopen holdingLz4.recorded.toLz4F ([], []) []).bind
      (runCalls (fun call s => lz4Call holdingLz4.recorded keeping.toFlushSink call s fuel)
        [.write ⟨[1, 2], 2, by decide⟩, .flush, .write ⟨[3], 1, by decide⟩])) (log, s) ∧
    lz4Wclose holdingLz4.recorded keeping.toFlushSink s = some (k, received) ∧
    (∃ calls out, k.2 = calls ++ [⟨.finish, outbufSize, some out⟩]) ∧
    (∀ call ∈ k.2, call.Safe holdingLz4) ∧ k.2.flatMap FrameCall.piece = [1, 2, 3] ∧
    received = [0x04, 0x22, 0x4d, 0x18, 0x40, 0x40, 0xc0] ++ k.2.flatMap FrameCall.output := by
  have hbegin : holdingLz4.compressBegin [] outbufSize =
      (some [0x04, 0x22, 0x4d, 0x18, 0x40, 0x40, 0xc0], []) := rfl
  obtain ⟨s₀, log, s, _, _, k, received, hopen, hrun, -, -, -, hclose, hended, hsafe, hpieces,
    hreceived, hchild⟩ := staging_lossless holdingLz4_fits keeping [] hbegin (by decide)
      [.write ⟨[1, 2], 2, by decide⟩, .flush, .write ⟨[3], 1, by decide⟩]
      (by simp)
  refine ⟨log, s, k, received, ?_, hclose, ⟨_, hended⟩, hsafe, ?_, hreceived⟩
  · rw [hopen]
    exact hrun
  · rw [hpieces, (hchild fun _ => le_rfl).2]
    rfl

end Wandio.Lz4Writer
