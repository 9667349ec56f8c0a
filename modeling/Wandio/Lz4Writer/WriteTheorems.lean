import Wandio.Lz4Writer.Model

/-!
# What lz4_wwrite returns

The loop leaves with the length of the piece it has just compressed. That is the last piece of
the write, and the whole write only if there is one piece.
-/

namespace Wandio.Lz4Writer

open Loop

variable {κ σ : Type*} {lz4 : Lz4F κ} {child : ByteSink σ} {s : State κ σ} {w : WriteCall}

/-- The library reports no error: what it may make of a piece fits an empty `outbuf`, and it
compresses a piece when it is given room for that. -/
structure Lz4F.Succeeds (lz4 : Lz4F κ) : Prop where
  bound_le : ∀ n : ℕ, n ≤ outbufSizeMax → lz4.compressBound n ≤ outbufSize
  update : ∀ k room input, lz4.compressBound input.length ≤ room →
    (lz4.compressUpdate k room input).1.isSome

theorem outbufSizeMax_eq : outbufSizeMax = 1048576 := rfl

theorem outbufSize_eq : outbufSize = 2097152 := rfl

/-- With a child that accepts every write there is room, and nothing is lost. -/
theorem makeRoom_spec (child : ByteSink σ) (s : State κ σ) {upperBound : ℕ}
    (hbound : upperBound ≤ outbufSize) :
    ∃ t, makeRoom child.toSink upperBound s = .room t ∧
      upperBound ≤ outbufSize - t.outbuf.length ∧ t.err = s.err ∧ t.cctx = s.cctx ∧
      child.received t.child ++ t.outbuf = child.received s.child ++ s.outbuf := by
  have hle := s.outbuf_le
  have hsize := outbufSize_eq
  unfold makeRoom
  split
  · -- `outbuf` is not empty, so the child returns a positive number
    have hint : cInt (s.outbuf.length : ℤ) = s.outbuf.length := cInt_of_lt (by omega)
    simp only [child.write_ret, hint]
    rw [if_neg (by omega), if_neg (by omega)]
    refine ⟨_, rfl, hbound, rfl, rfl, ?_⟩
    exact (List.append_nil _).trans (child.received_write _ _)
  · exact ⟨s, rfl, by omega, rfl, rfl, rfl⟩

/-- What the library makes of a piece goes behind what is in `outbuf`. -/
theorem compressPiece_spec (lz4 : Lz4F κ) (s : State κ σ) (piece : List Byte) {out : List Byte}
    (hout : (lz4.compressUpdate s.cctx (outbufSize - s.outbuf.length) piece).1 = some out) :
    ∃ t cctx, compressPiece lz4 s piece = (some t, cctx) ∧ t.err = s.err ∧
      t.child = s.child ∧ t.outbuf = s.outbuf ++ out ∧
      t.cctx = (lz4.compressUpdate s.cctx (outbufSize - s.outbuf.length) piece).2 := by
  unfold compressPiece
  split
  · next heq =>
    rw [heq] at hout
    cases hout
  · next heq =>
    have hcctx := congrArg Prod.snd heq
    rw [heq] at hout
    cases hout
    exact ⟨_, _, rfl, rfl, rfl, rfl, hcctx.symm⟩

/-- A piece has been compressed, where the library was given as much room as it may need. -/
structure Compressed (lz4 : Lz4F κ) (child : ByteSink σ) (piece : List Byte) (s t : State κ σ) :
    Prop where
  err : t.err = s.err
  output : ∃ room out, lz4.compressBound piece.length ≤ room ∧ room ≤ outbufSize ∧
    lz4.compressUpdate s.cctx room piece = (some out, t.cctx) ∧
    child.received t.child ++ t.outbuf = child.received s.child ++ s.outbuf ++ out

/-- The piece of a write that a turn compresses. -/
def pieceAt (w : WriteCall) (index : ℤ) : List Byte :=
  (w.buffer.drop index.toNat).take (min outbufSizeMax (w.len - index)).toNat

/-- The length of the last piece of a write of `len` bytes. -/
def lastPiece (len : ℤ) : ℤ := (len - 1) % outbufSizeMax + 1

theorem lastPiece_eq_iff {len : ℤ} (hpos : 0 < len) :
    lastPiece len = len ↔ len ≤ outbufSizeMax := by
  unfold lastPiece
  rw [outbufSizeMax_eq]
  omega

/-- The loop of a write of `len` bytes stands between two pieces. -/
structure Between (len : ℤ) (v : Writing κ σ) : Prop where
  err : v.io.err = .ok
  nonneg : 0 ≤ v.inbufIndex
  lt : v.inbufIndex < len
  whole : outbufSizeMax ∣ v.inbufIndex

theorem length_pieceAt {v : Writing κ σ} (hnonneg : 0 ≤ v.inbufIndex)
    (hlt : v.inbufIndex < w.len) :
    ((pieceAt w v.inbufIndex).length : ℤ) = min outbufSizeMax (w.len - v.inbufIndex) := by
  have hmax := outbufSizeMax_eq
  have hfits := w.fits
  rw [pieceAt, List.length_take, List.length_drop]
  omega

/-- A turn compresses a piece, and the write ends when its index has come to the length. -/
theorem wwriteTurn_eq (lz4 : Lz4F κ) (child : ByteSink σ) (hlen : w.len < 2 ^ 31)
    {v : Writing κ σ} (hnonneg : 0 ≤ v.inbufIndex) (hlt : v.inbufIndex < w.len)
    (hbound : lz4.compressBound (pieceAt w v.inbufIndex).length ≤ outbufSize)
    (hupdate : ∀ room, lz4.compressBound (pieceAt w v.inbufIndex).length ≤ room →
      (lz4.compressUpdate v.io.cctx room (pieceAt w v.inbufIndex)).1.isSome) :
    ∃ t, Compressed lz4 child (pieceAt w v.inbufIndex) v.io t ∧
      wwriteTurn lz4 child.toSink w v =
        if w.len ≤ v.inbufIndex + (pieceAt w v.inbufIndex).length
        then .done (some ((pieceAt w v.inbufIndex).length, t))
        else .next ⟨t, v.inbufIndex + (pieceAt w v.inbufIndex).length⟩ := by
  have hmax := outbufSizeMax_eq
  have hlength := length_pieceAt hnonneg hlt
  set piece := pieceAt w v.inbufIndex with hpiece
  have hn : inbufLen w.len v = piece.length := by
    unfold inbufLen
    split
    · omega
    · rw [cInt_of_range (by omega) (by omega)]
      omega
  have hdata : (w.buffer.drop v.inbufIndex.toNat).take piece.length = piece := by
    have hn' : piece.length = (min outbufSizeMax (w.len - v.inbufIndex)).toNat := by omega
    rw [hn']
    rfl
  obtain ⟨s, hroom, hfree, herr, hcctx, hkept⟩ := makeRoom_spec child v.io hbound
  obtain ⟨out, hout⟩ := Option.isSome_iff_exists.mp (hupdate _ hfree)
  rw [← hcctx] at hout
  obtain ⟨t, cctx, hcompress, herr', hchild, houtbuf, hcctx'⟩ := compressPiece_spec lz4 s piece hout
  have hindex : cInt (v.inbufIndex + piece.length) = v.inbufIndex + piece.length :=
    cInt_of_range (by omega) (by omega)
  refine ⟨t, ⟨herr'.trans herr, _, out, hfree, Nat.sub_le _ _, ?_, ?_⟩, ?_⟩
  · rw [hcctx', ← hout, ← hcctx]
  · rw [hchild, houtbuf, ← List.append_assoc, hkept]
  · unfold wwriteTurn
    simp only [hn, Int.toNat_natCast, hroom, hdata]
    rw [if_neg (by omega)]
    simp only [hcompress, hindex]

/-- Behind a piece the loop stands between two pieces again, or the piece was the last. -/
theorem wwriteTurn_spec (hlz4 : lz4.Succeeds) (hlen : w.len < 2 ^ 31) {v : Writing κ σ}
    (h : Between w.len v) :
    (∃ u, wwriteTurn lz4 child.toSink w v = .next u ∧ Between w.len u ∧
        v.inbufIndex < u.inbufIndex) ∨
      ∃ t, wwriteTurn lz4 child.toSink w v = .done (some (lastPiece w.len, t)) ∧ t.err = .ok := by
  have hmax := outbufSizeMax_eq
  have hnonneg := h.nonneg
  have hlt := h.lt
  have hwhole := h.whole
  have hlength := length_pieceAt hnonneg hlt
  obtain ⟨t, hcompressed, hturn⟩ := wwriteTurn_eq lz4 child hlen hnonneg hlt
    (hlz4.bound_le _ (by omega)) fun room => hlz4.update _ room _
  have hok : t.err = .ok := hcompressed.err.trans h.err
  set n : ℤ := ((pieceAt w v.inbufIndex).length : ℤ) with hn
  rw [hturn]
  by_cases hlast : w.len ≤ v.inbufIndex + n
  · right
    rw [if_pos hlast]
    have hreturned : n = lastPiece w.len := by
      unfold lastPiece
      rw [hmax] at hwhole hlength ⊢
      omega
    exact ⟨t, by rw [hreturned], hok⟩
  · left
    rw [if_neg hlast]
    refine ⟨_, rfl, ⟨hok, by simp only; omega, by simp only; omega, ?_⟩, by simp only; omega⟩
    -- the piece was a whole one
    have hfull : n = outbufSizeMax := by omega
    rw [hfull]
    exact Int.dvd_add hwhole (Int.dvd_refl _)

/-- A write that meets no error returns the length of its last piece. -/
theorem lz4Wwrite_spec (hlz4 : lz4.Succeeds) (hok : s.err = .ok) (hpos : 0 < w.len)
    (hlen : w.len < 2 ^ 31) :
    ∃ t, Yields (lz4Wwrite lz4 child.toSink w s) (lastPiece w.len, t) ∧ t.err = .ok := by
  have hnext : ∀ v u, Between w.len v → wwriteTurn lz4 child.toSink w v = .next u →
      Between w.len u ∧ (w.len - u.inbufIndex).toNat < (w.len - v.inbufIndex).toNat := by
    intro v u hv hu
    have hlt := hv.lt
    rcases wwriteTurn_spec hlz4 hlen hv with ⟨u', hturn, hbetween, hmore⟩ | ⟨t, hturn, _⟩
    · rw [hu] at hturn
      cases hturn
      exact ⟨hbetween, by omega⟩
    · rw [hu] at hturn
      cases hturn
  have hdone : ∀ v r, Between w.len v → wwriteTurn lz4 child.toSink w v = .done r →
      ∃ t, r = some (lastPiece w.len, t) ∧ t.err = .ok := by
    intro v r hv hr
    rcases wwriteTurn_spec hlz4 hlen hv with ⟨u, hturn, _⟩ | ⟨t, hturn, hokt⟩
    · rw [hr] at hturn
      cases hturn
    · rw [hr] at hturn
      cases hturn
      exact ⟨t, rfl, hokt⟩
  have hstart : Between w.len (⟨s, 0⟩ : Writing κ σ) := ⟨hok, le_rfl, hpos, Int.dvd_zero _⟩
  obtain ⟨r, hloop, t, rfl, hokt⟩ := loop_total _ hnext hdone hstart
  refine ⟨t, ?_, hokt⟩
  have hcall : lz4Wwrite lz4 child.toSink w s =
      fun fuel => (loop (wwriteTurn lz4 child.toSink w) fuel ⟨s, 0⟩).bind id := by
    funext fuel
    unfold lz4Wwrite
    simp only [hok]
    rw [if_neg (by omega)]
  rw [hcall]
  exact hloop.bind (g := fun r _ => id r) (.pure _)

end Wandio.Lz4Writer
