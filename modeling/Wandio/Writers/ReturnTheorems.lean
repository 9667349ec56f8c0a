import Wandio.LzoWriter.OrderTheorems
import Wandio.Lz4Writer.WriteTheorems
import Wandio.QatWriter.WriteTheorems

/-!
# The amount written

A write should return how much it has written, and what the writers of lzo, lz4 and QAT return
is made of the variables of their loops: what is left of `len`, the length of the last piece,
and what is left of it again. Only in the second is there a case in which that is `len`.
-/

namespace Wandio.LzoWriter

open Transition

section Returns

variable {lib : Lzo} {s t : State} {i : ℕ} {is : List ℕ}

/-- Without an error `lzo_wwrite_block` returns the length of its block. -/
theorem lzoWwriteBlock_nonneg (hlib : lib.Succeeds) {b outbuf : List Byte} {err : ℤ}
    (h : lzoWwriteBlock lib b = some (err, outbuf)) : 0 ≤ err := by
  unfold lzoWwriteBlock at h
  simp only [hlib b, ne_eq, not_true_eq_false, if_false, Option.bind_eq_bind,
    Option.bind_eq_some_iff] at h
  obtain ⟨_, _, h⟩ := h
  split at h
  · cases h
  · simp only [Option.bind_eq_some_iff] at h
    obtain ⟨_, _, _, _, _, _, h⟩ := h
    cases h
    exact Int.natCast_nonneg _

/-! Which sections return -/

theorem wwriteFill_returns (s : State) : (wwriteFill s).returns = s.returns := by
  unfold wwriteFill
  simp only
  split
  · rfl
  · split <;> rfl

theorem wwriteSection_returns (s : State) : (wwriteSection s).returns = s.returns := by
  unfold wwriteSection
  split
  · rfl
  · split
    · rw [wwriteFill_returns]
      rfl
    · rfl
  · exact wwriteFill_returns s

theorem shutdownNext_returns (s : State) (is : List ℕ) :
    (shutdownNext s is).returns = s.returns := by
  cases is <;> rfl

theorem shutdownSection_returns (s : State) (i : ℕ) (is : List ℕ) :
    (shutdownSection s i is).returns = s.returns := by
  unfold shutdownSection
  simp only
  split
  · rfl
  · by_cases hfull : (s.thread i).state = .full
    · simp only [hfull, if_true]
      rfl
    · simp only [hfull, if_false]
      split <;> rfl

theorem lzoWclose_returns (s : State) : (lzoWclose s).returns = s.returns := by
  unfold lzoWclose
  split
  · rfl
  · simp only
    rw [shutdownNext_returns]
    split <;> rfl

theorem compressLoop_returns (s : State) (i : ℕ) : (compressLoop lib s i).returns = s.returns := by
  have hsignal : ∀ u : State, (u.signalOutReady i).returns = u.returns := by
    intro u
    unfold State.signalOutReady
    split
    · split <;> rfl
    · split <;> rfl
    · rfl
  unfold compressLoop
  simp only
  split
  · rfl
  · split
    · split
      · rfl
      · split
        · rfl
        · rw [hsignal]
          rfl
    · rfl

/-- A turn of `lzo_wwrite` goes on, or the call returns what is left of `len`. -/
theorem wwriteTurn_returns (hlib : lib.Succeeds) (s : State) :
    (wwriteTurn lib s).returns = s.returns ∨ (wwriteTurn lib s).returns = s.returns ++ [0] := by
  unfold wwriteTurn
  split
  · left
    split
    · unfold wwriteUnthreaded
      simp only
      split
      · rfl
      · next err outbuf hblock =>
        have hnonneg := lzoWwriteBlock_nonneg hlib hblock
        rw [if_neg (by omega)]
        split <;> rfl
    · exact wwriteSection_returns s
  · exact .inr rfl

/-- A section of the caller's thread adds no result but 0. -/
theorem mainStep_returns (hlib : lib.Succeeds) (hs : mainStep lib s = some t) :
    t.returns = s.returns ∨ t.returns = s.returns ++ [0] := by
  unfold mainStep at hs
  split at hs
  · split at hs
    · exact .inl (Option.some.inj hs ▸ lzoWclose_returns s)
    · exact .inl (Option.some.inj hs ▸ rfl)
  · exact Option.some.inj hs ▸ wwriteTurn_returns hlib s
  · exact .inl (Option.some.inj hs ▸ wwriteSection_returns s)
  · cases hs
  · next i is _ =>
    left
    rw [← Option.some.inj hs]
    unfold shutdownThread
    split
    · rfl
    · exact shutdownSection_returns s i is
  · exact .inl (Option.some.inj hs ▸ shutdownSection_returns s _ _)
  · cases hs
  · split at hs
    · exact .inl (Option.some.inj hs ▸ shutdownNext_returns s _)
    · cases hs
  · cases hs

theorem step_returns (hlib : lib.Succeeds) {l : Label} (hs : step lib s l = some t) :
    t.returns = s.returns ∨ t.returns = s.returns ++ [0] := by
  unfold step at hs
  split at hs
  · cases hs
  · split at hs
    · exact mainStep_returns hlib hs
    · left
      unfold compressStep at hs
      split at hs
      · split at hs
        · exact Option.some.inj hs ▸ compressLoop_returns s _
        · exact Option.some.inj hs ▸ compressLoop_returns s _
        · cases hs
        · cases hs
      · cases hs
    · left
      split at hs
      · exact Option.some.inj hs ▸ rfl
      · exact Option.some.inj hs ▸ rfl
      · cases hs
    · left
      split at hs
      · exact Option.some.inj hs ▸ rfl
      · cases hs

/-- Every `lzo_wwrite` of every run returns 0. -/
theorem returns_eq_zero (hlib : lib.Succeeds) {mtime threads : ℕ} {calls : List (List Byte)}
    (h : Reachable (system lib mtime threads calls) s) : ∀ r ∈ s.returns, r = 0 := by
  refine h.invariant (I := fun s => ∀ r ∈ s.returns, r = 0) nofun fun s l t hs hstep => ?_
  intro r hr
  rcases step_returns hlib hstep with heq | heq
  · exact hs r (heq ▸ hr)
  · rw [heq, List.mem_append, List.mem_singleton] at hr
    exact hr.elim (hs r) id

end Returns

end Wandio.LzoWriter

namespace Wandio.Writers

open Transition Loop

/-- Without errors, and with a child that accepts every write: every call of `lzo_wwrite`, with
or without threads and under every interleaving, returns its length only when that is 0;
`lz4_wwrite` returns, and returns its length exactly when that is no more than
`outbuf_size_max`; and `qat_wwrite` does not return its length. -/
theorem amount_reported_iff {κ κ' σ : Type*} (lib : LzoWriter.Lzo) (hlib : lib.Succeeds)
    (lz4 : Lz4Writer.Lz4F κ) (hlz4 : lz4.Succeeds) (qz : QatWriter.Qatzip κ')
    (child : ByteSink σ) :
    (∀ mtime threads calls s, Reachable (LzoWriter.system lib mtime threads calls) s →
      ∀ e ∈ calls.zip s.returns, e.2 = e.1.length ↔ e.1 = []) ∧
    (∀ (s : Lz4Writer.State κ σ) (w : WriteCall), s.err = .ok → 0 < w.len → w.len < 2 ^ 31 →
      ∃ r t, Yields (Lz4Writer.lz4Wwrite lz4 child.toSink w s) (r, t) ∧ t.err = .ok ∧
        (r = w.len ↔ w.len ≤ Lz4Writer.outbufSizeMax)) ∧
    ∀ (s : QatWriter.State κ' σ) (w : WriteCall), s.err = .ok → 0 < w.len →
      ∀ r t, Yields (QatWriter.qatWwrite qz child.toSink w s) (r, t) → r ≠ w.len := by
  refine ⟨?_, ?_, ?_⟩
  · intro mtime threads calls s h e he
    have hzero := LzoWriter.returns_eq_zero hlib h e.2 (List.of_mem_zip he).2
    rw [hzero, eq_comm, Int.natCast_eq_zero, List.length_eq_zero_iff]
  · intro s w hok hpos hlen
    obtain ⟨t, hcall, hokt⟩ := Lz4Writer.lz4Wwrite_spec hlz4 hok hpos hlen
    exact ⟨_, t, hcall, hokt, Lz4Writer.lastPiece_eq_iff hpos⟩
  · intro s w hok hpos r t ⟨n, hn⟩
    have hnonpos := QatWriter.qatWwriteLast_nonpos hok (hn n le_rfl)
    simp only at hnonpos
    omega

/-! ## A byte, and more than a piece -/

/-- A library that keeps what it is given, and has room for a block of 64 KiB besides. -/
def bufferingLz4 : Lz4Writer.Lz4F (List Byte) where
  compressBound n := n + 65544
  compressBegin k room :=
    (if 7 ≤ room then some [0x04, 0x22, 0x4d, 0x18, 0x40, 0x40, 0xc0] else none, k)
  compressUpdate k room input := (if input.length + 65544 ≤ room then some [] else none, k ++ input)
  begin_le k room out hout := by
    by_cases hroom : 7 ≤ room
    · simp only [hroom, if_true, Option.mem_some_iff] at hout
      rw [← hout]
      exact hroom
    · simp [hroom] at hout
  update_le k room input out hout := by
    by_cases hroom : input.length + 65544 ≤ room
    · simp only [hroom, if_true, Option.mem_some_iff] at hout
      rw [← hout]
      exact Nat.zero_le _
    · simp [hroom] at hout

theorem bufferingLz4_succeeds : bufferingLz4.Succeeds where
  bound_le n hn := by
    rw [Lz4Writer.outbufSizeMax_eq] at hn
    rw [Lz4Writer.outbufSize_eq]
    show n + 65544 ≤ _
    omega
  update k room input hroom := by
    have hle : input.length + 65544 ≤ room := hroom
    simp [bufferingLz4, hle]

/-- The writer as `lz4_wopen` leaves it. -/
def lz4Opened : Lz4Writer.State (List Byte) (List Byte) where
  child := []
  err := .ok
  cctx := []
  outbuf := [0x04, 0x22, 0x4d, 0x18, 0x40, 0x40, 0xc0]
  outbuf_le := by decide

example : Lz4Writer.lz4Wopen bufferingLz4 [] [] = some lz4Opened := rfl

/-- The letter a. -/
def letter : WriteCall := ⟨[0x61], 1, Int.le_refl 1⟩

/-- A byte more than a piece. -/
def morePieces : WriteCall :=
  ⟨List.replicate 1048577 0x61, 1048577, by rw [List.length_replicate]; exact Int.le_refl _⟩

/-- A library that takes all it is offered and makes nothing of it yet. -/
def takingQat : QatWriter.Qatzip Unit where
  call k _ input _ := ⟨k, input.length, [], 0⟩
  consumed_le _ _ _ _ := le_rfl
  output_le _ _ _ _ := Nat.zero_le _
  maxCompressedLength n := n + n / 8 + 1024

/-- `lz4_wwrite` of a byte returns 1. -/
theorem amount_reported_iff_letter :
    ∃ t, Yields (Lz4Writer.lz4Wwrite bufferingLz4 collecting.toSink letter lz4Opened) (1, t) := by
  obtain ⟨_, hlz4, _⟩ := amount_reported_iff LzoWriter.literalLzo LzoWriter.literalLzo_succeeds
    bufferingLz4 bufferingLz4_succeeds takingQat collecting
  obtain ⟨r, t, hcall, _, hiff⟩ := hlz4 lz4Opened letter rfl (show (0 : ℤ) < 1 by decide)
    (show (1 : ℤ) < 2 ^ 31 by decide)
  have hr : r = 1 := hiff.mpr (show (1 : ℤ) ≤ Lz4Writer.outbufSizeMax by decide)
  exact ⟨t, hr ▸ hcall⟩

/-- `lzo_wwrite` and `qat_wwrite` return 0 for a byte, and `lz4_wwrite` returns 1 for a byte
more than a piece. -/
theorem amount_misreported :
    (∃ s, Reachable (LzoWriter.system LzoWriter.literalLzo 0 0 [[0x61]]) s ∧ s.returns = [0]) ∧
    (∃ t, Yields (Lz4Writer.lz4Wwrite bufferingLz4 collecting.toSink morePieces lz4Opened)
      (1, t)) ∧
    ∃ t, Yields (QatWriter.qatWwrite takingQat collecting.toSink letter (QatWriter.qatWopen () []))
      (0, t) := by
  refine ⟨?_, ?_, ?_⟩
  · obtain ⟨s, hs, hp⟩ := exists_reachable_of_exec
      (LzoWriter.system LzoWriter.literalLzo 0 0 [[0x61]]) (List.replicate 3 .main)
      (fun s => s.returns = [0]) (by decide +kernel)
    exact ⟨s, hs, by simpa using hp⟩
  · have hpos : 0 < morePieces.len := show (0 : ℤ) < 1048577 by decide
    have hlen : morePieces.len < 2 ^ 31 := show (1048577 : ℤ) < 2 ^ 31 by decide
    have hok : lz4Opened.err = .ok := rfl
    obtain ⟨t, hcall, _⟩ := Lz4Writer.lz4Wwrite_spec bufferingLz4_succeeds hok hpos hlen
    exact ⟨t, hcall⟩
  · refine ⟨⟨(), [], [], Nat.zero_le _, .ok⟩, 2, fun fuel hfuel => ?_⟩
    obtain ⟨m, rfl⟩ : ∃ m, fuel = m + 2 := ⟨fuel - 2, by omega⟩
    rfl

end Wandio.Writers
