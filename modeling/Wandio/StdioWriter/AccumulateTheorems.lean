import Wandio.StdioWriter.Model

/-!
# What the stdio writer holds

The bytes of a writer are those in the file and, behind them, those in its buffer. A
`stdio_wwrite` adds the caller's bytes to them, whatever part of them the `writev` takes along.
-/

namespace Wandio.StdioWriter

open Loop

/-- All bytes that have been written to the writer. -/
def State.bytes (s : State) : List Byte := s.file ++ s.buffer.take s.offset.toNat

/-- The buffer is not full, each `writev` has been one for direct I/O, and an `int` holds every
result of a request. -/
structure Inv (s : State) : Prop where
  offset_nonneg : 0 ≤ s.offset
  offset_lt : s.offset < minWriteSize
  offset_le : s.offset.toNat ≤ s.buffer.length
  aligned : ∀ r ∈ s.requests, r.Aligned
  counted : ∀ r ∈ s.requests, r.bytes.length < 2 ^ 31

section Accumulate

variable {kernel : Kernel} {s : State} {v : Writing} {data : List Byte}

theorem minWriteSize_eq : minWriteSize = 4096 := rfl

theorem addInt_eq {a b : ℤ} (hlo : 0 ≤ a + b) (hhi : a + b < 2 ^ 31) : addInt a b = some (a + b) :=
  if_pos ⟨by omega, hhi⟩

theorem Accepting.takesSome (h : Accepting kernel) : TakesSome kernel := by
  intro i n
  rw [h i n]
  exact ⟨Int.natCast_nonneg n, le_rfl, fun hpos => Int.natCast_pos.mpr hpos⟩

/-! ## The loop -/

/-- The variables of `stdio_wwrite` while `data` is still to be written. -/
structure Pending (v : Writing) (data : List Byte) : Prop where
  inv : Inv v.io
  towrite_eq : v.towrite = data.length
  data_eq : v.buffer.take data.length = data
  fits : v.io.offset + v.towrite < 2 ^ 31

/-- The bytes of whole blocks there are. -/
def Writing.whole (v : Writing) : ℤ :=
  v.io.offset + v.towrite - (v.io.offset + v.towrite) % minWriteSize

/-- The two buffers that are passed to `writev`. -/
def Writing.iov (v : Writing) : List (List Byte) :=
  (if v.io.offset ≠ 0 then [v.io.buffer.take v.io.offset.toNat] else []) ++
    [v.buffer.take (v.whole - v.io.offset).toNat]

theorem whole_spec (hfull : minWriteSize ≤ v.io.offset + v.towrite) :
    minWriteSize ≤ v.whole ∧ minWriteSize ∣ v.whole ∧ v.whole ≤ v.io.offset + v.towrite ∧
      v.io.offset + v.towrite < v.whole + minWriteSize := by
  unfold Writing.whole
  rw [minWriteSize_eq] at hfull ⊢
  refine ⟨by omega, ?_, by omega, by omega⟩
  exact Int.dvd_self_sub_emod

/-- A turn with a block to write passes its two buffers to `writev`. -/
theorem wwriteTurn_eq (h : Pending v data) (hfull : minWriteSize ≤ v.io.offset + v.towrite) :
    wwriteTurn kernel v =
      let r := v.io.request kernel (.writev v.iov)
      if cInt r.1 = -1 then .done (.error r.2) else dropTaken (cInt r.1) { v with io := r.2 } := by
  have hnonneg := h.inv.offset_nonneg
  have hlt := h.inv.offset_lt
  obtain ⟨hge, _, _, _⟩ := whole_spec hfull
  have hto : v.towrite ≠ 0 := by omega
  have htotal :
      v.io.offset + v.towrite - (v.io.offset + v.towrite).tmod minWriteSize = v.whole := by
    rw [Int.tmod_eq_emod_of_nonneg (by omega)]
    rfl
  -- the writer's own bytes are fewer than a block, so all of them are written
  have hown : (if v.io.offset ≠ 0 then min v.io.offset v.whole else 0) = v.io.offset := by
    split
    · exact min_eq_left (by omega)
    · omega
  unfold wwriteTurn
  rw [addInt_eq (by omega) h.fits]
  simp only [htotal, hown]
  rw [if_neg (by omega), if_pos hto, if_neg (by omega), if_pos hto]
  rfl

/-- They hold the writer's own bytes and the caller's behind them. -/
theorem iov_flatten (h : Pending v data) (hfull : minWriteSize ≤ v.io.offset + v.towrite) :
    v.iov.flatten = v.io.buffer.take v.io.offset.toNat ++
      data.take (v.whole - v.io.offset).toNat := by
  have hnonneg := h.inv.offset_nonneg
  have hto := h.towrite_eq
  obtain ⟨_, _, hle, _⟩ := whole_spec hfull
  have htake : v.buffer.take (v.whole - v.io.offset).toNat =
      data.take (v.whole - v.io.offset).toNat := by
    rw [← h.data_eq, List.take_take, Nat.min_eq_left (by omega)]
  unfold Writing.iov
  rw [List.flatten_append, List.flatten_singleton, htake]
  congr 1
  by_cases hoff : v.io.offset = 0
  · rw [if_neg (not_not.mpr hoff), hoff]
    rfl
  · rw [if_pos hoff, List.flatten_singleton]

theorem length_iov (h : Pending v data) (hfull : minWriteSize ≤ v.io.offset + v.towrite) :
    (v.iov.flatten.length : ℤ) = v.whole := by
  have hnonneg := h.inv.offset_nonneg
  have hlt := h.inv.offset_lt
  have hoff := h.inv.offset_le
  have hto := h.towrite_eq
  obtain ⟨hge, _, hle, _⟩ := whole_spec hfull
  rw [iov_flatten h hfull, List.length_append, List.length_take, List.length_take]
  omega

/-- The kernel takes at least the bytes from the writer's own buffer, in the turn that has
some of them. -/
def Writing.Taken (kernel : Kernel) (v : Writing) : Prop :=
  minWriteSize ≤ v.io.offset + v.towrite →
    v.io.offset ≤ kernel v.io.requests.length v.whole.toNat

/-- A turn in which the kernel takes `err` bytes, those of the writer's own buffer among
them. -/
theorem wwriteTurn_taken (h : Pending v data) (hfull : minWriteSize ≤ v.io.offset + v.towrite)
    {err : ℤ} (herr : kernel v.io.requests.length v.whole.toNat = err) (hpos : 0 < err)
    (hoff : v.io.offset ≤ err) (hmost : err ≤ v.whole) :
    ∃ u rest, wwriteTurn kernel v = .next u ∧ Pending u rest ∧ u.io.offset = 0 ∧
      u.towrite = v.io.offset + v.towrite - err ∧ u.io.bytes ++ rest = v.io.bytes ++ data := by
  have hnonneg := h.inv.offset_nonneg
  have hto := h.towrite_eq
  have hfits := h.fits
  obtain ⟨hge, hdvd, hle, _⟩ := whole_spec hfull
  have hlen := length_iov h hfull
  have hoffered : v.iov.flatten.length = v.whole.toNat := by omega
  have hcInt : cInt err = err := cInt_of_range (by omega) (by omega)
  set n := (err - v.io.offset).toNat with hn
  have hfile : v.iov.flatten.take err.toNat =
      v.io.buffer.take v.io.offset.toNat ++ data.take n := by
    have hown : (v.io.buffer.take v.io.offset.toNat).length = v.io.offset.toNat := by
      rw [List.length_take, Nat.min_eq_left h.inv.offset_le]
    rw [iov_flatten h hfull, List.take_append, hown, List.take_of_length_le (by omega),
      List.take_take, show min (err.toNat - v.io.offset.toNat) _ = n by omega]
  set io : State := { v.io with
    buffer := memcpyAt v.io.buffer 0
      ((v.io.buffer.drop v.io.offset.toNat).take (v.io.offset - v.io.offset).toNat)
    offset := v.io.offset - v.io.offset
    file := v.io.file ++ v.iov.flatten.take err.toNat
    requests := v.io.requests ++ [.writev v.iov] } with hio
  have hzero : io.offset = 0 := Int.sub_self _
  refine ⟨⟨io, v.buffer.drop n, v.towrite - (err - v.io.offset)⟩, data.drop n, ?_, ?_, hzero, ?_,
    ?_⟩
  -- the turn, the invariant behind it, the bytes that are left and the bytes so far
  · rw [wwriteTurn_eq h hfull]
    simp only [State.request, Request.bytes, hoffered, herr, hcInt]
    rw [if_neg (by omega)]
    unfold dropTaken
    simp only [min_eq_left hoff]
    rw [if_neg (by omega), if_neg (by omega)]
  · refine ⟨⟨hzero.ge, by rw [hzero]; decide, by rw [hzero]; exact Nat.zero_le _, ?_, ?_⟩, ?_,
      ?_, ?_⟩
    · intro r hr
      rcases List.mem_append.mp hr with hold | hnew
      · exact h.inv.aligned r hold
      · obtain rfl := List.mem_singleton.mp hnew
        refine ⟨?_, hlen ▸ hdvd⟩
        have := minWriteSize_eq
        omega
    · intro r hr
      rcases List.mem_append.mp hr with hold | hnew
      · exact h.inv.counted r hold
      · obtain rfl := List.mem_singleton.mp hnew
        show v.iov.flatten.length < 2 ^ 31
        omega
    · show v.towrite - (err - v.io.offset) = ((data.drop n).length : ℤ)
      rw [List.length_drop]
      omega
    · show (v.buffer.drop n).take (data.drop n).length = data.drop n
      rw [List.length_drop, ← List.drop_take, h.data_eq]
    · show io.offset + (v.towrite - (err - v.io.offset)) < 2 ^ 31
      omega
  · show v.towrite - (err - v.io.offset) = _
    omega
  · show (v.io.file ++ v.iov.flatten.take err.toNat) ++ io.buffer.take io.offset.toNat ++
      data.drop n = _
    rw [hzero, Int.toNat_zero, List.take_zero, List.append_nil, hfile, State.bytes,
      List.append_assoc, List.append_assoc, List.append_assoc, List.take_append_drop]

/-- Without a block to write the loop is left. -/
theorem wwriteTurn_rest (h : Pending v data) (hlt : v.io.offset + v.towrite < minWriteSize) :
    wwriteTurn kernel v = .done (.rest v) := by
  have hnonneg := h.inv.offset_nonneg
  have hto := h.towrite_eq
  unfold wwriteTurn
  rw [addInt_eq (by omega) h.fits]
  exact if_pos hlt

/-- The loop of `stdio_wwrite`: it takes as long as the kernel wants. -/
theorem wwriteLoop_spec (hkernel : TakesSome kernel) (h : Pending v data)
    (htaken : v.Taken kernel) :
    ∃ u rest, Yields (fun fuel => loop (wwriteTurn kernel) fuel v) (.rest u) ∧ Pending u rest ∧
      u.io.offset + u.towrite < minWriteSize ∧ u.io.bytes ++ rest = v.io.bytes ++ data := by
  have hnext : ∀ u w, (∃ rest, Pending u rest ∧ u.Taken kernel ∧
      u.io.bytes ++ rest = v.io.bytes ++ data) → wwriteTurn kernel u = .next w →
      (∃ rest, Pending w rest ∧ w.Taken kernel ∧ w.io.bytes ++ rest = v.io.bytes ++ data) ∧
        (w.io.offset + w.towrite).toNat < (u.io.offset + u.towrite).toNat := by
    rintro u w ⟨rest, hu, htaken, hbytes⟩ hw
    by_cases hfull : minWriteSize ≤ u.io.offset + u.towrite
    · have hmin := minWriteSize_eq
      obtain ⟨hge, _, _, _⟩ := whole_spec hfull
      obtain ⟨_, hmost, hpos⟩ := hkernel u.io.requests.length u.whole.toNat
      obtain ⟨w', rest', hturn, hw', hzero, hto, hbytes'⟩ := wwriteTurn_taken hu hfull rfl
        (hpos (by omega)) (htaken hfull) (by omega)
      rw [hturn] at hw
      cases hw
      refine ⟨⟨rest', hw', fun _ => ?_, hbytes'.trans hbytes⟩, ?_⟩
      · -- the writer's own buffer is empty from here on
        rw [hzero]
        exact (hkernel _ _).1
      · have hsome := hpos (by omega)
        rw [hzero, hto]
        omega
    · rw [wwriteTurn_rest hu (by omega)] at hw
      cases hw
  have hdone : ∀ u exit, (∃ rest, Pending u rest ∧ u.Taken kernel ∧
      u.io.bytes ++ rest = v.io.bytes ++ data) → wwriteTurn kernel u = .done exit →
      ∃ u rest, exit = .rest u ∧ Pending u rest ∧ u.io.offset + u.towrite < minWriteSize ∧
        u.io.bytes ++ rest = v.io.bytes ++ data := by
    rintro u exit ⟨rest, hu, htaken, hbytes⟩ hexit
    by_cases hfull : minWriteSize ≤ u.io.offset + u.towrite
    · have hmin := minWriteSize_eq
      obtain ⟨hge, _, _, _⟩ := whole_spec hfull
      obtain ⟨_, hmost, hpos⟩ := hkernel u.io.requests.length u.whole.toNat
      obtain ⟨w, _, hturn, _⟩ := wwriteTurn_taken hu hfull rfl (hpos (by omega)) (htaken hfull)
        (by omega)
      rw [hturn] at hexit
      cases hexit
    · rw [wwriteTurn_rest hu (by omega)] at hexit
      cases hexit
      exact ⟨u, rest, rfl, hu, by omega, hbytes⟩
  obtain ⟨exit, hexit, u, rest, rfl, hu⟩ := loop_total _ hnext hdone ⟨data, h, htaken, rfl⟩
  exact ⟨u, rest, hexit, hu⟩

/-! ## The calls -/

/-- What is left fits the buffer. -/
theorem keepRest_spec (h : Pending v data) (hlt : v.io.offset + v.towrite < minWriteSize) :
    ∃ t, keepRest v = some t ∧ Inv t ∧ t.bytes = v.io.bytes ++ data := by
  have hnonneg := h.inv.offset_nonneg
  have hto := h.towrite_eq
  have hmin := minWriteSize_eq
  unfold keepRest
  rw [if_neg (by omega), if_neg (by omega)]
  by_cases hpos : 0 < v.towrite
  · have hdata : v.buffer.take v.towrite.toNat = data := by
      rw [hto, Int.toNat_natCast, h.data_eq]
    -- they are copied behind the bytes the writer has
    rw [if_pos hpos, hdata]
    have hsum : (v.io.offset + v.towrite).toNat = v.io.offset.toNat + data.length := by omega
    refine ⟨_, rfl, ⟨by simp only; omega, hlt, ?_, h.inv.aligned, h.inv.counted⟩, ?_⟩
    · simp only [hsum]
      exact le_length_memcpyAt data h.inv.offset_le
    · show v.io.file ++ (memcpyAt v.io.buffer v.io.offset.toNat data).take
        (v.io.offset + v.towrite).toNat = _
      rw [hsum, take_memcpyAt data h.inv.offset_le, State.bytes, List.append_assoc]
  · have hnil : data = [] := List.eq_nil_of_length_eq_zero (by omega)
    rw [if_neg hpos, hnil, List.append_nil]
    exact ⟨v.io, rfl, h.inv, rfl⟩

/-- The length of a write, converted to `int`, fails no `assert` and makes no sum overflow. -/
structure Begins (s : State) (w : WriteCall) : Prop where
  len_nonneg : 0 ≤ w.len
  towrite_nonneg : 0 ≤ cInt w.len
  fits : s.offset + cInt w.len < 2 ^ 31

/-- A length that the conversion keeps. -/
theorem Begins.of_fits (h : Inv s) {w : WriteCall} (hlen : 0 ≤ w.len)
    (hfits : s.offset + w.len < 2 ^ 31) : Begins s w ∧ cInt w.len = w.len := by
  have hoffset := h.offset_nonneg
  have hcInt : cInt w.len = w.len := cInt_of_range (by omega) (by omega)
  exact ⟨⟨hlen, hcInt.symm ▸ hlen, hcInt.symm ▸ hfits⟩, hcInt⟩

/-- A write begins its loop with as many of its bytes as its `int` says. -/
theorem stdioWwrite_eq (kernel : Kernel) (h : Inv s) {w : WriteCall} (hw : Begins s w) :
    Pending ⟨s, w.buffer, cInt w.len⟩ (w.data.take (cInt w.len).toNat) ∧
      stdioWwrite kernel w s = fun fuel =>
        (loop (wwriteTurn kernel) fuel ⟨s, w.buffer, cInt w.len⟩).bind (wwriteEnd w.len) := by
  have hpos := hw.towrite_nonneg
  have hle := cInt_le_self hw.len_nonneg
  have hlength : (w.data.take (cInt w.len).toNat).length = (cInt w.len).toNat := by
    rw [List.length_take, w.length_data]
    omega
  refine ⟨⟨h, ?_, ?_, hw.fits⟩, ?_⟩
  · rw [hlength, Int.toNat_of_nonneg hpos]
  · rw [hlength, WriteCall.data, List.take_take, Nat.min_eq_left (by omega)]
  · funext fuel
    unfold stdioWwrite
    simp only
    rw [if_neg (by omega)]

/-- The kernel takes at least the bytes that are in the buffer, and at a flush that is all it
is offered. -/
def Call.Taken (kernel : Kernel) (s : State) : Call → Prop
  | .wwrite w => Writing.Taken kernel ⟨s, w.buffer, w.len⟩
  | .wflush => kernel s.requests.length s.offset.toNat = s.offset

theorem Accepting.taken (hkernel : Accepting kernel) (h : Inv s) {c : Call} (hc : c.InRange) :
    c.Taken kernel s := by
  have hnonneg := h.offset_nonneg
  have hlt := h.offset_lt
  cases c with
  | wwrite w =>
    intro hfull
    have hmin := minWriteSize_eq
    obtain ⟨hge, _, _, _⟩ := whole_spec (v := ⟨s, w.buffer, w.len⟩) hfull
    rw [hkernel _ _]
    simp only at hge ⊢
    omega
  | wflush =>
    show kernel s.requests.length s.offset.toNat = s.offset
    rw [hkernel _ _, Int.toNat_of_nonneg hnonneg]

/-- A write in which the kernel takes the bytes of the buffer. -/
theorem stdioWwrite_taken (hkernel : TakesSome kernel) (h : Inv s) {w : WriteCall}
    (hw : Begins s w) (htaken : Writing.Taken kernel ⟨s, w.buffer, cInt w.len⟩) :
    ∃ t, Yields (stdioWwrite kernel w s) (w.len, t) ∧ Inv t ∧
      t.bytes = s.bytes ++ w.data.take (cInt w.len).toNat := by
  obtain ⟨hstart, hcall⟩ := stdioWwrite_eq kernel h hw
  -- first the whole blocks, then the rest
  obtain ⟨u, rest, hloop, hu, hrest, hbytes⟩ := wwriteLoop_spec hkernel hstart htaken
  obtain ⟨t, hkeep, ht, htbytes⟩ := keepRest_spec hu hrest
  refine ⟨t, ?_, ht, htbytes.trans hbytes⟩
  have hend : wwriteEnd w.len (.rest u) = some (w.len, t) := by
    rw [wwriteEnd, hkeep]
    rfl
  rw [hcall]
  apply hloop.bind (g := fun exit _ => wwriteEnd w.len exit)
  rw [hend]
  exact .pure _

/-- A length that fits: all bytes are taken. -/
theorem stdioWwrite_spec (hkernel : TakesSome kernel) (h : Inv s) {w : WriteCall}
    (hlen : 0 ≤ w.len) (hfits : s.offset + w.len < 2 ^ 31)
    (htaken : (Call.wwrite w).Taken kernel s) :
    ∃ t, Yields (stdioWwrite kernel w s) (w.len, t) ∧ Inv t ∧ t.bytes = s.bytes ++ w.data := by
  obtain ⟨hw, hcInt⟩ := Begins.of_fits h hlen hfits
  have hstart : Writing.Taken kernel ⟨s, w.buffer, cInt w.len⟩ := hcInt.symm ▸ htaken
  obtain ⟨t, hyields, ht, hbytes⟩ := stdioWwrite_taken hkernel h hw hstart
  have hall : w.data.take (cInt w.len).toNat = w.data := by
    apply List.take_of_length_le
    rw [w.length_data, hcInt]
  exact ⟨t, hyields, ht, hall ▸ hbytes⟩

/-- A flush puts what the kernel takes into the file, and forgets the rest. -/
theorem stdioWflush_eq (kernel : Kernel) (h : Inv s) : Inv (stdioWflush kernel s).2 ∧
    (stdioWflush kernel s).2.file = s.file ++ (s.buffer.take s.offset.toNat).take
      (kernel s.requests.length s.offset.toNat).toNat ∧
    (stdioWflush kernel s).2.bytes = (stdioWflush kernel s).2.file := by
  have hmin : (0 : ℤ) < minWriteSize := by decide
  have hoffered : (s.buffer.take s.offset.toNat).length = s.offset.toNat := by
    rw [List.length_take, Nat.min_eq_left h.offset_le]
  have hfile : (stdioWflush kernel s).2.file = s.file ++ (s.buffer.take s.offset.toNat).take
      (kernel s.requests.length s.offset.toNat).toNat := by
    unfold stdioWflush
    simp only [State.request, Request.bytes, hoffered]
  refine ⟨⟨le_rfl, hmin, Nat.zero_le _, ?_, ?_⟩, hfile, List.append_nil _⟩
  · intro r hr
    rcases List.mem_append.mp hr with hold | hnew
    · exact h.aligned r hold
    · obtain rfl := List.mem_singleton.mp hnew
      trivial
  · intro r hr
    rcases List.mem_append.mp hr with hold | hnew
    · exact h.counted r hold
    · obtain rfl := List.mem_singleton.mp hnew
      have hlt := h.offset_lt
      have hsize := minWriteSize_eq
      show (s.buffer.take s.offset.toNat).length < 2 ^ 31
      omega

theorem stdioWflush_spec (h : Inv s) (htaken : Call.wflush.Taken kernel s) :
    Inv (stdioWflush kernel s).2 ∧ (stdioWflush kernel s).2.file = s.bytes ∧
      (stdioWflush kernel s).2.bytes = s.bytes := by
  obtain ⟨hinv, hfile, hbytes⟩ := stdioWflush_eq kernel h
  have hall : kernel s.requests.length s.offset.toNat = s.offset := htaken
  rw [hall, List.take_take, min_self] at hfile
  exact ⟨hinv, hfile, hbytes.trans hfile⟩

theorem call_spec (hkernel : TakesSome kernel) (h : Inv s) {c : Call} (hc : c.InRange)
    (htaken : c.Taken kernel s) :
    ∃ r, Yields (call kernel c s) r ∧ Inv r.2 ∧ r.2.bytes = s.bytes ++ c.data := by
  cases c with
  | wwrite w =>
    obtain ⟨hlen, hlt⟩ := hc
    have hoffset := h.offset_lt
    obtain ⟨t, hw, ht, hbytes⟩ := stdioWwrite_spec hkernel h hlen (by omega) htaken
    exact ⟨_, hw, ht, hbytes⟩
  | wflush =>
    obtain ⟨hinv, _, hbytes⟩ := stdioWflush_spec h htaken
    exact ⟨_, .pure _, hinv, hbytes.trans (List.append_nil _).symm⟩

end Accumulate

/-! ## Runs -/

theorem inv_stdioWopen (direct : Bool) : Inv (stdioWopen direct) := by
  have hmin : (0 : ℤ) < minWriteSize := by decide
  exact ⟨le_rfl, hmin, Nat.zero_le _, nofun, nofun⟩

/-- When the kernel takes all bytes it is offered, every sequence of writes and flushes returns
without a failed `assert`: the buffer is not full, the bytes in the file and those in the buffer
are all that has been written, and each `writev` has offered a positive multiple of
`MIN_WRITE_SIZE`. A flush or a close leaves all of it in the file. -/
theorem stdioWriter_accumulates (kernel : Kernel) (hkernel : Accepting kernel) (direct : Bool)
    (calls : List Call) (hcalls : ∀ c ∈ calls, c.InRange) :
    ∃ log s, Yields (run kernel direct calls) (log, s) ∧
      0 ≤ s.offset ∧ s.offset < minWriteSize ∧
      s.file ++ s.buffer.take s.offset.toNat = calls.flatMap Call.data ∧
      (∀ r ∈ s.requests, r.Aligned) ∧
      (stdioWflush kernel s).2.file = calls.flatMap Call.data ∧
      (stdioWclose kernel s).file = calls.flatMap Call.data := by
  obtain ⟨⟨log, s⟩, hrun, ⟨hinv, hbytes⟩, hlog⟩ := runCalls_total
    (I := fun log s => Inv s ∧ s.bytes = (log.map Prod.fst).flatMap Call.data)
    (fun log c s hc h => by
      obtain ⟨r, hr, hinv, hbytes⟩ := call_spec hkernel.takesSome h.1 (hcalls c hc)
        (hkernel.taken h.1 (hcalls c hc))
      refine ⟨r, hr, hinv, ?_⟩
      rw [hbytes, h.2]
      simp)
    [] ⟨inv_stdioWopen direct, rfl⟩
  rw [List.nil_append] at hbytes
  simp only at hlog hbytes
  rw [hlog] at hbytes
  obtain ⟨_, hfile, _⟩ := stdioWflush_spec hinv (hkernel.taken hinv trivial)
  exact ⟨log, s, hrun, hinv.offset_nonneg, hinv.offset_lt, hbytes, hinv.aligned,
    hfile.trans hbytes, hfile.trans hbytes⟩

/-- Three bytes, a flush and more than a block behind it. -/
def threeAndBlock : List Call :=
  [.wwrite ⟨[1, 2, 3], 3, by decide⟩, .wflush,
    .wwrite ⟨List.replicate 4100 7, 4100, by rw [List.length_replicate]; rfl⟩]

theorem stdioWriter_accumulates_block : ∃ log s,
    Yields (run (fun _ n => n) true threeAndBlock) (log, s) ∧
      (stdioWclose (fun _ n => n) s).file = threeAndBlock.flatMap Call.data := by
  have hcalls : ∀ c ∈ threeAndBlock, c.InRange := by
    unfold threeAndBlock
    simp only [List.forall_mem_cons]
    exact ⟨⟨by decide, by decide⟩, trivial, ⟨by decide, by decide⟩, nofun⟩
  obtain ⟨log, s, hrun, _, _, _, _, _, hclose⟩ :=
    stdioWriter_accumulates (fun _ n => n) (fun _ _ => rfl) true threeAndBlock hcalls
  exact ⟨log, s, hrun, hclose⟩

end Wandio.StdioWriter
