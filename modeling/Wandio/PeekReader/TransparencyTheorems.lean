import Wandio.PeekReader.StepTheorems

/-!
# The peeking reader is transparent

`Inv` says where the stream is: what the reads have returned, then what is unread in the
buffer, then what the child still has. Each part of `peek_read` and `peek_peek` keeps it.
-/

namespace Wandio.PeekReader

open Loop

variable {σ : Type*} {child : ByteSource σ} {S given : List Byte} {s t : State σ}

/-- The bytes of the buffer that have not been read. -/
def State.unread (s : State σ) : List Byte := s.window (s.length - s.offset)

/-- The stream `S` is what has been `given`, the rest of the buffer and the child's rest. -/
structure Inv (child : ByteSource σ) (S given : List Byte) (s : State σ) : Prop where
  offset_nonneg : 0 ≤ s.offset
  offset_le : s.offset ≤ s.length
  empty : s.buffer = none → s.length = 0
  written : ∀ b, s.buffer = some b → s.length ≤ b.bytes.length ∧ b.bytes.length ≤ b.size
  stream : S = given ++ (s.unread ++ child.content s.child)

theorem Inv.wf (h : Inv child S given s) : Wf s :=
  ⟨h.offset_nonneg, fun _ => h.offset_le, h.empty⟩

/-! ## The buffer -/

theorem Block.length_window {b : Block} {offset n : ℕ} (h : offset + n ≤ b.bytes.length) :
    (b.window offset n).length = n := by
  unfold Block.window
  rw [List.length_take, List.length_drop]
  omega

theorem Inv.length_unread (h : Inv child S given s) :
    (s.unread.length : ℤ) = s.length - s.offset := by
  have hnonneg := h.offset_nonneg
  have hle := h.offset_le
  unfold State.unread State.window
  cases hb : s.buffer with
  | none =>
    have hzero := h.empty hb
    simp only [List.length_nil]
    omega
  | some b =>
    have hwritten := (h.written b hb).1
    show ((b.window s.offset.toNat (s.length - s.offset).toNat).length : ℤ) = _
    rw [Block.length_window (by omega)]
    omega

/-- A copy of the first unread bytes. -/
theorem window_eq {n : ℤ} (hn : n ≤ s.length - s.offset) :
    s.window n = s.unread.take n.toNat := by
  unfold State.unread State.window
  cases s.buffer with
  | none => simp
  | some b =>
    show b.window _ _ = (b.window _ _).take _
    unfold Block.window
    rw [List.take_take, Nat.min_eq_left (by omega)]

theorem Inv.unread_eq_nil (h : Inv child S given s) (hd : s.length = s.offset) :
    s.unread = [] := by
  apply List.eq_nil_of_length_eq_zero
  have := h.length_unread
  omega

/-- Moving the offset over the first `n` unread bytes. -/
theorem Inv.unread_advance (h : Inv child S given s) {n : ℤ} (hn : 0 ≤ n) :
    { s with offset := s.offset + n }.unread = s.unread.drop n.toNat := by
  have hnonneg := h.offset_nonneg
  unfold State.unread State.window
  cases s.buffer with
  | none => simp
  | some b =>
    show b.window (s.offset + n).toNat (s.length - (s.offset + n)).toNat = (b.window _ _).drop _
    unfold Block.window
    rw [List.drop_take, List.drop_drop]
    congr 1
    · omega
    · congr 1
      omega

/-- The bytes moved over have been given. -/
theorem Inv.advance (h : Inv child S given s) {n : ℤ} (hn : 0 ≤ n) (hle : n ≤ s.length - s.offset) :
    Inv child S (given ++ s.unread.take n.toNat) { s with offset := s.offset + n } := by
  have hnonneg := h.offset_nonneg
  refine ⟨by simp only; omega, by simp only; omega, h.empty, h.written, ?_⟩
  rw [h.unread_advance hn, List.append_assoc, ← List.append_assoc (List.take _ _),
    List.take_append_drop]
  exact h.stream

theorem Inv.freeDrained (h : Inv child S given s) : Inv child S given (freeDrained s) := by
  unfold PeekReader.freeDrained
  split
  · next hd =>
    refine ⟨le_rfl, le_rfl, fun _ => rfl, by simp, ?_⟩
    have hnil := h.unread_eq_nil (le_antisymm hd.2 h.offset_le)
    have hstream := h.stream
    rw [hnil] at hstream
    exact hstream
  · exact h

/-! ## The child -/

/-- The rest of the buffer has been given, and bytes of the child behind it. -/
theorem Inv.drained (h : Inv child S given s) {data : List Byte} {c : σ}
    (hcontent : child.content s.child = data ++ child.content c) :
    Inv child S (given ++ (s.unread ++ data)) { s with offset := s.length, child := c } := by
  have hnonneg := h.offset_nonneg
  have hle := h.offset_le
  refine ⟨hnonneg.trans hle, le_rfl, h.empty, h.written, ?_⟩
  have hunread : ({ s with offset := s.length, child := c } : State σ).unread = [] := by
    unfold State.unread
    rw [Int.sub_self, window_zero]
  rw [hunread, List.nil_append, h.stream, hcontent]
  simp only [List.append_assoc]

/-- The rest of the buffer has been given, and bytes of the child are in a new one. -/
theorem Inv.refilled (h : Inv child S given s) {data : List Byte} {c : σ} {size : ℕ}
    (hdata : data.length ≤ size) (hcontent : child.content s.child = data ++ child.content c) :
    Inv child S (given ++ s.unread) ⟨c, some ⟨size, memcpyAt [] 0 data⟩, data.length, 0⟩ := by
  have hbytes : memcpyAt ([] : List Byte) 0 data = data := by simp [memcpyAt]
  rw [hbytes]
  refine ⟨le_rfl, Int.natCast_nonneg _, ?_, ?_, ?_⟩
  · intro hnone
    contradiction
  · intro b hb
    rw [← Option.some.inj hb]
    exact ⟨le_rfl, hdata⟩
  · rw [h.stream, hcontent]
    simp [State.unread, State.window, Block.window]

/-! ## The calls -/

/-- What a `peek_read` returns continues what has been given. -/
structure Returned (child : ByteSource σ) (S given : List Byte) (len : ℕ) (r : ReadResult)
    (t : State σ) : Prop where
  ret : r.ret = r.data.length
  inv : Inv child S (given ++ r.data) t
  le : r.data.length ≤ len
  zero : 0 < len → r.data = [] → given = S

/-- When the child has nothing more the read returns the rest of the buffer. -/
theorem returned_short {len : ℕ} {t : State σ} (h : Inv child S given s)
    (hmore : s.left < len) (hnil : child.content s.child = [])
    (hinv : Inv child S (given ++ s.unread) t) :
    Returned child S given len ⟨if 0 < s.left then s.left else 0, s.unread⟩ t := by
  have hunread : (s.unread.length : ℤ) = s.left := h.length_unread
  refine ⟨?_, hinv, ?_, fun _ hz => ?_⟩
  · show (if 0 < s.left then s.left else 0) = (s.unread.length : ℤ)
    split <;> omega
  · show s.unread.length ≤ len
    omega
  · have hempty : s.unread = [] := hz
    rw [h.stream, hempty, hnil, List.nil_append, List.append_nil]

theorem ReadMove.returned {addr : ℤ} {len : ℕ} {r : ReadResult} {t : State σ}
    (h : Inv child S given s) (hmove : ReadMove child.toSource addr len s r t) :
    Returned child S given len r t := by
  have hnonneg := h.offset_nonneg
  have hle := h.offset_le
  have hunread : (s.unread.length : ℤ) = s.left := h.length_unread
  have hleft : s.left = s.length - s.offset := rfl
  have hall : s.window s.left = s.unread := rfl
  cases hmove with
  | sticky herr => omega
  | buffered hok hlen =>
    have hwindow : s.window len = s.unread.take (len : ℤ).toNat := window_eq hlen
    have htaken : (s.unread.take (len : ℤ).toNat).length = len := by
      rw [List.length_take]
      omega
    rw [hwindow]
    refine ⟨?_, (h.advance (Int.natCast_nonneg len) hlen).freeDrained, htaken.le, ?_⟩
    · simp only [htaken]
    · intro hpos hnil
      have hz : s.unread.take (len : ℤ).toNat = [] := hnil
      rw [hz, List.length_nil] at htaken
      omega
  | direct hok hmore haligned hread hret =>
    obtain ⟨data, c, hdata, hlen, hcontent, _⟩ :=
      child.read_spec s.child (show 0 < ((len : ℤ) - s.left).toNat by omega)
    cases hread.symm.trans hdata
    rw [hall]
    refine ⟨?_, (h.drained hcontent).freeDrained, ?_, ?_⟩
    · simp only [List.length_append]
      omega
    · simp only [List.length_append]
      omega
    · intro _ hnil
      have hz : data = [] := (List.append_eq_nil_iff.mp hnil).2
      simp [hz] at hret
  | directShort hok hmore haligned hread hret =>
    obtain ⟨data, c, hdata, hlen, hcontent, hend⟩ :=
      child.read_spec s.child (show 0 < ((len : ℤ) - s.left).toNat by omega)
    cases hread.symm.trans hdata
    have hz : data = [] := List.eq_nil_of_length_eq_zero (by simp only at hret; omega)
    have hinv := h.drained hcontent
    rw [hz, List.append_nil] at hinv
    rw [hall, hz]
    exact returned_short h hmore (hend hz) hinv
  | @refill _ e hok hmore haligned hread hret =>
    have hroom := lt_refillAmount (len - s.left) s.length
    obtain ⟨data, c, hdata, hlen, hcontent, _⟩ := child.read_spec s.child
      (show 0 < (refillAmount ((len : ℤ) - s.left) s.length).toNat by omega)
    cases hread.symm.trans hdata
    simp only at hret
    have hbytes : memcpyAt ([] : List Byte) 0 data = data := by simp [memcpyAt]
    set n := min ((len : ℤ) - s.left) data.length with hn
    have htaken : ((data.take n.toNat).length : ℤ) = n := by
      rw [List.length_take]
      omega
    have hrefilled := h.refilled hlen hcontent
    have hnew : (⟨e, some ⟨(refillAmount ((len : ℤ) - s.left) s.length).toNat,
        memcpyAt [] 0 data⟩, data.length, 0⟩ : State σ).unread = data := by
      simp [State.unread, State.window, Block.window, hbytes]
    have hinv := hrefilled.advance (n := n) (by omega) (by simp only; omega)
    rw [hnew, Int.zero_add, List.append_assoc] at hinv
    rw [hall, hbytes]
    rw [hbytes] at hinv
    refine ⟨?_, hinv.freeDrained, ?_, ?_⟩
    · simp only [List.length_append]
      omega
    · simp only [List.length_append]
      omega
    · intro _ hnil
      have hz : data.take n.toNat = [] := (List.append_eq_nil_iff.mp hnil).2
      rw [hz, List.length_nil] at htaken
      omega
  | refillShort hok hmore haligned hread hret =>
    have hroom := lt_refillAmount (len - s.left) s.length
    obtain ⟨data, c, hdata, hlen, hcontent, hend⟩ := child.read_spec s.child
      (show 0 < (refillAmount ((len : ℤ) - s.left) s.length).toNat by omega)
    cases hread.symm.trans hdata
    have hz : data = [] := List.eq_nil_of_length_eq_zero (by simp only at hret; omega)
    have hinv := h.refilled hlen hcontent
    rw [hall, hz]
    rw [hz] at hinv
    exact returned_short h hmore (hend hz) hinv

theorem peekRead_spec (h : Inv child S given s) (addr : ℤ) (len : ℕ) :
    ∃ data t, peekRead child.toSource addr len s = some (⟨(data.length : ℤ), data⟩, t) ∧
      Inv child S (given ++ data) t ∧ data.length ≤ len ∧ (0 < len → data = [] → given = S) := by
  obtain ⟨r, t, hread, hmove⟩ := readMove child.toSource addr h.wf (Int.natCast_nonneg len)
  have hreturned := hmove.returned h
  refine ⟨r.data, t, ?_, hreturned.inv, hreturned.le, hreturned.zero⟩
  rw [← hreturned.ret]
  exact hread

/-- The copy at the end of `peek_peek`. -/
theorem peekCopy_spec (h : Inv child S given s) (len : ℕ) :
    ∃ data, peekCopy len s = (⟨(data.length : ℤ), data⟩, s) ∧
      (data.length : ℤ) = min (len : ℤ) (s.length - s.offset) ∧ given ++ data <+: S := by
  have hle := h.offset_le
  have hlength := h.length_unread
  set ret := min (len : ℤ) (s.length - s.offset) with hret
  have hwindow : s.window ret = s.unread.take ret.toNat := window_eq (by omega)
  have htaken : ((s.unread.take ret.toNat).length : ℤ) = ret := by
    rw [List.length_take]
    omega
  refine ⟨s.unread.take ret.toNat, ?_, htaken, ?_⟩
  · unfold peekCopy
    simp only [← hret, hwindow, htaken]
  · rw [h.stream, List.prefix_append_right_inj]
    exact (List.take_prefix _ _).trans (List.prefix_append _ _)

/-- The larger buffer of a peek has the old bytes at its start. -/
theorem Inv.length_extended (h : Inv child S given s) (len : ℤ) :
    (s.extended len).bytes.length = s.length.toNat := by
  unfold State.extended
  cases hb : s.buffer with
  | none =>
    rw [h.empty hb]
    rfl
  | some b =>
    have hwritten := (h.written b hb).1
    show (b.bytes.take s.length.toNat).length = _
    rw [List.length_take]
    omega

theorem Inv.unread_extended (h : Inv child S given s) (len : ℤ) :
    ((s.extended len).bytes.drop s.offset.toNat).take (s.length - s.offset).toNat =
      s.unread := by
  have hnonneg := h.offset_nonneg
  have hle := h.offset_le
  cases hb : s.buffer with
  | none =>
    have hzero := h.empty hb
    rw [h.unread_eq_nil (by omega), List.take_eq_nil_iff]
    left
    omega
  | some b =>
    unfold State.extended State.unread State.window
    rw [hb]
    show ((b.bytes.take s.length.toNat).drop _).take _ = b.window _ _
    unfold Block.window
    rw [List.drop_take, List.take_take]
    congr 1
    omega

/-- `peek_peek` after the buffer has been extended. -/
theorem Inv.extend (h : Inv child S given s) {b : Block} {data : List Byte} {c : σ}
    (hsize : s.length.toNat + data.length ≤ b.size) (hbytes : b.bytes.length = s.length.toNat)
    (hunread : (b.bytes.drop s.offset.toNat).take (s.length - s.offset).toNat = s.unread)
    (hcontent : child.content s.child = data ++ child.content c) :
    Inv child S given { s with
      buffer := some { b with bytes := memcpyAt b.bytes s.length.toNat data }
      child := c
      length := s.length + data.length } := by
  have hnonneg := h.offset_nonneg
  have hle := h.offset_le
  have hmem : memcpyAt b.bytes s.length.toNat data = b.bytes ++ data := by
    unfold memcpyAt
    rw [List.take_of_length_le (by omega), List.drop_eq_nil_of_le (by omega), List.append_nil]
  refine ⟨hnonneg, by simp only; omega, by simp, ?_, ?_⟩
  · rintro b' hb'
    rw [← Option.some.inj hb']
    simp only [hmem, List.length_append]
    omega
  · have hrest : ((b.bytes ++ data).drop s.offset.toNat).take
        (s.length + data.length - s.offset).toNat = s.unread ++ data := by
      rw [List.drop_append_of_le_length (by omega), ← hunread,
        List.take_of_length_le (by rw [List.length_append, List.length_drop]; omega),
        List.take_of_length_le (by rw [List.length_drop]; omega)]
    show S = given ++ (((memcpyAt b.bytes s.length.toNat data).drop s.offset.toNat).take
      (s.length + data.length - s.offset).toNat ++ child.content c)
    rw [hmem, hrest, h.stream, hcontent, List.append_assoc]

/-- How many bytes a peek gets from the child: what one read returns. -/
def supplied (child : Source σ) (len : ℤ) (s : State σ) : ℤ :=
  if s.length - s.offset < len then (child.read s.child (s.readAmount len).toNat).1.ret else 0

theorem peekPeek_spec (h : Inv child S given s) (len : ℕ) :
    ∃ data t, peekPeek child.toSource len s = some (⟨(data.length : ℤ), data⟩, t) ∧
      Inv child S given t ∧ given ++ data <+: S ∧
      (data.length : ℤ) = min (len : ℤ) (s.length - s.offset + supplied child.toSource len s) := by
  have hnonneg := h.offset_nonneg
  have hle := h.offset_le
  obtain ⟨r, t, hpeek, hmove⟩ := peekMove child.toSource len h.wf (hnonneg.trans hle)
  rw [hpeek]
  cases hmove with
  | enough hlen =>
    obtain ⟨copied, hcopy, hcount, hpre⟩ := peekCopy_spec h len
    have hall : peekCopy (len : ℤ) s = (⟨(len : ℤ), s.window len⟩, s) := by
      unfold peekCopy
      rw [min_eq_left (show (len : ℤ) ≤ s.length - s.offset from hlen)]
    have hnone : supplied child.toSource len s = 0 := if_neg (not_lt.mpr hlen)
    refine ⟨copied, s, ?_, h, hpre, ?_⟩
    · rw [← hcopy, hall]
    · rw [hcount, hnone, Int.add_zero]
  | fail hmore hread hret =>
    have hpos := readAmount_pos hmore
    obtain ⟨data, c, hdata, _⟩ :=
      child.read_spec s.child (show 0 < (s.readAmount len).toNat by omega)
    cases hread.symm.trans hdata
    -- the child does not fail
    simp only at hret
    omega
  | extend hmore hread hret =>
    have hpos := readAmount_pos hmore
    obtain ⟨data, c, hdata, hlen, hcontent, _⟩ :=
      child.read_spec s.child (show 0 < (s.readAmount len).toNat by omega)
    cases hread.symm.trans hdata
    have hsize : (s.extended len).size = (s.length + s.readAmount len).toNat := rfl
    have hinv := h.extend (by omega) (h.length_extended len) (h.unread_extended len) hcontent
    obtain ⟨copied, hcopy, hcount, hpre⟩ := peekCopy_spec hinv len
    have hsome : supplied child.toSource len s = data.length := by
      unfold supplied
      rw [if_pos (show s.length - s.offset < len from hmore), hdata]
    refine ⟨copied, _, ?_, hinv, hpre, ?_⟩
    · rw [hcopy]
    · rw [hcount, hsome]
      show min (len : ℤ) (s.length + data.length - s.offset) = _
      omega

/-- A peek returns all there is, up to `len` bytes, if the one read of the child brings enough:
what the buffer lacks, or all that is left. -/
theorem peekPeek_full_iff (h : Inv child S given s) (len : ℕ) :
    ∃ r t, peekPeek child.toSource len s = some (r, t) ∧
      (r.ret = min (len : ℤ) (S.length - given.length : ℕ) ↔
        min ((len : ℤ) - (s.length - s.offset)) (child.content s.child).length ≤
          supplied child.toSource len s) := by
  obtain ⟨data, t, hpeek, _, _, hlen⟩ := peekPeek_spec h len
  refine ⟨_, t, hpeek, ?_⟩
  have hunread := h.length_unread
  have hle := h.offset_le
  have hleft : S.length - given.length = s.unread.length + (child.content s.child).length := by
    rw [h.stream, List.length_append, List.length_append, Nat.add_sub_cancel_left]
  -- the child returns no more than it has
  have hsupplied : 0 ≤ supplied child.toSource len s ∧
      supplied child.toSource len s ≤ (child.content s.child).length := by
    unfold supplied
    split
    · next hmore =>
      have hpos : 0 < s.readAmount len := readAmount_pos hmore
      obtain ⟨bytes, c, hread, _, hcontent, _⟩ :=
        child.read_spec s.child (show 0 < (s.readAmount len).toNat by omega)
      rw [hread, hcontent, List.length_append]
      show (0 : ℤ) ≤ bytes.length ∧ (bytes.length : ℤ) ≤ _
      omega
    · omega
  show (data.length : ℤ) = _ ↔ _
  rw [hlen, hleft]
  omega

/-! ## Runs -/

@[simp] theorem delivered_append (log log' : List (Call × ReadResult)) :
    delivered (log ++ log') = delivered log ++ delivered log' := List.flatMap_append

/-- A call keeps the invariant, and its own promises. -/
theorem call_spec {log : List (Call × ReadResult)} (h : Inv child S (delivered log) s)
    (a : Call) :
    ∃ r, call child.toSource a s = some r ∧
      Inv child S (delivered (log ++ [(a, r.1)])) r.2 ∧ CallOk S (delivered log) r.1 a := by
  simp only [delivered_append]
  cases a with
  | read addr len =>
    obtain ⟨data, t, hread, hinv, hlen, hend⟩ := peekRead_spec h addr len
    refine ⟨_, hread, ?_, rfl, hlen, ?_, fun hpos hz => ?_⟩
    · simpa [delivered] using hinv
    · rw [hinv.stream]
      exact List.prefix_append _ _
    · exact hend hpos (List.eq_nil_of_length_eq_zero (by simpa using hz))
  | peek addr len =>
    obtain ⟨data, t, hpeek, hinv, hpre, hlen⟩ := peekPeek_spec h len
    refine ⟨_, hpeek, ?_, rfl, by simp only; omega, hpre⟩
    simpa [delivered] using hinv

theorem inv_peekOpen (child : ByteSource σ) (c : σ) :
    Inv child (child.content c) [] (peekOpen c) :=
  ⟨le_rfl, le_rfl, fun _ => rfl, by simp [peekOpen], rfl⟩

/-- Every sequence of calls returns. -/
theorem run_spec (child : ByteSource σ) (c : σ) (calls : List Call) :
    ∃ log t, runCalls (call child.toSource) calls (peekOpen c) = some (log, t) ∧
      Inv child (child.content c) (delivered log) t ∧ log.map Prod.fst = calls ∧
      LogOk (child.content c) log := by
  obtain ⟨⟨log, t⟩, hrun, ⟨hinv, hok⟩, hcalls⟩ := runCalls_some
    (I := fun log s => Inv child (child.content c) (delivered log) s ∧ LogOk (child.content c) log)
    (fun log a s _ h => by
      obtain ⟨r, hr, hinv, hok⟩ := call_spec h.1 a
      exact ⟨r, hr, hinv, Each.append h.2 hok⟩) [] ⟨inv_peekOpen child c, Each.nil⟩
  exact ⟨log, t, hrun, hinv, hcalls, hok⟩

/-- Every sequence of calls returns, and every call keeps its promises: the reads return the
stream in order and stop only at its end, the peeks return what comes next in the stream and
change nothing of what the reads return. -/
theorem peekReader_transparent (child : ByteSource σ) (c : σ) (calls : List Call) :
    ∃ log t, runCalls (call child.toSource) calls (peekOpen c) = some (log, t) ∧
      log.map Prod.fst = calls ∧ LogOk (child.content c) log ∧
      delivered log <+: child.content c := by
  obtain ⟨log, t, hrun, hinv, hcalls, hok⟩ := run_spec child c calls
  refine ⟨log, t, hrun, hcalls, hok, ?_⟩
  rw [hinv.stream]
  exact List.prefix_append _ _

end Wandio.PeekReader
