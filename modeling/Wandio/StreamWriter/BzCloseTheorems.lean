import Wandio.StreamWriter.WriteTheorems

/-!
# What the close of the bzip2 writer drains

`bz_wclose` goes on as long as `BZ_FINISH` answers `BZ_OK`, a code `BZ_FINISH` never gives
when there is more to come. So there is one call, and the stream is complete exactly when
that call comes to its end.
-/

namespace Wandio.StreamWriter

open Codec Loop

variable {κ σ : Type*}

/-- The bzlib protocol. `stream data` is the complete compressed stream of `data`, and a
stream tells its own end. `BZ_FINISH` answers `BZ_STREAM_END` when it has emitted the last
byte of the stream and `BZ_FINISH_OK` as long as there are more. -/
structure BzProtocol (z : Coder κ Action Byte) (stream : List Byte → List Byte)
    (At : κ → List Byte → List Byte → Prop) (held : κ → ℕ) : Prop
    extends Encoder z (fun err => err = bzRunOk ∨ err = bzOk) At held where
  finish : ∀ k fed out room, At k fed out →
    ((z.call k .finish [] room).code = bzStreamEnd ∧
        out ++ (z.call k .finish [] room).output = stream fed) ∨
      ((z.call k .finish [] room).code = bzFinishOk ∧
        ∃ more, more ≠ [] ∧ out ++ (z.call k .finish [] room).output ++ more = stream fed)
  self_delimiting : ∀ a b, stream a <+: stream b → a = b

section Close

variable {z : Coder κ Action Byte} {stream : List Byte → List Byte}
  {At : κ → List Byte → List Byte → Prop} {held : κ → ℕ} {child : ByteSink σ} {c : σ}
  {fed : List Byte} {s : State κ σ}

/-- The close makes one `BZ_FINISH` call and passes what is then in `outbuff` to the child. -/
theorem bzWclose_spec (hz : BzProtocol z stream At held) (h : Pumping At child c fed s)
    (hnil : s.nextIn = []) :
    ∃ t, Yields (bzWclose z child.toSink s) t ∧
      ((z.call s.strm .finish [] s.availOut).code = bzStreamEnd ∧
          child.received t.child = child.received c ++ stream fed ∨
        (z.call s.strm .finish [] s.availOut).code = bzFinishOk ∧
          ∃ more, more ≠ [] ∧
            child.received t.child ++ more = child.received c ++ stream fed) := by
  obtain ⟨out, hat, hout⟩ := h.emitted
  set a := z.call s.strm .finish [] s.availOut with ha
  set t : State κ σ :=
    { s with
      strm := a.state
      nextIn := []
      outbuff := s.outbuff ++ a.output
      child := (child.write s.child (s.outbuff ++ a.output)).2 } with ht
  have hfinish := hz.finish s.strm fed out s.availOut hat
  rw [← ha] at hfinish
  have hcode : ¬ a.code = bzOk := by
    rcases hfinish with ⟨hend, _⟩ | ⟨hmore, _⟩
    · rw [hend]
      decide
    · rw [hmore]
      decide
  have hturn : wcloseTurn z child.toSink (fun err => err = bzOk) s = .done t := by
    rw [wcloseTurn, hnil]
    simp only [← ha, hcode, decide_false, Bool.false_eq_true, if_false, List.drop_nil, ht]
  have hreceived : child.received t.child = child.received c ++ (out ++ a.output) := by
    show child.received (child.write s.child (s.outbuff ++ a.output)).2 = _
    rw [child.received_write, ← List.append_assoc, hout, List.append_assoc]
  refine ⟨t, .done hturn, ?_⟩
  rcases hfinish with ⟨hend, hall⟩ | ⟨hmore, more, hne, hall⟩
  · exact .inl ⟨hend, by rw [hreceived, hall]⟩
  · exact .inr ⟨hmore, more, hne, by rw [hreceived, List.append_assoc, hall]⟩

/-- The bytes taken are the bytes written when no length is too long for `avail_in`. -/
theorem flatMap_take_cUInt {buffers : List (List Byte)} :
    (buffers.flatMap fun b => b.take (cUInt b.length)) = buffers.flatten ↔
      ∀ b ∈ buffers, b.length < 2 ^ 32 := by
  constructor
  · intro h
    -- the pieces taken are no longer than the buffers, so none may be shorter
    have hlen := congrArg List.length h
    clear h
    induction buffers with
    | nil => exact fun b hb => absurd hb (List.not_mem_nil)
    | cons b buffers ih =>
      have hle : ∀ l : List (List Byte),
          (l.flatMap fun b => b.take (cUInt b.length)).length ≤ l.flatten.length := by
        intro l
        induction l with
        | nil => exact le_rfl
        | cons b l ih =>
          simp only [List.flatMap_cons, List.flatten_cons, List.length_append, List.length_take]
          omega
      have hrest := hle buffers
      simp only [List.flatMap_cons, List.flatten_cons, List.length_append,
        List.length_take] at hlen
      have hmod : cUInt b.length ≤ b.length := Nat.mod_le _ _
      have hlt : cUInt b.length < 2 ^ 32 := Nat.mod_lt _ (by decide)
      intro x hx
      rcases List.mem_cons.mp hx with rfl | hx
      · omega
      · exact ih (by omega) x hx
  · intro h
    induction buffers with
    | nil => rfl
    | cons b buffers ih =>
      have hb : b.length < 2 ^ 32 := h b (List.mem_cons_self ..)
      rw [List.flatMap_cons, List.flatten_cons, cUInt_of_lt hb, List.take_length,
        ih fun x hx => h x (List.mem_cons_of_mem _ hx)]

/-- A run of the writer, up to the close and over it. -/
theorem bzRun_spec (hz : BzProtocol z stream At held) (child : ByteSink σ) (k : κ) (c : σ)
    (hk : At k [] []) (buffers : List (List Byte)) :
    ∃ s t, Yields (bzWrites z child.toSink buffers (bzWopen k c))
        (buffers.map fun b => (b, (b.length : ℤ)), s) ∧
      Pumping At child c (buffers.flatMap fun b => b.take (cUInt b.length)) s ∧
      Yields (bzWclose z child.toSink s) t ∧
      ((z.call s.strm .finish [] s.availOut).code = bzStreamEnd ∧
          child.received t.child =
            child.received c ++ stream (buffers.flatMap fun b => b.take (cUInt b.length)) ∨
        (z.call s.strm .finish [] s.availOut).code = bzFinishOk ∧
          ∃ more, more ≠ [] ∧ child.received t.child ++ more =
            child.received c ++ stream (buffers.flatMap fun b => b.take (cUInt b.length))) := by
  have hopen : Pumping At child c [] (bzWopen k c) :=
    ⟨rfl, Nat.zero_le _, [], hk, by simp [bzWopen, wopen]⟩
  obtain ⟨s, hs, hpump, hnil⟩ := writes_spec hz.toEncoder cUInt buffers hopen rfl
  rw [List.nil_append] at hpump
  obtain ⟨t, ht, hend⟩ := bzWclose_spec hz hpump hnil
  exact ⟨s, t, hs, hpump, ht, hend⟩

/-- The child receives the complete stream of everything written if and only if no write is
too long for `avail_in` and the first `BZ_FINISH` call of the close comes to the end of the
stream. -/
theorem bzWriter_drains_iff (z : Coder κ Action Byte) (stream : List Byte → List Byte)
    (At : κ → List Byte → List Byte → Prop) (held : κ → ℕ) (hz : BzProtocol z stream At held)
    (child : ByteSink σ) (k : κ) (c : σ) (hk : At k [] []) (buffers : List (List Byte)) :
    ∃ rets s t, Yields (bzWrites z child.toSink buffers (bzWopen k c)) (rets, s) ∧
      Yields (bzWclose z child.toSink s) t ∧
      (child.received t.child = child.received c ++ stream buffers.flatten ↔
        (∀ b ∈ buffers, b.length < 2 ^ 32) ∧
          (z.call s.strm .finish [] s.availOut).code = bzStreamEnd) := by
  obtain ⟨s, t, hs, _, ht, hend⟩ := bzRun_spec hz child k c hk buffers
  refine ⟨_, s, t, hs, ht, ?_⟩
  rw [← flatMap_take_cUInt]
  rcases hend with ⟨hcode, hreceived⟩ | ⟨hcode, more, hne, hreceived⟩
  · rw [hreceived, List.append_cancel_left_eq]
    constructor
    · intro h
      exact ⟨hz.self_delimiting _ _ (h ▸ List.prefix_rfl), hcode⟩
    · rintro ⟨h, _⟩
      rw [h]
  · constructor
    · intro h
      -- the stream received would be a proper part of the stream of what was taken
      rw [h, List.append_assoc, List.append_cancel_left_eq] at hreceived
      have hfed := hz.self_delimiting _ _ (hreceived ▸ List.prefix_append _ more)
      rw [hfed] at hreceived
      have := congrArg List.length hreceived
      rw [List.length_append] at this
      exact absurd (List.eq_nil_of_length_eq_zero (by omega)) hne
    · rintro ⟨_, h⟩
      rw [hcode] at h
      contradiction

end Close

/-! ## A compressor that emits at the end -/

/-- Every byte behind a 1, then a 0. -/
def escape : List Byte → List Byte
  | [] => [0]
  | b :: bs => 1 :: b :: escape bs

theorem length_escape (data : List Byte) : (escape data).length = 2 * data.length + 1 := by
  induction data with
  | nil => rfl
  | cons b bs ih =>
    simp only [escape, List.length_cons, ih]
    omega

theorem escape_self_delimiting {a b : List Byte} (h : escape a <+: escape b) : a = b := by
  induction a generalizing b with
  | nil => cases b <;> simp_all [escape, List.cons_prefix_cons]
  | cons x a ih =>
    cases b with
    | nil => simp [escape, List.cons_prefix_cons] at h
    | cons y b =>
      simp only [escape, List.cons_prefix_cons, true_and] at h
      rw [h.1, ih h.2]

/-- The header of a stream. -/
def bzHeader : List Byte := [0x42, 0x5a, 0x68, 0x39]

/-- What bzip2 makes of no input at all; with input there is a block, whose contents stand
here as they are. -/
def blockStream : List Byte → List Byte
  | [] => bzHeader ++ [0x17, 0x72, 0x45, 0x38, 0x50, 0x90, 0, 0, 0, 0]
  | b :: bs => bzHeader ++ [0x31, 0x41, 0x59, 0x26, 0x53, 0x59] ++ escape (b :: bs)

theorem blockStream_self_delimiting (a b : List Byte) (h : blockStream a <+: blockStream b) :
    a = b := by
  cases a <;> cases b <;> simp [blockStream, bzHeader, List.cons_prefix_cons] at h ⊢
  simpa using escape_self_delimiting h

/-- As bzip2 does with less than a block of input, this compressor emits nothing before it is
told to finish. -/
def oneBlock : Coder (Stored Byte) Action Byte :=
  storing (fun a => a = .finish) blockStream bzRunOk
    (fun left => if left = 0 then bzStreamEnd else bzFinishOk)

/-- The states of `oneBlock` before it is told to finish. -/
def oneBlockAt (k : Stored Byte) (fed out : List Byte) : Prop := k = ⟨fed, none⟩ ∧ out = []

theorem oneBlock_protocol :
    BzProtocol oneBlock blockStream oneBlockAt (Stored.held blockStream) where
  accepted k fed out input room _ _ _ := by
    rw [oneBlock, storing_run (by decide)]
    rfl
  at_run k fed out input room hat _ _ := by
    obtain ⟨rfl, rfl⟩ := hat
    rw [oneBlock, storing_run (by decide)]
    simp [oneBlockAt]
  advances k fed out input room _ hne _ := by
    rw [oneBlock, storing_run (by decide)]
    exact .inl (List.length_pos_iff.mpr hne)
  finish k fed out room hat := by
    obtain ⟨rfl, rfl⟩ := hat
    rw [oneBlock, storing_end (by decide)]
    simp only [Option.getD_none, List.nil_append]
    have hsplit := List.take_append_drop room (blockStream fed)
    by_cases hleft : ((blockStream fed).drop room).length = 0
    · rw [List.eq_nil_of_length_eq_zero hleft, List.append_nil] at hsplit
      exact .inl ⟨by rw [if_pos hleft], hsplit⟩
    · exact .inr ⟨by rw [if_neg hleft], _, fun hnil => hleft (by rw [hnil]; rfl), hsplit⟩
  self_delimiting := blockStream_self_delimiting

/-- Two writes, and a close that drains them. -/
theorem bzWriter_drains_iff_letters :
    ∃ rets s t, Yields (bzWrites oneBlock collecting.toSink [[1, 2], [3]]
        (bzWopen ⟨[], none⟩ [])) (rets, s) ∧
      Yields (bzWclose oneBlock collecting.toSink s) t ∧
      (oneBlock.call s.strm .finish [] s.availOut).code = bzStreamEnd ∧
      collecting.received t.child = collecting.received [] ++ blockStream [1, 2, 3] := by
  obtain ⟨s₀, _, hs₀, hpump, _⟩ :=
    bzRun_spec oneBlock_protocol collecting ⟨[], none⟩ [] ⟨rfl, rfl⟩ [[1, 2], [3]]
  obtain ⟨rets, s, t, hs, ht, hdrains⟩ := bzWriter_drains_iff oneBlock blockStream oneBlockAt
    (Stored.held blockStream) oneBlock_protocol collecting ⟨[], none⟩ [] ⟨rfl, rfl⟩ [[1, 2], [3]]
  obtain rfl : s₀ = s := congrArg Prod.snd (hs₀.unique hs)
  have hcode : (oneBlock.call s₀.strm .finish [] s₀.availOut).code = bzStreamEnd := by
    obtain ⟨out, ⟨hstrm, rfl⟩, hemitted⟩ := hpump.emitted
    have hempty : s₀.outbuff = [] := (List.append_eq_nil_iff.mp hemitted).2
    rw [hstrm, State.availOut, hempty]
    decide
  exact ⟨rets, s₀, t, hs, ht, hcode, hdrains.mpr ⟨by decide, hcode⟩⟩

/-- Half a buffer of bytes, whose compressed stream does not fit in `outbuff`. -/
def largeBlock : List Byte := List.replicate (2 ^ 19) 0

/-- A stream that does not fit in what is left of `outbuff` is cut off. -/
theorem bzWriter_truncates :
    BzProtocol oneBlock blockStream oneBlockAt (Stored.held blockStream) ∧
    ∃ rets s t, Yields (bzWrites oneBlock collecting.toSink [largeBlock]
        (bzWopen ⟨[], none⟩ [])) (rets, s) ∧
      Yields (bzWclose oneBlock collecting.toSink s) t ∧
      collecting.received t.child ≠ collecting.received [] ++ blockStream [largeBlock].flatten := by
  refine ⟨oneBlock_protocol, ?_⟩
  obtain ⟨s, t, hs, hpump, ht, hend⟩ :=
    bzRun_spec oneBlock_protocol collecting ⟨[], none⟩ [] ⟨rfl, rfl⟩ [largeBlock]
  refine ⟨_, s, t, hs, ht, fun heq => ?_⟩
  have hlength : largeBlock.length = 2 ^ 19 := List.length_replicate
  have htaken : ([largeBlock].flatMap fun b => b.take (cUInt b.length)) = largeBlock := by
    have : largeBlock.length < 2 ^ 32 := by rw [hlength]; decide
    rw [flatMap_take_cUInt.mpr (by simpa using this)]
    simp
  rw [htaken] at hpump hend
  obtain ⟨out, ⟨hstrm, rfl⟩, -⟩ := hpump.emitted
  rcases hend with ⟨hcode, -⟩ | ⟨-, more, hne, hreceived⟩
  · -- the one call cannot have come to the end of a stream of more than 1 MiB
    have hstream : 2 ^ 20 < (blockStream largeBlock).length := by
      obtain ⟨b, bs, hcons⟩ : ∃ b bs, largeBlock = b :: bs :=
        List.exists_cons_of_length_pos (by rw [hlength]; decide)
      have : (blockStream largeBlock).length = 10 + (2 * 2 ^ 19 + 1) := by
        rw [← hlength, ← length_escape, hcons]
        simp [blockStream, bzHeader]
        omega
      omega
    have hroom : s.availOut ≤ 2 ^ 20 := Nat.sub_le _ _
    rw [hstrm, oneBlock, storing_end (by decide)] at hcode
    simp only [Option.getD_none, List.length_drop] at hcode
    rw [if_neg (by omega)] at hcode
    exact absurd hcode (by decide)
  · rw [heq, List.append_assoc, List.append_cancel_left_eq, List.flatten_singleton] at hreceived
    have := congrArg List.length hreceived
    rw [List.length_append] at this
    exact hne (List.eq_nil_of_length_eq_zero (by omega))

end Wandio.StreamWriter
