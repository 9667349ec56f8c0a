import Wandio.StreamReader.MemberTheorems

/-!
# Streams one behind the other, for lzma

At the end of a stream the zlib and the bzip2 reader go on with what is left of their input;
`lzma_read` takes the end of the first stream for the end of the file. What it returns is the
contents of this stream, whatever follows.
-/

namespace Wandio.StreamReader

open Codec Loop

variable {κ σ : Type*}

section First

variable {d : Decoder κ Byte} {Member : List Byte → List Byte → Prop}
  {At : κ → List Byte → List Byte → Prop} {parent : ByteSource σ}
  {rest all given left : List Byte} {len : ℕ} {s t : State κ σ}

/-- The reader is inside the first stream of a file, with `rest` behind it, or it has come to
the end of the stream; `left` is what is still to be decoded. -/
inductive InFirst (At : κ → List Byte → List Byte → Prop) (parent : ByteSource σ)
    (rest left : List Byte) (s : State κ σ) : Prop where
  | inside (hok : s.err = .ok) (todo : List Byte) (hat : At s.strm todo left)
      (hbytes : bytesLeft parent s = todo ++ rest)
  | ended (heof : s.err = .eof) (hleft : left = [])

/-- In a read of `len` bytes: `given` has been returned before, `s.out` since the read
began, and the rest of `all` is still to be decoded. -/
structure DecodingFirst (At : κ → List Byte → List Byte → Prop) (parent : ByteSource σ)
    (rest all given : List Byte) (len : ℕ) (s : State κ σ) : Prop where
  room : s.availOut + s.out.length = len
  place : ∃ left, InFirst At parent rest left s ∧ all = given ++ s.out ++ left

/-- With bytes of the stream left the parent has some when `inbuff` is empty. -/
theorem fillTurn_first (hd : MemberDecoder d 0 1 Member At)
    (h : DecodingFirst At parent rest all given len s) (hok : s.err = .ok) (hin : s.nextIn = []) :
    ∃ t, fillTurn lzmaFormat parent.toSource len s = .next t ∧
      DecodingFirst At parent rest all given len t ∧ workLeft parent t < workLeft parent s := by
  obtain ⟨left, hplace, hall⟩ := h.place
  obtain ⟨data, c, hread, hint, hcontent, hend⟩ := exists_chunk parent s.parent
  cases hplace with
  | ended heof => rw [hok] at heof; cases heof
  | inside _ todo hat hbytes =>
    rw [bytesLeft, hin, List.nil_append] at hbytes
    have hpos : 0 < data.length := by
      apply List.length_pos_iff.mpr
      intro hnil
      rw [hend hnil, eq_comm, List.append_eq_nil_iff] at hbytes
      exact hd.todo_ne_nil _ _ _ hat hbytes.1
    refine ⟨{ s with parent := c, nextIn := data }, ?_, ⟨h.room, left, .inside hok todo hat ?_,
      hall⟩, workLeft_fill hcontent hpos⟩
    · unfold fillTurn
      simp only [hread, hint]
      rw [if_neg (by omega), if_neg (by omega)]
      rfl
    · rw [← hbytes, hcontent]
      rfl

theorem lzma_keepsBuffers (d : Decoder κ Byte) : (lzmaFormat : Format κ σ).KeepsBuffers d :=
  fun s _ => ⟨s.strm, .eof, s.sincelastend, rfl⟩

/-- A call of the decoder; at the end of the stream the reader is at its end. -/
theorem decodeTurn_first (hd : MemberDecoder d 0 1 Member At)
    (h : DecodingFirst At parent rest all given len s) (hok : s.err = .ok) (hin : s.nextIn ≠ [])
    (hout : 0 < s.availOut) :
    DecodingFirst At parent rest all given len (decodeTurn lzmaFormat d s) ∧
      workLeft parent (decodeTurn lzmaFormat d s) < workLeft parent s := by
  obtain ⟨left, hplace, hall⟩ := h.place
  have hroom := h.room
  cases hplace with
  | ended heof => rw [hok] at heof; cases heof
  | inside _ todo hat hbytes =>
    obtain ⟨htaken, out', hsplit, hcode⟩ := hd.call s.strm todo left s.nextIn rest s.availOut hat
      hin hout (hbytes ▸ List.prefix_append _ _)
    have hcount := (decodeTurn_room (lzma_keepsBuffers d) hok).trans hroom
    have hgiven : all = given ++ (decodeTurn lzmaFormat d s).out ++ out' := by
      rw [(decodeTurn_buffers (lzma_keepsBuffers d) hok).2.1, afterCall, hall, hsplit]
      simp only [List.append_assoc]
    rcases hcode with ⟨hend, hlast, rfl⟩ | ⟨hgoes, hprogress, hat'⟩
    · have hpos : 0 < todo.length := List.length_pos_iff.mpr (hd.todo_ne_nil _ _ _ hat)
      have hdecode := decodeTurn_end (f := lzmaFormat) (show (0 : ℤ) ≠ 1 by decide) hend
      refine ⟨⟨hcount, [], .ended ?_ rfl, hgiven⟩,
        workLeft_decodeTurn (lzma_keepsBuffers d) hok (.inl (by omega))⟩
      rw [hdecode]
      rfl
    · -- what is left of the stream stands in front of `rest`, as before
      have hdecode := decodeTurn_ok (f := lzmaFormat) hgoes
      have hbytes' := bytesLeft_decodeTurn (lzma_keepsBuffers d) hok hbytes htaken
      refine ⟨⟨hcount, out', .inside ?_ _ ?_ hbytes', hgiven⟩,
        workLeft_decodeTurn (lzma_keepsBuffers d) hok hprogress⟩
      · rw [hdecode]
      · rw [hdecode]
        exact hat'

/-- A read of at least one byte returns a part of what is left of the stream. -/
theorem read_first (hd : MemberDecoder d 0 1 Member At) (hpos : 0 < len)
    (hs : InFirst At parent rest left s) (hall : all = given ++ left) :
    ∃ q, Yields (lzmaRead d parent.toSource len s) q ∧ CallOk all given len q.1 ∧
      ∃ left', InFirst At parent rest left' q.2 ∧ all = given ++ q.1.data ++ left' := by
  cases hs with
  | ended heof hleft =>
    rw [hleft, List.append_nil] at hall
    refine ⟨(⟨0, []⟩, s), ⟨0, fun fuel _ => by simp only [lzmaRead, read, heof]⟩,
      ⟨rfl, Nat.zero_le _, ?_, ?_⟩, [], .ended heof rfl, ?_⟩
    · exact ⟨[], by rw [List.append_nil, List.append_nil, hall]⟩
    · exact ⟨fun _ => hall.symm, fun _ => rfl⟩
    · simp [hall]
  | inside hok todo hat hbytes =>
    set s₀ : State κ σ := { s with availOut := len, out := [] } with hs₀
    have hcall : lzmaRead d parent.toSource len s =
        fun fuel => loop (readTurn lzmaFormat d parent.toSource len) fuel s₀ := by
      funext fuel
      simp only [lzmaRead, read, hok, hs₀]
      rfl
    have hstart : DecodingFirst At parent rest all given len s₀ := by
      refine ⟨?_, left, .inside hok todo hat hbytes, ?_⟩
      · show len + 0 = len
        rw [Nat.add_zero]
      · rw [List.append_nil]
        exact hall
    rw [hcall]
    refine loop_total (workLeft parent) (I := DecodingFirst At parent rest all given len)
      (fun u v hu hv => ?_) (fun u q hu hq => ?_) hstart
    · obtain ⟨hgoes, ⟨hin, hfill⟩ | ⟨hin, hout, rfl⟩⟩ := readTurn_next hv
      · obtain ⟨w, hw, hdec⟩ := fillTurn_first hd hu hgoes hin
        rw [hfill] at hw
        cases hw
        exact hdec
      · exact decodeTurn_first hd hu hgoes hin hout
    · rcases readTurn_done hq with ⟨hgoes, -, hin, hfill⟩ | ⟨hfull, rfl⟩
      · -- a read does not end with `inbuff` empty and more of the stream to come
        obtain ⟨w, hw, _⟩ := fillTurn_first hd hu hgoes hin
        rw [hfill] at hw
        cases hw
      · have hroom := hu.room
        obtain ⟨left', hplace, hgiven⟩ := hu.place
        have hnone : u.out = [] → left' = [] := by
          intro hnil
          cases hplace with
          | ended _ hleft => exact hleft
          | inside hgoes =>
            have hzero := hfull hgoes
            rw [hnil, List.length_nil] at hroom
            omega
        refine ⟨⟨?_, ?_, hgiven ▸ List.prefix_append _ _, ?_, ?_⟩, left', hplace, hgiven⟩
        · simp only
          omega
        · simp only
          omega
        · intro hret
          have hnil : u.out = [] := List.eq_nil_of_length_eq_zero (by simp only at hret; omega)
          rw [hgiven, hnone hnil, hnil, List.append_nil, List.append_nil]
        · intro hgot
          have hlen := congrArg List.length hgiven
          rw [← hgot, List.length_append, List.length_append] at hlen
          simp only
          omega

/-- Over a file that begins with a stream the lzma reader returns the contents of the stream,
and then 0 for ever. -/
theorem lzmaRead_returns (hd : MemberDecoder d 0 1 Member At) {m c : List Byte}
    (hm : Member m c) (k : κ) (p : σ) (hfile : parent.content p = m ++ rest) :
    Returns (lzmaRead d parent.toSource) (lzmaOpen (d.reset k) p) c := by
  intro lens hlens
  -- the invariant of the run: where the reader is, and that all reads so far are right
  have hcall : ∀ (log : List (ℕ × ReadResult)) len s, len ∈ lens →
      ((∃ left, InFirst At parent rest left s ∧ c = delivered log ++ left) ∧
        Each (fun before e => CallOk c (delivered before) e.1 e.2) log) →
      ∃ q, Yields (lzmaRead d parent.toSource len s) q ∧
        ((∃ left, InFirst At parent rest left q.2 ∧
          c = delivered (log ++ [(len, q.1)]) ++ left) ∧
        Each (fun before e => CallOk c (delivered before) e.1 e.2) (log ++ [(len, q.1)])) := by
    rintro log len s hlen ⟨⟨left, hplace, hleft⟩, heach⟩
    obtain ⟨q, hq, hok, left', hplace', hrest⟩ := read_first hd (hlens len hlen).1 hplace hleft
    refine ⟨q, hq, ⟨left', hplace', ?_⟩, heach.append hok⟩
    rw [hrest]
    simp [delivered]
  have hstart : InFirst At parent rest c (lzmaOpen (d.reset k) p) :=
    .inside rfl m (hd.start k m c hm) hfile
  obtain ⟨⟨log, t⟩, hrun, ⟨_, hlog⟩, hlog'⟩ :=
    runCalls_total hcall [] ⟨⟨c, hstart, rfl⟩, Each.nil⟩
  exact ⟨log, t, hrun, hlog', hlog⟩

end First

/-! ## Two answers -/

/-- Reads that all return data return at least a byte each. -/
theorem length_le_delivered {log : List (ℕ × ReadResult)} (h : ∀ e ∈ log, e.2.data ≠ []) :
    log.length ≤ (delivered log).length := by
  induction log with
  | nil => exact Nat.zero_le _
  | cons e log ih =>
    have hrest := ih fun e he => h e (List.mem_cons_of_mem _ he)
    have he := List.length_pos_iff.mpr (h e (List.mem_cons_self ..))
    rw [delivered] at hrest ⊢
    rw [List.flatMap_cons, List.length_append, List.length_cons]
    omega

/-- What a reader returns is one sequence of bytes. -/
theorem Returns.unique {call : ℕ → State κ σ → ℕ → Option (ReadResult × State κ σ)}
    {s : State κ σ} {a b : List Byte} (ha : Returns call s a) (hb : Returns call s b) : a = b := by
  -- one read more than there are bytes in `a`, of a byte each
  set lens := List.replicate (a.length + 1) 1 with hlens
  have hone : ∀ l ∈ lens, 0 < l ∧ l < 2 ^ 32 := by
    intro l hl
    rw [(List.mem_replicate.mp hl).2]
    decide
  obtain ⟨log, t, hrun, hlog, heach⟩ := ha lens hone
  obtain ⟨log', t', hrun', -, heach'⟩ := hb lens hone
  cases hrun.unique hrun'
  have hzero : ∃ e ∈ log, e.2.data = [] := by
    by_contra hne
    have hlen := congrArg List.length hlog
    rw [List.length_map, hlens, List.length_replicate] at hlen
    obtain ⟨before, e, rfl⟩ := List.eq_nil_or_concat' log |>.resolve_left
      fun hnil => by rw [hnil] at hlen; cases hlen
    have hfit := (heach before e [] (by simp)).stream.length_le
    have hall := length_le_delivered fun e he hnil => hne ⟨e, he, hnil⟩
    simp only [delivered, List.flatMap_append, List.flatMap_cons, List.flatMap_nil,
      List.append_nil] at hall hfit
    omega
  obtain ⟨e, he, hnil⟩ := hzero
  obtain ⟨before, after, hsplit⟩ := List.append_of_mem he
  have hok := heach before e after hsplit
  have hok' := heach' before e after hsplit
  have hret : e.2.ret = 0 := by rw [hok.ret, hnil]; rfl
  exact (hok.zero.mp hret).symm.trans (hok'.zero.mp hret)

/-- The lzma reader returns the contents of all streams of a file exactly when nothing but the
first stream has contents. -/
theorem streams_concatenate_iff (xz : Decoder κ Byte) (XzStream : List Byte → List Byte → Prop)
    (XzAt : κ → List Byte → List Byte → Prop) (hxz : MemberDecoder xz 0 1 XzStream XzAt)
    (parent : ByteSource σ) (k : κ) (c : σ) (x : List Byte × List Byte)
    (xs : List (List Byte × List Byte)) (hall : ∀ p ∈ x :: xs, XzStream p.1 p.2)
    (hfile : parent.content c = (x :: xs).flatMap Prod.fst) :
    Returns (lzmaRead xz parent.toSource) (lzmaOpen (xz.reset k) c)
        ((x :: xs).flatMap Prod.snd) ↔ xs.flatMap Prod.snd = [] := by
  have hfirst : Returns (lzmaRead xz parent.toSource) (lzmaOpen (xz.reset k) c) x.2 :=
    lzmaRead_returns hxz (hall x (List.mem_cons_self ..)) k c hfile
  rw [List.flatMap_cons]
  constructor
  · intro h
    exact List.append_right_eq_self.mp (h.unique hfirst)
  · intro hnil
    rw [hnil, List.append_nil]
    exact hfirst

/-- The letter a, compressed by xz. -/
def xzStream : List Byte :=
  [0xfd, 0x37, 0x7a, 0x58, 0x5a, 0, 0, 4, 0xe6, 0xd6, 0xb4, 0x46, 2, 0, 0x21, 1, 0x16, 0, 0, 0,
    0x74, 0x2f, 0xe5, 0xa3, 1, 0, 0, 0x61, 0, 0, 0, 0, 5, 0x2b, 0x65, 0x2e, 0x77, 0x84, 2, 0x33, 0,
    1, 0x19, 1, 0xa5, 0x2c, 0x81, 0xcc, 0x1f, 0xb6, 0xf3, 0x7d, 1, 0, 0, 0, 0, 4, 0x59, 0x5a]

/-- A file of one stream is read to its end. -/
theorem streams_concatenate_letter :
    Returns (lzmaRead (oneMember xzStream [0x61] 0 1) chunked.toSource)
      (lzmaOpen (xzStream, [0x61]) (xzStream, [])) [0x61] :=
  (streams_concatenate_iff _ _ _ (oneMember_decoder (m := xzStream) (c := [0x61]) (by decide) 0 1)
    chunked ([], []) (xzStream, []) (xzStream, [0x61]) [] (by simp) rfl).mpr rfl

/-- A file of two streams of the letter a is read as one a. -/
theorem second_stream_lost :
    ¬ Returns (lzmaRead (oneMember xzStream [0x61] 0 1) chunked.toSource)
      (lzmaOpen (xzStream, [0x61]) (xzStream ++ xzStream, [])) [0x61, 0x61] := by
  intro h
  have hfirst : Returns (lzmaRead (oneMember xzStream [0x61] 0 1) chunked.toSource)
      (lzmaOpen (xzStream, [0x61]) (xzStream ++ xzStream, [])) [0x61] :=
    lzmaRead_returns (oneMember_decoder (by decide) 0 1) ⟨rfl, rfl⟩ ([], []) _ rfl
  exact absurd (h.unique hfirst) (by decide)

end Wandio.StreamReader
