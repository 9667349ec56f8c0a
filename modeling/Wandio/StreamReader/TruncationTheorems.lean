import Wandio.StreamReader.MemberTheorems

/-!
# Files that end too early

The zlib reader tells a file that ends behind a member from one that ends inside of it by
`sincelastend`, the number of bytes it has read from its parent since the last end of a
member. That is not the number of bytes the decoder has been given since: what has come in
the same chunk as the end of a member is not counted.
-/

namespace Wandio.StreamReader

open Codec Loop

variable {κ σ : Type*}

/-! ## What is counted -/

/-- What the parent has still to return as soon as that is `n` bytes or fewer, when it is read
in pieces of `WANDIO_BUFFER_SIZE` bytes. -/
def unreadAt (parent : ByteSource σ) (n : ℕ) : ℕ → σ → ℕ
  | 0, c => (parent.content c).length
  | fuel + 1, c =>
    if (parent.content c).length ≤ n then (parent.content c).length
    else unreadAt parent n fuel (parent.read c wandioBufferSize).2

/-- `sincelastend` at the end of a file of `members` complete members and `n` bytes more. -/
def countAtEof (parent : ByteSource σ) (members n : ℕ) (c : σ) : ℕ :=
  ((if members = 0 then 1 else 0) + unreadAt parent n (parent.content c).length c) % 2 ^ 64

section Unread

variable {parent : ByteSource σ} {n : ℕ} {c : σ}

theorem unreadAt_of_le (fuel : ℕ) (h : (parent.content c).length ≤ n) :
    unreadAt parent n fuel c = (parent.content c).length := by
  cases fuel with
  | zero => rfl
  | succ fuel => exact if_pos h

theorem length_content_read (parent : ByteSource σ) {c : σ} (h : 0 < (parent.content c).length) :
    (parent.content (parent.read c wandioBufferSize).2).length < (parent.content c).length := by
  obtain ⟨data, t, hread, _, hcontent, hend⟩ := exists_chunk parent c
  have hdata : 0 < data.length := by
    apply List.length_pos_iff.mpr
    intro hnil
    rw [hend hnil, List.length_nil] at h
    omega
  rw [hread, hcontent, List.length_append]
  exact Nat.lt_add_of_pos_left hdata

/-- Enough turns are enough. -/
theorem unreadAt_fuel {fuel more : ℕ} (h : (parent.content c).length ≤ fuel)
    (h' : (parent.content c).length ≤ more) :
    unreadAt parent n fuel c = unreadAt parent n more c := by
  induction fuel generalizing c more with
  | zero => rw [unreadAt_of_le _ (by omega), unreadAt_of_le _ (by omega)]
  | succ fuel ih =>
    by_cases hle : (parent.content c).length ≤ n
    · rw [unreadAt_of_le _ hle, unreadAt_of_le _ hle]
    · obtain ⟨m, rfl⟩ : ∃ m, more = m + 1 := ⟨more - 1, by omega⟩
      have hlt := length_content_read parent (c := c) (by omega)
      rw [unreadAt, unreadAt, if_neg hle, if_neg hle]
      exact ih (by omega) (by omega)

/-- A read with more than `n` bytes left. -/
theorem unreadAt_read (h : n < (parent.content c).length) :
    unreadAt parent n (parent.content (parent.read c wandioBufferSize).2).length
        (parent.read c wandioBufferSize).2 =
      unreadAt parent n (parent.content c).length c := by
  have hlt := length_content_read parent (c := c) (by omega)
  obtain ⟨m, hm⟩ : ∃ m, (parent.content c).length = m + 1 :=
    ⟨(parent.content c).length - 1, by omega⟩
  rw [hm, unreadAt, if_neg (by omega)]
  exact unreadAt_fuel le_rfl (by omega)

end Unread

/-! ## Where the reader is -/

/-- The reader is inside of a complete member, or behind the last one; then the decoder has
`rest` still to come behind the bytes of the file. At most `left` bytes can be decoded, and
`sincelastend` will be `count` at the end of the file. -/
inductive Nearing (Member : List Byte → List Byte → Prop) (At : κ → List Byte → List Byte → Prop)
    (parent : ByteSource σ) (part rest c : List Byte) (count left : ℕ) (s : State κ σ) : Prop where
  | within (todo out : List Byte) (members : List (List Byte × List Byte))
      (hall : ∀ p ∈ members, Member p.1 p.2) (hat : At s.strm todo out)
      (hbytes : bytesLeft parent s = todo ++ (members.flatMap Prod.fst ++ part))
      (hcount : unreadAt parent part.length (parent.content s.parent).length s.parent % 2 ^ 64 =
        count)
      (hleft : out.length + (members.flatMap Prod.snd).length + c.length ≤ left)
  | behind (todo out : List Byte) (hat : todo ≠ [] → At s.strm (todo ++ rest) out)
      (hbytes : bytesLeft parent s = todo)
      (hcount : (s.sincelastend + (parent.content s.parent).length) % 2 ^ 64 = count)
      (hlt : s.sincelastend < 2 ^ 64) (hleft : out.length ≤ left)

/-- In a read of `len` bytes. -/
structure Inflating (Member : List Byte → List Byte → Prop)
    (At : κ → List Byte → List Byte → Prop) (parent : ByteSource σ) (part rest c : List Byte)
    (count left len : ℕ) (s : State κ σ) : Prop where
  err : s.err = .ok
  room : s.availOut + s.out.length = cUInt len
  place : ∃ n, Nearing Member At parent part rest c count n s ∧ s.out.length + n ≤ left

/-- How a read ends: with bytes, or for good with the answer that `count` gives. -/
def Ended (Member : List Byte → List Byte → Prop) (At : κ → List Byte → List Byte → Prop)
    (parent : ByteSource σ) (part rest c : List Byte) (count left : ℕ)
    (q : ReadResult × State κ σ) : Prop :=
  (0 < q.1.ret ∧ q.2.err = .ok ∧
      ∃ n, n < left ∧ Nearing Member At parent part rest c count n q.2) ∨
    (q.1.ret = (if 0 < count then -1 else 0) ∧ q.2.err ≠ .ok)

section Read

variable {d : Decoder κ Byte} {Member : List Byte → List Byte → Prop}
  {At : κ → List Byte → List Byte → Prop} {parent : ByteSource σ} {part rest c : List Byte}
  {count left len : ℕ} {s : State κ σ}

/-- The complete members have all been decoded when the parent has nothing left. -/
theorem Nearing.count_of_nil (hd : MemberDecoder d 0 1 Member At)
    (h : Nearing Member At parent part rest c count left s) (hnil : bytesLeft parent s = []) :
    s.sincelastend = count := by
  cases h with
  | within todo out members hall hat hbytes hcount hleft =>
    rw [hnil, eq_comm, List.append_eq_nil_iff] at hbytes
    exact absurd hbytes.1 (hd.todo_ne_nil _ _ _ hat)
  | behind todo out hat hbytes hcount hlt hleft =>
    have hcontent : parent.content s.parent = [] := (List.append_eq_nil_iff.mp hnil).2
    rw [hcontent, List.length_nil, Nat.add_zero, Nat.mod_eq_of_lt hlt] at hcount
    exact hcount

/-- The parent has returned `data`. -/
theorem Nearing.fill (hd : MemberDecoder d 0 1 Member At)
    (h : Nearing Member At parent part rest c count left s) (hin : s.nextIn = [])
    {data : List Byte} {p : σ}
    (hread : parent.read s.parent wandioBufferSize = (⟨data.length, data⟩, p))
    (hcontent : parent.content s.parent = data ++ parent.content p) :
    Nearing Member At parent part rest c count left
      { s with
        parent := p
        nextIn := data
        sincelastend := (s.sincelastend + data.length) % 2 ^ 64 } := by
  have hsame : bytesLeft parent s = data ++ parent.content p := by
    rw [bytesLeft, hin, hcontent, List.nil_append]
  cases h with
  | within todo out members hall hat hbytes hcount hleft =>
    refine .within todo out members hall hat (hsame.symm.trans hbytes) ?_ hleft
    -- a byte of the member is left, so this is not yet the read to look for
    have hmore : part.length < (parent.content s.parent).length := by
      have hpos := List.length_pos_iff.mpr (hd.todo_ne_nil _ _ _ hat)
      have hlen := congrArg List.length hbytes
      rw [bytesLeft, hin] at hlen
      simp only [List.length_append, List.length_nil] at hlen
      omega
    have hsecond := unreadAt_read hmore
    rw [hread] at hsecond
    rw [← hcount, ← hsecond]
  | behind todo out hat hbytes hcount hlt hleft =>
    refine .behind todo out hat (hsame.symm.trans hbytes) ?_ (Nat.mod_lt _ (by decide)) hleft
    rw [← hcount, hcontent, List.length_append, Nat.mod_add_mod, Nat.add_assoc]

/-- A turn that fills `inbuff`. -/
theorem fillTurn_nearing (hd : MemberDecoder d 0 1 Member At)
    (h : Inflating Member At parent part rest c count left len s) (hin : s.nextIn = []) :
    (∃ t, fillTurn zlibFormat parent.toSource len s = .next t ∧
        Inflating Member At parent part rest c count left len t ∧
        workLeft parent t < workLeft parent s) ∨
      (∃ q, fillTurn zlibFormat parent.toSource len s = .done q ∧
        Ended Member At parent part rest c count left q) := by
  obtain ⟨n, hplace, hn⟩ := h.place
  have hroom := h.room
  have hmod : cUInt len ≤ len := Nat.mod_le _ _
  obtain ⟨data, p, hread, hint, hcontent, hend⟩ := exists_chunk parent s.parent
  have hfill := hplace.fill hd hin hread hcontent
  unfold fillTurn
  simp only [hread, hint]
  split
  · next hzero =>
    -- the end of the file
    right
    have hnil : data = [] := List.eq_nil_of_length_eq_zero (by omega)
    have hbytes : bytesLeft parent s = [] := by rw [bytesLeft, hin, hend hnil]; rfl
    have hcount := hplace.count_of_nil hd hbytes
    simp only [zlibFormat, hcount]
    by_cases hpos : 0 < count
    · rw [if_pos hpos]
      refine ⟨_, rfl, .inr ⟨(if_pos hpos).symm, ?_⟩⟩
      show ErrT.error ≠ .ok
      decide
    · rw [if_neg hpos]
      by_cases hfirst : s.availOut = cUInt len
      · rw [if_pos hfirst]
        refine ⟨_, rfl, .inr ⟨(if_neg hpos).symm, ?_⟩⟩
        show ErrT.eof ≠ .ok
        decide
      · -- what has been decoded is returned first
        rw [if_neg hfirst]
        refine ⟨_, rfl, .inl ⟨?_, h.err, n, by omega, ?_⟩⟩
        · show 0 < (len : ℤ) - s.availOut
          omega
        · have hzero' : (s.sincelastend + data.length) % 2 ^ 64 = count := by
            rw [hnil, List.length_nil, Nat.add_zero, hcount, Nat.eq_zero_of_not_pos hpos,
              Nat.zero_mod]
          rw [hzero', hnil, ← hin] at hfill
          exact hfill
  · next hne =>
    rw [if_neg (by omega)]
    left
    exact ⟨_, rfl, ⟨h.err, hroom, n, hfill, hn⟩, workLeft_fill hcontent (by omega)⟩

/-- A call of the decoder inside of a complete member. -/
theorem decodeTurn_within (hd : MemberDecoder d 0 1 Member At)
    (hpart : part ≠ [] → Member (part ++ rest) c) (hok : s.err = .ok) (hin : s.nextIn ≠ [])
    (hout : 0 < s.availOut) {todo out : List Byte} {members : List (List Byte × List Byte)}
    (hall : ∀ p ∈ members, Member p.1 p.2) (hat : At s.strm todo out)
    (hbytes : bytesLeft parent s = todo ++ (members.flatMap Prod.fst ++ part))
    (hcount : unreadAt parent part.length (parent.content s.parent).length s.parent % 2 ^ 64 =
      count)
    (hleft : out.length + (members.flatMap Prod.snd).length + c.length ≤ left) :
    ∃ n, Nearing Member At parent part rest c count n (decodeTurn zlibFormat d s) ∧
      (d.call s.strm () s.nextIn s.availOut).output.length + n ≤ left ∧
      (decodeTurn zlibFormat d s).err = .ok ∧
      (0 < (d.call s.strm () s.nextIn s.availOut).consumed ∨
        (d.call s.strm () s.nextIn s.availOut).output ≠ []) := by
  obtain ⟨htaken, out', hsplit, hcode⟩ := hd.call s.strm todo out s.nextIn
    (members.flatMap Prod.fst ++ part) s.availOut hat hin hout (hbytes ▸ List.prefix_append _ _)
  have hkeeps : (zlibFormat : Format κ σ).KeepsBuffers d := zlib_resumes.keepsBuffers
  have hrest := bytesLeft_decodeTurn hkeeps hok hbytes htaken
  have hparent := (decodeTurn_buffers hkeeps hok).2.2.2
  have hlen := congrArg List.length hsplit
  rw [List.length_append] at hlen
  rcases hcode with ⟨hend, hlast, rfl⟩ | ⟨hgoes, hprogress, hat'⟩
  · -- the member has ended
    have hpos : 0 < todo.length := List.length_pos_iff.mpr (hd.todo_ne_nil _ _ _ hat)
    have hdecode := decodeTurn_end (f := zlibFormat) zlib_resumes.ok_ne hend
    rw [hlast, List.drop_length, List.nil_append] at hrest
    rw [List.length_nil, Nat.add_zero] at hlen
    have hfresh : ∀ m x, Member m x → At (decodeTurn zlibFormat d s).strm m x := by
      intro m x hm
      rw [hdecode]
      exact hd.start _ m x hm
    have herr : (decodeTurn zlibFormat d s).err = .ok := by
      rw [hdecode]
      rfl
    cases members with
    | nil =>
      -- it was the last one
      have hshort : (parent.content s.parent).length ≤ part.length := by
        have hsum := congrArg List.length hrest
        rw [bytesLeft, hparent] at hsum
        simp only [List.length_append, List.flatMap_nil, List.nil_append] at hsum
        omega
      rw [unreadAt_of_le _ hshort] at hcount
      have hsince : (decodeTurn zlibFormat d s).sincelastend = 0 := by
        rw [hdecode]
        rfl
      refine ⟨c.length, .behind part c (fun hne => hfresh _ _ (hpart hne)) hrest ?_ ?_ le_rfl, ?_,
        herr, .inl (by omega)⟩
      · rw [hsince, hparent, Nat.zero_add]
        exact hcount
      · rw [hsince]
        decide
      · rw [List.flatMap_nil, List.length_nil] at hleft
        omega
    | cons p members =>
      refine ⟨p.2.length + (members.flatMap Prod.snd).length + c.length,
        .within p.1 p.2 members (fun q hq => hall q (List.mem_cons_of_mem _ hq))
          (hfresh _ _ (hall p (List.mem_cons_self ..))) ?_ ?_ le_rfl, ?_, herr, .inl (by omega)⟩
      · rw [hrest, List.flatMap_cons, List.append_assoc]
      · rw [hparent]
        exact hcount
      · rw [List.flatMap_cons, List.length_append] at hleft
        omega
  · -- there is more of the member
    have hdecode := decodeTurn_ok (f := zlibFormat) hgoes
    refine ⟨out'.length + (members.flatMap Prod.snd).length + c.length,
      .within _ out' members hall ?_ hrest ?_ le_rfl, by omega, by rw [hdecode], hprogress⟩
    · rw [hdecode]
      exact hat'
    · rw [hparent]
      exact hcount

/-- A call of the decoder behind the complete members. -/
theorem decodeTurn_behind (hd : MemberDecoder d 0 1 Member At) (hrest : rest ≠ [])
    (hok : s.err = .ok) (hin : s.nextIn ≠ []) (hout : 0 < s.availOut) {todo out : List Byte}
    (hat : todo ≠ [] → At s.strm (todo ++ rest) out) (hbytes : bytesLeft parent s = todo)
    (hcount : (s.sincelastend + (parent.content s.parent).length) % 2 ^ 64 = count)
    (hlt : s.sincelastend < 2 ^ 64) (hleft : out.length ≤ left) :
    ∃ n, Nearing Member At parent part rest c count n (decodeTurn zlibFormat d s) ∧
      (d.call s.strm () s.nextIn s.availOut).output.length + n ≤ left ∧
      (decodeTurn zlibFormat d s).err = .ok ∧
      (0 < (d.call s.strm () s.nextIn s.availOut).consumed ∨
        (d.call s.strm () s.nextIn s.availOut).output ≠ []) := by
  have hne : todo ≠ [] := by
    rw [← hbytes, bytesLeft]
    exact fun hnil => hin (List.append_eq_nil_iff.mp hnil).1
  have hprefix : s.nextIn <+: todo ++ rest ++ [] := by
    rw [List.append_nil, ← hbytes, bytesLeft, List.append_assoc]
    exact List.prefix_append _ _
  obtain ⟨htaken, out', hsplit, hcode⟩ := hd.call s.strm (todo ++ rest) out s.nextIn [] s.availOut
    (hat hne) hin hout hprefix
  have hkeeps : (zlibFormat : Format κ σ).KeepsBuffers d := zlib_resumes.keepsBuffers
  have hconsumed := d.consumed_le s.strm () s.nextIn s.availOut
  have hshort : s.nextIn.length ≤ todo.length := by
    rw [← hbytes, bytesLeft, List.length_append]
    omega
  have hlen := congrArg List.length hsplit
  rw [List.length_append] at hlen
  have hpos : 0 < rest.length := List.length_pos_iff.mpr hrest
  -- the member cannot end, as its last bytes are not in the file
  rcases hcode with ⟨_, hlast, _⟩ | ⟨hgoes, hprogress, hat'⟩
  · rw [List.length_append] at hlast
    omega
  · have hdecode := decodeTurn_ok (f := zlibFormat) hgoes
    have hparent := (decodeTurn_buffers hkeeps hok).2.2.2
    have hleft' := bytesLeft_decodeTurn hkeeps hok (hbytes.trans (List.append_nil _).symm)
      (hconsumed.trans hshort)
    have hsince : (decodeTurn zlibFormat d s).sincelastend = s.sincelastend := by
      rw [hdecode]
      rfl
    rw [List.append_nil] at hleft'
    refine ⟨out'.length, .behind _ out' (fun _ => ?_) hleft' ?_ ?_ le_rfl, by omega,
      by rw [hdecode], hprogress⟩
    · rw [hdecode, ← List.drop_append_of_le_length (hconsumed.trans hshort)]
      exact hat'
    · rw [hsince, hparent]
      exact hcount
    · rw [hsince]
      exact hlt

/-- A call of the decoder. -/
theorem decodeTurn_nearing (hd : MemberDecoder d 0 1 Member At)
    (hpart : part ≠ [] → Member (part ++ rest) c) (hrest : rest ≠ [])
    (h : Inflating Member At parent part rest c count left len s) (hin : s.nextIn ≠ [])
    (hout : 0 < s.availOut) :
    Inflating Member At parent part rest c count left len (decodeTurn zlibFormat d s) ∧
      workLeft parent (decodeTurn zlibFormat d s) < workLeft parent s := by
  obtain ⟨n, hplace, hn⟩ := h.place
  have hroom := h.room
  have hkeeps : (zlibFormat : Format κ σ).KeepsBuffers d := zlib_resumes.keepsBuffers
  obtain ⟨m, hplace', hm, herr, hprogress⟩ : ∃ m,
      Nearing Member At parent part rest c count m (decodeTurn zlibFormat d s) ∧
        (d.call s.strm () s.nextIn s.availOut).output.length + m ≤ n ∧
        (decodeTurn zlibFormat d s).err = .ok ∧
        (0 < (d.call s.strm () s.nextIn s.availOut).consumed ∨
          (d.call s.strm () s.nextIn s.availOut).output ≠ []) := by
    cases hplace with
    | within todo out members hall hat hbytes hcount hleft =>
      exact decodeTurn_within hd hpart h.err hin hout hall hat hbytes hcount hleft
    | behind todo out hat hbytes hcount hlt hleft =>
      exact decodeTurn_behind hd hrest h.err hin hout hat hbytes hcount hlt hleft
  refine ⟨⟨herr, (decodeTurn_room hkeeps h.err).trans h.room, m, hplace', ?_⟩,
    workLeft_decodeTurn hkeeps h.err hprogress⟩
  rw [(decodeTurn_buffers hkeeps h.err).2.1, afterCall, List.length_append]
  omega

theorem zlibRead_ok (hok : s.err = .ok) :
    zlibRead d parent.toSource len s = fun fuel =>
      loop (readTurn zlibFormat d parent.toSource len) fuel
        { s with availOut := cUInt len, out := [] } := by
  funext fuel
  simp only [zlibRead, read, hok]
  rfl

/-- A read with room for a byte returns. -/
theorem zlibRead_nearing (hd : MemberDecoder d 0 1 Member At)
    (hpart : part ≠ [] → Member (part ++ rest) c) (hrest : rest ≠ []) (hlen : 0 < cUInt len)
    (hok : s.err = .ok) (h : Nearing Member At parent part rest c count left s) :
    ∃ q, Yields (zlibRead d parent.toSource len s) q ∧
      Ended Member At parent part rest c count left q := by
  set s₀ : State κ σ := { s with availOut := cUInt len, out := [] } with hs₀
  have hstart : Inflating Member At parent part rest c count left len s₀ := by
    refine ⟨hok, rfl, left, ?_, by simp [hs₀]⟩
    cases h with
    | within todo out members hall hat hbytes hcount hleft =>
      exact .within todo out members hall hat hbytes hcount hleft
    | behind todo out hat hbytes hcount hlt hleft =>
      exact .behind todo out hat hbytes hcount hlt hleft
  have hmod : cUInt len ≤ len := Nat.mod_le _ _
  rw [zlibRead_ok hok]
  apply loop_total (workLeft parent) (I := Inflating Member At parent part rest c count left len)
    _ _ hstart
  · intro u v hu hv
    obtain ⟨-, ⟨hin, hfill⟩ | ⟨hin, hout, rfl⟩⟩ := readTurn_next hv
    · rcases fillTurn_nearing hd hu hin with ⟨w, hw, hdec⟩ | ⟨q, hq, _⟩
      · rw [hfill] at hw
        cases hw
        exact hdec
      · rw [hfill] at hq
        cases hq
    · exact decodeTurn_nearing hd hpart hrest hu hin hout
  · intro u q hu hq
    obtain ⟨n, hplace, hn⟩ := hu.place
    have hroom := hu.room
    rcases readTurn_done hq with ⟨-, -, hin, hfill⟩ | ⟨hfull, rfl⟩
    · rcases fillTurn_nearing hd hu hin with ⟨w, hw, _⟩ | ⟨q', hq', hended⟩
      · rw [hfill] at hw
        cases hw
      · rw [hfill] at hq'
        cases hq'
        exact hended
    · -- the loop is left with a full buffer
      have hfull := hfull hu.err
      refine .inl ⟨?_, hu.err, n, by omega, hplace⟩
      simp only
      omega

end Read

/-! ## Runs -/

/-- The entry `e` is the first of the log with a result of 0 or less. -/
def EndsAt (log : List (ℕ × ReadResult)) (e : ℕ × ReadResult) : Prop :=
  ∃ before after, log = before ++ e :: after ∧ (∀ b ∈ before, 0 < b.2.ret) ∧ e.2.ret ≤ 0

theorem exists_endsAt {log : List (ℕ × ReadResult)} (h : ∃ e ∈ log, e.2.ret ≤ 0) :
    ∃ e, EndsAt log e := by
  have hfind : (log.find? fun e => e.2.ret ≤ 0).isSome := by
    rw [List.find?_isSome]
    simpa using h
  obtain ⟨e, he⟩ := Option.isSome_iff_exists.mp hfind
  obtain ⟨hret, before, after, hlog, hbefore⟩ := List.find?_eq_some_iff_append.mp he
  refine ⟨e, before, after, hlog, fun b hb => ?_, by simpa using hret⟩
  have := hbefore b hb
  simpa using this

section Run

variable {d : Decoder κ Byte} {Member : List Byte → List Byte → Prop}
  {At : κ → List Byte → List Byte → Prop} {parent : ByteSource σ} {part rest c : List Byte}
  {count left : ℕ} {s : State κ σ}

/-- What a run of the reader keeps: the reads so far are right, and the reader is on its way,
with fewer bytes to come after each read with room for a byte, or it has stopped. -/
structure Running (Member : List Byte → List Byte → Prop)
    (At : κ → List Byte → List Byte → Prop) (parent : ByteSource σ) (part rest c : List Byte)
    (count left : ℕ) (log : List (ℕ × ReadResult)) (s : State κ σ) : Prop where
  reads : Each (fun before e => (∀ b ∈ before, 0 < b.2.ret) → e.2.ret ≤ 0 →
    e.2.ret = if e.1 ≠ 0 ∧ 0 < count then -1 else 0) log
  place : (s.err = .ok ∧ ∃ n, Nearing Member At parent part rest c count n s ∧
      log.countP (fun e => 0 < cUInt e.1) + n ≤ left) ∨
    (s.err ≠ .ok ∧ ∃ e ∈ log, e.2.ret ≤ 0)

/-- A read without room, as the reader counts it, leaves everything as it is. -/
theorem zlibRead_no_room {len : ℕ} (hlen : cUInt len = 0) (hok : s.err = .ok) :
    Yields (zlibRead d parent.toSource len s) (⟨len, []⟩, { s with availOut := 0, out := [] }) := by
  rw [zlibRead_ok hok, hlen]
  apply Yields.done
  rw [readTurn, if_neg fun h => Nat.lt_irrefl 0 h.2]
  simp

theorem Running.call (hd : MemberDecoder d 0 1 Member At)
    (hpart : part ≠ [] → Member (part ++ rest) c) (hrest : rest ≠ [])
    {log : List (ℕ × ReadResult)} (h : Running Member At parent part rest c count left log s)
    (len : ℕ) :
    ∃ q, Yields (zlibRead d parent.toSource len s) q ∧
      Running Member At parent part rest c count left (log ++ [(len, q.1)]) q.2 := by
  rcases h.place with ⟨hok, n, hplace, hn⟩ | ⟨herr, hstop⟩
  · by_cases hlen : cUInt len = 0
    · refine ⟨_, zlibRead_no_room hlen hok, h.reads.append fun _ hret => ?_, .inl ⟨hok, n, ?_, ?_⟩⟩
      · have hzero : len = 0 := by
          simp only at hret
          omega
        rw [hzero, if_neg fun hne => hne.1 rfl]
        rfl
      · cases hplace with
        | within todo out members hall hat hbytes hcount hleft =>
          exact .within todo out members hall hat hbytes hcount hleft
        | behind todo out hat hbytes hcount hlt hleft =>
          exact .behind todo out hat hbytes hcount hlt hleft
      · rw [List.countP_append, List.countP_singleton, hlen]
        simpa using hn
    · have hpos : 0 < cUInt len := Nat.pos_of_ne_zero hlen
      obtain ⟨q, hq, hended⟩ := zlibRead_nearing hd hpart hrest hpos hok hplace
      refine ⟨q, hq, ?_⟩
      rcases hended with ⟨hret, hok', m, hm, hplace'⟩ | ⟨hret, herr⟩
      · refine ⟨h.reads.append fun _ hle => ?_, .inl ⟨hok', m, hplace', ?_⟩⟩
        · simp only at hle
          omega
        · rw [List.countP_append, List.countP_singleton]
          simp only [hpos, decide_true, if_true]
          omega
      · have hne : len ≠ 0 := by
          rintro rfl
          exact hlen rfl
        refine ⟨h.reads.append fun _ _ => ?_, .inr ⟨herr, (len, q.1), by simp, ?_⟩⟩
        · simp only [hret, ne_eq, hne, not_false_eq_true, true_and]
        · simp only [hret]
          split <;> decide
  · -- the reader has stopped
    obtain ⟨e, he, hret⟩ := hstop
    have hlog : ∀ r : ReadResult, Each (fun before e => (∀ b ∈ before, 0 < b.2.ret) →
        e.2.ret ≤ 0 → e.2.ret = if e.1 ≠ 0 ∧ 0 < count then -1 else 0) (log ++ [(len, r)]) := by
      intro r
      refine h.reads.append fun hall _ => ?_
      have := hall e he
      omega
    have hstay : ∃ e ∈ log, e.2.ret ≤ 0 := ⟨e, he, hret⟩
    cases hs : s.err with
    | ok => exact absurd hs herr
    | eof =>
      refine ⟨(⟨0, []⟩, s), ⟨0, fun fuel _ => by simp only [zlibRead, read, hs]⟩, hlog _,
        .inr ⟨herr, ?_⟩⟩
      exact ⟨e, List.mem_append_left _ he, hret⟩
    | error =>
      refine ⟨(⟨-1, []⟩, s), ⟨0, fun fuel _ => by simp only [zlibRead, read, hs]⟩, hlog _,
        .inr ⟨herr, ?_⟩⟩
      exact ⟨e, List.mem_append_left _ he, hret⟩

/-- Every sequence of reads returns, and it ends as `count` says. -/
theorem Nearing.run (hd : MemberDecoder d 0 1 Member At)
    (hpart : part ≠ [] → Member (part ++ rest) c) (hrest : rest ≠ []) (hok : s.err = .ok)
    (h : Nearing Member At parent part rest c count left s) (lens : List ℕ) :
    ∃ log t,
      Yields (fun fuel => runCalls (fun len s => zlibRead d parent.toSource len s fuel) lens s)
        (log, t) ∧
      log.map Prod.fst = lens ∧
      (∀ e, EndsAt log e → e.2.ret = if e.1 ≠ 0 ∧ 0 < count then -1 else 0) ∧
      ((∀ len ∈ lens, 0 < cUInt len) → left < lens.length → ∃ e, EndsAt log e) := by
  obtain ⟨⟨log, t⟩, hrun, hreading, hlens⟩ := runCalls_total
    (I := Running Member At parent part rest c count left)
    (fun log len s _ hs => hs.call hd hpart hrest len) []
    ⟨Each.nil, .inl ⟨hok, left, h, by simp⟩⟩
  rw [List.nil_append] at hreading
  refine ⟨log, t, hrun, hlens, ?_, ?_⟩
  · rintro e ⟨before, after, hlog, hbefore, hret⟩
    exact hreading.reads before e after hlog hbefore hret
  · intro hroom hlong
    apply exists_endsAt
    rcases hreading.place with ⟨_, n, _, hn⟩ | ⟨_, hstop⟩
    · -- each read has returned a byte, and there are too many reads
      have hall : log.countP (fun e => 0 < cUInt e.1) = log.length := by
        rw [List.countP_eq_length]
        intro e he
        simpa using hroom e.1 (hlens ▸ List.mem_map_of_mem he)
      have hlen : log.length = lens.length := by rw [← hlens, List.length_map]
      rw [hall] at hn
      omega
    · exact hstop

end Run

/-- The reader over a file that ends inside of a member. -/
theorem Nearing.start {d : Decoder κ Byte} {Member : List Byte → List Byte → Prop}
    {At : κ → List Byte → List Byte → Prop} (hd : MemberDecoder d 0 1 Member At)
    (parent : ByteSource σ) {part rest c : List Byte} (hpart : part ≠ [] → Member (part ++ rest) c)
    {members : List (List Byte × List Byte)} (hall : ∀ p ∈ members, Member p.1 p.2) (k : κ) (s : σ)
    (hfile : parent.content s = members.flatMap Prod.fst ++ part) :
    Nearing Member At parent part rest c (countAtEof parent members.length part.length s)
      ((members.flatMap Prod.snd).length + c.length) (zlibOpen (d.reset k) s) := by
  cases members with
  | nil =>
    have hlen : (parent.content s).length ≤ part.length := by rw [hfile]; exact le_rfl
    refine .behind part c (fun hne => hd.start _ _ _ (hpart hne)) hfile ?_ ?_ (by simp)
    · show (1 + (parent.content s).length) % 2 ^ 64 = _
      rw [countAtEof, unreadAt_of_le _ hlen]
      rfl
    · show 1 < 2 ^ 64
      decide
  | cons p members =>
    refine .within p.1 p.2 members (fun q hq => hall q (List.mem_cons_of_mem _ hq))
      (hd.start _ _ _ (hall p (List.mem_cons_self ..))) ?_ ?_ ?_
    · show [] ++ parent.content s = _
      rw [hfile, List.flatMap_cons, List.nil_append, List.append_assoc]
    · rw [countAtEof, List.length_cons, if_neg (Nat.succ_ne_zero _), Nat.zero_add]
      rfl
    · rw [List.flatMap_cons, List.length_append]

/-- The last member of a file ends in the last chunk, and nothing is counted behind it. -/
theorem countAtEof_complete (parent : ByteSource σ) {n : ℕ} (hn : n ≠ 0) (s : σ) :
    countAtEof parent n 0 s = 0 := by
  have hzero : ∀ fuel c, (parent.content c).length ≤ fuel → unreadAt parent 0 fuel c = 0 := by
    intro fuel
    induction fuel with
    | zero =>
      intro c hc
      exact Nat.le_zero.mp hc
    | succ fuel ih =>
      intro c hc
      by_cases hle : (parent.content c).length ≤ 0
      · rw [unreadAt_of_le _ hle]
        exact Nat.le_zero.mp hle
      · have hlt := length_content_read parent (c := c) (by omega)
        rw [unreadAt, if_neg hle]
        exact ih _ (by omega)
  rw [countAtEof, if_neg hn, hzero _ _ le_rfl]
  rfl

/-- The zlib reader over a file of complete members that ends inside of one more: every
sequence of reads returns and comes to a result of 0 or less, and the first such result is -1
exactly if the read asks for at least a byte and the parent returns a byte of those behind the
complete members in a chunk that begins there. Over a file of complete members it is 0. -/
theorem truncation_detected_iff (d : Decoder κ Byte) (Member : List Byte → List Byte → Prop)
    (At : κ → List Byte → List Byte → Prop) (hd : MemberDecoder d 0 1 Member At)
    (parent : ByteSource σ) (members : List (List Byte × List Byte))
    (hall : ∀ p ∈ members, Member p.1 p.2) (k : κ) (s : σ) (lens : List ℕ) :
    (∀ part rest c, Member (part ++ rest) c → part ≠ [] → rest ≠ [] →
      parent.content s = members.flatMap Prod.fst ++ part →
      ∃ log t,
        Yields (fun fuel => runCalls (fun len s => zlibRead d parent.toSource len s fuel) lens
          (zlibOpen (d.reset k) s)) (log, t) ∧
        log.map Prod.fst = lens ∧
        (∀ e, EndsAt log e →
          (e.2.ret = -1 ↔ 0 < e.1 ∧ 0 < countAtEof parent members.length part.length s)) ∧
        ((∀ len ∈ lens, 0 < cUInt len) →
          (members.flatMap Prod.snd).length + c.length < lens.length → ∃ e, EndsAt log e)) ∧
    (members ≠ [] → parent.content s = members.flatMap Prod.fst →
      ∃ log t,
        Yields (fun fuel => runCalls (fun len s => zlibRead d parent.toSource len s fuel) lens
          (zlibOpen (d.reset k) s)) (log, t) ∧
        log.map Prod.fst = lens ∧
        (∀ e, EndsAt log e → e.2.ret = 0) ∧
        ((∀ len ∈ lens, 0 < cUInt len) →
          (members.flatMap Prod.snd).length < lens.length → ∃ e, EndsAt log e)) := by
  constructor
  · intro part rest c hmember hpart hrest hfile
    have hstart := Nearing.start hd parent (fun _ => hmember) hall k s hfile
    obtain ⟨log, t, hrun, hlens, hend, hlong⟩ := hstart.run hd (fun _ => hmember) hrest rfl lens
    refine ⟨log, t, hrun, hlens, fun e he => ?_, hlong⟩
    rw [hend e he]
    split
    · next h => exact iff_of_true rfl ⟨Nat.pos_of_ne_zero h.1, h.2⟩
    · next h => exact iff_of_false (by decide) fun h' => h ⟨h'.1.ne', h'.2⟩
  · intro hne hfile
    have hnone : ([] : List Byte) ≠ [] → Member ([] ++ [0]) [] := fun h => absurd rfl h
    have hstart := Nearing.start hd parent hnone hall k s
      (by rw [hfile, List.append_nil])
    obtain ⟨log, t, hrun, hlens, hend, hlong⟩ := hstart.run hd hnone (List.cons_ne_nil _ _) rfl lens
    refine ⟨log, t, hrun, hlens, fun e he => ?_, hlong⟩
    have hlength : members.length ≠ 0 := fun h => hne (List.eq_nil_of_length_eq_zero h)
    rw [hend e he, List.length_nil, countAtEof_complete parent hlength, if_neg]
    exact fun h => Nat.lt_irrefl 0 h.2

/-- One member, and one more that is cut off in a chunk of its own. -/
theorem truncation_detected_iff_letter : ∃ log t,
    Yields (fun fuel => runCalls
      (fun len s => zlibRead (oneMember gzMember [0x61] 0 1) chunked.toSource len s fuel)
      [10, 10, 10]
      (zlibOpen (gzMember, [0x61]) (gzMember ++ gzMember.take 5, [21]))) (log, t) ∧
    log.map Prod.fst = [10, 10, 10] ∧ ∃ e, EndsAt log e ∧ e.2.ret = -1 := by
  obtain ⟨hcut, _⟩ := truncation_detected_iff (oneMember gzMember [0x61] 0 1) _ _
    (oneMember_decoder (by decide) 0 1) chunked [(gzMember, [0x61])] (by simp) ([], [])
    (gzMember ++ gzMember.take 5, [21]) [10, 10, 10]
  obtain ⟨log, t, hrun, hlens, hend, hlong⟩ := hcut (gzMember.take 5) (gzMember.drop 5) [0x61]
    ⟨List.take_append_drop 5 gzMember, rfl⟩ (by decide) (by decide) rfl
  obtain ⟨e, he⟩ := hlong (by decide) (by decide)
  have hpos : 0 < e.1 := by
    obtain ⟨before, after, hlog, _⟩ := he
    have hmem : e.1 ∈ log.map Prod.fst := List.mem_map_of_mem (by rw [hlog]; simp)
    rw [hlens] at hmem
    simp at hmem
    omega
  exact ⟨log, t, hrun, hlens, e, he, (hend e he).mpr ⟨hpos, by decide⟩⟩

/-- One member and a part of another in one chunk: the reader returns the first member's
contents and then 0. -/
theorem truncation_missed : ∃ log t,
    Yields (fun fuel => runCalls
      (fun len s => zlibRead (oneMember gzMember [0x61] 0 1) chunked.toSource len s fuel) [10, 10]
      (zlibOpen (gzMember, [0x61]) (gzMember ++ gzMember.take 5, []))) (log, t) ∧
    EndsAt log (10, ⟨0, []⟩) := by
  refine ⟨[(10, ⟨1, [0x61]⟩), (10, ⟨0, []⟩)],
    ⟨(gzMember.drop 5, [0x61]), [], [], 10, ([], []), .eof, 0⟩, ⟨6, fun fuel hfuel => ?_⟩,
    [(10, ⟨1, [0x61]⟩)], [], rfl, by decide, le_rfl⟩
  obtain ⟨m, rfl⟩ : ∃ m, fuel = m + 6 := ⟨fuel - 6, by omega⟩
  rfl

end Wandio.StreamReader
