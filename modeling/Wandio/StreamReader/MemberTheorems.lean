import Wandio.StreamReader.Model
import Mathlib.Data.Prod.Lex

/-!
# Members one behind the other

Over a file of several compressed members the zlib and the bzip2 reader return the contents
of the members one behind the other, however the file is cut into chunks and whatever the
lengths of the reads: the decoder is restarted at the end of a member and goes on with the
input it has left in place.
-/

namespace Wandio.StreamReader

open Codec Loop

variable {κ σ : Type*}

/-- A format that restarts the decoder at the end of a member. `quiet` says that nothing has
been read from the parent since the last end, as far as the reader knows. -/
structure Format.Resumes (f : Format κ σ) (quiet : State κ σ → Prop) : Prop where
  availOut : ∀ len, len < 2 ^ 32 → f.availOut len = len
  ok_ne : f.ok ≠ f.streamEnd
  atInput : ∀ n s, ∃ m, f.atInput n s = { s with sincelastend := m }
  atEof : ∀ len s, len < 2 ^ 32 → s.err = .ok → quiet s →
    (f.atEof len s).1 = len - s.availOut ∧
      ((f.atEof len s).2 = s ∨ (f.atEof len s).2 = { s with err := .eof })
  atEnd : ∀ d s, s.err = .ok →
    quiet (f.atEnd d s) ∧ ∃ m, f.atEnd d s = { s with strm := d.reset s.strm, sincelastend := m }
  quiet_congr : ∀ s t, t.sincelastend = s.sincelastend → quiet s → quiet t

theorem zlib_resumes : (zlibFormat : Format κ σ).Resumes fun s => s.sincelastend = 0 where
  availOut len h := cUInt_of_lt h
  ok_ne := show (0 : ℤ) ≠ 1 by decide
  atInput n s := ⟨_, rfl⟩
  atEof len s h _ hquiet := by
    simp only [zlibFormat, hquiet, Nat.lt_irrefl, if_false, cUInt_of_lt h]
    split
    · next heq => exact ⟨by simp only [heq]; omega, .inr rfl⟩
    · exact ⟨rfl, .inl rfl⟩
  atEnd d s hok := ⟨rfl, 0, by simp only [zlibFormat, hok]⟩
  quiet_congr s t h hs := h.trans hs

theorem bz_resumes : (bzFormat : Format κ σ).Resumes fun _ => True where
  availOut len h := cUInt_of_lt h
  ok_ne := show (0 : ℤ) ≠ 4 by decide
  atInput n s := ⟨s.sincelastend, rfl⟩
  atEof len s _ _ _ := ⟨rfl, .inl rfl⟩
  atEnd d s _ := ⟨trivial, s.sincelastend, rfl⟩
  quiet_congr _ _ _ _ := trivial

/-! ## Where a reader is in the file -/

section Position

variable (d : Decoder κ Byte) (Member : List Byte → List Byte → Prop)
  (At : κ → List Byte → List Byte → Prop) (parent : ByteSource σ) (quiet : State κ σ → Prop)

/-- The bytes of the file that the decoder has not taken. -/
def bytesLeft (s : State κ σ) : List Byte := s.nextIn ++ parent.content s.parent

/-- The reader is between two members, or inside of one; `left` is what is still to be
decoded. -/
inductive Place (s : State κ σ) (left : List Byte) : Prop where
  | between (members : List (List Byte × List Byte)) (hall : ∀ p ∈ members, Member p.1 p.2)
      (hfresh : ∀ m c, Member m c → At s.strm m c)
      (hbytes : bytesLeft parent s = members.flatMap Prod.fst)
      (hleft : left = members.flatMap Prod.snd) (hquiet : members = [] → quiet s)
  | inside (todo out : List Byte) (members : List (List Byte × List Byte))
      (hall : ∀ p ∈ members, Member p.1 p.2) (hat : At s.strm todo out)
      (hbytes : bytesLeft parent s = todo ++ members.flatMap Prod.fst)
      (hleft : left = out ++ members.flatMap Prod.snd)

end Position

/-! ## What a turn does to the buffers -/

/-- What the turns of a read work at. -/
def workLeft (parent : ByteSource σ) (s : State κ σ) : ℕ ×ₗ ℕ :=
  toLex ((parent.content s.parent).length, s.nextIn.length + s.availOut)

/-- The state behind a call of the decoder, before the code is looked at. -/
def afterCall (d : Decoder κ Byte) (s : State κ σ) : State κ σ :=
  let a := d.call s.strm () s.nextIn s.availOut
  { s with
    strm := a.state
    nextIn := s.nextIn.drop a.consumed
    out := s.out ++ a.output
    availOut := s.availOut - a.output.length }

/-- The end of a member leaves the buffers alone. -/
def Format.KeepsBuffers (f : Format κ σ) (d : Decoder κ Byte) : Prop :=
  ∀ s, s.err = .ok → ∃ strm err since,
    f.atEnd d s = { s with strm := strm, err := err, sincelastend := since }

section Turns

variable {f : Format κ σ} {d : Decoder κ Byte} {parent : ByteSource σ} {quiet : State κ σ → Prop}
  {s t : State κ σ}

theorem Format.Resumes.keepsBuffers (hf : f.Resumes quiet) : f.KeepsBuffers d := by
  intro s hok
  obtain ⟨_, m, hm⟩ := hf.atEnd d s hok
  exact ⟨d.reset s.strm, s.err, m, hm⟩

/-- `fillTurn` reads a chunk of the file, or comes to its end. -/
theorem exists_chunk (parent : ByteSource σ) (c : σ) :
    ∃ data p, parent.read c wandioBufferSize = (⟨data.length, data⟩, p) ∧
      cInt (data.length : ℤ) = data.length ∧ parent.content c = data ++ parent.content p ∧
      (data = [] → parent.content c = []) := by
  obtain ⟨data, p, hread, hle, hcontent, hend⟩ :=
    parent.read_spec c (show 0 < wandioBufferSize by decide)
  exact ⟨data, p, hread, cInt_of_lt (hle.trans_lt (by decide)), hcontent, hend⟩

theorem workLeft_fill {data : List Byte}
    (hcontent : parent.content s.parent = data ++ parent.content t.parent)
    (hpos : 0 < data.length) : workLeft parent t < workLeft parent s := by
  rw [workLeft, workLeft, Prod.Lex.toLex_lt_toLex]
  left
  show (parent.content t.parent).length < (parent.content s.parent).length
  rw [hcontent, List.length_append]
  omega

/-- The decoder is inside a member. -/
theorem decodeTurn_ok (hcode : (d.call s.strm () s.nextIn s.availOut).code = f.ok) :
    decodeTurn f d s = { afterCall d s with err := .ok } := if_pos hcode

/-- A member has ended. -/
theorem decodeTurn_end (hne : f.ok ≠ f.streamEnd)
    (hcode : (d.call s.strm () s.nextIn s.availOut).code = f.streamEnd) :
    decodeTurn f d s = f.atEnd d (afterCall d s) := by
  unfold decodeTurn
  simp only
  rw [if_neg (hcode ▸ hne.symm), if_pos hcode]
  rfl

/-- The decoder moves bytes from one buffer to the other. -/
theorem decodeTurn_buffers (hf : f.KeepsBuffers d) (hok : s.err = .ok) :
    (decodeTurn f d s).nextIn = (afterCall d s).nextIn ∧
      (decodeTurn f d s).out = (afterCall d s).out ∧
      (decodeTurn f d s).availOut = (afterCall d s).availOut ∧
      (decodeTurn f d s).parent = s.parent := by
  have hdecode : decodeTurn f d s =
      if (d.call s.strm () s.nextIn s.availOut).code = f.ok then { afterCall d s with err := .ok }
      else if (d.call s.strm () s.nextIn s.availOut).code = f.streamEnd then
        f.atEnd d (afterCall d s)
      else { afterCall d s with err := .error } := rfl
  rw [hdecode]
  split
  · exact ⟨rfl, rfl, rfl, rfl⟩
  · split
    · obtain ⟨strm, err, since, hend⟩ := hf (afterCall d s) hok
      rw [hend]
      exact ⟨rfl, rfl, rfl, rfl⟩
    · exact ⟨rfl, rfl, rfl, rfl⟩

/-- The caller's buffer does not grow. -/
theorem decodeTurn_room (hf : f.KeepsBuffers d) (hok : s.err = .ok) :
    (decodeTurn f d s).availOut + (decodeTurn f d s).out.length =
      s.availOut + s.out.length := by
  obtain ⟨_, hout, havail, _⟩ := decodeTurn_buffers hf hok
  have hroom := d.output_le s.strm () s.nextIn s.availOut
  rw [hout, havail, afterCall, List.length_append]
  simp only
  omega

/-- A decoder that makes progress has less to work at. -/
theorem workLeft_decodeTurn (hf : f.KeepsBuffers d) (hok : s.err = .ok)
    (hprogress : 0 < (d.call s.strm () s.nextIn s.availOut).consumed ∨
      (d.call s.strm () s.nextIn s.availOut).output ≠ []) :
    workLeft parent (decodeTurn f d s) < workLeft parent s := by
  obtain ⟨hin, _, havail, hparent⟩ := decodeTurn_buffers hf hok
  have hconsumed := d.consumed_le s.strm () s.nextIn s.availOut
  have hroom := d.output_le s.strm () s.nextIn s.availOut
  rw [workLeft, workLeft, hparent, hin, havail, afterCall, List.length_drop,
    Prod.Lex.toLex_lt_toLex]
  right
  refine ⟨rfl, ?_⟩
  rcases hprogress with hpos | hne
  · simp only
    omega
  · have hpos := List.length_pos_iff.mpr hne
    simp only
    omega

/-- What the decoder takes are the first bytes of what was left. -/
theorem bytesLeft_decodeTurn (hf : f.KeepsBuffers d) (hok : s.err = .ok) {todo more : List Byte}
    (hbytes : bytesLeft parent s = todo ++ more)
    (htaken : (d.call s.strm () s.nextIn s.availOut).consumed ≤ todo.length) :
    bytesLeft parent (decodeTurn f d s) =
      todo.drop (d.call s.strm () s.nextIn s.availOut).consumed ++ more := by
  obtain ⟨hin, _, _, hparent⟩ := decodeTurn_buffers hf hok
  have hconsumed := d.consumed_le s.strm () s.nextIn s.availOut
  have hdrop := congrArg (List.drop (d.call s.strm () s.nextIn s.availOut).consumed) hbytes
  rw [bytesLeft, List.drop_append_of_le_length hconsumed,
    List.drop_append_of_le_length htaken] at hdrop
  rw [bytesLeft, hin, hparent]
  exact hdrop

end Turns

section Read

variable {f : Format κ σ} {d : Decoder κ Byte} {Member : List Byte → List Byte → Prop}
  {At : κ → List Byte → List Byte → Prop} {parent : ByteSource σ} {quiet : State κ σ → Prop}
  {s t : State κ σ} {all given left : List Byte} {len : ℕ}

/-- The end of the file comes only behind the last member. -/
theorem Place.of_nil (hd : MemberDecoder d f.ok f.streamEnd Member At)
    (h : Place Member At parent quiet s left) (hnil : bytesLeft parent s = []) :
    left = [] ∧ quiet s := by
  cases h with
  | between members hall hfresh hbytes hleft hquiet =>
    cases members with
    | nil => exact ⟨hleft, hquiet rfl⟩
    | cons p members =>
      -- no member is empty
      have hp := hd.todo_ne_nil _ _ _ (hfresh _ _ (hall p (List.mem_cons_self ..)))
      rw [hnil, List.flatMap_cons, eq_comm, List.append_eq_nil_iff] at hbytes
      exact absurd hbytes.1 hp
  | inside todo out members hall hat hbytes hleft =>
    rw [hnil, eq_comm, List.append_eq_nil_iff] at hbytes
    exact absurd hbytes.1 (hd.todo_ne_nil _ _ _ hat)

/-- With bytes left the reader is inside a member, at its first byte or further on. -/
theorem Place.to_inside (h : Place Member At parent quiet s left)
    (hne : bytesLeft parent s ≠ []) :
    ∃ (todo out : List Byte) (members : List (List Byte × List Byte)),
      (∀ p ∈ members, Member p.1 p.2) ∧ At s.strm todo out ∧
      bytesLeft parent s = todo ++ members.flatMap Prod.fst ∧
      left = out ++ members.flatMap Prod.snd := by
  cases h with
  | between members hall hfresh hbytes hleft hquiet =>
    cases members with
    | nil => exact absurd hbytes hne
    | cons p members =>
      exact ⟨p.1, p.2, members, fun q hq => hall q (List.mem_cons_of_mem _ hq),
        hfresh _ _ (hall p (List.mem_cons_self ..)), hbytes, hleft⟩
  | inside todo out members hall hat hbytes hleft =>
    exact ⟨todo, out, members, hall, hat, hbytes, hleft⟩

/-- In a read of `len` bytes: `given` has been returned before, `s.out` since the read
began, and the rest of `all` is still to be decoded. -/
structure Decoding (Member : List Byte → List Byte → Prop)
    (At : κ → List Byte → List Byte → Prop) (parent : ByteSource σ)
    (quiet : State κ σ → Prop) (all given : List Byte) (len : ℕ) (s : State κ σ) : Prop where
  err : s.err = .ok
  room : s.availOut + s.out.length = len
  place : ∃ left, Place Member At parent quiet s left ∧ all = given ++ s.out ++ left

/-- How a read ends: what it returns continues the contents, and it returns nothing only
at the end. -/
structure Read (Member : List Byte → List Byte → Prop)
    (At : κ → List Byte → List Byte → Prop) (parent : ByteSource σ)
    (quiet : State κ σ → Prop) (all given : List Byte) (len : ℕ) (r : ReadResult)
    (t : State κ σ) : Prop where
  ret : r.ret = r.data.length
  le : r.data.length ≤ len
  zero : r.ret = 0 → given = all
  place : ∃ left, all = given ++ r.data ++ left ∧
    (t.err = .ok ∧ Place Member At parent quiet t left ∨ t.err = .eof ∧ left = [])

/-- `inbuff` is filled, or the end of the file has come. -/
theorem fillTurn_member (hf : f.Resumes quiet) (hd : MemberDecoder d f.ok f.streamEnd Member At)
    (hlen : len < 2 ^ 32) (h : Decoding Member At parent quiet all given len s)
    (hin : s.nextIn = []) :
    (∃ t, fillTurn f parent.toSource len s = .next t ∧
        Decoding Member At parent quiet all given len t ∧ workLeft parent t < workLeft parent s) ∨
      (∃ r t, fillTurn f parent.toSource len s = .done (r, t) ∧
        Read Member At parent quiet all given len r t) := by
  obtain ⟨left, hplace, hall⟩ := h.place
  have hroom := h.room
  obtain ⟨data, c, hread, hint, hcontent, hend⟩ := exists_chunk parent s.parent
  unfold fillTurn
  simp only [hread, hint]
  split
  · next hzero =>
    right
    have hnil : data = [] := List.eq_nil_of_length_eq_zero (by omega)
    have hbytes : bytesLeft parent s = [] := by rw [bytesLeft, hin, hend hnil]; rfl
    obtain ⟨rfl, hquiet⟩ := hplace.of_nil hd hbytes
    set u : State κ σ := { s with parent := c } with hu
    have hquiet' : quiet u := hf.quiet_congr s u rfl hquiet
    obtain ⟨hret, hu'⟩ := hf.atEof len u hlen h.err hquiet'
    have hcount : (len : ℤ) - u.availOut = s.out.length := by
      show (len : ℤ) - s.availOut = _
      omega
    have hcontent' : parent.content c = [] := by
      rw [hend hnil, hnil] at hcontent
      exact hcontent.symm
    -- nothing is left, so the reader stays where it is
    have hstay : Place Member At parent quiet u [] := by
      cases hplace with
      | between members hm hfresh hb hl hq =>
        refine .between members hm hfresh ?_ hl fun hnil => hquiet'
        rw [← hb, bytesLeft, bytesLeft, hend hnil]
        show s.nextIn ++ parent.content c = _
        rw [hcontent']
      | inside todo out members hm hat hb hl =>
        refine .inside todo out members hm hat ?_ hl
        rw [← hb, bytesLeft, bytesLeft, hend hnil]
        show s.nextIn ++ parent.content c = _
        rw [hcontent']
    have hout : (f.atEof len u).2.out = s.out := by
      rcases hu' with hu' | hu' <;> rw [hu']
    refine ⟨_, _, rfl, ⟨?_, ?_, ?_, [], ?_, ?_⟩⟩
    · simp only [hret, hout, hcount]
    · simp only [hout]
      omega
    · intro hz
      simp only [hret, hcount] at hz
      rw [hall, List.eq_nil_of_length_eq_zero (by omega : s.out.length = 0)]
      simp
    · simp only [hout]
      exact hall
    · rcases hu' with hu' | hu'
      · rw [hu']
        exact .inl ⟨h.err, hstay⟩
      · rw [hu']
        exact .inr ⟨rfl, rfl⟩
  · next hne =>
    rw [if_neg (by omega)]
    left
    set u : State κ σ := { s with parent := c, nextIn := data } with hu
    obtain ⟨m, hm⟩ := hf.atInput (data.length : ℤ).toNat u
    have hbytes : bytesLeft parent { u with sincelastend := m } = bytesLeft parent s := by
      show data ++ parent.content c = s.nextIn ++ parent.content s.parent
      rw [hin, hcontent, List.nil_append]
    have hleft : bytesLeft parent s ≠ [] := by
      rw [bytesLeft, hin, List.nil_append, hcontent]
      intro hnil
      rw [List.append_eq_nil_iff] at hnil
      rw [hnil.1] at hne
      exact hne rfl
    obtain ⟨todo, out, members, hmem, hat, hb, hl⟩ := hplace.to_inside hleft
    refine ⟨_, rfl, ?_, ?_⟩
    · rw [hm]
      exact ⟨h.err, h.room, left, .inside todo out members hmem hat (hbytes.trans hb) hl, hall⟩
    · rw [hm]
      exact workLeft_fill hcontent (by omega)

/-- A call of the decoder. -/
theorem decodeTurn_member (hf : f.Resumes quiet)
    (hd : MemberDecoder d f.ok f.streamEnd Member At)
    (h : Decoding Member At parent quiet all given len s) (hin : s.nextIn ≠ [])
    (hout : 0 < s.availOut) :
    Decoding Member At parent quiet all given len (decodeTurn f d s) ∧
      workLeft parent (decodeTurn f d s) < workLeft parent s := by
  obtain ⟨left, hplace, hall⟩ := h.place
  have hroom := h.room
  have hne : bytesLeft parent s ≠ [] := by
    rw [bytesLeft]
    exact fun hnil => hin (List.append_eq_nil_iff.mp hnil).1
  obtain ⟨todo, out, members, hmem, hat, hbytes, hleft⟩ := hplace.to_inside hne
  have hkeeps : f.KeepsBuffers d := hf.keepsBuffers
  obtain ⟨htaken, out', hsplit, hcode⟩ := hd.call s.strm todo out s.nextIn
    (members.flatMap Prod.fst) s.availOut hat hin hout (hbytes ▸ List.prefix_append _ _)
  have hrest := bytesLeft_decodeTurn hkeeps h.err hbytes htaken
  have hcount := (decodeTurn_room hkeeps h.err).trans hroom
  have hgiven : all = given ++ (decodeTurn f d s).out ++ (out' ++ members.flatMap Prod.snd) := by
    rw [(decodeTurn_buffers hkeeps h.err).2.1, afterCall, hall, hleft, hsplit]
    simp only [List.append_assoc]
  rcases hcode with ⟨hend, hlast, rfl⟩ | ⟨hok, hprogress, hat'⟩
  · -- the member has ended
    have hpos : 0 < todo.length := List.length_pos_iff.mpr (hd.todo_ne_nil _ _ _ hat)
    obtain ⟨hquiet, m, hm⟩ := hf.atEnd d (afterCall d s) h.err
    rw [← decodeTurn_end hf.ok_ne hend] at hquiet hm
    rw [hlast, List.drop_length, List.nil_append] at hrest
    rw [List.nil_append] at hgiven
    refine ⟨⟨by rw [hm]; exact h.err, hcount, members.flatMap Prod.snd, ?_, hgiven⟩,
      workLeft_decodeTurn hkeeps h.err (.inl (by omega))⟩
    refine .between members hmem (fun m' c hm' => ?_) hrest rfl fun _ => hquiet
    rw [hm]
    exact hd.start _ m' c hm'
  · -- there is more of the member
    have hdecode := decodeTurn_ok hok
    refine ⟨⟨by rw [hdecode], hcount, _, .inside _ out' members hmem ?_ hrest rfl, hgiven⟩,
      workLeft_decodeTurn hkeeps h.err hprogress⟩
    rw [hdecode]
    exact hat'

/-- A read of at least one byte returns. -/
theorem read_member (hf : f.Resumes quiet) (hd : MemberDecoder d f.ok f.streamEnd Member At)
    (hpos : 0 < len) (hlen : len < 2 ^ 32)
    (hs : s.err = .ok ∧ Place Member At parent quiet s left ∨ s.err = .eof ∧ left = [])
    (hall : all = given ++ left) :
    ∃ q, Yields (read f d parent.toSource len s) q ∧
      Read Member At parent quiet all given len q.1 q.2 := by
  rcases hs with ⟨hok, hplace⟩ | ⟨heof, rfl⟩
  · set s₀ : State κ σ := { s with availOut := f.availOut len, out := [] } with hs₀
    have hcall : read f d parent.toSource len s =
        fun fuel => loop (readTurn f d parent.toSource len) fuel s₀ := by
      funext fuel
      simp only [read, hok, hs₀]
    have hstart : Decoding Member At parent quiet all given len s₀ := by
      refine ⟨hok, ?_, left, ?_, ?_⟩
      · show f.availOut len + 0 = len
        rw [hf.availOut len hlen, Nat.add_zero]
      · cases hplace with
        | between members hm hfresh hb hl hq =>
          exact .between members hm hfresh hb hl fun hnil => hf.quiet_congr s s₀ rfl (hq hnil)
        | inside todo out members hm hat hb hl => exact .inside todo out members hm hat hb hl
      · rw [List.append_nil]
        exact hall
    rw [hcall]
    refine loop_total (workLeft parent) (I := Decoding Member At parent quiet all given len)
      (fun u v hu hv => ?_) (fun u q hu hq => ?_) hstart
    · obtain ⟨-, ⟨hin, hfill⟩ | ⟨hin, hout, rfl⟩⟩ := readTurn_next hv
      · rcases fillTurn_member hf hd hlen hu hin with ⟨w, hw, hdec⟩ | ⟨r, w, hw, _⟩
        · rw [hfill] at hw
          cases hw
          exact hdec
        · rw [hfill] at hw
          cases hw
      · exact decodeTurn_member hf hd hu hin hout
    · have hroom := hu.room
      rcases readTurn_done hq with ⟨-, -, hin, hfill⟩ | ⟨hfull, rfl⟩
      · rcases fillTurn_member hf hd hlen hu hin with ⟨w, hw, _⟩ | ⟨r, w, hw, hread⟩
        · rw [hfill] at hw
          cases hw
        · rw [hfill] at hw
          cases hw
          exact hread
      · -- the loop is left with a full buffer
        have hfull := hfull hu.err
        obtain ⟨rest, hrest, hgiven⟩ := hu.place
        refine ⟨?_, ?_, ?_, rest, hgiven, .inl ⟨hu.err, hrest⟩⟩
        · simp only
          omega
        · simp only
          omega
        · simp only
          omega
  · refine ⟨(⟨0, []⟩, s), ⟨0, fun fuel _ => by simp only [read, heof]⟩, rfl, Nat.zero_le _,
      fun _ => ?_, [], ?_, .inr ⟨heof, rfl⟩⟩
    · rw [hall, List.append_nil]
    · simp [hall]

end Read

/-! ## Runs -/

/-- What a read owes its caller when `before` has been returned of the contents `all`: a
part of the rest, and nothing only at the end. -/
structure CallOk (all before : List Byte) (len : ℕ) (r : ReadResult) : Prop where
  ret : r.ret = r.data.length
  le : r.data.length ≤ len
  stream : before ++ r.data <+: all
  zero : r.ret = 0 ↔ before = all

/-- Every sequence of reads returns, and returns the contents `all` in order. -/
def Returns (call : ℕ → State κ σ → ℕ → Option (ReadResult × State κ σ)) (s : State κ σ)
    (all : List Byte) : Prop :=
  ∀ lens : List ℕ, (∀ l ∈ lens, 0 < l ∧ l < 2 ^ 32) →
    ∃ log t, Yields (fun fuel => runCalls (fun len s => call len s fuel) lens s) (log, t) ∧
      log.map Prod.fst = lens ∧ Each (fun before e => CallOk all (delivered before) e.1 e.2) log

theorem Read.callOk {Member : List Byte → List Byte → Prop}
    {At : κ → List Byte → List Byte → Prop} {parent : ByteSource σ} {quiet : State κ σ → Prop}
    {all given : List Byte} {len : ℕ} {r : ReadResult} {t : State κ σ}
    (h : Read Member At parent quiet all given len r t) : CallOk all given len r := by
  obtain ⟨left, hall, _⟩ := h.place
  refine ⟨h.ret, h.le, hall ▸ List.prefix_append _ _, h.zero, fun hgiven => ?_⟩
  have hlen := congrArg List.length hall
  rw [← hgiven, List.length_append, List.length_append] at hlen
  rw [h.ret]
  omega

/-- A reader that restarts its decoder returns the contents of the members. -/
theorem read_returns {f : Format κ σ} {quiet : State κ σ → Prop} (hf : f.Resumes quiet)
    {d : Decoder κ Byte} {Member : List Byte → List Byte → Prop}
    {At : κ → List Byte → List Byte → Prop}
    (hd : MemberDecoder d f.ok f.streamEnd Member At) (parent : ByteSource σ)
    (members : List (List Byte × List Byte)) (hne : members ≠ [])
    (hall : ∀ p ∈ members, Member p.1 p.2) {s : State κ σ} (hok : s.err = .ok)
    (hfresh : ∀ m c, Member m c → At s.strm m c)
    (hbytes : bytesLeft parent s = members.flatMap Prod.fst) :
    Returns (read f d parent.toSource) s (members.flatMap Prod.snd) := by
  intro lens hlens
  set all := members.flatMap Prod.snd with hcontents
  -- the invariant of the run: where the reader is, and that all reads so far are right
  have hcall : ∀ (log : List (ℕ × ReadResult)) len s, len ∈ lens →
      ((∃ left, all = delivered log ++ left ∧
        (s.err = .ok ∧ Place Member At parent quiet s left ∨ s.err = .eof ∧ left = [])) ∧
      Each (fun before e => CallOk all (delivered before) e.1 e.2) log) →
      ∃ q, Yields (read f d parent.toSource len s) q ∧
        ((∃ left, all = delivered (log ++ [(len, q.1)]) ++ left ∧
          (q.2.err = .ok ∧ Place Member At parent quiet q.2 left ∨ q.2.err = .eof ∧ left = [])) ∧
        Each (fun before e => CallOk all (delivered before) e.1 e.2) (log ++ [(len, q.1)])) := by
    rintro log len s hlen ⟨⟨left, hleft, hs⟩, heach⟩
    obtain ⟨q, hq, hread⟩ := read_member hf hd (hlens len hlen).1 (hlens len hlen).2 hs hleft
    obtain ⟨rest, hrest, hplace⟩ := hread.place
    refine ⟨q, hq, ⟨rest, ?_, hplace⟩, heach.append hread.callOk⟩
    rw [hrest]
    simp [delivered]
  have hstart : Place Member At parent quiet s all :=
    .between members hall hfresh hbytes hcontents fun hnil => absurd hnil hne
  obtain ⟨⟨log, t⟩, hrun, ⟨_, hlog⟩, hlog'⟩ :=
    runCalls_total hcall [] ⟨⟨all, rfl, .inl ⟨hok, hstart⟩⟩, Each.nil⟩
  exact ⟨log, t, hrun, hlog', hlog⟩

/-- The zlib reader over gzip members and the bzip2 reader over bzip2 streams: for every way
the parent cuts the file into chunks and every sequence of reads, what is returned are the
contents of the members one behind the other, and 0 only behind the last, for ever. -/
theorem members_concatenate (gz : Decoder κ Byte) (GzMember : List Byte → List Byte → Prop)
    (GzAt : κ → List Byte → List Byte → Prop) (hgz : MemberDecoder gz 0 1 GzMember GzAt)
    (bz : Decoder κ Byte) (BzMember : List Byte → List Byte → Prop)
    (BzAt : κ → List Byte → List Byte → Prop) (hbz : MemberDecoder bz 0 4 BzMember BzAt)
    (parent : ByteSource σ) :
    (∀ k c members, members ≠ [] → (∀ p ∈ members, GzMember p.1 p.2) →
      parent.content c = members.flatMap Prod.fst →
      Returns (zlibRead gz parent.toSource) (zlibOpen (gz.reset k) c)
        (members.flatMap Prod.snd)) ∧
    (∀ k c members, members ≠ [] → (∀ p ∈ members, BzMember p.1 p.2) →
      parent.content c = members.flatMap Prod.fst →
      Returns (bzRead bz parent.toSource) (bzOpen (bz.reset k) c)
        (members.flatMap Prod.snd)) := by
  constructor
  · intro k c members hne hall hfile
    exact read_returns zlib_resumes hgz parent members hne hall rfl
      (fun m c => hgz.start k m c) hfile
  · intro k c members hne hall hfile
    exact read_returns bz_resumes hbz parent members hne hall rfl
      (fun m c => hbz.start k m c) hfile

/-! ## A decoder of one member -/

/-- A decoder that knows one member `m` and its contents `c`. Its state is the rest of both;
it emits the contents when it has the last byte of the member, and takes that byte when
there is room for all of them. -/
def oneMember (m c : List Byte) (ok streamEnd : ℤ) : Decoder (List Byte × List Byte) Byte where
  call k _ input room :=
    if k.1.length ≤ input.length then
      if k.2.length ≤ room then ⟨([], []), k.1.length, k.2, streamEnd⟩
      else ⟨(k.1.drop (k.1.length - 1), k.2.drop room), k.1.length - 1, k.2.take room, ok⟩
    else ⟨(k.1.drop input.length, k.2), input.length, [], ok⟩
  consumed_le k _ input room := by
    split
    · split
      · assumption
      · simp only
        omega
    · exact le_rfl
  output_le k _ input room := by
    split
    · split
      · assumption
      · exact List.length_take_le _ _
    · exact Nat.zero_le _
  reset _ := (m, c)

theorem oneMember_decoder {m c : List Byte} (hm : m ≠ []) (ok streamEnd : ℤ) :
    MemberDecoder (oneMember m c ok streamEnd) ok streamEnd (fun m' c' => m' = m ∧ c' = c)
      (fun k todo out => k = (todo, out) ∧ todo ≠ []) where
  start k m' c' h := by
    rw [h.1, h.2]
    exact ⟨rfl, hm⟩
  todo_ne_nil k todo out h := h.2
  call k todo out input rest room hat hin hroom _ := by
    obtain ⟨rfl, htodo⟩ := hat
    have hpos : 0 < todo.length := List.length_pos_iff.mpr htodo
    have hrest : ∀ n, n < todo.length → todo.drop n ≠ [] := fun n hn hnil => by
      have := congrArg List.length hnil
      rw [List.length_drop, List.length_nil] at this
      omega
    by_cases hall : todo.length ≤ input.length
    · by_cases hfit : out.length ≤ room
      · simp only [oneMember, hall, hfit, if_true]
        exact ⟨le_rfl, [], by simp, .inl ⟨trivial, trivial, rfl⟩⟩
      · simp only [oneMember, hall, hfit, if_true, if_false]
        refine ⟨Nat.sub_le _ _, out.drop room, by simp, .inr ⟨trivial, .inr ?_, rfl, ?_⟩⟩
        · apply List.ne_nil_of_length_pos
          rw [List.length_take]
          omega
        · exact hrest _ (by omega)
    · simp only [oneMember, hall, if_false]
      refine ⟨by omega, out, by simp, .inr ⟨trivial, .inl (List.length_pos_iff.mpr hin), rfl, ?_⟩⟩
      exact hrest _ (by omega)

/-- The letter a, compressed by gzip. -/
def gzMember : List Byte :=
  [0x1f, 0x8b, 0x08, 0, 0, 0, 0, 0, 0x02, 0x03, 0x4b, 0x04, 0, 0x43, 0xbe, 0xb7, 0xe8, 0x01, 0,
    0, 0]

/-- The letter a, compressed by bzip2. -/
def bzMember : List Byte :=
  [0x42, 0x5a, 0x68, 0x39, 0x31, 0x41, 0x59, 0x26, 0x53, 0x59, 0x19, 0x93, 0x9b, 0x6b, 0, 0, 0,
    0x01, 0, 0x20, 0, 0x20, 0, 0x21, 0x18, 0x46, 0x82, 0xee, 0x48, 0xa7, 0x0a, 0x12, 0x03, 0x32,
    0x73, 0x6d, 0x60]

/-- Two members in one chunk, for either reader. -/
theorem members_concatenate_letter :
    Returns (zlibRead (oneMember gzMember [0x61] 0 1) chunked.toSource)
        (zlibOpen (gzMember, [0x61]) (gzMember ++ gzMember, [])) [0x61, 0x61] ∧
      Returns (bzRead (oneMember bzMember [0x61] 0 4) chunked.toSource)
        (bzOpen (bzMember, [0x61]) (bzMember ++ bzMember, [])) [0x61, 0x61] := by
  obtain ⟨hzlib, hbz⟩ := members_concatenate (oneMember gzMember [0x61] 0 1) _ _
    (oneMember_decoder (by decide) 0 1) (oneMember bzMember [0x61] 0 4) _ _
    (oneMember_decoder (by decide) 0 4) chunked
  constructor
  · exact hzlib ([], []) (gzMember ++ gzMember, []) [(gzMember, [0x61]), (gzMember, [0x61])]
      (by decide) (by simp) rfl
  · exact hbz ([], []) (bzMember ++ bzMember, []) [(bzMember, [0x61]), (bzMember, [0x61])]
      (by decide) (by simp) rfl

end Wandio.StreamReader
