import Wandio.StreamReader.ErrorTheorems
import Wandio.StreamReader.LzmaTheorems
import Wandio.Utils.Provider

/-!
# The readers over a `strm` structure as layers

Over a file of members, or of one stream, a reader is a layer for the reader above. Over a parent
that is itself a layer it does what it does over a source of bytes.
-/

namespace Wandio.StreamReader

open Codec Loop Provider

variable {κ σ τ : Type*}

/-- The same reader over a parent whose states are written down in another way. -/
def State.map (f : σ → τ) (s : State κ σ) : State κ τ :=
  ⟨s.strm, s.nextIn, s.out, s.availOut, f s.parent, s.err, s.sincelastend⟩

/-! ## A parent in other words -/

section Map

variable (kind : Kind) {d : Decoder κ Byte} {parent : Source σ} {parent' : Source τ} {f : σ → τ}
  {s : State κ σ} {len : ℕ}

theorem atInput_map (f : σ → τ) (n : ℕ) (s : State κ σ) :
    kind.format.atInput n (s.map f) = (kind.format.atInput n s).map f := by
  cases kind <;> rfl

theorem atEnd_map (f : σ → τ) (d : Decoder κ Byte) (s : State κ σ) :
    kind.format.atEnd d (s.map f) = (kind.format.atEnd d s).map f := by
  cases kind <;> rfl

theorem atEof_map (f : σ → τ) (len : ℕ) (s : State κ σ) :
    kind.format.atEof len (s.map f) =
      ((kind.format.atEof len s).1, (kind.format.atEof len s).2.map f) := by
  cases kind with
  | zlib =>
    simp only [Kind.format, zlibFormat, State.map]
    split
    · rfl
    · split <;> rfl
  | bz => rfl
  | lzma =>
    simp only [Kind.format, lzmaFormat, State.map]
    split <;> rfl

/-- What is noted at the parent's bytes leaves the parent alone. -/
theorem parent_atInput (n : ℕ) (s : State κ σ) :
    (kind.format.atInput n s).parent = s.parent := by
  cases kind <;> rfl

theorem parent_atEnd (d : Decoder κ Byte) (s : State κ σ) :
    (kind.format.atEnd d s).parent = s.parent := by
  cases kind <;> rfl

theorem parent_atEof (len : ℕ) (s : State κ σ) :
    (kind.format.atEof len s).2.parent = s.parent := by
  cases kind with
  | zlib =>
    simp only [Kind.format, zlibFormat]
    split
    · rfl
    · split <;> rfl
  | bz => rfl
  | lzma =>
    simp only [Kind.format, lzmaFormat]
    split <;> rfl

/-- A call of the decoder does not look into the parent. -/
theorem decodeTurn_map (f : σ → τ) (d : Decoder κ Byte) (s : State κ σ) :
    decodeTurn kind.format d (s.map f) = (decodeTurn kind.format d s).map f := by
  have hok : (kind.format : Format κ τ).ok = (kind.format : Format κ σ).ok := by cases kind <;> rfl
  have hend : (kind.format : Format κ τ).streamEnd = (kind.format : Format κ σ).streamEnd := by
    cases kind <;> rfl
  have hcall : d.call (s.map f).strm () (s.map f).nextIn (s.map f).availOut =
      d.call s.strm () s.nextIn s.availOut := rfl
  unfold decodeTurn
  simp only [hok, hend, hcall]
  split
  · rfl
  · split
    · rw [← atEnd_map]
      rfl
    · rfl

/-- A call of the decoder leaves the parent alone. -/
theorem parent_decodeTurn (d : Decoder κ Byte) (s : State κ σ) :
    (decodeTurn kind.format d s).parent = s.parent := by
  unfold decodeTurn
  simp only
  split
  · rfl
  · split
    · rw [parent_atEnd]
    · rfl

/-- A read of the parent is the same for parents that agree. -/
theorem fillTurn_map (hread : Agrees parent parent' f s.parent wandioBufferSize) :
    fillTurn kind.format parent' len (s.map f) =
      (fillTurn kind.format parent len s).map (State.map f) fun q => (q.1, q.2.map f) := by
  have hread' : parent'.read (s.map f).parent wandioBufferSize = _ := hread
  set r := parent.read s.parent wandioBufferSize with hr
  unfold fillTurn
  simp only [hread', ← hr]
  split
  · have heof := atEof_map kind f len { s with parent := r.2 }
    have hsame : ({ s with parent := r.2 } : State κ σ).map f = { s.map f with parent := f r.2 } :=
      rfl
    rw [hsame] at heof
    simp only [heof]
    rfl
  · split
    · rfl
    · have hinput := atInput_map kind f (cInt r.1.ret).toNat
        { s with parent := r.2, nextIn := r.1.data }
      exact congrArg Turn.next hinput

/-- A turn of a read is the same for parents that agree. -/
theorem readTurn_map (hread : Agrees parent parent' f s.parent wandioBufferSize) :
    readTurn kind.format d parent' len (s.map f) =
      (readTurn kind.format d parent len s).map (State.map f) fun q => (q.1, q.2.map f) := by
  have herr : (s.map f).err = s.err := rfl
  have havail : (s.map f).availOut = s.availOut := rfl
  have hin : (s.map f).nextIn = s.nextIn := rfl
  unfold readTurn
  simp only [herr, havail, hin]
  split
  · split
    · exact fillTurn_map kind hread
    · rw [decodeTurn_map]
      rfl
  · rfl

/-- Behind a turn the parent is in the state it was in, or in the one behind a read. -/
theorem readTurn_parent (P : σ → Prop) (hs : P s.parent)
    (hread : P (parent.read s.parent wandioBufferSize).2) :
    (readTurn kind.format d parent len s).All (fun t => P t.parent) fun q => P q.2.parent := by
  unfold readTurn
  split
  · split
    · unfold fillTurn
      simp only
      split
      · refine .done ?_
        rw [parent_atEof]
        exact hread
      · split
        · exact .done hread
        · refine .next ?_
          rw [parent_atInput]
          exact hread
    · refine .next ?_
      rw [parent_decodeTurn]
      exact hs
  · exact .done hs

end Map

/-! ## A layer over a layer -/

section Layer

variable (kind : Kind) {d : Decoder κ Byte} {read : ℕ → σ → ℕ → Option (ReadResult × σ)}
  {limit : ℕ} {I : σ → List Byte → Prop}

/-- The reader over a layer. -/
def Kind.readOver (d : Decoder κ Byte) (read : ℕ → σ → ℕ → Option (ReadResult × σ)) (len : ℕ)
    (s : State κ (Option σ)) (fuel : ℕ) : Option (ReadResult × State κ (Option σ)) :=
  (kind.read d (bounded read fuel) len s fuel).filter fun q => q.2.parent.isSome


/-- Behind the end of the data and behind an error nothing is read. -/
theorem read_of_err {f : Format κ σ} {parent : Source σ} {len : ℕ} {s : State κ σ}
    (h : s.err ≠ .ok) (fuel : ℕ) : StreamReader.read f d parent len s fuel =
      some (⟨if s.err = .eof then 0 else -1, []⟩, s) := by
  unfold StreamReader.read
  cases herr : s.err with
  | ok => exact absurd herr h
  | eof => rfl
  | error => rfl

/-- Without an error a read is its loop. -/
theorem read_of_ok {f : Format κ σ} {parent : Source σ} {len : ℕ} {s : State κ σ}
    (h : s.err = .ok) : StreamReader.read f d parent len s =
      fun fuel => loop (readTurn f d parent len) fuel
        { s with availOut := f.availOut len, out := [] } := by
  funext fuel
  unfold StreamReader.read
  rw [h]

/-- Over a layer the reader does what it does over a source of bytes. -/
theorem readOver_yields (h : Provides read limit I) (hlimit : 1 < limit)
    (hlarge : wandioBufferSize < limit) {len : ℕ} {s : State κ σ} (hs : ∃ rest, I s.parent rest)
    {q : ReadResult × State κ σ}
    (hq : Yields (kind.read d (h.byteSource hlimit).toSource len s) q) :
    Yields (kind.readOver d read len (s.map some)) (q.1, q.2.map some) ∧
      ∃ rest, I q.2.parent rest := by
  rw [Kind.read_eq] at hq
  have hturn : ∀ s : State κ σ, (∃ rest, I s.parent rest) →
      (readTurn kind.format d (h.byteSource hlimit).toSource len s).All
        (fun t => ∃ rest, I t.parent rest) fun q => ∃ rest, I q.2.parent rest := by
    intro s hs
    obtain ⟨rest, hrest⟩ := hs
    exact readTurn_parent kind (fun c => ∃ rest, I c rest) ⟨rest, hrest⟩
      (h.byteSource_next hlimit hrest wandioBufferSize)
  by_cases herr : s.err = .ok
  · set s₀ : State κ σ :=
      { s with availOut := (kind.format : Format κ σ).availOut len, out := [] } with hs₀
    have hloop : Yields (fun fuel =>
        loop (readTurn kind.format d (h.byteSource hlimit).toSource len) fuel s₀) q := by
      rwa [read_of_ok herr] at hq
    have hq' := hloop.loop_map (State.map some) (fun q => (q.1, q.2.map some)) hturn
      (fun s hs => by
        obtain ⟨rest, hrest⟩ := hs
        obtain ⟨n, hn⟩ := h.bounded_eq hlimit hrest hlarge
        exact ⟨n, fun fuel hfuel => readTurn_map kind (hn fuel hfuel)⟩)
      (show ∃ rest, I s₀.parent rest from hs)
    obtain ⟨n, hn⟩ := hq'
    refine ⟨⟨n, fun fuel hfuel => ?_⟩, ?_⟩
    · have hroom : (kind.format : Format κ (Option σ)).availOut len =
          (kind.format : Format κ σ).availOut len := by cases kind <;> rfl
      have hstart : ({ s.map some with
          availOut := (kind.format : Format κ (Option σ)).availOut len
          out := [] } : State κ (Option σ)) = s₀.map some := by
        rw [hroom]
        rfl
      rw [Kind.readOver, Kind.read_eq, read_of_ok (show (s.map some).err = .ok from herr), hstart,
        hn fuel hfuel]
      rfl
    · obtain ⟨m, hm⟩ := hloop
      exact loop_all hturn (show ∃ rest, I s₀.parent rest from hs) (hm m le_rfl)
  · have hsame : q = (⟨if s.err = .eof then 0 else -1, []⟩, s) :=
      hq.unique ⟨0, fun fuel _ => read_of_err herr fuel⟩
    rw [hsame]
    refine ⟨⟨0, fun fuel _ => ?_⟩, hs⟩
    rw [Kind.readOver, Kind.read_eq, read_of_err (show (s.map some).err ≠ .ok from herr)]
    rfl

/-- A reader that is a layer over sources of bytes is one over layers. -/
theorem readOver_provides (h : Provides read limit I) (hlimit : 1 < limit)
    (hlarge : wandioBufferSize < limit) {limit' : ℕ} {J : State κ σ → List Byte → Prop}
    (hJ : Provides (kind.read d (h.byteSource hlimit).toSource) limit' J) :
    Provides (kind.readOver d read) limit' fun s rest =>
      ∃ t : State κ σ, s = t.map some ∧ (∃ rest, I t.parent rest) ∧ J t rest where
  next s rest len hs hlen := by
    obtain ⟨t, rfl, hparent, ht⟩ := hs
    obtain ⟨data, u, rest', hread, hle, hrest, hu, hend⟩ := hJ.next t rest len ht hlen
    obtain ⟨hover, hparent'⟩ := readOver_yields kind h hlimit hlarge hparent hread
    exact ⟨data, u.map some, rest', hover, hle, hrest, ⟨u, rfl, hparent', hu⟩, hend⟩

end Layer

/-! ## Over sources of bytes -/

section Sources

variable {f : Format κ σ} {d : Decoder κ Byte} {Member : List Byte → List Byte → Prop}
  {At : κ → List Byte → List Byte → Prop} {parent : ByteSource σ} {quiet : State κ σ → Prop}
  {s : State κ σ}

/-- A read of no bytes. -/
theorem read_zero (h : s.err = .ok) (hroom : f.availOut 0 = 0) :
    Yields (read f d parent.toSource 0 s) (⟨0, []⟩, { s with availOut := 0, out := [] }) := by
  rw [read_of_ok h, hroom]
  apply Yields.done
  unfold readTurn
  rw [if_neg fun hgo => lt_irrefl 0 hgo.2]
  rfl

/-- A reader that restarts its decoder, in a file of members. -/
theorem members_provide (hf : f.Resumes quiet) (hd : MemberDecoder d f.ok f.streamEnd Member At)
    (parent : ByteSource σ) :
    Provides (read f d parent.toSource) (2 ^ 32) fun s left =>
      s.err = .ok ∧ Place Member At parent quiet s left ∨ s.err = .eof ∧ left = [] where
  next s left len hs hlen := by
    rcases Nat.eq_zero_or_pos len with rfl | hpos
    · rcases hs with ⟨hok, hplace⟩ | ⟨heof, hnil⟩
      · refine ⟨[], _, left, read_zero hok (hf.availOut 0 hlen), le_rfl, rfl, .inl ⟨hok, ?_⟩, ?_⟩
        · cases hplace with
          | between members hm hfresh hb hl hq =>
            exact .between members hm hfresh hb hl fun hnil => hf.quiet_congr s _ rfl (hq hnil)
          | inside todo out members hm hat hb hl => exact .inside todo out members hm hat hb hl
        · exact fun hzero => absurd hzero (lt_irrefl 0)
      · refine ⟨[], s, left, ⟨0, fun fuel _ => ?_⟩, le_rfl, rfl, .inr ⟨heof, hnil⟩, fun _ _ => hnil⟩
        simp only [read, heof, List.length_nil, Nat.cast_zero]
    · obtain ⟨⟨r, t⟩, hread, hspec⟩ :=
        read_member hf hd hpos hlen hs (show left = [] ++ left from rfl)
      obtain ⟨left', hleft, ht⟩ := hspec.place
      refine ⟨r.data, t, left', ?_, hspec.le, hleft, ht, fun _ hnil => ?_⟩
      · rw [← hspec.ret]
        exact hread
      · have hzero : r.ret = 0 := by
          rw [hspec.ret, hnil]
          rfl
        exact (hspec.zero hzero).symm

/-- The lzma reader, in a file that begins with a stream. -/
theorem first_provides (hd : MemberDecoder d 0 1 Member At) (parent : ByteSource σ)
    (behind : List Byte) :
    Provides (lzmaRead d parent.toSource) (2 ^ 32) fun s left =>
      InFirst At parent behind left s where
  next s left len hs hlen := by
    rcases Nat.eq_zero_or_pos len with rfl | hpos
    · cases hs with
      | ended heof hnil =>
        refine ⟨[], s, left, ⟨0, fun fuel _ => ?_⟩, le_rfl, rfl, .ended heof hnil, fun _ _ => hnil⟩
        simp only [lzmaRead, read, heof, List.length_nil, Nat.cast_zero]
      | inside hok todo hat hbytes =>
        exact ⟨[], _, left, read_zero hok rfl, le_rfl, rfl, .inside hok todo hat hbytes,
          fun hzero => absurd hzero (lt_irrefl 0)⟩
    · obtain ⟨⟨r, t⟩, hread, hspec, left', ht, hleft⟩ :=
        read_first hd hpos hs (show left = [] ++ left from rfl)
      refine ⟨r.data, t, left', ?_, hspec.le, hleft, ht, fun _ hnil => ?_⟩
      · rw [← hspec.ret]
        exact hread
      · have hzero : r.ret = 0 := by
          rw [hspec.ret, hnil]
          rfl
        exact (hspec.zero.mp hzero).symm

end Sources

end Wandio.StreamReader
