import Wandio.PeekReader.SeekTheorems
import Wandio.Utils.Provider

/-!
# The peeking reader as a layer

The peeking reader sees of its child what one read in a call returns. So over a child that is
itself a layer it does what it does over a source of bytes, and it is a layer for the reader above.
-/

namespace Wandio.PeekReader

open Loop Provider

variable {σ τ : Type*}

/-- The same reader over a child whose states are written down in another way. -/
def State.map (f : σ → τ) (s : State σ) : State τ := ⟨f s.child, s.buffer, s.length, s.offset⟩

/-- How many bytes a call asks the child for, if it does. -/
def Call.asks (s : State σ) : Call → Option ℕ
  | .read addr len =>
    if len ≤ s.left then none
    else if Aligned addr len s.left then some ((len : ℤ) - s.left).toNat
    else some (refillAmount (len - s.left) s.length).toNat
  | .peek _ len => if len ≤ s.left then none else some (s.readAmount len).toNat

/-- The length of a call. -/
def Call.length : Call → ℕ
  | .read _ len => len
  | .peek _ len => len

/-! ## A child in other words -/

section Map

variable {child : Source σ} {child' : Source τ} {f : σ → τ} {s : State σ}

theorem takeBuffered_map (f : σ → τ) (len : ℤ) (s : State σ) :
    takeBuffered len (s.map f) =
      ((takeBuffered len s).1, (takeBuffered len s).2.1, (takeBuffered len s).2.2.map f) := by
  unfold takeBuffered
  by_cases h : s.buffer.isSome ∧ s.length ≠ 0
  · rw [if_pos h, if_pos (show (s.map f).buffer.isSome ∧ (s.map f).length ≠ 0 from h)]
    rfl
  · rw [if_neg h, if_neg (show ¬ ((s.map f).buffer.isSome ∧ (s.map f).length ≠ 0) from h)]

theorem freeDrained_map (f : σ → τ) (s : State σ) :
    freeDrained (s.map f) = (freeDrained s).map f := by
  unfold freeDrained
  by_cases h : s.buffer.isSome ∧ s.length ≤ s.offset
  · rw [if_pos h,
      if_pos (show (s.map f).buffer.isSome ∧ (s.map f).length ≤ (s.map f).offset from h)]
    rfl
  · rw [if_neg h, if_neg
      (show ¬ ((s.map f).buffer.isSome ∧ (s.map f).length ≤ (s.map f).offset) from h)]

theorem refillBuffer_map {len : ℤ} (h : s.length = s.offset)
    (hread : Agrees child child' f s.child (refillAmount len s.length).toNat) :
    refillBuffer child' len (s.map f) =
      (refillBuffer child len s).map fun q => (q.1, q.2.map f) := by
  rw [refillBuffer_eq child len h, refillBuffer_eq child' len (show (s.map f).length = _ from h)]
  have hread' : child'.read (s.map f).child (refillAmount len (s.map f).length).toNat = _ := hread
  simp only [hread']
  rfl

theorem readMore_map {addr len ret : ℤ} {out : List Byte} (h : s.length = s.offset)
    (hdirect : Aligned addr (len + ret) ret → Agrees child child' f s.child len.toNat)
    (hrefill : ¬ Aligned addr (len + ret) ret →
      Agrees child child' f s.child (refillAmount len s.length).toNat) :
    readMore child' addr len ret out (s.map f) =
      (readMore child addr len ret out s).map fun q => (q.1, q.2.map f) := by
  have hzero : s.length - s.offset = 0 := by omega
  have hzero' : (s.map f).length - (s.map f).offset = 0 := hzero
  have haligned : Aligned addr (len + ret) ret ↔
      len.tmod minReadSize = 0 ∧ (addr + ret).tmod 4096 = 0 := by
    rw [Aligned, Int.add_sub_cancel]
  unfold readMore
  rw [if_neg (not_not_intro hzero), if_neg (not_not_intro hzero')]
  split
  · next hyes =>
    have hread : child'.read (s.map f).child len.toNat = _ := hdirect (haligned.mpr hyes)
    simp only [hread]
    split
    · rfl
    · simp only [Option.map_some, ← freeDrained_map]
      rfl
  · next hno =>
    rw [refillBuffer_map h (hrefill fun hyes => hno (haligned.mp hyes)), Option.map_map,
      Option.map_map]
    congr 1
    funext q
    simp only [Function.comp_apply]
    split
    · rfl
    · simp only [← freeDrained_map]
      rfl

theorem peekRead_map {addr len : ℕ} (h : Wf s)
    (hread : ∀ n ∈ (Call.read addr len).asks s, Agrees child child' f s.child n) :
    peekRead child' addr len (s.map f) =
      (peekRead child addr len s).map fun q => (q.1, q.2.map f) := by
  unfold peekRead
  by_cases herr : s.length < 0
  · rw [if_pos herr, if_pos (show (s.map f).length < 0 from herr)]
    rfl
  rw [if_neg herr, if_neg (show ¬ (s.map f).length < 0 from herr), takeBuffered_map,
    takeBuffered_eq h (not_lt.mp herr) (Int.natCast_nonneg len)]
  simp only
  split
  · next hmore =>
    have hmin : min (len : ℤ) s.left = s.left := by omega
    have hlength : s.length = s.offset + s.left := by
      unfold State.left
      omega
    have hnot : ¬ (len : ℤ) ≤ s.left := by omega
    rw [hmin]
    apply readMore_map hlength
    · intro haligned
      rw [Int.sub_add_cancel] at haligned
      apply hread
      rw [Call.asks, if_neg hnot, if_pos haligned]
      rfl
    · intro haligned
      rw [Int.sub_add_cancel] at haligned
      apply hread
      rw [Call.asks, if_neg hnot, if_neg haligned]
      rfl
  · simp only [Option.map_some, ← freeDrained_map]

theorem peekPeek_map {addr len : ℕ}
    (hread : ∀ n ∈ (Call.peek addr len).asks s, Agrees child child' f s.child n) :
    peekPeek child' len (s.map f) = (peekPeek child len s).map fun q => (q.1, q.2.map f) := by
  unfold peekPeek
  by_cases hmore : s.length - s.offset < len
  · have hasked : Agrees child child' f s.child (s.readAmount len).toNat := by
      apply hread
      rw [Call.asks, if_neg (show ¬ (len : ℤ) ≤ s.left from not_le.mpr hmore)]
      rfl
    rw [if_pos hmore, if_pos (show (s.map f).length - (s.map f).offset < len from hmore)]
    unfold Agrees State.readAmount at hasked
    simp only [State.map, hasked, Option.map_map]
    congr 1
    funext buffer
    cases buffer with
    | none => rfl
    | some b =>
      simp only [Function.comp_apply]
      split <;> rfl
  · rw [if_neg hmore, if_neg (show ¬ (s.map f).length - (s.map f).offset < len from hmore)]
    rfl

theorem call_map {a : Call} (h : Wf s)
    (hread : ∀ n ∈ a.asks s, Agrees child child' f s.child n) :
    call child' a (s.map f) = (call child a s).map fun q => (q.1, q.2.map f) := by
  cases a with
  | read addr len => exact peekRead_map h hread
  | peek addr len => exact peekPeek_map hread

end Map

/-! ## A layer over a layer -/

section Layer

variable {child : ByteSource σ} {S given : List Byte} {s t : State σ}

/-- Over a source of bytes the peeking reader is a layer itself. -/
theorem peekRead_provides (child : ByteSource σ) (addr : ℕ → State σ → ℕ) (limit : ℕ) :
    Provides (fun len s _ => peekRead child.toSource (addr len s) len s) limit
      fun s rest => ∃ given, Inv child (given ++ rest) given s where
  next s rest len h _ := by
    obtain ⟨given, h⟩ := h
    obtain ⟨data, t, hread, hinv, hle, hend⟩ := peekRead_spec h (addr len s) len
    have hrest : rest = data ++ (t.unread ++ child.content t.child) := by
      have hstream := hinv.stream
      rw [List.append_assoc] at hstream
      exact List.append_cancel_left hstream
    refine ⟨data, t, _, ?_, hle, hrest, ⟨given ++ data, ?_⟩, fun hpos hnil => ?_⟩
    · rw [hread]
      exact .pure _
    · rw [hrest, ← List.append_assoc] at hinv
      exact hinv
    · exact List.self_eq_append_right.mp (hend hpos hnil)

/-- A call reads from the child what it asks for. -/
theorem call_child {source : Source σ} {a : Call} {r : ReadResult} (h : Wf s) (hok : 0 ≤ s.length)
    (hcall : call source a s = some (r, t)) :
    t.child = (a.asks s).elim s.child fun n => (source.read s.child n).2 := by
  cases a with
  | read addr len =>
    obtain ⟨r', t', heq, hmove⟩ := readMove source addr h (Int.natCast_nonneg len)
    rw [call, heq, Option.some_inj, Prod.mk.injEq] at hcall
    rw [← hcall.2, Call.asks]
    cases hmove with
    | sticky herr => omega
    | buffered _ hlen =>
      rw [if_pos hlen]
      exact freeDrained_child _
    | direct _ hmore haligned hread =>
      rw [if_neg (not_le.mpr hmore), if_pos haligned, Option.elim_some, hread]
      exact freeDrained_child _
    | directShort _ hmore haligned hread =>
      rw [if_neg (not_le.mpr hmore), if_pos haligned, Option.elim_some, hread]
    | refill _ hmore haligned hread =>
      rw [if_neg (not_le.mpr hmore), if_neg haligned, Option.elim_some, hread]
      exact freeDrained_child _
    | refillShort _ hmore haligned hread =>
      rw [if_neg (not_le.mpr hmore), if_neg haligned, Option.elim_some, hread]
  | peek addr len =>
    obtain ⟨r', t', heq, hmove⟩ := peekMove source (len : ℤ) h hok
    rw [call, heq, Option.some_inj, Prod.mk.injEq] at hcall
    rw [← hcall.2, Call.asks]
    cases hmove with
    | enough hlen => rw [if_pos hlen, Option.elim_none]
    | fail hmore hread => rw [if_neg (not_le.mpr hmore), Option.elim_some, hread]
    | extend hmore hread => rw [if_neg (not_le.mpr hmore), Option.elim_some, hread]

/-! ## How much a call asks for -/

theorem freeDrained_offset (h : 0 ≤ s.offset) : (freeDrained s).offset ≤ s.offset := by
  unfold freeDrained
  split
  · exact h
  · exact le_rfl

/-- The offset counts bytes of the buffer that the reads have returned. -/
theorem ReadMove.offset_le {addr : ℤ} {len : ℕ} {r : ReadResult} (h : Inv child S given s)
    (hoffset : s.offset ≤ given.length) (hmove : ReadMove child.toSource addr len s r t) :
    t.offset ≤ (given ++ r.data).length := by
  have hret := (hmove.returned h).ret
  have hnonneg := h.offset_nonneg
  have hle := h.offset_le
  have hleft : s.left = s.length - s.offset := rfl
  rw [List.length_append]
  cases hmove with
  | sticky herr => omega
  | buffered =>
    have hfree :=
      freeDrained_offset (s := { s with offset := s.offset + len }) (by simp only; omega)
    simp only at hret hfree ⊢
    omega
  | @direct _ c =>
    have hfree := freeDrained_offset (s := { s with offset := s.length, child := c })
      (by simp only; omega)
    simp only at hret hfree ⊢
    omega
  | directShort =>
    simp only at hret ⊢
    split at hret <;> omega
  | @refill q c hok hmore _ _ hq =>
    have hfree := freeDrained_offset (s := ⟨c,
      some ⟨(refillAmount (len - s.left) s.length).toNat, memcpyAt [] 0 q.data⟩, q.ret,
      min (len - s.left) q.ret⟩) (by simp only; omega)
    simp only at hret hfree ⊢
    omega
  | refillShort =>
    simp only
    omega

theorem call_offset_le {log : List (Call × ReadResult)} {a : Call} {r : ReadResult}
    (h : Inv child S (delivered log) s) (hoffset : s.offset ≤ (delivered log).length)
    (hcall : call child.toSource a s = some (r, t)) :
    t.offset ≤ (delivered (log ++ [(a, r)])).length := by
  rw [delivered_append]
  cases a with
  | read addr len =>
    obtain ⟨r', t', hread, hmove⟩ := readMove child.toSource addr h.wf (Int.natCast_nonneg len)
    rw [call, hread, Option.some_inj, Prod.mk.injEq] at hcall
    obtain ⟨rfl, rfl⟩ := hcall
    have hone : delivered [(Call.read addr len, r')] = r'.data := by simp [delivered]
    rw [hone]
    exact hmove.offset_le h hoffset
  | peek addr len =>
    obtain ⟨r', t', hpeek, hmove⟩ :=
      peekMove child.toSource (len : ℤ) h.wf (h.offset_nonneg.trans h.offset_le)
    rw [call, hpeek, Option.some_inj, Prod.mk.injEq] at hcall
    obtain ⟨rfl, rfl⟩ := hcall
    have hsame : t'.offset = s.offset := by
      cases hmove <;> rfl
    have hone : delivered [(Call.peek addr len, r')] = [] := by simp [delivered]
    rw [hone, List.append_nil, hsame]
    exact hoffset

theorem refillAmount_le {len length limit : ℤ} (hlen : len ≤ limit) (hpeek : peekSize ≤ limit)
    (hlength : length ≤ limit) : refillAmount len length ≤ limit + minReadSize := by
  have hpos : (0 : ℤ) < peekSize := by decide
  unfold refillAmount
  simp only
  set amount := if (if len < peekSize then peekSize else len) < length then length
    else if len < peekSize then peekSize else len with hamount
  have hrange : 0 ≤ amount ∧ amount ≤ limit := by
    rw [hamount]
    split <;> split <;> omega
  have hmod : 0 ≤ amount.tmod minReadSize := Int.tmod_nonneg _ hrange.1
  omega

theorem readAmount_le {len limit : ℤ} (hlength : 0 ≤ s.length + len - s.left) (hleft : 0 ≤ s.left)
    (hlen : len + peekSize ≤ limit) : s.readAmount len ≤ limit := by
  have hmod : 0 ≤ (s.length + (len - (s.length - s.offset))).tmod peekSize := by
    apply Int.tmod_nonneg
    unfold State.left at hlength
    omega
  unfold State.left at hleft
  unfold State.readAmount
  omega

/-- The lengths that a call asks for are not much larger than its own and the stream's. -/
theorem asks_le (h : Inv child S given s) (hoffset : s.offset ≤ given.length) (limit : ℤ)
    (hstream : S.length + peekSize ≤ limit) {a : Call} (ha : a.length + peekSize ≤ limit) :
    ∀ n ∈ a.asks s, (n : ℤ) ≤ limit + minReadSize := by
  have hnonneg := h.offset_nonneg
  have hle := h.offset_le
  have htotal := h.length_eq
  have hleft : s.left = s.length - s.offset := rfl
  have hmin : (0 : ℤ) < minReadSize := by decide
  have hpeek : (0 : ℤ) < peekSize := by decide
  cases a with
  | read addr len =>
    have hlen : (len : ℤ) + peekSize ≤ limit := ha
    have hrefill : refillAmount (len - s.left) s.length ≤ limit + minReadSize :=
      refillAmount_le (by omega) (by omega) (by omega)
    have hpositive := lt_refillAmount (len - s.left) s.length
    intro n hn
    rw [Call.asks] at hn
    split at hn
    · contradiction
    · split at hn
      · rw [← Option.some.inj hn]
        omega
      · rw [← Option.some.inj hn]
        omega
  | peek addr len =>
    have hlen : (len : ℤ) + peekSize ≤ limit := ha
    have hamount : s.readAmount len ≤ limit := readAmount_le (by omega) (by omega) hlen
    intro n hn
    rw [Call.asks] at hn
    split at hn
    · contradiction
    · rw [← Option.some.inj hn]
      omega

/-- A call of the reader over a layer. -/
def callOver (read : ℕ → σ → ℕ → Option (ReadResult × σ)) (a : Call) (s : State (Option σ))
    (fuel : ℕ) : Option (ReadResult × State (Option σ)) :=
  (call (bounded read fuel) a s).filter fun q => q.2.child.isSome

variable {read : ℕ → σ → ℕ → Option (ReadResult × σ)} {limit : ℕ} {I : σ → List Byte → Prop}
  {log : List (Call × ReadResult)}

/-- A call over a layer returns and keeps its promises. -/
theorem callOver_spec (h : Provides read limit I) (hlimit : 1 < limit)
    (hs : Inv (h.byteSource hlimit) S (delivered log) s) (hchild : ∃ rest, I s.child rest)
    (a : Call) (hasks : ∀ n ∈ a.asks s, n < limit) :
    ∃ r t, Yields (callOver read a (s.map some)) (r, t.map some) ∧
      call (h.byteSource hlimit).toSource a s = some (r, t) ∧
      Inv (h.byteSource hlimit) S (delivered (log ++ [(a, r)])) t ∧ CallOk S (delivered log) r a ∧
      ∃ rest, I t.child rest := by
  obtain ⟨⟨r, t⟩, hcall, hinv, hok⟩ := call_spec hs a
  obtain ⟨rest, hrest⟩ := hchild
  have hbound : ∃ n, ∀ fuel, n ≤ fuel → ∀ k ∈ a.asks s,
      Agrees (h.byteSource hlimit).toSource (bounded read fuel) some s.child k := by
    cases hk : a.asks s with
    | none => exact ⟨0, fun _ _ k hnone => absurd hnone (Option.not_mem_none k)⟩
    | some k =>
      obtain ⟨n, hn⟩ := h.bounded_eq hlimit hrest (hasks k hk)
      refine ⟨n, fun fuel hfuel k' hk' => ?_⟩
      rw [← Option.some.inj hk']
      exact hn fuel hfuel
  obtain ⟨n, hn⟩ := hbound
  refine ⟨r, t, ⟨n, fun fuel hfuel => ?_⟩, hcall, hinv, hok, ?_⟩
  · rw [callOver, call_map hs.wf (hn fuel hfuel), hcall]
    rfl
  · rw [call_child hs.wf (hs.offset_nonneg.trans hs.offset_le) hcall]
    cases a.asks s with
    | none => exact ⟨rest, hrest⟩
    | some k => exact h.byteSource_next hlimit hrest k

/-- A peek returns nothing only at the end of the stream. -/
theorem peekPeek_nil {len : ℕ} {r : ReadResult} (h : Inv child S given s) (hlen : 0 < len)
    (hcall : peekPeek child.toSource len s = some (r, t)) (hnil : r.data = []) : given = S := by
  obtain ⟨data, u, hpeek, _, _, hcount⟩ := peekPeek_spec h len
  rw [hcall, Option.some_inj, Prod.mk.injEq] at hpeek
  obtain ⟨rfl, rfl⟩ := hpeek
  obtain rfl : data = [] := hnil
  have hle := h.offset_le
  rw [List.length_nil] at hcount
  by_cases hmore : s.length - s.offset < len
  · have hpos := readAmount_pos hmore
    obtain ⟨bytes, c, hread, _, _, hend⟩ :=
      child.read_spec s.child (show 0 < (s.readAmount len).toNat by omega)
    have hsupplied : supplied child.toSource len s = bytes.length := by
      unfold supplied
      rw [if_pos hmore, hread]
    have hbytes : bytes = [] := List.eq_nil_of_length_eq_zero (by omega)
    have hunread := h.unread_eq_nil (by omega)
    have hstream := h.stream
    rw [hunread, hend hbytes, List.append_nil, List.append_nil] at hstream
    exact hstream.symm
  · have hnone : supplied child.toSource len s = 0 := if_neg hmore
    omega

/-- What a call returns while the bytes `rest` are to come, and what is to come behind it. -/
def Hands (rest : List Byte) (r : ReadResult) (rest' : List Byte) : Call → Prop
  | .read _ len =>
    r.ret = r.data.length ∧ r.data.length ≤ len ∧ rest = r.data ++ rest' ∧
      (0 < len → r.data = [] → rest = [])
  | .peek _ len =>
    r.ret = r.data.length ∧ r.data.length ≤ len ∧ r.data <+: rest ∧ rest' = rest ∧
      (0 < len → r.data = [] → rest = [])

/-- A reader over a layer, of whose stream `S` the bytes `rest` are to come. -/
structure Standing (h : Provides read limit I) (hlimit : 1 < limit) (S rest : List Byte)
    (s : State σ) : Prop where
  stands : ∃ given, S = given ++ rest ∧ Inv (h.byteSource hlimit) S given s ∧
    s.offset ≤ given.length
  child : ∃ rest, I s.child rest

/-- A call on a reader that stands anywhere in its stream. -/
theorem Standing.call {h : Provides read limit I} {hlimit : 1 < limit} {rest : List Byte}
    (hs : Standing h hlimit S rest s) {bound : ℤ} (hbound : bound + minReadSize < limit)
    (hS : S.length + peekSize ≤ bound) (a : Call) (ha : a.length + peekSize ≤ bound) :
    ∃ r t rest', Yields (callOver read a (s.map some)) (r, t.map some) ∧ Hands rest r rest' a ∧
      Standing h hlimit S rest' t := by
  obtain ⟨given, hstream, hinv, hoffset⟩ := hs.stands
  have hasks : ∀ n ∈ a.asks s, n < limit := by
    intro n hn
    have hle := asks_le hinv hoffset bound hS ha n hn
    omega
  -- the calls so far are as good as one read of all bytes
  have hgiven : delivered [(Call.read 0 0, ⟨0, given⟩)] = given := by simp [delivered]
  have hinv' := hinv
  have hoffset' := hoffset
  rw [← hgiven] at hinv' hoffset'
  obtain ⟨r, t, hyields, hcall, hnext, hok, hchild⟩ := callOver_spec h hlimit hinv' hs.child a hasks
  have hle := call_offset_le hinv' hoffset' hcall
  rw [delivered_append, hgiven] at hnext hle
  rw [hgiven] at hok
  cases a with
  | read addr len =>
    have hone : delivered [(Call.read addr len, r)] = r.data := by simp [delivered]
    rw [hone] at hnext hle
    obtain ⟨hret, hlen, ⟨rest', hrest'⟩, hend⟩ := hok
    have hrest : rest = r.data ++ rest' := by
      rw [hstream, List.append_assoc] at hrest'
      exact (List.append_cancel_left hrest').symm
    refine ⟨r, t, rest', hyields, ⟨hret, hlen, hrest, fun hpos hnil => ?_⟩,
      ⟨⟨given ++ r.data, hrest'.symm, hnext, hle⟩, hchild⟩⟩
    have hall := hend hpos (by rw [hret, hnil]; rfl)
    rw [hstream] at hall
    exact List.self_eq_append_right.mp hall
  | peek addr len =>
    have hone : delivered [(Call.peek addr len, r)] = [] := by simp [delivered]
    rw [hone, List.append_nil] at hnext hle
    obtain ⟨hret, hlen, hprefix⟩ := hok
    rw [hstream] at hprefix
    refine ⟨r, t, rest, hyields, ⟨hret, hlen, (List.prefix_append_right_inj given).mp hprefix, rfl,
      fun hpos hnil => ?_⟩, ⟨⟨given, hstream, hnext, hle⟩, hchild⟩⟩
    have hall := peekPeek_nil hinv hpos hcall hnil
    rw [hstream] at hall
    exact List.self_eq_append_right.mp hall

/-- A reader over a layer is a layer. -/
theorem standing_provides (h : Provides read limit I) (hlimit : 1 < limit) (S : List Byte)
    (addr : ℕ) {bound : ℤ} (limit' : ℕ) (hbound : bound + minReadSize < limit)
    (hS : S.length + peekSize ≤ bound) (hlimit' : limit' + peekSize ≤ bound) :
    Provides (fun len s fuel => callOver read (.read addr len) s fuel) limit' fun s rest =>
      ∃ u : State σ, s = u.map some ∧ Standing h hlimit S rest u where
  next s rest len hs hlen := by
    obtain ⟨u, rfl, hu⟩ := hs
    have hle : (Call.read addr len).length + peekSize ≤ bound := by
      show (len : ℤ) + peekSize ≤ bound
      omega
    obtain ⟨r, t, rest', hyields, ⟨hret, hcount, hrest, hend⟩, ht⟩ := hu.call hbound hS _ hle
    refine ⟨r.data, t.map some, rest', ?_, hcount, hrest, ⟨t, rfl, ht⟩, hend⟩
    rw [← hret]
    exact hyields

end Layer

end Wandio.PeekReader
