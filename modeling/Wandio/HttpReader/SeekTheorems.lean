import Wandio.HttpReader.PositionTheorems

/-!
# Where a seek goes

A seek computes the offset it goes to, and goes there inside of the buffer, by a new transfer or
by reading. From the current position it goes to one byte less than it is asked to. A seek that
fails is more than a seek that has not been made: the buffer is empty behind it, which a read
takes for the end of the object, and after a new transfer the position is another one too.
-/

namespace Wandio.HttpReader

open Loop Transition

/-- The offset that `http_seek` goes to. -/
def seekTarget (offset : ℤ) (whence : Whence) (s : State) : Option ℤ :=
  match whence with
  | .set => some offset
  | .cur => some (-1 + (httpTell s + offset))
  | .fromEnd => none

/-- The offset is in the buffer. -/
def Inside (off : ℕ) (s : State) : Prop := httpTell s ≤ off ∧ off - httpTell s + s.pBuf < s.lBuf

instance (off : ℕ) (s : State) : Decidable (Inside off s) := inferInstanceAs (Decidable (_ ∧ _))

/-- The offset is out of reach of a read. -/
def Far (off : ℕ) (s : State) : Prop := off < httpTell s ∨ httpMaxSkip < off - httpTell s

instance (off : ℕ) (s : State) : Decidable (Far off s) := inferInstanceAs (Decidable (_ ∨ _))

section Moves

variable {net : ℕ → Transfer} {object : List Byte} {s t : State} {offset ret : ℤ}
  {whence : Whence} {off fuel : ℕ}

/-- How `http_seek` goes to its target. -/
inductive SeekMove (net : ℕ → Transfer) (object : List Byte) (s : State) (fuel : ℕ) :
    Option ℤ → Option (ℤ × State) → Prop where
  | rejected {target : Option ℤ} (hout : ∀ n, target = some n → n < 0) :
      SeekMove net object s fuel target (some (-1, s))
  | inside {off : ℕ} (hin : Inside off s) : SeekMove net object s fuel (some off)
      (some ((off : ℤ), { s with pBuf := s.pBuf + (off - httpTell s) }))
  | far {off : ℕ} (hout : ¬ Inside off s) (hfar : Far off s) : SeekMove net object s fuel (some off)
      (reconnect net (fillBuffer net object fuel) off s)
  | near {off : ℕ} (hout : ¬ Inside off s) (hnear : ¬ Far off s) :
      SeekMove net object s fuel (some off) (skip (fillBuffer net object fuel) off s fuel)

theorem seekMove (net : ℕ → Transfer) (object : List Byte) (offset : ℤ) (whence : Whence)
    (s : State) (fuel : ℕ) :
    SeekMove net object s fuel (seekTarget offset whence s)
      (httpSeek net object offset whence s fuel) := by
  have htarget : httpSeek net object offset whence s fuel =
      (seekTarget offset whence s).elim (some (-1, s))
        fun n => httpSeek net object n .set s fuel := by
    cases whence <;> rfl
  rw [htarget]
  cases seekTarget offset whence s with
  | none => exact .rejected fun n hn => by cases hn
  | some n =>
    by_cases hneg : n < 0
    · have hreject : httpSeek net object n .set s fuel = some (-1, s) := if_pos hneg
      rw [Option.elim_some, hreject]
      refine .rejected fun m hm => ?_
      rwa [← Option.some.inj hm]
    · obtain ⟨off, rfl⟩ := Int.eq_ofNat_of_zero_le (not_lt.mp hneg)
      have hset : httpSeek net object off .set s fuel =
          if Inside off s then
            some ((httpTell { s with pBuf := s.pBuf + (off - httpTell s) } : ℤ),
              { s with pBuf := s.pBuf + (off - httpTell s) })
          else if Far off s then reconnect net (fillBuffer net object fuel) off s
          else skip (fillBuffer net object fuel) off s fuel := by
        unfold httpSeek httpSeekWith
        simp only [Int.toNat_natCast]
        exact if_neg hneg
      rw [Option.elim_some, hset]
      split
      · next hin =>
        have hthere : httpTell { s with pBuf := s.pBuf + (off - httpTell s) } = off := by
          have hle := hin.1
          have htell : httpTell s = s.off0 + s.pBuf := rfl
          show s.off0 + (s.pBuf + (off - httpTell s)) = off
          omega
        rw [hthere]
        exact .inside hin
      · next hout =>
        split
        · next hfar => exact .far hout hfar
        · next hnear => exact .near hout hnear

/-- The offset of a new transfer is returned, or the seek has failed. -/
theorem reconnect_some {fill : State → Option (ℤ × State)}
    (hr : reconnect net fill off s = some (ret, t)) :
    (ret = off ∧ 0 ≤ (net s.transfers).addHandle ∧ ∃ n, 0 < n ∧
        fill (prepare (net s.transfers).addHandle { s with off0 := off, doneReading := false }) =
          some (n, t)) ∨
      ret = -1 ∧ t.lBuf = 0 ∧ t.pBuf = 0 ∧
        (t.off0 = off ∨ ∃ n u, t.off0 = u.off0 ∧
          fill (prepare (net s.transfers).addHandle { s with off0 := off, doneReading := false }) =
            some (n, u)) := by
  unfold reconnect at hr
  simp only at hr
  split at hr
  · cases hr
    exact .inr ⟨rfl, rfl, rfl, .inl rfl⟩
  · next hadd =>
    rw [Option.map_eq_some_iff] at hr
    obtain ⟨⟨n, u⟩, hfill, hu⟩ := hr
    simp only at hu
    split at hu
    · cases hu
      exact .inr ⟨rfl, rfl, rfl, .inr ⟨n, u, rfl, hfill⟩⟩
    · next hpos =>
      cases hu
      exact .inl ⟨rfl, not_lt.mp hadd, n, not_le.mp hpos, hfill⟩

/-- The offset that has been read up to is returned, or the seek has failed. -/
theorem skip_some {fill : State → Option (ℤ × State)} (hnear : ¬ Far off s)
    (hr : skip fill off s fuel = some (ret, t)) :
    ∃ r u, httpReadWith fill (off - httpTell s) s fuel = some (r, u) ∧
      ((r.ret = (off - httpTell s : ℕ) ∧ ret = off ∧ t = u) ∨
        (r.ret ≠ (off - httpTell s : ℕ) ∧ ret = -1 ∧ t = { u with lBuf := 0, pBuf := 0 })) := by
  unfold Far at hnear
  unfold skip at hr
  rw [Option.map_eq_some_iff] at hr
  obtain ⟨⟨r, u⟩, hread, hu⟩ := hr
  refine ⟨r, u, hread, ?_⟩
  simp only at hu
  split at hu
  · next hshort =>
    cases hu
    exact .inr ⟨by omega, rfl, rfl⟩
  · next hthere =>
    cases hu
    exact .inl ⟨by omega, rfl, rfl⟩

/-- A seek that does not fail returns its target. -/
theorem seekTarget_of_nonneg (hr : httpSeek net object offset whence s fuel = some (ret, t))
    (hret : 0 ≤ ret) : seekTarget offset whence s = some ret := by
  have hmove := seekMove net object offset whence s fuel
  rw [hr] at hmove
  generalize seekTarget offset whence s = target at hmove ⊢
  generalize hout : some (ret, t) = out at hmove
  cases hmove with
  | rejected _ =>
    cases hout
    omega
  | inside _ =>
    cases hout
    rfl
  | far _ _ =>
    rcases reconnect_some hout.symm with ⟨rfl, _⟩ | ⟨rfl, _⟩
    · rfl
    · omega
  | near _ hnear =>
    obtain ⟨_, _, _, ⟨_, rfl, _⟩ | ⟨_, rfl, _⟩⟩ := skip_some hnear hout.symm
    · rfl
    · omega

end Moves

/-! ## Relative seeks -/

/-- The reader can be moved to the offset: it is in the buffer, or a new transfer from there
brings something, or as many bytes as lie in between can be read. -/
def Reaches (net : ℕ → Transfer) (object : List Byte) (off : ℕ) (s : State) (fuel : ℕ) : Prop :=
  Inside off s ∨
    (Far off s ∧ 0 ≤ (net s.transfers).addHandle ∧ ∃ n t, 0 < n ∧
      fillBuffer net object fuel
        (prepare (net s.transfers).addHandle { s with off0 := off, doneReading := false }) =
          some (n, t)) ∨
    (¬ Far off s ∧ ∃ r t, httpRead net object (off - httpTell s) s fuel = some (r, t) ∧
      r.ret = (off - httpTell s : ℕ))

/-- What a seek by `offset` promises when it does not fail. -/
def SeeksRelative (net : ℕ → Transfer) (object : List Byte) (offset : ℤ) (s : State)
    (fuel : ℕ) : Prop :=
  ∀ ret t, httpSeek net object offset .cur s fuel = some (ret, t) → 0 ≤ ret →
    ret = httpTell s + offset ∧ (httpTell t : ℤ) = httpTell s + offset ∧
    httpSeek net object (httpTell s + offset) .set s fuel = some (ret, t)

section Relative

variable {net : ℕ → Transfer} {object : List Byte} {s : State} {offset : ℤ} {off fuel : ℕ}

/-- A seek to an offset does not fail exactly if the reader can be moved there. -/
theorem exists_seek_iff : (∃ ret t, httpSeek net object off .set s fuel = some (ret, t) ∧ 0 ≤ ret) ↔
    Reaches net object off s fuel := by
  have hmove := seekMove net object off .set s fuel
  have htarget : seekTarget off .set s = some (off : ℤ) := rfl
  rw [htarget] at hmove
  generalize hout : httpSeek net object off .set s fuel = out at hmove ⊢
  generalize htgt : some (off : ℤ) = target at hmove
  cases hmove with
  | rejected hneg => exact absurd (hneg off htgt.symm) (by omega)
  | @inside n hin =>
    obtain rfl : off = n := by exact_mod_cast Option.some.inj htgt
    exact iff_of_true ⟨_, _, rfl, Int.natCast_nonneg _⟩ (.inl hin)
  | @far n hnot hfar =>
    obtain rfl : off = n := by exact_mod_cast Option.some.inj htgt
    constructor
    · rintro ⟨ret, t, hr, hret⟩
      rcases reconnect_some hr with ⟨_, hadd, m, hm, hfill⟩ | ⟨rfl, _⟩
      · exact .inr (.inl ⟨hfar, hadd, m, t, hm, hfill⟩)
      · omega
    · rintro (hin | ⟨_, hadd, m, t, hm, hfill⟩ | ⟨hnear, _⟩)
      · exact absurd hin hnot
      · refine ⟨off, t, ?_, Int.natCast_nonneg _⟩
        unfold reconnect
        simp only
        rw [if_neg (not_lt.mpr hadd), hfill, Option.map_some, if_neg (not_le.mpr hm)]
      · exact absurd hfar hnear
  | @near n hnot hnear =>
    obtain rfl : off = n := by exact_mod_cast Option.some.inj htgt
    constructor
    · rintro ⟨ret, t, hr, hret⟩
      obtain ⟨r, u, hread, ⟨hfull, _⟩ | ⟨_, rfl, _⟩⟩ := skip_some hnear hr
      · exact .inr (.inr ⟨hnear, r, u, hread, hfull⟩)
      · omega
    · rintro (hin | ⟨hfar, _⟩ | ⟨_, r, t, hread, hfull⟩)
      · exact absurd hin hnot
      · exact absurd hfar hnear
      · refine ⟨off, t, ?_, Int.natCast_nonneg _⟩
        have hthere : ¬ (r.ret + (httpTell s : ℤ) ≠ off) := by
          unfold Far at hnear
          omega
        have hread' : httpReadWith (fillBuffer net object fuel) (off - httpTell s) s fuel =
          some (r, t) := hread
        unfold skip
        rw [hread', Option.map_some, if_neg hthere]

/-- A seek by `offset` is the seek to one byte less than `offset` from here, and so it keeps its
promise only by failing: when that byte is the one in front of the object, or the reader cannot
be moved there. -/
theorem seeks_relative_iff (net : ℕ → Transfer) (object : List Byte) (s : State) (offset : ℤ)
    (hpos : 0 ≤ httpTell s + offset) :
    (∀ fuel, httpSeek net object offset .cur s fuel =
      httpSeek net object (httpTell s + offset - 1) .set s fuel) ∧
    ((∀ fuel, SeeksRelative net object offset s fuel) ↔
      httpTell s + offset = 0 ∨
        ∀ fuel, ¬ Reaches net object (httpTell s + offset - 1).toNat s fuel) := by
  have hsame : ∀ fuel, httpSeek net object offset .cur s fuel =
      httpSeek net object (httpTell s + offset - 1) .set s fuel := by
    intro fuel
    rw [show (httpTell s + offset - 1 : ℤ) = -1 + (httpTell s + offset) by omega]
    rfl
  refine ⟨hsame, ?_⟩
  -- a seek that does not fail is one byte short
  have hfails : ∀ fuel, SeeksRelative net object offset s fuel ↔
      ∀ ret t, httpSeek net object offset .cur s fuel = some (ret, t) → ret < 0 := by
    intro fuel
    constructor
    · intro h ret t hr
      by_contra hret
      have htarget := seekTarget_of_nonneg hr (not_lt.mp hret)
      have hret' : -1 + (httpTell s + offset) = ret := Option.some.inj htarget
      have := (h ret t hr (not_lt.mp hret)).1
      omega
    · intro h ret t hr hret
      exact absurd (h ret t hr) (not_lt.mpr hret)
  rcases eq_or_lt_of_le hpos with hzero | hlt
  · refine iff_of_true (fun fuel => (hfails fuel).mpr fun ret t hr => ?_) (.inl hzero.symm)
    by_contra hret
    have htarget := seekTarget_of_nonneg hr (not_lt.mp hret)
    have hret' : -1 + (httpTell s + offset) = ret := Option.some.inj htarget
    omega
  · obtain ⟨off, hoff⟩ := Int.eq_ofNat_of_zero_le (show 0 ≤ httpTell s + offset - 1 by omega)
    rw [or_iff_right (by omega), hoff, Int.toNat_natCast]
    refine forall_congr' fun fuel => ?_
    rw [hfails, ← exists_seek_iff, hsame, hoff]
    push Not
    rfl

end Relative

/-- A network that delivers up to three bytes each time. -/
def promptNet (_ : ℕ) : Transfer := ⟨[3], true, true, none, 0, 0⟩

/-- A reader of three bytes that has returned one. -/
def atOne : State := ⟨⟨[], 0⟩, [1, 2, 3], 0, 3, 3, 1, false, 3, 1, [⟨[], 0⟩]⟩

/-- Behind the first byte a seek by 0 is to the byte 0, and a seek by -1 fails. -/
theorem seeks_relative_iff_atOne :
    (¬ ∀ fuel, SeeksRelative promptNet [1, 2, 3] 0 atOne fuel) ∧
    ∀ fuel, SeeksRelative promptNet [1, 2, 3] (-1) atOne fuel := by
  obtain ⟨_, hhere⟩ := seeks_relative_iff promptNet [1, 2, 3] atOne 0 (by decide)
  obtain ⟨_, hback⟩ := seeks_relative_iff promptNet [1, 2, 3] atOne (-1) (by decide)
  constructor
  · rw [hhere, not_or]
    refine ⟨by decide, fun h => h 1 (.inr (.inl ⟨by decide, by decide, 3, ?_⟩))⟩
    exact ⟨_, by decide, rfl⟩
  · rw [hback]
    exact .inl (by decide)

/-- A byte is read, and the seek by 0 behind it returns 0. -/
theorem seek_one_short : ∃ s₀ t,
    httpOpenHdrs promptNet [1, 2, 3] [] 1 = some (some s₀) ∧
    httpRead promptNet [1, 2, 3] 1 s₀ 2 = some (⟨1, [1]⟩, atOne) ∧ httpTell atOne = 1 ∧
    httpSeek promptNet [1, 2, 3] 0 .cur atOne 1 = some (0, t) ∧ httpTell t = 0 ∧
    ¬ SeeksRelative promptNet [1, 2, 3] 0 atOne 1 := by
  refine ⟨_, _, rfl, rfl, rfl, rfl, rfl, fun h => ?_⟩
  obtain ⟨hret, _⟩ := h 0 _ rfl le_rfl
  exact absurd hret (by decide)

end Wandio.HttpReader
