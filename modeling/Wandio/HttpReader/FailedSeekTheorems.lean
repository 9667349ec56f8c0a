import Wandio.HttpReader.SeekTheorems

/-!
# Failed seeks

A failed seek leaves the buffer empty, so that every later read returns 0. It does no harm only
where the reads have come to an end anyway: the reader is `Exhausted`, and reading on up to the
target does not move it.
-/

namespace Wandio.HttpReader

open Loop Transition

/-- What holds of a reader over every network, as long as no seek fails. -/
structure Settled (object : List Byte) (s : State) : Prop where
  pBuf_le : s.pBuf ≤ s.lBuf
  position : s.position = s.off0 + s.lBuf
  length_le : s.totalLength ≤ object.length

/-- Reads return nothing: the buffer is empty, or it is used up and nothing comes any more. -/
def Exhausted (object : List Byte) (s : State) : Prop :=
  s.lBuf = 0 ∨ s.pBuf = s.lBuf ∧ (s.doneReading = true ∨ object.length ≤ s.off0 + s.lBuf)

section Settled

variable {net : ℕ → Transfer} {object : List Byte} {s t : State} {ret : ℤ} {fuel : ℕ}

theorem Settled.filled (h : Settled object s) (net : ℕ → Transfer) :
    Settled object (filled net object s) := by
  obtain ⟨buf, n, hn⟩ := perform_eq object
    { s with off0 := s.off0 + s.lBuf, pBuf := 0, lBuf := 0 } (net s.transfers)
  have hposition := h.position
  have hlength := h.length_le
  rw [HttpReader.filled, hn]
  refine ⟨Nat.zero_le _, ?_, ?_⟩
  · show s.position + n = s.off0 + s.lBuf + (0 + n)
    omega
  · show (if s.totalLength < 0 then contentLength object _ _ else s.totalLength) ≤ _
    split
    · unfold contentLength
      split
      · have := Int.natCast_nonneg s.curl.resumeFrom
        show (object.length : ℤ) - s.curl.resumeFrom ≤ object.length
        omega
      · exact le_trans (by decide) (Int.natCast_nonneg _)
    · exact hlength

/-- A transfer is started. -/
theorem Settled.prepare (h : s.totalLength ≤ object.length) (rc : ℤ) :
    Settled object (prepare rc s) := ⟨le_rfl, rfl, h⟩

theorem Settled.fillResult (h : Settled object s) (net : ℕ → Transfer) :
    Settled object (fillResult net object s).2 := by
  have hfilled := h.filled net
  unfold HttpReader.fillResult
  simp only
  split
  · exact ⟨le_rfl, h.position, h.length_le⟩
  · split
    · exact hfilled
    · split
      · exact Settled.prepare (s := initIo (HttpReader.filled net object s)) hfilled.length_le _
      · split
        · exact ⟨hfilled.pBuf_le, hfilled.position, hfilled.length_le⟩
        · exact hfilled

/-- Filling the buffer does not move the reader. -/
theorem fillResult_off0 (net : ℕ → Transfer) (object : List Byte) (s : State) :
    (fillResult net object s).2.off0 = s.off0 + s.lBuf := by
  have hoff0 := (filled_fields net object s).1
  unfold fillResult
  simp only
  split
  · rfl
  · split
    · exact hoff0
    · split
      · exact hoff0
      · split
        · exact hoff0
        · exact hoff0

/-- What has come is in the buffer. -/
theorem fillResult_filled (hdone : ¬ s.doneReading = true)
    (hok : ¬ (net s.transfers).failed = true) (hstay : ¬ Restarts net object s) :
    (fillResult net object s).1 = (filled net object s).lBuf ∧
      (fillResult net object s).2.lBuf = (filled net object s).lBuf ∧
      (fillResult net object s).2.pBuf = 0 := by
  have hpbuf := (filled_fields net object s).2.1
  unfold fillResult
  simp only
  rw [if_neg hdone, if_neg hok, if_neg hstay]
  refine ⟨rfl, ?_, ?_⟩
  · split <;> rfl
  · split <;> exact hpbuf

theorem Settled.fill (h : Settled object s)
    (hfill : fillBuffer net object fuel s = some (ret, t)) : Settled object t := by
  have heq := fillBuffer_eq_some hfill
  rw [show t = (HttpReader.fillResult net object s).2 from (congrArg Prod.snd heq)]
  exact h.fillResult net

/-- The buffer is used up. -/
theorem Settled.used (h : Settled object s) : Settled object { s with pBuf := s.lBuf } :=
  ⟨le_rfl, h.position, h.length_le⟩

/-- A read, whatever it returns. -/
theorem Settled.httpRead (h : Settled object s) {len : ℕ} {r : ReadResult}
    (hr : httpRead net object len s fuel = some (r, t)) : Settled object t := by
  unfold HttpReader.httpRead httpReadWith at hr
  split at hr
  · cases hr
    exact h
  · rw [Option.join_eq_some_iff] at hr
    refine loop_invariant (I := fun v : Reading => Settled object v.io)
      (Q := fun q => ∀ r t, q = some (r, t) → Settled object t) ?_ ?_ h hr r t rfl
    · intro v w hv hw
      cases readMove_next hw with
      | copy hmore henough =>
        refine ⟨?_, hv.position, hv.length_le⟩
        have := hv.pBuf_le
        show v.io.pBuf + v.rest ≤ v.io.lBuf
        omega
      | refill hshort hfill hret => exact hv.used.fill hfill
    · intro v q hv hq r t hrt
      cases readMove_done hq with
      | finish hrest =>
        cases hrt
        exact hv
      | hang => cases hrt
      | finished hshort hfill =>
        cases hrt
        exact hv.used.fill hfill
      | fail hshort hfill _ _ _ _ =>
        cases hrt
        exact hv.used.fill hfill

/-- A seek that does not fail. -/
theorem Settled.httpSeek (h : Settled object s) {offset : ℤ} {whence : Whence}
    (hr : httpSeek net object offset whence s fuel = some (ret, t)) (hret : 0 ≤ ret) :
    Settled object t := by
  have hmove := seekMove net object offset whence s fuel
  rw [hr] at hmove
  generalize seekTarget offset whence s = target at hmove
  generalize hout : some (ret, t) = out at hmove
  cases hmove with
  | rejected _ =>
    cases hout
    omega
  | inside hin =>
    cases hout
    refine ⟨?_, h.position, h.length_le⟩
    have hlt := hin.2
    show s.pBuf + (_ - httpTell s) ≤ s.lBuf
    omega
  | far _ _ =>
    rcases reconnect_some hout.symm with ⟨_, _, n, _, hfill⟩ | ⟨rfl, _⟩
    · refine Settled.fill ?_ hfill
      exact ⟨le_rfl, rfl, h.length_le⟩
    · omega
  | near _ hnear =>
    obtain ⟨r, u, hread, ⟨_, _, rfl⟩ | ⟨_, rfl, _⟩⟩ := skip_some hnear hout.symm
    · exact h.httpRead hread
    · omega

end Settled

/-! ## Exhausted readers -/

/-- In a read of `len` bytes that returns none. -/
structure Dry (object : List Byte) (pos len : ℕ) (v : Reading) : Prop where
  settled : Settled object v.io
  used : v.io.pBuf = v.io.lBuf
  ended : v.io.doneReading = true ∨ object.length ≤ v.io.off0 + v.io.lBuf
  tell : v.io.off0 + v.io.lBuf = pos
  out : v.out = []
  rest : v.rest = len
  begun : v.rest = 0 → len = 0

section Exhausted

variable {net : ℕ → Transfer} {object : List Byte} {s t : State} {ret : ℤ} {pos len fuel : ℕ}

/-- Nothing comes behind the end of the object. -/
theorem filled_behind (h : Settled object s) (hbehind : object.length ≤ s.off0 + s.lBuf)
    (net : ℕ → Transfer) : (filled net object s).lBuf = 0 := by
  have hnone : ∀ (pieces : List ℕ) (u : State), object.length ≤ u.position → u.lBuf = 0 →
      (pieces.foldl (deliver object) u).lBuf = 0 := by
    intro pieces
    induction pieces with
    | nil => exact fun u _ hu => hu
    | cons size pieces ih =>
      intro u hposition hu
      have hpiece : (object.drop u.position).take size = [] := by
        rw [List.drop_of_length_le hposition, List.take_nil]
      have hsame : (deliver object u size).position = u.position ∧
          (deliver object u size).lBuf = u.lBuf := by
        unfold deliver writeCb
        rw [hpiece]
        split
        · exact ⟨rfl, rfl⟩
        · next v hv =>
          split at hv
          · cases hv
          · cases hv
            exact ⟨rfl, rfl⟩
      exact ih _ (by rw [hsame.1]; exact hposition) (by rw [hsame.2]; exact hu)
  refine hnone (net s.transfers).pieces
    { s with off0 := s.off0 + s.lBuf, pBuf := 0, lBuf := 0 } ?_ rfl
  show object.length ≤ s.position
  rw [h.position]
  exact hbehind

/-- Filling the buffer of an exhausted reader brings nothing. -/
theorem fillResult_dry (h : Settled object s)
    (hended : s.doneReading = true ∨ object.length ≤ s.off0 + s.lBuf) (net : ℕ → Transfer) :
    (fillResult net object s).2.pBuf = 0 ∧ (fillResult net object s).2.lBuf = 0 ∧
      ((fillResult net object s).2.doneReading = true ∨
        object.length ≤ (fillResult net object s).2.off0) ∧
      ((fillResult net object s).1 = fillFinished ∨ (fillResult net object s).1 = fillRetry) := by
  have hoff0 := fillResult_off0 net object s
  rw [hoff0]
  by_cases hdone : s.doneReading = true
  · have hfill : fillResult net object s =
        (fillFinished, { s with off0 := s.off0 + s.lBuf, pBuf := 0, lBuf := 0 }) := by
      rw [fillResult, if_pos hdone]
    rw [hfill]
    exact ⟨rfl, rfl, .inl hdone, .inl rfl⟩
  · have hbehind := hended.resolve_left hdone
    have hlbuf := filled_behind h hbehind net
    obtain ⟨hfoff0, hfpbuf, _⟩ := filled_fields net object s
    have hlength := (h.filled net).length_le
    have hstay : ¬ Restarts net object s := by
      rintro ⟨_, _, _, hmore⟩
      omega
    by_cases hfailed : (net s.transfers).failed = true
    · have hfill : fillResult net object s = (-1, HttpReader.filled net object s) := by
        rw [fillResult, if_neg hdone, if_pos hfailed]
      rw [hfill]
      exact ⟨hfpbuf, hlbuf, .inr hbehind, .inr rfl⟩
    · obtain ⟨hret, hl, hp⟩ := fillResult_filled hdone hfailed hstay
      rw [hlbuf] at hret hl
      exact ⟨hp, hl, .inr hbehind, .inl hret⟩

/-- The buffer is filled in a read that returns nothing. -/
theorem Dry.fill {v : Reading} (h : Dry object pos len v) {io : State}
    (hfill : fillBuffer net object fuel { v.io with pBuf := v.io.lBuf } = some (ret, io)) :
    Dry object pos len ⟨io, v.rest - (v.io.lBuf - v.io.pBuf), v.out ++ v.io.buffered⟩ ∧
      io.lBuf = 0 ∧ (ret = fillFinished ∨ ret = fillRetry) := by
  have heq := fillBuffer_eq_some hfill
  have hsettled := h.settled.used
  obtain ⟨hpbuf, hlbuf, hended, hret⟩ := fillResult_dry hsettled h.ended net
  have hoff0 := fillResult_off0 net object { v.io with pBuf := v.io.lBuf }
  have hused := hsettled.fillResult net
  rw [← heq] at hpbuf hlbuf hended hret hoff0 hused
  have hnil : v.io.buffered = [] := by
    rw [State.buffered, h.used, List.drop_take_self]
  have hlen : v.rest - (v.io.lBuf - v.io.pBuf) = v.rest := by
    rw [h.used, Nat.sub_self, Nat.sub_zero]
  have htell : io.off0 = v.io.off0 + v.io.lBuf := hoff0
  refine ⟨⟨hused, hpbuf.trans hlbuf.symm, ?_, ?_, ?_, ?_, ?_⟩, hlbuf, hret⟩
  · show io.doneReading = true ∨ object.length ≤ io.off0 + io.lBuf
    exact hended.imp id fun hle => le_trans hle (Nat.le_add_right _ _)
  · show io.off0 + io.lBuf = pos
    rw [show io.lBuf = 0 from hlbuf, htell]
    exact h.tell
  · show v.out ++ v.io.buffered = []
    rw [h.out, hnil]
    rfl
  · show v.rest - (v.io.lBuf - v.io.pBuf) = len
    rw [hlen]
    exact h.rest
  · show v.rest - (v.io.lBuf - v.io.pBuf) = 0 → len = 0
    rw [hlen]
    exact h.begun

/-- A read of an exhausted reader returns nothing and leaves it where it is, and a read of at
least one byte empties the buffer. -/
theorem Exhausted.httpRead (h : Exhausted object s) (hs : Settled object s) {r : ReadResult}
    (hr : httpRead net object len s fuel = some (r, t)) :
    r = ⟨0, []⟩ ∧ httpTell t = httpTell s ∧ Exhausted object t ∧ Settled object t ∧
      (0 < len → t.lBuf = 0 ∧ t.off0 = httpTell s) := by
  have hsettled := hs.httpRead hr
  unfold HttpReader.httpRead httpReadWith at hr
  split at hr
  · next hl =>
    cases hr
    have hp := hs.pBuf_le
    refine ⟨rfl, rfl, .inl hl, hs, fun _ => ⟨hl, ?_⟩⟩
    rw [httpTell]
    omega
  · next hl =>
    obtain ⟨hused, hended⟩ := h.resolve_left hl
    rw [Option.join_eq_some_iff] at hr
    have hstart : Dry object (httpTell s) len ⟨s, len, []⟩ := by
      refine ⟨hs, hused, hended, ?_, rfl, rfl, id⟩
      rw [httpTell, hused]
    have hread : r = ⟨0, []⟩ ∧ t.pBuf = t.lBuf ∧
        (t.doneReading = true ∨ object.length ≤ t.off0 + t.lBuf) ∧
        t.off0 + t.lBuf = httpTell s ∧ (0 < len → t.lBuf = 0) := by
      refine loop_invariant (I := Dry object (httpTell s) len)
        (Q := fun q => ∀ r t, q = some (r, t) → r = ⟨0, []⟩ ∧ t.pBuf = t.lBuf ∧
          (t.doneReading = true ∨ object.length ≤ t.off0 + t.lBuf) ∧
          t.off0 + t.lBuf = httpTell s ∧ (0 < len → t.lBuf = 0)) ?_ ?_ hstart hr r t rfl
      · intro v w hv hw
        cases readMove_next hw with
        | copy hmore henough =>
          rw [hv.used, Nat.sub_self, Nat.le_zero] at henough
          exact absurd henough hmore
        | refill hshort hfill _ => exact (hv.fill hfill).1
      · intro v q hv hq r t hrt
        cases readMove_done hq with
        | finish hrest =>
          cases hrt
          have hlen := hv.begun hrest
          refine ⟨?_, hv.used, hv.ended, hv.tell, fun hpos => absurd hlen hpos.ne'⟩
          rw [hv.out, hrest, hlen]
          rfl
        | hang => cases hrt
        | @finished io hshort hfill =>
          cases hrt
          obtain ⟨hdry, hlbuf, _⟩ := hv.fill hfill
          have hrest : v.rest - (v.io.lBuf - v.io.pBuf) = len := hdry.rest
          have hout : v.out ++ v.io.buffered = [] := hdry.out
          refine ⟨?_, hdry.used, hdry.ended, hdry.tell, fun _ => hlbuf⟩
          rw [hrest, hout, Int.sub_self]
        | fail hshort hfill _ hfinished hretry _ =>
          rcases (hv.fill hfill).2.2 with hret | hret
          · exact absurd hret hfinished
          · exact absurd hret hretry
    obtain ⟨hret, hused', hended', htell, hempty⟩ := hread
    refine ⟨hret, ?_, .inr ⟨hused', hended'⟩, hsettled, fun hpos => ⟨hempty hpos, ?_⟩⟩
    · rw [httpTell, hused', htell]
    · have hl' := hempty hpos
      omega

end Exhausted

/-! ## Later reads -/

/-- The network behind `k` transfers, when `later` are still to come. -/
def resume (later : ℕ → Transfer) (k : ℕ) : ℕ → Transfer := fun i => later (i - k)

/-- What the reads behind the state return, when `later` are the transfers still to come. -/
def laterReads (later : ℕ → Transfer) (object : List Byte) (s : State) (lens : List ℕ)
    (fuel : ℕ) : Option (List (ℕ × ReadResult)) :=
  (runCalls (fun len s => httpRead (resume later s.transfers) object len s fuel) lens s).map
    Prod.fst

/-- As long as later transfers succeed, reads return the same behind both states. -/
def SameReads (object : List Byte) (s t : State) : Prop :=
  ∀ later, Clean later → ∀ lens fuel log log',
    laterReads later object s lens fuel = some log →
    laterReads later object t lens fuel = some log' → log = log'

section Later

variable {later : ℕ → Transfer} {object : List Byte} {s t : State} {lens : List ℕ} {fuel : ℕ}

/-- The reads of an exhausted reader return nothing. -/
theorem Exhausted.laterReads (h : Exhausted object s) (hs : Settled object s)
    {log : List (ℕ × ReadResult)} (hr : laterReads later object s lens fuel = some log) :
    log = lens.map fun len => (len, ⟨0, []⟩) := by
  unfold HttpReader.laterReads at hr
  rw [Option.map_eq_some_iff] at hr
  obtain ⟨⟨log', t⟩, hrun, rfl⟩ := hr
  induction lens generalizing s log' with
  | nil =>
    rw [runCalls] at hrun
    cases hrun
    rfl
  | cons len lens ih =>
    rw [runCalls, Option.bind_eq_some_iff] at hrun
    obtain ⟨⟨r, u⟩, hread, hrun⟩ := hrun
    rw [Option.map_eq_some_iff] at hrun
    obtain ⟨⟨rest, v⟩, hrest, heq⟩ := hrun
    cases heq
    obtain ⟨rfl, _, hu, hus, _⟩ := h.httpRead hs hread
    rw [List.map_cons, ih hu hus rest hrest]

/-- An empty buffer is the end for every read. -/
theorem laterReads_empty (h : s.lBuf = 0) :
    laterReads later object s lens fuel = some (lens.map fun len => (len, ⟨0, []⟩)) := by
  have hread : ∀ len, httpRead (resume later s.transfers) object len s fuel =
      some (⟨0, []⟩, s) := fun len => if_pos h
  have hrun : runCalls (fun len s => httpRead (resume later s.transfers) object len s fuel) lens s =
      some (lens.map fun len => (len, ⟨0, []⟩), s) := by
    induction lens with
    | nil => rfl
    | cons len lens ih =>
      rw [runCalls, hread, Option.bind_some, ih]
      rfl
  unfold laterReads
  rw [hrun]
  rfl

/-- A later network that delivers a byte each time. -/
def byteNet (_ : ℕ) : Transfer := ⟨[1], true, true, none, 0, 0⟩

/-- A byte is delivered if there is one. -/
theorem filled_byte (hs : Settled object s) (hmore : s.off0 + s.lBuf < object.length) (k : ℕ) :
    (filled (resume byteNet k) object s).lBuf = 1 := by
  have hlen : ((object.drop s.position).take 1).length = 1 := by
    rw [List.length_take, List.length_drop, hs.position]
    omega
  have hroom : ¬ mBuf < ((object.drop s.position).take 1).length + 0 := by
    rw [hlen]
    decide
  show (deliver object { s with off0 := s.off0 + s.lBuf, pBuf := 0, lBuf := 0 } 1).lBuf = 1
  unfold deliver writeCb
  simp only
  rw [if_neg hroom, hlen]

/-- A reader that is not exhausted can return a byte. -/
theorem exists_read_byte (hs : Settled object s) (h : ¬ Exhausted object s) :
    ∃ data t, httpRead (resume byteNet s.transfers) object 1 s 3 = some (⟨1, data⟩, t) := by
  obtain ⟨hl, hmore⟩ := not_or.mp h
  have hp := hs.pBuf_le
  set net := resume byteNet s.transfers with hnet
  set fill := fillBuffer net object 3 with hfillDef
  -- the byte is in the buffer
  have hcopy : ∀ (v : Reading) (m : ℕ), v.rest = 1 → v.io.pBuf < v.io.lBuf →
      ∃ data t, loop (readTurn fill 1) (m + 2) v = some (some (⟨1, data⟩, t)) := by
    intro v m hrest hin
    have hfirst : readTurn fill 1 v =
        .next ⟨{ v.io with pBuf := v.io.pBuf + v.rest }, 0,
          v.out ++ v.io.buffered.take v.rest⟩ := by
      unfold readTurn
      rw [if_neg (by omega), if_pos (by omega)]
    rw [loop, hfirst]
    exact ⟨_, _, rfl⟩
  have hread : httpRead net object 1 s 3 = (loop (readTurn fill 1) 3 ⟨s, 1, []⟩).join :=
    if_neg hl
  rw [hread]
  rcases Nat.lt_or_eq_of_le hp with hin | hused
  · obtain ⟨data, t, ht⟩ := hcopy ⟨s, 1, []⟩ 1 rfl hin
    exact ⟨data, t, by rw [ht]; rfl⟩
  · -- the buffer is filled first
    obtain ⟨hdone, hbehind⟩ := not_or.mp (not_and.mp hmore hused)
    have hlbuf := filled_byte (s := { s with pBuf := s.lBuf }) hs.used (not_le.mp hbehind)
      s.transfers
    rw [← hnet] at hlbuf
    have hstay : ¬ Restarts net object { s with pBuf := s.lBuf } := by
      rintro ⟨_, _, hzero, _⟩
      omega
    have hok : ¬ (net s.transfers).failed = true := by
      rw [hnet]
      exact Bool.false_ne_true
    obtain ⟨hret, hiol, hiop⟩ := fillResult_filled (s := { s with pBuf := s.lBuf }) hdone hok hstay
    rw [hlbuf] at hret hiol
    set io := (fillResult net object { s with pBuf := s.lBuf }).2 with hioDef
    have hio : fill { s with pBuf := s.lBuf } = some (1, io) := by
      rw [hfillDef, fillBuffer_succ rfl, Option.some_inj]
      exact Prod.ext hret rfl
    have hempty : s.lBuf - s.pBuf = 0 := by omega
    have hfirst : readTurn fill 1 ⟨s, 1, []⟩ = .next ⟨io, 1, [] ++ s.buffered⟩ := by
      unfold readTurn
      simp only
      rw [if_neg one_ne_zero, hempty, if_neg (by decide), hio]
      simp only
      rw [if_pos one_pos]
    obtain ⟨data, t, ht⟩ := hcopy ⟨io, 1, [] ++ s.buffered⟩ 0 rfl (by simp only; omega)
    refine ⟨data, t, ?_⟩
    rw [loop, hfirst]
    simp only
    rw [ht]
    rfl

end Later

/-! ## Runs -/

/-- A read, or a seek to any offset from anywhere. -/
inductive Request where
  | read (len : ℕ)
  | seek (offset : ℤ) (whence : Whence)

/-- A reader whose owner reads and seeks, as long as no seek fails. A label is a call and a bound
under which it returns. -/
def requests (net : ℕ → Transfer) (object : List Byte) (s₀ : State) :
    System State (Request × ℕ) where
  init := s₀
  next s l :=
    match l.1 with
    | .read len => (httpRead net object len s l.2).map Prod.snd
    | .seek offset whence =>
      (httpSeek net object offset whence s l.2).bind fun r => if 0 ≤ r.1 then some r.2 else none

/-- `http_seek` has no offset to go to. -/
def Rejected (offset : ℤ) (whence : Whence) (s : State) : Prop :=
  ∀ n, seekTarget offset whence s = some n → n < 0

/-- The offset to go to is near enough to be read up to. -/
def Ahead (offset : ℤ) (whence : Whence) (s : State) : Prop :=
  ∃ off : ℕ, seekTarget offset whence s = some off ∧ httpTell s ≤ off ∧
    off ≤ httpTell s + httpMaxSkip

section Runs

variable {net : ℕ → Transfer} {object : List Byte} {s₀ s t : State} {offset : ℤ}
  {whence : Whence} {fuel : ℕ}

theorem settled_of_open {hdrs : List (List Byte)} (hopen : httpOpenHdrs net object hdrs fuel =
    some (some s)) : Settled object s := by
  unfold httpOpenHdrs at hopen
  simp only [connected_eq] at hopen
  split at hopen
  · cases hopen
  · rw [Option.map_eq_some_iff] at hopen
    obtain ⟨⟨r, t⟩, hfill, ht⟩ := hopen
    split at ht
    · cases ht
    · cases ht
      refine Settled.fill ⟨le_rfl, rfl, ?_⟩ hfill
      show (-1 : ℤ) ≤ object.length
      omega

theorem settled_of_reachable (h₀ : Settled object s₀)
    (hs : Reachable (requests net object s₀) s) : Settled object s := by
  refine hs.invariant h₀ ?_
  rintro s ⟨call, fuel⟩ t h hst
  cases call with
  | read len =>
    have hst' : (httpRead net object len s fuel).map Prod.snd = some t := hst
    rw [Option.map_eq_some_iff] at hst'
    obtain ⟨⟨r, u⟩, hread, rfl⟩ := hst'
    exact h.httpRead hread
  | seek offset whence =>
    have hst' : ((httpSeek net object offset whence s fuel).bind fun r =>
      if 0 ≤ r.1 then some r.2 else none) = some t := hst
    rw [Option.bind_eq_some_iff] at hst'
    obtain ⟨⟨ret, u⟩, hseek, hu⟩ := hst'
    split at hu
    · next hret =>
      cases hu
      exact h.httpSeek hseek hret
    · cases hu

/-- A seek that has been rejected, or has failed elsewhere. -/
theorem failed_seek
    (hseek : httpSeek net object offset whence s fuel = some (-1, t)) :
    (Rejected offset whence s ∧ t = s) ∨
      (∃ off : ℕ, seekTarget offset whence s = some off ∧ t.lBuf = 0 ∧ t.pBuf = 0 ∧
        (Far off s ∧ t.off0 = off ∨
          ¬ Far off s ∧ ∃ r u, httpRead net object (off - httpTell s) s fuel = some (r, u) ∧
            r.ret ≠ (off - httpTell s : ℕ) ∧ t.off0 = u.off0)) := by
  have hmove := seekMove net object offset whence s fuel
  rw [hseek] at hmove
  unfold Rejected
  generalize seekTarget offset whence s = target at hmove ⊢
  generalize hout : some ((-1 : ℤ), t) = out at hmove
  cases hmove with
  | rejected hneg =>
    cases hout
    exact .inl ⟨hneg, rfl⟩
  | inside _ => cases hout
  | far _ hfar =>
    right
    rcases reconnect_some hout.symm with ⟨hret, _⟩ | ⟨_, hl, hp, hoff0⟩
    · omega
    · refine ⟨_, rfl, hl, hp, .inl ⟨hfar, ?_⟩⟩
      rcases hoff0 with hoff0 | ⟨n, u, hoff0, hfill⟩
      · exact hoff0
      · have hfilled := congrArg Prod.snd (fillBuffer_eq_some hfill)
        rw [hoff0, show u = _ from hfilled, fillResult_off0]
        exact Nat.add_zero _
  | near _ hnear =>
    right
    obtain ⟨r, u, hread, ⟨_, hret, _⟩ | ⟨hshort, _, rfl⟩⟩ := skip_some hnear hout.symm
    · omega
    · exact ⟨_, rfl, rfl, rfl, .inr ⟨hnear, r, u, hread, hshort, rfl⟩⟩

/-- A failed seek leaves the position and what later reads return alone exactly if `http_seek`
had no offset to go to, or the reader was exhausted and the offset near. -/
theorem failed_seek_harmless_iff {hdrs : List (List Byte)} {bound : ℕ}
    (hopen : httpOpenHdrs net object hdrs bound = some (some s₀))
    (hs : Reachable (requests net object s₀) s)
    (hseek : httpSeek net object offset whence s fuel = some (-1, t)) :
    (httpTell t = httpTell s ∧ SameReads object s t) ↔
      Rejected offset whence s ∨ (Exhausted object s ∧ Ahead offset whence s) := by
  have hsettled := settled_of_reachable (settled_of_open hopen) hs
  rcases failed_seek hseek with ⟨hreject, rfl⟩ | ⟨off, htarget, hl, hp, hway⟩
  · refine iff_of_true ⟨rfl, fun later _ lens fuel log log' hlog hlog' => ?_⟩ (.inl hreject)
    rw [hlog] at hlog'
    exact Option.some.inj hlog'
  · have haccept : ¬ Rejected offset whence s := by
      intro hreject
      have := hreject off htarget
      omega
    have htell : httpTell t = t.off0 := by rw [httpTell, hp, Nat.add_zero]
    have hpast : httpTell s = s.off0 + s.pBuf := rfl
    rw [or_iff_right haccept, htell]
    rcases hway with ⟨hfar, hoff0⟩ | ⟨hnear, r, u, hread, hshort, hoff0⟩
    · -- by a new transfer: the position is the target
      refine iff_of_false (fun h => ?_) ?_
      · unfold Far at hfar
        omega
      · rintro ⟨_, off', htarget', hle, hskip⟩
        rw [htarget] at htarget'
        obtain rfl : off = off' := by exact_mod_cast Option.some.inj htarget'
        unfold Far at hfar
        omega
    · unfold Far at hnear
      constructor
      · -- a reader that is not exhausted has lost bytes
        rintro ⟨_, hsame⟩
        refine ⟨?_, off, htarget, by omega, by omega⟩
        by_contra hmore
        obtain ⟨data, v, hbyte⟩ := exists_read_byte hsettled hmore
        have hlog : laterReads byteNet object s [1] 3 = some [(1, ⟨1, data⟩)] := by
          unfold laterReads
          rw [runCalls, hbyte]
          rfl
        have heq := hsame byteNet (fun _ => ⟨rfl, rfl, rfl, rfl⟩) [1] 3 _ _ hlog
          (laterReads_empty hl)
        have hret := congrArg (List.map fun call => call.2.ret) heq
        exact absurd hret (by simp)
      · rintro ⟨hexhausted, -⟩
        obtain ⟨hr, _, _, hu, hempty⟩ := hexhausted.httpRead hsettled hread
        have hpos : 0 < off - httpTell s := by
          by_contra hzero
          rw [Nat.le_zero.mp (not_lt.mp hzero), hr] at hshort
          exact hshort rfl
        refine ⟨hoff0.trans (hempty hpos).2, fun later _ lens fuel log log' hlog hlog' => ?_⟩
        rw [laterReads_empty hl, Option.some_inj] at hlog'
        rw [hexhausted.laterReads hsettled hlog, hlog']

end Runs

/-- A reader of three bytes that has been opened. -/
def atStart : State := { atOne with pBuf := 0 }

/-- The reader behind a seek past the end of its object. -/
def seekBehind : State := ⟨⟨[], 0⟩, [1, 2, 3], 3, 3, 0, 0, true, 3, 2, [⟨[], 0⟩]⟩

/-- The seek past the end moves the reader, and the seek to -1 does not. -/
theorem failed_seek_harmless_iff_atStart :
    ¬ (httpTell seekBehind = httpTell atStart ∧ SameReads [1, 2, 3] atStart seekBehind) ∧
    (httpTell atStart = httpTell atStart ∧ SameReads [1, 2, 3] atStart atStart) := by
  have hopen : httpOpenHdrs promptNet [1, 2, 3] [] 1 = some (some atStart) := by decide
  constructor
  · have hseek : httpSeek promptNet [1, 2, 3] 10 .set atStart 3 = some (-1, seekBehind) := by
      decide
    intro h
    rcases (failed_seek_harmless_iff hopen .init hseek).mp h with hreject | ⟨hexhausted, -⟩
    · exact absurd (hreject 10 rfl) (by decide)
    · revert hexhausted
      unfold Exhausted
      decide
  · have hseek : httpSeek promptNet [1, 2, 3] (-1) .set atStart 0 = some (-1, atStart) := by
      decide
    refine (failed_seek_harmless_iff hopen .init hseek).mpr (.inl fun n hn => ?_)
    cases hn
    decide

/-- A seek past the end fails, and the bytes in front of it cannot be read any more. -/
theorem failed_seek_moves :
    httpOpenHdrs promptNet [1, 2, 3] [] 1 = some (some atStart) ∧
    httpSeek promptNet [1, 2, 3] 10 .set atStart 3 = some (-1, seekBehind) ∧
    httpTell atStart = 0 ∧ httpTell seekBehind = 3 ∧
    laterReads promptNet [1, 2, 3] atStart [2] 3 = some [(2, ⟨2, [1, 2]⟩)] ∧
    laterReads promptNet [1, 2, 3] seekBehind [2] 3 = some [(2, ⟨0, []⟩)] := by
  decide

end Wandio.HttpReader
