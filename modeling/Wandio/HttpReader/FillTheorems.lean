import Wandio.HttpReader.Model

/-!
# Filling the buffer

What `fill_buffer` does, as one function of the state and the transfer: the `http_seek` with
which it starts anew finds the position it looks for and leaves everything as it is.
-/

namespace Wandio.HttpReader

open Loop

/-- The state behind the loop of `fill_buffer`. -/
def filled (net : ℕ → Transfer) (object : List Byte) (s : State) : State :=
  perform object { s with off0 := s.off0 + s.lBuf, pBuf := 0, lBuf := 0 } (net s.transfers)

/-- `fill_buffer` starts anew: nothing has come, no error either, and the object goes on. -/
def Restarts (net : ℕ → Transfer) (object : List Byte) (s : State) : Prop :=
  s.doneReading = false ∧ (net s.transfers).failed = false ∧ (filled net object s).lBuf = 0 ∧
    ((filled net object s).off0 : ℤ) < (filled net object s).totalLength

instance (net : ℕ → Transfer) (object : List Byte) (s : State) :
    Decidable (Restarts net object s) :=
  inferInstanceAs (Decidable (_ ∧ _ ∧ _ ∧ _))

/-- The result of `fill_buffer`. -/
def fillResult (net : ℕ → Transfer) (object : List Byte) (s : State) : ℤ × State :=
  let t := filled net object s
  let a := net s.transfers
  if s.doneReading then
    (fillFinished, { s with off0 := s.off0 + s.lBuf, pBuf := 0, lBuf := 0 })
  else if a.failed then (-1, t)
  else if Restarts net object s then
    (if a.addAgain = 0 then fillRetry else fillRetryError, prepare a.addAgain (initIo t))
  else (t.lBuf, if t.lBuf < mBuf - curlMaxWriteSize ∧ t.totalLength ≤ t.off0 then
    { t with doneReading := true } else t)

section Fill

variable {net : ℕ → Transfer} {object : List Byte} {s : State}

/-- What the pieces of a transfer change. -/
theorem foldl_deliver_eq (object : List Byte) (pieces : List ℕ) (s : State) :
    ∃ buf n, pieces.foldl (deliver object) s =
      { s with buf := buf, lBuf := s.lBuf + n, position := s.position + n } := by
  induction pieces generalizing s with
  | nil => exact ⟨s.buf, 0, rfl⟩
  | cons size pieces ih =>
    obtain ⟨buf, n, hn⟩ := ih (deliver object s size)
    rw [List.foldl_cons, hn]
    unfold deliver writeCb
    split
    · exact ⟨buf, n, rfl⟩
    · next t ht =>
      split at ht
      · contradiction
      · rw [← Option.some.inj ht]
        exact ⟨buf, ((object.drop s.position).take size).length + n,
          by simp only [Nat.add_assoc]⟩

/-- The pieces do not depend on the length. -/
theorem foldl_deliver_length (object : List Byte) (pieces : List ℕ) (n : ℤ) (s : State) :
    pieces.foldl (deliver object) { s with totalLength := n } =
      { pieces.foldl (deliver object) s with totalLength := n } := by
  induction pieces generalizing s with
  | nil => rfl
  | cons size pieces ih =>
    have hone : deliver object { s with totalLength := n } size =
        { deliver object s size with totalLength := n } := by
      unfold deliver writeCb
      by_cases hroom : mBuf < ((object.drop s.position).take size).length + s.lBuf
      · simp only [hroom, if_true]
      · simp only [hroom, if_false]
    rw [List.foldl_cons, List.foldl_cons, hone, ih]

/-- What the loop of `fill_buffer` changes. -/
theorem perform_eq (object : List Byte) (s : State) (a : Transfer) :
    ∃ buf n, perform object s a =
      { s with
        buf := buf
        lBuf := s.lBuf + n
        position := s.position + n
        totalLength := if s.totalLength < 0 then contentLength object s a else s.totalLength
        transfers := s.transfers + 1 } := by
  obtain ⟨buf, n, hn⟩ := foldl_deliver_eq object a.pieces s
  refine ⟨buf, n, ?_⟩
  rw [perform, hn]
  rfl

/-- What the loop leaves alone. -/
theorem filled_fields (net : ℕ → Transfer) (object : List Byte) (s : State) :
    (filled net object s).off0 = s.off0 + s.lBuf ∧ (filled net object s).pBuf = 0 ∧
      (filled net object s).doneReading = s.doneReading ∧ (filled net object s).curl = s.curl ∧
      (filled net object s).requests = s.requests ∧
      (filled net object s).transfers = s.transfers + 1 := by
  obtain ⟨buf, n, hn⟩ := perform_eq object
    { s with off0 := s.off0 + s.lBuf, pBuf := 0, lBuf := 0 } (net s.transfers)
  rw [filled, hn]
  exact ⟨rfl, rfl, rfl, rfl, rfl, rfl⟩

/-- The seek at the end of `fill_buffer` is to where the reader is. -/
theorem httpSeekWith_here (net : ℕ → Transfer) (fill : State → Option (ℤ × State))
    (hl : s.lBuf = 0) (hp : s.pBuf = 0) (fuel : ℕ) :
    httpSeekWith net fill s.off0 .set s fuel = some ((s.off0 : ℤ), s) := by
  have htell : httpTell s = s.off0 := by rw [httpTell, hp, Nat.add_zero]
  have hskip : skip fill s.off0 s fuel = some ((s.off0 : ℤ), s) := by
    simp [skip, htell, httpReadWith, hl]
  unfold httpSeekWith
  simp only [htell, Int.toNat_natCast]
  rw [if_neg (by omega), if_neg (by omega), if_neg (by omega)]
  exact hskip

theorem fillBuffer_succ (hp : s.pBuf = s.lBuf) (fuel : ℕ) :
    fillBuffer net object (fuel + 1) s = some (fillResult net object s) := by
  obtain ⟨_, hpos, hdone, _⟩ := filled_fields net object s
  rw [fillBuffer, fillWith, if_neg (by omega), fillResult]
  set t := filled net object s with ht
  have hset : perform object { s with off0 := s.off0 + s.lBuf, pBuf := 0, lBuf := 0 }
    (net s.transfers) = t := rfl
  simp only [hset]
  by_cases hd : s.doneReading
  · rw [if_pos hd, if_pos hd]
  rw [if_neg hd, if_neg hd]
  have hd' : s.doneReading = false := by simpa using hd
  by_cases hf : (net s.transfers).failed
  · rw [if_pos hf, if_pos hf]
  rw [if_neg hf, if_neg hf]
  have hf' : (net s.transfers).failed = false := by simpa using hf
  have htotal : (t.off0 : ℤ) + (t.pBuf : ℤ) = t.off0 := by rw [hpos]; simp
  have hroom : 0 < mBuf - curlMaxWriteSize := by decide
  rw [htotal]
  by_cases hr : Restarts net object s
  · have hl := hr.2.2.1
    have hmore := hr.2.2.2
    have hkeep : ¬ (t.lBuf < mBuf - curlMaxWriteSize ∧ t.totalLength ≤ t.off0) := by
      rw [← ht] at hmore
      omega
    have hgo : ¬ t.doneReading = true ∧ t.lBuf = 0 := ⟨by rw [hdone, hd']; decide, hl⟩
    rw [if_pos hr, if_neg hkeep, if_pos hgo]
    by_cases hadd : (net s.transfers).addAgain = 0
    · have hseek := httpSeekWith_here net (fillBuffer net object fuel)
        (s := prepare (net s.transfers).addAgain (initIo t)) rfl rfl fuel
      rw [if_neg (by omega), if_pos hadd, show t.off0 + t.pBuf + t.lBuf = t.off0 by omega]
      have hoff0 : (prepare (net s.transfers).addAgain (initIo t)).off0 = t.off0 := rfl
      rw [hoff0] at hseek
      rw [hseek]
      rfl
    · rw [if_pos hadd, if_neg hadd]
  · rw [if_neg hr]
    by_cases hend : t.lBuf < mBuf - curlMaxWriteSize ∧ t.totalLength ≤ t.off0
    · rw [if_pos hend, if_neg fun h => h.1 rfl]
    · have hstay : ¬ (¬ t.doneReading = true ∧ t.lBuf = 0) := by
        rintro ⟨_, hl⟩
        apply hr
        refine ⟨hd', hf', hl, ?_⟩
        rw [← ht]
        omega
      rw [if_neg hend, if_neg hstay]

/-- A `fill_buffer` that returns. -/
theorem fillBuffer_eq_some {fuel : ℕ} {q : ℤ × State}
    (hr : fillBuffer net object fuel s = some q) : q = fillResult net object s := by
  cases fuel with
  | zero => contradiction
  | succ fuel =>
    by_cases hp : s.pBuf = s.lBuf
    · rw [fillBuffer_succ hp] at hr
      exact (Option.some.inj hr).symm
    · rw [fillBuffer, fillWith, if_pos hp] at hr
      contradiction

/-- The state in front of the first `fill_buffer`. -/
theorem connected_eq (rc : ℤ) (hdrs : List (List Byte)) :
    prepare rc (processHdrs (initIo newHttp) hdrs) =
      ⟨⟨hdrs, 0⟩, [], 0, -1, 0, 0, false, 0, 0, if rc = 0 then [⟨hdrs, 0⟩] else []⟩ := by
  unfold processHdrs
  split
  · next hnil =>
    subst hnil
    rfl
  · rfl

/-- The length is known from the first transfer on. -/
theorem filled_known (hs : s.totalLength = -1) (hresume : s.curl.resumeFrom = 0)
    (hknown : (net s.transfers).lengthKnown = true) :
    filled net object s = filled net object { s with totalLength := object.length } := by
  set u : State := { s with off0 := s.off0 + s.lBuf, pBuf := 0, lBuf := 0 } with hu
  have hlength := foldl_deliver_length object (net s.transfers).pieces object.length u
  obtain ⟨buf, n, hn⟩ := foldl_deliver_eq object (net s.transfers).pieces u
  have hleft : filled net object s = perform object u (net s.transfers) := rfl
  have hright : filled net object { s with totalLength := object.length } =
    perform object { u with totalLength := object.length } (net s.transfers) := rfl
  rw [hleft, hright, perform, perform, hlength, hn]
  simp only [contentLength, hknown, hu, hs, hresume]
  simp

/-- The first `fill_buffer` of a reader. -/
theorem fillBuffer_known (hdone : s.doneReading = false) (hs : s.totalLength = -1)
    (hresume : s.curl.resumeFrom = 0) (hknown : (net s.transfers).lengthKnown = true)
    (hp : s.pBuf = s.lBuf) (fuel : ℕ) :
    fillBuffer net object (fuel + 1) s =
      fillBuffer net object (fuel + 1) { s with totalLength := object.length } := by
  rw [fillBuffer_succ hp, fillBuffer_succ (s := { s with totalLength := object.length }) hp]
  simp only [fillResult, Restarts, filled_known hs hresume hknown, hdone, Bool.false_eq_true,
    if_false]

end Fill

/-! ## The turns of a read -/

section Turns

variable {fill : State → Option (ℤ × State)} {len : ℕ} {v w : Reading}

/-- What a turn of the loop of `http_read` does. -/
inductive ReadMove (fill : State → Option (ℤ × State)) (len : ℕ) (v : Reading) :
    Turn Reading (Option (ReadResult × State)) → Prop where
  | finish (hrest : v.rest = 0) : ReadMove fill len v (.done (some (⟨len - v.rest, v.out⟩, v.io)))
  | copy (hmore : v.rest ≠ 0) (henough : v.rest ≤ v.io.lBuf - v.io.pBuf) :
      ReadMove fill len v (.next ⟨{ v.io with pBuf := v.io.pBuf + v.rest }, 0,
        v.out ++ v.io.buffered.take v.rest⟩)
  | hang : ReadMove fill len v (.done none)
  | refill {ret : ℤ} {io : State} (hshort : v.io.lBuf - v.io.pBuf < v.rest)
      (hfill : fill { v.io with pBuf := v.io.lBuf } = some (ret, io))
      (hret : 0 < ret ∨ ret = fillRetry) :
      ReadMove fill len v
        (.next ⟨io, v.rest - (v.io.lBuf - v.io.pBuf), v.out ++ v.io.buffered⟩)
  | finished {io : State} (hshort : v.io.lBuf - v.io.pBuf < v.rest)
      (hfill : fill { v.io with pBuf := v.io.lBuf } = some (fillFinished, io)) :
      ReadMove fill len v (.done (some
        (⟨len - (v.rest - (v.io.lBuf - v.io.pBuf) : ℕ), v.out ++ v.io.buffered⟩, io)))
  | fail {ret res : ℤ} {io : State} (hshort : v.io.lBuf - v.io.pBuf < v.rest)
      (hfill : fill { v.io with pBuf := v.io.lBuf } = some (ret, io)) (hpos : ¬ 0 < ret)
      (hfinished : ret ≠ fillFinished) (hretry : ret ≠ fillRetry)
      (hres : res = if ret = fillRetryError then -1 else -2) :
      ReadMove fill len v (.done (some (⟨res, v.out ++ v.io.buffered⟩, io)))

theorem readMove (fill : State → Option (ℤ × State)) (len : ℕ) (v : Reading) :
    ReadMove fill len v (readTurn fill len v) := by
  unfold readTurn
  split
  · next hrest => exact .finish hrest
  · next hmore =>
    split
    · next henough => exact .copy hmore henough
    · next hshort =>
      -- the buffer is used up and filled, and the result tells how to go on
      have hshort := not_le.mp hshort
      simp only
      split
      · exact .hang
      · next ret io hfill =>
        split
        · next hpos => exact .refill hshort hfill (.inl hpos)
        · next hpos =>
          split
          · next hfinished => exact .finished hshort (hfinished ▸ hfill)
          · next hfinished =>
            split
            · next hretry => exact .refill hshort hfill (.inr hretry)
            · next hretry =>
              split
              · next herror =>
                exact .fail hshort hfill hpos hfinished hretry (if_pos herror).symm
              · next herror =>
                exact .fail hshort hfill hpos hfinished hretry (if_neg herror).symm

/-- A turn behind which the read goes on. -/
theorem readMove_next (h : readTurn fill len v = .next w) : ReadMove fill len v (.next w) :=
  h ▸ readMove fill len v

/-- A turn that ends the read. -/
theorem readMove_done {q : Option (ReadResult × State)} (h : readTurn fill len v = .done q) :
    ReadMove fill len v (.done q) :=
  h ▸ readMove fill len v

end Turns

end Wandio.HttpReader
