import Wandio.HttpReader.FailureTheorems
import Wandio.HttpReader.PositionTheorems
import Mathlib.Data.Nat.Find
import Mathlib.Data.Prod.Lex

/-!
# The object as a source of bytes

Where curl reports no errors, a read only waits for what has not come yet. If the transfers go on
bringing something, every read comes to an end, and the reader is a source of the bytes of the
object behind its position.
-/

namespace Wandio.HttpReader

open Loop

/-- Curl hands something to `write_cb`, which gets no more than `CURL_MAX_WRITE_SIZE` at once. -/
def Transfer.Delivers (a : Transfer) : Prop := ∃ size ∈ a.pieces, 0 < size ∧ size ≤ curlMaxWriteSize

instance (a : Transfer) : Decidable a.Delivers := inferInstanceAs (Decidable (∃ _ ∈ _, _))

/-- However many transfers have brought nothing, there is one that does. -/
def GoesOn (net : ℕ → Transfer) : Prop := ∀ i, ∃ j, i ≤ j ∧ (net j).Delivers

/-- How many transfers there are up to one that brings something. -/
def waiting {net : ℕ → Transfer} (hgoes : GoesOn net) (i : ℕ) : ℕ := Nat.find (hgoes i) - i

section Delivery

variable {net : ℕ → Transfer} {object : List Byte} {s : State}

theorem le_lBuf_foldl (object : List Byte) (pieces : List ℕ) (s : State) :
    s.lBuf ≤ (pieces.foldl (deliver object) s).lBuf := by
  obtain ⟨_, n, hn⟩ := foldl_deliver_eq object pieces s
  rw [hn]
  exact Nat.le_add_right _ _

/-- What one piece does to an empty buffer. -/
theorem deliver_empty (object : List Byte) (hl : s.lBuf = 0) (size : ℕ) :
    0 < (deliver object s size).lBuf ∨
      (deliver object s size).lBuf = 0 ∧ (deliver object s size).position = s.position := by
  unfold deliver writeCb
  split
  · exact .inr ⟨hl, rfl⟩
  · next t ht =>
    split at ht
    · contradiction
    · obtain rfl := Option.some.inj ht
      rcases Nat.eq_zero_or_pos ((object.drop s.position).take size).length with hzero | hpos
      · refine .inr ⟨?_, ?_⟩
        · show s.lBuf + _ = 0
          omega
        · show s.position + _ = s.position
          omega
      · refine .inl ?_
        show 0 < s.lBuf + _
        omega

/-- A piece that fits is taken if the object goes on. -/
theorem deliver_fits (hl : s.lBuf = 0) (hmore : s.position < object.length) {size : ℕ}
    (hpos : 0 < size) (hsize : size ≤ curlMaxWriteSize) : 0 < (deliver object s size).lBuf := by
  have hm : mBuf = curlMaxWriteSize * 2 := rfl
  have hlen : ((object.drop s.position).take size).length = min size (object.length - s.position) :=
    by rw [List.length_take, List.length_drop]
  unfold deliver writeCb
  rw [if_neg (by omega)]
  show 0 < s.lBuf + _
  omega

/-- A transfer that delivers fills an empty buffer. -/
theorem foldl_deliver_pos {pieces : List ℕ} (hl : s.lBuf = 0) (hmore : s.position < object.length)
    (h : ∃ size ∈ pieces, 0 < size ∧ size ≤ curlMaxWriteSize) :
    0 < (pieces.foldl (deliver object) s).lBuf := by
  induction pieces generalizing s with
  | nil =>
    obtain ⟨size, hmem, _⟩ := h
    exact absurd hmem List.not_mem_nil
  | cons size pieces ih =>
    rw [List.foldl_cons]
    obtain ⟨size', hmem, hpos, hsize⟩ := h
    rcases deliver_empty object hl size with hfilled | ⟨hempty, hposition⟩
    · exact hfilled.trans_le (le_lBuf_foldl object pieces _)
    · rcases List.mem_cons.mp hmem with rfl | hmem
      · have hfits := deliver_fits hl hmore hpos hsize
        omega
      · exact ih hempty (hposition ▸ hmore) ⟨size', hmem, hpos, hsize⟩

/-- The reader starts anew only behind a transfer that has brought nothing. -/
theorem Window.not_delivers (h : Window object s)
    (hr : Restarts net object s) : ¬ (net s.transfers).Delivers := by
  intro hdelivers
  obtain ⟨hdone, _, hempty, hmore⟩ := hr
  have hoff0 := (filled_fields net object s).1
  have hposition := h.position
  obtain ⟨hwindow, _⟩ := h.filled net hdone
  have hlength := hwindow.length
  have hfilled : 0 < (HttpReader.filled net object s).lBuf := by
    refine foldl_deliver_pos (s := { s with off0 := s.off0 + s.lBuf, pBuf := 0, lBuf := 0 }) rfl
      ?_ hdelivers
    show s.position < object.length
    omega
  omega

end Delivery

/-! ## Reads come to an end -/

section Reads

variable {net : ℕ → Transfer} {object : List Byte} {s t : State} {len : ℕ}

/-- What there is to do in a read: the bytes to copy, an empty buffer to fill, and the transfers to
wait for. -/
def ahead (hgoes : GoesOn net) (v : Reading) : ℕ ×ₗ ℕ :=
  toLex (2 * v.rest + if v.io.pBuf < v.io.lBuf then 0 else 1, waiting hgoes v.io.transfers)

/-- In a transfer that brings nothing the wait gets shorter. -/
theorem waiting_succ (hgoes : GoesOn net) {i : ℕ} (h : ¬ (net i).Delivers) :
    waiting hgoes (i + 1) < waiting hgoes i := by
  obtain ⟨hle, hdelivers⟩ := Nat.find_spec (hgoes i)
  have hne : Nat.find (hgoes i) ≠ i := fun heq => h (heq ▸ hdelivers)
  have hmin : Nat.find (hgoes (i + 1)) ≤ Nat.find (hgoes i) :=
    Nat.find_min' _ ⟨by omega, hdelivers⟩
  have hlater := (Nat.find_spec (hgoes (i + 1))).1
  unfold waiting
  omega

/-- `FILL_RETRY` is from a new start if curl reports no errors. -/
theorem retry_restarts (hnet : Clean net) (h : (fillRetry, t) = fillResult net object s) :
    Restarts net object s ∧ t.transfers = s.transfers + 1 := by
  obtain ⟨hfailed, _, _, hagain⟩ := hnet s.transfers
  have htransfers := (filled_fields net object s).2.2.2.2.2
  unfold fillResult at h
  simp only [hfailed, hagain, Bool.false_eq_true, if_false, if_true] at h
  split at h
  · have hret : fillRetry = fillFinished := congrArg Prod.fst h
    exact absurd hret (by decide)
  · split at h
    · next hr =>
      refine ⟨hr, ?_⟩
      rw [show t = prepare 0 (initIo (filled net object s)) from congrArg Prod.snd h]
      exact htransfers
    · have hret : fillRetry = ((filled net object s).lBuf : ℤ) := congrArg Prod.fst h
      have hneg : fillRetry < 0 := by decide
      omega

/-- A turn that goes on comes closer to the end. -/
theorem ahead_next (hnet : Clean net) (hgoes : GoesOn net) {pos : ℕ} {v w : Reading}
    (h : Copying object pos len v) (hv : readTurn (fillBuffer net object 1) len v = .next w) :
    ahead hgoes w < ahead hgoes v := by
  unfold ahead
  rw [Prod.Lex.toLex_lt_toLex]
  cases readMove_next hv with
  | copy hmore henough =>
    left
    show 2 * 0 + (if v.io.pBuf + v.rest < v.io.lBuf then 0 else 1) <
      2 * v.rest + if v.io.pBuf < v.io.lBuf then 0 else 1
    split <;> omega
  | @refill ret io hshort hfill hret =>
    obtain ⟨hnext, _⟩ := h.fill hnet hshort hfill
    have hused : Window object { v.io with pBuf := v.io.lBuf } :=
      ⟨le_rfl, h.window.lBuf_le, h.window.fits, h.window.bytes, h.window.position,
        h.window.length, h.window.done⟩
    obtain ⟨_, _, hpBuf, hcases⟩ := hused.fill hnet rfl 1 hfill
    have hlb := h.window.pBuf_le
    show 2 * (v.rest - (v.io.lBuf - v.io.pBuf)) + (if io.pBuf < io.lBuf then 0 else 1) <
        2 * v.rest + (if v.io.pBuf < v.io.lBuf then 0 else 1) ∨
      2 * (v.rest - (v.io.lBuf - v.io.pBuf)) + (if io.pBuf < io.lBuf then 0 else 1) =
        2 * v.rest + (if v.io.pBuf < v.io.lBuf then 0 else 1) ∧
      waiting hgoes io.transfers < waiting hgoes v.io.transfers
    by_cases hin : v.io.pBuf < v.io.lBuf
    · -- some of the bytes have been copied
      left
      rw [if_pos hin]
      split <;> omega
    · rw [if_neg hin]
      have hempty : v.io.lBuf - v.io.pBuf = 0 := by omega
      rw [hempty, Nat.sub_zero]
      by_cases hpos : 0 < io.lBuf
      · -- the buffer has been filled
        left
        rw [if_pos (by omega)]
        omega
      · -- a new start
        right
        rw [if_neg (by omega)]
        refine ⟨rfl, ?_⟩
        have hresult := fillBuffer_eq_some hfill
        have hretry : ret = fillRetry := hret.resolve_left fun hret => by
          rcases hcases with ⟨_, hl⟩ | ⟨hfinished, _⟩ | hretry
          · exact hpos hl
          · rw [hfinished] at hret
            exact absurd hret (by decide)
          · rw [hretry] at hret
            exact absurd hret (by decide)
        obtain ⟨hrestarts, htransfers⟩ := retry_restarts hnet (hretry ▸ hresult)
        rw [htransfers]
        exact waiting_succ hgoes (hused.not_delivers hrestarts)

/-- The calls of `fill_buffer` return, and so do the turns. -/
theorem readTurn_done_isSome {v : Reading} {q : Option (ReadResult × State)}
    (h : readTurn (fillBuffer net object 1) len v = .done q) : q.isSome := by
  unfold readTurn at h
  rw [fillBuffer_succ (s := { v.io with pBuf := v.io.lBuf }) rfl] at h
  split at h
  · cases h
    rfl
  · split at h
    · cases h
    · simp only at h
      repeat' split at h
      all_goals cases h
      all_goals rfl

/-- Every read returns. -/
theorem Coherent.httpRead_yields (hnet : Clean net) (hgoes : GoesOn net) (h : Coherent object s)
    (len : ℕ) : ∃ q, Yields (HttpReader.httpRead net object len s) q := by
  by_cases hl : s.lBuf = 0
  · refine ⟨(⟨0, []⟩, s), 0, fun fuel _ => ?_⟩
    unfold HttpReader.httpRead httpReadWith
    rw [if_pos hl]
  · have hstart : Copying object (httpTell s) len ⟨s, len, []⟩ :=
      ⟨h.toWindow, rfl, rfl, Nat.zero_add _, fun _ hz => absurd hz hl⟩
    have hnext : ∀ v w, Copying object (httpTell s) len v →
        readTurn (fillBuffer net object 1) len v = .next w →
        Copying object (httpTell s) len w ∧ ahead hgoes w < ahead hgoes v :=
      fun v w hv hw => ⟨hv.next hnet hw, ahead_next hnet hgoes hv hw⟩
    have hdone : ∀ v q, Copying object (httpTell s) len v →
        readTurn (fillBuffer net object 1) len v = .done q → q.isSome :=
      fun v q _ hq => readTurn_done_isSome hq
    obtain ⟨q, ⟨enough, hq⟩, hsome⟩ := loop_total (ahead hgoes) hnext hdone hstart
    obtain ⟨r, rfl⟩ := Option.isSome_iff_exists.mp hsome
    refine ⟨r, enough + 1, fun fuel hfuel => ?_⟩
    obtain ⟨n, rfl⟩ : ∃ n, fuel = n + 1 := ⟨fuel - 1, by omega⟩
    unfold HttpReader.httpRead httpReadWith
    have hloop := hq (n + 1) (by omega)
    simp only at hloop
    rw [if_neg hl, readTurn_fillBuffer, hloop]
    rfl

/-- Under a larger bound a read returns the same. -/
theorem steady_httpRead (net : ℕ → Transfer) (object : List Byte) (len : ℕ) (s : State) :
    Loop.Steady (httpRead net object len s) := by
  intro fuel more q hq hle
  unfold httpRead httpReadWith at hq ⊢
  split at hq
  · next hl =>
    rw [if_pos hl]
    exact hq
  · next hl =>
    rw [if_neg hl]
    rw [Option.join_eq_some_iff] at hq ⊢
    cases fuel with
    | zero => contradiction
    | succ fuel =>
      obtain ⟨m, rfl⟩ : ∃ m, more = m + 1 := ⟨more - 1, by omega⟩
      rw [readTurn_fillBuffer] at hq ⊢
      exact loop_mono hq hle

end Reads

/-! ## The source -/

section Source

variable {net : ℕ → Transfer} {object : List Byte}

theorem exists_httpRead (hnet : Clean net) (hgoes : GoesOn net) {s : State}
    (h : Coherent object s) (len : ℕ) : ∃ fuel, (httpRead net object len s fuel).isSome := by
  obtain ⟨q, enough, hq⟩ := h.httpRead_yields hnet hgoes len
  exact ⟨enough, by rw [hq enough le_rfl]; rfl⟩

/-- A read under a bound that lets it return. -/
def httpReadAll (hnet : Clean net) (hgoes : GoesOn net) {s : State} (h : Coherent object s)
    (len : ℕ) : ReadResult × State :=
  (httpRead net object len s (Nat.find (exists_httpRead hnet hgoes h len))).get
    (Nat.find_spec (exists_httpRead hnet hgoes h len))

variable (hnet : Clean net) (hgoes : GoesOn net) {s : State} (h : Coherent object s)

theorem httpReadAll_eq (len : ℕ) : ∃ fuel,
    httpRead net object len s fuel = some (httpReadAll hnet hgoes h len) :=
  ⟨_, (Option.some_get _).symm⟩

theorem httpReadAll_spec (len : ℕ) : ReadAt object (httpTell s) len
    (httpReadAll hnet hgoes h len).1 (httpReadAll hnet hgoes h len).2 := by
  obtain ⟨fuel, hread⟩ := httpReadAll_eq hnet hgoes h len
  exact h.httpRead hnet hread

theorem httpReadAll_yields (len : ℕ) :
    Yields (httpRead net object len s) (httpReadAll hnet hgoes h len) :=
  (steady_httpRead net object len s).yields_iff.mpr (httpReadAll_eq hnet hgoes h len)

/-- A read takes as much as it is asked for, or all there is. -/
theorem httpReadAll_result (len : ℕ) {n : ℕ} (hn : min len (object.length - httpTell s) = n) :
    (httpReadAll hnet hgoes h len).1 = ⟨n, (object.drop (httpTell s)).take n⟩ ∧
      object.drop (httpTell (httpReadAll hnet hgoes h len).2) =
        (object.drop (httpTell s)).drop n := by
  have hread := httpReadAll_spec hnet hgoes h len
  have hret := hread.ret
  have hdata := hread.data
  have htell := hread.tell
  rw [hn] at hret hdata htell
  refine ⟨?_, by rw [htell, List.drop_drop]⟩
  rw [← hret, ← hdata]

/-- The reader as a source of the bytes behind its position. -/
def httpSource : ByteSource {s : State // Coherent object s} where
  read s len := ((httpReadAll hnet hgoes s.2 len).1, ⟨(httpReadAll hnet hgoes s.2 len).2,
    (httpReadAll_spec hnet hgoes s.2 len).coherent⟩)
  content s := object.drop (httpTell s.1)
  read_zero s := httpReadAll_result hnet hgoes s.2 0 (Nat.zero_min _)
  read_eof s len hnil := by
    have hend : object.length ≤ httpTell s.1 := List.drop_eq_nil_iff.mp hnil
    obtain ⟨hret, hcontent⟩ := httpReadAll_result hnet hgoes s.2 len (n := 0) (by omega)
    exact ⟨hret, hcontent.trans hnil⟩
  read_bytes s len hpos hne := by
    have hmore : ¬ object.length ≤ httpTell s.1 := fun hend => hne (List.drop_eq_nil_iff.mpr hend)
    obtain ⟨hret, hcontent⟩ := httpReadAll_result hnet hgoes s.2 len rfl
    exact ⟨_, by omega, Nat.min_le_left _ _, by rw [List.length_drop]; omega, hret, hcontent⟩

end Source

/-! ## Opening -/

/-- Filling the buffer does not move the reader. -/
theorem tell_fillResult {s : State} (hp : s.pBuf = s.lBuf) (net : ℕ → Transfer)
    (object : List Byte) : httpTell (fillResult net object s).2 = httpTell s := by
  obtain ⟨hoff0, hpos, _⟩ := filled_fields net object s
  have hfilled : httpTell (filled net object s) = httpTell s := by
    rw [httpTell, httpTell, hoff0, hpos, hp, Nat.add_zero]
  have hused : s.off0 + s.lBuf + 0 = httpTell s := by
    rw [httpTell, hp, Nat.add_zero]
  unfold fillResult
  simp only
  split
  · exact hused
  · split
    · exact hfilled
    · split
      · show (filled net object s).off0 + 0 = _
        rw [hoff0]
        exact hused
      · split
        · exact hfilled
        · exact hfilled

/-- A reader that has been opened is at the beginning of the object. -/
theorem tell_of_open {net : ℕ → Transfer} {object : List Byte} {s : State} {hdrs : List (List Byte)}
    {fuel : ℕ} (hopen : httpOpenHdrs net object hdrs fuel = some (some s)) : httpTell s = 0 := by
  unfold httpOpenHdrs at hopen
  simp only [connected_eq] at hopen
  split at hopen
  · cases hopen
  · rw [Option.map_eq_some_iff] at hopen
    obtain ⟨⟨r, t⟩, hfill, ht⟩ := hopen
    split at ht
    · cases ht
    · cases ht
      rw [show t = (fillResult net object _).2 from congrArg Prod.snd (fillBuffer_eq_some hfill)]
      exact tell_fillResult rfl net object

/-- If the first transfer brings something, the reader can be opened, with one request. -/
theorem httpOpenHdrs_delivers {net : ℕ → Transfer} (object : List Byte) (hnet : Clean net)
    (hfirst : (net 0).Delivers) (hdrs : List (List Byte)) (fuel : ℕ) :
    ∃ s, httpOpenHdrs net object hdrs (fuel + 1) = some (some s) ∧ s.requests = [⟨hdrs, 0⟩] := by
  obtain ⟨hfailed, hknown, hadd, _⟩ := hnet 0
  have hstart : Window object ⟨⟨hdrs, 0⟩, [], 0, object.length, 0, 0, false, 0, 0, [⟨hdrs, 0⟩]⟩ :=
    ⟨le_rfl, Nat.zero_le _, Nat.zero_le _, rfl, rfl, rfl, fun h => nomatch h⟩
  set s : State := ⟨⟨hdrs, 0⟩, [], 0, object.length, 0, 0, false, 0, 0, [⟨hdrs, 0⟩]⟩ with hs
  have hstays : ¬ Restarts net object s := fun hr => hstart.not_delivers hr hfirst
  have hrequests := (filled_fields net object s).2.2.2.2.1
  have hresult : 0 ≤ (fillResult net object s).1 ∧
      (fillResult net object s).2.requests = [⟨hdrs, 0⟩] := by
    have hdone : s.doneReading = false := rfl
    have htransfers : (net s.transfers).failed = false := hfailed
    unfold fillResult
    simp only [hdone, htransfers, hstays, Bool.false_eq_true, if_false]
    refine ⟨Int.natCast_nonneg _, ?_⟩
    split
    · exact hrequests
    · exact hrequests
  have hstarted : (processHdrs (initIo newHttp) hdrs).transfers = 0 :=
    congrArg State.transfers (connected_eq 0 hdrs)
  refine ⟨(fillResult net object s).2, ?_, hresult.2⟩
  unfold httpOpenHdrs
  simp only [connected_eq, hstarted, hadd, lt_irrefl, if_false, if_true]
  rw [fillBuffer_known rfl rfl rfl hknown rfl, fillBuffer_succ (s := s) rfl, Option.map_some,
    if_neg (by omega)]

end Wandio.HttpReader
