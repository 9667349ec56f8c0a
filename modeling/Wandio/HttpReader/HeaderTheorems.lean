import Wandio.HttpReader.PositionTheorems
import Wandio.SwiftReader.Model

/-!
# Request headers

The headers that a reader is opened with are an option of its curl handle. A new start makes
a new handle without it, so they are on every request as long as `fill_buffer` does not start
anew. It does not help if curl refuses the request of the new start: the handle has lost the
headers all the same, and the next seek to another place makes a request with it.
-/

namespace Wandio.HttpReader

open Loop Transition
open Environment (letters)

/-- A call on a reader. -/
inductive Access where
  | read (len : ℕ)
  | seek (offset : ℤ) (whence : Whence)

/-- The state behind a call that uses `fill` for `fill_buffer`. -/
def accessWith (net : ℕ → Transfer) (fill : State → Option (ℤ × State)) (fuel : ℕ) (s : State) :
    Access → Option State
  | .read len => (httpReadWith fill len s fuel).map Prod.snd
  | .seek offset whence => (httpSeekWith net fill offset whence s fuel).map Prod.snd

/-- `fill_buffer`, until it starts anew. -/
def steadyFill (net : ℕ → Transfer) (object : List Byte) (fuel : ℕ) (s : State) :
    Option (ℤ × State) :=
  if Restarts net object s then none else fillBuffer net object fuel s

/-- A call in which `fill_buffer` does not start anew: it returns without that. -/
def Steady (net : ℕ → Transfer) (object : List Byte) (fuel : ℕ) (s : State) (call : Access) :
    Prop :=
  (accessWith net (steadyFill net object fuel) fuel s call).isSome

instance (net : ℕ → Transfer) (object : List Byte) (fuel : ℕ) (s : State) (call : Access) :
    Decidable (Steady net object fuel s call) :=
  inferInstanceAs (Decidable (_ = true))

/-- A reader that was opened with `hdrs`, whose owner reads and seeks. A label is a call and a
bound under which it returns. The calls are those in which `fill_buffer` does not start anew, or
all of them if there are no headers. -/
def steadyCalls (net : ℕ → Transfer) (object : List Byte) (hdrs : List (List Byte)) (s₀ : State) :
    System State (Access × ℕ) where
  init := s₀
  next s l :=
    if hdrs = [] ∨ Steady net object l.2 s l.1 then
      accessWith net (fillBuffer net object l.2) l.2 s l.1
    else none

/-- The headers are on the handle and have been on it in every request. -/
structure Carries (hdrs : List (List Byte)) (s : State) : Prop where
  handle : s.curl.httpHeader = hdrs
  requests : ∀ e ∈ s.requests, e.httpHeader = hdrs

section Carries

variable {net : ℕ → Transfer} {object : List Byte} {hdrs : List (List Byte)} {s t : State}
  {fuel : ℕ}
variable {fill fill' : State → Option (ℤ × State)}

/-- Nothing but the handle and the requests matters. -/
theorem Carries.of_eq (h : Carries hdrs s) (hcurl : t.curl = s.curl)
    (hrequests : t.requests = s.requests) : Carries hdrs t := by
  constructor
  · rw [hcurl]
    exact h.handle
  · rw [hrequests]
    exact h.requests

/-- A request takes the headers from the handle. -/
theorem Carries.prepare (h : Carries hdrs s) (rc : ℤ) : Carries hdrs (prepare rc s) := by
  constructor
  · exact h.handle
  · intro e he
    have he' : e ∈ if rc = 0 then s.requests ++ [{ s.curl with resumeFrom := s.off0 }]
      else s.requests := he
    split at he'
    · rcases List.mem_append.mp he' with hold | hnew
      · exact h.requests e hold
      · rw [List.mem_singleton.mp hnew]
        exact h.handle
    · exact h.requests e he'

/-- A transfer that goes on carries the headers. -/
theorem Carries.filled (h : Carries hdrs s) : Carries hdrs (filled net object s) := by
  obtain ⟨_, _, _, hcurl, hrequests, _⟩ := filled_fields net object s
  exact h.of_eq hcurl hrequests

/-- A new start leaves no headers on the handle. -/
theorem Carries.initIo (h : Carries [] s) : Carries [] (initIo s) := ⟨rfl, h.requests⟩

/-- A fill keeps the headers unless it starts a new transfer. -/
theorem Carries.fillResult (h : Carries hdrs s) (hkeep : hdrs = [] ∨ ¬ Restarts net object s) :
    Carries hdrs (fillResult net object s).2 := by
  unfold HttpReader.fillResult
  simp only
  split
  · exact h.of_eq rfl rfl
  · split
    · exact h.filled
    · split
      · next hr =>
        rcases hkeep with rfl | hkeep
        · exact h.filled.initIo.prepare _
        · exact absurd hr hkeep
      · simp only
        split
        · exact h.filled.of_eq rfl rfl
        · exact h.filled

/-- A new start that is accepted makes a request without headers. -/
theorem fillBuffer_drops_headers (hp : s.pBuf = s.lBuf) (hr : Restarts net object s)
    (hadd : (net s.transfers).addAgain = 0) :
    ∃ t e, fillBuffer net object (fuel + 1) s = some (fillRetry, t) ∧ e ∈ t.requests ∧
      e.httpHeader = [] := by
  set u := HttpReader.prepare 0 (HttpReader.initIo (HttpReader.filled net object s)) with hu
  have hdone : ¬ s.doneReading = true := by rw [hr.1]; decide
  have hfailed : ¬ (net s.transfers).failed = true := by rw [hr.2.1]; decide
  refine ⟨u, ⟨[], u.off0⟩, ?_, ?_, rfl⟩
  · rw [fillBuffer_succ hp, HttpReader.fillResult]
    simp only [if_neg hdone, if_neg hfailed, if_pos hr, hadd, if_true]
    rfl
  · exact List.mem_append_right _ (List.mem_singleton_self _)

/-! ## Calls -/

/-- `fill` keeps the headers. -/
def FillCarries (hdrs : List (List Byte)) (fill : State → Option (ℤ × State)) : Prop :=
  ∀ s r t, Carries hdrs s → fill s = some (r, t) → Carries hdrs t

/-- Without headers there is none to lose. -/
theorem fillCarries_nil : FillCarries [] (fillBuffer net object fuel) := by
  intro s r t h hr
  have hq := fillBuffer_eq_some hr
  rw [show t = (HttpReader.fillResult net object s).2 by rw [← hq]]
  exact h.fillResult (.inl rfl)

/-- A fill that starts no new transfer keeps the headers. -/
theorem fillCarries_steady : FillCarries hdrs (steadyFill net object fuel) := by
  intro s r t h hr
  unfold steadyFill at hr
  split at hr
  · contradiction
  · next hsteady =>
    have hq := fillBuffer_eq_some hr
    rw [show t = (HttpReader.fillResult net object s).2 by rw [← hq]]
    exact h.fillResult (.inr hsteady)

/-- A read keeps the headers if its fills do. -/
theorem Carries.httpRead (h : Carries hdrs s) (hfill : FillCarries hdrs fill) {len : ℕ}
    {r : ReadResult} (hr : httpReadWith fill len s fuel = some (r, t)) : Carries hdrs t := by
  unfold httpReadWith at hr
  split at hr
  · cases hr
    exact h
  · rw [Option.join_eq_some_iff] at hr
    refine loop_invariant (I := fun v : Reading => Carries hdrs v.io)
      (Q := fun q => ∀ r t, q = some (r, t) → Carries hdrs t) ?_ ?_ h hr r t rfl
    · intro v w hv hturn
      have hshort : Carries hdrs { v.io with pBuf := v.io.lBuf } := hv.of_eq rfl rfl
      cases readMove_next hturn with
      | copy => exact hv.of_eq rfl rfl
      | refill _ hio => exact hfill _ _ _ hshort hio
    · rintro v q hv hturn r t rfl
      have hshort : Carries hdrs { v.io with pBuf := v.io.lBuf } := hv.of_eq rfl rfl
      cases readMove_done hturn with
      | finish => exact hv
      | finished _ hio => exact hfill _ _ _ hshort hio
      | fail _ hio => exact hfill _ _ _ hshort hio

theorem Carries.seekFailed (h : Carries hdrs s) : Carries hdrs (seekFailed s).2 := h.of_eq rfl rfl

/-- A seek keeps the headers if its fills do. -/
theorem Carries.httpSeek (h : Carries hdrs s) (hfill : FillCarries hdrs fill) {offset : ℤ}
    {whence : Whence} {ret : ℤ} (hr : httpSeekWith net fill offset whence s fuel = some (ret, t)) :
    Carries hdrs t := by
  unfold httpSeekWith at hr
  simp only at hr
  split at hr
  · cases hr
    exact h
  · split at hr
    · cases hr
      exact h
    · split at hr
      · cases hr
        exact h.of_eq rfl rfl
      · split at hr
        · unfold reconnect at hr
          have hprepared := fun off rc =>
            Carries.prepare (s := { s with off0 := off, doneReading := false }) (h.of_eq rfl rfl) rc
          simp only at hr
          split at hr
          · cases hr
            exact (hprepared _ _).seekFailed
          · rw [Option.map_eq_some_iff] at hr
            obtain ⟨⟨r, u⟩, hu, heq⟩ := hr
            have hcarries := hfill _ _ _ (hprepared _ _) hu
            split at heq
            · cases heq
              exact hcarries.seekFailed
            · cases heq
              exact hcarries
        · unfold skip at hr
          rw [Option.map_eq_some_iff] at hr
          obtain ⟨⟨r, u⟩, hu, heq⟩ := hr
          have hcarries := h.httpRead hfill hu
          split at heq
          · cases heq
            exact hcarries.seekFailed
          · cases heq
            exact hcarries

/-- A call keeps the headers if its fills do. -/
theorem Carries.access (h : Carries hdrs s) (hfill : FillCarries hdrs fill) {call : Access}
    (hr : accessWith net fill fuel s call = some t) : Carries hdrs t := by
  cases call with
  | read len =>
    rw [accessWith, Option.map_eq_some_iff] at hr
    obtain ⟨⟨r, u⟩, hread, rfl⟩ := hr
    exact h.httpRead hfill hread
  | seek offset whence =>
    rw [accessWith, Option.map_eq_some_iff] at hr
    obtain ⟨⟨ret, u⟩, hseek, rfl⟩ := hr
    exact h.httpSeek hfill hseek

/-! ## A call that returns with less returns with more -/

theorem readTurn_mono (hle : ∀ s q, fill s = some q → fill' s = some q) (len : ℕ) (v : Reading) :
    readTurn fill' len v = readTurn fill len v ∨ readTurn fill len v = .done none := by
  unfold readTurn
  split
  · exact .inl rfl
  · split
    · exact .inl rfl
    · cases hfill : fill { v.io with pBuf := v.io.lBuf } with
      | none => exact .inr rfl
      | some q => exact .inl (by rw [hle _ _ hfill])

/-- A read is the same with fills that come to the same. -/
theorem httpReadWith_mono (hle : ∀ s q, fill s = some q → fill' s = some q) {len : ℕ}
    {q : ReadResult × State} (hr : httpReadWith fill len s fuel = some q) :
    httpReadWith fill' len s fuel = some q := by
  unfold httpReadWith at hr ⊢
  split at hr
  · next hl => rw [if_pos hl, hr]
  · next hl =>
    rw [if_neg hl]
    rw [Option.join_eq_some_iff] at hr ⊢
    -- turn by turn
    generalize (⟨s, len, []⟩ : Reading) = v at hr ⊢
    induction fuel generalizing v with
    | zero => contradiction
    | succ fuel ih =>
      rw [loop] at hr ⊢
      -- the turn is the same, or the read does not return
      rcases readTurn_mono hle len v with hsame | hnone
      · rw [hsame]
        split at hr
        · exact ih _ hr
        · exact hr
      · rw [hnone] at hr
        cases hr

theorem httpSeekWith_mono (hle : ∀ s q, fill s = some q → fill' s = some q) {offset : ℤ}
    {whence : Whence} {q : ℤ × State}
    (hr : httpSeekWith net fill offset whence s fuel = some q) :
    httpSeekWith net fill' offset whence s fuel = some q := by
  unfold httpSeekWith at hr ⊢
  simp only at hr ⊢
  split at hr
  · exact hr
  · split at hr
    · next hneg => rw [if_pos hneg, hr]
    · next hneg =>
      rw [if_neg hneg]
      split at hr
      · next hnear => rw [if_pos hnear, hr]
      · next hnear =>
        rw [if_neg hnear]
        split at hr
        · next hfar =>
          rw [if_pos hfar]
          unfold reconnect at hr ⊢
          simp only at hr ⊢
          split at hr
          · next hrc => rw [if_pos hrc, hr]
          · next hrc =>
            rw [if_neg hrc]
            rw [Option.map_eq_some_iff] at hr ⊢
            obtain ⟨p, hp, hq⟩ := hr
            exact ⟨p, hle _ _ hp, hq⟩
        · next hfar =>
          rw [if_neg hfar]
          unfold skip at hr ⊢
          rw [Option.map_eq_some_iff] at hr ⊢
          obtain ⟨p, hp, hq⟩ := hr
          exact ⟨p, httpReadWith_mono hle hp, hq⟩

/-- A call is the same with fills that come to the same. -/
theorem accessWith_mono (hle : ∀ s q, fill s = some q → fill' s = some q) {call : Access}
    (hr : accessWith net fill fuel s call = some t) :
    accessWith net fill' fuel s call = some t := by
  cases call with
  | read len =>
    rw [accessWith, Option.map_eq_some_iff] at hr ⊢
    obtain ⟨q, hq, ht⟩ := hr
    exact ⟨q, httpReadWith_mono hle hq, ht⟩
  | seek offset whence =>
    rw [accessWith, Option.map_eq_some_iff] at hr ⊢
    obtain ⟨q, hq, ht⟩ := hr
    exact ⟨q, httpSeekWith_mono hle hq, ht⟩

/-- A call without a new start does what it does without the new start. -/
theorem Steady.eq {call : Access} (h : Steady net object fuel s call)
    (hr : accessWith net (fillBuffer net object fuel) fuel s call = some t) :
    accessWith net (steadyFill net object fuel) fuel s call = some t := by
  obtain ⟨u, hu⟩ := Option.isSome_iff_exists.mp h
  have hle : ∀ s q, steadyFill net object fuel s = some q →
      fillBuffer net object fuel s = some q := by
    intro s q hq
    unfold steadyFill at hq
    split at hq
    · contradiction
    · exact hq
  rw [hu, ← hr, accessWith_mono hle hu]

/-! ## Runs -/

/-- The headers of the open are on the transfer that it starts. -/
theorem carries_of_open {bound : ℕ}
    (hopen : httpOpenHdrs net object hdrs bound = some (some s)) : Carries hdrs s := by
  unfold httpOpenHdrs at hopen
  simp only [connected_eq] at hopen
  split at hopen
  · cases hopen
  · rw [Option.map_eq_some_iff] at hopen
    obtain ⟨⟨ret, t⟩, hfill, ht⟩ := hopen
    split at ht
    · cases ht
    · next hret =>
      obtain rfl : t = s := Option.some.inj ht
      have hq := fillBuffer_eq_some hfill
      set u : State := ⟨⟨hdrs, 0⟩, [], 0, -1, 0, 0, false, 0, 0, _⟩ with hu
      have hstart : Carries hdrs u := by
        refine ⟨rfl, fun e he => ?_⟩
        have he' : e ∈ if (net (processHdrs (initIo newHttp) hdrs).transfers).addHandle = 0 then
          [(⟨hdrs, 0⟩ : Easy)] else [] := he
        split at he'
        · rw [List.mem_singleton.mp he']
        · contradiction
      -- a new start would have been an error
      have hsteady : ¬ Restarts net object u := by
        intro hr
        have hval : ret = if (net u.transfers).addAgain = 0 then fillRetry else fillRetryError := by
          have hfailed : ¬ (net u.transfers).failed = true := by rw [hr.2.1]; decide
          have hq' := congrArg Prod.fst hq
          rw [HttpReader.fillResult, if_neg Bool.false_ne_true, if_neg hfailed, if_pos hr] at hq'
          exact hq'
        have hneg : ret < 0 := by
          rw [hval]
          split <;> decide
        exact hret hneg
      rw [show t = (HttpReader.fillResult net object u).2 by rw [← hq]]
      exact hstart.fillResult (.inr hsteady)

/-- In every run in which `fill_buffer` does not start anew every request carries the headers
that the reader was opened with; so does every request of a swift reader with its token. -/
theorem requests_carry_headers {s₀ : State} {bound : ℕ}
    (hopen : httpOpenHdrs net object hdrs bound = some (some s₀))
    (hs : Reachable (steadyCalls net object hdrs s₀) s) :
    ∀ e ∈ s.requests, e.httpHeader = hdrs := by
  apply Carries.requests
  refine hs.invariant (carries_of_open hopen) ?_
  rintro s ⟨call, fuel⟩ t h hst
  simp only [steadyCalls] at hst
  split at hst
  · next hguard =>
    by_cases hnil : hdrs = []
    · subst hnil
      exact h.access fillCarries_nil hst
    · exact h.access fillCarries_steady (Steady.eq (hguard.resolve_left hnil) hst)
  · contradiction

end Carries

/-- An environment in which every variable is `t`, so that it has a token and a storage url. -/
def tokenEnv : Keystone.Environ := fun _ => some ⟨letters "t", by decide⟩

/-- `swift_open` for an object, with the token of the environment. -/
def openSwift (net : ℕ → Transfer) (object : List Byte) : Option State :=
  match SwiftReader.swiftOpen ⟨false, false, fun _ => ⟨false, [], 0⟩⟩ tokenEnv
      (fun _ hdrs => (httpOpenHdrs net object hdrs 1).join)
      ⟨letters "swift://c/o", by decide⟩ 1 with
  | some (.ok r) => r
  | _ => none

/-- The header for the token. -/
def tokenHdr : List Byte := SwiftReader.buildAuthTokenHdr (letters "t")

/-- A swift reader whose second transfer brings nothing makes a request without its token. -/
theorem swiftOpen_drops_token : ∃ s r t, openSwift pausingNet [1, 2, 3] = some s ∧
    httpRead pausingNet [1, 2, 3] 5 s 5 = some (r, t) ∧
    ∃ e ∈ t.requests, e.httpHeader ≠ [tokenHdr] := by
  refine ⟨_, _, _, rfl, rfl, ⟨[], 2⟩, ?_, (List.cons_ne_nil _ _).symm⟩
  exact List.mem_append_right _ (List.mem_singleton_self _)

/-- A network that delivers up to two bytes each time. -/
def steadyNet (_ : ℕ) : Transfer := ⟨[2], true, true, none, 0, 0⟩

/-- The token is on both requests of a swift reader that reads to the end and seeks back. -/
theorem requests_carry_headers_seek : ∃ s₀ s : State,
    openSwift steadyNet [1, 2, 3] = some s₀ ∧ s.requests.length = 2 ∧
    ∀ e ∈ s.requests, e.httpHeader = [tokenHdr] := by
  obtain ⟨s₀, hopen⟩ : ∃ s₀, httpOpenHdrs steadyNet [1, 2, 3] [tokenHdr] 1 = some (some s₀) :=
    ⟨_, rfl⟩
  have hexec : ((exec (steadyCalls steadyNet [1, 2, 3] [tokenHdr] s₀) s₀
      [(.read 3, 5), (.seek 0 .set, 5)]).any fun s => s.requests.length = 2) = true := by
    cases hopen
    rfl
  obtain ⟨s, hs, hlength⟩ := exists_reachable_of_exec _ _ _ hexec
  refine ⟨s₀, s, ?_, by simpa using hlength, requests_carry_headers hopen hs⟩
  cases hopen
  rfl

end Wandio.HttpReader
