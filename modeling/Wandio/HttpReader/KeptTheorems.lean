import Wandio.HttpReader.FillTheorems
import Wandio.Readers.OutcomeModel

/-!
# Output in front of an error of the http reader

The one error that `http_read` returns is a new start that fails, and what has been copied to the
caller's buffer by then is not returned. An error that curl reports is taken for a reason to try
again, and an end in front of the object's for the end.
-/

namespace Wandio.HttpReader

open Loop Readers Transition

section Model

variable (net : ℕ → Transfer) (object : List Byte)

/-- A `fill_buffer` has the object for read. -/
def Ends (s : State) : Prop :=
  s.doneReading = true ∨ (net s.transfers).failed = false ∧ (filled net object s).lBuf = 0 ∧
    (filled net object s).totalLength ≤ (filled net object s).off0

instance (s : State) : Decidable (Ends net object s) := inferInstanceAs (Decidable (_ ∨ _))

/-- A `fill_buffer` meets an error: curl reports one, a new start fails, or the object is taken
to end where it does not. A new start that succeeds is none. -/
def meetsError (s : State) : Bool :=
  (s.doneReading = false ∧ (net s.transfers).failed = true) ∨
    (Restarts net object s ∧ (net s.transfers).addAgain ≠ 0) ∨
    (Ends net object s ∧ httpTell s < object.length)

/-- The error of a turn that uses up the buffer, by what has been copied to the caller's then. -/
def errorAt (v : Reading) : Option (List Byte) :=
  if v.io.lBuf - v.io.pBuf < v.rest ∧ meetsError net object { v.io with pBuf := v.io.lBuf } then
    some (v.out ++ v.io.buffered)
  else none

/-- The turns of an `http_read`; there is none when nothing is in the buffer. -/
def httpTurns (s : State) (a : ℕ × ℕ) : List Reading :=
  if s.lBuf = 0 then [] else turns (readTurn (fillBuffer net object a.2) a.1) a.2 ⟨s, a.1, []⟩

/-- `http_read`, with what has been copied to the caller's buffer. -/
def httpOutcome (len : ℕ) (s : State) (fuel : ℕ) : Option (Outcome × State) :=
  (httpRead net object len s fuel).map fun q =>
    (⟨q.1, q.1.data, (httpTurns net object s (len, fuel)).filterMap (errorAt net object)⟩, q.2)

/-- No error is met once something has been copied to the caller's buffer. -/
def httpKeeps (s : State) (a : ℕ × ℕ) : Bool :=
  ∀ v ∈ httpTurns net object s a, errorAt net object v = none ∨ v.out ++ v.io.buffered = []

end Model

section Held

variable {net : ℕ → Transfer} {object : List Byte} {s t : State}

/-- What is to be read is in the buffer. -/
structure Held (s : State) : Prop where
  pBuf_le : s.pBuf ≤ s.lBuf
  lBuf_le : s.lBuf ≤ s.buf.length

theorem Held.length_buffered (h : Held s) : s.buffered.length = s.lBuf - s.pBuf := by
  rw [State.buffered, List.length_drop, List.length_take, Nat.min_eq_left h.lBuf_le]

theorem le_length_deliver (h : s.lBuf ≤ s.buf.length) (size : ℕ) :
    (deliver object s size).lBuf ≤ (deliver object s size).buf.length := by
  unfold deliver writeCb
  by_cases hroom : mBuf < ((object.drop s.position).take size).length + s.lBuf
  · simp only [hroom, if_true]
    exact h
  · simp only [hroom, if_false]
    exact le_length_memcpyAt _ h

theorem le_length_filled (net : ℕ → Transfer) (object : List Byte) (s : State) :
    (filled net object s).lBuf ≤ (filled net object s).buf.length := by
  have hpieces : ∀ (pieces : List ℕ) (t : State), t.lBuf ≤ t.buf.length →
      (pieces.foldl (deliver object) t).lBuf ≤ (pieces.foldl (deliver object) t).buf.length := by
    intro pieces
    induction pieces with
    | nil => exact fun t ht => ht
    | cons size pieces ih => exact fun t ht => ih _ (le_length_deliver ht size)
  exact hpieces (net s.transfers).pieces _ (Nat.zero_le _)

/-- `fill_buffer` leaves in the buffer what it says. -/
theorem held_fillResult (net : ℕ → Transfer) (object : List Byte) (s : State) :
    Held (fillResult net object s).2 := by
  have hpos := (filled_fields net object s).2.1
  have hle := le_length_filled net object s
  have hheld : Held (filled net object s) := ⟨by rw [hpos]; exact Nat.zero_le _, hle⟩
  unfold fillResult
  simp only
  split
  · exact ⟨le_rfl, Nat.zero_le _⟩
  · split
    · exact hheld
    · split
      · exact ⟨le_rfl, Nat.zero_le _⟩
      · split
        · exact ⟨hheld.pBuf_le, hheld.lBuf_le⟩
        · exact hheld

/-- What `fill_buffer` returns is an error to `http_read` only when it starts anew in vain. -/
theorem restarts_of_fails (hpos : ¬ 0 < (fillResult net object s).1)
    (hfinished : (fillResult net object s).1 ≠ fillFinished)
    (hretry : (fillResult net object s).1 ≠ fillRetry) :
    Restarts net object s ∧ (net s.transfers).addAgain ≠ 0 := by
  unfold fillResult at hpos hfinished hretry
  simp only at hpos hfinished hretry
  split at hretry
  · next hdone =>
    rw [if_pos hdone] at hfinished
    exact absurd rfl hfinished
  · next hdone =>
    rw [if_neg hdone] at hpos hfinished
    split at hretry
    · exact absurd rfl hretry
    · next hfailed =>
      rw [if_neg hfailed] at hpos hfinished
      split at hretry
      · next hrestarts =>
        refine ⟨hrestarts, fun hadd => ?_⟩
        rw [if_pos hadd] at hretry
        exact hretry rfl
      · next hrestarts =>
        -- a number of bytes, which is 0 or positive
        rw [if_neg hrestarts] at hpos hfinished
        have hzero : ((filled net object s).lBuf : ℤ) = fillFinished := by
          show ((filled net object s).lBuf : ℤ) = 0
          simp only at hpos
          omega
        exact absurd hzero hfinished

/-- A reader that has been opened. -/
theorem held_httpOpenHdrs {hdrs : List (List Byte)} {fuel : ℕ}
    (h : httpOpenHdrs net object hdrs fuel = some (some s)) : Held s := by
  unfold httpOpenHdrs at h
  simp only at h
  split at h
  · cases h
  · rw [Option.map_eq_some_iff] at h
    obtain ⟨⟨ret, t⟩, hfill, ht⟩ := h
    split at ht
    · cases ht
    · obtain rfl : t = s := Option.some.inj ht
      have hq := fillBuffer_eq_some hfill
      rw [show t = (fillResult net object _).2 from congrArg Prod.snd hq]
      exact held_fillResult net object _

end Held

/-! ## The turns -/

section Turns

variable {net : ℕ → Transfer} {object : List Byte} {len fuel : ℕ} {s t : State} {v w : Reading}
  {r : ReadResult}

/-- What has been copied and what is still wanted. -/
structure Taking (len : ℕ) (v : Reading) : Prop where
  held : Held v.io
  total : v.out.length + v.rest = len

/-- The buffer has been copied out and is filled. -/
theorem Taking.refill (h : Taking len v) (hshort : v.io.lBuf - v.io.pBuf < v.rest) {ret : ℤ}
    (hfill : fillBuffer net object fuel { v.io with pBuf := v.io.lBuf } = some (ret, t)) :
    Taking len ⟨t, v.rest - (v.io.lBuf - v.io.pBuf), v.out ++ v.io.buffered⟩ := by
  have htotal := h.total
  refine ⟨?_, ?_⟩
  · have hq := fillBuffer_eq_some hfill
    rw [show t = (fillResult net object _).2 from congrArg Prod.snd hq]
    exact held_fillResult net object _
  · show (v.out ++ v.io.buffered).length + (v.rest - (v.io.lBuf - v.io.pBuf)) = len
    rw [List.length_append, h.held.length_buffered]
    omega

/-- Behind a turn that goes on. -/
theorem Taking.next (h : Taking len v)
    (hnext : readTurn (fillBuffer net object fuel) len v = .next w) : Taking len w := by
  have htotal := h.total
  have hmove := readMove_next hnext
  cases hmove with
  | copy hmore henough =>
    refine ⟨⟨?_, h.held.lBuf_le⟩, ?_⟩
    · show v.io.pBuf + v.rest ≤ v.io.lBuf
      have hle := h.held.pBuf_le
      omega
    · show (v.out ++ v.io.buffered.take v.rest).length + 0 = len
      rw [List.length_append, List.length_take, h.held.length_buffered]
      omega
  | refill hshort hfill hret => exact h.refill hshort hfill

/-- A new start that fails is an error of the turn. -/
theorem errorAt_of_restarts (hshort : v.io.lBuf - v.io.pBuf < v.rest)
    (hrestarts : Restarts net object { v.io with pBuf := v.io.lBuf })
    (hadd : (net v.io.transfers).addAgain ≠ 0) :
    errorAt net object v = some (v.out ++ v.io.buffered) := by
  rw [errorAt, if_pos]
  refine ⟨hshort, ?_⟩
  unfold meetsError
  rw [decide_eq_true_iff]
  exact .inr (.inl ⟨hrestarts, hadd⟩)

/-- Behind the last turn, whose result is the number of bytes copied unless a new start has
failed behind some. -/
theorem Taking.done (h : Taking len v)
    (hdone : readTurn (fillBuffer net object fuel) len v = .done (some (r, t)))
    (e : Outcome) (hresult : e.result = r) (hplaced : e.placed = r.data) :
    Held t ∧ (errorAt net object v = none ∨ v.out ++ v.io.buffered = [] → e.Reports) := by
  have htotal := h.total
  have hmove := readMove_done hdone
  have hcopied : r.ret = r.data.length → e.Reports := fun hcount =>
    Outcome.reports_of_eq (by rw [hresult, hplaced, hcount]) (by rw [hresult, hplaced])
  cases hmove with
  | finish hrest =>
    refine ⟨h.held, fun _ => hcopied ?_⟩
    show (len : ℤ) - v.rest = v.out.length
    omega
  | finished hshort hfill =>
    have htaking := h.refill hshort hfill
    refine ⟨htaking.held, fun _ => hcopied ?_⟩
    have hcount := htaking.total
    simp only at hcount ⊢
    omega
  | @fail ret res _ hshort hfill hpos hfinished hretry hres =>
    have hq : ret = _ := congrArg Prod.fst (fillBuffer_eq_some hfill)
    rw [hq] at hpos hfinished hretry
    obtain ⟨hrestarts, hadd⟩ := restarts_of_fails hpos hfinished hretry
    refine ⟨(h.refill hshort hfill).held, fun hclean => ?_⟩
    have hnil : v.out ++ v.io.buffered = [] := by
      rcases hclean with hnone | hnil
      · rw [errorAt_of_restarts hshort hrestarts hadd] at hnone
        contradiction
      · exact hnil
    have hneg : res ≤ 0 := by
      rw [hres]
      split <;> decide
    apply Outcome.reports_of_nil
    · rw [hplaced, hnil]
    · rw [hresult]
      exact hneg

/-- No read returns an error unless it comes to a new start, so that a read of no bytes never
does. -/
theorem httpOutcome_empty (net : ℕ → Transfer) (object : List Byte) (t : State) :
    ∃ e u, httpOutcome net object 0 t 1 = some (e, u) ∧ 0 ≤ e.result.ret := by
  unfold httpOutcome httpRead httpReadWith
  split
  · exact ⟨_, _, rfl, le_rfl⟩
  · exact ⟨_, _, rfl, le_rfl⟩

/-- The errors of a read behind some output are those that `httpKeeps` excludes. -/
theorem interrupted_iff {q : ReadResult} {placed : List Byte} :
    (⟨q, placed, (httpTurns net object s (len, fuel)).filterMap (errorAt net object)⟩ :
        Outcome).Interrupted ↔ ¬ httpKeeps net object s (len, fuel) = true := by
  unfold httpKeeps
  rw [decide_eq_true_iff]
  push Not
  constructor
  · rintro ⟨p, hp, hne⟩
    obtain ⟨v, hv, hat⟩ := List.mem_filterMap.mp hp
    refine ⟨v, hv, by rw [hat]; exact Option.some_ne_none p, ?_⟩
    unfold errorAt at hat
    split at hat
    · rw [Option.some.inj hat]
      exact hne
    · contradiction
  · rintro ⟨v, hv, herror, hne⟩
    obtain ⟨p, hat⟩ := Option.ne_none_iff_exists'.mp herror
    have hp : p = v.out ++ v.io.buffered := by
      unfold errorAt at hat
      split at hat
      · exact (Option.some.inj hat).symm
      · contradiction
    exact ⟨p, List.mem_filterMap.mpr ⟨v, hv, hat⟩, by rw [hp]; exact hne⟩

/-- A read keeps what it has copied if and only if it meets no error behind some of it. -/
theorem httpOutcome_keeps (hheld : Held s) {e : Outcome}
    (hr : httpOutcome net object len s fuel = some (e, t)) :
    Held t ∧ (Keeps (httpOutcome net object) e t ↔ httpKeeps net object s (len, fuel) = true) := by
  obtain ⟨⟨r, u⟩, hread, heq⟩ := Option.map_eq_some_iff.mp hr
  obtain ⟨rfl, rfl⟩ := Prod.mk.inj heq
  simp only
  have hreports : Held u ∧ (httpKeeps net object s (len, fuel) = true →
      (⟨r, r.data, (httpTurns net object s (len, fuel)).filterMap (errorAt net object)⟩ :
        Outcome).Reports) := by
    unfold httpRead httpReadWith at hread
    by_cases hend : s.lBuf = 0
    · rw [if_pos hend, Option.some_inj, Prod.mk.injEq] at hread
      obtain ⟨rfl, rfl⟩ := hread
      exact ⟨hheld, fun _ => Outcome.reports_of_nil rfl le_rfl⟩
    · rw [if_neg hend] at hread
      have hloop := Option.join_eq_some_iff.mp hread
      have hrule := loop_turns (s := (⟨s, len, []⟩ : Reading)) (I := fun _ v => Taking len v)
        (Q := fun seen q => ∀ r t, q = some (r, t) → Held t ∧ ∀ e : Outcome, e.result = r →
          e.placed = r.data → (∀ v ∈ seen, errorAt net object v = none ∨
            v.out ++ v.io.buffered = []) → e.Reports)
        (fun seen v w hv hw => hv.next hw) ?_ [] ⟨hheld, Nat.zero_add len⟩ hloop
      · obtain ⟨hheld', hreports⟩ := hrule r u rfl
        refine ⟨hheld', fun hclean => hreports _ rfl rfl ?_⟩
        simpa [httpKeeps, httpTurns, hend] using hclean
      · rintro seen v q hv hq r t rfl
        refine ⟨(hv.done hq ⟨r, r.data, []⟩ rfl rfl).1, fun e hresult hplaced hclean => ?_⟩
        exact (hv.done hq e hresult hplaced).2 (hclean v (by simp))
  refine ⟨hreports.1, fun hkeeps => ?_, fun hclean => ?_⟩
  · by_contra hmet
    obtain ⟨e', t', hnext, hret⟩ := httpOutcome_empty net object u
    exact not_keeps_of_next (interrupted_iff.mpr hmet) hnext hret hkeeps
  · exact keeps_of_reports u (hreports.2 hclean) fun hmet => interrupted_iff.mp hmet hclean

end Turns

end Wandio.HttpReader
