import Wandio.Readers.OutcomeModel
import Wandio.StreamReader.ErrorTheorems

/-!
# Output in front of an error of the zlib reader

`zlib_read` returns what it has when its parent or inflate fails, and keeps the error for the
next read. When the parent ends inside a compressed stream it returns the error at once, or, if
the bytes of that stream have come with the end of the one in front of it, never.
-/

namespace Wandio.StreamReader

open Codec Loop Readers Transition

variable {κ σ : Type*}

section Model

variable (d : Decoder κ Byte) (parent : Source σ)

/-- Inflate has been given bytes since its last `Z_STREAM_END`, or the parent has counted some
that it has not delivered. -/
def insideStream (s : State (Recorded κ Byte) σ) : Bool :=
  0 < s.sincelastend ∨ s.strm.answers.getLast?.any fun a => a.2 ≠ 1

/-- What the parent returns when `inbuff` is to be filled. -/
def parentRet (s : State κ σ) : ℤ := cInt (parent.read s.parent wandioBufferSize).1.ret

/-- The error that a turn meets, by what has been put into the caller's buffer then: the parent
fails or ends inside a compressed stream, or inflate fails. -/
def errorAt (s : State (Recorded κ Byte) σ) : Option (List Byte) :=
  if s.err ≠ .ok ∨ s.availOut = 0 then none
  else if s.nextIn = [] then
    if parentRet parent s < 0 ∨ (parentRet parent s = 0 ∧ insideStream s) then some s.out
    else none
  else
    let a := d.call s.strm.state () s.nextIn s.availOut
    if a.code ≠ 0 ∧ a.code ≠ 1 then some (s.out ++ a.output) else none

/-- The turns of a `zlib_read`. -/
def zlibTurns (s : State (Recorded κ Byte) σ) (a : ℕ × ℕ) : List (State (Recorded κ Byte) σ) :=
  turns (readTurn zlibFormat d.recorded parent a.1) a.2 { s with availOut := cUInt a.1, out := [] }

/-- `zlib_read`, with what inflate has put into the caller's buffer. -/
def zlibOutcome (len : ℕ) (s : State (Recorded κ Byte) σ) (fuel : ℕ) :
    Option (Outcome × State (Recorded κ Byte) σ) :=
  (zlibRead d.recorded parent len s fuel).map fun q =>
    (⟨q.1, outputs (answersSince s q.2),
      (zlibTurns d parent s (len, fuel)).filterMap (errorAt d parent)⟩, q.2)

/-- The parent ends inside a compressed stream, behind some output. -/
def endsEarly (s : State (Recorded κ Byte) σ) : Bool :=
  s.err = .ok ∧ 0 < s.availOut ∧ s.nextIn = [] ∧ parentRet parent s = 0 ∧ insideStream s ∧
    s.out ≠ []

/-- In a read of `a.1` bytes the parent does not end early behind some output. -/
def endsInTime (s : State (Recorded κ Byte) σ) (a : ℕ × ℕ) : Bool :=
  ∀ t ∈ zlibTurns d parent s a, ¬ endsEarly parent t

/-- `avail_out` has room for the length of the read. -/
def zlibKeeps (s : State (Recorded κ Byte) σ) (a : ℕ × ℕ) : Bool :=
  a.1 < 2 ^ 32 ∧ endsInTime d parent s a

end Model

section Read

variable {d : Decoder κ Byte} {parent : Source σ} {before answers : Answers} {len : ℕ}
  {s t : State (Recorded κ Byte) σ} {r : ReadResult}

/-! ## The errors of a turn -/

theorem errorAt_of_stop (h : s.err = .ok → s.availOut = 0) : errorAt d parent s = none := by
  rw [errorAt, if_pos]
  by_cases hok : s.err = .ok
  · exact .inr (h hok)
  · exact .inl hok

theorem errorAt_fill (hok : s.err = .ok) (hroom : 0 < s.availOut) (hnil : s.nextIn = []) :
    errorAt d parent s =
      if parentRet parent s < 0 ∨ (parentRet parent s = 0 ∧ insideStream s) then some s.out
      else none := by
  rw [errorAt, if_neg (by simp [hok, hroom.ne']), if_pos hnil]

theorem errorAt_decode (hok : s.err = .ok) (hroom : 0 < s.availOut) (hne : s.nextIn ≠ []) :
    errorAt d parent s =
      let a := d.call s.strm.state () s.nextIn s.availOut
      if a.code ≠ 0 ∧ a.code ≠ 1 then some (s.out ++ a.output) else none := by
  rw [errorAt, if_neg (by simp [hok, hroom.ne']), if_neg hne]

/-- The errors met so far have been met with what is in the caller's buffer now, and the read
knows of them. -/
def Noted (errors : List (List Byte)) (s : State (Recorded κ Byte) σ) : Prop :=
  ∀ p ∈ errors, p = s.out ∧ s.err = .error

theorem Noted.eq_nil {errors : List (List Byte)} (h : Noted errors s) (hok : s.err = .ok) :
    errors = [] := by
  apply List.eq_nil_iff_forall_not_mem.mpr
  intro p hp
  have herr := (h p hp).2
  rw [hok] at herr
  contradiction

/-- An error of a turn behind which the read goes on is one of inflate. -/
theorem noted_next (hnext : readTurn zlibFormat d.recorded parent len s = .next t) :
    Noted (errorAt d parent s).toList t := by
  intro p hp
  rw [Option.mem_toList] at hp
  obtain ⟨hok, ⟨hnil, hfill⟩ | ⟨hne, hroom, rfl⟩⟩ := readTurn_next hnext
  · -- the parent has delivered something
    exfalso
    by_cases hroom : 0 < s.availOut
    · rw [errorAt_fill hok hroom hnil] at hp
      split at hp
      · next hbad =>
        unfold fillTurn at hfill
        simp only at hfill
        rcases hbad with hneg | ⟨hzero, -⟩
        · rw [parentRet] at hneg
          rw [if_neg hneg.ne, if_pos hneg] at hfill
          contradiction
        · rw [parentRet] at hzero
          rw [if_pos hzero] at hfill
          contradiction
      · contradiction
    · rw [errorAt_of_stop fun _ => Nat.eq_zero_of_not_pos hroom] at hp
      contradiction
  · rw [errorAt_decode hok hroom hne] at hp
    simp only at hp
    split at hp
    · next hcode =>
      rw [← Option.some.inj hp]
      simp [decodeTurn, zlibFormat, hcode.1, hcode.2]
    · contradiction

/-! ## The turns -/

theorem zlibOutcome_error (herr : s.err = .error) {fuel : ℕ} {e : Outcome}
    (h : zlibOutcome d parent len s fuel = some (e, t)) : e.result.ret < 0 := by
  obtain ⟨⟨r, u⟩, hr, heq⟩ := Option.map_eq_some_iff.mp h
  obtain ⟨rfl, -⟩ := Prod.mk.inj heq
  obtain ⟨rfl, -⟩ := read_error herr hr
  exact Int.negSucc_lt_zero 0

/-- What is left to show when a read returns what it has. -/
theorem keeps_of_out {errors : List (List Byte)} (hret : r.ret = s.out.length)
    (hdata : r.data = s.out) (herrors : ∀ p ∈ errors, p = s.out ∧ t.err = .error) :
    Keeps (zlibOutcome d parent) ⟨r, s.out, errors⟩ t :=
  ⟨Outcome.reports_of_eq hret hdata, fun p hp _ => (herrors p hp).1.symm,
    fun ⟨p, hp, _⟩ _ _ _ _ hnext => zlibOutcome_error (herrors p hp).2 hnext⟩

/-- Behind an end of the file that `zlib_read` has not noted as an error, a read of no bytes
returns 0. -/
theorem zlibOutcome_empty (hok : t.err ≠ .error) :
    ∃ e u, zlibOutcome d parent 0 t 1 = some (e, u) ∧ 0 ≤ e.result.ret := by
  unfold zlibOutcome zlibRead read
  cases herr : t.err with
  | ok =>
    -- the buffer is full before the first turn
    simp only [loop, readTurn, zlibFormat]
    exact ⟨_, _, rfl, le_rfl⟩
  | eof => exact ⟨_, _, rfl, le_rfl⟩
  | error => contradiction

/-- What is left to show when the parent ends inside a compressed stream. -/
theorem keeps_of_inside (hplaced : s.out = [] → r.ret ≤ 0)
    (hlost : s.out ≠ [] → r.ret ≤ 0 ∨ t.err ≠ .error) :
    Keeps (zlibOutcome d parent) ⟨r, s.out, [s.out]⟩ t ↔ s.out = [] := by
  constructor
  · intro hkeeps
    by_contra hout
    rcases hlost hout with hret | hok
    · exact Outcome.not_reports hout hret hkeeps.1
    · obtain ⟨e, u, hnext, hret⟩ :
          ∃ e u, zlibOutcome d parent 0 t 1 = some (e, u) ∧ 0 ≤ e.result.ret :=
        zlibOutcome_empty hok
      exact not_keeps_of_next ⟨s.out, List.mem_singleton_self _, hout⟩ hnext hret hkeeps
  · intro hout
    apply keeps_of_reports t (Outcome.reports_of_nil hout (hplaced hout))
    rintro ⟨p, hp, hne⟩
    rw [List.mem_singleton.mp hp] at hne
    exact hne hout

/-- The turn in which `inbuff` cannot be filled. -/
theorem fillTurn_keeps (hlen : len < 2 ^ 32) (h : Reading zlibFormat before len answers s)
    (hok : s.err = .ok) (hroom : 0 < s.availOut) (hnil : s.nextIn = [])
    (hdone : fillTurn zlibFormat parent len s = .done (r, t)) :
    Keeps (zlibOutcome d parent) ⟨r, s.out, (errorAt d parent s).toList⟩ t ↔
      endsEarly parent s = false := by
  have htotal := h.room
  have hcUInt : cUInt len = len := cUInt_of_lt hlen
  have hcount : (len : ℤ) - s.availOut = s.out.length := by omega
  rw [errorAt_fill hok hroom hnil]
  unfold fillTurn at hdone
  by_cases hend : parentRet parent s = 0
  · have hret : cInt (parent.read s.parent wandioBufferSize).1.ret = 0 := hend
    simp only [hret, if_true, zlibFormat] at hdone
    by_cases hinside : insideStream s = true
    · -- the error is returned at once, or never
      have hearly : endsEarly parent s = false ↔ s.out = [] := by
        simp [endsEarly, hok, hroom, hnil, hend, hinside]
      rw [if_pos (.inr ⟨hend, hinside⟩), Option.toList_some, hearly]
      apply keeps_of_inside
      · intro hout
        rw [hout, List.length_nil] at hcount
        split at hdone
        · cases hdone
          exact (Int.negSucc_lt_zero 0).le
        · split at hdone
          · cases hdone
            exact le_rfl
          · cases hdone
            exact hcount.le
      · intro hout
        have hpos := List.length_pos_iff.mpr hout
        split at hdone
        · cases hdone
          exact .inl (Int.negSucc_lt_zero 0).le
        · rw [if_neg (by omega)] at hdone
          cases hdone
          exact .inr (by rw [hok]; decide)
    · -- no stream has begun behind the last one
      have hlate : endsEarly parent s = false := by simp [endsEarly, hinside]
      have hsince : ¬ 0 < s.sincelastend := fun hpos => hinside (by simp [insideStream, hpos])
      rw [if_neg (by simp [hend, hinside]), Option.toList_none]
      refine iff_of_true ?_ hlate
      simp only [hsince, if_false] at hdone
      split at hdone
      · next hempty =>
        cases hdone
        have hout : s.out = [] := List.eq_nil_of_length_eq_zero (by omega)
        exact keeps_of_reports _ (Outcome.reports_of_nil hout le_rfl)
          (by simp [Outcome.Interrupted])
      · cases hdone
        exact keeps_of_out hcount rfl (by simp)
  · -- an error of the parent
    have hlate : endsEarly parent s = false := by simp [endsEarly, hend]
    refine iff_of_true ?_ hlate
    have hret : cInt (parent.read s.parent wandioBufferSize).1.ret ≠ 0 := hend
    simp only [hret, if_false] at hdone
    split at hdone
    · next hneg =>
      have hneg : parentRet parent s < 0 := hneg
      rw [if_pos (.inl hneg), Option.toList_some]
      cases hdone
      split
      · exact keeps_of_out hcount rfl fun p hp => ⟨List.mem_singleton.mp hp, rfl⟩
      · next hempty =>
        have hout : s.out = [] := List.eq_nil_of_length_eq_zero (by omega)
        apply keeps_of_reports _ (Outcome.reports_of_nil hout (Int.negSucc_lt_zero 0).le)
        rintro ⟨p, hp, hne⟩
        rw [List.mem_singleton.mp hp] at hne
        exact hne hout
    · contradiction

/-- The read goes on only if the parent has not ended. -/
theorem endsEarly_next {d : Decoder (Recorded κ Byte) Byte}
    (h : readTurn zlibFormat d parent len s = .next t) : endsEarly parent s = false := by
  unfold endsEarly
  simp only [decide_eq_false_iff_not]
  rintro ⟨-, -, hnil, hend, -⟩
  obtain ⟨-, ⟨-, hfill⟩ | ⟨hne, -⟩⟩ := readTurn_next h
  · unfold fillTurn at hfill
    rw [parentRet] at hend
    simp only [hend, if_true] at hfill
    contradiction
  · exact hne hnil

/-- Nothing is read behind an error or the end of the file. -/
theorem mem_zlibTurns_of_err (hok : s.err ≠ .ok) {a : ℕ × ℕ} {u : State (Recorded κ Byte) σ}
    (hu : u ∈ zlibTurns d parent s a) : u.err ≠ .ok := by
  unfold zlibTurns at hu
  cases hfuel : a.2 with
  | zero =>
    rw [hfuel] at hu
    exact absurd hu List.not_mem_nil
  | succ fuel =>
    rw [hfuel, turns, readTurn, if_neg (by exact fun h => hok h.1)] at hu
    rw [List.mem_singleton.mp hu]
    exact hok

/-- So nothing is lost there. -/
theorem keeps_of_err (hok : s.err ≠ .ok) (hret : r.ret ≤ 0) {placed : List Byte}
    (hplaced : placed = []) {fuel : ℕ} :
    Keeps (zlibOutcome d parent)
        ⟨r, placed, (zlibTurns d parent s (len, fuel)).filterMap (errorAt d parent)⟩ t ↔
      endsInTime d parent s (len, fuel) = true := by
  refine iff_of_true (keeps_of_reports t (Outcome.reports_of_nil hplaced hret) ?_) ?_
  · rintro ⟨p, hp, -⟩
    obtain ⟨u, hu, hat⟩ := List.mem_filterMap.mp hp
    rw [errorAt_of_stop fun h => absurd h (mem_zlibTurns_of_err hok hu)] at hat
    contradiction
  · unfold endsInTime
    rw [decide_eq_true_iff]
    intro u hu
    simp [endsEarly, mem_zlibTurns_of_err hok hu]

/-- A read of less than 2³² bytes keeps what it has got if and only if the parent does not end
early. -/
theorem zlibOutcome_keeps (hlen : len < 2 ^ 32) {fuel : ℕ} {e : Outcome}
    (hr : zlibOutcome d parent len s fuel = some (e, t)) :
    Keeps (zlibOutcome d parent) e t ↔ endsInTime d parent s (len, fuel) = true := by
  obtain ⟨⟨r, u⟩, hread, heq⟩ := Option.map_eq_some_iff.mp hr
  obtain ⟨rfl, rfl⟩ := Prod.mk.inj heq
  have hsince : outputs (answersSince s s) = [] := by
    rw [answersSince, List.drop_length]
    rfl
  cases herr : s.err with
  | eof =>
    obtain ⟨rfl, rfl⟩ := read_eof herr hread
    exact keeps_of_err (by rw [herr]; decide) le_rfl hsince
  | error =>
    obtain ⟨rfl, rfl⟩ := read_error herr hread
    exact keeps_of_err (by rw [herr]; decide) (Int.negSucc_lt_zero 0).le hsince
  | ok =>
    have hplain : (zlibFormat : Format (Recorded κ Byte) σ).Plain := Kind.plain .zlib
    have hloop : loop (readTurn zlibFormat d.recorded parent len) fuel
        { s with availOut := cUInt len, out := [] } = some (r, u) := by
      have hread : read zlibFormat d.recorded parent len s fuel = some (r, u) := hread
      unfold read at hread
      simp only [herr] at hread ⊢
      exact hread
    have hstart : Reading zlibFormat s.strm.answers len []
        ({ s with availOut := cUInt len, out := [] } : State (Recorded κ Byte) σ) := by
      refine ⟨(List.append_nil _).symm, rfl, ?_, ?_⟩
      · show cUInt len + 0 = len
        rw [cUInt_of_lt hlen, Nat.add_zero]
      · show HasError _ [] ↔ s.err = .error
        rw [herr]
        exact iff_of_false not_hasError_nil (by decide)
    -- no turn but the last one can be the one in which the parent ends
    have hrule := loop_turns
      (I := fun seen v => (∃ answers, Reading zlibFormat s.strm.answers len answers v) ∧
        Noted (seen.filterMap (errorAt d parent)) v ∧ ∀ x ∈ seen, endsEarly parent x = false)
      (Q := fun seen q => Keeps (zlibOutcome d parent)
        ⟨q.1, outputs (answersSince s q.2), seen.filterMap (errorAt d parent)⟩ q.2 ↔
          ∀ x ∈ seen, endsEarly parent x = false) ?_ ?_ []
      ⟨⟨[], hstart⟩, by simp [Noted], by simp⟩ hloop
    · rw [List.nil_append] at hrule
      simpa [endsInTime, zlibTurns] using hrule
    · rintro seen v w ⟨⟨answers, hv⟩, hnoted, hseen⟩ hw
      have hok := (readTurn_next hw).1
      refine ⟨?_, ?_, fun x hx => ?_⟩
      · obtain ⟨-, ⟨-, hfill⟩ | ⟨-, -, rfl⟩⟩ := readTurn_next hw
        · rcases fillTurn_spec parent hplain hlen hv hok with ⟨w', hw', hread⟩ | ⟨q, w', hw', _⟩
          · rw [hfill] at hw'
            cases hw'
            exact ⟨answers, hread⟩
          · rw [hfill] at hw'
            cases hw'
        · exact decodeTurn_spec hplain hv hok
      · rw [filterMap_concat, hnoted.eq_nil hok, List.nil_append]
        exact noted_next hw
      · rcases List.mem_append.mp hx with hold | hnew
        · exact hseen x hold
        · rw [List.mem_singleton.mp hnew]
          exact endsEarly_next hw
    · rintro seen v ⟨q, w⟩ ⟨⟨answers, hv⟩, hnoted, hseen⟩ hq
      have hlast : (∀ x ∈ seen ++ [v], endsEarly parent x = false) ↔
          endsEarly parent v = false := by
        rw [List.forall_mem_append, List.forall_mem_singleton]
        exact and_iff_right hseen
      rw [hlast, filterMap_concat]
      rcases readTurn_done hq with ⟨hok, hroom, hnil, hfill⟩ | ⟨hstop, heq⟩
      · rcases fillTurn_spec parent hplain hlen hv hok with ⟨w', hw', _⟩ | ⟨q', w', hw', hret⟩
        · rw [hfill] at hw'
          cases hw'
        · rw [hfill] at hw'
          cases hw'
          have hout : outputs (answersSince s w) = v.out := by
            rw [answersSince, hret.answers_eq, List.drop_left, hv.out_eq]
          simp only [hout, hnoted.eq_nil hok, List.nil_append]
          exact fillTurn_keeps hlen hv hok hroom hnil hfill
      · -- the loop is left: the buffer is full, or inflate has stopped
        rw [Prod.mk.injEq] at heq
        obtain ⟨rfl, rfl⟩ := heq
        have hout : outputs (answersSince s w) = w.out := by
          rw [answersSince, hv.answers_eq, List.drop_left, hv.out_eq]
        have hroom := hv.room
        have hcount : (len : ℤ) - w.availOut = w.out.length := by omega
        rw [errorAt_of_stop hstop, Option.toList_none, List.append_nil]
        simp only [hout]
        refine iff_of_true (keeps_of_out hcount rfl hnoted) ?_
        unfold endsEarly
        simp only [decide_eq_false_iff_not]
        rintro ⟨hok, hmore, -⟩
        rw [hstop hok] at hmore
        exact absurd hmore (lt_irrefl 0)

end Read

end Wandio.StreamReader
