import Wandio.StreamReader.Model
import Wandio.ThreadReader.DeliveryTheorems

/-!
# When a codec error is taken for the end of a file

After an error of the decoder a read returns the number of bytes it has, so it returns 0,
like at the end of a file, exactly when the decoder has emitted nothing during that read.
-/

namespace Wandio.StreamReader

open Codec Loop

variable {κ σ : Type*}

/-! ## What the formats have in common -/

/-- A format touches neither the caller's buffer nor, but for a restart, the decoder. -/
structure Format.Plain (f : Format κ σ) : Prop where
  availOut : ∀ len, len < 2 ^ 32 → f.availOut len = len
  atInput : ∀ n s, (f.atInput n s).strm = s.strm ∧ (f.atInput n s).out = s.out ∧
    (f.atInput n s).availOut = s.availOut ∧ (f.atInput n s).err = s.err
  atEof : ∀ len s, (f.atEof len s).2.strm = s.strm ∧ (f.atEof len s).2.out = s.out
  atEof_ret : ∀ len s, len < 2 ^ 32 →
    (f.atEof len s).1 = -1 ∨ (f.atEof len s).1 = len - s.availOut
  atEnd : ∀ d s, s.err = .ok → (f.atEnd d s).out = s.out ∧ (f.atEnd d s).availOut = s.availOut ∧
    (f.atEnd d s).err ≠ .error ∧
    ((f.atEnd d s).strm = s.strm ∨ (f.atEnd d s).strm = d.reset s.strm)

theorem Kind.plain (kind : Kind) : (kind.format : Format κ σ).Plain := by
  cases kind
  case zlib =>
    refine ⟨fun len h => cUInt_of_lt h, fun n s => ⟨rfl, rfl, rfl, rfl⟩, fun len s => ?_,
      fun len s h => ?_, fun d s h => ⟨rfl, rfl, by simp [format, zlibFormat], .inr rfl⟩⟩
    · simp only [format, zlibFormat]
      split
      · exact ⟨rfl, rfl⟩
      · split <;> exact ⟨rfl, rfl⟩
    · simp only [format, zlibFormat, cUInt_of_lt h]
      split
      · exact .inl rfl
      · split
        · next heq => exact .inr (by simp only [heq]; omega)
        · exact .inr rfl
  case bz =>
    exact ⟨fun len h => cUInt_of_lt h, fun n s => ⟨rfl, rfl, rfl, rfl⟩, fun len s => ⟨rfl, rfl⟩,
      fun len s _ => .inr rfl, fun d s h => ⟨rfl, rfl, by simp [format, bzFormat, h], .inr rfl⟩⟩
  case lzma =>
    refine ⟨fun len h => rfl, fun n s => ⟨rfl, rfl, rfl, rfl⟩, fun len s => ?_, fun len s h => ?_,
      fun d s h => ⟨rfl, rfl, by simp [format, lzmaFormat], .inl rfl⟩⟩
    · simp only [format, lzmaFormat]
      split <;> exact ⟨rfl, rfl⟩
    · simp only [format, lzmaFormat, cUInt_of_lt h]
      split
      · next heq => exact .inr (by simp only [heq]; omega)
      · exact .inr rfl

/-! ## One read -/

/-- The answers of the decoder to the calls of one read: each the output with the code. -/
abbrev Answers := List (List Byte × ℤ)

/-- The decoder has reported an error. -/
def HasError (f : Format κ σ) (answers : Answers) : Prop := ∃ a ∈ answers, f.isError a.2 = true

/-- Everything the decoder has emitted. -/
def outputs (answers : Answers) : List Byte := answers.flatMap Prod.fst

theorem outputs_append (a b : Answers) : outputs (a ++ b) = outputs a ++ outputs b :=
  List.flatMap_append

theorem hasError_append {f : Format κ σ} {a b : Answers} :
    HasError f (a ++ b) ↔ HasError f a ∨ HasError f b := by
  simp only [HasError, List.mem_append, or_and_right, exists_or]

theorem not_hasError_nil {f : Format κ σ} : ¬ HasError f [] := by
  rintro ⟨a, ha, _⟩
  exact List.not_mem_nil ha

section Read

variable {f : Format (Recorded κ Byte) σ} {d : Decoder κ Byte} {parent : Source σ}
  {before : Answers} {len : ℕ} {s t : State (Recorded κ Byte) σ}

/-- In a read of `len` bytes: the caller's buffer holds what the decoder has emitted since
the read began, and `err` tells whether it has reported an error. -/
structure Reading (f : Format (Recorded κ Byte) σ) (before : Answers) (len : ℕ)
    (answers : Answers) (s : State (Recorded κ Byte) σ) : Prop where
  answers_eq : s.strm.answers = before ++ answers
  out_eq : s.out = outputs answers
  room : s.availOut + s.out.length = len
  err : HasError f answers ↔ s.err = .error

/-- How a read ends. -/
structure Returned (f : Format (Recorded κ Byte) σ) (before : Answers) (len : ℕ)
    (answers : Answers) (r : ReadResult) (t : State (Recorded κ Byte) σ) : Prop where
  answers_eq : t.strm.answers = before ++ answers
  data_eq : r.data = outputs answers
  le : r.data.length ≤ len
  ret : r.ret = -1 ∨ r.ret = r.data.length
  error : HasError f answers → t.err = .error ∧ r.ret = r.data.length

/-- Filling `inbuff` does not change what has been read. -/
theorem fillTurn_spec (parent : Source σ) (hf : f.Plain) (hlen : len < 2 ^ 32) {answers : Answers}
    (h : Reading f before len answers s) (hok : s.err = .ok) :
    (∃ t, fillTurn f parent len s = .next t ∧ Reading f before len answers t) ∨
      (∃ r t, fillTurn f parent len s = .done (r, t) ∧ Returned f before len answers r t) := by
  have hno : ¬ HasError f answers := by
    rw [h.err, hok]
    simp
  have hroom := h.room
  unfold fillTurn
  simp only
  split
  · -- the end of the parent's data
    set u : State (Recorded κ Byte) σ :=
      { s with parent := (parent.read s.parent wandioBufferSize).2 } with hu
    obtain ⟨hstrm, hout⟩ := hf.atEof len u
    refine .inr ⟨_, _, rfl, ⟨?_, ?_, ?_, ?_, fun he => absurd he hno⟩⟩
    · rw [hstrm]
      exact h.answers_eq
    · rw [hout]
      exact h.out_eq
    · rw [hout]
      show s.out.length ≤ len
      omega
    · rcases hf.atEof_ret len u hlen with hneg | hret
      · exact .inl hneg
      · refine .inr ?_
        rw [hret, hout]
        show (len : ℤ) - s.availOut = s.out.length
        omega
  · split
    · -- an error of the parent
      refine .inr ⟨_, _, rfl, ⟨h.answers_eq, h.out_eq, ?_, ?_, fun he => absurd he hno⟩⟩
      · show s.out.length ≤ len
        omega
      · simp only
        split
        · exact .inr (by omega)
        · exact .inl rfl
    · obtain ⟨hstrm, hout, hroom', herr⟩ := hf.atInput
        (cInt (parent.read s.parent wandioBufferSize).1.ret).toNat
        { s with
          parent := (parent.read s.parent wandioBufferSize).2
          nextIn := (parent.read s.parent wandioBufferSize).1.data }
      exact .inl ⟨_, rfl, ⟨by rw [hstrm]; exact h.answers_eq, by rw [hout]; exact h.out_eq,
        by rw [hout, hroom']; exact h.room, by rw [herr]; exact h.err⟩⟩

/-- A call of the decoder. -/
theorem decodeTurn_spec (hf : f.Plain) {answers : Answers} (h : Reading f before len answers s)
    (hok : s.err = .ok) :
    ∃ answers', Reading f before len answers' (decodeTurn f d.recorded s) := by
  set a := d.call s.strm.state () s.nextIn s.availOut with ha
  have hno : ¬ HasError f answers := by
    rw [h.err, hok]
    simp
  have houtput : a.output.length ≤ s.availOut := d.output_le _ _ _ _
  have hroom := h.room
  have hnew : HasError f (answers ++ [(a.output, a.code)]) ↔ f.isError a.code = true := by
    rw [hasError_append, or_iff_right hno]
    simp [HasError]
  set u : State (Recorded κ Byte) σ :=
    { s with
      strm := (d.recorded.call s.strm () s.nextIn s.availOut).state
      nextIn := s.nextIn.drop a.consumed
      out := s.out ++ a.output
      availOut := s.availOut - a.output.length } with hu
  have hanswers : u.strm.answers = before ++ (answers ++ [(a.output, a.code)]) := by
    show s.strm.answers ++ [(a.output, a.code)] = _
    rw [h.answers_eq, List.append_assoc]
  have hout : u.out = outputs (answers ++ [(a.output, a.code)]) := by
    show s.out ++ a.output = _
    rw [h.out_eq, outputs_append]
    simp [outputs]
  have hroom' : u.availOut + u.out.length = len := by
    show s.availOut - a.output.length + (s.out ++ a.output).length = len
    rw [List.length_append]
    omega
  have hdecode : decodeTurn f d.recorded s =
      if a.code = f.ok then { u with err := .ok }
      else if a.code = f.streamEnd then f.atEnd d.recorded u else { u with err := .error } := rfl
  refine ⟨answers ++ [(a.output, a.code)], ?_⟩
  rw [hdecode]
  split
  · next hcode => exact ⟨hanswers, hout, hroom', by rw [hnew]; simp [Format.isError, hcode]⟩
  · next hcode =>
    split
    · next hend =>
      obtain ⟨hout', hroom'', herr, hstrm⟩ := hf.atEnd d.recorded u hok
      refine ⟨?_, by rw [hout']; exact hout, by rw [hout', hroom'']; exact hroom', ?_⟩
      · rcases hstrm with hs | hs
        · rw [hs]
          exact hanswers
        · rw [hs]
          exact hanswers
      · rw [hnew]
        simp [Format.isError, hend, herr]
    · next hend =>
      exact ⟨hanswers, hout, hroom', by rw [hnew]; simp [Format.isError, hcode, hend]⟩

/-- A read of a reader without an error. -/
theorem read_spec (hf : f.Plain) (hlen : len < 2 ^ 32) (hok : s.err = .ok) {fuel : ℕ}
    {r : ReadResult} (hr : read f d.recorded parent len s fuel = some (r, t)) :
    ∃ answers, Returned f s.strm.answers len answers r t := by
  unfold read at hr
  rw [hok] at hr
  refine loop_invariant (I := fun u => ∃ answers, Reading f s.strm.answers len answers u)
    (Q := fun q => ∃ answers, Returned f s.strm.answers len answers q.1 q.2)
    (fun u v hu hv => ?_) (fun u q hu hq => ?_) ⟨[], ?_⟩ hr
  · obtain ⟨answers, hu⟩ := hu
    obtain ⟨hok, ⟨-, hfill⟩ | ⟨-, -, rfl⟩⟩ := readTurn_next hv
    · rcases fillTurn_spec parent hf hlen hu hok with ⟨w, hw, hread⟩ | ⟨q, w, hw, _⟩
      · rw [hfill] at hw
        cases hw
        exact ⟨answers, hread⟩
      · rw [hfill] at hw
        cases hw
    · exact decodeTurn_spec hf hu hok
  · obtain ⟨answers, hu⟩ := hu
    rcases readTurn_done hq with ⟨hok, -, -, hfill⟩ | ⟨-, rfl⟩
    · rcases fillTurn_spec parent hf hlen hu hok with ⟨w, hw, _⟩ | ⟨q', w, hw, hret⟩
      · rw [hfill] at hw
        cases hw
      · rw [hfill] at hw
        cases hw
        exact ⟨answers, hret⟩
    · -- the loop is left: the buffer is full, or the decoder has stopped
      have hroom := hu.room
      have hcount : (len : ℤ) - u.availOut = u.out.length := by omega
      exact ⟨answers, hu.answers_eq, hu.out_eq, by simp only; omega, .inr hcount,
        fun he => ⟨hu.err.mp he, hcount⟩⟩
  · refine ⟨by simp, rfl, ?_, ?_⟩
    · show f.availOut len + 0 = len
      rw [hf.availOut len hlen, Nat.add_zero]
    · show HasError f [] ↔ ErrT.ok = .error
      simp [not_hasError_nil]

/-- A reader that has met an error does not call the decoder again. -/
theorem read_error (herr : s.err = .error) {fuel : ℕ} {r : ReadResult}
    (hr : read f d.recorded parent len s fuel = some (r, t)) : r = ⟨-1, []⟩ ∧ t = s := by
  unfold read at hr
  rw [herr, Option.some_inj, Prod.mk.injEq] at hr
  exact ⟨hr.1.symm, hr.2.symm⟩

/-- A reader at the end of the file does not call the decoder again. -/
theorem read_eof (herr : s.err = .eof) {fuel : ℕ} {r : ReadResult}
    (hr : read f d.recorded parent len s fuel = some (r, t)) : r = ⟨0, []⟩ ∧ t = s := by
  unfold read at hr
  rw [herr, Option.some_inj, Prod.mk.injEq] at hr
  exact ⟨hr.1.symm, hr.2.symm⟩

/-- The answers of the decoder during the read that takes `s` to `t`. -/
def answersSince (s t : State (Recorded κ Byte) σ) : Answers :=
  t.strm.answers.drop s.strm.answers.length

/-- What a read returns in any state, and whether there was an error during it. -/
theorem read_cases (hf : f.Plain) (hlen : len < 2 ^ 32) {fuel : ℕ} {r : ReadResult}
    (hr : read f d.recorded parent len s fuel = some (r, t)) :
    r.data.length ≤ len ∧ (r.ret = -1 ∨ r.ret = r.data.length) ∧
      (s.err = .error → r.ret = -1 ∧ t.err = .error) ∧
      (HasError f (answersSince s t) →
        t.err = .error ∧ r.ret = (outputs (answersSince s t)).length) := by
  have hnone : HasError f (answersSince s s) → False := by
    rw [answersSince, List.drop_length]
    exact not_hasError_nil
  cases herr : s.err with
  | ok =>
    obtain ⟨answers, h⟩ := read_spec hf hlen herr hr
    have hsince : answersSince s t = answers := by
      rw [answersSince, h.answers_eq, List.drop_left]
    refine ⟨h.le, h.ret, by simp, fun he => ?_⟩
    rw [hsince] at he ⊢
    obtain ⟨hterr, hret⟩ := h.error he
    exact ⟨hterr, by rw [hret, h.data_eq]⟩
  | eof =>
    obtain ⟨rfl, rfl⟩ := read_eof herr hr
    exact ⟨Nat.zero_le _, .inr rfl, by simp, fun he => absurd he hnone⟩
  | error =>
    obtain ⟨rfl, rfl⟩ := read_error herr hr
    exact ⟨Nat.zero_le _, .inl rfl, fun _ => ⟨rfl, herr⟩, fun he => absurd he hnone⟩

end Read

/-! ## Runs -/

/-- A read, with the answers of the decoder during it. -/
def readRecorded (kind : Kind) (d : Decoder κ Byte) (parent : Source σ) (fuel len : ℕ)
    (s : State (Recorded κ Byte) σ) :
    Option ((ReadResult × Answers) × State (Recorded κ Byte) σ) :=
  (kind.read d.recorded parent len s fuel).map fun q => ((q.1, answersSince s q.2), q.2)

theorem Kind.read_eq (kind : Kind) (d : Decoder κ Byte) (parent : Source σ) :
    kind.read d parent = StreamReader.read kind.format d parent := by
  cases kind <;> rfl

/-- The decoder has reported an error in one of the reads. -/
def Failed (f : Format κ σ) (log : List (ℕ × ReadResult × Answers)) : Prop :=
  ∃ e ∈ log, HasError f e.2.2

/-- No read returns 0 once the decoder has reported an error. -/
def ErrorsReported (f : Format κ σ) : List (ℕ × ReadResult × Answers) → Prop :=
  Each fun before e => e.2.1.ret = 0 → ¬ Failed f (before ++ [e])

/-- Whenever the decoder reports an error, it has emitted something during that read. -/
def ErrorsAfterOutput (f : Format κ σ) (log : List (ℕ × ReadResult × Answers)) : Prop :=
  ∀ e ∈ log, HasError f e.2.2 → outputs e.2.2 ≠ []

/-- After a run with an error in it the reader's state says so, and a read in which there
was an error has returned the number of bytes emitted during it. -/
theorem run_failed {kind : Kind} {d : Decoder κ Byte} {parent : Source σ} {fuel : ℕ}
    {lens : List ℕ} (hlens : ∀ l ∈ lens, l < 2 ^ 32) {s t : State (Recorded κ Byte) σ}
    {log : List (ℕ × ReadResult × Answers)}
    (hrun : runCalls (readRecorded kind d parent fuel) lens s = some (log, t)) :
    Each (fun before e => (Failed (kind.format : Format (Recorded κ Byte) σ) before →
        e.2.1.ret = -1) ∧
      (HasError (kind.format : Format (Recorded κ Byte) σ) e.2.2 →
        e.2.1.ret = (outputs e.2.2).length)) log := by
  have hinv := runCalls_invariant
    (I := fun log s => (Failed (kind.format : Format (Recorded κ Byte) σ) log → s.err = .error) ∧
      Each (fun before e => (Failed (kind.format : Format (Recorded κ Byte) σ) before →
          e.2.1.ret = -1) ∧
        (HasError (kind.format : Format (Recorded κ Byte) σ) e.2.2 →
          e.2.1.ret = (outputs e.2.2).length)) log)
    (fun log len s b t hlen h hcall => ?_) [] ⟨?_, Each.nil⟩ hrun
  · exact hinv.2
  · obtain ⟨hfailed, heach⟩ := h
    rw [readRecorded, Option.map_eq_some_iff, kind.read_eq] at hcall
    obtain ⟨⟨r, u⟩, hr, heq⟩ := hcall
    obtain ⟨rfl, rfl⟩ := Prod.mk.inj heq
    obtain ⟨-, -, herror, hnew⟩ := read_cases kind.plain (hlens len hlen) hr
    refine ⟨?_, heach.append ⟨fun hb => (herror (hfailed hb)).1, fun he => (hnew he).2⟩⟩
    rintro ⟨e, he, hhas⟩
    rcases List.mem_append.mp he with he | he
    · exact (herror (hfailed ⟨e, he, hhas⟩)).2
    · rw [List.mem_singleton] at he
      rw [he] at hhas
      exact (hnew hhas).1
  · rintro ⟨e, he, _⟩
    exact absurd he List.not_mem_nil

/-- In every run the errors are reported if and only if each came after some output. -/
theorem errorsReported_iff {kind : Kind} {d : Decoder κ Byte} {parent : Source σ} {fuel : ℕ}
    {lens : List ℕ} (hlens : ∀ l ∈ lens, l < 2 ^ 32) {s t : State (Recorded κ Byte) σ}
    {log : List (ℕ × ReadResult × Answers)}
    (hrun : runCalls (readRecorded kind d parent fuel) lens s = some (log, t)) :
    ErrorsReported (kind.format : Format (Recorded κ Byte) σ) log ↔
      ErrorsAfterOutput (kind.format : Format (Recorded κ Byte) σ) log := by
  have heach := run_failed hlens hrun
  constructor
  · intro h e he hhas hnone
    obtain ⟨before, after, hlog⟩ := List.append_of_mem he
    have hret := (heach before e after hlog).2 hhas
    rw [hnone, List.length_nil] at hret
    exact h before e after hlog hret ⟨e, by simp, hhas⟩
  · intro h before e after hlog hret
    have he : e ∈ log := by rw [hlog]; simp
    obtain ⟨hbefore, hnow⟩ := heach before e after hlog
    rintro ⟨e', he', hhas⟩
    rcases List.mem_append.mp he' with he' | he'
    · have := hbefore ⟨e', he', hhas⟩
      omega
    · rw [List.mem_singleton] at he'
      rw [he'] at hhas
      have hzero := hnow hhas
      rw [hret] at hzero
      exact h e he hhas (List.eq_nil_of_length_eq_zero (by omega))

/-! ## Below a threaded reader -/

/-- The reads of 1 MiB that `thread_producer` makes: read `i` takes the reader from state
`s i` to state `s (i + 1)`. -/
def Serves (kind : Kind) (d : Decoder κ Byte) (parent : Source σ)
    (s : ℕ → State (Recorded κ Byte) σ) (reads : ℕ → ReadResult) : Prop :=
  ∀ i, ∃ fuel, kind.read d.recorded parent wandioBufferSize (s i) fuel = some (reads i, s (i + 1))

section Serves

variable {kind : Kind} {d : Decoder κ Byte} {parent : Source σ}
  {s : ℕ → State (Recorded κ Byte) σ} {reads : ℕ → ReadResult}

/-- What is known of each of the reads. -/
theorem Serves.read_cases (h : Serves kind d parent s reads) (i : ℕ) :
    (reads i).data.length ≤ wandioBufferSize ∧
      ((reads i).ret = -1 ∨ (reads i).ret = (reads i).data.length) ∧
      ((s i).err = .error → (reads i).ret = -1 ∧ (s (i + 1)).err = .error) ∧
      (HasError (kind.format : Format (Recorded κ Byte) σ) (answersSince (s i) (s (i + 1))) →
        (s (i + 1)).err = .error ∧
          (reads i).ret = (outputs (answersSince (s i) (s (i + 1)))).length) := by
  obtain ⟨fuel, hr⟩ := h i
  rw [kind.read_eq] at hr
  exact StreamReader.read_cases kind.plain (by decide) hr

theorem Serves.wellBehaved (h : Serves kind d parent s reads) :
    ThreadReader.WellBehaved reads where
  data_length i hpos := by
    rcases (h.read_cases i).2.1 with hneg | hret
    · omega
    · exact hret
  data_le i _ := (h.read_cases i).1
  ret_ge i := by
    rcases (h.read_cases i).2.1 with hneg | hret <;> omega

/-- The result that ends a corrupt stream is negative if and only if each error came after
some output. -/
theorem Serves.ends_neg_iff (h : Serves kind d parent s reads) {k : ℕ}
    (hk : ThreadReader.Ends reads k)
    (hbad : ∃ i, i ≤ k ∧ HasError (kind.format : Format (Recorded κ Byte) σ)
      (answersSince (s i) (s (i + 1)))) :
    (reads k).ret < 0 ↔ ∀ i, i ≤ k →
      HasError (kind.format : Format (Recorded κ Byte) σ) (answersSince (s i) (s (i + 1))) →
        outputs (answersSince (s i) (s (i + 1))) ≠ [] := by
  constructor
  · intro hneg i hi herror hnone
    -- the read with the error has returned 0, so it is the last one
    have hret := ((h.read_cases i).2.2.2 herror).2
    rw [hnone, List.length_nil] at hret
    rcases Nat.lt_or_eq_of_le hi with hlt | rfl
    · have := hk.1 i hlt
      omega
    · omega
  · intro hout
    obtain ⟨i, hi, herror⟩ := hbad
    obtain ⟨herr, hret⟩ := (h.read_cases i).2.2.2 herror
    have hpos : 0 < (outputs (answersSince (s i) (s (i + 1)))).length :=
      List.length_pos_iff.mpr (hout i hi herror)
    -- the next read returns the error, and it is the last one
    have hnext := ((h.read_cases (i + 1)).2.2.1 herr).1
    have hik : i ≠ k := by
      rintro rfl
      have := hk.2
      omega
    have hlast : ¬ i + 1 < k := fun hlt => by
      have := hk.1 (i + 1) hlt
      omega
    rw [show k = i + 1 by omega, hnext]
    decide

end Serves

/-- A codec error is never taken for the end of a file if and only if it never comes in a
read in which the decoder has emitted nothing; and the same condition decides whether a
threaded reader above ends a corrupt stream with an error or with an end of file. -/
theorem codecError_reported_iff (kind : Kind) (d : Decoder κ Byte) (parent : Source σ) (k : κ)
    (c : σ) :
    (∀ (lens : List ℕ), (∀ l ∈ lens, 0 < l ∧ l < 2 ^ 32) → ∀ fuel log t,
      runCalls (readRecorded kind d parent fuel) lens (kind.open ⟨k, []⟩ c) = some (log, t) →
      (ErrorsReported (kind.format : Format (Recorded κ Byte) σ) log ↔
        ErrorsAfterOutput (kind.format : Format (Recorded κ Byte) σ) log)) ∧
    (∀ s reads, s 0 = kind.open ⟨k, []⟩ c → Serves kind d parent s reads →
      ∀ m, ThreadReader.Ends reads m →
      (∃ i, i ≤ m ∧ HasError (kind.format : Format (Recorded κ Byte) σ)
        (answersSince (s i) (s (i + 1)))) →
      ∀ n, 0 < n → ∀ lens : List ℕ, (∀ l ∈ lens, l < 2 ^ 31) → ∀ u,
      Transition.Reachable (ThreadReader.system n reads lens) u →
      ∀ before e after, u.log = before ++ e :: after → 0 < e.1 →
      ThreadReader.delivered before = ThreadReader.bytesUpTo reads m →
      (e.2.ret < 0 ↔ ∀ i, i ≤ m →
        HasError (kind.format : Format (Recorded κ Byte) σ) (answersSince (s i) (s (i + 1))) →
          outputs (answersSince (s i) (s (i + 1))) ≠ [])) := by
  constructor
  · intro lens hlens fuel log t hrun
    exact errorsReported_iff (fun l hl => (hlens l hl).2) hrun
  · intro s reads _ hserves m hm hbad n hn lens hlens u hu before e after hlog hpos hall
    obtain ⟨head, j, hinv⟩ := ThreadReader.inv_reachable hn hserves.wellBehaved hu
    rw [(hinv.logOk hlens before e after hlog).terminal hpos m hm hall]
    exact hserves.ends_neg_iff hm hbad

/-! ## A header that is not one -/

/-- What inflate makes of two bytes that are no gzip or zlib header: `Z_DATA_ERROR`. -/
def badHeader : Decoder Unit Byte where
  call _ _ input _ := ⟨(), min 2 input.length, [], -3⟩
  consumed_le _ _ _ _ := Nat.min_le_right _ _
  output_le _ _ _ _ := Nat.zero_le _
  reset _ := ()

/-- The zlib reader over two zero bytes, before its first read and after. -/
def badHeaderState : ℕ → State (Recorded Unit Byte) (List Byte × List ℕ)
  | 0 => Kind.zlib.open ⟨(), []⟩ ([0, 0], [])
  | _ + 1 => ⟨⟨(), [([], -3)]⟩, [], [], 10, ([], []), .error, 3⟩

/-- The first read returns 0, the ones after it the error. -/
def badHeaderReads : ℕ → ReadResult
  | 0 => ⟨0, []⟩
  | _ + 1 => ⟨-1, []⟩

/-- The same with the buffer size of `thread_producer`. -/
def badHeaderServed : ℕ → State (Recorded Unit Byte) (List Byte × List ℕ)
  | 0 => badHeaderState 0
  | i + 1 => { badHeaderState (i + 1) with availOut := wandioBufferSize }

theorem badHeader_run :
    runCalls (readRecorded .zlib badHeader chunked.toSource 3) [10] (badHeaderState 0) =
      some ([(10, ⟨0, []⟩, [([], -3)])], badHeaderState 1) := rfl

theorem badHeader_serves :
    Serves .zlib badHeader chunked.toSource badHeaderServed badHeaderReads := by
  intro i
  cases i with
  | zero => exact ⟨3, rfl⟩
  | succ i => exact ⟨0, rfl⟩

theorem badHeader_error : HasError (Kind.zlib.format : Format (Recorded Unit Byte)
    (List Byte × List ℕ)) (answersSince (badHeaderServed 0) (badHeaderServed 1)) :=
  ⟨([], -3), List.mem_singleton.mpr rfl, rfl⟩

/-- The caller waits, the producer reads once and exits, the caller gets the result. -/
def badHeaderTurns : List ThreadReader.Label :=
  [.caller, .caller, .producer, .producer, .producer, .caller]

theorem badHeader_threaded :
    ∃ u, Transition.Reachable (ThreadReader.system 1 badHeaderReads [1]) u ∧
      u.log = [(1, ⟨0, []⟩)] := by
  obtain ⟨u, hu, hp⟩ := Transition.exists_reachable_of_exec
    (ThreadReader.system 1 badHeaderReads [1]) badHeaderTurns (fun u => u.log = [(1, ⟨0, []⟩)])
    (by decide)
  exact ⟨u, hu, by simpa using hp⟩

/-- What inflate makes of a wrong checksum behind the last byte: it emits the byte, and answers
`Z_DATA_ERROR`. -/
def badTrailer : Decoder Unit Byte where
  call _ _ input room := ⟨(), input.length, input.take room, -3⟩
  consumed_le _ _ _ _ := le_rfl
  output_le _ _ _ _ := List.length_take_le _ _
  reset _ := ()

/-- The zlib reader over the byte 7, before its first read and after, with what is left of a buffer
of the size `len`. -/
def badTrailerState (len : ℕ) : ℕ → State (Recorded Unit Byte) (List Byte × List ℕ)
  | 0 => Kind.zlib.open ⟨(), []⟩ ([7], [])
  | _ + 1 => ⟨⟨(), [([7], -3)]⟩, [], [7], len - 1, ([], []), .error, 2⟩

/-- The first read returns the byte, the ones after it the error. -/
def badTrailerReads : ℕ → ReadResult
  | 0 => ⟨1, [7]⟩
  | _ + 1 => ⟨-1, []⟩

theorem badTrailer_serves :
    Serves .zlib badTrailer chunked.toSource (badTrailerState wandioBufferSize)
      badTrailerReads := by
  intro i
  cases i with
  | zero => exact ⟨3, rfl⟩
  | succ i => exact ⟨0, rfl⟩

/-- The caller waits for the byte and takes it, and then for the error. -/
def badTrailerTurns : List ThreadReader.Label :=
  [.caller, .caller, .producer, .producer, .producer, .caller, .caller, .caller, .caller, .caller,
    .caller, .producer, .producer, .caller, .caller]

theorem badTrailer_threaded :
    ∃ u, Transition.Reachable (ThreadReader.system 2 badTrailerReads [1, 1]) u ∧
      u.log = [(1, ⟨1, [7]⟩), (1, ⟨-1, []⟩)] := by
  obtain ⟨u, hu, hp⟩ := Transition.exists_reachable_of_exec
    (ThreadReader.system 2 badTrailerReads [1, 1]) badTrailerTurns
    (fun u => u.log = [(1, ⟨1, [7]⟩), (1, ⟨-1, []⟩)]) (by decide)
  exact ⟨u, hu, by simpa using hp⟩

theorem badTrailer_outputs : ∀ i, i ≤ 1 →
    HasError (Kind.zlib.format : Format (Recorded Unit Byte) (List Byte × List ℕ))
      (answersSince (badTrailerState wandioBufferSize i)
        (badTrailerState wandioBufferSize (i + 1))) →
      outputs (answersSince (badTrailerState wandioBufferSize i)
        (badTrailerState wandioBufferSize (i + 1))) ≠ [] := by
  intro i hi herror
  obtain rfl | rfl : i = 0 ∨ i = 1 := by omega
  · exact List.cons_ne_nil _ _
  · exact absurd herror not_hasError_nil

/-- Behind a byte the error is reported, without a thread and with one; the error of a header is
not. -/
theorem codecError_reported_iff_twoErrors :
    (∃ log t, runCalls (readRecorded .zlib badTrailer chunked.toSource 3) [10, 10]
        (Kind.zlib.open ⟨(), []⟩ ([7], [])) = some (log, t) ∧ log.length = 2 ∧
      ErrorsReported (Kind.zlib.format : Format (Recorded Unit Byte) (List Byte × List ℕ)) log) ∧
    (∃ u e, Transition.Reachable (ThreadReader.system 2 badTrailerReads [1, 1]) u ∧
      u.log = [(1, ⟨1, [7]⟩), (1, e)] ∧ e.ret < 0) ∧
    ∃ log t, runCalls (readRecorded .zlib badHeader chunked.toSource 3) [10]
        (badHeaderState 0) = some (log, t) ∧
      ¬ ErrorsReported (Kind.zlib.format : Format (Recorded Unit Byte) (List Byte × List ℕ))
        log := by
  obtain ⟨hruns, hthreads⟩ := codecError_reported_iff .zlib badTrailer chunked.toSource ()
    ([7], [])
  obtain ⟨hheader, _⟩ := codecError_reported_iff .zlib badHeader chunked.toSource () ([0, 0], [])
  refine ⟨?_, ?_, ?_⟩
  · refine ⟨_, _, rfl, rfl, (hruns [10, 10] (by decide) 3 _ _ rfl).mpr ?_⟩
    intro e he herror
    rcases List.mem_pair.mp he with rfl | rfl
    · exact List.cons_ne_nil _ _
    · exact absurd herror not_hasError_nil
  · obtain ⟨u, hu, hlog⟩ := badTrailer_threaded
    have hends : ThreadReader.Ends badTrailerReads 1 := by
      refine ⟨fun i hi => ?_, by decide⟩
      obtain rfl : i = 0 := by omega
      decide
    refine ⟨u, ⟨-1, []⟩, hu, hlog, ?_⟩
    exact (hthreads (badTrailerState wandioBufferSize) badTrailerReads rfl badTrailer_serves 1 hends
      ⟨0, Nat.zero_le _, ([7], -3), List.mem_singleton.mpr rfl, rfl⟩ 2 (by decide) [1, 1]
      (by decide) u hu [(1, ⟨1, [7]⟩)] (1, ⟨-1, []⟩) [] hlog (by decide) rfl).mpr badTrailer_outputs
  · refine ⟨_, _, badHeader_run, fun h => ?_⟩
    have hafter := (hheader [10] (by decide) 3 _ _ badHeader_run).mp h
    exact hafter _ (List.mem_singleton_self _) ⟨([], -3), List.mem_singleton_self _, rfl⟩ rfl

/-- Over two zero bytes the first `zlib_read` returns 0 although inflate has reported an
error in it, and a threaded reader above takes that for the end of the file. -/
theorem zlibRead_hides_error :
    (∃ log t, runCalls (readRecorded .zlib badHeader chunked.toSource 3) [10]
        (badHeaderState 0) = some (log, t) ∧
      ¬ ErrorsReported (Kind.zlib.format : Format (Recorded Unit Byte) (List Byte × List ℕ)) log) ∧
    Serves .zlib badHeader chunked.toSource badHeaderServed badHeaderReads ∧
    HasError (Kind.zlib.format : Format (Recorded Unit Byte) (List Byte × List ℕ))
      (answersSince (badHeaderServed 0) (badHeaderServed 1)) ∧
    ∃ u, Transition.Reachable (ThreadReader.system 1 badHeaderReads [1]) u ∧
      u.log = [(1, ⟨0, []⟩)] := by
  refine ⟨⟨_, _, badHeader_run, fun h => ?_⟩, badHeader_serves, badHeader_error,
    badHeader_threaded⟩
  exact h [] (10, ⟨0, []⟩, [([], -3)]) [] rfl rfl
    ⟨_, List.mem_singleton.mpr rfl, ([], -3), List.mem_singleton.mpr rfl, rfl⟩

end Wandio.StreamReader
