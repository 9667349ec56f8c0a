import Wandio.Readers.OutcomeModel
import Wandio.ZstdLz4Reader.Model

/-!
# Output in front of an error of the zstd/lz4 reader

Every error exit of `zstd_lz4_read` returns the error at once, whatever has been put into the
caller's buffer; and an end of the file inside a frame is returned as an end.
-/

namespace Wandio.ZstdLz4Reader

open Codec Loop Readers Transition

variable {ζ κ σ : Type*}

section Model

variable (build : Build) (zstd : Coder ζ Unit Byte) (lz4 : Coder κ Unit Byte) (parent : Source σ)

/-- The answer of the decoder in a turn of the loop that decodes, if it comes to be called. -/
def answer (len : ℕ) (l : Locals ζ κ σ) : Option (Answer (State ζ κ σ) Byte) :=
  if l.point = .decode ∧ ¬ (l.io.dec = .undefined ∧ len < 4) ∧
      identify build l.io ≠ .undefined then
    some (decompress build zstd lz4 len l.outbufIndex { l.io with dec := identify build l.io })
  else none

/-- What the decoder puts into the caller's buffer in a turn. -/
def emitted (len : ℕ) (l : Locals ζ κ σ) : List Byte :=
  match answer build zstd lz4 len l with
  | some a => if a.code < 0 then [] else a.output
  | none => []

/-- A turn meets an error: the parent fails or ends inside a frame, what comes is no frame, or
the decoder fails. -/
def meetsError (len : ℕ) (l : Locals ζ κ σ) : Bool :=
  match l.point with
  | .top => false
  | .fill =>
    let bytesRead := cInt (parent.read l.io.parent (inbufSize - l.io.inbufLen)).1.ret
    bytesRead < 0 ∨
      (bytesRead = 0 ∧ l.io.inbufLen = l.io.inbufIndex ∧ l.io.dec ≠ .undefined)
  | .decode => (answer build zstd lz4 len l).all fun a => a.code < 0

/-- The error that a turn meets, by what has been put into the caller's buffer then. -/
def errorAt (len : ℕ) (l : Locals ζ κ σ) : Option (List Byte) :=
  if meetsError build zstd lz4 parent len l then some l.buffer else none

/-- The turns of a `zstd_lz4_read`; there is none behind an error or the end of the file. -/
def zstdLz4Turns (s : State ζ κ σ) (a : ℕ × ℕ) : List (Locals ζ κ σ) :=
  if s.err = .ok then turns (readTurn build zstd lz4 parent a.1) a.2 (.start s) else []

/-- `zstd_lz4_read`, with what the decoders have put into the caller's buffer. -/
def zstdLz4Outcome (len : ℕ) (s : State ζ κ σ) (fuel : ℕ) : Option (Outcome × State ζ κ σ) :=
  (zstdLz4Read build zstd lz4 parent len s fuel).map fun q =>
    let seen := zstdLz4Turns build zstd lz4 parent s (len, fuel)
    (⟨q.1, seen.flatMap (emitted build zstd lz4 len),
      seen.filterMap (errorAt build zstd lz4 parent len)⟩, q.2)

/-- No error is met once something has been put into the caller's buffer. -/
def errorsFirst (s : State ζ κ σ) (a : ℕ × ℕ) : Bool :=
  ∀ l ∈ zstdLz4Turns build zstd lz4 parent s a,
    ¬ (meetsError build zstd lz4 parent a.1 l ∧ 0 < l.outbufIndex)

/-- `outbuf_index` has room for the length of the read. -/
def zstdLz4Keeps (s : State ζ κ σ) (a : ℕ × ℕ) : Bool :=
  a.1 < 2 ^ 31 ∧ errorsFirst build zstd lz4 parent s a

end Model

section Read

variable {build : Build} {zstd : Coder ζ Unit Byte} {lz4 : Coder κ Unit Byte} {parent : Source σ}
  {len : ℕ} {s t : State ζ κ σ} {l m : Locals ζ κ σ} {r : ReadResult}

/-- `outbuf_index` is where the output ends in the caller's buffer. -/
structure Filling (len : ℕ) (output : List Byte) (l : Locals ζ κ σ) : Prop where
  buffer_eq : l.buffer = output
  index_eq : l.outbufIndex = output.length
  le : output.length ≤ len
  ok : l.io.err = .ok

theorem decompress_output_le (s : State ζ κ σ) {index : ℤ} (hnonneg : 0 ≤ index) :
    (decompress build zstd lz4 len index s).output.length ≤ len - index.toNat := by
  unfold decompress
  rw [if_neg (not_lt.mpr hnonneg)]
  split
  · exact zstd.output_le ..
  · split
    · exact lz4.output_le ..
    · exact Nat.zero_le _

/-- What a turn adds to the output is put behind it. -/
theorem Filling.append {output new : List Byte} (h : Filling len output l) (hlen : len < 2 ^ 31)
    (hnew : new.length ≤ len - l.outbufIndex.toNat) :
    cInt (l.outbufIndex + new.length) = ((output ++ new).length : ℤ) ∧
      memcpyAt l.buffer l.outbufIndex.toNat new = output ++ new ∧
      (output ++ new).length ≤ len := by
  have hindex := h.index_eq
  have hle := h.le
  refine ⟨?_, ?_, ?_⟩
  · rw [List.length_append, hindex, ← Nat.cast_add]
    exact cInt_of_lt (by omega)
  · rw [memcpyAt, h.buffer_eq, hindex, Int.toNat_natCast, List.take_length,
      List.drop_eq_nil_of_le (by omega), List.append_nil]
  · rw [List.length_append]
    omega

/-! ## The turns -/

theorem emitted_of_ne (hpoint : l.point ≠ .decode) : emitted build zstd lz4 len l = [] := by
  simp [emitted, answer, hpoint]

theorem emitted_of_none (hanswer : answer build zstd lz4 len l = none) :
    emitted build zstd lz4 len l = [] := by
  rw [emitted, hanswer]

/-- Without a frame the decoder is not called. -/
theorem decodeTurn_none (hpoint : l.point = .decode)
    (hanswer : answer build zstd lz4 len l = none) :
    decodeTurn build zstd lz4 len l = .done (⟨-1, []⟩, l.io) := by
  unfold answer at hanswer
  unfold decodeTurn
  split
  · rfl
  · next hlong =>
    split
    · rfl
    · next hknown =>
      rw [if_pos ⟨hpoint, hlong, hknown⟩] at hanswer
      contradiction

/-- The decoder is called. -/
theorem decodeTurn_some {a : Answer (State ζ κ σ) Byte}
    (hanswer : answer build zstd lz4 len l = some a) :
    a = decompress build zstd lz4 len l.outbufIndex { l.io with dec := identify build l.io } ∧
      decodeTurn build zstd lz4 len l =
        decodeFrame build zstd lz4 len l { l.io with dec := identify build l.io } := by
  unfold answer at hanswer
  split at hanswer
  · next hcalled =>
    refine ⟨(Option.some.inj hanswer).symm, ?_⟩
    rw [decodeTurn, if_neg hcalled.2.1, if_neg hcalled.2.2]
  · contradiction

theorem decompress_err (s : State ζ κ σ) (index : ℤ) :
    (decompress build zstd lz4 len index s).state.err = s.err := by
  unfold decompress
  split
  · rfl
  · split
    · rfl
    · split <;> rfl

/-- What the decoder has answered is put behind the output. -/
theorem Filling.decoded {output : List Byte} {a : Answer (State ζ κ σ) Byte}
    (h : Filling len output l) (hlen : len < 2 ^ 31)
    (ha : a = decompress build zstd lz4 len l.outbufIndex
      { l.io with dec := identify build l.io }) :
    a.state.err = .ok ∧ cInt (l.outbufIndex + a.output.length) = ((output ++ a.output).length : ℤ) ∧
      memcpyAt l.buffer l.outbufIndex.toNat a.output = output ++ a.output ∧
      (output ++ a.output).length ≤ len := by
  have herr : a.state.err = .ok := by
    rw [ha, decompress_err]
    exact h.ok
  have hnew : a.output.length ≤ len - l.outbufIndex.toNat := by
    rw [ha]
    exact decompress_output_le _ (by rw [h.index_eq]; exact Int.natCast_nonneg _)
  exact ⟨herr, h.append hlen hnew⟩

/-- A turn behind which the read goes on has met no error. -/
theorem Filling.next {output : List Byte} (h : Filling len output l) (hlen : len < 2 ^ 31)
    (hnext : readTurn build zstd lz4 parent len l = .next m) :
    Filling len (output ++ emitted build zstd lz4 len l) m ∧
      meetsError build zstd lz4 parent len l = false := by
  unfold readTurn at hnext
  unfold meetsError
  cases hpoint : l.point with
  | top =>
    rw [hpoint] at hnext
    rw [emitted_of_ne (by rw [hpoint]; decide), List.append_nil, ← Turn.next.inj hnext]
    refine ⟨?_, rfl⟩
    unfold topTurn
    simp only
    split
    · split
      · exact ⟨h.buffer_eq, h.index_eq, h.le, h.ok⟩
      · split <;> exact ⟨h.buffer_eq, h.index_eq, h.le, h.ok⟩
    · exact ⟨h.buffer_eq, h.index_eq, h.le, h.ok⟩
  | fill =>
    rw [hpoint] at hnext
    rw [emitted_of_ne (by rw [hpoint]; decide), List.append_nil]
    unfold fillTurn at hnext
    simp only at hnext
    split at hnext
    · contradiction
    · next hret =>
      split at hnext
      · contradiction
      · next hmore =>
        rw [← Turn.next.inj hnext]
        refine ⟨⟨h.buffer_eq, h.index_eq, h.le, h.ok⟩, ?_⟩
        simp only [decide_eq_false_iff_not]
        rintro (hneg | ⟨hzero, hend, -⟩)
        · exact hret hneg
        · exact hmore ⟨hzero, hend⟩
  | decode =>
    rw [hpoint] at hnext
    cases hanswer : answer build zstd lz4 len l with
    | none =>
      simp only [decodeTurn_none hpoint hanswer] at hnext
      contradiction
    | some a =>
      obtain ⟨ha, hturn⟩ := decodeTurn_some hanswer
      simp only [hturn, decodeFrame, ← ha] at hnext
      obtain ⟨herr, hindex, hbuffer, hle⟩ := h.decoded hlen ha
      rw [emitted, hanswer]
      split at hnext
      · contradiction
      · next hcode =>
        split at hnext
        · contradiction
        · split at hnext
          · contradiction
          · rw [← Turn.next.inj hnext]
            simp only [hcode, if_false, Option.all_some]
            exact ⟨⟨hbuffer, hindex, hle, herr⟩, rfl⟩

/-- Behind an end of the file a read returns 0, so that an error met in front of it is lost. -/
theorem not_keeps_eof {e : Outcome} (herr : t.err = .eof) (hmet : e.Interrupted) :
    ¬ Keeps (zstdLz4Outcome build zstd lz4 parent) e t := by
  have hnext : ∃ e' t', zstdLz4Outcome build zstd lz4 parent 0 t 0 = some (e', t') ∧
      0 ≤ e'.result.ret := by
    simp [zstdLz4Outcome, zstdLz4Read, herr]
  obtain ⟨e', t', hnext, hret⟩ := hnext
  exact not_keeps_of_next hmet hnext hret

/-- An exit that returns -1, and its error. -/
theorem keeps_error {output : List Byte} (h : Filling len output l) (data : List Byte)
    (t : State ζ κ σ) :
    Keeps (zstdLz4Outcome build zstd lz4 parent) ⟨⟨-1, data⟩, output, [output]⟩ t ↔
      ¬ 0 < l.outbufIndex := by
  have hindex := h.index_eq
  by_cases hout : output = []
  · refine iff_of_true (keeps_of_reports _ (Outcome.reports_of_nil hout ?_) ?_) ?_
    · show (-1 : ℤ) ≤ 0
      decide
    · rintro ⟨p, hp, hne⟩
      rw [List.mem_singleton.mp hp] at hne
      exact hne hout
    · rw [hindex, hout]
      exact lt_irrefl 0
  · have hpos := List.length_pos_iff.mpr hout
    refine iff_of_false (fun hkeeps => ?_) (by omega)
    exact Outcome.not_reports hout (show (-1 : ℤ) ≤ 0 by decide) hkeeps.1

/-- An exit without an error. -/
theorem keeps_output {output data : List Byte} {ret : ℤ} (hret : ret = output.length)
    (hdata : data = output) (t : State ζ κ σ) :
    Keeps (zstdLz4Outcome build zstd lz4 parent) ⟨⟨ret, data⟩, output, []⟩ t :=
  keeps_of_reports t (Outcome.reports_of_eq hret hdata) (by simp [Outcome.Interrupted])

/-- The error of a turn is met with what is in the caller's buffer. -/
theorem Filling.errorAt_of_meets {output : List Byte} (h : Filling len output l)
    (hmeets : meetsError build zstd lz4 parent len l = true) :
    (errorAt build zstd lz4 parent len l).toList = [output] := by
  rw [errorAt, if_pos hmeets, Option.toList_some, h.buffer_eq]

theorem errorAt_of_not_meets (hmeets : meetsError build zstd lz4 parent len l = false) :
    (errorAt build zstd lz4 parent len l).toList = [] := by
  rw [errorAt, hmeets]
  rfl

/-- A fill that ends the read. -/
theorem Filling.fill_done {output : List Byte} (h : Filling len output l)
    (hpoint : l.point = .fill) (hdone : fillTurn parent l = .done (r, t)) :
    Keeps (zstdLz4Outcome build zstd lz4 parent)
        ⟨r, output, (errorAt build zstd lz4 parent len l).toList⟩ t ↔
      ¬ (meetsError build zstd lz4 parent len l = true ∧ 0 < l.outbufIndex) := by
  unfold fillTurn at hdone
  simp only at hdone
  split at hdone
  · next hneg =>
    -- the parent fails
    cases hdone
    have herror : meetsError build zstd lz4 parent len l = true := by
      simp [meetsError, hpoint, hneg]
    rw [h.errorAt_of_meets herror, herror, keeps_error h]
    simp
  · next hnonneg =>
    split at hdone
    · next hend =>
      -- the parent ends, and nobody is told if it ends inside a frame
      cases hdone
      have hdata : l.buffer.take l.outbufIndex.toNat = output := by
        rw [h.buffer_eq, h.index_eq, Int.toNat_natCast, List.take_length]
      have hindex := h.index_eq
      by_cases hframe : l.io.dec = .undefined
      · have herror : meetsError build zstd lz4 parent len l = false := by
          simp [meetsError, hpoint, hend.1, hframe]
        rw [errorAt_of_not_meets herror, herror]
        exact iff_of_true (keeps_output hindex hdata _) (by simp)
      · have herror : meetsError build zstd lz4 parent len l = true := by
          unfold meetsError
          rw [hpoint]
          simp only [decide_eq_true_iff]
          exact .inr ⟨hend.1, hend.2, hframe⟩
        rw [h.errorAt_of_meets herror, herror]
        by_cases hout : output = []
        · refine iff_of_true (keeps_of_reports _ (Outcome.reports_of_nil hout ?_) ?_) ?_
          · show l.outbufIndex ≤ 0
            rw [hindex, hout]
            exact le_rfl
          · rintro ⟨p, hp, hne⟩
            rw [List.mem_singleton.mp hp] at hne
            exact hne hout
          · rw [hindex, hout]
            simp
        · have hpos := List.length_pos_iff.mpr hout
          refine iff_of_false (not_keeps_eof rfl ⟨output, ?_, hout⟩) fun hno => hno ⟨rfl, by omega⟩
          exact List.mem_singleton_self _
    · contradiction

/-- A call of the decoder that ends the read. -/
theorem Filling.decode_done {output : List Byte} (h : Filling len output l) (hlen : len < 2 ^ 31)
    (hpoint : l.point = .decode) (hdone : decodeTurn build zstd lz4 len l = .done (r, t)) :
    Keeps (zstdLz4Outcome build zstd lz4 parent)
        ⟨r, output ++ emitted build zstd lz4 len l,
          (errorAt build zstd lz4 parent len l).toList⟩ t ↔
      ¬ (meetsError build zstd lz4 parent len l = true ∧ 0 < l.outbufIndex) := by
  cases hanswer : answer build zstd lz4 len l with
  | none =>
    simp only [decodeTurn_none hpoint hanswer] at hdone
    cases hdone
    have herror : meetsError build zstd lz4 parent len l = true := by
      simp [meetsError, hpoint, hanswer]
    rw [h.errorAt_of_meets herror, herror, emitted_of_none hanswer, List.append_nil, keeps_error h]
    simp
  | some a =>
    obtain ⟨ha, hturn⟩ := decodeTurn_some hanswer
    simp only [hturn, decodeFrame, ← ha] at hdone
    obtain ⟨herr, hindex, hbuffer, hle⟩ := h.decoded hlen ha
    rw [emitted, hanswer]
    split at hdone
    · next hcode =>
      -- the decoder fails
      cases hdone
      have herror : meetsError build zstd lz4 parent len l = true := by
        simp [meetsError, hpoint, hanswer, hcode]
      rw [h.errorAt_of_meets herror, herror]
      simp only [hcode, if_true, List.append_nil]
      rw [keeps_error h]
      simp
    · next hcode =>
      have herror : meetsError build zstd lz4 parent len l = false := by
        simp [meetsError, hpoint, hanswer, hcode]
      rw [errorAt_of_not_meets herror, herror]
      simp only [hcode, if_false]
      refine iff_of_true ?_ (by simp)
      split at hdone
      · next hstuck =>
        -- no progress, so there is no output either
        cases hdone
        have hnil : output ++ a.output = [] := by
          apply List.eq_nil_of_length_eq_zero
          rw [hindex] at hstuck
          exact Int.natCast_eq_zero.mp hstuck.2
        apply keeps_of_reports
        · exact Outcome.reports_of_nil hnil (show (-1 : ℤ) ≤ 0 by decide)
        · simp [Outcome.Interrupted]
      · split at hdone
        · next hfull =>
          cases hdone
          refine keeps_output hindex ?_ _
          show (memcpyAt l.buffer l.outbufIndex.toNat a.output).take _ = output ++ a.output
          rw [hbuffer, hindex, Int.toNat_natCast, List.take_length]
        · contradiction

/-- The turn that ends the read. -/
theorem Filling.done {output : List Byte} (h : Filling len output l) (hlen : len < 2 ^ 31)
    (hdone : readTurn build zstd lz4 parent len l = .done (r, t)) :
    Keeps (zstdLz4Outcome build zstd lz4 parent)
        ⟨r, output ++ emitted build zstd lz4 len l,
          (errorAt build zstd lz4 parent len l).toList⟩ t ↔
      ¬ (meetsError build zstd lz4 parent len l = true ∧ 0 < l.outbufIndex) := by
  unfold readTurn at hdone
  cases hpoint : l.point with
  | top =>
    rw [hpoint] at hdone
    contradiction
  | fill =>
    rw [hpoint] at hdone
    rw [emitted_of_ne (by rw [hpoint]; decide), List.append_nil]
    exact h.fill_done hpoint hdone
  | decode =>
    rw [hpoint] at hdone
    exact h.decode_done hlen hpoint hdone

/-- Nothing is lost behind an error or the end of the file. -/
theorem keeps_of_err (herr : s.err ≠ .ok) (hret : r.ret ≤ 0) {fuel : ℕ} :
    Keeps (zstdLz4Outcome build zstd lz4 parent)
        ⟨r, (zstdLz4Turns build zstd lz4 parent s (len, fuel)).flatMap (emitted build zstd lz4 len),
          (zstdLz4Turns build zstd lz4 parent s (len, fuel)).filterMap
            (errorAt build zstd lz4 parent len)⟩ t ↔
      errorsFirst build zstd lz4 parent s (len, fuel) = true := by
  rw [errorsFirst, zstdLz4Turns, if_neg herr]
  refine iff_of_true (keeps_of_reports t (Outcome.reports_of_nil rfl hret) ?_) (by simp)
  simp [Outcome.Interrupted]

/-- A read of less than 2³¹ bytes keeps what it has got if and only if no error is met behind
some output. -/
theorem zstdLz4Outcome_keeps (hlen : len < 2 ^ 31) {fuel : ℕ} {e : Outcome}
    (hr : zstdLz4Outcome build zstd lz4 parent len s fuel = some (e, t)) :
    Keeps (zstdLz4Outcome build zstd lz4 parent) e t ↔
      errorsFirst build zstd lz4 parent s (len, fuel) = true := by
  obtain ⟨⟨r, u⟩, hread, heq⟩ := Option.map_eq_some_iff.mp hr
  obtain ⟨rfl, rfl⟩ := Prod.mk.inj heq
  unfold zstdLz4Read at hread
  cases herr : s.err with
  | eof =>
    simp only [herr, Option.some_inj, Prod.mk.injEq] at hread
    obtain ⟨rfl, rfl⟩ := hread
    exact keeps_of_err (by rw [herr]; decide) le_rfl
  | error =>
    simp only [herr, Option.some_inj, Prod.mk.injEq] at hread
    obtain ⟨rfl, rfl⟩ := hread
    exact keeps_of_err (by rw [herr]; decide) (show (-1 : ℤ) ≤ 0 by decide)
  | ok =>
    simp only [herr] at hread
    rw [errorsFirst, zstdLz4Turns, if_pos herr]
    -- no turn but the last one meets an error
    have hrule := loop_turns
      (I := fun seen l => Filling len (seen.flatMap (emitted build zstd lz4 len)) l ∧
        ∀ x ∈ seen, meetsError build zstd lz4 parent len x = false)
      (Q := fun seen q => Keeps (zstdLz4Outcome build zstd lz4 parent)
        ⟨q.1, seen.flatMap (emitted build zstd lz4 len),
          seen.filterMap (errorAt build zstd lz4 parent len)⟩ q.2 ↔
          ∀ x ∈ seen, ¬ (meetsError build zstd lz4 parent len x = true ∧ 0 < x.outbufIndex))
      ?_ ?_ [] ⟨⟨rfl, rfl, Nat.zero_le _, herr⟩, by simp⟩ hread
    · rw [List.nil_append] at hrule
      simpa using hrule
    · rintro seen l m ⟨hl, hseen⟩ hm
      obtain ⟨hfilling, hclean⟩ := hl.next hlen hm
      refine ⟨?_, fun x hx => ?_⟩
      · rw [List.flatMap_append, List.flatMap_singleton]
        exact hfilling
      · rcases List.mem_append.mp hx with hold | hnew
        · exact hseen x hold
        · rw [List.mem_singleton.mp hnew]
          exact hclean
    · rintro seen l ⟨q, u⟩ ⟨hl, hseen⟩ hq
      have hnone : seen.filterMap (errorAt build zstd lz4 parent len) = [] := by
        apply List.filterMap_eq_nil_iff.mpr
        intro x hx
        rw [errorAt, hseen x hx]
        rfl
      rw [List.forall_mem_append, List.forall_mem_singleton, and_iff_right fun x hx => ?_]
      · rw [List.flatMap_append, List.flatMap_singleton, filterMap_concat, hnone, List.nil_append]
        exact hl.done hlen hq
      · rw [hseen x hx]
        simp

end Read

end Wandio.ZstdLz4Reader
