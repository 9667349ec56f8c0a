import Wandio.Create.DetectionModel
import Wandio.PeekReader.TransparencyTheorems

/-!
# The choice of a decoder and the chunks of the base reader

The peek of `create_io_reader` makes a single read of the base reader, so the bytes that are
compared with the magic numbers are those of its first chunk. `detect_take` says what is found
in the first `n` bytes of a stream.
-/

namespace Wandio.Create

open Loop PeekReader

/-! ## Magic numbers -/

section Magic

variable {m m' : Magic} {buffer S : List Byte} {n : ℕ}

/-- The magic numbers exclude each other. -/
theorem begins_unique (h : m.begins buffer = true) (h' : m'.begins buffer = true) : m = m' := by
  unfold Magic.begins at h h'
  generalize buffer.getD 0 0 = b0 at h h'
  generalize buffer.getD 1 0 = b1 at h h'
  cases m <;> cases m' <;> simp only [decide_eq_true_eq] at h h' <;>
    first
    | rfl
    | (obtain ⟨rfl, rfl, -⟩ := h; simp at h')
    | (obtain ⟨rfl, rfl, -⟩ := h'; simp at h)

theorem getD_take {i : ℕ} (hi : i < n) : (S.take n).getD i 0 = S.getD i 0 := by
  rw [List.getD_eq_getElem?_getD, List.getD_eq_getElem?_getD, List.getElem?_take, if_pos hi]

/-- As many bytes as the test asks for are all it looks at. -/
theorem begins_take (h : m.size ≤ n) : m.begins (S.take n) = m.begins S := by
  unfold Magic.begins
  cases m <;> simp only [Magic.size] at h <;> simp (disch := omega) only [getD_take]

theorem found_take (hn : n ≤ S.length) :
    m.found n (S.take n) = true ↔ m.found S.length S = true ∧ m.size ≤ n := by
  unfold Magic.found
  rw [decide_eq_true_iff, decide_eq_true_iff]
  constructor
  · rintro ⟨hsize, hbegins⟩
    have hle : m.size ≤ n := by omega
    rw [begins_take hle] at hbegins
    exact ⟨⟨by omega, hbegins⟩, hle⟩
  · rintro ⟨⟨_, hbegins⟩, hle⟩
    rw [begins_take hle]
    exact ⟨by omega, hbegins⟩

/-- The magic number that a stream begins with. -/
def magicOf (S : List Byte) : Option Magic := Magic.all.find? (Magic.found S.length S)

theorem mem_all (m : Magic) : m ∈ Magic.all := by
  cases m <;> decide

theorem found_unique {len len' : ℤ} (h : m.found len buffer = true)
    (h' : m'.found len' buffer = true) : m = m' := by
  unfold Magic.found at h h'
  rw [decide_eq_true_iff] at h h'
  exact begins_unique h.2 h'.2

theorem magicOf_eq_some : magicOf S = some m ↔ m.found S.length S = true := by
  constructor
  · exact List.find?_some
  · intro h
    cases hfind : magicOf S with
    | none => exact absurd h (List.find?_eq_none.mp hfind m (mem_all m))
    | some m' => rw [found_unique (List.find?_some hfind) h]

/-- Where no magic number is found. -/
theorem detect_eq_none {build : Build} {qatOpens : Bool} {len : ℤ}
    (h : ∀ m : Magic, m.found len buffer = false) :
    detect build qatOpens len buffer = some none := by
  unfold detect
  simp only [Magic.all, List.foldlM_cons, List.foldlM_nil, detectStep, h]
  rfl

/-- Where one is found. -/
theorem detect_eq_some {build : Build} {qatOpens : Bool} {len : ℤ}
    (h : m.found len buffer = true) :
    detect build qatOpens len buffer = (build.decoder qatOpens m).map some := by
  -- the tests exclude one another, so their order does not matter
  have hfound : ∀ m', m'.found len buffer = decide (m' = m) := by
    intro m'
    by_cases heq : m' = m
    · rw [heq, h, decide_eq_true rfl]
    · rw [decide_eq_false heq]
      exact Bool.eq_false_of_not_eq_true fun h' => heq (found_unique h' h)
  unfold detect
  simp only [Magic.all, List.foldlM_cons, List.foldlM_nil, detectStep, hfound]
  cases m <;> simp

/-- What is found in the first `n` bytes of a stream. -/
theorem detect_take (build : Build) (qatOpens : Bool) (hn : n ≤ S.length) :
    detect build qatOpens n (S.take n) =
      match magicOf S with
      | none => some none
      | some m => if m.size ≤ n then (build.decoder qatOpens m).map some else some none := by
  -- a magic number that is not there in full is not found
  have hnone : (∀ m, magicOf S = some m → ¬ m.size ≤ n) →
      detect build qatOpens n (S.take n) = some none := by
    intro h
    apply detect_eq_none
    intro m
    apply Bool.eq_false_of_not_eq_true
    intro hfound
    obtain ⟨hm, hsize⟩ := (found_take hn).mp hfound
    exact h m (magicOf_eq_some.mpr hm) hsize
  cases hmagic : magicOf S with
  | none => exact hnone fun m hm => by rw [hmagic] at hm; contradiction
  | some m =>
    simp only
    split
    · next hsize => exact detect_eq_some ((found_take hn).mpr ⟨magicOf_eq_some.mp hmagic, hsize⟩)
    · next hsize =>
      apply hnone
      intro m' hm'
      rw [hmagic, Option.some_inj] at hm'
      exact hm' ▸ hsize
end Magic

/-! ## The first chunk -/

section Detection

variable {σ τ : Type*} {build : Build} {qatOpens : Bool} {useThreads : ℕ}

/-- The number of bytes that the base reader returns when it is first asked. -/
def firstChunk (base : Source σ) (c : σ) : ℤ := (base.read c wandioBufferSize).1.ret

theorem size_le (m : Magic) : m.size ≤ 6 := by
  cases m <;> decide

/-- What is found in the first chunk. -/
theorem selected_eq (base : ByteSource σ) (c : σ) :
    selected (createIoReader build qatOpens useThreads true base.toSource c) =
      some (match magicOf (base.content c) with
        | none => some none
        | some m =>
          if m.size ≤ firstChunk base.toSource c then (build.decoder qatOpens m).map some
          else some none) := by
  obtain ⟨data, t, hpeek, _, hpre, hlen⟩ := peekPeek_spec (inv_peekOpen base c) 1024
  rw [List.nil_append] at hpre
  have hsupplied : supplied base.toSource 1024 (peekOpen c) = firstChunk base.toSource c := rfl
  have hlen' : (data.length : ℤ) = min 1024 (firstChunk base.toSource c) := by
    rw [← hsupplied]
    simpa [peekOpen] using hlen
  have hdata : data = (base.content c).take data.length := List.prefix_iff_eq_take.mp hpre
  have hdetect : detect build qatOpens (cInt data.length) data =
      detect build qatOpens data.length ((base.content c).take data.length) := by
    rw [cInt_of_lt (by omega), ← hdata]
  have hdecoder : ∀ io : Option (Option Decoder),
      (io.map fun io => (⟨io, t, useThreads ≠ 0⟩ : Pipeline σ)).map Pipeline.decoder = io := by
    intro io
    cases io <;> rfl
  unfold createIoReader
  rw [show peekPeek base.toSource 1024 (peekOpen c) = _ from hpeek]
  show some ((Option.map _ (detect build qatOpens (cInt data.length) data)).map _) = _
  rw [hdecoder, hdetect, detect_take build qatOpens hpre.length_le, Option.some_inj]
  cases magicOf (base.content c) with
  | none => rfl
  | some m =>
    -- the peek asks for more bytes than any of the tests
    have hsize := size_le m
    have hiff : m.size ≤ data.length ↔ (m.size : ℤ) ≤ firstChunk base.toSource c := by omega
    simp only [hiff]

/-- No branch leaves the data as they are. -/
theorem decoder_ne (m : Magic) : (build.decoder qatOpens m).map some ≠ some none := by
  cases build.decoder qatOpens m <;> simp

end Detection

/-! ## Two base readers -/

/-- With autodetection two base readers over the same bytes get the same decoder if and only if
these begin with no magic number, or the first chunks of both hold as many bytes as the test for
it asks for, or neither. And after any calls a peek returns all there is, up to `len` bytes, if
and only if one read of the child brings what the buffer lacks, or all that is left. -/
theorem detection_independent_iff {σ τ : Type*} (build : Build) (qatOpens : Bool)
    (useThreads : ℕ) (base : ByteSource σ) (c : σ) (base' : ByteSource τ) (c' : τ)
    (hsame : base'.content c' = base.content c) :
    (selected (createIoReader build qatOpens useThreads true base.toSource c) =
        selected (createIoReader build qatOpens useThreads true base'.toSource c') ↔
      ∀ m, magicOf (base.content c) = some m →
        (m.size ≤ firstChunk base.toSource c ↔ m.size ≤ firstChunk base'.toSource c')) ∧
    ∀ calls, ∃ log s, runCalls (call base.toSource) calls (peekOpen c) = some (log, s) ∧
      ∀ len : ℕ, ∃ r t, peekPeek base.toSource len s = some (r, t) ∧
        (r.ret = min (len : ℤ) ((base.content c).length - (PeekReader.delivered log).length : ℕ) ↔
          min ((len : ℤ) - (s.length - s.offset)) (base.content s.child).length ≤
            supplied base.toSource len s) := by
  constructor
  · rw [selected_eq, selected_eq, hsame, Option.some_inj]
    cases hmagic : magicOf (base.content c) with
    | none => simp
    | some m =>
      -- one reader has found it, and the other the same if its chunk is as long
      have hne : (build.decoder qatOpens m).map some ≠ some none := decoder_ne m
      simp only [Option.some_inj, forall_eq']
      by_cases hfirst : (m.size : ℤ) ≤ firstChunk base.toSource c
      · rw [if_pos hfirst, iff_true_left hfirst]
        exact eq_comm.trans hne.ite_eq_left_iff
      · rw [if_neg hfirst, iff_false_left hfirst]
        exact eq_comm.trans hne.ite_eq_right_iff
  · intro calls
    obtain ⟨log, s, hrun, hinv, _⟩ := run_spec base c calls
    exact ⟨log, s, hrun, fun len => peekPeek_full_iff hinv len⟩

/-- The three bytes that every gzip file begins with. -/
def gzipHeader : List Byte := [0x1f, 0x8b, 0x08]

/-- A build with all libraries but QAT. -/
def fullBuild : Build := ⟨false, true, true, true, true, true⟩

/-- A pipe that has the header ready in one piece is read like a file. -/
theorem detection_independent_iff_header :
    selected (createIoReader fullBuild false 1 true chunked.toSource (gzipHeader, [])) =
      selected (createIoReader fullBuild false 1 true chunked.toSource (gzipHeader, [3])) := by
  obtain ⟨hselected, _⟩ := detection_independent_iff fullBuild false 1 chunked (gzipHeader, [])
    chunked (gzipHeader, [3]) rfl
  apply hselected.mpr
  intro m _
  have hfirst : firstChunk chunked.toSource (gzipHeader, []) =
      firstChunk chunked.toSource (gzipHeader, [3]) := by decide
  rw [hfirst]

/-- A file gets the gzip decoder, a pipe that has one byte ready gets none; the peek of three
bytes returns one. -/
theorem detection_depends_on_chunks :
    selected (createIoReader fullBuild false 1 true chunked.toSource (gzipHeader, [])) =
      some (some (some .zlib)) ∧
    selected (createIoReader fullBuild false 1 true chunked.toSource (gzipHeader, [1])) =
      some (some none) ∧
    (peekPeek chunked.toSource 3 (peekOpen (gzipHeader, [1]))).map Prod.fst =
      some ⟨1, [0x1f]⟩ := by
  decide

end Wandio.Create
