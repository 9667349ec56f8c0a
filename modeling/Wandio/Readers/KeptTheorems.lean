import Wandio.HttpReader.FailureTheorems
import Wandio.HttpReader.KeptTheorems
import Wandio.StreamReader.KeptTheorems
import Wandio.StreamReader.MemberTheorems
import Wandio.ZstdLz4Reader.HeldTheorems
import Wandio.ZstdLz4Reader.KeptTheorems

/-!
# Output in front of an error

Where the zlib, the zstd/lz4 and the http reader return less than they have put into the
caller's buffer, or lose the error: each has exits that return an error at once, although the
siblings of these exits, in the zlib reader itself, return the bytes first, and each takes some
errors for an end of the file or for none.
-/

namespace Wandio.Readers

open Codec HttpReader StreamReader Transition ZstdLz4Reader

variable {δ ζ κ σ : Type*}

/-- The reads of a run that meets a condition keep what they have got, and of the reads that can
come next, of less than `bound` bytes, those that meet the condition do and no others. -/
def KeepsWhile (read : Read σ) (bound : ℕ → Prop) (p : σ → ℕ × ℕ → Bool) (s : σ) : Prop :=
  ∀ q, Reachable (readsWhile read p s) q →
    Kept q.2 ∧ reported q.2 = q.2.flatMap Outcome.placed ∧
      ∀ len fuel e t, bound len → read len q.1 fuel = some (e, t) →
        (Keeps read e t ↔ p q.1 (len, fuel) = true)

/-- It is enough to look at one read at a time. -/
theorem keepsWhile_of_read {read : Read σ} {bound : ℕ → Prop} {p : σ → ℕ × ℕ → Bool} {s : σ}
    {I : σ → Prop} (hinit : I s) (hbound : ∀ s a, p s a = true → bound a.1)
    (hread : ∀ s len fuel e t, I s → bound len → read len s fuel = some (e, t) →
      I t ∧ (Keeps read e t ↔ p s (len, fuel) = true)) :
    KeepsWhile read bound p s := by
  intro q hq
  obtain ⟨hI, hkept⟩ := kept_reachable (I := I) hinit
    (fun s len fuel e t hs hp he => by
      obtain ⟨ht, hkeeps⟩ := hread s len fuel e t hs (hbound s _ hp) he
      exact ⟨ht, hkeeps.mpr hp⟩) hq
  exact ⟨hkept, reported_eq hkept,
    fun len fuel e t hlen he => (hread q.1 len fuel e t hI hlen he).2⟩

/-- In every run: the zlib reader loses what it has got, or the error, only when its parent ends
inside a compressed stream behind some output, the zstd/lz4 reader and the http reader at each
error that they meet behind some output. -/
theorem output_before_error_kept (d : Decoder δ Byte) (parent : Source σ) (strm : δ) (c c' : σ)
    (build : Build) (zstd : Coder ζ Unit Byte) (lz4 : Coder κ Unit Byte) (stream : ζ) (dcCtxt : κ)
    (net : ℕ → Transfer) (object : List Byte) (hdrs : List (List Byte)) (fuel : ℕ)
    (s : HttpReader.State) (hopen : httpOpenHdrs net object hdrs fuel = some (some s)) :
    KeepsWhile (zlibOutcome d parent) (· < 2 ^ 32) (zlibKeeps d parent)
        (zlibOpen ⟨strm, []⟩ c) ∧
      KeepsWhile (zstdLz4Outcome build zstd lz4 parent) (· < 2 ^ 31)
        (zstdLz4Keeps build zstd lz4 parent) (zstdLz4Open stream dcCtxt c') ∧
      KeepsWhile (httpOutcome net object) (fun _ => True) (httpKeeps net object) s := by
  refine ⟨?_, ?_, ?_⟩
  · apply keepsWhile_of_read (I := fun _ => True) trivial
    · intro s a hp
      exact (of_decide_eq_true hp).1
    · intro s len fuel e t _ hlen he
      rw [zlibOutcome_keeps hlen he, zlibKeeps, decide_eq_true_iff]
      exact ⟨trivial, (and_iff_right hlen).symm⟩
  · apply keepsWhile_of_read (I := fun _ => True) trivial
    · intro s a hp
      exact (of_decide_eq_true hp).1
    · intro s len fuel e t _ hlen he
      rw [zstdLz4Outcome_keeps hlen he, zstdLz4Keeps, decide_eq_true_iff]
      exact ⟨trivial, (and_iff_right hlen).symm⟩
  · apply keepsWhile_of_read (I := Held) (held_httpOpenHdrs hopen) fun _ _ _ => trivial
    intro s len fuel e t hs _ he
    exact httpOutcome_keeps hs he

/-- A decoder that emits what it takes, a byte at a time, and never comes to the end of a stream.
A zero is an error to it. -/
def verbatim : Decoder Unit Byte where
  call _ _ input room :=
    if input.head? = some 0 then ⟨(), 0, [], -3⟩
    else ⟨(), min 1 input.length, (input.take 1).take room, 0⟩
  consumed_le _ _ input _ := by
    split
    · exact Nat.zero_le _
    · exact Nat.min_le_right _ _
  output_le _ _ _ _ := by
    split
    · exact Nat.zero_le _
    · exact List.length_take_le _ _
  reset _ := ()

/-- One byte comes, then nothing, and a new start is refused. -/
def refusing (i : ℕ) : Transfer :=
  if i = 0 then ⟨[1], true, true, none, 0, 0⟩ else ⟨[], true, true, none, 0, 5⟩

/-- One byte comes, then curl reports an error, and the transfer goes on. -/
def wavering (i : ℕ) : Transfer :=
  if i = 0 then ⟨[1], true, true, none, 0, 0⟩
  else ⟨[i - 1], true, true, if i = 1 then some 56 else none, 0, 0⟩

/-- The file is one zstd frame, and none behind the contents of it. -/
def trailing : List Byte := helloFrame ++ [0, 0, 0, 0]

/-- The results of a run, and the errors that its reads have met. -/
def results {σ : Type*} (q : σ × List Outcome) : List (ReadResult × List (List Byte)) :=
  q.2.map fun e => (e.result, e.errors)

/-- A run of reads that meet the condition, by its results and errors. -/
theorem KeepsWhile.exists_kept {read : Read σ} {bound : ℕ → Prop} {p : σ → ℕ × ℕ → Bool} {s : σ}
    (h : KeepsWhile read bound p s) (calls : List (ℕ × ℕ))
    (rs : List (ReadResult × List (List Byte)))
    (hrun : (exec (readsWhile read p s) (s, []) calls).any (fun q => results q = rs) = true) :
    ∃ q, Reachable (readsWhile read p s) q ∧ results q = rs ∧ Kept q.2 := by
  obtain ⟨q, hq, hresults⟩ := exists_reachable_of_exec (readsWhile read p s) calls _ hrun
  exact ⟨q, hq, of_decide_eq_true hresults, (h q hq).1⟩

/-- A run in which something is lost. -/
theorem exists_lost {read : Read σ} {s : σ} (calls : List (ℕ × ℕ))
    (hrun : (exec (reads read s) (s, []) calls).any (fun q => ¬ Kept q.2) = true) :
    ∃ q, Reachable (reads read s) q ∧ ¬ Kept q.2 := by
  obtain ⟨q, hq, hlost⟩ := exists_reachable_of_exec (reads read s) calls _ hrun
  exact ⟨q, hq, of_decide_eq_true hlost⟩

/-- Inflate fails behind some output, and the next read says so. In the other runs the caller's
buffer is full when the unknown frame comes and when the new start is refused. -/
theorem output_before_error_kept_full :
    (∃ q, Reachable (readsWhile (zlibOutcome verbatim chunked.toSource)
        (zlibKeeps verbatim chunked.toSource) (zlibOpen ⟨(), []⟩ ([7, 0], []))) q ∧
      results q = [(⟨1, [7]⟩, [[7]]), (⟨-1, []⟩, [])] ∧ Kept q.2) ∧
    (∃ q, Reachable (readsWhile
        (zstdLz4Outcome (bothLibs false) (oneFrame helloFrame hello) (oneFrame letterFrame [0x61])
          chunked.toSource)
        (zstdLz4Keeps (bothLibs false) (oneFrame helloFrame hello) (oneFrame letterFrame [0x61])
          chunked.toSource) (zstdLz4Open none none (trailing, []))) q ∧
      results q = [(⟨5, hello⟩, []), (⟨-1, []⟩, [[]])] ∧ Kept q.2) ∧
    ∃ q, Reachable (readsWhile (httpOutcome refusing [1, 2, 3]) (httpKeeps refusing [1, 2, 3])
        firstByte) q ∧ results q = [(⟨1, [1]⟩, []), (⟨-1, []⟩, [[]])] ∧ Kept q.2 := by
  obtain ⟨hzlib, hzstd, hhttp⟩ := output_before_error_kept verbatim chunked.toSource ()
    ([7, 0], []) (trailing, []) (bothLibs false) (oneFrame helloFrame hello)
    (oneFrame letterFrame [0x61]) none none refusing [1, 2, 3] [] 1 firstByte rfl
  refine ⟨?_, ?_, ?_⟩
  · exact hzlib.exists_kept [(2, 5), (2, 5)] _ (by decide)
  · exact hzstd.exists_kept [(5, 9), (5, 9)] _ (by decide +kernel)
  · exact hhttp.exists_kept [(1, 5), (1, 5)] _ (by decide)

/-- The output is lost when the parent ends, when the unknown frame comes and when the new start
is refused, since each read asks for one more byte. The error is lost when a member ends in one
chunk with a part of the next, and when curl reports it and goes on. -/
theorem output_before_error_lost :
    (∃ q, Reachable (reads (zlibOutcome verbatim chunked.toSource)
        (zlibOpen ⟨(), []⟩ ([7], []))) q ∧ ¬ Kept q.2) ∧
    (∃ q, Reachable (reads (zlibOutcome (oneMember gzMember [0x61] 0 1) chunked.toSource)
        (zlibOpen ⟨(gzMember, [0x61]), []⟩ (gzMember ++ gzMember.take 5, []))) q ∧ ¬ Kept q.2) ∧
    (∃ q, Reachable (reads
        (zstdLz4Outcome (bothLibs false) (oneFrame helloFrame hello) (oneFrame letterFrame [0x61])
          chunked.toSource) (zstdLz4Open none none (trailing, []))) q ∧ ¬ Kept q.2) ∧
    (∃ q, Reachable (reads (httpOutcome refusing [1, 2, 3]) firstByte) q ∧ ¬ Kept q.2) ∧
    ∃ q, Reachable (reads (httpOutcome wavering [1, 2, 3]) firstByte) q ∧ ¬ Kept q.2 := by
  refine ⟨?_, ?_, ?_, ?_, ?_⟩
  · exact exists_lost [(2, 5)] (by decide)
  · exact exists_lost [(10, 9), (10, 9)] (by decide)
  · exact exists_lost [(6, 9)] (by decide +kernel)
  · exact exists_lost [(2, 5)] (by decide)
  · exact exists_lost [(2, 5)] (by decide)

end Wandio.Readers
