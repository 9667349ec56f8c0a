import Wandio.HttpReader.Model
import Wandio.PeekReader.Model
import Wandio.Utils.Transition

/-!
# Seeking on the peeking reader

`peek_tell` and `peek_seek` pass the call on to the child.
-/

namespace Wandio.PeekReader

open HttpReader (Whence)
open Transition

variable {σ : Type*}

/-- A reader that can also be asked for its offset and moved. -/
structure SeekSource (σ : Type*) extends Source σ where
  tell : σ → ℤ
  seek : σ → ℤ → Whence → ℤ × σ

/-- A seekable reader over the bytes `all`: the bytes it has not returned are those from its
offset on, a read moves the offset by what it returns, and a seek that does not fail moves it to
what it returns. -/
structure SeekableSource (σ : Type*) extends ByteSource σ, SeekSource σ where
  all : List Byte
  tell_nonneg : ∀ s, 0 ≤ tell s
  content_eq : ∀ s, content s = all.drop (tell s).toNat
  tell_read : ∀ s len, tell (read s len).2 = tell s + (read s len).1.data.length
  tell_seek : ∀ s offset whence, 0 ≤ (seek s offset whence).1 →
    tell (seek s offset whence).2 = (seek s offset whence).1
  seek_set : ∀ s offset, 0 ≤ (seek s offset .set).1 → (seek s offset .set).1 = offset

/-- `peek_tell` -/
def peekTell (child : SeekSource σ) (s : State σ) : ℤ := child.tell s.child

/-- `peek_seek` -/
def peekSeek (child : SeekSource σ) (offset : ℤ) (whence : Whence) (s : State σ) : ℤ × State σ :=
  let r := child.seek s.child offset whence
  (r.1, { s with child := r.2 })

/-! ## Sequences of calls -/

/-- A call of the reader; `addr` is the address of the caller's buffer. -/
inductive Access where
  | read (addr len : ℕ)
  | peek (addr len : ℕ)
  | tell
  | seek (offset : ℤ) (whence : Whence)
deriving DecidableEq

def access (child : SeekSource σ) : Access → State σ → Option (ReadResult × State σ)
  | .read addr len, s => peekRead child.toSource addr len s
  | .peek _ len, s => peekPeek child.toSource len s
  | .tell, s => some (⟨peekTell child s, []⟩, s)
  | .seek offset whence, s =>
    let r := peekSeek child offset whence s
    some (⟨r.1, []⟩, r.2)

/-- A reader over the child in state `c`, whose owner makes any calls, with the calls that have
returned and their results. A call that reports an error ends the run. -/
def accesses (child : SeekSource σ) (c : σ) :
    System (State σ × List (Access × ReadResult)) Access where
  init := (peekOpen c, [])
  next p a :=
    (access child a p.1).bind fun r =>
      if r.1.ret < 0 then none else some (r.2, p.2 ++ [(a, r.1)])

/-- The offset of the next byte of a reader that has begun at `start`: a read goes on behind
what it has returned, a seek goes to what it has returned. -/
def position (start : ℤ) (log : List (Access × ReadResult)) : ℤ :=
  log.foldl (fun pos e =>
    match e.1 with
    | .read .. => pos + e.2.data.length
    | .seek .. => e.2.ret
    | _ => pos) start

/-- A seek comes when all bytes of the buffer have been read. -/
def seeksDrained (p : State σ × List (Access × ReadResult)) : Access → Bool
  | .seek .. => p.1.length = p.1.offset
  | _ => true

/-! ## A file -/

/-- The offset that `lseek` is asked for in a file of the bytes `all`. -/
def lseekTarget (all : List Byte) (pos : ℕ) (offset : ℤ) : Whence → ℤ
  | .set => offset
  | .cur => pos + offset
  | .fromEnd => all.length + offset

/-- `lseek` -/
def lseek (all : List Byte) (pos : ℕ) (offset : ℤ) (whence : Whence) : ℤ × ℕ :=
  let target := lseekTarget all pos offset whence
  if target < 0 then (-1, pos) else (target, target.toNat)

theorem lseek_of_nonneg {all : List Byte} {pos : ℕ} {offset : ℤ} {whence : Whence}
    (h : 0 ≤ (lseek all pos offset whence).1) :
    0 ≤ lseekTarget all pos offset whence ∧ lseek all pos offset whence =
      (lseekTarget all pos offset whence, (lseekTarget all pos offset whence).toNat) := by
  unfold lseek at h ⊢
  by_cases hneg : lseekTarget all pos offset whence < 0
  · simp only [hneg, if_true] at h
    contradiction
  · exact ⟨not_lt.mp hneg, if_neg hneg⟩

/-- `stdio_read`, `stdio_tell` and `stdio_seek` on a file of the bytes `all` -/
def file (all : List Byte) : SeekableSource ℕ where
  all := all
  read pos len := (⟨((all.drop pos).take len).length, (all.drop pos).take len⟩,
    pos + ((all.drop pos).take len).length)
  content pos := all.drop pos
  tell pos := pos
  seek := lseek all
  read_zero pos := by simp
  read_eof pos len h := by simp [h]
  read_bytes pos len hlen h := by
    have hpos := List.length_pos_iff.mpr h
    refine ⟨((all.drop pos).take len).length, ?_, ?_, ?_, ?_, ?_⟩
    · rw [List.length_take]
      omega
    · rw [List.length_take]
      omega
    · rw [List.length_take]
      omega
    · rw [List.length_take, ← List.take_eq_take_min]
    · rw [List.drop_drop]
  tell_nonneg pos := Int.natCast_nonneg pos
  content_eq pos := rfl
  tell_read pos len := Nat.cast_add ..
  tell_seek pos offset whence h := by
    obtain ⟨htarget, heq⟩ := lseek_of_nonneg h
    rw [heq]
    exact Int.toNat_of_nonneg htarget
  seek_set pos offset h := by
    obtain ⟨_, heq⟩ := lseek_of_nonneg h
    rw [heq]
    rfl

end Wandio.PeekReader
