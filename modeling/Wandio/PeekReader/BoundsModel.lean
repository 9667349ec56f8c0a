import Wandio.PeekReader.StepTheorems
import Wandio.Utils.Transition

/-!
# What the peeking reader touches

The regions of its buffer that `peek_read`, `refill_buffer` and `peek_peek` copy from or hand to
the child. A read straight into the caller's memory touches none of them.
-/

namespace Wandio.PeekReader

open Transition

variable {σ : Type*}

/-- A reader that can end, stop short and fail at any time, but does not return more than it is
asked for. -/
structure FallibleSource (σ : Type*) extends Source σ where
  ret_le : ∀ s n, (read s n).1.ret ≤ n

/-- `n` bytes from `start` on, in a block of `capacity` bytes. -/
structure Region where
  start : ℤ
  n : ℕ
  capacity : ℕ
deriving DecidableEq

def Region.Inside (r : Region) : Prop := 0 ≤ r.start ∧ r.start + r.n ≤ r.capacity

instance (r : Region) : Decidable r.Inside := inferInstanceAs (Decidable (_ ∧ _))

/-- The size of the allocated buffer. -/
def State.capacity (s : State σ) : ℕ := (s.buffer.map Block.size).getD 0

section Operations

variable (child : Source σ)

/-- `memcpy(buffer, DATA(io)->buffer + DATA(io)->offset, MIN(len, length - offset))` -/
def copyRegion (len : ℤ) (s : State σ) : Region :=
  ⟨s.offset, sizeT (min len (s.length - s.offset)), s.capacity⟩

/-- The child's read in `refill_buffer`. -/
def refillRegion (len : ℤ) (s : State σ) : Region :=
  let bytesRead := refillAmount len s.length
  -- a buffer that is too small has been thrown away for a new one
  ⟨0, bytesRead.toNat, if s.length < bytesRead then bytesRead.toNat else s.capacity⟩

/-- The copy in the first part of `peek_read`. -/
def takeRegions (len : ℤ) (s : State σ) : List Region :=
  if s.buffer.isSome ∧ s.length ≠ 0 then [copyRegion len s] else []

/-- The refill in the middle part of `peek_read`, and the copy behind it. -/
def moreRegions (addr len ret : ℤ) (s : State σ) : List Region :=
  if len.tmod minReadSize = 0 ∧ (addr + ret).tmod 4096 = 0 then []
  else
    refillRegion len s ::
      match refillBuffer child len s with
      | none => []
      | some (bytesRead, t) =>
        if bytesRead < 1 then []
        else [⟨0, sizeT (if len < bytesRead then len else bytesRead), t.capacity⟩]

/-- `peek_read` -/
def readRegions (addr len : ℤ) (s : State σ) : List Region :=
  if s.length < 0 then []
  else
    let (ret, _, t) := takeBuffered len s
    takeRegions len s ++ if 0 < len - ret then moreRegions child addr (len - ret) ret t else []

/-- `memcpy(new, old, oldsize)` in `alignedrealloc` reads the one block and writes the other. -/
def reallocRegions (old : Option Block) (oldsize size : ℕ) : List Region :=
  if size < oldsize then []
  else [⟨0, oldsize, (old.map Block.size).getD 0⟩, ⟨0, oldsize, size⟩]

/-- `peek_peek` -/
def peekRegions (len : ℤ) (s : State σ) : List Region :=
  if s.length - s.offset < len then
    let readAmount := s.readAmount len
    reallocRegions s.buffer (sizeT s.length) (sizeT (s.length + readAmount)) ++
      match alignedrealloc s.buffer (sizeT s.length) (sizeT (s.length + readAmount)) with
      | some (some b) =>
        let r := child.read s.child readAmount.toNat
        -- the child reads to `buffer + length`
        ⟨s.length, readAmount.toNat, b.size⟩ ::
          if r.1.ret < 0 then []
          else [copyRegion len { s with buffer := some b, length := s.length + r.1.ret }]
      | _ => []
  else [copyRegion len s]

/-- The regions that a call touches. -/
def regions : Call → State σ → List Region
  | .read addr len => readRegions child addr len
  | .peek _ len => peekRegions child len

/-- A reader over the child in state `c`, whose owner makes any calls, after errors too. -/
def calls (c : σ) : System (State σ) Call where
  init := peekOpen c
  next s a := (call child a s).map Prod.snd

end Operations

/-- The buffer has `length` bytes at least, `offset` of them read; or `length` is an error. -/
def Bounded (s : State σ) : Prop :=
  (0 ≤ s.offset ∧ s.offset ≤ s.length ∧ s.length ≤ s.capacity) ∨ s.length < 0

/-- No peek is made once `length` is an error. -/
def peeksUnfailed (s : State σ) : Call → Bool
  | .read .. => true
  | .peek .. => 0 ≤ s.length

/-- A child whose reads all fail. -/
def failing : FallibleSource Unit where
  read _ _ := (⟨-1, []⟩, ())
  ret_le _ n := by
    show (-1 : ℤ) ≤ n
    omega

end Wandio.PeekReader
