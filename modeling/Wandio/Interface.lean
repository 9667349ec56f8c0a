import Mathlib.Data.List.Basic
import Mathlib.Algebra.Order.Ring.Int

/-!
# The reader and writer interface

What every module of the library sees of the one below it: `io_source_t.read` for a
reader's parent and `iow_source_t.write` for a writer's child. A parent or a child is a
state machine; the laws a well-behaved one obeys (`wandio.h`: a read returns the number of
bytes read, `0` at the end, a negative value on an error) are fields of `ByteSource` and
`ByteSink`, so that a source that skips or repeats bytes cannot be built.
-/

namespace Wandio

abbrev Byte := UInt8

/-- `WANDIO_BUFFER_SIZE` -/
def wandioBufferSize : ℕ := 1024 * 1024

/-- Conversion to a 32-bit `int`. -/
def cInt (x : ℤ) : ℤ := x.bmod (2 ^ 32)

/-- Conversion to a 32-bit `unsigned int`. -/
def cUInt (x : ℕ) : ℕ := x % 2 ^ 32

theorem cInt_of_lt {n : ℕ} (h : n < 2 ^ 31) : cInt n = n := by
  unfold cInt
  rw [Int.bmod_def]
  omega

theorem cInt_of_range {r : ℤ} (hlo : -2 ^ 31 ≤ r) (hhi : r < 2 ^ 31) : cInt r = r := by
  unfold cInt
  rw [Int.bmod_def]
  omega

theorem cInt_range (x : ℤ) : -2 ^ 31 ≤ cInt x ∧ cInt x < 2 ^ 31 := by
  unfold cInt
  rw [Int.bmod_def]
  omega

/-- The conversion keeps the numbers an `int` has, and no others. -/
theorem cInt_eq_iff {x : ℤ} : cInt x = x ↔ -2 ^ 31 ≤ x ∧ x < 2 ^ 31 := by
  constructor
  · intro h
    rw [← h]
    exact cInt_range x
  · intro h
    exact cInt_of_range h.1 h.2

theorem cInt_natCast_eq_iff {n : ℕ} : cInt n = n ↔ n < 2 ^ 31 := by
  rw [cInt_eq_iff]
  omega

/-- A length is not larger as an `int`. -/
theorem cInt_le_self {x : ℤ} (h : 0 ≤ x) : cInt x ≤ x := by
  unfold cInt
  rw [Int.bmod_def]
  omega

/-- Adding into an `int` accumulator wraps once, however often it was wrapped before. -/
theorem cInt_cInt_add (a b : ℤ) : cInt (cInt a + b) = cInt (a + b) := by
  unfold cInt
  exact Int.bmod_add_bmod

theorem cUInt_of_lt {n : ℕ} (h : n < 2 ^ 32) : cUInt n = n := Nat.mod_eq_of_lt h

/-- `memcpy(buf + off, data, |data|)` on the bytes of an array. -/
def memcpyAt (buf : List Byte) (off : ℕ) (data : List Byte) : List Byte :=
  buf.take off ++ data ++ buf.drop (off + data.length)

/-- Bytes that are copied behind all others are appended. -/
theorem memcpyAt_length (buf data : List Byte) : memcpyAt buf buf.length data = buf ++ data := by
  rw [memcpyAt, List.take_length, List.drop_eq_nil_of_le (Nat.le_add_right _ _), List.append_nil]

/-- After a copy that starts inside the written part, the array begins with the old bytes
followed by the copied ones. -/
theorem take_memcpyAt {buf : List Byte} {off : ℕ} (data : List Byte) (h : off ≤ buf.length) :
    (memcpyAt buf off data).take (off + data.length) = buf.take off ++ data := by
  have hlen : (buf.take off ++ data).length = off + data.length := by
    simp [Nat.min_eq_left h]
  rw [memcpyAt, List.take_append_of_le_length (by omega), List.take_of_length_le (by omega)]

theorem le_length_memcpyAt {buf : List Byte} {off : ℕ} (data : List Byte) (h : off ≤ buf.length) :
    off + data.length ≤ (memcpyAt buf off data).length := by
  simp only [memcpyAt, List.length_append, List.length_take, List.length_drop]
  omega

/-- `enum err_t`, which every module defines for itself. -/
inductive ErrT where
  | ok
  | eof
  | error
deriving DecidableEq

/-- What a read returns: its result and the bytes it has put in the caller's buffer. -/
structure ReadResult where
  ret : ℤ
  data : List Byte
deriving DecidableEq

/-- The bytes returned by the reads of a log. -/
def delivered (log : List (ℕ × ReadResult)) : List Byte := log.flatMap fun e => e.2.data

/-- A reader seen from outside: a state and `read(len)`. -/
structure Source (σ : Type*) where
  read : σ → ℕ → ReadResult × σ

/-- A reader over a byte string: every read of `len > 0` bytes returns between 1 and `len`
of the bytes that are left, in order, and 0 once there are none. -/
structure ByteSource (σ : Type*) extends Source σ where
  /-- The bytes not yet returned. -/
  content : σ → List Byte
  read_zero : ∀ s, (read s 0).1 = ⟨0, []⟩ ∧ content (read s 0).2 = content s
  read_eof : ∀ s len, content s = [] →
    (read s len).1 = ⟨0, []⟩ ∧ content (read s len).2 = []
  read_bytes : ∀ s len, 0 < len → content s ≠ [] →
    ∃ n, 0 < n ∧ n ≤ len ∧ n ≤ (content s).length ∧
      (read s len).1 = ⟨n, (content s).take n⟩ ∧
      content (read s len).2 = (content s).drop n

/-- What a read of at least one byte does: it returns the next bytes, and none only at the
end. -/
theorem ByteSource.read_spec {σ : Type*} (source : ByteSource σ) (s : σ) {len : ℕ} (h : 0 < len) :
    ∃ data t, source.read s len = (⟨data.length, data⟩, t) ∧ data.length ≤ len ∧
      source.content s = data ++ source.content t ∧ (data = [] → source.content s = []) := by
  by_cases hnil : source.content s = []
  · obtain ⟨hret, hcontent⟩ := source.read_eof s len hnil
    exact ⟨[], (source.read s len).2, Prod.ext hret rfl, Nat.zero_le _,
      by rw [hnil, hcontent, List.append_nil], fun _ => hnil⟩
  · obtain ⟨n, hpos, hle, hleft, hret, hcontent⟩ := source.read_bytes s len h hnil
    have hlen : ((source.content s).take n).length = n := by
      rw [List.length_take, Nat.min_eq_left hleft]
    refine ⟨(source.content s).take n, (source.read s len).2, ?_, hlen.trans_le hle, ?_, ?_⟩
    · rw [hlen, ← hret]
    · rw [hcontent, List.take_append_drop]
    · intro htake
      rw [htake, List.length_nil] at hlen
      omega

/-- A writer seen from outside: a state and `write(buffer, |buffer|)`. -/
structure Sink (σ : Type*) where
  write : σ → List Byte → ℤ × σ

/-- A writer that accepts every write: it returns the length it was given (0 for an empty
write, as `stdio_wwrite` does) and keeps the bytes in order. -/
structure ByteSink (σ : Type*) extends Sink σ where
  /-- The bytes accepted so far. -/
  received : σ → List Byte
  write_ret : ∀ s b, (write s b).1 = b.length
  received_write : ∀ s b, received (write s b).2 = received s ++ b

/-- The arguments of `write(buffer, len)`; the caller owns at least `len` bytes. -/
structure WriteCall where
  buffer : List Byte
  len : ℤ
  fits : len ≤ buffer.length

/-- The bytes a call asks to write. -/
def WriteCall.data (w : WriteCall) : List Byte := w.buffer.take w.len.toNat

@[simp] theorem WriteCall.length_data (w : WriteCall) : w.data.length = w.len.toNat := by
  have := w.fits
  rw [data, List.length_take]
  omega

theorem WriteCall.data_ne_nil (w : WriteCall) : w.data ≠ [] ↔ 0 < w.len := by
  rw [← List.length_pos_iff, w.length_data]
  omega

/-! ## The chunked source and the collecting sink -/

/-- The number of bytes a chunked source returns: what its script asks for, but at least
one byte and no more than there are or fit. -/
def chunkSize (size len left : ℕ) : ℕ := min (max 1 size) (min len left)

/-- The byte string `rest` handed out in the chunk sizes of a script, then in chunks as
large as possible. Every way to chunk a byte string is one of these. -/
def chunkedRead (s : List Byte × List ℕ) (len : ℕ) : ReadResult × (List Byte × List ℕ) :=
  if len = 0 then (⟨0, []⟩, s)
  else
    let n := chunkSize (s.2.headD len) len s.1.length
    (⟨n, s.1.take n⟩, (s.1.drop n, s.2.tail))

def chunked : ByteSource (List Byte × List ℕ) where
  read := chunkedRead
  content := Prod.fst
  read_zero _ := by simp [chunkedRead]
  read_eof s len h := by
    by_cases hlen : len = 0 <;> simp [chunkedRead, chunkSize, hlen, h]
  read_bytes s len hlen h := by
    have hpos : 0 < s.1.length := List.length_pos_iff.mpr h
    refine ⟨chunkSize (s.2.headD len) len s.1.length, ?_, ?_, ?_, ?_, ?_⟩
    · simp only [chunkSize]; omega
    · simp only [chunkSize]; omega
    · simp only [chunkSize]; omega
    · simp [chunkedRead, Nat.pos_iff_ne_zero.mp hlen]
    · simp [chunkedRead, Nat.pos_iff_ne_zero.mp hlen]

/-- A child that keeps the payload of every write. -/
def collecting : ByteSink (List Byte) where
  write s b := (b.length, s ++ b)
  received := id
  write_ret _ _ := rfl
  received_write _ _ := rfl

end Wandio
