import Wandio.LzoWriter.Model
import Wandio.Utils.Codec

/-!
# Encoded blocks

A block is encoded as its length, the length of its payload, its checksum and the payload,
which is the compressed block if that is shorter and the block itself otherwise. So an
encoded block tells its own length, and with a lossless compressor it tells the block.
-/

namespace Wandio.LzoWriter

open Codec

variable {lib : Lzo} {b : List Byte}

/-- A block as `lzo_wwrite` makes them. -/
def IsBlock (b : List Byte) : Prop := 1 ≤ b.length ∧ b.length ≤ maxBlockSize

/-- The compressor accepts every block. -/
def Lzo.Succeeds (lib : Lzo) : Prop := ∀ b, (lib.compress b).1 = 0

/-- What has been compressed can be decompressed. -/
def Lzo.Lossless (lib : Lzo) : Prop :=
  ∃ decompress : List Byte → List Byte, ∀ b, decompress (lib.compress b).2 = b

/-- The bytes that stand for a block. -/
def payload (lib : Lzo) (b : List Byte) : List Byte :=
  if (lib.compress b).2.length < b.length then (lib.compress b).2 else b

theorem length_payload_le (lib : Lzo) (b : List Byte) : (payload lib b).length ≤ b.length := by
  unfold payload
  split
  · next h => exact h.le
  · exact le_rfl

@[simp] theorem length_htonl (value : ℕ) : (htonl value).length = 4 := rfl

theorem htonl_injective {m n : ℕ} (hm : m < 2 ^ 32) (hn : n < 2 ^ 32) (h : htonl m = htonl n) :
    m = n := by
  have hbyte : ∀ i j : ℕ, UInt8.ofNat i = UInt8.ofNat j → i % 256 = j % 256 := by
    intro i j hij
    have := congrArg UInt8.toNat hij
    rwa [UInt8.toNat_ofNat', UInt8.toNat_ofNat'] at this
  simp only [htonl, List.cons.injEq, and_true] at h
  obtain ⟨h3, h2, h1, h0⟩ := h
  have := hbyte _ _ h3
  have := hbyte _ _ h2
  have := hbyte _ _ h1
  have := hbyte _ _ h0
  omega

theorem writeBuf_some {buffer data : List Byte} (h : buffer.length + data.length < maxBufferSize) :
    writeBuf buffer data = some (buffer ++ data) := if_pos h

/-- No assertion of `lzo_wwrite_block` fails on a block that is compressed. -/
theorem lzoWwriteBlock_eq (hok : (lib.compress b).1 = 0) (h : IsBlock b) :
    lzoWwriteBlock lib b =
      some ((b.length : ℤ), htonl b.length ++ htonl (payload lib b).length ++
        htonl (lib.adler32 1 b) ++ payload lib b) := by
  have hle := length_payload_le lib b
  obtain ⟨hpos, hmax⟩ := h
  have hsize : maxBlockSize + 12 < maxBufferSize := by decide
  have hlen : (if (lib.compress b).2.length < b.length then (lib.compress b).2.length
      else b.length) = (payload lib b).length := by
    unfold payload
    split <;> rfl
  have hdata : (if (lib.compress b).2.length < b.length then (lib.compress b).2 else b) =
      payload lib b := rfl
  unfold lzoWwriteBlock
  simp only [hok, hlen, hdata, write32, ne_eq, not_true_eq_false, if_false]
  rw [writeBuf_some (by simp only [List.length_nil, length_htonl]; omega)]
  simp only [Option.bind_eq_bind, Option.bind_some, List.nil_append]
  rw [if_neg (by omega), writeBuf_some (by simp only [length_htonl]; omega), Option.bind_some,
    writeBuf_some (by simp only [List.length_append, length_htonl]; omega), Option.bind_some,
    writeBuf_some (by simp only [List.length_append, length_htonl]; omega), Option.bind_some]

theorem encoded_eq (hok : (lib.compress b).1 = 0) (h : IsBlock b) :
    encoded lib b =
      htonl b.length ++ htonl (payload lib b).length ++ htonl (lib.adler32 1 b) ++
        payload lib b := by
  rw [encoded, lzoWwriteBlock_eq hok h]
  rfl

theorem blockError_neg (code : ℤ) : blockError code < 0 := by
  unfold blockError
  split_ifs <;> decide

/-- A block that the compressor does not accept leaves `outbuf` empty. -/
theorem lzoWwriteBlock_failed (hfail : (lib.compress b).1 ≠ 0) :
    lzoWwriteBlock lib b = some (blockError (lib.compress b).1, []) := if_pos hfail

theorem encoded_failed (hfail : (lib.compress b).1 ≠ 0) : encoded lib b = [] := by
  rw [encoded, lzoWwriteBlock_failed hfail]
  rfl

/-- Encoded blocks need no separator. -/
theorem encoded_selfDelimiting (hlib : lib.Succeeds) (hless : lib.Lossless) :
    SelfDelimiting IsBlock (encoded lib) where
  ne_nil b hb := by
    apply List.ne_nil_of_length_pos
    rw [encoded_eq (hlib b) hb]
    simp only [List.length_append, length_htonl]
    omega
  split a b x y ha hb h := by
    have hbound : maxBlockSize < 2 ^ 32 := by decide
    have hpa := length_payload_le lib a
    have hpb := length_payload_le lib b
    rw [encoded_eq (hlib a) ha, encoded_eq (hlib b) hb] at h
    simp only [List.append_assoc] at h
    -- the two lengths come first
    obtain ⟨hlen, h⟩ := List.append_inj h rfl
    have hlen := htonl_injective (by have := ha.2; omega) (by have := hb.2; omega) hlen
    obtain ⟨hsize, h⟩ := List.append_inj h rfl
    have hsize := htonl_injective (by have := ha.2; omega) (by have := hb.2; omega) hsize
    obtain ⟨_, h⟩ := List.append_inj h rfl
    obtain ⟨hpayload, hrest⟩ := List.append_inj h hsize
    refine ⟨?_, hrest⟩
    obtain ⟨decompress, hdec⟩ := hless
    by_cases hca : (lib.compress a).2.length < a.length
    · have hcb : (lib.compress b).2.length < b.length := by
        by_contra hcb
        rw [payload, payload, if_pos hca, if_neg hcb] at hsize
        omega
      rw [payload, payload, if_pos hca, if_pos hcb] at hpayload
      rw [← hdec a, hpayload, hdec b]
    · have hcb : ¬ (lib.compress b).2.length < b.length := by
        intro hcb
        rw [payload, payload, if_neg hca, if_pos hcb] at hsize
        omega
      rwa [payload, payload, if_neg hca, if_neg hcb] at hpayload

/-- A short write into a buffer far from full goes through. -/
theorem exists_of_writeBuf {buffer data : List Byte} {rest : List Byte → Option (List Byte)}
    {n : ℕ} (hbuffer : buffer.length ≤ n) (hdata : data.length ≤ 16) (hroom : n < 250)
    (hrest : ∀ b : List Byte, b.length ≤ n + 16 → ∃ header, rest b = some header) :
    ∃ header, (writeBuf buffer data >>= rest) = some header := by
  have hmax : 250 + 16 < maxBufferSize := by decide
  rw [writeBuf_some (by omega)]
  apply hrest
  rw [List.length_append]
  omega

/-- `lzo_wopen` has room for its header. -/
theorem lzopHeader_some (lib : Lzo) (mtime : ℕ) :
    ∃ header, lzopHeader lib mtime = some header := by
  have h32 (v : ℕ) : (htonl v).length ≤ 16 := by
    rw [length_htonl]
    decide
  have h16 (v : ℕ) : (htons v).length ≤ 16 := by
    show 2 ≤ 16
    decide
  have h8 (v : ℕ) : [UInt8.ofNat v].length ≤ 16 := by
    show 1 ≤ 16
    decide
  unfold lzopHeader
  refine exists_of_writeBuf (le_refl 0) (by decide) (by decide) fun b hb => ?_
  -- Three of 16 bits, two of 8, four of 32, then the name and its length.
  iterate 3 refine exists_of_writeBuf hb (h16 _) (by decide) fun b hb => ?_
  iterate 2 refine exists_of_writeBuf hb (h8 _) (by decide) fun b hb => ?_
  iterate 4 refine exists_of_writeBuf hb (h32 _) (by decide) fun b hb => ?_
  refine exists_of_writeBuf hb (h8 _) (by decide) fun b hb => ?_
  refine exists_of_writeBuf hb (by decide) (by decide) fun b hb => ?_
  have hmax : 250 + 16 < maxBufferSize := by decide
  have hlast := h32 (lib.adler32 1 (b.drop lzopMagic.length))
  exact ⟨_, writeBuf_some (by omega)⟩

end Wandio.LzoWriter
