import Wandio.LzoWriter.OrderTheorems

/-!
# Parsing encoded blocks

The rule of `lzop` for a sequence of blocks: a block is as long as its first number says, and
its payload as the second one. A shorter payload is decompressed, one of the same length is the
block itself, and a block of length 0 ends the sequence.
-/

namespace Wandio.LzoWriter

/-- `ntohl` of the next four bytes. -/
def read32 : List Byte → Option (ℕ × List Byte)
  | b3 :: b2 :: b1 :: b0 :: rest =>
    some (b3.toNat * 2 ^ 24 + b2.toNat * 2 ^ 16 + b1.toNat * 2 ^ 8 + b0.toNat, rest)
  | _ => none

/-- The block of `length` bytes that is encoded next. -/
def lzopBlock (lib : Lzo) (decompress : List Byte → List Byte) (length : ℕ)
    (input : List Byte) : Option (List Byte × List Byte) := do
  let (size, input) ← read32 input
  let (checksum, input) ← read32 input
  let payload := input.take size
  let block := if size < length then decompress payload else payload
  if payload.length = size ∧ block.length = length ∧ lib.adler32 1 block % 2 ^ 32 = checksum then
    some (block, input.drop size)
  else none

/-- Up to `fuel` blocks and the end of the sequence, with what is behind it. -/
def lzopBlocks (lib : Lzo) (decompress : List Byte → List Byte) :
    ℕ → List Byte → Option (List (List Byte) × List Byte)
  | 0, _ => none
  | fuel + 1, input => do
    let (length, input) ← read32 input
    if length = 0 then some ([], input)
    else
      let (block, input) ← lzopBlock lib decompress length input
      let (blocks, input) ← lzopBlocks lib decompress fuel input
      some (block :: blocks, input)

/-- The blocks of a file behind its header. -/
def lzopParse (lib : Lzo) (decompress : List Byte → List Byte) (input : List Byte) :
    Option (List (List Byte) × List Byte) :=
  lzopBlocks lib decompress input.length input

/-- The compressor is correct on `b`, and makes no more of it than `lzop` says. -/
structure Lzo.CorrectOn (lib : Lzo) (decompress : List Byte → List Byte) (b : List Byte) :
    Prop where
  ok : (lib.compress b).1 = 0
  lossless : decompress (lib.compress b).2 = b
  length_le : (lib.compress b).2.length ≤ b.length + b.length / 16 + 64 + 3

section Parse

variable {lib : Lzo} {decompress : List Byte → List Byte} {b : List Byte}

theorem read32_htonl (value : ℕ) (rest : List Byte) :
    read32 (htonl value ++ rest) = some (value % 2 ^ 32, rest) := by
  show some ((UInt8.ofNat (value / 2 ^ 24)).toNat * 2 ^ 24 +
    (UInt8.ofNat (value / 2 ^ 16)).toNat * 2 ^ 16 + (UInt8.ofNat (value / 2 ^ 8)).toNat * 2 ^ 8 +
    (UInt8.ofNat value).toNat, rest) = _
  simp only [UInt8.toNat_ofNat']
  congr 2
  omega

theorem read32_length {value : ℕ} (h : value < 2 ^ 32) (rest : List Byte) :
    read32 (htonl value ++ rest) = some (value, rest) := by
  rw [read32_htonl, Nat.mod_eq_of_lt h]

/-- A payload is decompressed exactly if it is the compressed block. -/
theorem recover_payload (h : lib.CorrectOn decompress b) :
    (if (payload lib b).length < b.length then decompress (payload lib b) else payload lib b) =
      b := by
  by_cases hshort : (lib.compress b).2.length < b.length
  · have hpayload : payload lib b = (lib.compress b).2 := if_pos hshort
    rw [hpayload, if_pos hshort, h.lossless]
  · have hpayload : payload lib b = b := if_neg hshort
    rw [hpayload, if_neg (lt_irrefl _)]

theorem lzopBlock_encoded (hb : IsBlock b) (h : lib.CorrectOn decompress b) (rest : List Byte) :
    lzopBlock lib decompress b.length
        (htonl (payload lib b).length ++ htonl (lib.adler32 1 b) ++ payload lib b ++ rest) =
      some (b, rest) := by
  have hmax : maxBlockSize < 2 ^ 32 := by decide
  have hle := length_payload_le lib b
  have hlt := hb.2
  unfold lzopBlock
  simp only [List.append_assoc, Option.bind_eq_bind]
  rw [read32_length (by omega), Option.bind_some]
  simp only
  rw [read32_htonl, Option.bind_some]
  simp only [List.take_left, List.drop_left]
  rw [recover_payload h, if_pos ⟨trivial, rfl, rfl⟩]

/-- An encoded block begins with its length. -/
theorem encoded_split (hb : IsBlock b) (hok : (lib.compress b).1 = 0) (rest : List Byte) :
    encoded lib b ++ rest = htonl b.length ++
      (htonl (payload lib b).length ++ htonl (lib.adler32 1 b) ++ payload lib b ++ rest) := by
  rw [encoded_eq hok hb]
  simp only [List.append_assoc]

theorem twelve_le_length_encoded (hb : IsBlock b) (hok : (lib.compress b).1 = 0) :
    12 ≤ (encoded lib b).length := by
  rw [encoded_eq hok hb]
  simp only [List.length_append, length_htonl]
  omega

/-- Blocks and the zero behind them are parsed back, whatever follows. -/
theorem lzopBlocks_encoded {bs : List (List Byte)}
    (hbs : ∀ b ∈ bs, IsBlock b ∧ lib.CorrectOn decompress b) {fuel : ℕ}
    (hfuel : bs.length < fuel) (rest : List Byte) :
    lzopBlocks lib decompress fuel (bs.flatMap (encoded lib) ++ (htonl 0 ++ rest)) =
      some (bs, rest) := by
  obtain ⟨fuel, rfl⟩ : ∃ m, fuel = m + 1 := ⟨fuel - 1, by omega⟩
  induction bs generalizing fuel with
  | nil =>
    rw [List.flatMap_nil, List.nil_append, lzopBlocks, Option.bind_eq_bind,
      read32_length (by decide), Option.bind_some]
    rfl
  | cons b bs ih =>
    obtain ⟨hb, hcorrect⟩ := hbs b (List.mem_cons_self ..)
    obtain ⟨hpos, hlt⟩ := hb
    have hmax : maxBlockSize < 2 ^ 32 := by decide
    rw [List.length_cons] at hfuel
    obtain ⟨fuel, rfl⟩ : ∃ m, fuel = m + 1 := ⟨fuel - 1, by omega⟩
    rw [List.flatMap_cons, List.append_assoc, encoded_split ⟨hpos, hlt⟩ hcorrect.ok, lzopBlocks,
      Option.bind_eq_bind, read32_length (by omega), Option.bind_some]
    simp only
    rw [if_neg (by omega), lzopBlock_encoded ⟨hpos, hlt⟩ hcorrect]
    simp only [Option.bind_eq_bind, Option.bind_some]
    rw [ih (fun c hc => hbs c (List.mem_cons_of_mem _ hc)) fuel (by omega)]
    rfl

theorem lzopParse_encoded {bs : List (List Byte)}
    (hbs : ∀ b ∈ bs, IsBlock b ∧ lib.CorrectOn decompress b) (rest : List Byte) :
    lzopParse lib decompress (bs.flatMap (encoded lib) ++ (htonl 0 ++ rest)) =
      some (bs, rest) := by
  apply lzopBlocks_encoded hbs
  -- every block is at least as long as its three numbers
  have hlength : bs.length ≤ (bs.flatMap (encoded lib)).length := by
    induction bs with
    | nil => exact Nat.zero_le _
    | cons b bs ih =>
      obtain ⟨hb, hcorrect⟩ := hbs b (List.mem_cons_self ..)
      have htwelve := twelve_le_length_encoded hb hcorrect.ok
      have hrest := ih fun c hc => hbs c (List.mem_cons_of_mem _ hc)
      rw [List.flatMap_cons, List.length_append, List.length_cons]
      omega
  simp only [List.length_append, length_htonl]
  omega

/-- On a block on which the compressor is correct no assertion of `lzo_wwrite_block` fails, the
scratch buffer has room for what the compressor makes, and the block is encoded so that it is
recovered; the encodings of any blocks and the zero of `lzo_wclose` behind them are parsed back
to these blocks, and no encoding begins like that zero. -/
theorem blocks_recovered (lib : Lzo) (decompress : List Byte → List Byte) :
    (∀ b, IsBlock b → lib.CorrectOn decompress b →
      (lib.compress b).2.length ≤ maxBufferSize ∧
      ∃ stored, lzoWwriteBlock lib b = some ((b.length : ℤ),
          htonl b.length ++ htonl stored.length ++ htonl (lib.adler32 1 b) ++ stored) ∧
        (if stored.length < b.length then decompress stored else stored) = b ∧
        (htonl b.length ++ htonl stored.length ++ htonl (lib.adler32 1 b) ++ stored).take 4 ≠
          htonl 0) ∧
    ∀ bs, (∀ b ∈ bs, IsBlock b ∧ lib.CorrectOn decompress b) →
      (∀ b ∈ bs, lzoWwriteBlock lib b = some ((b.length : ℤ), encoded lib b)) ∧
      lzopParse lib decompress (bs.flatMap (encoded lib) ++ htonl 0) = some (bs, []) := by
  constructor
  · intro b hb h
    obtain ⟨hpos, hlt⟩ := hb
    have hmax : maxBlockSize < 2 ^ 32 := by decide
    refine ⟨?_, payload lib b, lzoWwriteBlock_eq h.ok ⟨hpos, hlt⟩, recover_payload h, ?_⟩
    · have hle := h.length_le
      have hsixteenth : b.length / 16 ≤ maxBlockSize / 16 := Nat.div_le_div_right hlt
      unfold maxBufferSize
      omega
    · intro hzero
      simp only [List.append_assoc] at hzero
      rw [List.take_left' (length_htonl b.length)] at hzero
      have := htonl_injective (by omega) (by decide) hzero
      omega
  · intro bs hbs
    constructor
    · intro b hb
      obtain ⟨hblock, hcorrect⟩ := hbs b hb
      rw [lzoWwriteBlock_eq hcorrect.ok hblock, ← encoded_eq hcorrect.ok hblock]
    · have hparse := lzopParse_encoded hbs []
      rwa [List.append_nil] at hparse

end Parse

theorem literalLzo_correctOn {b : List Byte} :
    literalLzo.CorrectOn (fun s => (s.drop 1).take (s.length - 4)) b where
  ok := rfl
  lossless := by simp [literalLzo]
  length_le := by
    simp only [literalLzo, List.length_cons, List.length_append, List.length_nil]
    omega

/-- Two blocks that are longer when they are compressed. -/
theorem blocks_recovered_stored :
    (∃ stored, lzoWwriteBlock literalLzo [1, 2, 3] = some (3,
      htonl 3 ++ htonl stored.length ++ htonl (literalLzo.adler32 1 [1, 2, 3]) ++ stored)) ∧
    lzopParse literalLzo (fun s => (s.drop 1).take (s.length - 4))
      ([[1, 2, 3], [4]].flatMap (encoded literalLzo) ++ htonl 0) = some ([[1, 2, 3], [4]], []) := by
  have hblock : IsBlock [1, 2, 3] := ⟨by decide, by decide⟩
  obtain ⟨hone, hall⟩ := blocks_recovered literalLzo fun s => (s.drop 1).take (s.length - 4)
  constructor
  · obtain ⟨_, stored, hstored, _⟩ := hone [1, 2, 3] hblock literalLzo_correctOn
    exact ⟨stored, hstored⟩
  · apply (hall [[1, 2, 3], [4]] ?_).2
    intro b hb
    refine ⟨?_, literalLzo_correctOn⟩
    simp only [List.mem_cons, List.not_mem_nil, or_false] at hb
    rcases hb with rfl | rfl
    · exact hblock
    · exact ⟨by decide, by decide⟩

end Wandio.LzoWriter
