import Wandio.Environment.Model

/-!
# Options and commas

As long as no piece between two commas is as long as the array, the pieces are the options. Behind
a longer one the loop stops at the end of the array, and the terminator is stored there.
-/

namespace Wandio.Environment

/-- The pieces of the text between its commas. -/
def pieces (str : List Byte) : List (List Byte) := (str.takeWhile (· ≠ 0)).splitOn comma

/-- The pieces of `cur ++ ip`, where `cur` has no comma. -/
def piecesFrom (cur ip : List Byte) : List (List Byte) :=
  (pieces ip).modifyHead (cur ++ ·)

/-- The piece `cur` has been copied so far, and `g` were the globals before the first option. -/
structure Holding (g : Settings) (s : Parsing) (cur : List Byte) : Prop where
  op : s.op = cur.length
  option : s.option.take s.op = cur
  op_le : s.op ≤ s.option.length
  zero : 0 ∉ cur
  writes : ∀ i ∈ s.writes, i < optionSize
  globals : s.globals = s.passed.foldl doOption g

section Pieces

variable {c : Byte} {cur ip : List Byte}

/-- With nothing read of it the first piece is the first piece of the string. -/
theorem piecesFrom_empty (str : List Byte) : piecesFrom [] str = pieces str := by
  unfold piecesFrom
  cases pieces str <;> rfl

/-- At the end of the string the last piece is what has been read of it. -/
theorem piecesFrom_nil (cur : List Byte) : piecesFrom cur [] = [cur] := by
  unfold piecesFrom pieces
  rw [List.takeWhile_nil, List.splitOn_nil, List.modifyHead_cons, List.append_nil]

/-- At a zero the last piece is what has been read of it. -/
theorem piecesFrom_zero (cur ip : List Byte) : piecesFrom cur (0 :: ip) = [cur] := by
  unfold piecesFrom pieces
  rw [List.takeWhile_cons_of_neg (by simp), List.splitOn_nil, List.modifyHead_cons,
    List.append_nil]

theorem pieces_cons (hzero : c ≠ 0) (ip : List Byte) :
    pieces (c :: ip) = if c = comma then [] :: pieces ip else (pieces ip).modifyHead (c :: ·) := by
  unfold pieces
  rw [List.takeWhile_cons_of_pos (by simpa using hzero), List.splitOn_eq_splitOnP,
    List.splitOnP_cons_eq_if_modifyHead, ← List.splitOn_eq_splitOnP]
  by_cases hcomma : c = comma
  · rw [if_pos (by simpa using hcomma), if_pos hcomma]
  · rw [if_neg (by simpa using hcomma), if_neg hcomma]

/-- A comma ends a piece. -/
theorem piecesFrom_comma (cur ip : List Byte) :
    piecesFrom cur (comma :: ip) = cur :: piecesFrom [] ip := by
  rw [piecesFrom_empty, piecesFrom, pieces_cons (by decide), if_pos rfl, List.modifyHead_cons,
    List.append_nil]

/-- Any other character is part of the piece. -/
theorem piecesFrom_cons (hzero : c ≠ 0) (hcomma : c ≠ comma) (cur ip : List Byte) :
    piecesFrom cur (c :: ip) = piecesFrom (cur ++ [c]) ip := by
  unfold piecesFrom
  rw [pieces_cons hzero, if_neg hcomma, List.modifyHead_modifyHead]
  congr 1
  funext piece
  rw [Function.comp_apply, List.append_assoc, List.singleton_append]

/-- What has been copied is the beginning of the first piece. -/
theorem piecesFrom_head (cur ip : List Byte) :
    ∃ piece ∈ piecesFrom cur ip, cur.length ≤ piece.length := by
  have hne : pieces ip ≠ [] := List.splitOnP_ne_nil _ _
  obtain ⟨piece, rest, hsplit⟩ := List.exists_cons_of_ne_nil hne
  unfold piecesFrom
  rw [hsplit, List.modifyHead_cons]
  refine ⟨cur ++ piece, List.mem_cons_self, ?_⟩
  rw [List.length_append]
  exact Nat.le_add_right _ _

end Pieces

section Loop

variable {g : Settings} {s : Parsing} {cur ip str : List Byte} {c : Byte}

/-- At the beginning nothing has been read of the first piece. -/
theorem Holding.start : Holding g (.start g) [] where
  op := rfl
  option := rfl
  op_le := le_rfl
  zero := List.not_mem_nil
  writes := fun _ hi => absurd hi List.not_mem_nil
  globals := rfl

/-- A piece that is short enough is written inside of the array. -/
theorem Holding.lt_of_mem_writes (h : Holding g s cur) (hlt : cur.length < optionSize)
    (c : Byte) {i : ℕ} (hi : i ∈ (s.store c).writes) : i < optionSize := by
  obtain hi | hi := List.mem_append.mp hi
  · exact h.writes i hi
  · rw [List.mem_singleton.mp hi, h.op]
    exact hlt

/-- The string that is passed when the terminator has been stored. -/
theorem Holding.call (h : Holding g s cur) :
    (s.store 0).call =
      { s.store 0 with passed := s.passed ++ [cur], globals := doOption s.globals cur } := by
  have hstored : (s.store 0).option = cur ++ 0 :: s.option.drop (s.op + 1) := by
    show memcpyAt s.option s.op [0] = _
    rw [memcpyAt, h.option, List.append_assoc]
    rfl
  have hstring : (s.store 0).option.takeWhile (· ≠ 0) = cur := by
    rw [hstored, List.takeWhile_append_of_pos]
    · rw [List.takeWhile_cons_of_neg (by simp), List.append_nil]
    · intro b hb
      exact decide_eq_true (ne_of_mem_of_not_mem hb h.zero)
  unfold Parsing.call
  rw [hstring]
  rfl

/-- At a comma the piece is passed on, and the next one begins. -/
theorem Holding.comma (h : Holding g s cur) (hlt : cur.length < optionSize) :
    Holding g (parseTurn s comma) [] ∧ (parseTurn s comma).passed = s.passed ++ [cur] := by
  unfold parseTurn
  rw [if_pos rfl, h.call]
  refine ⟨⟨rfl, rfl, Nat.zero_le _, List.not_mem_nil, fun i hi => h.lt_of_mem_writes hlt 0 hi, ?_⟩,
    rfl⟩
  simp only [List.foldl_append, List.foldl_cons, List.foldl_nil, h.globals]

/-- A character is put behind those of its piece. -/
theorem Holding.copy (h : Holding g s cur) (hlt : cur.length < optionSize) (hzero : c ≠ 0)
    (hcomma : c ≠ Environment.comma) :
    Holding g (parseTurn s c) (cur ++ [c]) ∧ (parseTurn s c).passed = s.passed := by
  unfold parseTurn
  rw [if_neg hcomma]
  have hoption := take_memcpyAt [c] h.op_le
  refine ⟨⟨?_, ?_, le_length_memcpyAt [c] h.op_le, ?_, ?_, h.globals⟩, rfl⟩
  · simp only [h.op, List.length_append, List.length_singleton]
  · rw [h.option] at hoption
    exact hoption
  · intro hmem
    obtain hmem | hmem := List.mem_append.mp hmem
    · exact h.zero hmem
    · exact hzero (List.mem_singleton.mp hmem).symm
  · exact fun i hi => h.lt_of_mem_writes hlt c hi

/-- How the loop is left that had `todo` to pass, behind `passed`: a piece does not fit and `op` is
at the end of the array, or all pieces but the last have been passed. -/
inductive Left (g : Settings) (s : Parsing) (todo passed : List (List Byte)) : Prop where
  | full {last : List Byte} (h : Holding g s last) (hlen : last.length = optionSize)
    (hlong : ∃ piece ∈ todo, optionSize ≤ piece.length) : Left g s todo passed
  | last {last : List Byte} (h : Holding g s last)
    (hshort : ∀ piece ∈ todo, piece.length < optionSize)
    (hlen : last.length < optionSize) (hpassed : s.passed ++ [last] = passed ++ todo) :
    Left g s todo passed

/-- At the end of the string its last piece is left, and it fits or fills the array. -/
theorem Left.of_last (h : Holding g s cur) (hle : cur.length ≤ optionSize) :
    Left g s [cur] s.passed := by
  obtain hlt | heq := hle.lt_or_eq
  · refine .last h ?_ hlt rfl
    intro piece hpiece
    rw [List.mem_singleton.mp hpiece]
    exact hlt
  · exact .full h heq ⟨cur, List.mem_singleton_self _, heq.ge⟩

/-- A piece that fits is passed on before those behind it. -/
theorem Left.cons {t : Parsing} {todo passed : List (List Byte)} (hlt : cur.length < optionSize)
    (h : Left g t todo (passed ++ [cur])) : Left g t (cur :: todo) passed := by
  cases h with
  | full h hlen hlong =>
    obtain ⟨piece, hpiece, hle⟩ := hlong
    exact .full h hlen ⟨piece, List.mem_cons_of_mem _ hpiece, hle⟩
  | last h hshort hlen hpassed =>
    refine .last h ?_ hlen ?_
    · intro piece hpiece
      obtain rfl | hpiece := List.mem_cons.mp hpiece
      · exact hlt
      · exact hshort piece hpiece
    · rw [hpassed, List.append_assoc, List.singleton_append]

/-- The loop passes on one piece after the other, up to the last or to one that does not fit. -/
theorem parseLoop_left (h : Holding g s cur) (hle : cur.length ≤ optionSize) :
    Left g (parseLoop ip s) (piecesFrom cur ip) s.passed := by
  induction ip generalizing s cur with
  | nil =>
    rw [piecesFrom_nil]
    exact .of_last h hle
  | cons c ip ih =>
    rw [parseLoop]
    by_cases hzero : c = 0
    · rw [hzero, piecesFrom_zero, if_neg (fun hloop => hloop.1 rfl)]
      exact .of_last h hle
    by_cases hlt : cur.length < optionSize
    · rw [if_pos ⟨hzero, h.op.trans_lt hlt⟩]
      by_cases hcomma : c = comma
      · subst hcomma
        obtain ⟨hnext, hpassed⟩ := h.comma hlt
        rw [piecesFrom_comma]
        apply Left.cons hlt
        rw [← hpassed]
        exact ih hnext (Nat.zero_le _)
      · obtain ⟨hnext, hpassed⟩ := h.copy hlt hzero hcomma
        rw [piecesFrom_cons hzero hcomma, ← hpassed]
        apply ih hnext
        rw [List.length_append]
        exact hlt
    · -- the array is full
      have heq : cur.length = optionSize := hle.antisymm (not_lt.mp hlt)
      rw [if_neg (fun hloop => hlt (h.op ▸ hloop.2))]
      obtain ⟨piece, hpiece, hlen⟩ := piecesFrom_head cur (c :: ip)
      exact .full h heq ⟨piece, hpiece, heq ▸ hlen⟩

/-- What becomes of a string: it has a piece that is too long, and the terminator is stored behind
the array, or its pieces are passed. -/
theorem parseEnv_cases (g : Settings) (str : List Byte) :
    ((∃ piece ∈ pieces str, optionSize ≤ piece.length) ∧
        optionSize ∈ (parseEnv (some str) g).writes) ∨
      ((∀ piece ∈ pieces str, piece.length < optionSize) ∧
        (∀ i ∈ (parseEnv (some str) g).writes, i < optionSize) ∧
        (parseEnv (some str) g).passed = pieces str ∧
        (parseEnv (some str) g).globals = (pieces str).foldl doOption g) := by
  have hleft : Left g (parseLoop str (.start g)) (piecesFrom [] str) (Parsing.start g).passed :=
    parseLoop_left Holding.start (Nat.zero_le _)
  rw [piecesFrom_empty] at hleft
  unfold parseEnv
  simp only
  cases hleft with
  | full h hlen hlong =>
    left
    refine ⟨hlong, ?_⟩
    rw [h.call]
    apply List.mem_append_right
    rw [h.op, hlen]
    exact List.mem_singleton_self _
  | last h hshort hlen hpassed =>
    right
    have hall : (parseLoop str (.start g)).passed ++ [_] = pieces str := hpassed
    rw [h.call]
    refine ⟨hshort, fun i hi => h.lt_of_mem_writes hlen 0 hi, hall, ?_⟩
    rw [← hall, List.foldl_append, ← h.globals]
    rfl

/-- The array is not left, and pieces that are short enough are the options. -/
def ParsedInside (g : Settings) (str : List Byte) : Prop :=
  (∀ i ∈ (parseEnv (some str) g).writes, i < optionSize) ∧
    ((∀ piece ∈ pieces str, piece.length < optionSize) →
      (parseEnv (some str) g).passed = pieces str)

theorem parsedInside_iff (g : Settings) (str : List Byte) :
    ParsedInside g str ↔ ∀ piece ∈ pieces str, piece.length < optionSize := by
  unfold ParsedInside
  obtain ⟨⟨piece, hpiece, hlong⟩, hwrite⟩ | ⟨hshort, hwrites, hpassed, _⟩ := parseEnv_cases g str
  · constructor
    · intro h
      exact absurd (h.1 optionSize hwrite) (lt_irrefl _)
    · intro h
      exact absurd (h piece hpiece) (not_lt.mpr hlong)
  · exact ⟨fun _ => hshort, fun _ => ⟨hwrites, fun _ => hpassed⟩⟩

example : (parseEnv (some (letters "nothreads,,buffers=8")) defaults).globals =
    { defaults with useThreads := 0, maxBuffers := 8 } := by decide

/-- 1024 letters without a comma. -/
theorem not_parsedInside_long : ¬ ParsedInside defaults (List.replicate 1024 0x61) := by
  intro h
  obtain ⟨_, hwrite⟩ | ⟨hshort, _⟩ := parseEnv_cases defaults (List.replicate 1024 0x61)
  · exact absurd (h.1 optionSize hwrite) (lt_irrefl _)
  · have hpieces : pieces (List.replicate 1024 0x61) = [List.replicate 1024 0x61] := by
      unfold pieces
      rw [List.takeWhile_replicate, if_pos (by decide)]
      apply List.splitOn_eq_singleton
      intro hmem
      exact absurd (List.eq_of_mem_replicate hmem) (by decide)
    have hlen := hshort _ (hpieces ▸ List.mem_singleton_self _)
    rw [List.length_replicate] at hlen
    exact absurd hlen (lt_irrefl 1024)

end Loop

end Wandio.Environment
