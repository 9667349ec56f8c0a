import Wandio.LineReader.Model

/-!
# Line reading is lossless

A call takes the next `line` of the stream, cut off where the buffer is full. In the loop the
buffer begins with the part of the line that has been read.
-/

namespace Wandio.LineReader

open Loop

variable {σ : Type*}

/-- What comes up to the first newline, and no more than `n` bytes. -/
def line : ℕ → List Byte → List Byte
  | 0, _ => []
  | _ + 1, [] => []
  | n + 1, c :: rest => if c = newline then [c] else c :: line n rest

/-- With `chomp` a newline at the end of a line is stored as a `NUL`. -/
def chomped (chomp : Bool) (bytes : List Byte) : List Byte :=
  if chomp ∧ bytes.getLast? = some newline then bytes.dropLast ++ [0] else bytes

/-- What `buffer` is after `bytes` and a `NUL` have been stored. -/
def stored (bytes buffer : List Byte) : List Byte := bytes ++ 0 :: buffer.drop (bytes.length + 1)

section Line

variable {n : ℕ} {content : List Byte}

theorem line_nil (n : ℕ) : line n [] = [] := by
  cases n <;> rfl

theorem length_line_le (n : ℕ) (content : List Byte) : (line n content).length ≤ n := by
  induction n generalizing content with
  | zero => exact le_rfl
  | succ n ih =>
    cases content with
    | nil => exact Nat.zero_le _
    | cons c rest =>
      rw [line]
      split
      · exact Nat.succ_le_succ (Nat.zero_le n)
      · exact Nat.succ_le_succ (ih rest)

/-- A newline is the last byte of a line. -/
theorem line_dropLast (n : ℕ) (content : List Byte) : newline ∉ (line n content).dropLast := by
  induction n generalizing content with
  | zero => exact List.not_mem_nil
  | succ n ih =>
    cases content with
    | nil => exact List.not_mem_nil
    | cons c rest =>
      rw [line]
      split
      · exact List.not_mem_nil
      · next hc =>
        cases hline : line n rest with
        | nil => exact List.not_mem_nil
        | cons d more =>
          have hmore := ih rest
          rw [hline] at hmore
          rw [List.dropLast_cons_of_ne_nil (by simp), List.mem_cons, not_or]
          exact ⟨fun heq => hc heq.symm, hmore⟩

/-- A line that leaves room ends with a newline or with the stream. -/
theorem line_short (h : (line n content).length < n) :
    (line n content).getLast? = some newline ∨ line n content = content := by
  induction n generalizing content with
  | zero => exact absurd h (Nat.not_lt_zero _)
  | succ n ih =>
    cases content with
    | nil => exact .inr rfl
    | cons c rest =>
      rw [line] at h ⊢
      split
      · next hc => exact .inl (by rw [hc]; rfl)
      · next hc =>
        rw [if_neg hc, List.length_cons] at h
        have hshort : (line n rest).length < n := by omega
        rcases ih hshort with hlast | hall
        · left
          cases hline : line n rest with
          | nil =>
            rw [hline] at hlast
            cases hlast
          | cons d more =>
            rw [hline] at hlast
            rw [List.getLast?_cons_cons]
            exact hlast
        · exact .inr (by rw [hall])

/-- There is nothing to read at the end of the stream only. -/
theorem line_eq_nil_iff (hn : 0 < n) : line n content = [] ↔ content = [] := by
  obtain ⟨m, rfl⟩ : ∃ m, n = m + 1 := ⟨n - 1, by omega⟩
  cases content with
  | nil => exact iff_of_true rfl rfl
  | cons c rest =>
    rw [line]
    split <;> exact iff_of_false (by simp) (by simp)

end Line

section Stored

variable {out buffer : List Byte} {c : Byte}

theorem chomped_of_getLast?_ne (chomp : Bool) (h : out.getLast? ≠ some newline) :
    chomped chomp out = out := if_neg fun hchomp => h hchomp.2

theorem length_chomped (chomp : Bool) (bytes : List Byte) :
    (chomped chomp bytes).length = bytes.length := by
  unfold chomped
  split
  · next h =>
    have hne : bytes ≠ [] := by
      rintro rfl
      cases h.2
    have hpos := List.length_pos_iff.mpr hne
    rw [List.length_append, List.length_dropLast, List.length_singleton]
    omega
  · rfl

/-- The next byte of `buffer` is stored. -/
theorem set_stored (hroom : out.length < buffer.length) :
    (out ++ buffer.drop out.length).set out.length c =
      out ++ c :: buffer.drop (out.length + 1) := by
  rw [List.set_append_right _ _ le_rfl, Nat.sub_self, List.drop_eq_getElem_cons hroom,
    List.set_cons_zero]

theorem stored_eq (hroom : out.length < buffer.length) :
    (out ++ buffer.drop out.length).set out.length 0 = stored out buffer := set_stored hroom

end Stored

/-! ## The loop -/

/-- In the loop: `out` has been read of the line, and stored. -/
structure Scanning (source : ByteSource σ) (call : FgetsCall) (s : σ) (v : Reading σ)
    (out : List Byte) : Prop where
  i : v.i = out.length
  buffer : v.buffer = chomped call.chomp out ++ call.buffer.drop out.length
  consumed : source.content s = out ++ source.content v.file
  open_ : v.done = false → newline ∉ out
  ahead : line (call.len - 1).toNat (source.content s) =
    out ++ if v.done then [] else line ((call.len - 1).toNat - out.length) (source.content v.file)

/-- What a call has done that has read `bytes` and left `buffer`. -/
structure LineRead (source : ByteSource σ) (call : FgetsCall) (s : σ) (bytes buffer : List Byte)
    (t : σ) : Prop where
  line : bytes = line (call.len - 1).toNat (source.content s)
  consumed : source.content s = bytes ++ source.content t
  buffer : buffer = stored (chomped call.chomp bytes) call.buffer

section Loop

variable {source : ByteSource σ} {call : FgetsCall} {s : σ} {v : Reading σ} {out : List Byte}

theorem Scanning.length_le (h : Scanning source call s v out) :
    out.length ≤ (call.len - 1).toNat := by
  have hle := length_line_le (call.len - 1).toNat (source.content s)
  rw [h.ahead, List.length_append] at hle
  omega

/-- A turn that reads: the end of the stream, a newline or another byte. -/
theorem Scanning.read (hlen : call.len < 2 ^ 31) (h : Scanning source call s v out)
    (hopen : v.done = false) (hroom : v.i < call.len - 1) :
    ∃ u out', fgetsTurn source.toSource call.len call.chomp v = .next u ∧
      Scanning source call s u out' ∧
      (u.done = true ∨ out'.length = out.length + 1) := by
  obtain ⟨data, t, hread, hshort, hcontent, hend⟩ := source.read_spec v.file one_pos
  have hi := h.i
  have hfits := call.fits
  have hfresh := h.open_ hopen
  have hlast : out.getLast? ≠ some newline := fun hl => hfresh (List.mem_of_getLast? hl)
  have hbuffer := h.buffer
  rw [chomped_of_getLast?_ne _ hlast] at hbuffer
  have hline := h.ahead
  rw [hopen] at hline
  simp only [Bool.false_eq_true, if_false] at hline
  have hwithin : out.length < call.buffer.length := by omega
  unfold fgetsTurn
  rw [if_pos ⟨hopen, hroom⟩, hread]
  cases data with
  | nil =>
    -- the end of the stream
    have hnil := hend rfl
    rw [List.nil_append] at hcontent
    have hzero : cInt ((([] : List Byte).length : ℕ) : ℤ) = 0 :=
      cInt_of_lt (n := 0) (by decide)
    have hback : cInt (v.i - 1 + 1) = out.length := by
      rw [show v.i - 1 + 1 = ((out.length : ℕ) : ℤ) by omega]
      exact cInt_of_lt (by omega)
    refine ⟨{ v with file := t, i := out.length, done := true }, out, ?_, ⟨rfl, h.buffer, ?_,
      fun hd => absurd hd (by simp), ?_⟩, .inl rfl⟩
    · simp only [hzero, hback, lt_irrefl, if_false, if_true]
    · rw [← hcontent]
      exact h.consumed
    · rw [hline, hnil, line_nil]
      rfl
  | cons c rest =>
    obtain rfl : rest = [] := by
      apply List.eq_nil_of_length_eq_zero
      rw [List.length_cons] at hshort
      omega
    have hone : cInt ((([c] : List Byte).length : ℕ) : ℤ) = 1 :=
      cInt_of_lt (n := 1) (by decide)
    have hnext : cInt (v.i + 1) = ((out ++ [c]).length : ℤ) := by
      rw [List.length_append, List.length_singleton, hi]
      exact cInt_of_lt (n := out.length + 1) (by omega)
    have hset : v.buffer.set v.i.toNat c = out ++ c :: call.buffer.drop (out.length + 1) := by
      rw [hbuffer, hi, Int.toNat_natCast]
      exact set_stored hwithin
    have hconsumed : source.content s = (out ++ [c]) ++ source.content t := by
      rw [h.consumed, hcontent, List.append_assoc]
    have hcount : (call.len - 1).toNat - out.length =
        (call.len - 1).toNat - (out.length + 1) + 1 := by omega
    have hmore : line (call.len - 1).toNat (source.content s) = (out ++ [c]) ++
        if c = newline then []
        else line ((call.len - 1).toNat - (out.length + 1)) (source.content t) := by
      rw [hline, hcontent, hcount]
      show out ++ line (_ + 1) (c :: source.content t) = _
      rw [line, List.append_assoc]
      split <;> rfl
    simp only [hone, List.headD_cons, hset]
    rw [if_neg (by decide), if_neg (by decide)]
    by_cases hc : c = newline
    · -- the line ends here
      rw [if_pos hc]
      refine ⟨_, out ++ [c], rfl, ⟨hnext, ?_, hconsumed, fun hd => absurd hd (by simp), ?_⟩,
        .inl rfl⟩
      · have hend : (out ++ [c]).getLast? = some newline := by
          rw [List.getLast?_concat, hc]
        show (if call.chomp = true then _ else _) = _
        rw [List.length_append, List.length_singleton]
        unfold chomped
        by_cases hchomp : call.chomp = true
        · rw [if_pos hchomp, if_pos ⟨hchomp, hend⟩, List.dropLast_concat, hi, Int.toNat_natCast,
            List.set_append_right _ _ le_rfl, Nat.sub_self, List.set_cons_zero, List.append_assoc]
          rfl
        · rw [if_neg hchomp, if_neg fun hand => hchomp hand.1, List.append_assoc]
          rfl
      · rw [hmore, if_pos hc]
        rfl
    · rw [if_neg hc]
      have hnew : newline ∉ out ++ [c] := by
        rw [List.mem_append, List.mem_singleton, not_or]
        exact ⟨hfresh, fun heq => hc heq.symm⟩
      have hlast' : (out ++ [c]).getLast? ≠ some newline :=
        fun hl => hnew (List.mem_of_getLast? hl)
      refine ⟨_, out ++ [c], rfl, ⟨hnext, ?_, hconsumed, fun _ => hnew, ?_⟩, .inr (by simp)⟩
      · rw [chomped_of_getLast?_ne _ hlast', List.length_append, List.length_singleton,
          List.append_assoc]
        rfl
      · rw [hmore, if_neg hc, hopen, List.length_append, List.length_singleton]
        rfl

/-- The turn that ends the call. -/
theorem Scanning.finish (h : Scanning source call s v out) (hlen : 0 < call.len)
    (hstop : ¬ (v.done = false ∧ v.i < call.len - 1)) :
    fgetsTurn source.toSource call.len call.chomp v =
        .done ((out.length : ℤ), stored (chomped call.chomp out) call.buffer, v.file) ∧
      LineRead source call s out (stored (chomped call.chomp out) call.buffer) v.file := by
  have hi := h.i
  have hle := h.length_le
  have hfits := call.fits
  have hlength := length_chomped call.chomp out
  constructor
  · unfold fgetsTurn
    rw [if_neg hstop, h.buffer, hi, Int.toNat_natCast, ← hlength,
      stored_eq (by rw [hlength]; omega)]
  · refine ⟨?_, h.consumed, rfl⟩
    rw [h.ahead]
    cases hdone : v.done with
    | true => simp
    | false =>
      -- the buffer is full
      have hfull : (call.len - 1).toNat - out.length = 0 := by
        have := not_and.mp hstop hdone
        omega
      rw [hfull]
      exact (List.append_nil out).symm

/-- A call reads the next line. -/
theorem fgets_spec (source : ByteSource σ) (call : FgetsCall) (hlen : 2 ≤ call.len)
    (hint : call.len < 2 ^ 31) (s : σ) :
    ∃ bytes buffer t,
      Yields (wandioGenericFgets source.toSource call s) (((bytes.length : ℤ), buffer), t) ∧
      LineRead source call s bytes buffer t := by
  have hstart : Scanning source call s ⟨s, call.buffer, 0, false⟩ [] := by
    refine ⟨rfl, ?_, rfl, fun _ => List.not_mem_nil, by simp⟩
    rw [chomped_of_getLast?_ne _ (by simp), List.length_nil, List.drop_zero, List.nil_append]
  have hloop : ∃ r, Yields
      (fun fuel => loop (fgetsTurn source.toSource call.len call.chomp) fuel
        ⟨s, call.buffer, 0, false⟩) r ∧
      ∃ bytes : List Byte, r.1 = bytes.length ∧ LineRead source call s bytes r.2.1 r.2.2 := by
    refine loop_total (fun v => if v.done then 0 else (call.len - v.i).toNat)
      (I := fun v => ∃ out, Scanning source call s v out) ?_ ?_ ⟨[], hstart⟩
    · rintro v u ⟨out, h⟩ hu
      by_cases hgo : v.done = false ∧ v.i < call.len - 1
      · obtain ⟨u', out', hturn, h', hmore⟩ := h.read hint hgo.1 hgo.2
        rw [hu] at hturn
        cases hturn
        refine ⟨⟨out', h'⟩, ?_⟩
        have hi := h.i
        have hi' := h'.i
        have hroom := hgo.2
        show (if u.done = true then 0 else (call.len - u.i).toNat) <
          if v.done = true then 0 else (call.len - v.i).toNat
        rw [hgo.1, if_neg Bool.false_ne_true]
        split
        · omega
        · next hopen =>
          have hlonger := hmore.resolve_left hopen
          omega
      · rw [(h.finish (by omega) hgo).1] at hu
        cases hu
    · rintro v r ⟨out, h⟩ hr
      by_cases hgo : v.done = false ∧ v.i < call.len - 1
      · obtain ⟨u, out', hturn, -⟩ := h.read hint hgo.1 hgo.2
        rw [hr] at hturn
        cases hturn
      · obtain ⟨hturn, hread⟩ := h.finish (by omega) hgo
        rw [hr] at hturn
        cases hturn
        exact ⟨out, rfl, hread⟩
  obtain ⟨⟨n, buffer, t⟩, hr, bytes, rfl, hread⟩ := hloop
  refine ⟨bytes, buffer, t, ?_, hread⟩
  have hcall : wandioGenericFgets source.toSource call s = fun fuel =>
      (loop (fgetsTurn source.toSource call.len call.chomp) fuel ⟨s, call.buffer, 0, false⟩).map
        fun r => ((r.1, r.2.1), r.2.2) := by
    funext fuel
    unfold wandioGenericFgets
    rw [if_neg (by omega)]
  rw [hcall]
  exact hr.map fun r => ((r.1, r.2.1), r.2.2)

end Loop

/-! ## Sequences of calls -/

/-- The bytes that the calls of a log have stored in front of the `NUL`. -/
def lines (log : List (FgetsCall × (ℤ × List Byte))) : List Byte :=
  log.flatMap fun e => e.2.2.take e.2.1.toNat

section Calls

variable {source : ByteSource σ} {call : FgetsCall} {s t : σ} {bytes buffer : List Byte}

theorem LineRead.length_le (h : LineRead source call s bytes buffer t) :
    bytes.length ≤ (call.len - 1).toNat := by
  rw [h.line]
  exact length_line_le _ _

theorem length_stored (h : bytes.length < buffer.length) :
    (stored bytes buffer).length = buffer.length := by
  simp only [stored, List.length_append, List.length_cons, List.length_drop]
  omega

theorem LineRead.take (h : LineRead source call s bytes buffer t) (hchomp : call.chomp = false) :
    buffer.take bytes.length = bytes := by
  have hraw : chomped call.chomp bytes = bytes := if_neg fun hand => by simp [hchomp] at hand
  rw [h.buffer, hraw]
  exact List.take_left' rfl

/-- A call reads nothing at the end of the stream only. -/
theorem LineRead.eq_nil_iff (h : LineRead source call s bytes buffer t) (hlen : 2 ≤ call.len) :
    bytes = [] ↔ source.content s = [] := by
  rw [h.line]
  exact line_eq_nil_iff (by omega)

/-- Calls without `chomp`: what they store goes on where the stream has come to. -/
theorem fgetsCalls_spec (source : ByteSource σ) (s : σ) (calls : List FgetsCall)
    (hcalls : ∀ call ∈ calls, call.chomp = false ∧ 2 ≤ call.len ∧ call.len < 2 ^ 31) :
    ∃ q, Yields
        (fun fuel => runCalls (fun call s => wandioFgets source.toSource call s fuel) calls s) q ∧
      (source.content s = lines q.1 ++ source.content q.2 ∧
        Each (fun before e => e.2.1 = 0 ↔ lines before = source.content s) q.1) ∧
      q.1.map Prod.fst = calls := by
  refine runCalls_total (I := fun log t => source.content s = lines log ++ source.content t ∧
    Each (fun before e => e.2.1 = 0 ↔ lines before = source.content s) log) ?_ [] ⟨rfl, .nil⟩
  rintro log call t hmem ⟨hcontent, heach⟩
  obtain ⟨hchomp, hlen, hint⟩ := hcalls call hmem
  obtain ⟨bytes, buffer, u, hyields, hread⟩ := fgets_spec source call hlen hint t
  refine ⟨((bytes.length, buffer), u), hyields, ?_, heach.append ?_⟩
  · have hlines : lines (log ++ [(call, ((bytes.length : ℤ), buffer))]) = lines log ++ bytes := by
      rw [lines, List.flatMap_append, List.flatMap_singleton]
      show _ ++ buffer.take ((bytes.length : ℕ) : ℤ).toNat = _
      rw [Int.toNat_natCast, hread.take hchomp]
      rfl
    rw [hlines, List.append_assoc, ← hread.consumed]
    exact hcontent
  · show (bytes.length : ℤ) = 0 ↔ _
    rw [Int.natCast_eq_zero, List.length_eq_zero_iff, hread.eq_nil_iff hlen, hcontent]
    simp

end Calls

/-- A call stores the next bytes of the stream, up to a newline or as many as there is room for,
and a `NUL` behind them, with `chomp` or without; and what the calls of a sequence store is the
stream, which has come to its end when a call returns 0. -/
theorem fgets_lossless (source : ByteSource σ) (s : σ) :
    (∀ (buffer : List Byte) (len : ℤ) (fits : len ≤ buffer.length), 2 ≤ len → len < 2 ^ 31 →
      ∃ bytes : List Byte, (bytes.length : ℤ) ≤ len - 1 ∧ newline ∉ bytes.dropLast ∧
        ((bytes.length : ℤ) < len - 1 →
          bytes.getLast? = some newline ∨ source.content s = bytes) ∧
        (bytes = [] ↔ source.content s = []) ∧
        ∀ chomp, (stored (chomped chomp bytes) buffer).length = buffer.length ∧
          ∃ t, source.content s = bytes ++ source.content t ∧
            Yields (wandioGenericFgets source.toSource ⟨buffer, len, chomp, fits⟩ s)
              (((bytes.length : ℤ), stored (chomped chomp bytes) buffer), t)) ∧
    ∀ calls : List FgetsCall,
      (∀ call ∈ calls, call.chomp = false ∧ 2 ≤ call.len ∧ call.len < 2 ^ 31) →
      ∃ log t, Yields
          (fun fuel => runCalls (fun call s => wandioFgets source.toSource call s fuel) calls s)
          (log, t) ∧
        log.map Prod.fst = calls ∧ source.content s = lines log ++ source.content t ∧
        ∀ before e after, log = before ++ e :: after →
          (e.2.1 = 0 ↔ lines before = source.content s) := by
  constructor
  · intro buffer len fits hlen hint
    have hcall : ∀ chomp, ∃ t, source.content s =
        line (len - 1).toNat (source.content s) ++ source.content t ∧
        Yields (wandioGenericFgets source.toSource ⟨buffer, len, chomp, fits⟩ s)
          ((((line (len - 1).toNat (source.content s)).length : ℤ),
            stored (chomped chomp (line (len - 1).toNat (source.content s))) buffer), t) := by
      intro chomp
      obtain ⟨bytes, _, t, hyields, hread⟩ :=
        fgets_spec source ⟨buffer, len, chomp, fits⟩ hlen hint s
      obtain rfl := hread.line
      rw [hread.buffer] at hyields
      exact ⟨t, hread.consumed, hyields⟩
    have hle := length_line_le (len - 1).toNat (source.content s)
    refine ⟨line (len - 1).toNat (source.content s), by omega, line_dropLast _ _, fun hshort => ?_,
      line_eq_nil_iff (by omega), fun chomp => ⟨?_, hcall chomp⟩⟩
    · exact (line_short (by omega)).imp id Eq.symm
    · apply length_stored
      rw [length_chomped]
      omega
  · intro calls hcalls
    obtain ⟨⟨log, t⟩, hyields, ⟨hcontent, heach⟩, hfst⟩ := fgetsCalls_spec source s calls hcalls
    exact ⟨log, t, hyields, hfst, hcontent, heach⟩

/-- `a`, a newline and `b`: a call that returns 0 comes when all three have been stored, and a
call with `chomp` stores something as well. -/
theorem fgets_lossless_three : ∃ log t,
    Yields (fun fuel => runCalls (fun call s => wandioFgets chunked.toSource call s fuel)
      (List.replicate 3 ⟨[7, 7, 7, 7], 4, false, by decide⟩) ([97, 10, 98], [])) (log, t) ∧
    (∀ e ∈ log, e.2.1 = 0 → lines log = [97, 10, 98]) ∧
    ∃ n buffer u, Yields (wandioGenericFgets chunked.toSource ⟨[7, 7, 7, 7], 4, true, by decide⟩
      ([97, 10, 98], [])) ((n, buffer), u) ∧ 0 < n ∧ n ≤ 3 := by
  obtain ⟨hone, hall⟩ := fgets_lossless chunked ([97, 10, 98], [])
  obtain ⟨log, t, hyields, -, hcontent, hzero⟩ :=
    hall (List.replicate 3 ⟨[7, 7, 7, 7], 4, false, by decide⟩) (by simp)
  refine ⟨log, t, hyields, fun e he hret => ?_, ?_⟩
  · obtain ⟨before, after, hsplit⟩ := List.append_of_mem he
    have hbefore := (hzero before e after hsplit).mp hret
    have hbegins : lines before <+: lines log := by
      rw [hsplit, lines, lines, List.flatMap_append]
      exact List.prefix_append _ _
    rw [hbefore] at hbegins
    have hback : lines log <+: [97, 10, 98] := ⟨_, hcontent.symm⟩
    exact (hbegins.eq_of_length_le hback.length_le).symm
  · obtain ⟨bytes, hle, -, -, hnil, hcalls⟩ :=
      hone [7, 7, 7, 7] 4 (by decide) (by decide) (by decide)
    obtain ⟨-, u, -, hcall⟩ := hcalls true
    have hne : bytes ≠ [] := fun h => absurd (hnil.mp h) (by simp [chunked])
    have hpos := List.length_pos_iff.mpr hne
    exact ⟨_, _, u, hcall, by omega, hle⟩

end Wandio.LineReader
