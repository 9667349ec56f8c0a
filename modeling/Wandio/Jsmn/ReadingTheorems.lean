import Wandio.Jsmn.ResumeTheorems

/-!
# Reading without an array

Where a text is read to does not depend on what the tokens hold: it is enough to know which
brackets are open. So the number of tokens of a text can be counted without an array, and an array
of that size is large enough.
-/

namespace Wandio.Jsmn

open Loop

/-- What is known of a text that has been read up to `pos`: the types of the open tokens, the
innermost first, and the number of tokens. -/
structure Reading where
  pos : ℕ
  opened : List TokType
  count : ℕ

/-- One more token, and the position behind it. -/
def Reading.add (r : Reading) (tok : Tok) (pos : ℕ) : Reading :=
  ⟨pos, if tok.isOpen then tok.type :: r.opened else r.opened, r.count + 1⟩

/-- What comes of a scan. -/
def Reading.scanned (r : Reading) (type : TokType) (start : ℤ) (next : ℕ → ℕ) :
    Scan → Turn Reading ℕ
  | .found pos => .next (r.add ⟨type, start, cInt pos, 0⟩ (next pos))
  | .inval | .part => .done r.count

/-- Reading on at `pos`, in a turn that ends the reading with the number of tokens, or not. -/
def readBody (js : List Byte) (fuel : ℕ) (r : Reading) : Option (Turn Reading ℕ) :=
  match caseAt js r.pos with
  | .stop => some (.done r.count)
  | .opening type => some (.next (r.add ⟨type, cInt r.pos, -1, 0⟩ (cUInt (r.pos + 1))))
  | .closing type =>
    match r.opened with
    | [] => some (.done r.count)
    | top :: outer =>
      if top ≠ type then some (.done r.count)
      else
        -- a token whose end is -1 is not closed by it
        some (.next
          { r with
            pos := cUInt (r.pos + 1)
            opened := if cInt (r.pos + 1) = -1 then top :: outer else outer })
  | .quote =>
    (loop (stringBody js) fuel (cUInt (r.pos + 1))).map
      (r.scanned .string (cInt (r.pos + 1)) fun pos => cUInt (pos + 1))
  | .blank | .colon | .comma => some (.next { r with pos := cUInt (r.pos + 1) })
  | .other =>
    (loop (primitiveBody js) fuel r.pos).map (r.scanned .primitive (cInt r.pos) cUInt)

/-- The number of tokens of a text up to its end, its first zero or its first error. -/
def countTokens (js : List Byte) (fuel : ℕ) : Option ℕ := nested (readBody js) fuel ⟨0, [], 0⟩

/-- A turn of reading. -/
def ReadTurn (js : List Byte) (r : Reading) (turn : Turn Reading ℕ) : Prop :=
  Yields (fun fuel => readBody js fuel r) turn

/-! ## Open tokens -/

/-- The types of the open tokens, the innermost first. -/
def openTypes (tokens : List Tok) : List TokType :=
  ((tokens.filter Tok.isOpen).map Tok.type).reverse

section Open

variable {tokens : List Tok} {tok : Tok} {i : ℕ} {f : Tok → Bool}

theorem openTypes_append (tokens tokens' : List Tok) :
    openTypes (tokens ++ tokens') = openTypes tokens' ++ openTypes tokens := by
  simp [openTypes]

theorem openTypes_cons (tok : Tok) (tokens : List Tok) :
    openTypes (tok :: tokens) =
      openTypes tokens ++ if tok.isOpen then [tok.type] else [] := by
  rw [openTypes, List.filter_cons]
  split <;> simp [openTypes]

theorem openTypes_eq_nil (h : ∀ t ∈ tokens, t.isOpen = false) : openTypes tokens = [] := by
  rw [openTypes, List.filter_eq_nil_iff.mpr fun t ht => by rw [h t ht]; decide]
  rfl

/-- A change that leaves a token open or closed. -/
theorem openTypes_modify {g : Tok → Tok} (hopen : ∀ t, (g t).isOpen = t.isOpen)
    (htype : ∀ t, (g t).type = t.type) (tokens : List Tok) (i : ℕ) :
    openTypes (tokens.modify i g) = openTypes tokens := by
  induction tokens generalizing i with
  | nil => rw [List.modify_nil]
  | cons t tokens ih =>
    cases i with
    | zero => rw [List.modify_zero_cons, openTypes_cons, openTypes_cons, hopen, htype]
    | succ i => rw [List.modify_succ_cons, openTypes_cons, openTypes_cons, ih]

theorem openTypes_grow (p : Parser) : openTypes p.grow.tokens = openTypes p.tokens := by
  unfold Parser.grow
  split
  · rfl
  · apply openTypes_modify
    · exact fun _ => rfl
    · exact fun _ => rfl

/-- No token has the property. -/
theorem lastToken_eq_none {n : ℕ} (h : lastToken f tokens n = none) (hn : n ≤ tokens.length) :
    ∀ t ∈ tokens.take n, f t = false := by
  induction n with
  | zero => simp
  | succ n ih =>
    rw [lastToken, List.getElem?_eq_getElem (by omega)] at h
    split at h
    · contradiction
    · next hlast =>
      intro t ht
      rw [List.take_succ_eq_append_getElem (by omega), List.mem_append, List.mem_singleton] at ht
      rcases ht with ht | rfl
      · exact ih h (by omega) t ht
      · simpa using hlast

/-- The last token with the property, and those before and behind it. -/
theorem lastToken_eq_some {n : ℕ} (h : lastToken f tokens n = some i) (hn : n ≤ tokens.length) :
    ∃ before tok behind, tokens.take n = before ++ tok :: behind ∧ before.length = i ∧
      f tok = true ∧ ∀ t ∈ behind, f t = false := by
  induction n with
  | zero => contradiction
  | succ n ih =>
    rw [lastToken, List.getElem?_eq_getElem (by omega)] at h
    have htake := List.take_succ_eq_append_getElem (l := tokens) (show n < tokens.length by omega)
    split at h
    · next hlast =>
      obtain rfl := Option.some.inj h
      refine ⟨tokens.take n, tokens[n], [], htake, ?_, by simpa using hlast, by simp⟩
      rw [List.length_take, Nat.min_eq_left (by omega)]
    · next hlast =>
      obtain ⟨before, tok, behind, heq, hlen, htok, hbehind⟩ := ih h (by omega)
      refine ⟨before, tok, behind ++ [tokens[n]], ?_, hlen, htok, ?_⟩
      · rw [htake, heq]
        simp
      · intro t ht
        rcases List.mem_append.mp ht with ht | ht
        · exact hbehind t ht
        · rw [List.mem_singleton.mp ht]
          simpa using hlast

end Open

/-! ## Side by side -/

/-- A reading that has come as far as a parser. -/
structure Tracks (p : Parser) (r : Reading) : Prop where
  pos : r.pos = p.pos
  opened : r.opened = openTypes p.tokens
  count : r.count = p.toknext

/-- What the parser and the reading do in one turn: both are at a loss, both stop, both go on, or
the parser has no room for the next token. -/
inductive SideBySide (n : ℕ) (p : Parser) (r : Reading) :
    Option (Turn (Parser × ℤ) (ℤ × Parser)) → Option (Turn Reading ℕ) → Prop where
  | none : SideBySide n p r none none
  | done {x : ℤ} (hx : x ≠ JsmnErr.nomem.code) :
    SideBySide n p r (some (.done (x, p))) (some (.done r.count))
  | next {q : Parser} {c : ℤ} {r' : Reading} (h : Tracks q r') (hroom : q.toknext ≤ n) :
    SideBySide n p r (some (.next (q, c))) (some (.next r'))
  | full {r' : Reading} (hfull : n < r'.count) :
    SideBySide n p r (some (.done (JsmnErr.nomem.code, p))) (some (.next r'))

section Lockstep

variable {js : List Byte} {n fuel pos : ℕ} {p q : Parser} {r : Reading} {type : TokType} {count : ℤ}
  {tok : Tok}

theorem openTypes_toknext (hlast : lastToken Tok.isOpen p.tokens p.toknext = none) :
    openTypes p.tokens = [] := by
  apply openTypes_eq_nil
  intro t ht
  apply lastToken_eq_none hlast le_rfl
  rwa [Parser.toknext, List.take_length]

theorem modify_length {α : Type} (before : List α) (a : α) (behind : List α) (g : α → α) :
    (before ++ a :: behind).modify before.length g = before ++ g a :: behind := by
  have h := List.modifyTailIdx_add (List.modifyHead g) 0 before (a :: behind)
  rwa [Nat.add_zero] at h

/-- What a closing bracket does is decided by the innermost open token. -/
theorem closeToken_eq (p : Parser) (type : TokType) :
    (closeToken p type = none ∧ ∀ top outer, openTypes p.tokens = top :: outer → top ≠ type) ∨
      ∃ outer q, openTypes p.tokens = type :: outer ∧ closeToken p type = some q ∧
        q.pos = p.pos ∧ q.toknext = p.toknext ∧
        openTypes q.tokens = if cInt (p.pos + 1) = -1 then type :: outer else outer := by
  cases hlast : lastToken Tok.isOpen p.tokens p.toknext with
  | none =>
    left
    refine ⟨by simp only [closeToken, hlast], ?_⟩
    rw [openTypes_toknext hlast]
    nofun
  | some i =>
    obtain ⟨before, tok, behind, heq, hlen, htok, hbehind⟩ := lastToken_eq_some hlast le_rfl
    rw [Parser.toknext, List.take_length] at heq
    have htypes : openTypes p.tokens = tok.type :: openTypes before := by
      rw [heq, openTypes_append, openTypes_cons, openTypes_eq_nil hbehind, htok]
      rfl
    have hget : p.tokens[i]? = some tok := by
      rw [heq, ← hlen]
      simp
    by_cases htype : tok.type = type
    · right
      have hgoes : closeToken p type = some
          { p with
            tokens := p.tokens.modify i fun t => { t with stop := cInt (p.pos + 1) }
            toksuper := indexOrNone (lastToken Tok.isOpen
              (p.tokens.modify i fun t => { t with stop := cInt (p.pos + 1) }) (i + 1)) } := by
        simp only [closeToken, hlast, hget, Option.any_some]
        rw [if_neg (by simpa using htype)]
      have hstart : tok.start ≠ -1 := by
        simp only [Tok.isOpen, decide_eq_true_eq] at htok
        exact htok.1
      refine ⟨openTypes before, _, htype ▸ htypes, hgoes, rfl, ?_, ?_⟩
      · simp [Parser.toknext]
      · show openTypes (p.tokens.modify i _) = _
        rw [heq, ← hlen, modify_length, openTypes_append, openTypes_cons,
          openTypes_eq_nil hbehind, List.nil_append, ← htype]
        by_cases hend : cInt (p.pos + 1) = -1
        · rw [if_pos hend, if_pos (by simp [Tok.isOpen, hstart, hend])]
          rfl
        · rw [if_neg hend, if_neg (by simp [Tok.isOpen, hend])]
          rfl
    · left
      constructor
      · simp only [closeToken, hlast, hget, Option.any_some]
        rw [if_pos (by simpa using htype)]
      · rintro top outer h
        rw [htypes] at h
        exact (List.cons.inj h).1 ▸ htype

/-- One more token at the end of the array. -/
theorem Tracks.add (h : Tracks p r) (hq : q.tokens = p.tokens ++ [tok]) (hpos : q.pos = pos) :
    Tracks q (r.add tok pos) := by
  refine ⟨hpos.symm, ?_, ?_⟩
  · show (if tok.isOpen then tok.type :: r.opened else r.opened) = _
    rw [hq, openTypes_append, openTypes_cons, h.opened]
    split <;> rfl
  · show r.count + 1 = q.toknext
    rw [Parser.toknext, hq, List.length_append, List.length_singleton, h.count]
    rfl

theorem Tracks.grow (h : Tracks p r) : Tracks p.grow r := by
  refine ⟨h.pos.trans ?_, h.opened.trans (openTypes_grow p).symm,
    h.count.trans (toknext_grow p).symm⟩
  unfold Parser.grow
  split <;> rfl

/-- The superior token is of no account, and the reading goes on behind the character. -/
theorem Tracks.advance (h : Tracks p r) (htokens : q.tokens = p.tokens) (hpos : q.pos = p.pos) :
    Tracks q.advance { r with pos := cUInt (r.pos + 1) } := by
  refine ⟨?_, ?_, ?_⟩
  · show cUInt (r.pos + 1) = cUInt (q.pos + 1)
    rw [h.pos, hpos]
  · show r.opened = openTypes q.tokens
    rw [h.opened, htokens]
  · show r.count = q.toknext
    rw [h.count, Parser.toknext, Parser.toknext, htokens]

/-- A token for which there is room is put in the array. -/
theorem jsmnAllocToken_eq (n : ℕ) (p : Parser) (tok : Tok) :
    (jsmnAllocToken n p tok = none ∧ n ≤ p.toknext) ∨
      (jsmnAllocToken n p tok = some { p with tokens := p.tokens ++ [tok] } ∧ p.toknext < n) := by
  unfold jsmnAllocToken
  by_cases hn : n ≤ p.toknext
  · exact .inl ⟨if_pos hn, hn⟩
  · exact .inr ⟨if_neg hn, by omega⟩

/-- There is no room for a token that the reading counts. -/
theorem sideBySide_full (h : Tracks p r) (hle : n ≤ p.toknext) (tok : Tok) (pos : ℕ) :
    SideBySide n p r (some (.done (JsmnErr.nomem.code, p))) (some (.next (r.add tok pos))) := by
  apply SideBySide.full
  show n < r.count + 1
  rw [h.count]
  omega

/-- A string or a primitive that has been put in the array. -/
theorem sideBySide_token (h : Tracks p r) (hlt : p.toknext < n) (count : ℤ)
    (hq : q.tokens = p.tokens ++ [tok]) (hpos : cUInt (q.pos + 1) = pos) :
    SideBySide n p r (some (parsedToken count (0, q))) (some (.next (r.add tok pos))) := by
  have hgrow := (h.add hq rfl).grow
  rw [parsedToken, if_neg (lt_irrefl 0)]
  apply SideBySide.next
  · refine ⟨?_, hgrow.opened, hgrow.count⟩
    show pos = cUInt (q.grow.pos + 1)
    rw [← hgrow.pos]
    exact hpos.symm
  · rw [toknext_advance, toknext_grow, Parser.toknext, hq, List.length_append,
      List.length_singleton]
    exact hlt

/-- A scan. -/
theorem sideBySide_scanned (h : Tracks p r) (count start : ℤ) (type : TokType) {next next' : ℕ → ℕ}
    (hnext : ∀ pos, cUInt (next pos + 1) = next' pos) (scan : Option Scan) :
    SideBySide n p r
      ((scan.map (scanned n p (fun pos => ⟨type, start, cInt pos, 0⟩) next)).map
        (parsedToken count))
      (scan.map (r.scanned type start next')) := by
  cases scan with
  | none => exact .none
  | some scan =>
    cases scan with
    | inval => exact .done (by decide)
    | part => exact .done (by decide)
    | found pos =>
      simp only [Option.map_some, scanned, Reading.scanned]
      rcases jsmnAllocToken_eq n p ⟨type, start, cInt pos, 0⟩ with
        ⟨halloc, hfull⟩ | ⟨halloc, hlt⟩
      · rw [halloc]
        exact sideBySide_full h hfull _ _
      · rw [halloc]
        exact sideBySide_token h hlt count rfl (hnext pos)

/-- The counter is not taken for the error as long as the array is not too large. -/
theorem cInt_ne_nomem {k : ℕ} (hk : k ≤ 2 ^ 31) : cInt k ≠ JsmnErr.nomem.code := by
  show cInt k ≠ -1
  unfold cInt
  rw [Int.bmod_def]
  omega

/-- The parser and the reading, one turn. -/
theorem sideBySide (js : List Byte) (h : Tracks p r) (hcount : count = cInt p.toknext)
    (hle : p.toknext ≤ n) (hn : n ≤ 2 ^ 31) (fuel : ℕ) :
    SideBySide n p r (parseBody js n fuel p count) (readBody js fuel r) := by
  have hadvance : ∀ q : Parser, q.tokens = p.tokens → q.pos = p.pos →
      Tracks q.advance { r with pos := cUInt (p.pos + 1) } :=
    fun q htokens hpos => h.pos ▸ h.advance htokens hpos
  unfold parseBody readBody
  rw [h.pos]
  cases caseAt js p.pos with
  | stop =>
    simp only [parseEnd]
    split
    · exact .done (by decide)
    · exact .done (hcount ▸ cInt_ne_nomem (hle.trans hn))
  | opening type =>
    simp only [openToken]
    rcases jsmnAllocToken_eq n p ⟨type, cInt p.pos, -1, 0⟩ with ⟨halloc, hfull⟩ | ⟨halloc, hlt⟩
    · rw [halloc]
      exact sideBySide_full h hfull _ _
    · rw [halloc]
      set q : Parser := { p with tokens := p.tokens ++ [⟨type, cInt p.pos, -1, 0⟩] } with hq
      have hgrow := (h.add (q := q) rfl rfl).grow
      apply SideBySide.next
      · refine ⟨?_, hgrow.opened, hgrow.count⟩
        show cUInt (p.pos + 1) = cUInt (q.grow.pos + 1)
        rw [← hgrow.pos]
        rfl
      · show q.grow.toknext ≤ n
        rw [toknext_grow, Parser.toknext, hq, List.length_append, List.length_singleton]
        exact hlt
  | closing type =>
    rcases closeToken_eq p type with ⟨hclose, htop⟩ | ⟨outer, q, htypes, hclose, hpos, htok, hopen⟩
    · simp only [hclose]
      cases hopened : r.opened with
      | nil => exact .done (by decide)
      | cons top outer =>
        rw [h.opened] at hopened
        simp only [ne_eq, htop top outer hopened, not_false_iff, if_true]
        exact .done (by decide)
    · simp only [hclose, h.opened, htypes, ne_eq, not_true_eq_false, if_false]
      apply SideBySide.next
      · refine ⟨?_, ?_, ?_⟩
        · show cUInt (p.pos + 1) = cUInt (q.pos + 1)
          rw [hpos]
        · show _ = openTypes q.tokens
          rw [hopen]
        · exact h.count.trans htok.symm
      · rw [toknext_advance, htok]
        exact hle
  | quote =>
    simp only [jsmnParseString_eq]
    exact sideBySide_scanned h count _ .string (fun _ => rfl) _
  | blank => exact .next (hadvance p rfl rfl) hle
  | colon => exact .next (hadvance _ rfl rfl) hle
  | comma =>
    have htokens : (commaToken p).tokens = p.tokens ∧ (commaToken p).pos = p.pos := by
      unfold commaToken
      split
      · split <;> exact ⟨rfl, rfl⟩
      · exact ⟨rfl, rfl⟩
    apply SideBySide.next (hadvance _ htokens.1 htokens.2)
    rw [toknext_advance, toknext_commaToken]
    exact hle
  | other =>
    simp only [jsmnParsePrimitive_eq]
    apply sideBySide_scanned h count _ .primitive
    intro pos
    unfold cUInt
    omega

end Lockstep

/-! ## Room enough -/

section Room

variable {js : List Byte} {n c : ℕ} {s : Parser × ℤ} {r r' : Reading} {x : ℤ × Parser}

theorem readBody_steady (js : List Byte) (r : Reading) : Steady fun fuel => readBody js fuel r := by
  unfold readBody
  cases caseAt js r.pos with
  | quote => exact (Steady.loop _ _).map _
  | other => exact (Steady.loop _ _).map _
  | _ => exact Steady.const _

theorem countTokens_yields_iff :
    Yields (countTokens js) c ↔ Ends (ReadTurn js) ⟨0, [], 0⟩ c :=
  nested_yields_iff (readBody_steady js)

/-- What a turn of reading can do. -/
inductive ReadMove (r : Reading) : Turn Reading ℕ → Prop where
  | done : ReadMove r (.done r.count)
  | token (tok : Tok) (pos : ℕ) : ReadMove r (.next (r.add tok pos))
  | skip (pos : ℕ) (opened : List TokType) : ReadMove r (.next ⟨pos, opened, r.count⟩)

theorem readMove {fuel : ℕ} {turn : Turn Reading ℕ} (h : readBody js fuel r = some turn) :
    ReadMove r turn := by
  unfold readBody at h
  cases hcase : caseAt js r.pos with
  | stop =>
    simp only [hcase] at h
    cases h
    exact .done
  | opening type =>
    simp only [hcase] at h
    cases h
    exact .token _ _
  | closing type =>
    simp only [hcase] at h
    split at h
    · cases h
      exact .done
    · split at h
      · cases h
        exact .done
      · cases h
        exact .skip _ _
  | quote =>
    simp only [hcase, Option.map_eq_some_iff] at h
    obtain ⟨scan, -, rfl⟩ := h
    cases scan with
    | found pos => exact .token _ _
    | _ => exact .done
  | other =>
    simp only [hcase, Option.map_eq_some_iff] at h
    obtain ⟨scan, -, rfl⟩ := h
    cases scan with
    | found pos => exact .token _ _
    | _ => exact .done
  | _ =>
    simp only [hcase] at h
    cases h
    exact .skip _ _

theorem ReadTurn.move {turn : Turn Reading ℕ} (h : ReadTurn js r turn) : ReadMove r turn := by
  obtain ⟨fuel, hfuel⟩ := h
  exact readMove (hfuel fuel le_rfl)

/-- Tokens are not forgotten. -/
theorem count_le_of_ends (h : Ends (ReadTurn js) r c) : r.count ≤ c := by
  induction h with
  | done hturn =>
    cases hturn.move
    exact le_rfl
  | next hturn _ ih =>
    cases hturn.move with
    | token tok pos => exact (Nat.le_succ _).trans ih
    | skip pos opened => exact ih

/-- The turn of the reading beside one of the parser. -/
theorem ParseTurn.beside {turn : Turn (Parser × ℤ) (ℤ × Parser)} (h : ParseTurn js n s turn)
    (hn : n ≤ 2 ^ 31) (hr : Tracks s.1 r) (hs : s.2 = cInt s.1.toknext) (hle : s.1.toknext ≤ n) :
    ∃ turn', ReadTurn js r turn' ∧ SideBySide n s.1 r (some turn) (some turn') := by
  obtain ⟨fuel, hfuel⟩ := h
  have hparse : parseBody js n fuel s.1 s.2 = some turn := hfuel fuel le_rfl
  have hside := sideBySide js hr hs hle hn fuel
  rw [hparse] at hside
  cases hread : readBody js fuel r with
  | none =>
    rw [hread] at hside
    cases hside
  | some turn' =>
    rw [hread] at hside
    exact ⟨turn', (readBody_steady js r).yields_iff.mpr ⟨fuel, hread⟩, hside⟩

/-- The turn of the parser beside one of the reading. -/
theorem ReadTurn.beside {turn' : Turn Reading ℕ} (h : ReadTurn js r turn') (hn : n ≤ 2 ^ 31)
    (hr : Tracks s.1 r) (hs : s.2 = cInt s.1.toknext) (hle : s.1.toknext ≤ n) :
    ∃ turn, ParseTurn js n s turn ∧ SideBySide n s.1 r (some turn) (some turn') := by
  obtain ⟨fuel, hfuel⟩ := h
  have hread : readBody js fuel r = some turn' := hfuel fuel le_rfl
  have hside := sideBySide js hr hs hle hn fuel
  rw [hread] at hside
  cases hparse : parseBody js n fuel s.1 s.2 with
  | none =>
    rw [hparse] at hside
    cases hside
  | some turn =>
    rw [hparse] at hside
    exact ⟨turn, (parseBody_steady js n s.1 s.2).yields_iff.mpr ⟨fuel, hparse⟩, hside⟩

/-- A parser that does not run out of tokens counts them. -/
theorem ends_read_of_ends (h : Ends (ParseTurn js n) s x) (hn : n ≤ 2 ^ 31) (hr : Tracks s.1 r)
    (hs : s.2 = cInt s.1.toknext) (hle : s.1.toknext ≤ n) (hok : x.1 ≠ JsmnErr.nomem.code) :
    ∃ c, Ends (ReadTurn js) r c ∧ c ≤ n := by
  induction h generalizing r with
  | done hturn =>
    obtain ⟨turn, hread, hside⟩ := hturn.beside hn hr hs hle
    cases hside with
    | done hx =>
      refine ⟨r.count, .done hread, ?_⟩
      rw [hr.count]
      exact hle
    | full hfull => exact absurd rfl hok
  | next hturn _ ih =>
    obtain ⟨turn, hread, hside⟩ := hturn.beside hn hr hs hle
    cases hside with
    | next htracks hroom =>
      obtain ⟨c, hends, hc⟩ := ih htracks (hturn.next hs) hroom hok
      exact ⟨c, .next hread hends, hc⟩

/-- An array for all tokens of a text is large enough. -/
theorem ends_of_ends_read (h : Ends (ReadTurn js) r c) (hn : n ≤ 2 ^ 31) (hc : c ≤ n)
    (hr : Tracks s.1 r) (hs : s.2 = cInt s.1.toknext) (hle : s.1.toknext ≤ n) :
    ∃ x, Ends (ParseTurn js n) s x ∧ x.1 ≠ JsmnErr.nomem.code := by
  induction h generalizing s with
  | done hturn =>
    obtain ⟨turn, hparse, hside⟩ := hturn.beside hn hr hs hle
    cases hside with
    | done hx => exact ⟨_, .done hparse, hx⟩
  | next hturn hrest ih =>
    obtain ⟨turn, hparse, hside⟩ := hturn.beside hn hr hs hle
    cases hside with
    | @next q k _ htracks hroom =>
      have hcount : k = cInt q.toknext := ParseTurn.next hparse hs
      obtain ⟨x, hends, hx⟩ := ih hc (s := (q, k)) htracks hcount hroom
      exact ⟨x, .next hparse hends, hx⟩
    | full hfull =>
      have := count_le_of_ends hrest
      omega

end Room

/-! ## Short texts -/

/-- The text has its first zero, or its end, at `k` or before. -/
def EndsAt (js : List Byte) (k : ℕ) : Prop := (js[k]?).all (· = 0)

section Short

variable {js : List Byte} {k pos next : ℕ} {c : Byte}

theorem EndsAt.lt (h : EndsAt js k) (hle : pos ≤ k) (hget : js[pos]? = some c) (hc : c ≠ 0) :
    pos < k := by
  rcases Nat.lt_or_ge pos k with hlt | hge
  · exact hlt
  · obtain rfl : pos = k := by omega
    rw [EndsAt, hget] at h
    simp [hc] at h

theorem EndsAt.cUInt_succ (hk : k < 2 ^ 32) (hlt : pos < k) : cUInt (pos + 1) = pos + 1 :=
  cUInt_of_lt (by omega)

theorem hexDigits_le (h : EndsAt js k) (hk : k < 2 ^ 32) {i : ℕ} (hle : pos ≤ k)
    (hnext : hexDigits js i pos = some next) : pos ≤ next ∧ next ≤ k := by
  induction i generalizing pos with
  | zero =>
    obtain rfl := Option.some.inj hnext
    exact ⟨le_rfl, hle⟩
  | succ i ih =>
    rw [hexDigits] at hnext
    split at hnext
    · obtain rfl := Option.some.inj hnext
      exact ⟨le_rfl, hle⟩
    · next c hget =>
      split_ifs at hnext with hzero
      · obtain rfl := Option.some.inj hnext
        exact ⟨le_rfl, hle⟩
      · have hlt := h.lt hle hget hzero
        rw [EndsAt.cUInt_succ hk hlt] at hnext
        have hstep := ih hlt hnext
        omega

/-- A turn over the characters of a string stays in the text. -/
theorem stringBody_next (h : EndsAt js k) (hk : k < 2 ^ 32) (hle : pos ≤ k)
    (hbody : stringBody js pos = .next next) : pos < next ∧ next ≤ k := by
  unfold stringBody at hbody
  split at hbody
  · contradiction
  · next c hget =>
    split_ifs at hbody with hzero hquote hescape
    · have hlt := h.lt hle hget hzero
      rw [EndsAt.cUInt_succ hk hlt] at hbody
      simp only at hbody
      split at hbody
      · contradiction
      · next c' hget' =>
        split_ifs at hbody with hsimple hu
        · have hlt' := h.lt hlt hget' (by rintro rfl; revert hsimple; decide)
          rw [EndsAt.cUInt_succ hk hlt'] at hbody
          cases hbody
          omega
        · have hlt' := h.lt hlt hget' (by rintro rfl; revert hu; decide)
          rw [EndsAt.cUInt_succ hk hlt'] at hbody
          split at hbody
          · contradiction
          · next pos' hdigits =>
            cases hbody
            have hhex := hexDigits_le h hk (by omega) hdigits
            omega
    · have hlt := h.lt hle hget hzero
      rw [EndsAt.cUInt_succ hk hlt] at hbody
      cases hbody
      omega

/-- A string of a text that ends is scanned to an end. -/
theorem string_scan (h : EndsAt js k) (hk : k < 2 ^ 32) {start : ℕ} (hle : start ≤ k) :
    ∃ scan, Yields (fun fuel => loop (stringBody js) fuel start) scan ∧
      ∀ pos, scan = .found pos → start ≤ pos ∧ pos < k := by
  apply loop_total (fun pos => k - pos) (I := fun pos => start ≤ pos ∧ pos ≤ k) _ _ ⟨le_rfl, hle⟩
  · intro pos next hpos hbody
    have hnext := stringBody_next h hk hpos.2 hbody
    exact ⟨⟨by omega, hnext.2⟩, by omega⟩
  · intro pos scan hpos hbody found hfound
    subst hfound
    unfold stringBody at hbody
    split at hbody
    · cases hbody
    · next c hget =>
      split_ifs at hbody with hzero hquote hescape
      · cases hbody
      · cases hbody
        exact ⟨hpos.1, h.lt hpos.2 hget hzero⟩
      · simp only at hbody
        split at hbody
        · cases hbody
        · split_ifs at hbody
          · split at hbody <;> cases hbody
          · cases hbody

/-- What starts a primitive does not end it. -/
theorem caseAt_other (h : caseAt js pos = .other) :
    ∃ c, js[pos]? = some c ∧ ¬ (c = 0 ∨ endsPrimitive c) := by
  unfold caseAt at h
  cases hget : js[pos]? with
  | none =>
    rw [hget] at h
    cases h
  | some c =>
    rw [hget, Option.elim_some] at h
    refine ⟨c, rfl, fun hc => ?_⟩
    have hmem : c = 0x00 ∨ c = 0x3a ∨ c = 0x09 ∨ c = 0x0d ∨ c = 0x0a ∨ c = 0x20 ∨ c = 0x2c ∨
        c = 0x5d ∨ c = 0x7d := by
      simpa [endsPrimitive] using hc
    -- each of them has a case of its own
    rcases hmem with rfl | rfl | rfl | rfl | rfl | rfl | rfl | rfl | rfl <;>
      exact absurd h (by decide)

/-- So is a primitive; it has at least one character, unless it starts with what ends it. -/
theorem primitive_scan (h : EndsAt js k) (hk : k < 2 ^ 32) {start : ℕ} (hle : start ≤ k)
    (hother : caseAt js start = .other) :
    ∃ scan, Yields (fun fuel => loop (primitiveBody js) fuel start) scan ∧
      ∀ pos, scan = .found pos → start < pos ∧ pos ≤ k := by
  apply loop_total (fun pos => k - pos) (I := fun pos => start ≤ pos ∧ pos ≤ k) _ _ ⟨le_rfl, hle⟩
  · intro pos next hpos hbody
    unfold primitiveBody at hbody
    split at hbody
    · contradiction
    · next c hget =>
      split_ifs at hbody with hend
      have hlt := h.lt hpos.2 hget (fun hc => hend (.inl hc))
      rw [EndsAt.cUInt_succ hk hlt] at hbody
      cases hbody
      omega
  · intro pos scan hpos hbody found hfound
    subst hfound
    have hstart : pos ≠ start := by
      rintro rfl
      obtain ⟨c, hget, hc⟩ := caseAt_other hother
      simp only [primitiveBody, hget, if_neg hc] at hbody
      split_ifs at hbody
      cases hbody
    unfold primitiveBody at hbody
    split at hbody
    · cases hbody
      omega
    · split_ifs at hbody
      · cases hbody
        omega
      · cases hbody

/-- A reading with no more tokens than characters takes a turn, and stays one. -/
theorem exists_readTurn (h : EndsAt js k) (hk : k < 2 ^ 32) (r : Reading) (hle : r.pos ≤ k)
    (hcount : r.count ≤ r.pos) :
    ∃ turn, ReadTurn js r turn ∧ ∀ r', turn = .next r' →
      r.pos < r'.pos ∧ r'.pos ≤ k ∧ r'.count ≤ r'.pos := by
  have hlt : caseAt js r.pos ≠ .stop → r.pos < k := by
    intro hcase
    cases hget : js[r.pos]? with
    | none => exact absurd (by rw [caseAt, hget]; rfl) hcase
    | some c =>
      refine h.lt hle hget fun hzero => hcase ?_
      rw [caseAt, hget, hzero]
      rfl
  have hpure : ∀ turn, (∀ fuel, readBody js fuel r = some turn) → ReadTurn js r turn :=
    fun turn hturn => ⟨0, fun fuel _ => hturn fuel⟩
  -- behind a character there is at most one token more than before
  have hmove : ∀ r' : Reading, caseAt js r.pos ≠ .stop → r'.pos = cUInt (r.pos + 1) →
      r'.count ≤ r.count + 1 → r.pos < r'.pos ∧ r'.pos ≤ k ∧ r'.count ≤ r'.pos := by
    intro r' hcase hpos hle'
    have hpos' := hlt hcase
    rw [EndsAt.cUInt_succ hk hpos'] at hpos
    omega
  cases hcase : caseAt js r.pos with
  | stop =>
    refine ⟨.done r.count, hpure _ fun fuel => ?_, nofun⟩
    simp only [readBody, hcase]
  | opening type =>
    refine ⟨.next (r.add ⟨type, cInt r.pos, -1, 0⟩ (cUInt (r.pos + 1))), hpure _ fun fuel => ?_, ?_⟩
    · simp only [readBody, hcase]
    · intro r' hr'
      obtain rfl := Turn.next.inj hr'
      exact hmove _ (by simp [hcase]) rfl le_rfl
  | closing type =>
    cases hopened : r.opened with
    | nil =>
      refine ⟨.done r.count, hpure _ fun fuel => ?_, nofun⟩
      simp only [readBody, hcase, hopened]
    | cons top outer =>
      by_cases htop : top = type
      · refine ⟨.next ⟨cUInt (r.pos + 1), if cInt (r.pos + 1) = -1 then top :: outer else outer,
          r.count⟩, hpure _ fun fuel => ?_, ?_⟩
        · simp only [readBody, hcase, hopened, htop, ne_eq, not_true_eq_false, if_false]
        · intro r' hr'
          obtain rfl := Turn.next.inj hr'
          exact hmove _ (by simp [hcase]) rfl (Nat.le_succ _)
      · refine ⟨.done r.count, hpure _ fun fuel => ?_, nofun⟩
        simp only [readBody, hcase, hopened, ne_eq, htop, not_false_iff, if_true]
  | quote =>
    have hpos := hlt (by simp [hcase])
    obtain ⟨scan, hscan, hfound⟩ := string_scan h hk (show cUInt (r.pos + 1) ≤ k by
      rw [EndsAt.cUInt_succ hk hpos]
      omega)
    refine ⟨r.scanned .string (cInt (r.pos + 1)) (fun pos => cUInt (pos + 1)) scan, ?_, ?_⟩
    · unfold ReadTurn readBody
      rw [hcase]
      exact hscan.map _
    · intro r' hr'
      cases scan with
      | found pos =>
        obtain rfl := Turn.next.inj hr'
        obtain ⟨hstart, hend⟩ := hfound pos rfl
        rw [EndsAt.cUInt_succ hk hpos] at hstart
        show r.pos < cUInt (pos + 1) ∧ cUInt (pos + 1) ≤ k ∧ r.count + 1 ≤ cUInt (pos + 1)
        rw [EndsAt.cUInt_succ hk hend]
        omega
      | _ => cases hr'
  | other =>
    obtain ⟨scan, hscan, hfound⟩ := primitive_scan h hk hle hcase
    refine ⟨r.scanned .primitive (cInt r.pos) cUInt scan, ?_, ?_⟩
    · unfold ReadTurn readBody
      rw [hcase]
      exact hscan.map _
    · intro r' hr'
      cases scan with
      | found pos =>
        obtain rfl := Turn.next.inj hr'
        obtain ⟨hstart, hend⟩ := hfound pos rfl
        show r.pos < cUInt pos ∧ cUInt pos ≤ k ∧ r.count + 1 ≤ cUInt pos
        rw [cUInt_of_lt (by omega)]
        omega
      | _ => cases hr'
  | _ =>
    refine ⟨.next { r with pos := cUInt (r.pos + 1) }, hpure _ fun fuel => ?_, ?_⟩
    · simp only [readBody, hcase]
    · intro r' hr'
      obtain rfl := Turn.next.inj hr'
      exact hmove _ (by simp [hcase]) rfl (Nat.le_succ _)

/-- A reading of a text that ends comes to an end, with fewer tokens than characters. -/
theorem exists_ends_read (h : EndsAt js k) (hk : k < 2 ^ 32) (r : Reading) (hle : r.pos ≤ k)
    (hcount : r.count ≤ r.pos) : ∃ c, Ends (ReadTurn js) r c ∧ c ≤ k := by
  induction hm : k - r.pos using Nat.strong_induction_on generalizing r with
  | _ m ih =>
    obtain ⟨turn, hturn, hnext⟩ := exists_readTurn h hk r hle hcount
    cases turn with
    | next r' =>
      obtain ⟨hlt, hle', hcount'⟩ := hnext r' rfl
      obtain ⟨c, hc, hck⟩ := ih (k - r'.pos) (by omega) r' hle' hcount' rfl
      exact ⟨c, .next hturn hc, hck⟩
    | done c =>
      cases hturn.move
      exact ⟨_, .done hturn, hcount.trans hle⟩

/-- A text that ends in time has fewer tokens than characters. -/
theorem countTokens_of_endsAt (h : EndsAt js k) (hk : k < 2 ^ 32) :
    ∃ c, Yields (countTokens js) c ∧ c ≤ k := by
  obtain ⟨c, hc, hck⟩ := exists_ends_read h hk ⟨0, [], 0⟩ (Nat.zero_le k) le_rfl
  exact ⟨c, countTokens_yields_iff.mpr hc, hck⟩

end Short

end Wandio.Jsmn
