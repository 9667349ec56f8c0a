import Wandio.Jsmn.Model

/-!
# A parser that is called again

A turn of the parser changes nothing unless it succeeds, and what it does depends on the size of
the array only by `JSMN_ERROR_NOMEM`. A call that was made with too small an array has therefore
come to a state of the call with a larger one, and can be continued there.
-/

namespace Wandio.Jsmn

open Loop

/-- A turn of the loop of `jsmn_parse`. -/
def ParseTurn (js : List Byte) (numTokens : ℕ) (s : Parser × ℤ)
    (turn : Turn (Parser × ℤ) (ℤ × Parser)) : Prop :=
  Yields (fun fuel => parseBody js numTokens fuel s.1 s.2) turn

/-- The state a call of `jsmn_parse` starts in. -/
def Parser.enter (p : Parser) : Parser × ℤ := (p, cInt p.toknext)

section Turns

variable {js : List Byte} {n m fuel : ℕ} {p q : Parser} {count c : ℤ} {r : ℤ}
  {s : Parser × ℤ} {turn : Turn (Parser × ℤ) (ℤ × Parser)}

/-- What comes of a scan: `tok` is the token of what has been found, and `next` the position of the
parser behind it. -/
def scanned (n : ℕ) (p : Parser) (tok : ℕ → Tok) (next : ℕ → ℕ) : Scan → ℤ × Parser
  | .inval => (JsmnErr.inval.code, p)
  | .part => (JsmnErr.part.code, p)
  | .found pos =>
    match jsmnAllocToken n p (tok pos) with
    | none => (JsmnErr.nomem.code, p)
    | some q => (0, { q with pos := next pos })

/-- `jsmn_parse_primitive` is a scan, and what comes of it. -/
theorem jsmnParsePrimitive_eq (js : List Byte) (n : ℕ) (p : Parser) (fuel : ℕ) :
    jsmnParsePrimitive js n p fuel = (loop (primitiveBody js) fuel p.pos).map
      (scanned n p (fun pos => ⟨.primitive, cInt p.pos, cInt pos, 0⟩)
        fun pos => cUInt (pos + (2 ^ 32 - 1))) := by
  unfold jsmnParsePrimitive
  congr 1

/-- `jsmn_parse_string` is a scan, and what comes of it. -/
theorem jsmnParseString_eq (js : List Byte) (n : ℕ) (p : Parser) (fuel : ℕ) :
    jsmnParseString js n p fuel = (loop (stringBody js) fuel (cUInt (p.pos + 1))).map
      (scanned n p (fun pos => ⟨.string, cInt (p.pos + 1), cInt pos, 0⟩) fun pos => pos) := by
  unfold jsmnParseString
  congr 1

theorem jsmnParsePrimitive_steady (js : List Byte) (n : ℕ) (p : Parser) :
    Steady (jsmnParsePrimitive js n p) :=
  (Steady.loop _ _).map _

theorem jsmnParseString_steady (js : List Byte) (n : ℕ) (p : Parser) :
    Steady (jsmnParseString js n p) :=
  (Steady.loop _ _).map _

/-- More fuel does not change what a turn of the parser does. -/
theorem parseBody_steady (js : List Byte) (n : ℕ) (p : Parser) (count : ℤ) :
    Steady fun fuel => parseBody js n fuel p count := by
  unfold parseBody
  cases caseAt js p.pos with
  | quote => exact (jsmnParseString_steady js n p).map _
  | other => exact (jsmnParsePrimitive_steady js n p).map _
  | _ => exact Steady.const _

/-- More fuel does not change the result of a call. -/
theorem jsmnParse_steady (js : List Byte) (n : ℕ) (p : Parser) : Steady (jsmnParse js n p) := by
  have hbody : ∀ s : Parser × ℤ, Steady fun fuel => parseBody js n fuel s.1 s.2 :=
    fun s => parseBody_steady js n s.1 s.2
  exact Steady.nested hbody _

/-- A call of `jsmn_parse` is the turns it takes, up to the one that ends the loop. -/
theorem jsmnParse_yields_iff {x : ℤ × Parser} :
    Yields (jsmnParse js n p) x ↔ Ends (ParseTurn js n) p.enter x := by
  have hbody : ∀ s : Parser × ℤ, Steady fun fuel => parseBody js n fuel s.1 s.2 :=
    fun s => parseBody_steady js n s.1 s.2
  exact nested_yields_iff hbody

/-- There is one turn that can be taken. -/
theorem ParseTurn.unique {turn' : Turn (Parser × ℤ) (ℤ × Parser)} (h : ParseTurn js n s turn)
    (h' : ParseTurn js n s turn') : turn = turn' :=
  Yields.unique h h'

/-- There is one result a call can have. -/
theorem parse_unique {x y : ℤ × Parser} (h : Ends (ParseTurn js n) s x)
    (h' : Ends (ParseTurn js n) s y) : x = y := by
  have hturns : ∀ s turn turn', ParseTurn js n s turn → ParseTurn js n s turn' → turn = turn' :=
    fun _ _ _ => ParseTurn.unique
  exact Ends.unique hturns h h'

/-- A call begins by counting the tokens there are. -/
theorem enter_count (p : Parser) : p.enter.2 = cInt p.enter.1.toknext := by
  rw [Parser.enter]

/-! ## The size of the array -/

/-- A smaller array has the same room for a token, or none. -/
theorem jsmnAllocToken_le (hnm : n ≤ m) (p : Parser) (tok : Tok) :
    jsmnAllocToken n p tok = jsmnAllocToken m p tok ∨ jsmnAllocToken n p tok = none := by
  unfold jsmnAllocToken
  by_cases hn : n ≤ p.toknext
  · rw [if_pos hn]
    exact .inr rfl
  · rw [if_neg hn, if_neg (by omega)]
    exact .inl rfl

/-- What comes of a scan is the same with a smaller array, or the array is too small. -/
theorem scanned_le (hnm : n ≤ m) (p : Parser) (tok : ℕ → Tok) (next : ℕ → ℕ)
    (scan : Option Scan) :
    scan.map (scanned n p tok next) = scan.map (scanned m p tok next) ∨
      scan.map (scanned n p tok next) = some (JsmnErr.nomem.code, p) := by
  cases scan with
  | none => exact .inl rfl
  | some scan =>
    cases scan with
    | inval => exact .inl rfl
    | part => exact .inl rfl
    | found pos =>
      simp only [Option.map_some, scanned]
      rcases jsmnAllocToken_le hnm p (tok pos) with h | h
      · rw [h]
        exact .inl rfl
      · rw [h]
        exact .inr rfl

theorem jsmnParsePrimitive_le (js : List Byte) (hnm : n ≤ m) (p : Parser) (fuel : ℕ) :
    jsmnParsePrimitive js n p fuel = jsmnParsePrimitive js m p fuel ∨
      jsmnParsePrimitive js n p fuel = some (JsmnErr.nomem.code, p) := by
  rw [jsmnParsePrimitive_eq, jsmnParsePrimitive_eq]
  exact scanned_le hnm p _ _ _

theorem jsmnParseString_le (js : List Byte) (hnm : n ≤ m) (p : Parser) (fuel : ℕ) :
    jsmnParseString js n p fuel = jsmnParseString js m p fuel ∨
      jsmnParseString js n p fuel = some (JsmnErr.nomem.code, p) := by
  rw [jsmnParseString_eq, jsmnParseString_eq]
  exact scanned_le hnm p _ _ _

/-- A container is begun with a smaller array as with a larger one, or there is no room. -/
theorem openToken_le (hnm : n ≤ m) (p : Parser) (type : TokType) :
    openToken n p type = openToken m p type ∨ openToken n p type = none := by
  unfold openToken
  rcases jsmnAllocToken_le hnm p ⟨type, cInt p.pos, -1, 0⟩ with h | h
  · rw [h]
    exact .inl rfl
  · rw [h]
    exact .inr rfl

/-- A turn with a smaller array is the same turn, or the array is too small for it. -/
theorem parseBody_le (js : List Byte) (hnm : n ≤ m) (fuel : ℕ) (p : Parser) (count : ℤ) :
    parseBody js n fuel p count = parseBody js m fuel p count ∨
      parseBody js n fuel p count = some (.done (JsmnErr.nomem.code, p)) := by
  have hneg : JsmnErr.nomem.code < 0 := by decide
  unfold parseBody
  cases caseAt js p.pos with
  | opening type =>
    rcases openToken_le hnm p type with h | h
    · exact .inl (by simp only [h])
    · exact .inr (by simp only [h])
  | quote =>
    rcases jsmnParseString_le js hnm p fuel with h | h
    · exact .inl (by simp only [h])
    · exact .inr (by simp only [h, Option.map_some, parsedToken, if_pos hneg])
  | other =>
    rcases jsmnParsePrimitive_le js hnm p fuel with h | h
    · exact .inl (by simp only [h])
    · exact .inr (by simp only [h, Option.map_some, parsedToken, if_pos hneg])
  | _ => exact .inl rfl

/-! ## What a turn does -/

/-- A new token is put behind the others. -/
theorem jsmnAllocToken_eq_some {tok : Tok} (h : jsmnAllocToken n p tok = some q) :
    p.toknext < n ∧ q = { p with tokens := p.tokens ++ [tok] } := by
  unfold jsmnAllocToken at h
  split at h
  · contradiction
  · exact ⟨by omega, (Option.some.inj h).symm⟩

/-- No token comes or goes when a size is raised. -/
theorem toknext_grow (p : Parser) : p.grow.toknext = p.toknext := by
  unfold Parser.grow
  split
  · rfl
  · simp [Parser.toknext]

/-- No token comes or goes when the position is raised. -/
theorem toknext_advance (p : Parser) : p.advance.toknext = p.toknext := rfl

/-- What comes of a string or a primitive: one more token, or the parser as it was. -/
inductive Parsed (n : ℕ) (p : Parser) : ℤ × Parser → Prop where
  | token (tok : Tok) (pos : ℕ) (hroom : p.toknext < n) :
    Parsed n p (0, { p with tokens := p.tokens ++ [tok], pos := pos })
  | error (err : JsmnErr) : Parsed n p (err.code, p)

theorem JsmnErr.code_neg (err : JsmnErr) : err.code < 0 := by
  cases err <;> decide

/-- A scan that finds something makes one token, and another leaves the parser as it was. -/
theorem scanned_parsed (tok : ℕ → Tok) (next : ℕ → ℕ) (scan : Scan) :
    Parsed n p (scanned n p tok next scan) := by
  cases scan with
  | inval => exact .error .inval
  | part => exact .error .part
  | found pos =>
    unfold scanned
    simp only
    split
    · exact .error .nomem
    · next q hq =>
      obtain ⟨hroom, rfl⟩ := jsmnAllocToken_eq_some hq
      exact .token _ _ hroom

/-- A primitive becomes one token, or the parser is as it was. -/
theorem jsmnParsePrimitive_parsed {x : ℤ × Parser}
    (h : jsmnParsePrimitive js n p fuel = some x) : Parsed n p x := by
  rw [jsmnParsePrimitive_eq, Option.map_eq_some_iff] at h
  obtain ⟨scan, -, rfl⟩ := h
  exact scanned_parsed _ _ scan

/-- A string becomes one token, or the parser is as it was. -/
theorem jsmnParseString_parsed {x : ℤ × Parser} (h : jsmnParseString js n p fuel = some x) :
    Parsed n p x := by
  rw [jsmnParseString_eq, Option.map_eq_some_iff] at h
  obtain ⟨scan, -, rfl⟩ := h
  exact scanned_parsed _ _ scan

/-- Beginning an array or an object makes one token. -/
theorem toknext_openToken {type : TokType} (h : openToken n p type = some q) :
    q.toknext = p.toknext + 1 := by
  unfold openToken at h
  rw [Option.map_eq_some_iff] at h
  obtain ⟨u, hu, rfl⟩ := h
  obtain ⟨-, rfl⟩ := jsmnAllocToken_eq_some hu
  show Parser.toknext (Parser.grow _) = _
  rw [toknext_grow, Parser.toknext, List.length_append, List.length_singleton]
  rfl

/-- Ending an array or an object makes no token. -/
theorem toknext_closeToken {type : TokType} (h : closeToken p type = some q) :
    q.toknext = p.toknext := by
  unfold closeToken at h
  split at h
  · contradiction
  · split at h
    · contradiction
    · rw [← Option.some.inj h]
      simp [Parser.toknext]

/-- A comma makes no token. -/
theorem toknext_commaToken (p : Parser) : (commaToken p).toknext = p.toknext := by
  unfold commaToken
  split
  · split <;> rfl
  · rfl

/-- A turn that ends the loop leaves the parser as it was. -/
theorem parseBody_done {x : ℤ × Parser} (h : parseBody js n fuel p count = some (.done x)) :
    x.2 = p := by
  have hparsed : ∀ y, Parsed n p y → parsedToken count y = .done x → x.2 = p := by
    intro y hy hx
    cases hy with
    | token tok pos hroom => cases hx
    | error err =>
      rw [parsedToken, if_pos err.code_neg, Turn.done.injEq] at hx
      rw [← hx]
  unfold parseBody at h
  cases hcase : caseAt js p.pos with
  | stop =>
    simp only [hcase, Option.some.injEq, Turn.done.injEq] at h
    rw [← h]
    unfold parseEnd
    split <;> rfl
  | opening type =>
    simp only [hcase] at h
    split at h <;> cases h
    rfl
  | closing type =>
    simp only [hcase] at h
    split at h <;> cases h
    rfl
  | quote =>
    simp only [hcase, Option.map_eq_some_iff] at h
    obtain ⟨y, hy, hx⟩ := h
    exact hparsed y (jsmnParseString_parsed hy) hx
  | other =>
    simp only [hcase, Option.map_eq_some_iff] at h
    obtain ⟨y, hy, hx⟩ := h
    exact hparsed y (jsmnParsePrimitive_parsed hy) hx
  | blank =>
    simp only [hcase] at h
    cases h
  | colon =>
    simp only [hcase] at h
    cases h
  | comma =>
    simp only [hcase] at h
    cases h

/-- The counter follows the tokens. -/
theorem parseBody_next (hcount : count = cInt p.toknext)
    (h : parseBody js n fuel p count = some (.next s)) : s.2 = cInt s.1.toknext := by
  have hsucc : cInt (count + 1) = cInt ((p.toknext + 1 : ℕ) : ℤ) := by
    rw [hcount, cInt_cInt_add, Nat.cast_succ]
  have hparsed : ∀ y, Parsed n p y → parsedToken count y = .next s →
      s.2 = cInt s.1.toknext := by
    intro y hy hx
    cases hy with
    | token tok pos hroom =>
      rw [parsedToken, if_neg (lt_irrefl 0), Turn.next.injEq] at hx
      rw [← hx, hsucc, toknext_advance, toknext_grow]
      simp [Parser.toknext]
    | error err =>
      rw [parsedToken, if_pos err.code_neg] at hx
      cases hx
  unfold parseBody at h
  cases hcase : caseAt js p.pos with
  | stop =>
    simp only [hcase] at h
    cases h
  | opening type =>
    simp only [hcase] at h
    split at h
    · cases h
    · next q hq =>
      cases h
      rw [hsucc, toknext_advance, toknext_openToken hq]
  | closing type =>
    simp only [hcase] at h
    split at h
    · cases h
    · next q hq =>
      cases h
      rw [toknext_advance, toknext_closeToken hq, hcount]
  | quote =>
    simp only [hcase, Option.map_eq_some_iff] at h
    obtain ⟨y, hy, hx⟩ := h
    exact hparsed y (jsmnParseString_parsed hy) hx
  | other =>
    simp only [hcase, Option.map_eq_some_iff] at h
    obtain ⟨y, hy, hx⟩ := h
    exact hparsed y (jsmnParsePrimitive_parsed hy) hx
  | blank =>
    simp only [hcase] at h
    cases h
    exact hcount
  | colon =>
    simp only [hcase] at h
    cases h
    exact hcount
  | comma =>
    simp only [hcase] at h
    cases h
    rw [toknext_advance, toknext_commaToken, hcount]

/-! ## Resuming -/

/-- A turn that ends the call leaves the parser as it was. -/
theorem ParseTurn.done (h : ParseTurn js n s (.done (r, q))) : q = s.1 := by
  obtain ⟨fuel, hfuel⟩ := h
  exact parseBody_done (hfuel fuel le_rfl)

/-- A turn that goes on keeps the counter the number of tokens. -/
theorem ParseTurn.next {t : Parser × ℤ} (h : ParseTurn js n s (.next t))
    (hs : s.2 = cInt s.1.toknext) : t.2 = cInt t.1.toknext := by
  obtain ⟨fuel, hfuel⟩ := h
  exact parseBody_next hs (hfuel fuel le_rfl)

/-- A turn is the same with a larger array, unless the array was too small for it. -/
theorem ParseTurn.larger (hnm : n ≤ m) (h : ParseTurn js n s turn) :
    turn = .done (JsmnErr.nomem.code, s.1) ∨ ParseTurn js m s turn := by
  obtain ⟨enough, hturn⟩ := h
  by_cases hfull : turn = .done (JsmnErr.nomem.code, s.1)
  · exact .inl hfull
  · right
    refine ⟨enough, fun fuel hfuel => ?_⟩
    have hn : parseBody js n fuel s.1 s.2 = some turn := hturn fuel hfuel
    rcases parseBody_le js hnm fuel s.1 s.2 with heq | heq
    · exact heq.symm.trans hn
    · rw [heq] at hn
      exact absurd (Option.some.inj hn).symm hfull

/-- A turn is the same with a smaller array, or the array is too small for it. -/
theorem ParseTurn.smaller (hnm : n ≤ m) (h : ParseTurn js m s turn) :
    ParseTurn js n s turn ∨ ParseTurn js n s (.done (JsmnErr.nomem.code, s.1)) := by
  obtain ⟨enough, hturn⟩ := h
  have hsteady := parseBody_steady js n s.1 s.2
  rcases parseBody_le js hnm enough s.1 s.2 with heq | heq
  · exact .inl (hsteady.yields_iff.mpr ⟨enough, heq.trans (hturn enough le_rfl)⟩)
  · exact .inr (hsteady.yields_iff.mpr ⟨enough, heq⟩)

/-- What a call comes to is what it comes to from its next turn on. -/
theorem ends_next_iff {t : Parser × ℤ} {x : ℤ × Parser} (h : ParseTurn js n s (.next t)) :
    Ends (ParseTurn js n) s x ↔ Ends (ParseTurn js n) t x := by
  constructor
  · intro hends
    cases hends with
    | done hs => cases h.unique hs
    | next hs hrest =>
      cases h.unique hs
      exact hrest
  · exact fun hrest => .next h hrest

/-- What has been parsed with the smaller array need not be parsed again: a call with a larger one
comes to the same result, or goes on where the smaller one was full. -/
theorem ends_larger (hnm : n ≤ m) {x : ℤ × Parser} (h : Ends (ParseTurn js n) s x)
    (hs : s.2 = cInt s.1.toknext) :
    (x.1 ≠ JsmnErr.nomem.code → Ends (ParseTurn js m) s x) ∧
      (x.1 = JsmnErr.nomem.code → ∀ y,
        Ends (ParseTurn js m) x.2.enter y ↔ Ends (ParseTurn js m) s y) := by
  induction h with
  | @done s x hturn =>
    constructor
    · intro hok
      rcases hturn.larger hnm with hfull | hlarger
      · rw [Turn.done.inj hfull] at hok
        exact absurd rfl hok
      · exact .done hlarger
    · intro _ y
      rw [hturn.done, Parser.enter, ← hs]
  | @next s t x hturn _ ih =>
    obtain ⟨hok, hfull⟩ := ih (hturn.next hs)
    rcases hturn.larger hnm with hdone | hlarger
    · cases hdone
    · constructor
      · exact fun hx => .next hlarger (hok hx)
      · intro hx y
        rw [hfull hx y, ends_next_iff hlarger]

/-- A call with a smaller array ends as well. -/
theorem ends_smaller (hnm : n ≤ m) {x : ℤ × Parser} (h : Ends (ParseTurn js m) s x) :
    ∃ y, Ends (ParseTurn js n) s y := by
  induction h with
  | done hturn =>
    rcases hturn.smaller hnm with hsame | hfull
    · exact ⟨_, .done hsame⟩
    · exact ⟨_, .done hfull⟩
  | next hturn _ ih =>
    rcases hturn.smaller hnm with hsame | hfull
    · obtain ⟨y, hy⟩ := ih
      exact ⟨y, .next hsame hy⟩
    · exact ⟨_, .done hfull⟩

end Turns

end Wandio.Jsmn
