import Mathlib.Data.List.Induction
import Wandio.Jsmn.ReadingTheorems
import Wandio.Jsmn.TextModel

/-!
# Parsing the text of a value

From the text of a value the parser makes the tokens of the value. Each of its turns reads what is
left of the text from the front: `js.drop p.pos` is what is left.
-/

namespace Wandio.Jsmn

open Loop

/-! ## What is left of a text -/

section Left

variable {js u post : List Byte} {pos : ℕ} {c : Byte}

theorem drop_add_length (h : js.drop pos = u ++ post) : js.drop (pos + u.length) = post := by
  rw [← List.drop_drop, h, List.drop_left]

theorem drop_succ (h : js.drop pos = c :: post) : js.drop (pos + 1) = post :=
  drop_add_length (u := [c]) h

theorem getElem?_of_drop (h : js.drop pos = c :: post) : js[pos]? = some c := by
  rw [← List.head?_drop, h, List.head?_cons]

theorem lt_of_drop (h : js.drop pos = c :: post) : pos < js.length := by
  by_contra hle
  rw [List.drop_eq_nil_of_le (by omega)] at h
  cases h

theorem length_of_drop (h : js.drop pos = u ++ post) : u.length ≤ js.length - pos := by
  have hlen := congrArg List.length h
  rw [List.length_drop, List.length_append] at hlen
  omega

/-- What the parser finds at a position is what the next character says. -/
theorem caseAt_of_drop (h : js.drop pos = c :: post) : caseAt js pos = caseOf c := by
  rw [caseAt, getElem?_of_drop h, Option.elim_some]

theorem caseOf_blank (h : isBlank c = true) : caseOf c = .blank := by
  have hmem : c = 0x09 ∨ c = 0x0d ∨ c = 0x0a ∨ c = 0x20 := by simpa [isBlank] using h
  rcases hmem with rfl | rfl | rfl | rfl <;> decide

theorem ends_of_blank (h : isBlank c = true) : endsPrimitive c = true := by
  have hmem : c = 0x09 ∨ c = 0x0d ∨ c = 0x0a ∨ c = 0x20 := by simpa [isBlank] using h
  rcases hmem with rfl | rfl | rfl | rfl <;> decide

/-- A primitive cannot go on in the text. -/
def Follows (post : List Byte) : Prop := ∀ c ∈ post.head?, endsPrimitive c = true

theorem follows_nil : Follows [] := by
  intro c hc
  cases hc

theorem follows_cons (h : endsPrimitive c = true) : Follows (c :: post) := by
  intro d hd
  rw [List.head?_cons, Option.mem_some] at hd
  exact hd ▸ h

/-- Blanks before it do not change what a primitive ends at. -/
theorem Follows.blanks (h : Follows post) {w : List Byte} (hw : Blanks w) :
    Follows (w ++ post) := by
  cases w with
  | nil => exact h
  | cons c w => exact follows_cons (ends_of_blank (hw c List.mem_cons_self))

end Left

/-! ## Scans -/

section Scans

variable {js s w post : List Byte} {pos i : ℕ} {c : Byte}

theorem hexDigits_hex (hc : isHex c = true) (h : js.drop pos = c :: post)
    (hlen : js.length < 2 ^ 31) : hexDigits js (i + 1) pos = hexDigits js i (pos + 1) := by
  have hlt := lt_of_drop h
  have hzero : c ≠ 0 := by
    rintro rfl
    revert hc
    decide
  simp only [hexDigits, getElem?_of_drop h]
  rw [if_neg hzero, if_pos (by simpa [isHex] using hc), cUInt_of_lt (by omega)]

/-- A string is read to the quote behind it. -/
theorem yields_string (hs : StringText s) (h : js.drop pos = s ++ 0x22 :: post)
    (hlen : js.length < 2 ^ 31) :
    Yields (fun fuel => loop (stringBody js) fuel pos) (.found (pos + s.length)) := by
  induction hs generalizing pos with
  | nil =>
    apply Yields.done
    simp only [stringBody, getElem?_of_drop h]
    rw [if_neg (by decide), if_pos trivial]
    rfl
  | @plain c s hzero hquote hslash _ ih =>
    have hlt := lt_of_drop h
    have hnext : stringBody js pos = .next (pos + 1) := by
      simp only [stringBody, getElem?_of_drop h, hslash, false_and]
      rw [if_neg hzero, if_neg hquote, if_neg not_false, cUInt_of_lt (by omega)]
    rw [List.length_cons, Nat.add_comm s.length, ← Nat.add_assoc]
    exact (ih (drop_succ h)).next hnext
  | @escape c s hc _ ih =>
    have hlt := lt_of_drop (drop_succ h)
    have hnext : stringBody js pos = .next (pos + 1 + 1) := by
      simp only [stringBody, getElem?_of_drop h]
      rw [if_neg (by decide), if_neg (by decide), cUInt_of_lt (by omega), if_pos ⟨trivial, hlt⟩]
      simp only [getElem?_of_drop (drop_succ h)]
      rw [if_pos hc, cUInt_of_lt (by omega)]
    have hlength : pos + (0x5c :: c :: s).length = pos + 1 + 1 + s.length := by
      simp only [List.length_cons]
      omega
    rw [hlength]
    exact (ih (drop_succ (drop_succ h))).next hnext
  | @unicode a b c d s ha hb hc hd _ ih =>
    have h₁ := drop_succ h
    have h₂ := drop_succ h₁
    have h₃ := drop_succ h₂
    have h₄ := drop_succ h₃
    have h₅ := drop_succ h₄
    have h₆ := drop_succ h₅
    have hlt := lt_of_drop h₅
    have hdigits : hexDigits js 4 (pos + 1 + 1) = some (pos + 6) := by
      rw [hexDigits_hex ha h₂ hlen, hexDigits_hex hb h₃ hlen, hexDigits_hex hc h₄ hlen,
        hexDigits_hex hd h₅ hlen]
      rfl
    have hnext : stringBody js pos = .next (pos + 6) := by
      simp only [stringBody, getElem?_of_drop h]
      rw [if_neg (by decide), if_neg (by decide), cUInt_of_lt (by omega),
        if_pos ⟨trivial, by omega⟩]
      simp only [getElem?_of_drop h₁]
      rw [if_neg (by decide), if_pos trivial, cUInt_of_lt (by omega), hdigits]
    have hlength : pos + (0x5c :: 0x75 :: a :: b :: c :: d :: s).length = pos + 6 + s.length := by
      simp only [List.length_cons]
      omega
    rw [hlength]
    exact (ih h₆).next hnext

/-- A primitive is read up to what ends it, or to the end of the text. -/
theorem yields_primitive (hw : ∀ c ∈ w, inPrimitive c = true) (hpost : Follows post)
    (h : js.drop pos = w ++ post) (hlen : js.length < 2 ^ 31) :
    Yields (fun fuel => loop (primitiveBody js) fuel pos) (.found (pos + w.length)) := by
  induction w generalizing pos with
  | nil =>
    apply Yields.done
    cases post with
    | nil =>
      have hnone : js[pos]? = none := by
        rw [← List.head?_drop, h]
        rfl
      simp only [primitiveBody, hnone]
      rfl
    | cons c post =>
      simp only [primitiveBody, getElem?_of_drop h]
      rw [if_pos (.inr (hpost c rfl))]
      rfl
  | cons c w ih =>
    have hlt := lt_of_drop h
    have hc : 32 < c ∧ c < 127 ∧ endsPrimitive c = false := by
      simpa [inPrimitive] using hw c List.mem_cons_self
    have hzero : c ≠ 0 := by
      rintro rfl
      exact absurd hc.1 (by decide)
    have hrange : ¬ (c < 32 ∨ 127 ≤ c) := by
      rw [not_or, UInt8.not_lt, UInt8.not_le]
      exact ⟨UInt8.le_of_lt hc.1, hc.2.1⟩
    have hnext : primitiveBody js pos = .next (pos + 1) := by
      simp only [primitiveBody, getElem?_of_drop h]
      rw [if_neg (by simp [hzero, hc.2.2]), if_neg hrange, cUInt_of_lt (by omega)]
    have hw' : ∀ d ∈ w, inPrimitive d = true := fun d hd => hw d (List.mem_cons_of_mem c hd)
    rw [List.length_cons, Nat.add_comm w.length, ← Nat.add_assoc]
    exact (ih hw' (drop_succ h)).next hnext

end Scans

/-! ## The innermost open token -/

section Innermost

variable {f : Tok → Bool} {g : Tok → Tok} {before behind tokens : List Tok} {tok : Tok} {i : ℕ}

/-- A search back from the front part does not see the tokens behind it. -/
theorem lastToken_append (h : i ≤ before.length) :
    lastToken f (before ++ behind) i = lastToken f before i := by
  induction i with
  | zero => rfl
  | succ i ih =>
    rw [lastToken, lastToken, List.getElem?_append_left (by omega), ih (by omega)]

/-- Tokens that are not looked for can be left out at the end. -/
theorem lastToken_behind (h : ∀ t ∈ behind, f t = false) :
    lastToken f (before ++ behind) (before ++ behind).length =
      lastToken f before before.length := by
  induction behind using List.reverseRecOn with
  | nil => rw [List.append_nil]
  | append_singleton behind t ih =>
    have ht : f t = false := h t (by simp)
    rw [← List.append_assoc, List.length_append, List.length_singleton, lastToken,
      List.getElem?_concat_length, Option.any_some, ht, if_neg (by decide),
      lastToken_append le_rfl, ih fun u hu => h u (by simp [hu])]

/-- The last token that is looked for is found. -/
theorem lastToken_cons (htok : f tok = true) (h : ∀ t ∈ behind, f t = false) :
    lastToken f (before ++ tok :: behind) (before ++ tok :: behind).length =
      some before.length := by
  rw [List.append_cons, lastToken_behind h, List.length_append, List.length_singleton, lastToken,
    List.getElem?_concat_length, Option.any_some, htok, if_pos rfl]

/-- A search does not see changes that it does not ask for. -/
theorem lastToken_modify (h : ∀ t, f (g t) = f t) (j : ℕ) :
    lastToken f (tokens.modify j g) i = lastToken f tokens i := by
  induction i with
  | zero => rfl
  | succ i ih =>
    have hany : ((tokens.modify j g)[i]?).any f = (tokens[i]?).any f := by
      rw [List.getElem?_modify]
      cases tokens[i]? with
      | none => split <;> rfl
      | some t => split <;> simp [h]
    rw [lastToken, lastToken, hany, ih]

/-- The index of the innermost open token, -1 if there is none. -/
def innermost (tokens : List Tok) : ℤ := indexOrNone (lastToken Tok.isOpen tokens tokens.length)

/-- All tokens have been closed. -/
def Closed (tokens : List Tok) : Prop := ∀ t ∈ tokens, t.isOpen = false

theorem closed_nil : Closed [] := by
  intro t ht
  cases ht

/-- Closed tokens behind closed ones are closed. -/
theorem Closed.append (h : Closed before) (h' : Closed behind) : Closed (before ++ behind) := by
  intro t ht
  rcases List.mem_append.mp ht with ht | ht
  · exact h t ht
  · exact h' t ht

theorem Closed.cons (htok : tok.isOpen = false) (h : Closed tokens) : Closed (tok :: tokens) := by
  intro t ht
  rcases List.mem_cons.mp ht with rfl | ht
  · exact htok
  · exact h t ht

/-- The innermost open token is the last one that is open. -/
theorem innermost_cons (htok : tok.isOpen = true) (h : Closed behind) :
    innermost (before ++ tok :: behind) = before.length := by
  rw [innermost, lastToken_cons htok h]
  rfl

/-- A size does not change which token is the innermost open one. -/
theorem innermost_grow (p : Parser) : innermost p.grow.tokens = innermost p.tokens := by
  unfold Parser.grow
  split
  · rfl
  · have hopen : ∀ t : Tok, Tok.isOpen { t with size := t.size + 1 } = t.isOpen := fun _ => rfl
    rw [innermost, lastToken_modify hopen, List.length_modify]
    rfl

end Innermost

/-! ## Turns -/

/-- The parser goes on from `p` to `q` in one turn. -/
def Step (js : List Byte) (n : ℕ) (p q : Parser) : Prop := ParseTurn js n p.enter (.next q.enter)

/-- The parser goes on from `p` to `q`. -/
def Goes (js : List Byte) (n : ℕ) : Parser → Parser → Prop := Relation.ReflTransGen (Step js n)

/-- The superior token is one of the tokens. -/
def Parser.Rooted (p : Parser) : Prop := p.toksuper = -1 ∨ 0 ≤ p.toksuper ∧ p.toksuper < p.toknext

section Steps

variable {js s w post before behind : List Byte} {n : ℕ} {p q : Parser} {c : Byte} {type : TokType}
  {tok : Tok} {tokens outer inner : List Tok}

/-- A turn that the loop takes is a step of the parser. -/
theorem step_of_yields {t : Parser × ℤ}
    (h : Yields (fun fuel => parseBody js n fuel p (cInt p.toknext)) (.next t)) :
    Step js n p t.1 := by
  have hturn : ParseTurn js n p.enter (.next t) := by
    simp only [ParseTurn, Parser.enter]
    exact h
  have hcount : t.2 = cInt t.1.toknext := ParseTurn.next hturn (enter_count p)
  have ht : t = t.1.enter := by
    rw [Parser.enter, ← hcount]
  rw [Step, ← ht]
  exact hturn

/-- A call that goes on from a later state comes to the same result. -/
theorem Goes.ends {x : ℤ × Parser} (h : Goes js n p q) (hq : Ends (ParseTurn js n) q.enter x) :
    Ends (ParseTurn js n) p.enter x := by
  induction h using Relation.ReflTransGen.head_induction_on with
  | refl => exact hq
  | head hstep _ ih => exact .next hstep ih

theorem advance_eq (hlt : p.pos < 2 ^ 31) : p.advance = { p with pos := p.pos + 1 } := by
  rw [Parser.advance, cUInt_of_lt (by omega)]

/-- The size that is raised for a new token is that of a token before it. -/
theorem grow_append (h : p.Rooted) (tok : Tok) (pos : ℕ) :
    Parser.grow { p with pos := pos, tokens := p.tokens ++ [tok] } =
      { p with pos := pos, tokens := p.grow.tokens ++ [tok] } := by
  unfold Parser.grow
  by_cases hnone : p.toksuper = -1
  · simp only [if_pos hnone]
  · obtain ⟨hpos, hlt⟩ := h.resolve_left hnone
    have hidx : p.toksuper.toNat < p.tokens.length := by
      rw [Parser.toknext] at hlt
      omega
    simp only [if_neg hnone]
    congr 1
    rw [List.modify_eq_take_cons_drop hidx, List.modify_eq_take_cons_drop (by simp; omega),
      List.take_append_of_le_length hidx.le, List.drop_append_of_le_length (by omega),
      List.getElem_append_left hidx, List.append_assoc, List.cons_append]

/-- A blank is passed over. -/
theorem step_blank (hc : isBlank c = true) (h : js.drop p.pos = c :: post)
    (hlen : js.length < 2 ^ 31) : Step js n p { p with pos := p.pos + 1 } := by
  have hlt := lt_of_drop h
  rw [← advance_eq (by omega)]
  apply step_of_yields (t := (p.advance, cInt p.toknext))
  refine ⟨0, fun fuel _ => ?_⟩
  simp only [parseBody, caseAt_of_drop h, caseOf_blank hc]

/-- Blanks are passed over. -/
theorem goes_blanks (hw : Blanks w) (h : js.drop p.pos = w ++ post) (hlen : js.length < 2 ^ 31) :
    Goes js n p { p with pos := p.pos + w.length } := by
  induction w generalizing p with
  | nil => exact .refl
  | cons c w ih =>
    have hstep : Step js n p { p with pos := p.pos + 1 } :=
      step_blank (hw c List.mem_cons_self) h hlen
    have hrest := ih (p := { p with pos := p.pos + 1 })
      (fun d hd => hw d (List.mem_cons_of_mem c hd)) (drop_succ h)
    rw [List.length_cons, Nat.add_comm w.length, ← Nat.add_assoc]
    exact .head hstep hrest

/-- A colon makes the last token, the key, the one that counts. -/
theorem step_colon (h : js.drop p.pos = 0x3a :: post) (hlen : js.length < 2 ^ 31)
    (hroom : p.toknext < 2 ^ 31) :
    Step js n p { p with pos := p.pos + 1, toksuper := (p.toknext : ℤ) - 1 } := by
  have hlt := lt_of_drop h
  have hstep : Step js n p (Parser.advance { p with toksuper := cInt (p.toknext - 1 : ℤ) }) := by
    apply step_of_yields (t := (_, cInt p.toknext))
    refine ⟨0, fun fuel _ => ?_⟩
    simp only [parseBody, caseAt_of_drop h]
    rfl
  rw [advance_eq (by show p.pos < _; omega), cInt_of_range (by omega) (by omega)] at hstep
  exact hstep

/-- A comma makes the innermost open token the one that counts again. -/
theorem step_comma (h : js.drop p.pos = 0x2c :: post) (hlen : js.length < 2 ^ 31) :
    Step js n p { commaToken p with pos := p.pos + 1 } := by
  have hlt := lt_of_drop h
  have hpos : (commaToken p).pos = p.pos := by
    unfold commaToken
    split
    · split <;> rfl
    · rfl
  have hstep : Step js n p (commaToken p).advance := by
    apply step_of_yields (t := (_, cInt p.toknext))
    refine ⟨0, fun fuel _ => ?_⟩
    simp only [parseBody, caseAt_of_drop h]
    rfl
  rw [advance_eq (by rw [hpos]; omega), hpos] at hstep
  exact hstep

/-- A bracket makes a token that is open, and it is counted by the one that counts. -/
theorem step_opening (hc : caseOf c = .opening type) (h : js.drop p.pos = c :: post)
    (hlen : js.length < 2 ^ 31) (hn : n < 2 ^ 31) (hroom : p.toknext < n) (hp : p.Rooted) :
    Step js n p ⟨p.pos + 1, p.toknext, p.grow.tokens ++ [⟨type, p.pos, -1, 0⟩]⟩ := by
  have hlt := lt_of_drop h
  have hopen : openToken n p type =
      some ⟨p.pos, p.toknext, p.grow.tokens ++ [⟨type, p.pos, -1, 0⟩]⟩ := by
    have hnext : ((p.tokens ++ [(⟨type, p.pos, -1, 0⟩ : Tok)]).length : ℤ) - 1 = p.toknext := by
      rw [List.length_append, List.length_singleton, Nat.cast_succ, add_sub_cancel_right]
      rfl
    rw [openToken, jsmnAllocToken, if_neg (by omega), cInt_of_range (by omega) (by omega)]
    simp only [Option.map_some, Parser.toknext]
    rw [hnext, grow_append hp, cInt_of_range (by omega) (by omega)]
    rfl
  have hstep : Step js n p
      (Parser.advance ⟨p.pos, p.toknext, p.grow.tokens ++ [⟨type, p.pos, -1, 0⟩]⟩) := by
    apply step_of_yields (t := (_, cInt (cInt p.toknext + 1)))
    refine ⟨0, fun fuel _ => ?_⟩
    simp only [parseBody, caseAt_of_drop h, hc, hopen]
    rfl
  rw [advance_eq (by show p.pos < _; omega)] at hstep
  exact hstep

/-- A closing bracket closes the innermost open token. -/
theorem step_closing (tok : Tok) (hc : caseOf c = .closing tok.type) (h : js.drop p.pos = c :: post)
    (hlen : js.length < 2 ^ 31) (htokens : p.tokens = outer ++ tok :: inner)
    (htok : tok.isOpen = true) (hinner : Closed inner) :
    Step js n p ⟨p.pos + 1, innermost outer,
      outer ++ { tok with stop := (p.pos : ℤ) + 1 } :: inner⟩ := by
  have hlt := lt_of_drop h
  have hclosed : Tok.isOpen { tok with stop := (p.pos : ℤ) + 1 } = false := by
    simp only [Tok.isOpen, decide_eq_false_iff_not, not_and]
    omega
  have hclose : closeToken p tok.type = some ⟨p.pos, innermost outer,
      outer ++ { tok with stop := (p.pos : ℤ) + 1 } :: inner⟩ := by
    have hlast : lastToken Tok.isOpen p.tokens p.toknext = some outer.length := by
      rw [Parser.toknext, htokens, lastToken_cons htok hinner]
    have hget : p.tokens[outer.length]? = some tok := by
      rw [htokens]
      simp
    have hsuper : lastToken Tok.isOpen
        (outer ++ { tok with stop := (p.pos : ℤ) + 1 } :: inner) (outer.length + 1) =
          lastToken Tok.isOpen outer outer.length := by
      have hone : ∀ t ∈ [{ tok with stop := (p.pos : ℤ) + 1 }], t.isOpen = false := by
        intro t ht
        rw [List.mem_singleton.mp ht]
        exact hclosed
      rw [List.append_cons, lastToken_append (by simp), ← lastToken_behind hone,
        List.length_append, List.length_singleton]
    simp only [closeToken, hlast, hget, Option.any_some]
    rw [if_neg (by simp), htokens, cInt_of_range (by omega) (by omega), modify_length, hsuper]
    rfl
  have hstep : Step js n p (Parser.advance ⟨p.pos, innermost outer,
      outer ++ { tok with stop := (p.pos : ℤ) + 1 } :: inner⟩) := by
    apply step_of_yields (t := (_, cInt p.toknext))
    refine ⟨0, fun fuel _ => ?_⟩
    simp only [parseBody, caseAt_of_drop h, hc, hclose]
    rfl
  rw [advance_eq (by show p.pos < _; omega)] at hstep
  exact hstep

/-- A token that has been found. -/
theorem step_found {pos next : ℕ} {scan : ℕ → Option Scan} {mk : ℕ → Tok} {behind : ℕ → ℕ}
    (hbody : ∀ fuel, parseBody js n fuel p (cInt p.toknext) =
      ((scan fuel).map (scanned n p mk behind)).map (parsedToken (cInt p.toknext)))
    (hscan : Yields scan (.found pos)) (hnext : cUInt (behind pos + 1) = next)
    (hroom : p.toknext < n) (hp : p.Rooted) :
    Step js n p ⟨next, p.toksuper, p.grow.tokens ++ [mk pos]⟩ := by
  have hparsed : parsedToken (cInt p.toknext) (scanned n p mk behind (.found pos)) =
      .next (⟨next, p.toksuper, p.grow.tokens ++ [mk pos]⟩, cInt (cInt p.toknext + 1)) := by
    have halloc : jsmnAllocToken n p (mk pos) = some { p with tokens := p.tokens ++ [mk pos] } := by
      rw [jsmnAllocToken, if_neg (by omega)]
    simp only [scanned, halloc, parsedToken]
    rw [if_neg (lt_irrefl 0), grow_append hp, Parser.advance, hnext]
  have hturn := (hscan.map (scanned n p mk behind)).map (parsedToken (cInt p.toknext))
  rw [hparsed] at hturn
  simp only [← hbody] at hturn
  exact step_of_yields hturn

/-- A string makes a token of the text between its quotation marks. -/
theorem step_string (hs : StringText s) (h : js.drop p.pos = 0x22 :: (s ++ 0x22 :: post))
    (hlen : js.length < 2 ^ 31) (hroom : p.toknext < n) (hp : p.Rooted) :
    Step js n p ⟨p.pos + (s.length + 2), p.toksuper,
      p.grow.tokens ++ [⟨.string, p.pos + 1, p.pos + 1 + s.length, 0⟩]⟩ := by
  have hlt := lt_of_drop h
  have hend := lt_of_drop (drop_add_length (drop_succ h))
  have hscan := yields_string hs (drop_succ h) hlen
  rw [← cUInt_of_lt (show p.pos + 1 < 2 ^ 32 by omega)] at hscan
  have hbody : ∀ fuel, parseBody js n fuel p (cInt p.toknext) =
      ((loop (stringBody js) fuel (cUInt (p.pos + 1))).map
        (scanned n p (fun pos => ⟨.string, cInt (p.pos + 1), cInt pos, 0⟩) fun pos => pos)).map
          (parsedToken (cInt p.toknext)) := by
    intro fuel
    simp only [parseBody, caseAt_of_drop h, jsmnParseString_eq]
    rfl
  have hstep := step_found hbody hscan rfl hroom hp
  rw [cUInt_of_lt (show p.pos + 1 < 2 ^ 32 by omega), cUInt_of_lt (by omega),
    cInt_of_range (by omega) (by omega), cInt_of_range (by omega) (by omega)] at hstep
  have hpos : p.pos + 1 + s.length + 1 = p.pos + (s.length + 2) := by omega
  rw [hpos, Nat.cast_add, Nat.cast_succ] at hstep
  exact hstep

/-- A primitive makes a token of its text. -/
theorem step_primitive (hw : PrimitiveText w) (hpost : Follows post)
    (h : js.drop p.pos = w ++ post) (hlen : js.length < 2 ^ 31) (hroom : p.toknext < n)
    (hp : p.Rooted) :
    Step js n p ⟨p.pos + w.length, p.toksuper,
      p.grow.tokens ++ [⟨.primitive, p.pos, p.pos + w.length, 0⟩]⟩ := by
  cases hw with
  | @mk c w hc hall =>
    have hlt := lt_of_drop h
    have hle := length_of_drop h
    have hscan := yields_primitive hall hpost h hlen
    have hbody : ∀ fuel, parseBody js n fuel p (cInt p.toknext) =
        ((loop (primitiveBody js) fuel p.pos).map
          (scanned n p (fun pos => ⟨.primitive, cInt p.pos, cInt pos, 0⟩)
            fun pos => cUInt (pos + (2 ^ 32 - 1)))).map (parsedToken (cInt p.toknext)) := by
      intro fuel
      have hcase : caseAt js p.pos = .other := (caseAt_of_drop h).trans hc
      simp only [parseBody, hcase, jsmnParsePrimitive_eq]
    have hstep := step_found hbody hscan rfl hroom hp
    have hnext : cUInt (cUInt (p.pos + (c :: w).length + (2 ^ 32 - 1)) + 1) =
        p.pos + (c :: w).length := by
      unfold cUInt
      omega
    rw [hnext, cInt_of_range (by omega) (by omega), cInt_of_range (by omega) (by omega),
      Nat.cast_add] at hstep
    exact hstep

/-- A comma behind an element or a member goes back to the array or the object. -/
theorem step_separator (tok : Tok) (h : js.drop p.pos = 0x2c :: post) (hlen : js.length < 2 ^ 31)
    (htokens : p.tokens = outer ++ tok :: inner) (htok : tok.isOpen = true)
    (htype : tok.type = .array ∨ tok.type = .object) (hinner : Closed inner)
    (hsuper : p.toksuper = outer.length ∨ 0 ≤ p.toksuper ∧
      ∃ key ∈ p.tokens[p.toksuper.toNat]?, key.type = .string) :
    Step js n p { p with pos := p.pos + 1, toksuper := outer.length } := by
  have hcomma : commaToken p = { p with toksuper := outer.length } := by
    rcases hsuper with hsuper | ⟨hpos, key, hkey, hstring⟩
    · have hget : p.tokens[p.toksuper.toNat]? = some tok := by
        rw [hsuper, Int.toNat_natCast, htokens]
        simp
      rw [commaToken, if_neg, ← hsuper]
      intro ⟨_, hany⟩
      rw [hget, Option.any_some, decide_eq_true_eq] at hany
      exact htype.elim hany.1 hany.2
    · have hlast : lastToken (fun t => (t.type = .array ∨ t.type = .object) ∧ t.isOpen) p.tokens
          p.toknext = some outer.length := by
        rw [Parser.toknext, htokens]
        apply lastToken_cons
        · simp only [htok, and_true]
          exact decide_eq_true htype
        · intro t ht
          simp [hinner t ht]
      rw [commaToken, if_pos, hlast]
      refine ⟨by omega, ?_⟩
      rw [Option.mem_def.mp hkey, Option.any_some, hstring]
      decide
  have hstep := step_comma (n := n) h hlen
  rw [hcomma] at hstep
  exact hstep

end Steps

/-! ## Items -/

/-- The tokens of an item whose text begins at `pos`, all of them closed. -/
structure TokensOf (js : List Byte) (pos : ℕ) (item : Item) (u : List Byte) (tokens : List Tok) :
    Prop where
  closed : Closed tokens
  marks : Marks pos item u tokens
  laidOut : ∀ rest, LaidOut js item (tokens ++ rest) rest
  length_le : tokens.length ≤ u.length

/-- Parsing the text `u` of an item puts its tokens behind those that are there. Elements and
members stand in a token that is still open, and that counts them. -/
def Parses (js : List Byte) (n : ℕ) : Item → List Byte → Prop
  | .value v, u => ∀ (p : Parser) (post : List Byte), js.drop p.pos = u ++ post → Follows post →
    p.Rooted → p.toknext + u.length ≤ n →
      ∃ tokens s, Goes js n p ⟨p.pos + u.length, s, p.grow.tokens ++ tokens⟩ ∧
        (s = p.toksuper ∨ s = innermost p.tokens) ∧ TokensOf js p.pos (.value v) u tokens
  | .elems vs, u => ∀ (outer inner : List Tok) (box : Tok) (pos : ℕ) (post : List Byte),
    js.drop pos = u ++ 0x5d :: post → box.isOpen = true → box.type = .array → Closed inner →
    (outer ++ box :: inner).length + u.length ≤ n →
      ∃ tokens, Goes js n ⟨pos, outer.length, outer ++ box :: inner⟩
          ⟨pos + u.length, outer.length,
            outer ++ { box with size := box.size + vs.length } :: (inner ++ tokens)⟩ ∧
        TokensOf js pos (.elems vs) u tokens
  | .members ms, u => ∀ (outer inner : List Tok) (box : Tok) (pos : ℕ) (post : List Byte),
    js.drop pos = u ++ 0x7d :: post → box.isOpen = true → box.type = .object → Closed inner →
    (outer ++ box :: inner).length + u.length ≤ n →
      ∃ tokens s, Goes js n ⟨pos, outer.length, outer ++ box :: inner⟩
          ⟨pos + u.length, s,
            outer ++ { box with size := box.size + ms.length } :: (inner ++ tokens)⟩ ∧
        TokensOf js pos (.members ms) u tokens

section Items

variable {js s k w w₁ w₂ w' u u' post : List Byte} {n pos : ℕ} {c : Byte} {v : Json}
  {outer inner tokens : List Tok} {box : Tok} {vs : List Json} {ms : List (List Byte × Json)}

/-- The container that counts grows by one. -/
theorem grow_box (outer inner : List Tok) (box : Tok) (pos : ℕ) :
    Parser.grow ⟨pos, outer.length, outer ++ box :: inner⟩ =
      ⟨pos, outer.length, outer ++ { box with size := box.size + 1 } :: inner⟩ := by
  unfold Parser.grow
  rw [if_neg (by simp only; omega)]
  simp only [Int.toNat_natCast]
  rw [modify_length]

theorem rooted_box (outer inner : List Tok) (box : Tok) (pos : ℕ) :
    Parser.Rooted ⟨pos, outer.length, outer ++ box :: inner⟩ := by
  right
  simp only [Parser.toknext, List.length_append, List.length_cons]
  omega

/-- There is no zero in a string. -/
theorem StringText.zero_notMem (hs : StringText s) : 0 ∉ s := by
  induction hs with
  | nil => exact List.not_mem_nil
  | plain hzero _ _ _ ih => exact List.not_mem_cons_of_ne_of_not_mem hzero.symm ih
  | @escape c s hc _ ih =>
    have hzero : (0 : Byte) ≠ c := by
      rintro rfl
      revert hc
      decide
    simp [ih, hzero]
  | @unicode a b c d s ha hb hc hd _ ih =>
    have hzero : ∀ x : Byte, isHex x = true → (0 : Byte) ≠ x := by
      rintro x hx rfl
      revert hx
      decide
    simp [ih, hzero a ha, hzero b hb, hzero c hc, hzero d hd]

/-- Characters that stand for themselves. -/
theorem stringText_of_plain (h : ∀ c ∈ s, c ≠ 0 ∧ c ≠ 0x22 ∧ c ≠ 0x5c) : StringText s := by
  induction s with
  | nil => exact .nil
  | cons c s ih =>
    obtain ⟨hzero, hquote, hslash⟩ := h c List.mem_cons_self
    exact .plain hzero hquote hslash (ih fun d hd => h d (List.mem_cons_of_mem c hd))

/-- The token of a string is that of what stands between the quotes. -/
theorem isString_of_text (hs : StringText s) (h : js.drop pos = 0x22 :: (s ++ post))
    (hlen : js.length < 2 ^ 31) (size : ℕ) :
    IsString js ⟨.string, pos + 1, pos + 1 + s.length, size⟩ s where
  type := rfl
  start := by simp only; omega
  stop_lt := by
    have hle := length_of_drop (drop_succ h)
    have hlt := lt_of_drop h
    simp only
    omega
  length := by simp only; omega
  bytes := by
    have hstart : ((pos : ℤ) + 1).toNat = pos + 1 := by omega
    simp only [hstart]
    rw [drop_succ h, List.take_left]
  zero := hs.zero_notMem

/-- The token of a string is closed. -/
theorem IsString.closed {tok : Tok} (h : IsString js tok s) : tok.isOpen = false := by
  have hstart := h.start
  have hlength := h.length
  simp only [Tok.isOpen, decide_eq_false_iff_not, not_and]
  omega

theorem TokensOf.append {item item' item'' : Item} {u u' u'' : List Byte} {pos' pos'' : ℕ}
    {tokens tokens' : List Tok} (h : TokensOf js pos item u tokens)
    (h' : TokensOf js pos' item' u' tokens') (hlen : u.length + u'.length ≤ u''.length)
    (hmarks : Marks pos'' item'' u'' (tokens ++ tokens'))
    (hitem : ∀ t t' rest, LaidOut js item t t' → LaidOut js item' t' rest →
      LaidOut js item'' t rest) : TokensOf js pos'' item'' u'' (tokens ++ tokens') where
  closed := h.closed.append h'.closed
  marks := hmarks
  laidOut := by
    intro rest
    rw [List.append_assoc]
    exact hitem _ _ _ (h.laidOut _) (h'.laidOut rest)
  length_le := by
    have := h.length_le
    have := h'.length_le
    rw [List.length_append]
    omega

/-- A string is parsed as it is laid out. -/
theorem value_string_parses (hs : StringText s) (hlen : js.length < 2 ^ 31) :
    Parses js n (.value (.string s)) (0x22 :: (s ++ [0x22])) := by
  intro p post h _ hp hroom
  have hdrop : js.drop p.pos = 0x22 :: (s ++ 0x22 :: post) := by
    rw [h]
    simp
  have hlength : (0x22 :: (s ++ [(0x22 : Byte)])).length = s.length + 2 := by simp
  rw [hlength] at hroom ⊢
  refine ⟨_, p.toksuper, .single (step_string hs hdrop hlen (by omega) hp), .inl rfl, ?_,
    .string hs, ?_, ?_⟩
  · exact closed_nil.cons (by simp only [Tok.isOpen]; simp; omega)
  · intro rest
    exact .string (isString_of_text hs hdrop hlen 0)
  · simp

/-- A primitive is parsed as it is laid out. -/
theorem value_primitive_parses (hw : PrimitiveText w) (hlen : js.length < 2 ^ 31) :
    Parses js n (.value (.primitive w)) w := by
  intro p post h hpost hp hroom
  have hpos : 0 < w.length := by
    cases hw
    simp
  refine ⟨_, p.toksuper, .single (step_primitive hw hpost h hlen (by omega) hp), .inl rfl, ?_,
    .primitive hw, ?_, ?_⟩
  · exact closed_nil.cons (by simp only [Tok.isOpen]; simp; omega)
  · intro rest
    exact .primitive rfl
  · exact hpos

/-- An element with its blanks, in front of a comma or the end of the array. -/
theorem elem_parses (ih : Parses js n (.value v) u) (hw : Blanks w) (hw' : Blanks w')
    (hc : endsPrimitive c = true) (hlen : js.length < 2 ^ 31)
    (h : js.drop pos = w ++ (u ++ w') ++ c :: post) (hbox : box.isOpen = true)
    (hinner : Closed inner)
    (hroom : (outer ++ box :: inner).length + (w ++ (u ++ w')).length ≤ n) :
    ∃ tokens, Goes js n ⟨pos, outer.length, outer ++ box :: inner⟩
        ⟨pos + (w ++ (u ++ w')).length, outer.length,
          outer ++ { box with size := box.size + 1 } :: (inner ++ tokens)⟩ ∧
      TokensOf js (pos + w.length) (.value v) u tokens := by
  simp only [List.length_append] at hroom
  have h₁ : js.drop pos = w ++ (u ++ (w' ++ c :: post)) := by
    rw [h]
    simp
  have h₂ := drop_add_length h₁
  have h₃ := drop_add_length h₂
  have hfront : Goes js n ⟨pos, outer.length, outer ++ box :: inner⟩
      ⟨pos + w.length, outer.length, outer ++ box :: inner⟩ := goes_blanks hw h₁ hlen
  obtain ⟨tokens, s, hvalue, hs, htokens⟩ := ih
    ⟨pos + w.length, outer.length, outer ++ box :: inner⟩ (w' ++ c :: post) h₂
    ((follows_cons hc).blanks hw') (rooted_box ..) (by
      simp only [Parser.toknext, List.length_append]
      omega)
  have hsuper : s = outer.length := hs.elim id fun hs => hs.trans (innermost_cons hbox hinner)
  rw [grow_box, hsuper] at hvalue
  have hbehind := goes_blanks (n := n)
    (p := ⟨pos + w.length + u.length, outer.length,
      outer ++ { box with size := box.size + 1 } :: inner ++ tokens⟩) hw' h₃ hlen
  refine ⟨tokens, ?_, htokens⟩
  have hgoes := (hfront.trans hvalue).trans hbehind
  simp only [List.length_append, ← Nat.add_assoc]
  simp only [List.append_assoc, List.cons_append] at hgoes
  exact hgoes

/-- A member with its blanks, in front of a comma or the end of the object. -/
theorem member_parses (ih : Parses js n (.value v) u) (hk : StringText k) (hw : Blanks w)
    (hw₁ : Blanks w₁) (hw₂ : Blanks w₂) (hw' : Blanks w') (hc : endsPrimitive c = true)
    (hlen : js.length < 2 ^ 31) (hn : n < 2 ^ 31)
    (h : js.drop pos = w ++ (keyed k w₁ w₂ u ++ w') ++ c :: post) (hbox : box.isOpen = true)
    (hinner : Closed inner)
    (hroom : (outer ++ box :: inner).length + (w ++ (keyed k w₁ w₂ u ++ w')).length ≤ n) :
    ∃ key tokens s, Goes js n ⟨pos, outer.length, outer ++ box :: inner⟩
        ⟨pos + (w ++ (keyed k w₁ w₂ u ++ w')).length, s,
          outer ++ { box with size := box.size + 1 } :: (inner ++ key :: tokens)⟩ ∧
      key = ⟨.string, (pos + w.length : ℕ) + 1, (pos + w.length : ℕ) + 1 + k.length, 1⟩ ∧
      IsString js key k ∧
      TokensOf js (pos + (w ++ keyed k w₁ w₂ []).length) (.value v) u tokens ∧
      (s = outer.length ∨ s = (outer.length + 1 + inner.length : ℕ)) := by
  have hlength : (w ++ (keyed k w₁ w₂ u ++ w')).length =
      w.length + (k.length + 2 + (w₁.length + (1 + (w₂.length + (u.length + w'.length))))) := by
    simp [keyed]
    omega
  rw [hlength] at hroom ⊢
  simp only [List.length_append, List.length_cons] at hroom
  have h₁ : js.drop pos =
      w ++ (0x22 :: (k ++ 0x22 :: (w₁ ++ 0x3a :: (w₂ ++ (u ++ (w' ++ c :: post)))))) := by
    rw [h]
    simp [keyed]
  have h₂ := drop_add_length h₁
  have h₃ := drop_succ (drop_add_length (drop_succ h₂))
  have h₄ := drop_add_length h₃
  have h₅ := drop_succ h₄
  have h₆ := drop_add_length h₅
  have h₇ := drop_add_length h₆
  -- the key becomes a member of the object
  have hblanks : Goes js n ⟨pos, outer.length, outer ++ box :: inner⟩
      ⟨pos + w.length, outer.length, outer ++ box :: inner⟩ := goes_blanks hw h₁ hlen
  obtain ⟨front, hfront⟩ : ∃ front, front = outer ++ { box with size := box.size + 1 } :: inner :=
    ⟨_, rfl⟩
  have hfrontlen : front.length = outer.length + 1 + inner.length := by
    rw [hfront, List.length_append, List.length_cons]
    omega
  set key : Tok := ⟨.string, (pos + w.length : ℕ) + 1, (pos + w.length : ℕ) + 1 + k.length, 0⟩
    with hkey
  have hquote := step_string (n := n) (p := ⟨pos + w.length, outer.length, outer ++ box :: inner⟩)
    hk h₂ hlen (by
      simp only [Parser.toknext, List.length_append, List.length_cons]
      omega) (rooted_box ..)
  rw [grow_box, ← hfront, ← hkey] at hquote
  have hpos : pos + w.length + (k.length + 2) = pos + w.length + 1 + k.length + 1 := by omega
  simp only [hpos] at hquote
  -- and is superior to its value
  have hcolon := step_colon (n := n)
    (p := ⟨pos + w.length + 1 + k.length + 1 + w₁.length, outer.length, front ++ [key]⟩) h₄ hlen (by
      simp only [Parser.toknext, List.length_append, List.length_singleton]
      omega)
  have hsuper : (Parser.toknext ⟨pos + w.length + 1 + k.length + 1 + w₁.length, outer.length,
      front ++ [key]⟩ : ℤ) - 1 = front.length := by
    rw [Parser.toknext, List.length_append, List.length_singleton]
    omega
  simp only [hsuper] at hcolon
  obtain ⟨tokens, s, hvalue, hs, htokens⟩ := ih
    ⟨pos + w.length + 1 + k.length + 1 + w₁.length + 1 + w₂.length, front.length, front ++ [key]⟩
    (w' ++ c :: post) h₆ ((follows_cons hc).blanks hw') (rooted_box ..) (by
      simp only [Parser.toknext, List.length_append, List.length_singleton]
      omega)
  rw [grow_box] at hvalue
  have hclosed : key.isOpen = false := by
    simp only [Tok.isOpen, hkey]
    simp
    omega
  have hs' : s = outer.length ∨ s = (outer.length + 1 + inner.length : ℕ) := by
    rcases hs with rfl | rfl
    · right
      rw [hfrontlen]
    · left
      rw [hfront, List.append_assoc, List.cons_append]
      exact innermost_cons hbox (hinner.append (closed_nil.cons hclosed))
  have hvaluepos : pos + w.length + 1 + k.length + 1 + w₁.length + 1 + w₂.length =
      pos + (w ++ keyed k w₁ w₂ []).length := by
    simp [keyed]
    omega
  rw [hvaluepos] at htokens
  refine ⟨{ key with size := key.size + 1 }, tokens, s, ?_, rfl, ?_, htokens, hs'⟩
  · have hgoes := ((((((hblanks.tail hquote).trans (goes_blanks hw₁ h₃ hlen)).tail hcolon).trans
      (goes_blanks hw₂ h₅ hlen)).trans hvalue).trans (goes_blanks hw' h₇ hlen))
    have hend : pos + w.length + 1 + k.length + 1 + w₁.length + 1 + w₂.length + u.length +
        w'.length = pos + (w.length + (k.length + 2 +
          (w₁.length + (1 + (w₂.length + (u.length + w'.length)))))) := by
      omega
    simp only [hend, hfront, List.append_assoc, List.cons_append, List.nil_append] at hgoes
    exact hgoes
  · have htext := isString_of_text hk h₂ hlen 1
    exact htext

/-- Brackets around elements or members. -/
theorem container_parses (type : TokType) {d : Byte} {p : Parser} {item : Item} {size : ℕ}
    (hc : caseOf c = .opening type) (hd : caseOf d = .closing type) (hlen : js.length < 2 ^ 31)
    (hn : n < 2 ^ 31) (h : js.drop p.pos = c :: (u ++ d :: post)) (hp : p.Rooted)
    (hroom : p.toknext < n)
    (hinside : ∃ tokens s, Goes js n
        ⟨p.pos + 1, p.grow.tokens.length, p.grow.tokens ++ [⟨type, p.pos, -1, 0⟩]⟩
        ⟨p.pos + 1 + u.length, s, p.grow.tokens ++ ⟨type, p.pos, -1, size⟩ :: tokens⟩ ∧
      TokensOf js (p.pos + 1) item u tokens)
    (hmarks : ∀ t, Marks (p.pos + 1) item u t → Marks p.pos (.value v) (c :: (u ++ [d]))
      (⟨type, p.pos, (p.pos + 1 + u.length : ℕ) + 1, size⟩ :: t))
    (hitem : ∀ tok t rest, tok.type = type → tok.size = size → LaidOut js item t rest →
      LaidOut js (.value v) (tok :: t) rest) :
    ∃ tokens s, Goes js n p
        ⟨p.pos + (c :: (u ++ [d])).length, s, p.grow.tokens ++ tokens⟩ ∧
      (s = p.toksuper ∨ s = innermost p.tokens) ∧
      TokensOf js p.pos (.value v) (c :: (u ++ [d])) tokens := by
  have hopening := step_opening (n := n) hc h hlen hn hroom hp
  have hnext : p.toknext = p.grow.tokens.length := (toknext_grow p).symm
  rw [hnext] at hopening
  obtain ⟨tokens, s, hgoes, htokens⟩ := hinside
  have hclosing : Step js n
      ⟨p.pos + 1 + u.length, s, p.grow.tokens ++ ⟨type, p.pos, -1, size⟩ :: tokens⟩
      ⟨p.pos + 1 + u.length + 1, innermost p.grow.tokens,
        p.grow.tokens ++ ⟨type, p.pos, (p.pos + 1 + u.length : ℕ) + 1, size⟩ :: tokens⟩ :=
    step_closing ⟨type, p.pos, -1, size⟩ hd (drop_add_length (drop_succ h)) hlen rfl
      (by simp [Tok.isOpen]) htokens.closed
  have hlength : p.pos + 1 + u.length + 1 = p.pos + (c :: (u ++ [d])).length := by
    simp
    omega
  rw [hlength] at hclosing
  refine ⟨⟨type, p.pos, (p.pos + 1 + u.length : ℕ) + 1, size⟩ :: tokens, innermost p.tokens, ?_,
    .inr rfl, ?_, hmarks tokens htokens.marks, ?_, ?_⟩
  · rw [← innermost_grow]
    exact (hgoes.head hopening).tail hclosing
  · apply htokens.closed.cons
    simp only [Tok.isOpen, decide_eq_false_iff_not, not_and]
    omega
  · intro rest
    exact hitem _ _ rest rfl rfl (htokens.laidOut rest)
  · have hle := htokens.length_le
    simp
    omega

/-- The text of an item is parsed. -/
theorem parses {item : Item} (h : Spells item u) (hlen : js.length < 2 ^ 31) (hn : n < 2 ^ 31) :
    Parses js n item u := by
  induction h with
  | string hs => exact value_string_parses hs hlen
  | primitive hw => exact value_primitive_parses hw hlen
  | @array vs u _ ih =>
    intro p post hdrop _ hp hroom
    have hdrop' : js.drop p.pos = 0x5b :: (u ++ 0x5d :: post) := by
      rw [hdrop]
      simp
    have hlength : (0x5b :: (u ++ [(0x5d : Byte)])).length = u.length + 2 := by simp
    have hnext : p.grow.tokens.length = p.toknext := toknext_grow p
    obtain ⟨tokens, hgoes, htokens⟩ := ih p.grow.tokens [] ⟨.array, p.pos, -1, 0⟩ (p.pos + 1) post
      (drop_succ hdrop') (by simp [Tok.isOpen]) rfl closed_nil (by
        rw [List.length_append, List.length_singleton, hnext]
        omega)
    rw [Nat.zero_add, List.nil_append] at hgoes
    exact container_parses .array (by decide) (by decide) hlen hn hdrop' hp (by omega)
      ⟨tokens, _, hgoes, htokens⟩ (fun t ht => .array ht)
      fun tok t rest htype hsize ht => .array htype hsize ht
  | @object ms u _ ih =>
    intro p post hdrop _ hp hroom
    have hdrop' : js.drop p.pos = 0x7b :: (u ++ 0x7d :: post) := by
      rw [hdrop]
      simp
    have hlength : (0x7b :: (u ++ [(0x7d : Byte)])).length = u.length + 2 := by simp
    have hnext : p.grow.tokens.length = p.toknext := toknext_grow p
    obtain ⟨tokens, s, hgoes, htokens⟩ := ih p.grow.tokens [] ⟨.object, p.pos, -1, 0⟩ (p.pos + 1)
      post (drop_succ hdrop') (by simp [Tok.isOpen]) rfl closed_nil (by
        rw [List.length_append, List.length_singleton, hnext]
        omega)
    rw [Nat.zero_add, List.nil_append] at hgoes
    exact container_parses .object (by decide) (by decide) hlen hn hdrop' hp (by omega)
      ⟨tokens, s, hgoes, htokens⟩ (fun t ht => .object ht)
      fun tok t rest htype hsize ht => .object htype hsize ht
  | noElems hw =>
    intro outer inner box pos post hdrop _ _ _ _
    refine ⟨[], ?_, closed_nil, .noElems hw, fun rest => .noElems, Nat.zero_le _⟩
    rw [List.append_nil]
    exact goes_blanks hw hdrop hlen
  | lastElem hw _ hw' ih =>
    intro outer inner box pos post hdrop hbox _ hinner hroom
    obtain ⟨tokens, hgoes, htokens⟩ :=
      elem_parses ih hw hw' (by decide) hlen hdrop hbox hinner hroom
    refine ⟨tokens, hgoes, htokens.closed, .lastElem hw htokens.marks hw',
      fun rest => .elem (htokens.laidOut rest) .noElems, ?_⟩
    have hle := htokens.length_le
    simp only [List.length_append]
    omega
  | @elem v v' vs w u w' u' hw _ hw' _ ih ihs =>
    intro outer inner box pos post hdrop hbox htype hinner hroom
    have hdrop' : js.drop pos = w ++ (u ++ w') ++ 0x2c :: (u' ++ 0x5d :: post) := by
      rw [hdrop]
      simp
    have hlength : (w ++ (u ++ (w' ++ 0x2c :: u'))).length =
        (w ++ (u ++ w')).length + 1 + u'.length := by
      simp
      omega
    have hroom' : (outer ++ box :: inner).length + (w ++ (u ++ w')).length ≤ n := by omega
    obtain ⟨tokens, hgoes, htokens⟩ :=
      elem_parses ih hw hw' (by decide) hlen hdrop' hbox hinner hroom'
    have hbehind := drop_add_length hdrop'
    have hcomma := step_separator (n := n) { box with size := box.size + 1 }
      (p := ⟨pos + (w ++ (u ++ w')).length, outer.length,
        outer ++ { box with size := box.size + 1 } :: (inner ++ tokens)⟩) hbehind hlen rfl hbox
      (.inl htype) (hinner.append htokens.closed) (.inl rfl)
    have hle := htokens.length_le
    obtain ⟨tokens', hgoes', htokens'⟩ := ihs outer (inner ++ tokens)
      { box with size := box.size + 1 } (pos + (w ++ (u ++ w')).length + 1) post (drop_succ hbehind)
      hbox htype (hinner.append htokens.closed) (by
        simp only [List.length_append, List.length_cons] at hroom hle ⊢
        omega)
    refine ⟨tokens ++ tokens', ?_,
      htokens.append htokens' ?_ (.elem hw htokens.marks hw' htokens'.marks) ?_⟩
    · have hall := (hgoes.tail hcomma).trans hgoes'
      rw [hlength, List.length_cons, Nat.add_comm (v' :: vs).length 1, ← Nat.add_assoc box.size,
        ← Nat.add_assoc pos, ← Nat.add_assoc pos, ← List.append_assoc inner]
      exact hall
    · rw [hlength]
      simp only [List.length_append]
      omega
    · exact fun t t' rest ht ht' => .elem ht ht'
  | noMembers hw =>
    intro outer inner box pos post hdrop _ _ _ _
    refine ⟨[], outer.length, ?_, closed_nil, .noMembers hw, fun rest => .noMembers,
      Nat.zero_le _⟩
    rw [List.append_nil]
    exact goes_blanks hw hdrop hlen
  | @lastMember k v w w₁ w₂ u w' hw hk hw₁ hw₂ _ hw' ih =>
    intro outer inner box pos post hdrop hbox _ hinner hroom
    obtain ⟨key, tokens, s, hgoes, hkeymark, hkey, htokens, _⟩ :=
      member_parses ih hk hw hw₁ hw₂ hw' (by decide) hlen hn hdrop hbox hinner hroom
    have hle := htokens.length_le
    refine ⟨key :: tokens, s, hgoes, htokens.closed.cons hkey.closed, ?_, ?_, ?_⟩
    · rw [hkeymark]
      exact .lastMember hw hk hw₁ hw₂ htokens.marks hw'
    · exact fun rest => .member hkey (htokens.laidOut rest) .noMembers
    · simp only [keyed, List.length_append, List.length_cons]
      omega
  | @member k v m ms w w₁ w₂ u w' u' hw hk hw₁ hw₂ _ hw' _ ih ihs =>
    intro outer inner box pos post hdrop hbox htype hinner hroom
    have hdrop' : js.drop pos = w ++ (keyed k w₁ w₂ u ++ w') ++ 0x2c :: (u' ++ 0x7d :: post) := by
      rw [hdrop]
      simp
    have hlength : (w ++ (keyed k w₁ w₂ u ++ (w' ++ 0x2c :: u'))).length =
        (w ++ (keyed k w₁ w₂ u ++ w')).length + 1 + u'.length := by
      simp only [List.length_append, List.length_cons]
      omega
    have hroom' : (outer ++ box :: inner).length + (w ++ (keyed k w₁ w₂ u ++ w')).length ≤ n := by
      omega
    obtain ⟨key, tokens, s, hgoes, hkeymark, hkey, htokens, hs⟩ :=
      member_parses ih hk hw hw₁ hw₂ hw' (by decide) hlen hn hdrop' hbox hinner hroom'
    have hclosed : Closed (inner ++ key :: tokens) :=
      hinner.append (htokens.closed.cons hkey.closed)
    have hbehind := drop_add_length hdrop'
    have hget : (outer ++ { box with size := box.size + 1 } :: (inner ++ key :: tokens))[(
        (outer.length + 1 + inner.length : ℕ) : ℤ).toNat]? = some key := by
      have hidx : outer.length + 1 + inner.length =
          (outer ++ { box with size := box.size + 1 } :: inner).length := by
        rw [List.length_append, List.length_cons]
        omega
      rw [Int.toNat_natCast, ← List.cons_append, ← List.append_assoc, hidx,
        List.getElem?_append_right le_rfl, Nat.sub_self]
      rfl
    have hcomma := step_separator (n := n) { box with size := box.size + 1 }
      (p := ⟨pos + (w ++ (keyed k w₁ w₂ u ++ w')).length, s,
        outer ++ { box with size := box.size + 1 } :: (inner ++ key :: tokens)⟩) hbehind hlen rfl
      hbox (.inr htype) hclosed (by
        rcases hs with rfl | rfl
        · exact .inl rfl
        · exact .inr ⟨Int.natCast_nonneg _, key, hget, hkey.type⟩)
    have hle := htokens.length_le
    obtain ⟨tokens', s', hgoes', htokens'⟩ := ihs outer (inner ++ key :: tokens)
      { box with size := box.size + 1 } (pos + (w ++ (keyed k w₁ w₂ u ++ w')).length + 1) post
      (drop_succ hbehind) hbox htype hclosed (by
        simp only [keyed, List.length_append, List.length_cons] at hroom hle ⊢
        omega)
    have hle' := htokens'.length_le
    refine ⟨key :: tokens ++ tokens', s', ?_, ?_, ?_, ?_, ?_⟩
    · have hall := (hgoes.tail hcomma).trans hgoes'
      rw [hlength, List.length_cons, Nat.add_comm (m :: ms).length 1, ← Nat.add_assoc box.size,
        ← Nat.add_assoc pos, ← Nat.add_assoc pos, ← List.append_assoc inner]
      exact hall
    · exact (htokens.closed.cons hkey.closed).append htokens'.closed
    · rw [List.cons_append, hkeymark]
      exact .member hw hk hw₁ hw₂ htokens.marks hw' htokens'.marks
    · intro rest
      rw [List.append_assoc]
      exact .member hkey (htokens.laidOut _) (htokens'.laidOut rest)
    · simp only [keyed, List.length_append, List.length_cons] at hle hle' ⊢
      omega

end Items

/-! ## The size of the array -/

section Size

variable {js : List Byte} {n m : ℕ} {p q : Parser} {s : Parser × ℤ} {x : ℤ × Parser}

theorem tracks_of (p : Parser) : Tracks p ⟨p.pos, openTypes p.tokens, p.toknext⟩ := ⟨rfl, rfl, rfl⟩

/-- A turn does not take tokens away. -/
theorem Step.toknext_le (h : Step js n p q) (hn : n ≤ 2 ^ 31) (hp : p.toknext ≤ n) :
    p.toknext ≤ q.toknext ∧ q.toknext ≤ n := by
  obtain ⟨turn, hread, hside⟩ := ParseTurn.beside h hn (tracks_of p) (enter_count p) hp
  cases hside with
  | next htracks hroom =>
    refine ⟨?_, hroom⟩
    have hcount := htracks.count
    cases hread.move with
    | token tok pos =>
      simp only [Reading.add] at hcount
      omega
    | skip pos opened => exact hcount.le

/-- A turn needs no more room than there is behind it. -/
theorem Step.smaller (h : Step js m p q) (hnm : n ≤ m) (hm : m ≤ 2 ^ 31) (hp : p.toknext ≤ m)
    (hq : q.toknext ≤ n) : Step js n p q := by
  have hpn : p.toknext ≤ n := (h.toknext_le hm hp).1.trans hq
  obtain ⟨turn, hread, hside⟩ := ParseTurn.beside h hm (tracks_of p) (enter_count p) hp
  cases hside with
  | @next _ _ r' htracks _ =>
    rcases ParseTurn.smaller hnm h with hsame | hfull
    · exact hsame
    · -- the array is full only in front of one more token
      obtain ⟨turn', hread', hside'⟩ :=
        ParseTurn.beside hfull (hnm.trans hm) (tracks_of p) (enter_count p) hpn
      obtain rfl : turn' = .next r' := Yields.unique hread' hread
      cases hside' with
      | full hlt =>
        rw [htracks.count] at hlt
        omega

/-- The parser makes no more tokens than there is room for. -/
theorem Goes.toknext_le (h : Goes js n p q) (hn : n ≤ 2 ^ 31) (hp : p.toknext ≤ n) :
    q.toknext ≤ n := by
  induction h with
  | refl => exact hp
  | tail _ hstep ih => exact (hstep.toknext_le hn ih).2

/-- A smaller array will do if the tokens fit into it. -/
theorem Goes.smaller (h : Goes js m p q) (hnm : n ≤ m) (hm : m ≤ 2 ^ 31) (hp : p.toknext ≤ m)
    (hq : q.toknext ≤ n) : Goes js n p q := by
  induction h with
  | refl => exact .refl
  | @tail b c hgoes hstep ih =>
    have hb : b.toknext ≤ m := Goes.toknext_le hgoes hm hp
    exact .tail (ih ((hstep.toknext_le hm hb).1.trans hq)) (hstep.smaller hnm hm hb hq)

/-- A call never has more tokens than the array. -/
theorem toknext_le_of_ends (h : Ends (ParseTurn js n) s x) (hs : s.2 = cInt s.1.toknext)
    (hn : n ≤ 2 ^ 31) (hle : s.1.toknext ≤ n) : x.2.toknext ≤ n := by
  induction h with
  | done hturn =>
    rw [hturn.done]
    exact hle
  | @next s t x hturn _ ih =>
    have ht : t.2 = cInt t.1.toknext := hturn.next hs
    have hstep : Step js n s.1 t.1 := by
      rw [Step, Parser.enter, Parser.enter, ← hs, ← ht]
      exact hturn
    exact ih ht (hstep.toknext_le hn hle).2

/-- At the end of a text whose tokens have all been closed, the parser counts them. -/
theorem ends_at_end (hpos : js.length ≤ p.pos) (hclosed : Closed p.tokens)
    (hroom : p.toknext < 2 ^ 31) : Ends (ParseTurn js n) p.enter ((p.toknext : ℤ), p) := by
  have hcase : caseAt js p.pos = .stop := by
    rw [caseAt, List.getElem?_eq_none hpos]
    rfl
  have hany : ¬ p.tokens.any Tok.isOpen = true := by
    simp only [List.any_eq_true, not_exists, not_and]
    intro t ht
    rw [hclosed t ht]
    decide
  have hend : parseEnd p (cInt p.toknext) = ((p.toknext : ℤ), p) := by
    rw [parseEnd, if_neg hany, cInt_of_range (by omega) (by omega)]
  refine .done ⟨0, fun fuel _ => ?_⟩
  rw [← hend]
  simp only [parseBody, Parser.enter, hcase]

end Size

/-! ## Reading the tokens -/

/-- What reading an item off `tokens` gives: the item, and `rest` is left. -/
def ReadsOff (js : List Byte) (depth : ℕ) : Item → List Tok → List Tok → Prop
  | .value v, tokens, rest => valueAt js depth tokens = some (v, rest)
  | .elems vs, tokens, rest => elemsAt (valueAt js depth) vs.length tokens = some (vs, rest)
  | .members ms, tokens, rest =>
    membersAt js (valueAt js depth) ms.length tokens = some (ms, rest)

section Reading

variable {js post u w w₁ w₂ k : List Byte} {pos depth : ℕ} {v : Json} {tokens rest : List Tok}

/-- The text of a token is what stands between its start and its end. -/
theorem slice_of_drop {tok : Tok} (h : js.drop pos = w ++ post) (hstart : tok.start = pos)
    (hstop : tok.stop = (pos + w.length : ℕ)) : tok.slice js = w := by
  have hlength : (((pos + w.length : ℕ) : ℤ) - pos).toNat = w.length := by omega
  rw [Tok.slice, hstart, hstop, Int.toNat_natCast, hlength, h, List.take_left]

/-- The text of a string token is the string. -/
theorem string_slice (h : js.drop pos = 0x22 :: (w ++ 0x22 :: post)) (size : ℕ) :
    Tok.slice js ⟨.string, (pos : ℤ) + 1, (pos : ℤ) + 1 + w.length, size⟩ = w :=
  slice_of_drop (drop_succ h) (Nat.cast_succ pos).symm (by push_cast; rfl)

/-- The text of a primitive token is the primitive. -/
theorem primitive_slice (h : js.drop pos = w ++ post) (size : ℕ) :
    Tok.slice js ⟨.primitive, pos, (pos : ℤ) + w.length, size⟩ = w :=
  slice_of_drop h rfl (by push_cast; rfl)

/-- The token of a key marks the key. -/
theorem key_slice (h : js.drop pos = w ++ (keyed k w₁ w₂ u ++ post)) :
    Tok.slice js ⟨.string, (pos + w.length : ℕ) + 1, (pos + w.length : ℕ) + 1 + k.length, 1⟩ =
      k := by
  have hkey : js.drop (pos + w.length) =
      0x22 :: (k ++ 0x22 :: (w₁ ++ 0x3a :: (w₂ ++ (u ++ post)))) := by
    rw [drop_add_length h]
    simp only [keyed, List.append_assoc, List.cons_append]
  exact string_slice hkey 1

/-- The value of a key stands behind it. -/
theorem value_drop (h : js.drop pos = w ++ (keyed k w₁ w₂ u ++ post)) :
    js.drop (pos + (w ++ keyed k w₁ w₂ []).length) = u ++ post := by
  apply drop_add_length
  rw [h]
  simp only [keyed, List.append_assoc, List.cons_append, List.append_nil]

/-- The tokens of an item are read as this item, whatever stands behind them. -/
theorem Marks.readsOff {item : Item} (h : Marks pos item u tokens) (hdrop : js.drop pos = u ++ post)
    (hdepth : tokens.length ≤ depth) : ReadsOff js depth item (tokens ++ rest) rest := by
  induction h generalizing depth post rest with
  | string _ =>
    obtain ⟨d, rfl⟩ : ∃ d, depth = d + 1 := Nat.exists_eq_add_one.mpr hdepth
    rw [List.cons_append, List.append_assoc] at hdrop
    simp only [ReadsOff, valueAt, List.cons_append, List.nil_append, string_slice hdrop]
  | primitive _ =>
    obtain ⟨d, rfl⟩ : ∃ d, depth = d + 1 := Nat.exists_eq_add_one.mpr hdepth
    simp only [ReadsOff, valueAt, List.cons_append, List.nil_append, primitive_slice hdrop]
  | @array pos vs u ts _ ih =>
    obtain ⟨d, rfl⟩ : ∃ d, depth = d + 1 :=
      Nat.exists_eq_add_one.mpr (Nat.zero_lt_of_lt hdepth)
    rw [List.cons_append, List.append_assoc] at hdrop
    have helems : elemsAt (valueAt js d) vs.length (ts ++ rest) = some (vs, rest) :=
      ih (drop_succ hdrop) (Nat.le_of_succ_le_succ hdepth)
    simp only [ReadsOff, valueAt, List.cons_append, helems, Option.map_some]
  | @object pos ms u ts _ ih =>
    obtain ⟨d, rfl⟩ : ∃ d, depth = d + 1 :=
      Nat.exists_eq_add_one.mpr (Nat.zero_lt_of_lt hdepth)
    rw [List.cons_append, List.append_assoc] at hdrop
    have hmembers : membersAt js (valueAt js d) ms.length (ts ++ rest) = some (ms, rest) :=
      ih (drop_succ hdrop) (Nat.le_of_succ_le_succ hdepth)
    simp only [ReadsOff, valueAt, List.cons_append, hmembers, Option.map_some]
  | noElems _ => rfl
  | lastElem _ _ _ ih =>
    rw [List.append_assoc, List.append_assoc] at hdrop
    have hvalue : valueAt js depth _ = some (_, rest) := ih (drop_add_length hdrop) hdepth
    simp only [ReadsOff, List.length_singleton, elemsAt, hvalue, Option.bind_some, Option.map_some]
  | @elem pos v v' vs w u w' u' ts ts' _ _ _ _ ih ihs =>
    rw [List.length_append] at hdepth
    have hsplit : js.drop pos = w ++ (u ++ w') ++ (0x2c :: (u' ++ post)) := by
      rw [hdrop]
      simp only [List.append_assoc, List.cons_append]
    have hfront : js.drop pos = w ++ (u ++ (w' ++ (0x2c :: (u' ++ post)))) := by
      rw [hsplit]
      simp only [List.append_assoc]
    have hvalue : valueAt js depth (ts ++ (ts' ++ rest)) = some (v, ts' ++ rest) :=
      ih (drop_add_length hfront) (by omega)
    have hrest : elemsAt (valueAt js depth) (vs.length + 1) (ts' ++ rest) = some (v' :: vs, rest) :=
      ihs (drop_succ (drop_add_length hsplit)) (by omega)
    simp only [ReadsOff, List.length_cons, List.append_assoc]
    rw [elemsAt, hvalue, Option.bind_some, hrest, Option.map_some]
  | noMembers _ => rfl
  | @lastMember pos k v w w₁ w₂ u w' ts _ _ _ _ _ _ ih =>
    rw [List.append_assoc, List.append_assoc] at hdrop
    have hvalue : valueAt js depth (ts ++ rest) = some (v, rest) :=
      ih (value_drop hdrop) (Nat.le_of_succ_le hdepth)
    simp only [ReadsOff, List.length_singleton, List.cons_append, membersAt, hvalue,
      Option.bind_some, Option.map_some, key_slice hdrop]
  | @member pos k v m ms w w₁ w₂ u w' u' ts ts' _ _ _ _ _ _ _ ih ihs =>
    rw [List.length_cons, List.length_append] at hdepth
    have hsplit : js.drop pos = w ++ (keyed k w₁ w₂ u ++ w') ++ (0x2c :: (u' ++ post)) := by
      rw [hdrop]
      simp only [List.append_assoc, List.cons_append]
    have hfront : js.drop pos = w ++ (keyed k w₁ w₂ u ++ (w' ++ (0x2c :: (u' ++ post)))) := by
      rw [hsplit]
      simp only [List.append_assoc]
    have hvalue : valueAt js depth (ts ++ (ts' ++ rest)) = some (v, ts' ++ rest) :=
      ih (value_drop hfront) (by omega)
    have hrest : membersAt js (valueAt js depth) (ms.length + 1) (ts' ++ rest) =
        some (m :: ms, rest) := ihs (drop_succ (drop_add_length hsplit)) (by omega)
    simp only [ReadsOff, List.length_cons, List.cons_append, List.append_assoc]
    rw [membersAt, hvalue, Option.bind_some, hrest, Option.map_some, key_slice hfront]

/-- A value is read off its tokens. -/
theorem DocumentMarks.readOff_eq (h : DocumentMarks v js tokens) : readOff js tokens = some v := by
  cases h with
  | @mk w u w' _ _ h _ =>
    have hvalue : valueAt (w ++ (u ++ w')) tokens.length (tokens ++ []) = some (v, []) :=
      h.readsOff List.drop_left le_rfl
    rw [List.append_nil] at hvalue
    rw [readOff, hvalue, Option.bind_some]
    rfl

/-- Tokens are those of one value at most. -/
theorem DocumentMarks.unique {v' : Json} (h : DocumentMarks v js tokens)
    (h' : DocumentMarks v' js tokens) : v' = v :=
  Option.some_inj.mp (h'.readOff_eq.symm.trans h.readOff_eq)

end Reading

/-! ## Documents -/

section Documents

variable {js : List Byte} {v : Json}

/-- With one token for every character there is room enough. -/
theorem document_goes (h : Document v js) (hlen : js.length < 2 ^ 31) :
    ∃ tokens, Goes js js.length jsmnInit ⟨js.length, -1, tokens⟩ ∧ Closed tokens ∧
      DocumentMarks v js tokens ∧ LaidOut js (.value v) tokens [] ∧ tokens.length ≤ js.length := by
  cases h with
  | @mk w u w' hw hspells hw' =>
    set js := w ++ (u ++ w') with hjs
    have hlength : js.length = w.length + (u.length + w'.length) := by
      rw [hjs, List.length_append, List.length_append]
    have hfront : js.drop w.length = u ++ w' := by rw [hjs, List.drop_left]
    have hblanks : Goes js js.length jsmnInit ⟨w.length, -1, []⟩ := by
      have hgoes := goes_blanks (n := js.length) (p := jsmnInit) hw
        (show js.drop 0 = w ++ (u ++ w') from hjs) hlen
      rw [jsmnInit, Nat.zero_add] at hgoes
      exact hgoes
    have hfollows : Follows w' := by
      have hnil := follows_nil.blanks hw'
      rwa [List.append_nil] at hnil
    obtain ⟨tokens, s, hvalue, hs, htokens⟩ := parses hspells hlen hlen ⟨w.length, -1, []⟩ w' hfront
      hfollows (.inl rfl) (by
        rw [Parser.toknext, List.length_nil]
        omega)
    have hsuper : s = -1 := hs.elim id id
    rw [hsuper] at hvalue
    have hbehind := goes_blanks (n := js.length) (p := ⟨w.length + u.length, -1, tokens⟩) hw'
      (show js.drop (w.length + u.length) = w' ++ [] by
        rw [List.append_nil]
        exact drop_add_length hfront) hlen
    have hend : w.length + u.length + w'.length = js.length := by omega
    simp only [hend] at hbehind
    refine ⟨tokens, (hblanks.trans hvalue).trans hbehind, htokens.closed, ?_, ?_, ?_⟩
    · exact .mk hw htokens.marks hw'
    · have hlaid := htokens.laidOut []
      rwa [List.append_nil] at hlaid
    · have hle := htokens.length_le
      omega

/-- An array for the tokens of the value is large enough. -/
theorem document_ends (h : Document v js) (hlen : js.length < 2 ^ 31) :
    ∃ tokens, tokens.length ≤ js.length ∧ DocumentMarks v js tokens ∧
      LaidOut js (.value v) tokens [] ∧
      Ends (ParseTurn js tokens.length) jsmnInit.enter
        ((tokens.length : ℤ), ⟨js.length, -1, tokens⟩) := by
  obtain ⟨tokens, hgoes, hclosed, hmarks, hlaid, hle⟩ := document_goes h hlen
  have hexact : Goes js tokens.length jsmnInit ⟨js.length, -1, tokens⟩ :=
    hgoes.smaller hle hlen.le (Nat.zero_le _) le_rfl
  have hroom : tokens.length < 2 ^ 31 := hle.trans_lt hlen
  exact ⟨tokens, hle, hmarks, hlaid, hexact.ends (ends_at_end le_rfl hclosed hroom)⟩

theorem count_ne_nomem (k : ℕ) : (k : ℤ) ≠ JsmnErr.nomem.code := by
  show (k : ℤ) ≠ -1
  omega

/-- `jsmn_parse` on the text of a value: the array it needs has as many tokens as the value, and
with such an array it fills in the tokens of this value, off which it is read again, and no other
value is. -/
theorem jsmnParse_document (h : Document v js) (hlen : js.length < 2 ^ 31) :
    ∃ tokens, tokens.length ≤ js.length ∧ DocumentMarks v js tokens ∧
      readOff js tokens = some v ∧ (∀ v', DocumentMarks v' js tokens → v' = v) ∧
      LaidOut js (.value v) tokens [] ∧
      ∀ n ≤ 2 ^ 31, ∃ x, Yields (jsmnParse js n jsmnInit) x ∧
        (tokens.length ≤ n → x = ((tokens.length : ℤ), ⟨js.length, -1, tokens⟩)) ∧
        (n < tokens.length → x.1 = JsmnErr.nomem.code) := by
  obtain ⟨tokens, hle, hmarks, hlaid, hexact⟩ := document_ends h hlen
  refine ⟨tokens, hle, hmarks, hmarks.readOff_eq, fun v' => hmarks.unique, hlaid, ?_⟩
  intro n hn
  rcases Nat.lt_or_ge n tokens.length with hlt | hge
  · obtain ⟨y, hy⟩ := ends_smaller hlt.le hexact
    refine ⟨y, jsmnParse_yields_iff.mpr hy, fun hge => absurd hge (by omega), fun _ => ?_⟩
    by_contra hyok
    have hsame := parse_unique hexact ((ends_larger hlt.le hy (enter_count _)).1 hyok)
    have hroom := toknext_le_of_ends hy (enter_count _) hn (Nat.zero_le _)
    rw [← hsame] at hroom
    exact absurd (show tokens.length ≤ n from hroom) (by omega)
  · have hlarger := (ends_larger hge hexact (enter_count _)).1 (count_ne_nomem _)
    exact ⟨_, jsmnParse_yields_iff.mpr hlarger, fun _ => rfl, fun hlt => absurd hlt (by omega)⟩

end Documents

/-- An object with one member, with a blank in front of it. -/
def spacedText : List Byte := [0x20, 0x7b, 0x22, 0x61, 0x22, 0x20, 0x3a, 0x20, 0x31, 0x7d]

theorem jsmnParse_document_spaced :
    ∃ tokens, DocumentMarks (.object [([0x61], .primitive [0x31])]) spacedText tokens ∧
      readOff spacedText tokens = some (.object [([0x61], .primitive [0x31])]) ∧
      Yields (jsmnParse spacedText 128 jsmnInit) ((tokens.length : ℤ), ⟨10, -1, tokens⟩) := by
  have hblank : Blanks [0x20] := by
    intro c hc
    rw [List.mem_singleton.mp hc]
    decide
  have hnone : Blanks [] := fun c hc => absurd hc List.not_mem_nil
  have hkey : StringText [0x61] := .plain (by decide) (by decide) (by decide) .nil
  have hone : PrimitiveText [0x31] := .mk (by decide) (by
    intro c hc
    rw [List.mem_singleton.mp hc]
    decide)
  have hdoc : Document (.object [([0x61], .primitive [0x31])]) spacedText :=
    .mk hblank (.object (.lastMember hnone hkey hblank hblank (.primitive hone) hnone)) hnone
  obtain ⟨tokens, hle, hmarks, hread, _, _, hparse⟩ := jsmnParse_document hdoc (by decide)
  obtain ⟨x, hx, hfits, _⟩ := hparse 128 (by decide)
  refine ⟨tokens, hmarks, hread, ?_⟩
  obtain rfl := hfits (hle.trans (by decide))
  exact hx

end Wandio.Jsmn
