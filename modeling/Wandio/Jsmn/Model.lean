import Wandio.Interface
import Wandio.Utils.Loop

/-!
# The JSON parser

`jsmn.c` as it is built here, without `JSMN_STRICT` and without `JSMN_PARENT_LINKS`: one pass over
the text fills an array of tokens. When the array is full the parser gives up in front of the
token it has no room for, and can be called again with a larger array.

The position is an `unsigned int`, the text can be longer than one can count with it.
-/

namespace Wandio.Jsmn

open Loop

/-- `jsmntype_t` -/
inductive TokType where
  | undefined
  | object
  | array
  | string
  | primitive
deriving DecidableEq

/-- `jsmntok_t`; `stop` is the field `end`. -/
structure Tok where
  type : TokType
  start : ℤ
  stop : ℤ
  size : ℕ
deriving DecidableEq

/-- `jsmn_parser`, and the first `toknext` tokens of the array. -/
structure Parser where
  pos : ℕ
  toksuper : ℤ
  tokens : List Tok
deriving DecidableEq

def Parser.toknext (p : Parser) : ℕ := p.tokens.length

/-- `jsmn_init` -/
def jsmnInit : Parser := ⟨0, -1, []⟩

/-- `enum jsmnerr` -/
inductive JsmnErr where
  | nomem
  | inval
  | part
deriving DecidableEq

def JsmnErr.code : JsmnErr → ℤ
  | .nomem => -1
  | .inval => -2
  | .part => -3

/-- `parser->pos++` -/
def Parser.advance (p : Parser) : Parser := { p with pos := cUInt (p.pos + 1) }

/-! ## Tokens -/

/-- The token has been opened and not closed. -/
def Tok.isOpen (t : Tok) : Bool := t.start ≠ -1 ∧ t.stop = -1

/-- `jsmn_alloc_token`, and what is put in the token. -/
def jsmnAllocToken (numTokens : ℕ) (p : Parser) (tok : Tok) : Option Parser :=
  if numTokens ≤ p.toknext then none else some { p with tokens := p.tokens ++ [tok] }

/-- `tokens[toksuper].size++`, if there is a superior token. -/
def Parser.grow (p : Parser) : Parser :=
  if p.toksuper = -1 then p
  else { p with tokens := p.tokens.modify p.toksuper.toNat fun t => { t with size := t.size + 1 } }

/-- The last of the first `i` tokens with the property `f`. -/
def lastToken (f : Tok → Bool) (tokens : List Tok) : ℕ → Option ℕ
  | 0 => none
  | i + 1 => if (tokens[i]?).any f then some i else lastToken f tokens i

/-- An index as an `int`, -1 for none. -/
def indexOrNone (i : Option ℕ) : ℤ := i.elim (-1) fun i => (i : ℤ)

/-! ## Primitives and strings -/

/-- What ends a primitive: `:`, `\t`, `\r`, `\n`, a blank, `,`, `]` and `}`. -/
def endsPrimitive (c : Byte) : Bool :=
  c ∈ [0x3a, 0x09, 0x0d, 0x0a, 0x20, 0x2c, 0x5d, 0x7d]

/-- What a scan comes to: the position behind what it has read, or
that there is an error. -/
inductive Scan where
  | found (pos : ℕ)
  | inval
  | part
deriving DecidableEq

/-- A turn of the loop of `jsmn_parse_primitive` at `pos`. -/
def primitiveBody (js : List Byte) (pos : ℕ) : Turn ℕ Scan :=
  match js[pos]? with
  | none => .done (.found pos)
  | some c =>
    if c = 0 ∨ endsPrimitive c then .done (.found pos)
    else if c < 32 ∨ 127 ≤ c then .done .inval
    else .next (cUInt (pos + 1))

/-- The `i` characters behind `\u`, as far as there are any: where they end. -/
def hexDigits (js : List Byte) : ℕ → ℕ → Option ℕ
  | 0, pos => some pos
  | i + 1, pos =>
    match js[pos]? with
    | none => some pos
    | some c =>
      if c = 0 then some pos
      else if (48 ≤ c ∧ c ≤ 57) ∨ (65 ≤ c ∧ c ≤ 70) ∨ (97 ≤ c ∧ c ≤ 102) then
        hexDigits js i (cUInt (pos + 1))
      else none

/-- The escaped characters `"`, `/`, `\`, `b`, `f`, `r`, `n` and `t`. -/
def isEscape (c : Byte) : Bool := c ∈ [0x22, 0x2f, 0x5c, 0x62, 0x66, 0x72, 0x6e, 0x74]

/-- A turn of the loop of `jsmn_parse_string` at `pos`. -/
def stringBody (js : List Byte) (pos : ℕ) : Turn ℕ Scan :=
  match js[pos]? with
  | none => .done .part
  | some c =>
    if c = 0 then .done .part
    else if c = 0x22 then .done (.found pos)
    else if c = 0x5c ∧ cUInt (pos + 1) < js.length then
      let pos := cUInt (pos + 1)
      match js[pos]? with
      | none => .done .inval
      | some c =>
        if isEscape c then .next (cUInt (pos + 1))
        else if c = 0x75 then
          -- the `pos--` behind the digits undoes the `pos++` of the loop
          match hexDigits js 4 (cUInt (pos + 1)) with
          | none => .done .inval
          | some pos => .next pos
        else .done .inval
    else .next (cUInt (pos + 1))

/-- `jsmn_parse_primitive` -/
def jsmnParsePrimitive (js : List Byte) (numTokens : ℕ) (p : Parser) (fuel : ℕ) :
    Option (ℤ × Parser) :=
  (loop (primitiveBody js) fuel p.pos).map fun
    | .inval => (JsmnErr.inval.code, p)
    | .part => (JsmnErr.part.code, p)
    | .found pos =>
      match jsmnAllocToken numTokens p ⟨.primitive, cInt p.pos, cInt pos, 0⟩ with
      | none => (JsmnErr.nomem.code, p)
      -- `pos--`
      | some q => (0, { q with pos := cUInt (pos + (2 ^ 32 - 1)) })

/-- `jsmn_parse_string` -/
def jsmnParseString (js : List Byte) (numTokens : ℕ) (p : Parser) (fuel : ℕ) :
    Option (ℤ × Parser) :=
  (loop (stringBody js) fuel (cUInt (p.pos + 1))).map fun
    | .inval => (JsmnErr.inval.code, p)
    | .part => (JsmnErr.part.code, p)
    | .found pos =>
      match jsmnAllocToken numTokens p ⟨.string, cInt (p.pos + 1), cInt pos, 0⟩ with
      | none => (JsmnErr.nomem.code, p)
      | some q => (0, { q with pos := pos })

/-! ## The parser -/

/-- `{` or `[` -/
def openToken (numTokens : ℕ) (p : Parser) (type : TokType) : Option Parser :=
  (jsmnAllocToken numTokens p ⟨type, cInt p.pos, -1, 0⟩).map fun q =>
    { q.grow with toksuper := cInt (q.toknext - 1 : ℤ) }

/-- `}` or `]`; `none` is `JSMN_ERROR_INVAL`. -/
def closeToken (p : Parser) (type : TokType) : Option Parser :=
  match lastToken Tok.isOpen p.tokens p.toknext with
  -- an unmatched closing bracket
  | none => none
  | some i =>
    if (p.tokens[i]?).any (·.type ≠ type) then none
    else
      let tokens := p.tokens.modify i fun t => { t with stop := cInt (p.pos + 1) }
      some
        { p with
          tokens := tokens
          toksuper := indexOrNone (lastToken Tok.isOpen tokens (i + 1)) }

/-- `,`: behind the value of a key the superior token is again the object of the key. -/
def commaToken (p : Parser) : Parser :=
  if p.toksuper ≠ -1 ∧ (p.tokens[p.toksuper.toNat]?).any fun t =>
      t.type ≠ .array ∧ t.type ≠ .object then
    match lastToken (fun t => (t.type = .array ∨ t.type = .object) ∧ t.isOpen) p.tokens
        p.toknext with
    | some i => { p with toksuper := i }
    | none => p
  else p

/-- The return of `jsmn_parse` behind the loop. -/
def parseEnd (p : Parser) (count : ℤ) : ℤ × Parser :=
  if p.tokens.any Tok.isOpen then (JsmnErr.part.code, p) else (count, p)

/-- A string or a primitive has been read. -/
def parsedToken (count : ℤ) (r : ℤ × Parser) : Turn (Parser × ℤ) (ℤ × Parser) :=
  if r.1 < 0 then .done r else .next (r.2.grow.advance, cInt (count + 1))

/-- The cases of the `switch` of `jsmn_parse`, and the end of the loop. -/
inductive Case where
  | stop
  | opening (type : TokType)
  | closing (type : TokType)
  | quote
  | blank
  | colon
  | comma
  | other
deriving DecidableEq

def caseOf (c : Byte) : Case :=
  if c = 0 then .stop
  else if c = 0x7b then .opening .object
  else if c = 0x5b then .opening .array
  else if c = 0x7d then .closing .object
  else if c = 0x5d then .closing .array
  else if c = 0x22 then .quote
  else if c ∈ [0x09, 0x0d, 0x0a, 0x20] then .blank
  else if c = 0x3a then .colon
  else if c = 0x2c then .comma
  else .other

/-- What `parser->pos < len && js[parser->pos] != '\0'` and the `switch` make of a position. -/
def caseAt (js : List Byte) (pos : ℕ) : Case := (js[pos]?).elim .stop caseOf

/-- A turn of the loop of `jsmn_parse`. -/
def parseBody (js : List Byte) (numTokens fuel : ℕ) (p : Parser) (count : ℤ) :
    Option (Turn (Parser × ℤ) (ℤ × Parser)) :=
  match caseAt js p.pos with
  | .stop => some (.done (parseEnd p count))
  | .opening type =>
    match openToken numTokens p type with
    | none => some (.done (JsmnErr.nomem.code, p))
    | some q => some (.next (q.advance, cInt (count + 1)))
  | .closing type =>
    match closeToken p type with
    | none => some (.done (JsmnErr.inval.code, p))
    | some q => some (.next (q.advance, count))
  | .quote => (jsmnParseString js numTokens p fuel).map (parsedToken count)
  | .blank => some (.next (p.advance, count))
  | .colon => some (.next ({ p with toksuper := cInt (p.toknext - 1 : ℤ) }.advance, count))
  | .comma => some (.next ((commaToken p).advance, count))
  | .other => (jsmnParsePrimitive js numTokens p fuel).map (parsedToken count)

/-- `jsmn_parse` on the text `js`, with an array of `numTokens` tokens. -/
def jsmnParse (js : List Byte) (numTokens : ℕ) (p : Parser) (fuel : ℕ) : Option (ℤ × Parser) :=
  nested (fun fuel s => parseBody js numTokens fuel s.1 s.2) fuel (p, cInt p.toknext)

end Wandio.Jsmn
