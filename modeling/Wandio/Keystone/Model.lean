import Wandio.Jsmn.UtilsModel

/-!
# The answer of the authentication server

`keystone.c`: the answer is parsed into an array of tokens that is made twice as large as often as
it is too small, and then walked through for the storage url. The walk trusts the sizes of the
tokens.

Allocations do not fail here.
-/

namespace Wandio.Keystone

open Loop Jsmn

/-! ## Parsing -/

/-- A turn at `again:`, with an array of `tokcount` tokens. -/
def againBody (js : List Byte) (fuel : ℕ) (s : ℕ × Parser) :
    Option (Turn (ℕ × Parser) (ℤ × Parser)) :=
  (jsmnParse js (cUInt s.1) s.2 fuel).map fun r =>
    if r.1 = JsmnErr.nomem.code then .next (2 * s.1 % 2 ^ 64, r.2) else .done r

/-- `process_auth_response` up to the walk. -/
def parseResponse (js : List Byte) (fuel : ℕ) : Option (ℤ × Parser) :=
  nested (againBody js) fuel (128, jsmnInit)

/-! ## Walking -/

/-- `BUFLEN` -/
def buflen : ℕ := 1024

/-- The letters of the keys and values that are looked for. -/
def interfaceName : List Byte := [0x69, 0x6e, 0x74, 0x65, 0x72, 0x66, 0x61, 0x63, 0x65]
def publicValue : List Byte := [0x70, 0x75, 0x62, 0x6c, 0x69, 0x63]
def urlName : List Byte := [0x75, 0x72, 0x6c]
def typeName : List Byte := [0x74, 0x79, 0x70, 0x65]
def objectStoreValue : List Byte :=
  [0x6f, 0x62, 0x6a, 0x65, 0x63, 0x74, 0x2d, 0x73, 0x74, 0x6f, 0x72, 0x65]
def endpointsName : List Byte := [0x65, 0x6e, 0x64, 0x70, 0x6f, 0x69, 0x6e, 0x74, 0x73]
def tokenName : List Byte := [0x74, 0x6f, 0x6b, 0x65, 0x6e]
def catalogName : List Byte := [0x63, 0x61, 0x74, 0x61, 0x6c, 0x6f, 0x67]

/-- `urllen` for the token of a url. -/
def urlLength (tok : Tok) : ℕ := (cInt (tok.stop - tok.start) % 2 ^ 64).toNat

/-- The bytes that are copied from `urltmp`. -/
def urlBytes (js : List Byte) (tok : Tok) : List Byte :=
  (js.drop tok.start.toNat).take (urlLength tok)

/-- The bytes of an array up to the first zero. -/
def cString (bytes : List Byte) : List Byte := bytes.takeWhile (· ≠ 0)

/-- A cursor into the tokens, `none` for `NULL` or `goto err`. -/
abbrev Cursor := Option (List Tok)

/-- A loop over the elements of an array or over the members of an object, up to a `goto err`. -/
def each {α : Type} (body : α → List Tok → Except Fault (α × Cursor)) :
    ℕ → α → List Tok → Except Fault (α × Cursor)
  | 0, a, t => .ok (a, some t)
  | n + 1, a, t => do
    let (a, t) ← body a t
    match t with
    | none => .ok (a, none)
    | some t => each body n a t

/-- The local variables of `process_endpoint_entry`; `urltmp` is what it points at. -/
structure Endpoint where
  foundInterface : Bool
  urltmp : List Byte
  urllen : ℕ
deriving DecidableEq

/-- The body of the loop of `process_endpoint_entry`. -/
def endpointKey (js : List Byte) (e : Endpoint) (t : List Tok) :
    Except Fault (Endpoint × Cursor) := do
  let key ← deref t
  if jsmnStreq js key interfaceName then
    let value ← deref t.tail
    if value.type ≠ .string then .ok (e, none)
    else if jsmnStreq js value publicValue then
      .ok ({ e with foundInterface := true }, some t.tail.tail)
    else .ok (e, some t.tail.tail)
  else if jsmnStreq js key urlName then
    let value ← deref t.tail
    if value.type ≠ .string then .ok (e, none)
    else .ok ({ e with urltmp := urlBytes js value, urllen := urlLength value }, some t.tail.tail)
  else
    let t ← jsmnSkip t.tail
    .ok (e, some t)

/-- The end of `process_endpoint_entry`: the url of a public endpoint is copied to `urlbuf`. -/
def copyUrl (urlbufLen : ℕ) (urlbuf : List Byte) (e : Endpoint) : Except Fault (List Byte) :=
  if e.foundInterface then
    if e.urllen < urlbufLen then .ok (cString e.urltmp) else .error .assertion
  else .ok urlbuf

/-- `process_endpoint_entry`; `urlbuf` is the string in the buffer. -/
def processEndpointEntry (urlbufLen : ℕ) (js urlbuf : List Byte) (t : List Tok) :
    Except Fault (List Byte × Cursor) := do
  let tok ← deref t
  if tok.type ≠ .object then .ok (urlbuf, none)
  else
    let (e, t) ← each (endpointKey js) tok.size ⟨false, [], 0⟩ t.tail
    match t with
    | none => .ok (urlbuf, none)
    | some t =>
      let urlbuf ← copyUrl urlbufLen urlbuf e
      .ok (urlbuf, some t)

/-- The local variables of `process_catalog_entry`. -/
structure Entry where
  foundService : Bool
  urlbuf : List Byte
deriving DecidableEq

/-- The body of the loop of `process_catalog_entry`. -/
def catalogKey (js : List Byte) (c : Entry) (t : List Tok) : Except Fault (Entry × Cursor) := do
  let key ← deref t
  if jsmnStreq js key typeName then
    let value ← deref t.tail
    if value.type ≠ .string then .ok (c, none)
    else if jsmnStreq js value objectStoreValue then
      .ok ({ c with foundService := true }, some t.tail.tail)
    else .ok (c, some t.tail.tail)
  else if jsmnStreq js key endpointsName then
    let value ← deref t.tail
    if value.type ≠ .array then .ok (c, none)
    else
      let (urlbuf, t) ← each (processEndpointEntry buflen js) value.size c.urlbuf t.tail.tail
      .ok ({ c with urlbuf := urlbuf }, t)
  else
    let t ← jsmnSkip t.tail
    .ok (c, some t)

/-- The end of `process_catalog_entry`. -/
def storeUrl (storageUrl : Option (List Byte)) (c : Entry) (t : List Tok) :
    Option (List Byte) × Cursor :=
  if c.foundService then
    if c.urlbuf = [] then (storageUrl, none) else (storageUrl.or (some c.urlbuf), some t)
  else (storageUrl, some t)

/-- `process_catalog_entry`; the state is `token->storage_url`. -/
def processCatalogEntry (js : List Byte) (storageUrl : Option (List Byte)) (t : List Tok) :
    Except Fault (Option (List Byte) × Cursor) := do
  let tok ← deref t
  if tok.type ≠ .object then .ok (storageUrl, none)
  else
    let (c, t) ← each (catalogKey js) tok.size ⟨false, []⟩ t.tail
    match t with
    | none => .ok (storageUrl, none)
    | some t => .ok (storeUrl storageUrl c t)

/-- The body of the loop over the members of the child `token` in `process_json`. -/
def tokenKey (js : List Byte) (storageUrl : Option (List Byte)) (t : List Tok) :
    Except Fault (Option (List Byte) × Cursor) := do
  let key ← deref t
  if jsmnStreq js key catalogName then
    let value ← deref t.tail
    if value.type ≠ .array then .ok (storageUrl, none)
    else each (processCatalogEntry js) value.size storageUrl t.tail.tail
  else
    let t ← jsmnSkip t.tail
    .ok (storageUrl, some t)

/-- The body of the loop over the members of the root in `process_json`. -/
def rootKey (js : List Byte) (storageUrl : Option (List Byte)) (t : List Tok) :
    Except Fault (Option (List Byte) × Cursor) := do
  let key ← deref t
  if key.type ≠ .string then .ok (storageUrl, none)
  else if jsmnStreq js key tokenName then
    let value ← deref t.tail
    if value.type ≠ .object then .ok (storageUrl, none)
    else each (tokenKey js) value.size storageUrl t.tail.tail
  else
    let t ← jsmnSkip t.tail
    .ok (storageUrl, some t)

/-- `process_json` on the `count` tokens of an answer: what it returns, and
`token->storage_url`. -/
def processJson (js : List Byte) (storageUrl : Option (List Byte)) (root : List Tok) :
    Except Fault (ℤ × Option (List Byte)) :=
  match root with
  | [] => .ok (-1, storageUrl)
  | tok :: t =>
    if tok.type ≠ .object then .ok (-1, storageUrl)
    else
      (each (rootKey js) tok.size storageUrl t).map fun r => (if r.2.isSome then 0 else -1, r.1)

/-- `process_auth_response` -/
def processAuthResponse (js : List Byte) (storageUrl : Option (List Byte)) (fuel : ℕ) :
    Option (Except Fault (ℤ × Option (List Byte))) :=
  (parseResponse js fuel).map fun r =>
    if r.1 < 0 then .ok (-1, storageUrl) else processJson js storageUrl r.2.tokens

end Wandio.Keystone
