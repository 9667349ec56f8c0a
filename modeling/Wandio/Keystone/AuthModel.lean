import Wandio.Environment.Model
import Wandio.Keystone.RequestModel

/-!
# Authentication

`keystone.c` around the request and the answer: the environment, the callbacks through which curl
hands over the answer, and `keystone_authenticate`. What curl and the server do is not in the
repository: an `Answer` says what they hand to the callbacks, in which order, and with what they
end.
-/

namespace Wandio.Keystone

open Loop Jsmn
open Environment (letters)

/-! ## The environment -/

/-- `getenv` -/
abbrev Environ := String → Option CString

/-- `GETENV`: `dst`, and whether `success` stays as it is. -/
def getenvInto {α : Type} (env : Environ) (name : String) (req : Bool) (strdup : CString → α)
    (dst : Option α) : Option α × Bool :=
  match env name with
  | none => (dst, !req)
  | some tmp => if tmp.bytes.length = 0 then (dst, false) else (some (strdup tmp), true)

/-- `keystone_auth_token_t` -/
structure AuthToken where
  token : Option (List Byte)
  storageUrl : Option (List Byte)
deriving DecidableEq

/-- `keystone_env_parse_token`; it returns whether both variables were found. -/
def keystoneEnvParseToken (env : Environ) (token : AuthToken) : Bool × AuthToken :=
  let (tok, success) := getenvInto env "OS_AUTH_TOKEN" true CString.bytes token.token
  let (url, success') := getenvInto env "OS_STORAGE_URL" true CString.bytes token.storageUrl
  (success && success', ⟨tok, url⟩)

/-- The fields of `keystone_auth_creds_t` as they are before they are known. -/
structure EnvCreds where
  authUrl : Option CString
  username : Option CString
  password : Option CString
  project : Option CString
  domainId : Option CString

def CString.default : CString := ⟨letters "default", by decide⟩

/-- `keystone_env_parse_creds` -/
def keystoneEnvParseCreds (env : Environ) (creds : EnvCreds) : Bool × EnvCreds :=
  let (authUrl, s₁) := getenvInto env "OS_AUTH_URL" true id creds.authUrl
  let (username, s₂) := getenvInto env "OS_USERNAME" true id creds.username
  let (password, s₃) := getenvInto env "OS_PASSWORD" true id creds.password
  let (project, s₄) := getenvInto env "OS_PROJECT_NAME" true id creds.project
  let (domainId, s₅) := getenvInto env "OS_PROJECT_DOMAIN_ID" false id creds.domainId
  (s₁ && s₂ && s₃ && s₄ && s₅,
    ⟨authUrl, username, password, project, some (domainId.getD .default)⟩)

/-- The credentials, if no field is `NULL`. -/
def EnvCreds.known (creds : EnvCreds) : Option AuthCreds := do
  let authUrl ← creds.authUrl
  let username ← creds.username
  let password ← creds.password
  let project ← creds.project
  let domainId ← creds.domainId
  return ⟨authUrl, username, password, project, domainId⟩

/-! ## The callbacks -/

/-- `TOKEN_HDR` -/
def tokenHdr : List Byte := letters "X-Subject-Token: "

/-- What is taken off the end of a header. -/
def isGarbage (c : Byte) : Bool := c = 0 ∨ c = 0x0a ∨ c = 0x0d

/-- `auth_header_cb` on `token->token`. The byte that is copied from behind the header is written
over by the final zero. -/
def authHeaderCb (token : Option (List Byte)) (buf : List Byte) : Option (List Byte) :=
  if tokenHdr.length < buf.length ∧ buf.take tokenHdr.length = tokenHdr then
    let chomplen := (buf.reverse.takeWhile isGarbage).length
    some (cString
      ((buf.drop tokenHdr.length).take (buf.length - tokenHdr.length - chomplen)))
  else token

/-- `auth_write_cb` on `rw->response`. -/
def authWriteCb (response buf : List Byte) : List Byte := response ++ buf

/-- A call of a callback. -/
inductive Delivery where
  | header (buf : List Byte)
  | body (buf : List Byte)

/-- `token->token` and `rw->response` behind a call. -/
def receive (s : Option (List Byte) × List Byte) : Delivery → Option (List Byte) × List Byte
  | .header buf => (authHeaderCb s.1 buf, s.2)
  | .body buf => (s.1, authWriteCb s.2 buf)

/-- What comes of `curl_easy_perform`. -/
structure Answer where
  /-- It is `CURLE_OK`. -/
  ok : Bool
  deliveries : List Delivery
  /-- `CURLINFO_RESPONSE_CODE` -/
  responseCode : ℤ

/-- The functions of curl, and the server. -/
structure Curl where
  /-- `curl_easy_init` does not fail. -/
  easyInit : Bool
  /-- Nor does `curl_easy_setopt`. -/
  setopt : Bool
  perform : AuthRequest → Answer

/-! ## Authentication -/

/-- `keystone_authenticate` behind the request. -/
def handleAnswer (env : Environ) (answer : Answer) (fuel : ℕ) :
    Option (Except Fault (ℤ × AuthToken)) :=
  let (tok, response) := answer.deliveries.foldl receive (none, [])
  let token : AuthToken := ⟨tok, none⟩
  if !answer.ok then some (.ok (-1, token))
  else if answer.responseCode ≠ 201 then some (.ok (-1, token))
  else
    let token := (keystoneEnvParseToken env token).2
    (processAuthResponse response token.storageUrl fuel).map fun r =>
      r.map fun (rc, storageUrl) =>
        let token := { token with storageUrl := storageUrl }
        if rc ≠ 0 then (-1, token)
        else (if token.storageUrl.isSome ∧ token.token.isSome then 1 else 0, token)

/-- `keystone_authenticate`: what it returns, and the token. -/
def keystoneAuthenticate (curl : Curl) (env : Environ) (creds : AuthCreds) (fuel : ℕ) :
    Option (Except Fault (ℤ × AuthToken)) :=
  if !curl.easyInit then some (.ok (-1, ⟨none, none⟩))
  else
    match authRequest creds with
    | none => some (.ok (-1, ⟨none, none⟩))
    | some request =>
      if !curl.setopt then some (.ok (-1, ⟨none, none⟩))
      else handleAnswer env (curl.perform request) fuel

end Wandio.Keystone
