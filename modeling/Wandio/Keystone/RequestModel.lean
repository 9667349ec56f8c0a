import Wandio.Keystone.Model

/-!
# The request to the authentication server

`keystone_authenticate` up to the request: the url and the body are formatted into buffers of
`BUFLEN` bytes. The credentials are put between the quotation marks of the template as they are.
-/

namespace Wandio.Keystone

/-! ## Formatting -/

/-- A string of C, without its final zero. -/
structure CString where
  bytes : List Byte
  noZero : 0 ∉ bytes

/-- What `snprintf` would write into a buffer without end: the next string for each `%s`. -/
def formatted : List Char → List CString → List Byte
  | '%' :: 's' :: tmpl, arg :: args => arg.bytes ++ formatted tmpl args
  | c :: tmpl, args => String.utf8EncodeChar c ++ formatted tmpl args
  | [], _ => []

/-- `snprintf` into a buffer of `BUFLEN` bytes; there is nothing if the text does not fit. -/
def snprintf (tmpl : List Char) (args : List CString) : Option (List Byte) :=
  if buflen ≤ (formatted tmpl args).length then none else some (formatted tmpl args)

/-! ## The request -/

/-- `keystone_auth_creds_t` -/
structure AuthCreds where
  authUrl : CString
  username : CString
  password : CString
  project : CString
  domainId : CString

/-- `AUTH_REQ_TMPL` -/
def authReqTmpl : List Char :=
  ["\x7b",
   "  \"auth\": \x7b",
   "    \"identity\": \x7b",
   "      \"methods\": [\"password\"],",
   "      \"password\": \x7b",
   "        \"user\": \x7b",
   "          \"name\": \"%s\",",
   "          \"domain\": \x7b \"id\": \"%s\" \x7d,",
   "          \"password\": \"%s\"",
   "        \x7d",
   "      \x7d",
   "    \x7d,",
   "    \"scope\": \x7b",
   "      \"project\": \x7b",
   "        \"domain\": \x7b \"id\": \"%s\" \x7d,",
   "        \"name\": \"%s\"",
   "      \x7d",
   "    \x7d",
   "  \x7d",
   "\x7d"].flatMap String.toList

/-- `auth_url_buf` -/
def authUrlBuf (creds : AuthCreds) : Option (List Byte) :=
  snprintf "%s/auth/tokens".toList [creds.authUrl]

/-- `buf` -/
def authReqBody (creds : AuthCreds) : Option (List Byte) :=
  snprintf authReqTmpl
    [creds.username, creds.domainId, creds.password, creds.domainId, creds.project]

/-- The options of the transfer. -/
structure AuthRequest where
  url : List Byte
  headers : List String
  postFields : List Byte

/-- `keystone_authenticate` up to `curl_easy_perform`; `none` for `goto err`. -/
def authRequest (creds : AuthCreds) : Option AuthRequest := do
  let url ← authUrlBuf creds
  let buf ← authReqBody creds
  return ⟨url, ["Content-Type: application/json"], buf⟩

end Wandio.Keystone
