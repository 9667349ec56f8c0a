import Wandio.Keystone.AuthModel

/-!
# The swift reader

`ior-swift.c` opens an http reader for an object in a container, with a token of the
authentication server, and hands every call on to it.
-/

namespace Wandio.SwiftReader

open Loop Jsmn Keystone
open Environment (letters)

/-- `SWIFT_PFX` -/
def swiftPfx : List Byte := letters "swift://"

/-- `parse_swifturl`: the container and the object. -/
def parseSwifturl (swifturl : CString) : Option (List Byte × List Byte) :=
  if swifturl.bytes.length < swiftPfx.length + 1 ∨
      swifturl.bytes.take swiftPfx.length ≠ swiftPfx then none
  else
    let ctmp := swifturl.bytes.drop swiftPfx.length
    match ctmp.dropWhile (· ≠ 0x2f) with
    -- there is no slash behind the container
    | [] => none
    | _ :: otmp => some (ctmp.take (ctmp.length - otmp.length - 1), otmp)

/-- `build_auth_token_hdr` -/
def buildAuthTokenHdr (token : List Byte) : List Byte := letters "X-Auth-Token: " ++ token

/-- `build_http_url` -/
def buildHttpUrl (storageUrl container object : List Byte) : List Byte :=
  storageUrl ++ 0x2f :: (container ++ 0x2f :: object)

/-- `get_token`: what it returns, and the token. -/
def getToken (curl : Curl) (env : Environ) (fuel : ℕ) : Option (Except Fault (ℤ × AuthToken)) :=
  let (found, token) := keystoneEnvParseToken env ⟨none, none⟩
  if found then some (.ok (0, token))
  else
    let (known, creds) := keystoneEnvParseCreds env ⟨none, none, none, none, none⟩
    if !known then some (.ok (-1, token))
    else
      match creds.known with
      | none => some (.error .bounds)
      | some creds =>
        (keystoneAuthenticate curl env creds fuel).map fun r =>
          r.map fun (rc, token) => (if rc ≠ 1 then -1 else 0, token)

section Open

variable {α : Type} (curl : Curl) (env : Environ)
  (httpOpenHdrs : List Byte → List (List Byte) → Option α)

/-- `swift_open` behind `get_token`. -/
def openObject (container object : List Byte) (r : ℤ × AuthToken) : Except Fault (Option α) :=
  if r.1 ≠ 0 then .ok none
  else
    match r.2.token, r.2.storageUrl with
    | some tok, some storageUrl =>
      .ok (httpOpenHdrs (buildHttpUrl storageUrl container object) [buildAuthTokenHdr tok])
    | _, _ => .error .bounds

/-- `swift_open` on top of `http_open_hdrs`; the inner `none` is `NULL`. -/
def swiftOpen (filename : CString) (fuel : ℕ) : Option (Except Fault (Option α)) :=
  match parseSwifturl filename with
  | none => some (.ok none)
  | some (container, object) =>
    (getToken curl env fuel).map fun r => r.bind (openObject httpOpenHdrs container object)

end Open

end Wandio.SwiftReader
