import Wandio.Create.StackModel
import Wandio.HttpReader.Model
import Wandio.SwiftReader.Model

/-!
# Which reader reads the file

The beginning of `create_io_reader`: the name of the file says whether it is opened with
`stdio_open`, `http_open` or `swift_open`. What is behind the urls is up to the environment.
-/

namespace Wandio.Create

open Keystone
open Environment (letters)

/-- The readers that `create_io_reader` can open the file with. -/
inductive BaseReader where
  | stdio
  | swift
  | http
deriving DecidableEq

/-- `isalnum` -/
def isAlnum (c : Byte) : Bool :=
  0x30 ≤ c ∧ c ≤ 0x39 ∨ 0x41 ≤ c ∧ c ≤ 0x5a ∨ 0x61 ≤ c ∧ c ≤ 0x7a

/-- `strstr`: what is in front of the first place of `needle`. -/
def strstr (needle : List Byte) : List Byte → Option (List Byte)
  | [] => if needle = [] then some [] else none
  | c :: cs => if needle <+: c :: cs then some [] else (strstr needle cs).map (c :: ·)

/-- The choice of the base reader. -/
def selectBase (filename : List Byte) : BaseReader :=
  (strstr (letters "://") filename).elim .stdio fun scheme =>
    if scheme.all isAlnum then
      if (strstr (letters "swift://") filename).isSome then .swift else .http
    else .stdio

/-- What there is behind a url. -/
structure Site where
  net : ℕ → HttpReader.Transfer
  object : List Byte

/-- `http_open_hdrs` for a url; its calls are nested no deeper than one. -/
def connect (web : List Byte → Site) (url : List Byte) (hdrs : List (List Byte)) :
    Option HttpReader.State :=
  (HttpReader.httpOpenHdrs (web url).net (web url).object hdrs 1).join

/-- `base = swift_open(filename)` or `base = http_open(filename)`, for a name that `stdio_open` does
not get; the inner `none` is `NULL`. -/
def openRemote (curl : Curl) (env : Environ) (web : List Byte → Site) (filename : CString)
    (fuel : ℕ) : Option (Except Jsmn.Fault (Option HttpReader.State)) :=
  if selectBase filename.bytes = .swift then
    SwiftReader.swiftOpen curl env (connect web) filename fuel
  else some (.ok (connect web filename.bytes []))

end Wandio.Create
