import Wandio.Interface
import Wandio.Utils.Transition

/-!
# The users of libcurl

`curl-helper.c` counts the users of libcurl: `curl_global_init` is called for the first one, and
`curl_global_cleanup` behind the last one. Both functions do all their work under `cg_lock`, so
what the threads of a program do is a sequence of their calls.

They are called by `init_io`, which makes the first connection of a reader and every later one, by
`http_close`, and by `keystone_authenticate`.
-/

namespace Wandio.CurlHelper

open Transition

/-- The calls of libcurl. -/
inductive GlobalCall where
  | init
  | cleanup
deriving DecidableEq

structure State where
  cgInitCnt : ℤ
  /-- What libcurl has been asked for. -/
  libcurl : List GlobalCall
  /-- The HTTP readers that have been opened and not closed. -/
  readers : List ℕ
  /-- An `assert` has failed. -/
  aborted : Bool
deriving DecidableEq

def start : State := ⟨0, [], [], false⟩

/-- `curl_helper_safe_global_init`; nothing if the `int` overflows. -/
def safeGlobalInit (s : State) : Option State :=
  if s.cgInitCnt + 1 < 2 ^ 31 then
    some { s with
      libcurl := if s.cgInitCnt = 0 then s.libcurl ++ [.init] else s.libcurl
      cgInitCnt := s.cgInitCnt + 1 }
  else none

/-- `curl_helper_safe_global_cleanup` -/
def safeGlobalCleanup (s : State) : State :=
  if s.cgInitCnt = 0 then { s with aborted := true }
  else
    { s with
      cgInitCnt := s.cgInitCnt - 1
      libcurl := if s.cgInitCnt - 1 = 0 then s.libcurl ++ [.cleanup] else s.libcurl }

/-- Who calls them. -/
inductive Label where
  /-- `init_io` in `http_open_hdrs` -/
  | httpOpen (reader : ℕ)
  /-- `init_io` in `fill_buffer` -/
  | reconnect (reader : ℕ)
  /-- `http_close`, also of a reader that could not be opened -/
  | httpClose (reader : ℕ)
  | keystoneAuthenticate
deriving DecidableEq

def step (s : State) (l : Label) : Option State :=
  if s.aborted then none
  else
    match l with
    | .httpOpen reader =>
      if reader ∈ s.readers then none
      else (safeGlobalInit s).map fun t => { t with readers := reader :: t.readers }
    | .reconnect reader => if reader ∈ s.readers then safeGlobalInit s else none
    | .httpClose reader =>
      if reader ∈ s.readers then
        some { safeGlobalCleanup s with readers := s.readers.erase reader }
      else none
    -- the use is not given back
    | .keystoneAuthenticate => safeGlobalInit s

def system : System State Label where
  init := start
  next := step

/-! ## What libcurl should see -/

/-- Whether libcurl is initialised behind a call: it is not to be initialised twice, nor cleaned up
when it is not initialised. -/
def initialised : Bool → GlobalCall → Option Bool
  | false, .init => some true
  | true, .cleanup => some false
  | _, _ => none

/-- Whether libcurl is initialised behind these calls. -/
def inUse (calls : List GlobalCall) : Option Bool := calls.foldlM initialised false

/-- A step that takes a use for good: no call of the program gives it back. -/
def Label.keeps : Label → Bool
  | .httpOpen _ => false
  | .reconnect _ => true
  | .httpClose _ => false
  | .keystoneAuthenticate => true

end Wandio.CurlHelper
