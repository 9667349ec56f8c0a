import Wandio.Interface
import Wandio.Utils.Loop

/-!
# The http reader

`ior-http.c` reads a remote object through a buffer that `fill_buffer` fills from a curl
transfer. What curl does is not in the repository: in each call of `fill_buffer` it is a
`Transfer`, which says how many bytes come, what curl reports, and whether a transfer can be
started. Bytes that come are those of the object from where the transfer is.

The functions call each other in a circle: `http_read` calls `fill_buffer`, which calls
`http_seek` when it starts anew, which calls `http_read` and `fill_buffer`. Each definition
has the function it calls as an argument, and `fillBuffer` ties the knot under a bound on the
depth of the calls. A failed `assert` does not return.
-/

namespace Wandio.HttpReader

open Loop

/-- `CURL_MAX_WRITE_SIZE` -/
def curlMaxWriteSize : ℕ := 16384

/-- `m_buf`, which `init_io` always sets so. -/
def mBuf : ℕ := curlMaxWriteSize * 2

/-- `HTTP_MAX_SKIP` -/
def httpMaxSkip : ℕ := 0x8000 * 2

/-- `FILL_FINISHED` -/
def fillFinished : ℤ := 0

/-- `FILL_RETRY` -/
def fillRetry : ℤ := -1

/-- `FILL_RETRY_ERROR` -/
def fillRetryError : ℤ := -2

/-- What curl does in one call of `fill_buffer` that comes to it. -/
structure Transfer where
  /-- The sizes of the pieces that it hands to `write_cb`, one after the other. -/
  pieces : List ℕ
  /-- It knows the length of the response. -/
  lengthKnown : Bool
  /-- The functions on the multi handle answer `CURLM_OK`. -/
  multiOk : Bool
  /-- The `CURLcode` in the message queue, when the transfer has ended. -/
  result : Option ℤ
  /-- The answer of `curl_multi_add_handle` if it is called right before. -/
  addHandle : ℤ
  /-- The same if `fill_buffer` starts anew. -/
  addAgain : ℤ
deriving DecidableEq

/-- The options of a curl easy handle that differ between requests. -/
structure Easy where
  /-- `CURLOPT_HTTPHEADER` -/
  httpHeader : List (List Byte)
  /-- `CURLOPT_RESUME_FROM` -/
  resumeFrom : ℕ
deriving DecidableEq

/-- `struct http_t` -/
structure State where
  curl : Easy
  /-- What has been written of `buf`. -/
  buf : List Byte
  off0 : ℕ
  totalLength : ℤ
  lBuf : ℕ
  pBuf : ℕ
  doneReading : Bool
  /-- Where the transfer is in the object. -/
  position : ℕ
  /-- The number of transfers so far. -/
  transfers : ℕ
  /-- The handles that have been added to the multi handle, as they were then. -/
  requests : List Easy
deriving DecidableEq

/-! ## The transfer -/

/-- `write_cb`; `none` is `CURL_WRITEFUNC_PAUSE`. -/
def writeCb (s : State) (piece : List Byte) : Option State :=
  if mBuf < piece.length + s.lBuf then none
  else some { s with buf := memcpyAt s.buf s.lBuf piece, lBuf := s.lBuf + piece.length }

/-- Curl hands the next `size` bytes of the object to `write_cb`, and keeps them when it is
paused. -/
def deliver (object : List Byte) (s : State) (size : ℕ) : State :=
  match writeCb s ((object.drop s.position).take size) with
  | none => s
  | some t => { t with position := s.position + ((object.drop s.position).take size).length }

/-- `CURLINFO_CONTENT_LENGTH_DOWNLOAD` -/
def contentLength (object : List Byte) (s : State) (a : Transfer) : ℤ :=
  if a.lengthKnown then object.length - s.curl.resumeFrom else -1

/-- The `do` loop of `fill_buffer`. -/
def perform (object : List Byte) (s : State) (a : Transfer) : State :=
  let t := a.pieces.foldl (deliver object) s
  { t with
    totalLength := if t.totalLength < 0 then contentLength object t a else t.totalLength
    transfers := s.transfers + 1 }

/-- Curl has reported an error. -/
def Transfer.failed (a : Transfer) : Bool := ¬ a.multiOk ∨ a.result.any (· ≠ 0)

/-- `process_hdrs` -/
def processHdrs (s : State) (hdrs : List (List Byte)) : State :=
  if hdrs = [] then s else { s with curl := { s.curl with httpHeader := hdrs } }

/-- `prepare` when `curl_multi_add_handle` answers `rc`. -/
def prepare (rc : ℤ) (s : State) : State :=
  let curl := { s.curl with resumeFrom := s.off0 }
  { s with
    curl := curl
    position := s.off0
    requests := if rc = 0 then s.requests ++ [curl] else s.requests
    pBuf := 0
    lBuf := 0 }

/-- `init_io`, which makes a new handle and a new buffer. -/
def initIo (s : State) : State := { s with curl := ⟨[], 0⟩, buf := [] }

/-- Where `http_seek` counts from. -/
inductive Whence where
  | set
  | cur
  | fromEnd
deriving DecidableEq

/-- The `struct http_t` that `http_open_hdrs` begins with. -/
def newHttp : State := ⟨⟨[], 0⟩, [], 0, -1, 0, 0, false, 0, 0, []⟩

section Calls

variable (net : ℕ → Transfer) (object : List Byte)

/-- `fill_buffer` -/
def fillWith (seek : State → ℤ → Whence → Option (ℤ × State)) (s : State) : Option (ℤ × State) :=
  if s.pBuf ≠ s.lBuf then none
  else
    let s := { s with off0 := s.off0 + s.lBuf, pBuf := 0, lBuf := 0 }
    if s.doneReading then some (fillFinished, s)
    else
      let a := net s.transfers
      let s := perform object s a
      if a.failed then some (-1, s)
      else
        let s :=
          if s.lBuf < mBuf - curlMaxWriteSize ∧ s.totalLength ≤ s.off0 + s.pBuf then
            { s with doneReading := true }
          else s
        if ¬ s.doneReading ∧ s.lBuf = 0 then
          -- the transfer has ended too early
          let ptr := s.off0 + s.pBuf + s.lBuf
          let s := prepare a.addAgain (initIo s)
          if a.addAgain ≠ 0 then some (fillRetryError, s)
          else (seek s ptr .set).map fun r => (fillRetry, r.2)
        else some (s.lBuf, s)

/-! ## Reading -/

/-- The local variables of `http_read`. -/
structure Reading where
  io : State
  rest : ℕ
  /-- What has been copied to the caller's buffer. -/
  out : List Byte

/-- The bytes between `p_buf` and `l_buf`. -/
def State.buffered (s : State) : List Byte := (s.buf.take s.lBuf).drop s.pBuf

/-- A turn of the loop of `http_read`. -/
def readTurn (fill : State → Option (ℤ × State)) (len : ℕ) (v : Reading) :
    Turn Reading (Option (ReadResult × State)) :=
  if v.rest = 0 then .done (some (⟨len - v.rest, v.out⟩, v.io))
  else if v.rest ≤ v.io.lBuf - v.io.pBuf then
    .next
      { io := { v.io with pBuf := v.io.pBuf + v.rest }
        rest := 0
        out := v.out ++ v.io.buffered.take v.rest }
  else
    let rest := v.rest - (v.io.lBuf - v.io.pBuf)
    let out := v.out ++ v.io.buffered
    match fill { v.io with pBuf := v.io.lBuf } with
    | none => .done none
    | some (ret, io) =>
      if 0 < ret then .next ⟨io, rest, out⟩
      else if ret = fillFinished then .done (some (⟨len - rest, out⟩, io))
      else if ret = fillRetry then .next ⟨io, rest, out⟩
      else if ret = fillRetryError then .done (some (⟨-1, out⟩, io))
      else .done (some (⟨-2, out⟩, io))

/-- `http_read` -/
def httpReadWith (fill : State → Option (ℤ × State)) (len : ℕ) (s : State) (fuel : ℕ) :
    Option (ReadResult × State) :=
  if s.lBuf = 0 then some (⟨0, []⟩, s) else (loop (readTurn fill len) fuel ⟨s, len, []⟩).join

/-- `http_tell` -/
def httpTell (s : State) : ℕ := s.off0 + s.pBuf

/-! ## Seeking -/

/-- The end of `http_seek` after a failure. -/
def seekFailed (s : State) : ℤ × State := (-1, { s with lBuf := 0, pBuf := 0 })

/-- `http_seek` to the offset `newOff` by a new transfer. -/
def reconnect (fill : State → Option (ℤ × State)) (newOff : ℕ) (s : State) : Option (ℤ × State) :=
  let rc := (net s.transfers).addHandle
  let s := prepare rc { s with off0 := newOff, doneReading := false }
  if rc < 0 then some (seekFailed s)
  else (fill s).map fun r => if r.1 ≤ 0 then seekFailed r.2 else (newOff, r.2)

/-- `http_seek` to the offset `newOff` by reading up to it. -/
def skip (fill : State → Option (ℤ × State)) (newOff : ℕ) (s : State) (fuel : ℕ) :
    Option (ℤ × State) :=
  (httpReadWith fill (newOff - httpTell s) s fuel).map fun r =>
    if r.1.ret + (httpTell s : ℤ) ≠ newOff then seekFailed r.2 else (newOff, r.2)

/-- `http_seek` -/
def httpSeekWith (fill : State → Option (ℤ × State)) (offset : ℤ) (whence : Whence) (s : State)
    (fuel : ℕ) : Option (ℤ × State) :=
  let curOff := httpTell s
  let newOff : Option ℤ :=
    match whence with
    | .set => some offset
    -- added to the -1 that `new_off` starts with
    | .cur => some (-1 + (curOff + offset))
    | .fromEnd => none
  match newOff with
  | none => some (-1, s)
  | some newOff =>
    if newOff < 0 then some (-1, s)
    else
      let newOff := newOff.toNat
      if curOff ≤ newOff ∧ newOff - curOff + s.pBuf < s.lBuf then
        let s := { s with pBuf := s.pBuf + (newOff - curOff) }
        some (httpTell s, s)
      else if newOff < curOff ∨ httpMaxSkip < newOff - curOff then reconnect net fill newOff s
      else skip fill newOff s fuel

/-- `fill_buffer` with calls nested no deeper than `fuel`. -/
def fillBuffer : ℕ → State → Option (ℤ × State)
  | 0, _ => none
  | fuel + 1, s =>
    fillWith net object
      (fun s offset whence => httpSeekWith net (fillBuffer fuel) offset whence s fuel) s

/-- `http_read` -/
def httpRead (len : ℕ) (s : State) (fuel : ℕ) : Option (ReadResult × State) :=
  httpReadWith (fillBuffer net object fuel) len s fuel

/-- `http_seek` -/
def httpSeek (offset : ℤ) (whence : Whence) (s : State) (fuel : ℕ) : Option (ℤ × State) :=
  httpSeekWith net (fillBuffer net object fuel) offset whence s fuel

/-! ## Opening -/

/-- `http_open_hdrs`; the inner `none` is `NULL`. -/
def httpOpenHdrs (hdrs : List (List Byte)) (fuel : ℕ) : Option (Option State) :=
  let s := processHdrs (initIo newHttp) hdrs
  let rc := (net s.transfers).addHandle
  let s := prepare rc s
  if rc < 0 then some none
  else (fillBuffer net object fuel s).map fun r => if r.1 < 0 then none else some r.2

/-- `http_open` -/
def httpOpen (fuel : ℕ) : Option (Option State) := httpOpenHdrs net object [] fuel

end Calls

end Wandio.HttpReader
