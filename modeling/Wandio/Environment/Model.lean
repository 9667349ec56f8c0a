import Wandio.Interface

/-!
# The environment variable

`parse_env` of `wandio.c` takes `LIBTRACEIO` apart at the commas, and `do_option` sets the globals
of the library.
-/

namespace Wandio.Environment

/-- The letters of a word in the source. -/
def letters (word : String) : List Byte := word.toList.map fun c => UInt8.ofNat c.toNat

/-! ## Options -/

/-- The globals that `do_option` sets. -/
structure Settings where
  keepStats : Bool
  useThreads : ℕ
  logHttpServerErrors : Bool
  useAutodetect : Bool
  maxBuffers : ℕ
deriving DecidableEq

/-- As they are when the program starts; `use_threads` is -1. -/
def defaults : Settings := ⟨false, 2 ^ 32 - 1, true, true, 50⟩

/-- `isspace` -/
def isSpace (c : Byte) : Bool := c = 0x20 ∨ (0x09 ≤ c ∧ c ≤ 0x0d)

/-- The number that the digits at the front say, behind those that say `n`. -/
def digits : List Byte → ℕ → ℕ
  | [], n => n
  | c :: cs, n => if 0x30 ≤ c ∧ c ≤ 0x39 then digits cs (10 * n + (c.toNat - 0x30)) else n

/-- `atoi`, by way of `strtol`. -/
def atoi (s : List Byte) : ℤ :=
  match s.dropWhile isSpace with
  | 0x2d :: t => cInt (max (-2 ^ 63) (-(digits t 0 : ℤ)))
  | 0x2b :: t => cInt (min (2 ^ 63 - 1) (digits t 0 : ℤ))
  | t => cInt (min (2 ^ 63 - 1) (digits t 0 : ℤ))

/-- What `atoi` returns, as an `unsigned int`. -/
def atou (s : List Byte) : ℕ := (atoi s % 2 ^ 32).toNat

/-- `do_option` -/
def doOption (g : Settings) (option : List Byte) : Settings :=
  if option = [] then g
  else if option = letters "stats" then { g with keepStats := true }
  else if option = letters "nothreads" then { g with useThreads := 0 }
  else if option = letters "nologhttpservererrors" then { g with logHttpServerErrors := false }
  else if option = letters "noautodetect" then { g with useAutodetect := false }
  else if option.take 8 = letters "threads=" then { g with useThreads := atou (option.drop 8) }
  else if option.take 8 = letters "buffers=" then { g with maxBuffers := atou (option.drop 8) }
  else g

/-! ## Parsing -/

/-- `sizeof(option)` -/
def optionSize : ℕ := 1024

/-- `','` -/
def comma : Byte := 0x2c

/-- The variables of `parse_env`. -/
structure Parsing where
  /-- What has been written of `option`, and behind it. -/
  option : List Byte
  /-- `op - option` -/
  op : ℕ
  /-- The indices of `option` that have been written to. -/
  writes : List ℕ
  /-- The strings that have been passed to `do_option`. -/
  passed : List (List Byte)
  globals : Settings
deriving DecidableEq

/-- `*op = c` -/
def Parsing.store (s : Parsing) (c : Byte) : Parsing :=
  { s with option := memcpyAt s.option s.op [c], writes := s.writes ++ [s.op] }

/-- `do_option(option)` -/
def Parsing.call (s : Parsing) : Parsing :=
  let option := s.option.takeWhile (· ≠ 0)
  { s with passed := s.passed ++ [option], globals := doOption s.globals option }

/-- A turn of the loop at the character `c`. -/
def parseTurn (s : Parsing) (c : Byte) : Parsing :=
  if c = comma then { (s.store 0).call with op := 0 } else { s.store c with op := s.op + 1 }

/-- The loop from `ip` on. -/
def parseLoop : List Byte → Parsing → Parsing
  | [], s => s
  | c :: ip, s => if c ≠ 0 ∧ s.op < optionSize then parseLoop ip (parseTurn s c) else s

/-- The variables at first, and the globals as they are then. -/
def Parsing.start (g : Settings) : Parsing := ⟨[], 0, [], [], g⟩

/-- `parse_env`, where `str` is what `getenv` returns. -/
def parseEnv (str : Option (List Byte)) (g : Settings) : Parsing :=
  match str with
  | none => .start g
  | some str => ((parseLoop str (.start g)).store 0).call

end Wandio.Environment
