import Mathlib.Data.List.Basic

/-!
# JSON texts

A machine that reads a JSON text character by character: its state is what it is inside of, the
innermost first, and what is to come there. A text is a document if the machine comes to its end
with a value.
-/

namespace Wandio.JsonText

/-- A number is its text. -/
inductive Value where
  | null
  | bool (b : Bool)
  | number (text : List Char)
  | string (s : List Char)
  | array (values : List Value)
  | object (members : List (List Char × Value))

/-! ## The characters -/

def quotationMark : Char := '\x22'
def reverseSolidus : Char := '\x5c'
def leftBrace : Char := '\x7b'
def rightBrace : Char := '\x7d'

def isSpace (c : Char) : Bool := c = ' ' ∨ c = '\n' ∨ c = '\r' ∨ c = '\t'

def hexDigit (c : Char) : Option ℕ :=
  if c.isDigit then some (c.toNat - '0'.toNat)
  else if 'a'.toNat ≤ c.toNat ∧ c.toNat ≤ 'f'.toNat then some (c.toNat - 'a'.toNat + 10)
  else if 'A'.toNat ≤ c.toNat ∧ c.toNat ≤ 'F'.toNat then some (c.toNat - 'A'.toNat + 10)
  else none

/-! ## Strings -/

/-- Where a string literal is between two characters. -/
inductive Escape where
  | none
  /-- Behind the reverse solidus. -/
  | begun
  /-- `left` more digits are to come after the next one. If there is a `high` surrogate, this is
  to be the low one. -/
  | digits (high : Option ℕ) (left value : ℕ)
  /-- Behind a high surrogate. -/
  | high (unit : ℕ)
  | highBegun (unit : ℕ)

/-- A string literal that is being read, and what has been read of the string. -/
structure Literal where
  chars : List Char
  escape : Escape

/-- Nothing has been read of the string. -/
def Literal.start : Literal := ⟨[], .none⟩

/-- The characters behind a reverse solidus that stand for one character. -/
def escaped (c : Char) : Option Char :=
  if c = quotationMark ∨ c = reverseSolidus ∨ c = '/' then some c
  else if c = 'b' then some '\x08'
  else if c = 'f' then some '\x0c'
  else if c = 'n' then some '\n'
  else if c = 'r' then some '\r'
  else if c = 't' then some '\t'
  else none

/-- The four digits of a code unit have been read. -/
def Literal.unit (chars : List Char) (high : Option ℕ) (value : ℕ) : Option Literal :=
  match high with
  | some unit =>
    if 0xdc00 ≤ value ∧ value < 0xe000 then
      some ⟨chars ++ [.ofNat (0x10000 + (unit - 0xd800) * 0x400 + (value - 0xdc00))], .none⟩
    else none
  | none =>
    if 0xd800 ≤ value ∧ value < 0xdc00 then some ⟨chars, .high value⟩
    else if 0xdc00 ≤ value ∧ value < 0xe000 then none
    else some ⟨chars ++ [.ofNat value], .none⟩

/-- The next character of a literal: it goes on, or the string has been read. -/
def Literal.step (l : Literal) (c : Char) : Option (Literal ⊕ List Char) :=
  match l.escape with
  | .none =>
    if c = quotationMark then some (.inr l.chars)
    else if c = reverseSolidus then some (.inl ⟨l.chars, .begun⟩)
    else if c.toNat < 0x20 then none
    else some (.inl ⟨l.chars ++ [c], .none⟩)
  | .begun =>
    if c = 'u' then some (.inl ⟨l.chars, .digits none 3 0⟩)
    else (escaped c).map fun d => .inl ⟨l.chars ++ [d], .none⟩
  | .digits high left value =>
    (hexDigit c).bind fun d =>
      match left with
      | 0 => (Literal.unit l.chars high (16 * value + d)).map .inl
      | left + 1 => some (.inl ⟨l.chars, .digits high left (16 * value + d)⟩)
  | .high unit => if c = reverseSolidus then some (.inl ⟨l.chars, .highBegun unit⟩) else none
  | .highBegun unit => if c = 'u' then some (.inl ⟨l.chars, .digits (some unit) 3 0⟩) else none

/-- Characters that stand for themselves in a literal. -/
def Plain (s : List Char) : Prop :=
  ∀ c ∈ s, c ≠ quotationMark ∧ c ≠ reverseSolidus ∧ ¬ c.toNat < 0x20

instance (s : List Char) : Decidable (Plain s) :=
  List.decidableBAll (fun c => c ≠ quotationMark ∧ c ≠ reverseSolidus ∧ ¬ c.toNat < 0x20) s

/-! ## Numbers and names -/

def isWord (c : Char) : Bool := c.isAlphanum ∨ c = '-' ∨ c = '+' ∨ c = '.'

/-- At least one digit, and nothing else. -/
def isDigits (w : List Char) : Bool := w ≠ [] ∧ w.all Char.isDigit

def isExponent : List Char → Bool
  | [] => true
  | c :: w =>
    (c = 'e' ∨ c = 'E') ∧ isDigits (if w.head? = some '+' ∨ w.head? = some '-' then w.tail else w)

def isFraction (w : List Char) : Bool :=
  if w.head? = some '.' then
    w.tail.takeWhile Char.isDigit ≠ [] ∧ isExponent (w.tail.dropWhile Char.isDigit)
  else isExponent w

def isNumber (w : List Char) : Bool :=
  let u := if w.head? = some '-' then w.tail else w
  let int := u.takeWhile Char.isDigit
  (int = ['0'] ∨ int ≠ [] ∧ int.head? ≠ some '0') ∧ isFraction (u.dropWhile Char.isDigit)

def word (w : List Char) : Option Value :=
  if w = ['n', 'u', 'l', 'l'] then some .null
  else if w = ['t', 'r', 'u', 'e'] then some (.bool true)
  else if w = ['f', 'a', 'l', 's', 'e'] then some (.bool false)
  else if isNumber w then some (.number w)
  else none

/-! ## The machine -/

/-- An array or an object that is being read: its elements or members so far, and for a member
whose value is to come, its name. -/
inductive Frame where
  | array (values : List Value)
  | object (members : List (List Char × Value)) (name : Option (List Char))

/-- What is to come. -/
inductive Mode where
  | value
  /-- The first element of an array, or its end. -/
  | element
  /-- The first member of an object, or its end. -/
  | member
  /-- Another member. -/
  | name
  | literal (isName : Bool) (l : Literal)
  | colon
  | word (w : List Char)
  /-- A comma, or the end of the array or the object. -/
  | behind
  | done (v : Value)

structure State where
  frames : List Frame
  mode : Mode

/-- The value `v` has been read. -/
def complete (v : Value) : List Frame → Option State
  | [] => some ⟨[], .done v⟩
  | .array values :: frames => some ⟨.array (values ++ [v]) :: frames, .behind⟩
  | .object members (some name) :: frames =>
    some ⟨.object (members ++ [(name, v)]) none :: frames, .behind⟩
  | .object _ none :: _ => none

/-- The name `s` has been read. -/
def named (s : List Char) : List Frame → Option State
  | .object members none :: frames => some ⟨.object members (some s) :: frames, .colon⟩
  | _ => none

/-- The end of an array. -/
def endArray : List Frame → Option State
  | .array values :: frames => complete (.array values) frames
  | _ => none

/-- The end of an object. -/
def endObject : List Frame → Option State
  | .object members none :: frames => complete (.object members) frames
  | _ => none

/-- A value begins with `c`. -/
def begin (frames : List Frame) (c : Char) : Option State :=
  if c = leftBrace then some ⟨.object [] none :: frames, .member⟩
  else if c = '[' then some ⟨.array [] :: frames, .element⟩
  else if c = quotationMark then some ⟨frames, .literal false .start⟩
  else if isWord c then some ⟨frames, .word [c]⟩
  else none

/-- `c` is what comes behind a comma in the innermost array or object. -/
def comma : List Frame → Option State
  | .array values :: frames => some ⟨.array values :: frames, .value⟩
  | .object members none :: frames => some ⟨.object members none :: frames, .name⟩
  | _ => none

/-- `c` is the next character, and not part of a literal or a word. -/
def State.between (s : State) (c : Char) : Option State :=
  if isSpace c then some s
  else
    match s.mode with
    | .value => begin s.frames c
    | .element => if c = ']' then endArray s.frames else begin s.frames c
    | .member =>
      if c = rightBrace then endObject s.frames
      else if c = quotationMark then some ⟨s.frames, .literal true .start⟩
      else none
    | .name => if c = quotationMark then some ⟨s.frames, .literal true .start⟩ else none
    | .colon => if c = ':' then some ⟨s.frames, .value⟩ else none
    | .behind =>
      if c = ',' then comma s.frames
      else if c = ']' then endArray s.frames
      else if c = rightBrace then endObject s.frames
      else none
    | _ => none

def State.step (s : State) (c : Char) : Option State :=
  match s.mode with
  | .literal isName l =>
    (l.step c).bind fun
      | .inl l => some ⟨s.frames, .literal isName l⟩
      | .inr chars => if isName then named chars s.frames else complete (.string chars) s.frames
  | .word w =>
    if isWord c then some ⟨s.frames, .word (w ++ [c])⟩
    else (word w).bind fun v => (complete v s.frames).bind fun t => t.between c
  | _ => s.between c

def run : State → List Char → Option State
  | s, [] => some s
  | s, c :: text => (s.step c).bind fun t => run t text

/-- The end of the text. -/
def State.finish (s : State) : Option Value :=
  match s.frames, s.mode with
  | [], .done v => some v
  | [], .word w => word w
  | _, _ => none

/-- The value of a document. -/
def read (text : List Char) : Option Value := (run ⟨[], .value⟩ text).bind State.finish

theorem run_append (s : State) (text more : List Char) :
    run s (text ++ more) = (run s text).bind fun t => run t more := by
  induction text generalizing s with
  | nil => rfl
  | cons c text ih =>
    rw [List.cons_append, run, run]
    cases s.step c with
    | none => rfl
    | some t => exact ih t

end Wandio.JsonText
