import Wandio.Jsmn.LayoutTheorems

/-!
# The text of a value

What a JSON text of a value is, as far as the parser looks at it: which escapes a string has and
where it ends, but not what a primitive means. The tokens of the value say where in the text it
stands, so that it can be read off them again.
-/

namespace Wandio.Jsmn

/-- A blank, a tab or the end of a line. -/
def isBlank (c : Byte) : Bool := c ∈ [0x09, 0x0d, 0x0a, 0x20]

def Blanks (w : List Byte) : Prop := ∀ c ∈ w, isBlank c = true

def isHex (c : Byte) : Bool :=
  (48 ≤ c ∧ c ≤ 57) ∨ (65 ≤ c ∧ c ≤ 70) ∨ (97 ≤ c ∧ c ≤ 102)

/-- What stands between the quotes of a string. -/
inductive StringText : List Byte → Prop where
  | nil : StringText []
  | plain {c : Byte} {s : List Byte} (hzero : c ≠ 0) (hquote : c ≠ 0x22) (hslash : c ≠ 0x5c)
    (h : StringText s) : StringText (c :: s)
  | escape {c : Byte} {s : List Byte} (hc : isEscape c = true) (h : StringText s) :
    StringText (0x5c :: c :: s)
  | unicode {a b c d : Byte} {s : List Byte} (ha : isHex a = true) (hb : isHex b = true)
    (hc : isHex c = true) (hd : isHex d = true) (h : StringText s) :
    StringText (0x5c :: 0x75 :: a :: b :: c :: d :: s)

/-- A character that a primitive can have. -/
def inPrimitive (c : Byte) : Bool := 32 < c ∧ c < 127 ∧ endsPrimitive c = false

/-- A number, `true`, `false` or `null`, or what else has no blanks, commas, colons and closing
brackets in it, and does not begin with a quote or a bracket. -/
inductive PrimitiveText : List Byte → Prop where
  | mk {c : Byte} {w : List Byte} (hc : caseOf c = .other)
    (h : ∀ d ∈ c :: w, inPrimitive d = true) : PrimitiveText (c :: w)

/-- A key and the text `u` of its value. -/
def keyed (k w w' u : List Byte) : List Byte := 0x22 :: (k ++ 0x22 :: (w ++ 0x3a :: (w' ++ u)))

/-- The text of an item. In front of and behind an element, a key and a value there can be
blanks. -/
inductive Spells : Item → List Byte → Prop where
  | string {s : List Byte} (h : StringText s) : Spells (.value (.string s)) (0x22 :: (s ++ [0x22]))
  | primitive {w : List Byte} (h : PrimitiveText w) : Spells (.value (.primitive w)) w
  | array {vs : List Json} {u : List Byte} (h : Spells (.elems vs) u) :
    Spells (.value (.array vs)) (0x5b :: (u ++ [0x5d]))
  | object {ms : List (List Byte × Json)} {u : List Byte} (h : Spells (.members ms) u) :
    Spells (.value (.object ms)) (0x7b :: (u ++ [0x7d]))
  | noElems {w : List Byte} (hw : Blanks w) : Spells (.elems []) w
  | lastElem {v : Json} {w u w' : List Byte} (hw : Blanks w) (h : Spells (.value v) u)
    (hw' : Blanks w') : Spells (.elems [v]) (w ++ (u ++ w'))
  | elem {v v' : Json} {vs : List Json} {w u w' u' : List Byte} (hw : Blanks w)
    (h : Spells (.value v) u) (hw' : Blanks w') (hs : Spells (.elems (v' :: vs)) u') :
    Spells (.elems (v :: v' :: vs)) (w ++ (u ++ (w' ++ 0x2c :: u')))
  | noMembers {w : List Byte} (hw : Blanks w) : Spells (.members []) w
  | lastMember {k : List Byte} {v : Json} {w w₁ w₂ u w' : List Byte} (hw : Blanks w)
    (hk : StringText k) (hw₁ : Blanks w₁) (hw₂ : Blanks w₂) (h : Spells (.value v) u)
    (hw' : Blanks w') : Spells (.members [(k, v)]) (w ++ (keyed k w₁ w₂ u ++ w'))
  | member {k : List Byte} {v : Json} {m : List Byte × Json} {ms : List (List Byte × Json)}
    {w w₁ w₂ u w' u' : List Byte} (hw : Blanks w) (hk : StringText k) (hw₁ : Blanks w₁)
    (hw₂ : Blanks w₂) (h : Spells (.value v) u) (hw' : Blanks w')
    (hs : Spells (.members (m :: ms)) u') :
    Spells (.members ((k, v) :: m :: ms)) (w ++ (keyed k w₁ w₂ u ++ (w' ++ 0x2c :: u')))

/-- A value with nothing but blanks around it. -/
inductive Document (v : Json) : List Byte → Prop where
  | mk {w u w' : List Byte} (hw : Blanks w) (h : Spells (.value v) u) (hw' : Blanks w') :
    Document v (w ++ (u ++ w'))

/-! ## The tokens of a text -/

/-- The tokens of an item whose text begins at `pos`, a container and a key in front of what is in
them. A string is marked without its quotes, an object and an array with their brackets; an array
counts its elements, an object its keys, and a key its value. -/
inductive Marks : ℕ → Item → List Byte → List Tok → Prop where
  | string {pos : ℕ} {s : List Byte} (h : StringText s) :
    Marks pos (.value (.string s)) (0x22 :: (s ++ [0x22]))
      [⟨.string, pos + 1, pos + 1 + s.length, 0⟩]
  | primitive {pos : ℕ} {w : List Byte} (h : PrimitiveText w) :
    Marks pos (.value (.primitive w)) w [⟨.primitive, pos, pos + w.length, 0⟩]
  | array {pos : ℕ} {vs : List Json} {u : List Byte} {ts : List Tok}
    (h : Marks (pos + 1) (.elems vs) u ts) :
    Marks pos (.value (.array vs)) (0x5b :: (u ++ [0x5d]))
      (⟨.array, pos, (pos + 1 + u.length : ℕ) + 1, vs.length⟩ :: ts)
  | object {pos : ℕ} {ms : List (List Byte × Json)} {u : List Byte} {ts : List Tok}
    (h : Marks (pos + 1) (.members ms) u ts) :
    Marks pos (.value (.object ms)) (0x7b :: (u ++ [0x7d]))
      (⟨.object, pos, (pos + 1 + u.length : ℕ) + 1, ms.length⟩ :: ts)
  | noElems {pos : ℕ} {w : List Byte} (hw : Blanks w) : Marks pos (.elems []) w []
  | lastElem {pos : ℕ} {v : Json} {w u w' : List Byte} {ts : List Tok} (hw : Blanks w)
    (h : Marks (pos + w.length) (.value v) u ts) (hw' : Blanks w') :
    Marks pos (.elems [v]) (w ++ (u ++ w')) ts
  | elem {pos : ℕ} {v v' : Json} {vs : List Json} {w u w' u' : List Byte} {ts ts' : List Tok}
    (hw : Blanks w) (h : Marks (pos + w.length) (.value v) u ts) (hw' : Blanks w')
    (hs : Marks (pos + (w ++ (u ++ w')).length + 1) (.elems (v' :: vs)) u' ts') :
    Marks pos (.elems (v :: v' :: vs)) (w ++ (u ++ (w' ++ 0x2c :: u'))) (ts ++ ts')
  | noMembers {pos : ℕ} {w : List Byte} (hw : Blanks w) : Marks pos (.members []) w []
  | lastMember {pos : ℕ} {k : List Byte} {v : Json} {w w₁ w₂ u w' : List Byte} {ts : List Tok}
    (hw : Blanks w) (hk : StringText k) (hw₁ : Blanks w₁) (hw₂ : Blanks w₂)
    (h : Marks (pos + (w ++ keyed k w₁ w₂ []).length) (.value v) u ts) (hw' : Blanks w') :
    Marks pos (.members [(k, v)]) (w ++ (keyed k w₁ w₂ u ++ w'))
      (⟨.string, (pos + w.length : ℕ) + 1, (pos + w.length : ℕ) + 1 + k.length, 1⟩ :: ts)
  | member {pos : ℕ} {k : List Byte} {v : Json} {m : List Byte × Json}
    {ms : List (List Byte × Json)} {w w₁ w₂ u w' u' : List Byte} {ts ts' : List Tok} (hw : Blanks w)
    (hk : StringText k) (hw₁ : Blanks w₁) (hw₂ : Blanks w₂)
    (h : Marks (pos + (w ++ keyed k w₁ w₂ []).length) (.value v) u ts) (hw' : Blanks w')
    (hs : Marks (pos + (w ++ (keyed k w₁ w₂ u ++ w')).length + 1) (.members (m :: ms)) u' ts') :
    Marks pos (.members ((k, v) :: m :: ms)) (w ++ (keyed k w₁ w₂ u ++ (w' ++ 0x2c :: u')))
      (⟨.string, (pos + w.length : ℕ) + 1, (pos + w.length : ℕ) + 1 + k.length, 1⟩ ::
        (ts ++ ts'))

/-- The tokens of the value of a text. -/
inductive DocumentMarks (v : Json) : List Byte → List Tok → Prop where
  | mk {w u w' : List Byte} {ts : List Tok} (hw : Blanks w) (h : Marks w.length (.value v) u ts)
    (hw' : Blanks w') : DocumentMarks v (w ++ (u ++ w')) ts

/-! ## Reading a value off its tokens -/

/-- The part of the text that a token marks. -/
def Tok.slice (js : List Byte) (tok : Tok) : List Byte :=
  (js.drop tok.start.toNat).take (tok.stop - tok.start).toNat

/-- The next `n` elements, when `value` reads a value off. -/
def elemsAt (value : List Tok → Option (Json × List Tok)) :
    ℕ → List Tok → Option (List Json × List Tok)
  | 0, t => some ([], t)
  | n + 1, t =>
    (value t).bind fun q => (elemsAt value n q.2).map fun r => (q.1 :: r.1, r.2)

/-- The next `n` members. -/
def membersAt (js : List Byte) (value : List Tok → Option (Json × List Tok)) :
    ℕ → List Tok → Option (List (List Byte × Json) × List Tok)
  | 0, t => some ([], t)
  | _ + 1, [] => none
  | n + 1, key :: t =>
    (value t).bind fun q =>
      (membersAt js value n q.2).map fun r => ((key.slice js, q.1) :: r.1, r.2)

/-- The value whose token comes first, and the tokens behind those of the value. -/
def valueAt (js : List Byte) : ℕ → List Tok → Option (Json × List Tok)
  | 0, _ => none
  | _ + 1, [] => none
  | depth + 1, tok :: t =>
    match tok.type with
    | .string => some (.string (tok.slice js), t)
    | .primitive => some (.primitive (tok.slice js), t)
    | .array => (elemsAt (valueAt js depth) tok.size t).map fun q => (.array q.1, q.2)
    | .object => (membersAt js (valueAt js depth) tok.size t).map fun q => (.object q.1, q.2)
    | .undefined => none

/-- The value of which `tokens` are all the tokens. -/
def readOff (js : List Byte) (tokens : List Tok) : Option Json :=
  (valueAt js tokens.length tokens).bind fun q => if q.2.isEmpty then some q.1 else none

end Wandio.Jsmn
