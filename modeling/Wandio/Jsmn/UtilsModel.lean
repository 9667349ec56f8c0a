import Wandio.Jsmn.Model

/-!
# Walking over tokens

`jsmn_utils.c`. A pointer into the token array is the list of the tokens from there to the last
one that has been allocated, so what may be read through it is its head.
-/

namespace Wandio.Jsmn

/-- What must not happen on a walk: a token behind the last one is read, or an assertion fails. -/
inductive Fault where
  | bounds
  | assertion
deriving DecidableEq

/-- `*tok` -/
def deref : List Tok → Except Fault Tok
  | [] => .error .bounds
  | tok :: _ => .ok tok

/-- `jsmn_streq` on the token `tok`. -/
def jsmnStreq (json : List Byte) (tok : Tok) (s : List Byte) : Bool :=
  tok.type = .string ∧ (s.length : ℤ) = cInt (tok.stop - tok.start) ∧
    (json.drop tok.start.toNat).take s.length = s

/-- The body of a `for` loop, `n` times. -/
def times {ε α : Type} (f : α → Except ε α) : ℕ → α → Except ε α
  | 0, a => .ok a
  | n + 1, a => f a >>= times f n

/-- `jsmn_skip`, for at most `depth` calls in one another. -/
def jsmnSkipWithin : ℕ → List Tok → Except Fault (List Tok)
  | _, [] => .error .bounds
  | 0, _ :: _ => .error .bounds
  | depth + 1, tok :: rest =>
    match tok.type with
    | .primitive | .string => .ok rest
    | .object => times (fun t => jsmnSkipWithin depth t >>= jsmnSkipWithin depth) tok.size rest
    | .array => times (jsmnSkipWithin depth) tok.size rest
    | .undefined => .error .assertion

/-- `jsmn_skip`; every call goes on behind its token, so there are not more of them in one another
than there are tokens. -/
def jsmnSkip (t : List Tok) : Except Fault (List Tok) := jsmnSkipWithin t.length t

end Wandio.Jsmn
