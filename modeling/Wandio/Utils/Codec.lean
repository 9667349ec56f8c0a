import Mathlib.Data.Int.Notation
import Mathlib.Data.List.Basic

/-!
# Streaming coders

A streaming compressor or decompressor is a state machine: it is offered some input and some
room for output, takes a part of the one, fills a part of the other and answers with a code.
Nothing says how much it takes or fills in one call. `Coder.traced` is the same machine with
a record of everything it took and everything it emitted.
-/

namespace Wandio.Codec

/-- What a coder answers to one call. -/
structure Answer (κ β : Type*) where
  state : κ
  /-- How much of the input it took. -/
  consumed : ℕ
  output : List β
  code : ℤ

/-- A coder with states `κ` and actions `α` over an alphabet `β`. It takes no more than it is
offered and emits no more than there is room for. -/
structure Coder (κ α β : Type*) where
  call : κ → α → List β → ℕ → Answer κ β
  consumed_le : ∀ k a input room, (call k a input room).consumed ≤ input.length
  output_le : ∀ k a input room, (call k a input room).output.length ≤ room

/-- A coder's state and its history. -/
structure Traced (κ β : Type*) where
  state : κ
  /-- Everything taken so far. -/
  fed : List β
  /-- Everything emitted so far. -/
  emitted : List β

variable {κ α β : Type*}

/-- A coder that remembers what it took and emitted, and otherwise is the same. -/
def Coder.traced (c : Coder κ α β) : Coder (Traced κ β) α β where
  call t a input room :=
    let r := c.call t.state a input room
    { state := ⟨r.state, t.fed ++ input.take r.consumed, t.emitted ++ r.output⟩
      consumed := r.consumed
      output := r.output
      code := r.code }
  consumed_le t := c.consumed_le t.state
  output_le t := c.output_le t.state

section Traced

variable (c : Coder κ α β) (t : Traced κ β) (a : α) (input : List β) (room : ℕ)

@[simp] theorem traced_consumed :
    (c.traced.call t a input room).consumed = (c.call t.state a input room).consumed := rfl

@[simp] theorem traced_output :
    (c.traced.call t a input room).output = (c.call t.state a input room).output := rfl

@[simp] theorem traced_code :
    (c.traced.call t a input room).code = (c.call t.state a input room).code := rfl

@[simp] theorem traced_state :
    (c.traced.call t a input room).state.state = (c.call t.state a input room).state := rfl

@[simp] theorem traced_fed :
    (c.traced.call t a input room).state.fed =
      t.fed ++ input.take (c.call t.state a input room).consumed := rfl

@[simp] theorem traced_emitted :
    (c.traced.call t a input room).state.emitted =
      t.emitted ++ (c.call t.state a input room).output := rfl

end Traced

/-- A coder that counts what it has taken, and otherwise is the same. A call whose code is not
among `accepts` takes nothing. -/
def Coder.counted (c : Coder κ α β) (accepts : ℤ → Bool) : Coder (κ × ℕ) α β where
  call k a input room :=
    let r := c.call k.1 a input room
    { state := (r.state, k.2 + if accepts r.code then r.consumed else 0)
      consumed := r.consumed
      output := r.output
      code := r.code }
  consumed_le k := c.consumed_le k.1
  output_le k := c.output_le k.1

/-! ## Decoders -/

/-- A decoder: a coder with one action, which can be started anew. -/
structure Decoder (κ β : Type*) extends Coder κ Unit β where
  reset : κ → κ

/-- A decoder's state and its answers so far, each the output with the code. -/
structure Recorded (κ β : Type*) where
  state : κ
  answers : List (List β × ℤ)

/-- A decoder that remembers its answers, and otherwise is the same. -/
def Decoder.recorded (d : Decoder κ β) : Decoder (Recorded κ β) β where
  call r a input room :=
    let answer := d.call r.state a input room
    { state := ⟨answer.state, r.answers ++ [(answer.output, answer.code)]⟩
      consumed := answer.consumed
      output := answer.output
      code := answer.code }
  consumed_le r := d.consumed_le r.state
  output_le r := d.output_le r.state
  reset r := ⟨d.reset r.state, r.answers⟩

section Recorded

variable (d : Decoder κ β) (r : Recorded κ β) (a : Unit) (input : List β) (room : ℕ)

@[simp] theorem recorded_output :
    (d.recorded.call r a input room).output = (d.call r.state a input room).output := rfl

@[simp] theorem recorded_code :
    (d.recorded.call r a input room).code = (d.call r.state a input room).code := rfl

@[simp] theorem recorded_answers :
    (d.recorded.call r a input room).state.answers =
      r.answers ++ [((d.call r.state a input room).output, (d.call r.state a input room).code)] :=
  rfl

@[simp] theorem recorded_reset_answers : (d.recorded.reset r).answers = r.answers := rfl

end Recorded

/-- A decoder of members. `Member m c` says that `m` is a complete member with contents `c`,
and `At k todo out` that in state `k` the rest `todo` of a member is still to be taken and
`out` to be emitted. The decoder leaves what follows the member alone, it comes on whenever
it is offered input and room, and it takes the last symbol of a member in the call that
reports the end of it. -/
structure MemberDecoder (d : Decoder κ β) (ok streamEnd : ℤ) (Member : List β → List β → Prop)
    (At : κ → List β → List β → Prop) : Prop where
  start : ∀ k m c, Member m c → At (d.reset k) m c
  todo_ne_nil : ∀ k todo out, At k todo out → todo ≠ []
  call : ∀ k todo out input rest room, At k todo out → input ≠ [] → 0 < room →
    input <+: todo ++ rest →
    (d.call k () input room).consumed ≤ todo.length ∧
      ∃ out', out = (d.call k () input room).output ++ out' ∧
        ((d.call k () input room).code = streamEnd ∧
            (d.call k () input room).consumed = todo.length ∧ out' = [] ∨
          (d.call k () input room).code = ok ∧
            (0 < (d.call k () input room).consumed ∨ (d.call k () input room).output ≠ []) ∧
            At (d.call k () input room).state (todo.drop (d.call k () input room).consumed) out')

/-- The frames a decoder with states `κ` knows. -/
structure Frames (κ β : Type*) where
  /-- A complete frame and its contents. -/
  Frame : List β → List β → Prop
  /-- No frame has been begun. -/
  Fresh : κ → Prop
  /-- The first list is still to be taken of a frame, and the second to be emitted. -/
  At : κ → List β → List β → Prop

/-- A decoder of frames, which may keep output back for want of room, also when it has taken
the whole frame. Its code is 0 when it is done with a frame and positive before; it leaves
what follows the frame alone, and it comes on whenever it is offered input and room. -/
structure FrameDecoder (d : Coder κ Unit β) (F : Frames κ β) : Prop where
  start : ∀ k f c, F.Fresh k → F.Frame f c → F.At k f c
  progress : ∀ k todo out input rest room, F.At k todo out → input ≠ [] → 0 < room →
    input <+: todo ++ rest →
    0 < (d.call k () input room).consumed ∨ (d.call k () input room).output ≠ []
  call : ∀ k todo out input rest room, F.At k todo out → input ≠ [] → 0 < room →
    input <+: todo ++ rest →
    (d.call k () input room).consumed ≤ todo.length ∧
      ∃ out', out = (d.call k () input room).output ++ out' ∧
        ((d.call k () input room).code = 0 ∧
            (d.call k () input room).consumed = todo.length ∧ out' = [] ∧
            F.Fresh (d.call k () input room).state ∨
          0 < (d.call k () input room).code ∧
            (todo.drop (d.call k () input room).consumed ≠ [] ∨ out' ≠ []) ∧
            F.At (d.call k () input room).state (todo.drop (d.call k () input room).consumed) out')

/-! ## The coder that keeps everything to itself -/

/-- The input so far, and what is left of the output once it has been begun. -/
structure Stored (β : Type*) where
  input : List β
  left : Option (List β)

/-- A coder that emits nothing before an action that `ends` the stream, and then `stream` of
all it was fed. Its codes are `ran` and a function of the number of symbols left to emit. -/
def storing (ends : α → Bool) (stream : List β → List β) (ran : ℤ) (code : ℕ → ℤ) :
    Coder (Stored β) α β where
  call k a input room :=
    if ends a then
      let left := k.left.getD (stream k.input)
      ⟨{ k with left := some (left.drop room) }, 0, left.take room, code (left.drop room).length⟩
    else ⟨{ k with input := k.input ++ input }, input.length, [], ran⟩
  consumed_le k a input room := by split <;> simp
  output_le k a input room := by
    split
    · exact List.length_take_le _ _
    · exact Nat.zero_le _

/-- What a storing coder has still to emit, and one more while it has not begun. -/
def Stored.held (stream : List β → List β) (k : Stored β) : ℕ :=
  match k.left with
  | none => (stream k.input).length + 1
  | some left => left.length

section Storing

variable {ends : α → Bool} {stream : List β → List β} {ran : ℤ} {code : ℕ → ℤ} {a : α}

/-- A call that does not end the stream stores its input. -/
theorem storing_run (ha : ends a = false) (k : Stored β) (input : List β) (room : ℕ) :
    (storing ends stream ran code).call k a input room =
      ⟨{ k with input := k.input ++ input }, input.length, [], ran⟩ := by
  simp [storing, ha]

theorem storing_end (ha : ends a = true) (k : Stored β) (input : List β) (room : ℕ) :
    (storing ends stream ran code).call k a input room =
      ⟨{ k with left := some ((k.left.getD (stream k.input)).drop room) }, 0,
        (k.left.getD (stream k.input)).take room,
        code ((k.left.getD (stream k.input)).drop room).length⟩ := by
  simp [storing, ha]

/-- A call that leaves something to emit makes it less. -/
theorem storing_held_lt (ha : ends a = true) (k : Stored β) (input : List β) {room : ℕ}
    (hroom : 0 < room) (hleft : 0 < ((k.left.getD (stream k.input)).drop room).length) :
    ((storing ends stream ran code).call k a input room).state.held stream < k.held stream := by
  rw [storing_end ha]
  show ((k.left.getD (stream k.input)).drop room).length < k.held stream
  rw [List.length_drop] at hleft ⊢
  unfold Stored.held
  cases hk : k.left with
  | none =>
    rw [hk, Option.getD_none] at hleft
    simp only [Option.getD_none]
    omega
  | some left =>
    rw [hk, Option.getD_some] at hleft
    simp only [Option.getD_some]
    omega

end Storing

/-! ## Codes that tell their own length -/

/-- A code for the values `P` whose words are not empty and need no separator. -/
structure SelfDelimiting (P : α → Prop) (encode : α → List β) : Prop where
  ne_nil : ∀ a, P a → encode a ≠ []
  split : ∀ a b x y, P a → P b → encode a ++ x = encode b ++ y → a = b ∧ x = y

/-- A sequence of words is the code of one list of values only. -/
theorem SelfDelimiting.injective {P : α → Prop} {encode : α → List β}
    (h : SelfDelimiting P encode) {as bs : List α} (has : ∀ a ∈ as, P a) (hbs : ∀ b ∈ bs, P b)
    (heq : as.flatMap encode = bs.flatMap encode) : as = bs := by
  induction as generalizing bs with
  | nil =>
    cases bs with
    | nil => rfl
    | cons b bs =>
      rw [List.flatMap_nil, List.flatMap_cons, eq_comm, List.append_eq_nil_iff] at heq
      exact absurd heq.1 (h.ne_nil b (hbs b (List.mem_cons_self ..)))
  | cons a as ih =>
    have ha := has a (List.mem_cons_self ..)
    cases bs with
    | nil =>
      rw [List.flatMap_nil, List.flatMap_cons, List.append_eq_nil_iff] at heq
      exact absurd heq.1 (h.ne_nil a ha)
    | cons b bs =>
      obtain ⟨rfl, hrest⟩ := h.split a b _ _ ha (hbs b (List.mem_cons_self ..)) heq
      rw [ih (fun c hc => has c (List.mem_cons_of_mem _ hc))
        (fun c hc => hbs c (List.mem_cons_of_mem _ hc)) hrest]

end Wandio.Codec
