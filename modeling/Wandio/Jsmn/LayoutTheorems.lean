import Wandio.Jsmn.UtilsModel

/-!
# How a value lies in the array

The tokens of a value stand one behind the other, a container before what is in it. A token can be
skipped without looking into it, by counting the values that are still to come.
-/

namespace Wandio.Jsmn

/-! ## Skipping -/

/-- Takes `n` values off the tokens: each token makes good for one value, and a container stands
for those in it. -/
def drain : ℕ → List Tok → Except Fault (List Tok)
  | 0, t => .ok t
  | _ + 1, [] => .error .bounds
  | n + 1, tok :: rest =>
    match tok.type with
    | .primitive | .string => drain n rest
    | .object => drain (2 * tok.size + n) rest
    | .array => drain (tok.size + n) rest
    | .undefined => .error .assertion

section Skip

variable {t u : List Tok} {m n depth : ℕ}

@[simp] theorem drain_zero (t : List Tok) : drain 0 t = .ok t := by
  cases t <;> rfl

theorem drain_add (m n : ℕ) (t : List Tok) : drain (m + n) t = drain m t >>= drain n := by
  induction t generalizing m with
  | nil =>
    cases m with
    | zero => rw [Nat.zero_add, drain_zero]; rfl
    | succ m => rw [Nat.succ_add]; rfl
  | cons tok rest ih =>
    cases m with
    | zero => rw [Nat.zero_add, drain_zero]; rfl
    | succ m =>
      rw [Nat.succ_add, drain, drain]
      cases tok.type with
      | undefined => rfl
      | object => rw [← ih, Nat.add_assoc]
      | array => rw [← ih, Nat.add_assoc]
      | string => exact ih m
      | primitive => exact ih m

theorem drain_length_le (h : drain n t = .ok u) : u.length ≤ t.length := by
  induction t generalizing n with
  | nil =>
    cases n with
    | zero =>
      rw [drain_zero] at h
      exact (Except.ok.inj h) ▸ le_rfl
    | succ n => cases h
  | cons tok rest ih =>
    cases n with
    | zero =>
      rw [drain_zero] at h
      exact (Except.ok.inj h) ▸ le_rfl
    | succ n =>
      rw [drain] at h
      apply le_trans _ (Nat.le_succ _)
      cases htype : tok.type <;> (rw [htype] at h; first | cases h | exact ih h)

/-- Taking off `m` values `n` times. -/
theorem times_drain (m n : ℕ) (t : List Tok) : times (drain m) n t = drain (n * m) t := by
  induction n generalizing t with
  | zero => rw [Nat.zero_mul, drain_zero]; rfl
  | succ n ih =>
    rw [times, Nat.succ_mul, Nat.add_comm, drain_add]
    congr 1
    exact funext ih

/-- Two loops whose bodies agree on what is left of `t`. -/
theorem times_congr {f : List Tok → Except Fault (List Tok)}
    (hf : ∀ u : List Tok, u.length ≤ depth → f u = drain m u) (ht : t.length ≤ depth) :
    times f n t = times (drain m) n t := by
  induction n generalizing t with
  | zero => rfl
  | succ n ih =>
    rw [times, times, hf t ht]
    cases hu : drain m t with
    | error e => rfl
    | ok u => exact ih ((drain_length_le hu).trans ht)

theorem jsmnSkipWithin_eq (ht : t.length ≤ depth) : jsmnSkipWithin depth t = drain 1 t := by
  induction depth generalizing t with
  | zero =>
    obtain rfl := List.eq_nil_of_length_eq_zero (Nat.le_zero.mp ht)
    rfl
  | succ depth ih =>
    cases t with
    | nil => rfl
    | cons tok rest =>
      have hrest : rest.length ≤ depth := Nat.le_of_succ_le_succ ht
      have hone : ∀ u : List Tok, u.length ≤ depth → jsmnSkipWithin depth u = drain 1 u :=
        fun u hu => ih hu
      have htwo : ∀ u : List Tok, u.length ≤ depth →
          (jsmnSkipWithin depth u >>= jsmnSkipWithin depth) = drain 2 u := by
        intro u hu
        rw [hone u hu, drain_add 1 1]
        cases hv : drain 1 u with
        | error e => rfl
        | ok v => exact hone v ((drain_length_le hv).trans hu)
      rw [jsmnSkipWithin, drain]
      cases tok.type with
      | undefined => rfl
      | object =>
        simp only
        rw [times_congr htwo hrest, times_drain, Nat.mul_comm]
        rfl
      | array =>
        simp only
        rw [times_congr hone hrest, times_drain, Nat.mul_one]
        rfl
      | string => exact (drain_zero rest).symm
      | primitive => exact (drain_zero rest).symm

/-- `jsmn_skip` takes one value off. -/
theorem jsmnSkip_eq (t : List Tok) : jsmnSkip t = drain 1 t := jsmnSkipWithin_eq le_rfl

end Skip

/-! ## Layout -/

/-- A JSON value. Strings and keys are what stands between the quotes: an escape is not decoded, and
they are compared and copied as they stand. A primitive is its text. -/
inductive Json where
  | string (s : List Byte)
  | primitive (w : List Byte)
  | array (elems : List Json)
  | object (members : List (List Byte × Json))

/-- The token of the string `s`; it has no zero byte, since the text would end there. -/
structure IsString (js : List Byte) (tok : Tok) (s : List Byte) : Prop where
  type : tok.type = .string
  start : 0 ≤ tok.start
  stop_lt : tok.stop < 2 ^ 31
  length : tok.stop - tok.start = s.length
  bytes : (js.drop tok.start.toNat).take s.length = s
  zero : 0 ∉ s

instance (js : List Byte) (tok : Tok) (s : List Byte) : Decidable (IsString js tok s) :=
  decidable_of_iff (tok.type = .string ∧ 0 ≤ tok.start ∧ tok.stop < 2 ^ 31 ∧
      tok.stop - tok.start = s.length ∧ (js.drop tok.start.toNat).take s.length = s ∧ 0 ∉ s)
    ⟨fun ⟨htype, hstart, hstop, hlength, hbytes, hzero⟩ =>
        ⟨htype, hstart, hstop, hlength, hbytes, hzero⟩,
      fun h => ⟨h.type, h.start, h.stop_lt, h.length, h.bytes, h.zero⟩⟩

/-- What stands in the array: a value, or the elements or members of one. -/
inductive Item where
  | value (v : Json)
  | elems (vs : List Json)
  | members (ms : List (List Byte × Json))

/-- The tokens begin with those of an item, and the others stand behind them. It does not matter
where in the text the values are that are no strings. -/
inductive LaidOut (js : List Byte) : Item → List Tok → List Tok → Prop where
  | string {tok : Tok} {s : List Byte} {rest : List Tok} (h : IsString js tok s) :
    LaidOut js (.value (.string s)) (tok :: rest) rest
  | primitive {tok : Tok} {w : List Byte} {rest : List Tok} (htype : tok.type = .primitive) :
    LaidOut js (.value (.primitive w)) (tok :: rest) rest
  | array {tok : Tok} {vs : List Json} {t rest : List Tok} (htype : tok.type = .array)
    (hsize : tok.size = vs.length) (h : LaidOut js (.elems vs) t rest) :
    LaidOut js (.value (.array vs)) (tok :: t) rest
  | object {tok : Tok} {ms : List (List Byte × Json)} {t rest : List Tok}
    (htype : tok.type = .object) (hsize : tok.size = ms.length)
    (h : LaidOut js (.members ms) t rest) : LaidOut js (.value (.object ms)) (tok :: t) rest
  | noElems {t : List Tok} : LaidOut js (.elems []) t t
  | elem {v : Json} {vs : List Json} {t u rest : List Tok} (h : LaidOut js (.value v) t u)
    (hs : LaidOut js (.elems vs) u rest) : LaidOut js (.elems (v :: vs)) t rest
  | noMembers {t : List Tok} : LaidOut js (.members []) t t
  | member {key : Tok} {k : List Byte} {v : Json} {ms : List (List Byte × Json)}
    {t u rest : List Tok} (hkey : IsString js key k) (h : LaidOut js (.value v) t u)
    (hs : LaidOut js (.members ms) u rest) : LaidOut js (.members ((k, v) :: ms)) (key :: t) rest

/-- The number of values an item stands for. -/
def Item.values : Item → ℕ
  | .value _ => 1
  | .elems vs => vs.length
  | .members ms => 2 * ms.length

section Layout

variable {js : List Byte} {item : Item} {v : Json} {t u : List Tok} {tok : Tok} {s : List Byte}

/-- The tokens of an item make good for its values. -/
theorem LaidOut.drain_eq (h : LaidOut js item t u) (n : ℕ) :
    drain (item.values + n) t = drain n u := by
  induction h generalizing n with
  | string h =>
    rw [Item.values, Nat.add_comm, drain, h.type]
  | primitive htype =>
    rw [Item.values, Nat.add_comm, drain, htype]
  | array htype hsize _ ih =>
    rw [Item.values, Nat.add_comm 1, drain, htype]
    simp only
    rw [hsize]
    exact ih n
  | object htype hsize _ ih =>
    rw [Item.values, Nat.add_comm 1, drain, htype]
    simp only
    rw [hsize]
    exact ih n
  | noElems => rw [Item.values, List.length_nil, Nat.zero_add]
  | elem _ _ ih ihs =>
    rw [Item.values, List.length_cons, Nat.add_comm _ 1, Nat.add_assoc]
    exact (ih _).trans (ihs n)
  | noMembers => rw [Item.values, List.length_nil, Nat.mul_zero, Nat.zero_add]
  | @member key k v ms t u rest hkey _ _ ih ihs =>
    have hvalues : (Item.members ((k, v) :: ms)).values + n =
        (1 + (2 * ms.length + n)) + 1 := by
      rw [Item.values, List.length_cons]
      omega
    rw [hvalues, drain, hkey.type]
    exact (ih _).trans (ihs n)

/-- `jsmn_skip` ends one past the value it starts at. -/
theorem LaidOut.jsmnSkip (h : LaidOut js (.value v) t u) : jsmnSkip t = .ok u := by
  rw [jsmnSkip_eq]
  exact (h.drain_eq 0).trans (drain_zero u)

/-- A string is the one it is compared with exactly if it is the same. -/
theorem IsString.jsmnStreq (h : IsString js tok s) (w : List Byte) :
    jsmnStreq js tok w = decide (s = w) := by
  have hint : cInt (tok.stop - tok.start) = s.length := by
    rw [← h.length]
    have := h.start
    have := h.stop_lt
    have := h.length
    exact cInt_of_range (by omega) (by omega)
  unfold Jsmn.jsmnStreq
  rw [decide_eq_decide, hint]
  constructor
  · intro ⟨_, hlen, hw⟩
    rw [← h.bytes, ← Int.ofNat.inj hlen]
    exact hw
  · rintro rfl
    exact ⟨h.type, rfl, h.bytes⟩

end Layout

end Wandio.Jsmn
