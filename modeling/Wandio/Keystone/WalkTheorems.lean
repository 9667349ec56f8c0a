import Mathlib.Data.List.TakeWhile
import Wandio.Keystone.ReferenceTheorems

/-!
# The walk over the tokens of an answer

One cursor goes through loops in one another. For every loop: how far a turn takes the cursor, and
what it does to the state; then a loop over items that stand one behind the other folds over them.
-/

namespace Wandio.Keystone

open Jsmn

@[simp] theorem deref_cons (tok : Tok) (t : List Tok) : deref (tok :: t) = .ok tok := rfl

theorem ok_bind {ε α β : Type} (a : α) (f : α → Except ε β) : (Except.ok a >>= f) = f a := rfl

/-! ## Loops over items -/

/-- Items that stand one behind the other. -/
inductive Chain {ι : Type} (At : ι → List Tok → List Tok → Prop) :
    List ι → List Tok → List Tok → Prop where
  | nil {t : List Tok} : Chain At [] t t
  | cons {i : ι} {is : List ι} {t u rest : List Tok} (h : At i t u) (hs : Chain At is u rest) :
    Chain At (i :: is) t rest

/-- An item that is bad ends in an error; another one ends in the state `b`, one past it. -/
def Ended {α : Type} (r : Except Fault (α × Cursor)) (bad : Bool) (b : α) (u : List Tok) : Prop :=
  ∃ c, r = .ok (c, if bad then none else some u) ∧ (bad = false → c = b)

section Loops

variable {α ι : Type} {At : ι → List Tok → List Tok → Prop} {i : ι} {is : List ι}
  {body : α → List Tok → Except Fault (α × Cursor)} {bad : ι → Bool} {step : α → ι → α}
  {b c : α} {t u rest : List Tok}

/-- A loop that has been left by a bad item ends without a cursor. -/
theorem Ended.fail : Ended (.ok (c, none)) true b u := by
  refine ⟨c, rfl, ?_⟩
  intro h
  cases h

/-- A good item ends with the cursor one past it. -/
theorem Ended.pass : Ended (.ok (b, some u)) false b u := ⟨b, rfl, fun _ => rfl⟩

/-- A loop over items folds over them, up to the first that is bad. -/
theorem each_ended (h : Chain At is t rest)
    (hturn : ∀ i ∈ is, ∀ (a : α) (t u : List Tok), At i t u →
      Ended (body a t) (bad i) (step a i) u) (a : α) :
    Ended (each body is.length a t) (is.any bad) (is.foldl step a) rest := by
  induction h generalizing a with
  | nil => exact Ended.pass
  | @cons i is t u rest hi _ ih =>
    have hrest := ih fun j hj => hturn j (List.mem_cons_of_mem _ hj)
    obtain ⟨c, hc, hstep⟩ := hturn i List.mem_cons_self a t u hi
    rw [List.length_cons, each, hc, List.any_cons, List.foldl_cons]
    cases hbad : bad i with
    | true => exact Ended.fail
    | false =>
      rw [← hstep hbad]
      exact hrest c

end Loops

/-! ## Values and members in the array -/

/-- The member stands at the cursor: its key, and behind it its value. -/
def MemberAt (js : List Byte) (m : List Byte × Json) (t u : List Tok) : Prop :=
  ∃ key t', t = key :: t' ∧ IsString js key m.1 ∧ LaidOut js (.value m.2) t' u

/-- The value stands at the cursor. -/
def ValueAt (js : List Byte) (v : Json) (t u : List Tok) : Prop := LaidOut js (.value v) t u

section Layout

variable {js : List Byte} {v : Json} {vs : List Json} {ms : Members} {t u : List Tok}

/-- The elements of an array stand one behind the other. -/
theorem chain_elems (h : LaidOut js (.elems vs) t u) : Chain (ValueAt js) vs t u := by
  induction vs generalizing t with
  | nil =>
    cases h with
    | noElems => exact .nil
  | cons v vs ih =>
    cases h with
    | elem h hs => exact .cons h (ih hs)

/-- The members of an object stand one behind the other. -/
theorem chain_members (h : LaidOut js (.members ms) t u) : Chain (MemberAt js) ms t u := by
  induction ms generalizing t with
  | nil =>
    cases h with
    | noMembers => exact .nil
  | cons m ms ih =>
    cases h with
    | member hkey h hs => exact .cons ⟨_, _, rfl, hkey, h⟩ (ih hs)

/-- Whether a value is a string can be seen at its token. -/
theorem value_string (h : LaidOut js (.value v) t u) :
    (isString v = true ∧ ∃ tok, t = tok :: u ∧ IsString js tok (text v)) ∨
      (isString v = false ∧ ∃ tok t', t = tok :: t' ∧ tok.type ≠ .string) := by
  cases h with
  | string h => exact .inl ⟨rfl, _, rfl, h⟩
  | primitive htype => exact .inr ⟨rfl, _, _, rfl, by simp [htype]⟩
  | array htype => exact .inr ⟨rfl, _, _, rfl, by simp [htype]⟩
  | object htype => exact .inr ⟨rfl, _, _, rfl, by simp [htype]⟩

/-- Whether a value is an array can be seen at its token, and the token counts the elements. -/
theorem value_array (h : LaidOut js (.value v) t u) :
    (isArray v = true ∧ ∃ tok t', t = tok :: t' ∧ tok.type = .array ∧
        tok.size = (elemsOf v).length ∧ Chain (ValueAt js) (elemsOf v) t' u) ∨
      (isArray v = false ∧ ∃ tok t', t = tok :: t' ∧ tok.type ≠ .array) := by
  cases h with
  | string h => exact .inr ⟨rfl, _, _, rfl, by simp [h.type]⟩
  | primitive htype => exact .inr ⟨rfl, _, _, rfl, by simp [htype]⟩
  | array htype hsize h => exact .inl ⟨rfl, _, _, rfl, htype, hsize, chain_elems h⟩
  | object htype => exact .inr ⟨rfl, _, _, rfl, by simp [htype]⟩

/-- Whether a value is an object can be seen at its token, and the token counts the members. -/
theorem value_object (h : LaidOut js (.value v) t u) :
    (isObject v = true ∧ ∃ tok t', t = tok :: t' ∧ tok.type = .object ∧
        tok.size = (membersOf v).length ∧ Chain (MemberAt js) (membersOf v) t' u) ∨
      (isObject v = false ∧ ∃ tok t', t = tok :: t' ∧ tok.type ≠ .object) := by
  cases h with
  | string h => exact .inr ⟨rfl, _, _, rfl, by simp [h.type]⟩
  | primitive htype => exact .inr ⟨rfl, _, _, rfl, by simp [htype]⟩
  | array htype => exact .inr ⟨rfl, _, _, rfl, by simp [htype]⟩
  | object htype hsize h => exact .inl ⟨rfl, _, _, rfl, htype, hsize, chain_members h⟩

end Layout

/-! ## Members by their keys -/

section Members

variable {α β : Type} {k : List Byte} {m : List Byte × Json} {ms : Members}

/-- The values of a key are those of the members that have it. -/
theorem valuesOf_cons (k : List Byte) (m : List Byte × Json) (ms : Members) :
    valuesOf k (m :: ms) = if m.1 = k then m.2 :: valuesOf k ms else valuesOf k ms := by
  unfold valuesOf
  by_cases hk : m.1 = k
  · rw [if_pos hk, List.filter_cons_of_pos (by simpa using hk), List.map_cons]
  · rw [if_neg hk, List.filter_cons_of_neg (by simpa using hk)]

/-- A part of the state that only the members with the key `k` change. -/
theorem foldl_valuesOf {step : α → List Byte × Json → α} {f : α → β} {g : β → Json → β}
    (h : ∀ a m, f (step a m) = if m.1 = k then g (f a) m.2 else f a) (ms : Members)
    (a : α) : f (ms.foldl step a) = (valuesOf k ms).foldl g (f a) := by
  induction ms generalizing a with
  | nil => rfl
  | cons m ms ih =>
    rw [List.foldl_cons, ih, h, valuesOf_cons]
    by_cases hk : m.1 = k
    · rw [if_pos hk, if_pos hk, List.foldl_cons]
    · rw [if_neg hk, if_neg hk]

/-- Whether a member with the key has a property can be seen at the values of the key. -/
theorem any_valuesOf (k : List Byte) (p : Json → Bool) (ms : Members) :
    (ms.any fun m => m.1 = k && p m.2) = (valuesOf k ms).any p := by
  induction ms with
  | nil => rfl
  | cons m ms ih =>
    rw [List.any_cons, ih, valuesOf_cons]
    by_cases hk : m.1 = k
    · rw [if_pos hk, List.any_cons, decide_eq_true hk, Bool.true_and]
    · rw [if_neg hk, decide_eq_false hk, Bool.false_and, Bool.false_or]

theorem foldl_or {ι : Type} (p : ι → Bool) (vs : List ι) (b : Bool) :
    vs.foldl (fun b v => b || p v) b = (b || vs.any p) := by
  induction vs generalizing b with
  | nil => exact (Bool.or_false b).symm
  | cons v vs ih => rw [List.foldl_cons, ih, List.any_cons, Bool.or_assoc]

/-- The last of the values that count. -/
theorem foldl_last {ι : Type} (p : ι → Bool) (g : ι → α) (vs : List ι) (a : α) :
    vs.foldl (fun a v => if p v then g v else a) a =
      ((vs.filter p).map g).getLast?.getD a := by
  induction vs generalizing a with
  | nil => rfl
  | cons v vs ih =>
    rw [List.foldl_cons, ih, List.filter_cons]
    cases hv : p v with
    | false => rfl
    | true =>
      simp only [if_true, List.map_cons, List.getLast?_cons, Option.getD_some]

theorem any_or (p q : List Byte × Json → Bool) (ms : Members) :
    (ms.any fun m => p m || q m) = (ms.any p || ms.any q) := by
  induction ms with
  | nil => rfl
  | cons m ms ih =>
    rw [List.any_cons, List.any_cons, List.any_cons, ih]
    simp only [Bool.or_assoc, Bool.or_left_comm]

end Members

/-! ## Endpoints -/

/-- A member that ends the walk over an endpoint. -/
def badEndpointKey (m : List Byte × Json) : Bool :=
  m.1 = interfaceName && !isString m.2 || m.1 = urlName && !isString m.2

/-- What a member of an endpoint does to the state. -/
def endpointStep (e : Endpoint) (m : List Byte × Json) : Endpoint :=
  if m.1 = interfaceName then
    { e with foundInterface := e.foundInterface || isText publicValue m.2 }
  else if m.1 = urlName then { e with urltmp := text m.2, urllen := (text m.2).length }
  else e

/-- All urls of an endpoint fit into the buffer. -/
def ShortEndpoint (v : Json) : Prop :=
  ∀ w ∈ valuesOf urlName (membersOf v), (text w).length < buflen

section Endpoints

variable {js : List Byte} {m : List Byte × Json} {ms : Members} {v : Json} {tok : Tok}
  {s w : List Byte} {t u : List Tok}

/-- The length of a url is that of its text: no byte is lost in the `int`. -/
theorem urlLength_eq (h : IsString js tok s) : urlLength tok = s.length := by
  have hstart := h.start
  have hstop := h.stop_lt
  have hlength := h.length
  unfold urlLength
  rw [cInt_of_range (by omega) (by omega), hlength]
  omega

/-- What is copied of a url is its text. -/
theorem urlBytes_eq (h : IsString js tok s) : urlBytes js tok = s := by
  unfold urlBytes
  rw [urlLength_eq h]
  exact h.bytes

/-- A comparison with a word, where the value is a string. -/
theorem streq_text (h : IsString js tok (text v)) (hv : isString v = true) (w : List Byte) :
    jsmnStreq js tok w = isText w v := by
  rw [h.jsmnStreq, isText, hv, Bool.true_and]

/-- A value that is compared with a word. -/
theorem compare_ended {α : Type} (h : LaidOut js (.value v) t u) (w : List Byte) (a b : α) :
    Ended (deref t >>= fun value =>
        if value.type ≠ .string then .ok (a, none)
        else if jsmnStreq js value w then .ok (b, some t.tail) else .ok (a, some t.tail))
      (!isString v) (if isText w v then b else a) u := by
  obtain ⟨hv, tok, rfl, htok⟩ | ⟨hv, tok, t', rfl, htype⟩ := value_string h
  · rw [deref_cons, ok_bind, if_neg (not_not_intro htok.type), streq_text htok hv, hv]
    split
    · exact Ended.pass
    · exact Ended.pass
  · rw [deref_cons, ok_bind, if_pos htype, hv]
    exact Ended.fail

/-- A turn of the loop over an endpoint: past its member, unless this is bad. -/
theorem endpointKey_ended (h : MemberAt js m t u) (e : Endpoint) :
    Ended (endpointKey js e t) (badEndpointKey m) (endpointStep e m) u := by
  obtain ⟨key, t', rfl, hkey, hvalue⟩ := h
  simp only [endpointKey, deref_cons, ok_bind, List.tail_cons, hkey.jsmnStreq, decide_eq_true_eq]
  have hdiffer : urlName ≠ interfaceName := by decide
  by_cases hinterface : m.1 = interfaceName
  · have hstep : endpointStep e m =
        if isText publicValue m.2 then { e with foundInterface := true } else e := by
      rw [endpointStep, if_pos hinterface]
      cases isText publicValue m.2 with
      | true => rw [Bool.or_true, if_pos rfl]
      | false => rw [Bool.or_false, if_neg Bool.false_ne_true]
    have hbad : badEndpointKey m = !isString m.2 := by
      simp [badEndpointKey, hinterface, hdiffer.symm]
    rw [if_pos hinterface, hstep, hbad]
    exact compare_ended hvalue publicValue e _
  · rw [if_neg hinterface]
    by_cases hurl : m.1 = urlName
    · have hstep : endpointStep e m =
          { e with urltmp := text m.2, urllen := (text m.2).length } := by
        rw [endpointStep, if_neg hinterface, if_pos hurl]
      have hbad : badEndpointKey m = !isString m.2 := by simp [badEndpointKey, hurl, hdiffer]
      rw [if_pos hurl, hstep, hbad]
      obtain ⟨hv, tok, rfl, htok⟩ | ⟨hv, tok, t', rfl, htype⟩ := value_string hvalue
      · rw [deref_cons, ok_bind, if_neg (not_not_intro htok.type), urlBytes_eq htok,
          urlLength_eq htok, hv]
        exact Ended.pass
      · rw [deref_cons, ok_bind, if_pos htype, hv]
        exact Ended.fail
    · have hstep : endpointStep e m = e := by rw [endpointStep, if_neg hinterface, if_neg hurl]
      have hbad : badEndpointKey m = false := by simp [badEndpointKey, hinterface, hurl]
      rw [if_neg hurl, hstep, hbad, hvalue.jsmnSkip]
      exact Ended.pass

/-- After its members it is known whether an endpoint is public. -/
theorem foldl_foundInterface (ms : Members) (e : Endpoint) :
    (ms.foldl endpointStep e).foundInterface =
      (e.foundInterface || (valuesOf interfaceName ms).any (isText publicValue)) := by
  rw [← foldl_or]
  apply foldl_valuesOf (f := Endpoint.foundInterface)
  intro e m
  unfold endpointStep
  split_ifs <;> rfl

/-- After the members of an endpoint the url is the last one among them. -/
theorem foldl_urltmp (ms : Members) (e : Endpoint) :
    (ms.foldl endpointStep e).urltmp =
      ((valuesOf urlName ms).map text).getLast?.getD e.urltmp := by
  have hlast := foldl_last (fun _ => true) text (valuesOf urlName ms) e.urltmp
  simp only [if_true, List.filter_true] at hlast
  rw [← hlast]
  apply foldl_valuesOf (f := Endpoint.urltmp)
  intro e m
  have hdiffer : interfaceName ≠ urlName := by decide
  by_cases hinterface : m.1 = interfaceName
  · rw [endpointStep, if_pos hinterface, if_neg (by rw [hinterface]; exact hdiffer)]
  · rw [endpointStep, if_neg hinterface]
    split_ifs <;> rfl

/-- The length that is kept is that of the url that is kept. -/
theorem foldl_urllen (ms : Members) (e : Endpoint) (h : e.urllen = e.urltmp.length) :
    (ms.foldl endpointStep e).urllen = (ms.foldl endpointStep e).urltmp.length := by
  induction ms generalizing e with
  | nil => exact h
  | cons m ms ih =>
    apply ih
    unfold endpointStep
    split_ifs
    · exact h
    · rfl
    · exact h

/-- An endpoint has a bad member exactly if one of its interfaces or urls is not a string. -/
theorem any_badEndpointKey (ms : Members) : ms.any badEndpointKey =
    ((valuesOf interfaceName ms).any (!isString ·) || (valuesOf urlName ms).any (!isString ·)) := by
  rw [← any_valuesOf, ← any_valuesOf, ← any_or]
  rfl

/-- The url of an endpoint is one of its urls, if there is one. -/
theorem endpointUrl_eq (v : Json) :
    endpointUrl v = [] ∨ ∃ w ∈ valuesOf urlName (membersOf v), endpointUrl v = text w := by
  unfold endpointUrl
  cases hlast : ((valuesOf urlName (membersOf v)).map text).getLast? with
  | none => exact .inl rfl
  | some s =>
    obtain ⟨w, hw, rfl⟩ := List.mem_map.mp (List.mem_of_getLast? hlast)
    exact .inr ⟨w, hw, rfl⟩

/-- The url of an endpoint whose urls are short is short. -/
theorem ShortEndpoint.length_lt (h : ShortEndpoint v) : (endpointUrl v).length < buflen := by
  obtain hnil | ⟨w, hw, heq⟩ := endpointUrl_eq v
  · rw [hnil]
    decide
  · rw [heq]
    exact h w hw

/-- The value of a member that stands in the array stands there as well. -/
theorem exists_member {k : List Byte} {w : Json} (h : Chain (MemberAt js) ms t u)
    (hw : w ∈ valuesOf k ms) : ∃ t u, LaidOut js (.value w) t u := by
  induction h with
  | nil => cases hw
  | @cons m ms t u rest hm _ ih =>
    rw [valuesOf_cons] at hw
    split at hw
    · obtain rfl | hw := List.mem_cons.mp hw
      · obtain ⟨_, t', _, _, hvalue⟩ := hm
        exact ⟨t', u, hvalue⟩
      · exact ih hw
    · exact ih hw

/-- The text ends at the first zero, so there is none in a string. -/
theorem zero_notMem_text (h : LaidOut js (.value v) t u) : 0 ∉ text v := by
  cases h with
  | string h => exact h.zero
  | primitive => exact List.not_mem_nil
  | array => exact List.not_mem_nil
  | object => exact List.not_mem_nil

/-- The url of an endpoint has no zero in it. -/
theorem zero_notMem_endpointUrl (h : Chain (MemberAt js) (membersOf v) t u) :
    0 ∉ endpointUrl v := by
  obtain hnil | ⟨w, hw, heq⟩ := endpointUrl_eq v
  · rw [hnil]
    exact List.not_mem_nil
  · rw [heq]
    obtain ⟨_, _, hvalue⟩ := exists_member h hw
    exact zero_notMem_text hvalue

/-- A text without a zero is copied whole. -/
theorem cString_eq (h : 0 ∉ s) : cString s = s := by
  apply List.takeWhile_eq_self_iff.mpr
  intro b hb
  exact decide_eq_true (ne_of_mem_of_not_mem hb h)

/-- What an endpoint does to the buffer. -/
def endpointsStep (urlbuf : List Byte) (v : Json) : List Byte :=
  if publicEndpoint v then endpointUrl v else urlbuf

/-- The walk over an endpoint ends one past it with its url in the buffer if it is public, or gives
up if it is bad. -/
theorem processEndpointEntry_ended (h : ValueAt js v t u) (hshort : ShortEndpoint v)
    (urlbuf : List Byte) :
    Ended (processEndpointEntry buflen js urlbuf t) (badEndpoint v) (endpointsStep urlbuf v) u := by
  unfold processEndpointEntry
  obtain ⟨hv, tok, t', rfl, htype, hsize, hchain⟩ | ⟨hv, tok, t', rfl, htype⟩ := value_object h
  · have hbad : badEndpoint v = (membersOf v).any badEndpointKey := by
      rw [any_badEndpointKey, badEndpoint, hv]
      simp
    obtain ⟨e, he, hfold⟩ := each_ended hchain
      (fun m _ e t u hm => endpointKey_ended hm e) ⟨false, [], 0⟩
    rw [deref_cons, ok_bind, if_neg (not_not_intro htype), List.tail_cons, hsize, he, ok_bind, hbad]
    cases hany : (membersOf v).any badEndpointKey with
    | true => exact Ended.fail
    | false =>
      have hfound : e.foundInterface = publicEndpoint v := by
        rw [hfold hany, foldl_foundInterface]
        rfl
      have hurl : e.urltmp = endpointUrl v := by
        rw [hfold hany, foldl_urltmp]
        rfl
      have hlen : e.urllen = (endpointUrl v).length := by
        rw [← hurl, hfold hany]
        exact foldl_urllen _ _ rfl
      have hcopy : copyUrl buflen urlbuf e = .ok (endpointsStep urlbuf v) := by
        unfold copyUrl endpointsStep
        rw [hfound, hlen, if_pos hshort.length_lt, hurl,
          cString_eq (zero_notMem_endpointUrl hchain)]
        split <;> rfl
      simp only [Bool.false_eq_true, if_false]
      rw [hcopy]
      exact Ended.pass
  · rw [deref_cons, ok_bind, if_pos htype]
    have hbad : badEndpoint v = true := by
      rw [badEndpoint, hv]
      rfl
    rw [hbad]
    exact Ended.fail

end Endpoints

/-! ## Entries of the catalog -/

/-- A member that ends the walk over an entry. -/
def badCatalogKey (m : List Byte × Json) : Bool :=
  m.1 = typeName && !isString m.2 ||
    m.1 = endpointsName && (!isArray m.2 || (elemsOf m.2).any badEndpoint)

/-- What a member of an entry does to the state. -/
def catalogStep (c : Entry) (m : List Byte × Json) : Entry :=
  if m.1 = typeName then { c with foundService := c.foundService || isText objectStoreValue m.2 }
  else if m.1 = endpointsName then
    { c with urlbuf := (elemsOf m.2).foldl endpointsStep c.urlbuf }
  else c

/-- All urls of an entry fit into the buffer. -/
def ShortEntry (v : Json) : Prop := ∀ w ∈ endpointsOf (membersOf v), ShortEndpoint w

section Entries

variable {js : List Byte} {m : List Byte × Json} {ms : Members} {v : Json} {t u : List Tok}

/-- A turn of the loop over an entry: past its member, unless this is bad. -/
theorem catalogKey_ended (h : MemberAt js m t u)
    (hshort : m.1 = endpointsName → ∀ w ∈ elemsOf m.2, ShortEndpoint w) (c : Entry) :
    Ended (catalogKey js c t) (badCatalogKey m) (catalogStep c m) u := by
  obtain ⟨key, t', rfl, hkey, hvalue⟩ := h
  simp only [catalogKey, deref_cons, ok_bind, List.tail_cons, hkey.jsmnStreq, decide_eq_true_eq]
  have hdiffer : endpointsName ≠ typeName := by decide
  by_cases htypeName : m.1 = typeName
  · have hstep : catalogStep c m =
        if isText objectStoreValue m.2 then { c with foundService := true } else c := by
      rw [catalogStep, if_pos htypeName]
      cases isText objectStoreValue m.2 with
      | true => rw [Bool.or_true, if_pos rfl]
      | false => rw [Bool.or_false, if_neg Bool.false_ne_true]
    have hbad : badCatalogKey m = !isString m.2 := by
      simp [badCatalogKey, htypeName, hdiffer.symm]
    rw [if_pos htypeName, hstep, hbad]
    exact compare_ended hvalue objectStoreValue c _
  · rw [if_neg htypeName]
    by_cases hendpoints : m.1 = endpointsName
    · have hstep : catalogStep c m =
          { c with urlbuf := (elemsOf m.2).foldl endpointsStep c.urlbuf } := by
        rw [catalogStep, if_neg htypeName, if_pos hendpoints]
      have hbad : badCatalogKey m = (!isArray m.2 || (elemsOf m.2).any badEndpoint) := by
        simp [badCatalogKey, hendpoints, hdiffer]
      rw [if_pos hendpoints, hstep, hbad]
      obtain ⟨hv, tok, t', rfl, htype, hsize, hchain⟩ | ⟨hv, tok, t', rfl, htype⟩ :=
        value_array hvalue
      · obtain ⟨urlbuf, hurlbuf, hfold⟩ := each_ended hchain
          (fun w hw a t u hv => processEndpointEntry_ended hv (hshort hendpoints w hw) a) c.urlbuf
        rw [deref_cons, ok_bind, if_neg (not_not_intro htype), List.tail_cons, hsize, hurlbuf,
          ok_bind, hv, Bool.not_true, Bool.false_or]
        refine ⟨{ c with urlbuf := urlbuf }, rfl, ?_⟩
        intro hany
        rw [hfold hany]
      · rw [deref_cons, ok_bind, if_pos htype, hv]
        exact Ended.fail
    · have hstep : catalogStep c m = c := by
        rw [catalogStep, if_neg htypeName, if_neg hendpoints]
      have hbad : badCatalogKey m = false := by simp [badCatalogKey, htypeName, hendpoints]
      rw [if_neg hendpoints, hstep, hbad, hvalue.jsmnSkip]
      exact Ended.pass

/-- After its members it is known whether an entry is for an object store. -/
theorem foldl_foundService (ms : Members) (c : Entry) :
    (ms.foldl catalogStep c).foundService =
      (c.foundService || (valuesOf typeName ms).any (isText objectStoreValue)) := by
  rw [← foldl_or]
  apply foldl_valuesOf (f := Entry.foundService)
  intro c m
  unfold catalogStep
  split_ifs <;> rfl

/-- After the members of an entry the buffer has the url of its last public endpoint. -/
theorem foldl_urlbuf (ms : Members) (c : Entry) :
    (ms.foldl catalogStep c).urlbuf =
      (((endpointsOf ms).filter publicEndpoint).map endpointUrl).getLast?.getD c.urlbuf := by
  have hlast := foldl_last publicEndpoint endpointUrl (endpointsOf ms) c.urlbuf
  rw [← hlast, endpointsOf, List.foldl_flatMap]
  apply foldl_valuesOf (f := Entry.urlbuf)
  intro c m
  have hdiffer : typeName ≠ endpointsName := by decide
  by_cases htypeName : m.1 = typeName
  · rw [catalogStep, if_pos htypeName, if_neg (by rw [htypeName]; exact hdiffer)]
  · rw [catalogStep, if_neg htypeName]
    split_ifs <;> rfl

/-- An entry has a bad member exactly if one of its types is not a string, or one of its lists of
endpoints is not an array or has a bad one. -/
theorem any_badCatalogKey (ms : Members) : ms.any badCatalogKey =
    ((valuesOf typeName ms).any (!isString ·) ||
      (valuesOf endpointsName ms).any fun w => !isArray w || (elemsOf w).any badEndpoint) := by
  rw [← any_valuesOf, ← any_valuesOf, ← any_or]
  rfl

/-- The value of a member is one of the values of its key. -/
theorem mem_valuesOf {m : List Byte × Json} (h : m ∈ ms) : m.2 ∈ valuesOf m.1 ms :=
  List.mem_map_of_mem (List.mem_filter.mpr ⟨h, decide_eq_true rfl⟩)

/-- What an entry does to the storage url. -/
def entryStep (storageUrl : Option (List Byte)) (v : Json) : Option (List Byte) :=
  if isStore v then storageUrl.or (some (entryUrl v)) else storageUrl

/-- The walk over an entry ends one past it with the storage url set if it is the first for an
object store, or gives up if it is bad. -/
theorem processCatalogEntry_ended (h : ValueAt js v t u) (hshort : ShortEntry v)
    (storageUrl : Option (List Byte)) :
    Ended (processCatalogEntry js storageUrl t) (badEntry v) (entryStep storageUrl v) u := by
  unfold processCatalogEntry
  obtain ⟨hv, tok, t', rfl, htype, hsize, hchain⟩ | ⟨hv, tok, t', rfl, htype⟩ := value_object h
  · have hbad : badEntry v =
        ((membersOf v).any badCatalogKey || isStore v && entryUrl v = []) := by
      rw [any_badCatalogKey, badEntry, hv]
      rfl
    have hendpoints : ∀ m ∈ membersOf v, m.1 = endpointsName →
        ∀ w ∈ elemsOf m.2, ShortEndpoint w := by
      intro m hm hkey w hw
      apply hshort
      rw [endpointsOf, ← hkey]
      exact List.mem_flatMap.mpr ⟨m.2, mem_valuesOf hm, hw⟩
    obtain ⟨c, hc, hfold⟩ := each_ended hchain
      (fun m hm c t u hat => catalogKey_ended hat (hendpoints m hm) c) ⟨false, []⟩
    rw [deref_cons, ok_bind, if_neg (not_not_intro htype), List.tail_cons, hsize, hc, ok_bind, hbad]
    cases hany : (membersOf v).any badCatalogKey with
    | true => exact Ended.fail
    | false =>
      have hfound : c.foundService = isStore v := by
        rw [hfold hany, foldl_foundService]
        rfl
      have hurl : c.urlbuf = entryUrl v := by
        rw [hfold hany, foldl_urlbuf]
        rfl
      rw [Bool.false_or]
      simp only [Bool.false_eq_true, if_false]
      unfold storeUrl entryStep
      rw [hfound, hurl]
      cases isStore v with
      | false => exact Ended.pass
      | true =>
        by_cases hnil : entryUrl v = []
        · rw [if_pos rfl, if_pos hnil, decide_eq_true hnil]
          exact Ended.fail
        · rw [if_pos rfl, if_neg hnil, decide_eq_false hnil]
          exact Ended.pass
  · rw [deref_cons, ok_bind, if_pos htype]
    have hbad : badEntry v = true := by
      rw [badEntry, hv]
      rfl
    rw [hbad]
    exact Ended.fail

end Entries

/-! ## The token and the root -/

/-- A member that ends the walk over a token. -/
def badTokenKey (m : List Byte × Json) : Bool :=
  m.1 = catalogName && (!isArray m.2 || (elemsOf m.2).any badEntry)

/-- What a member of a token does to the storage url. -/
def tokenStep (storageUrl : Option (List Byte)) (m : List Byte × Json) : Option (List Byte) :=
  if m.1 = catalogName then (elemsOf m.2).foldl entryStep storageUrl else storageUrl

/-- A member that ends the walk over the root. -/
def badRootKey (m : List Byte × Json) : Bool := m.1 = tokenName && badToken m.2

/-- What a member of the root does to the storage url. -/
def rootStep (storageUrl : Option (List Byte)) (m : List Byte × Json) : Option (List Byte) :=
  if m.1 = tokenName then (membersOf m.2).foldl tokenStep storageUrl else storageUrl

/-- All urls of an answer fit into the buffer. -/
def ShortDocument (ms : Members) : Prop := ∀ v ∈ documentEntries ms, ShortEntry v

section Document

variable {js : List Byte} {m : List Byte × Json} {ms : Members} {v : Json} {t u : List Tok}

/-- A turn of the loop over a token: past its member, unless this is bad. -/
theorem tokenKey_ended (h : MemberAt js m t u)
    (hshort : m.1 = catalogName → ∀ w ∈ elemsOf m.2, ShortEntry w)
    (storageUrl : Option (List Byte)) :
    Ended (tokenKey js storageUrl t) (badTokenKey m) (tokenStep storageUrl m) u := by
  obtain ⟨key, t', rfl, hkey, hvalue⟩ := h
  simp only [tokenKey, deref_cons, ok_bind, List.tail_cons, hkey.jsmnStreq, decide_eq_true_eq]
  unfold badTokenKey tokenStep
  by_cases hcatalog : m.1 = catalogName
  · rw [if_pos hcatalog, if_pos hcatalog, decide_eq_true hcatalog, Bool.true_and]
    obtain ⟨hv, tok, t', rfl, htype, hsize, hchain⟩ | ⟨hv, tok, t', rfl, htype⟩ :=
      value_array hvalue
    · rw [deref_cons, ok_bind, if_neg (not_not_intro htype), List.tail_cons, hsize, hv,
        Bool.not_true, Bool.false_or]
      apply each_ended hchain
      intro v hv storageUrl t u hat
      exact processCatalogEntry_ended hat (hshort hcatalog v hv) storageUrl
    · rw [deref_cons, ok_bind, if_pos htype, hv]
      exact Ended.fail
  · rw [if_neg hcatalog, if_neg hcatalog, decide_eq_false hcatalog, Bool.false_and,
      hvalue.jsmnSkip]
    exact Ended.pass

/-- A turn of the loop over the root: past its member, unless this is bad. -/
theorem rootKey_ended (h : MemberAt js m t u)
    (hshort : m.1 = tokenName → ∀ v ∈ entriesOf (membersOf m.2), ShortEntry v)
    (storageUrl : Option (List Byte)) :
    Ended (rootKey js storageUrl t) (badRootKey m) (rootStep storageUrl m) u := by
  obtain ⟨key, t', rfl, hkey, hvalue⟩ := h
  simp only [rootKey, deref_cons, ok_bind, List.tail_cons, hkey.jsmnStreq, decide_eq_true_eq]
  rw [if_neg (not_not_intro hkey.type)]
  unfold badRootKey rootStep
  by_cases htoken : m.1 = tokenName
  · rw [if_pos htoken, if_pos htoken, decide_eq_true htoken, Bool.true_and]
    obtain ⟨hv, tok, t', rfl, htype, hsize, hchain⟩ | ⟨hv, tok, t', rfl, htype⟩ :=
      value_object hvalue
    · have hbad : badToken m.2 = (membersOf m.2).any badTokenKey := by
        unfold badTokenKey
        rw [any_valuesOf catalogName fun w => !isArray w || (elemsOf w).any badEntry, badToken, hv,
          Bool.not_true, Bool.false_or]
      rw [deref_cons, ok_bind, if_neg (not_not_intro htype), List.tail_cons, hsize, hbad]
      apply each_ended hchain
      intro m' hm' storageUrl t u hat
      apply tokenKey_ended hat
      intro hkey w hw
      apply hshort htoken
      rw [entriesOf, ← hkey]
      exact List.mem_flatMap.mpr ⟨m'.2, mem_valuesOf hm', hw⟩
    · have hbad : badToken m.2 = true := by
        rw [badToken, hv]
        rfl
      rw [deref_cons, ok_bind, if_pos htype, hbad]
      exact Ended.fail
  · rw [if_neg htoken, if_neg htoken, decide_eq_false htoken, Bool.false_and, hvalue.jsmnSkip]
    exact Ended.pass

/-- The members of a token do to the storage url what the entries of its catalogs do. -/
theorem foldl_tokenStep (ms : Members) (storageUrl : Option (List Byte)) :
    ms.foldl tokenStep storageUrl = (entriesOf ms).foldl entryStep storageUrl := by
  rw [entriesOf, List.foldl_flatMap]
  apply foldl_valuesOf (f := id)
  intro storageUrl m
  rfl

/-- The members of the root do to the storage url what the entries of the answer do. -/
theorem foldl_rootStep (ms : Members) (storageUrl : Option (List Byte)) :
    ms.foldl rootStep storageUrl = (documentEntries ms).foldl entryStep storageUrl := by
  rw [documentEntries, List.foldl_flatMap]
  apply foldl_valuesOf (f := id)
  intro storageUrl m
  simp only [id_eq, ← foldl_tokenStep]
  rfl

/-- A storage url that is set remains; otherwise it becomes the one of the first object store. -/
theorem foldl_entryStep (vs : List Json) (storageUrl : Option (List Byte)) :
    vs.foldl entryStep storageUrl = storageUrl.or (firstStore vs) := by
  induction vs generalizing storageUrl with
  | nil => exact (Option.or_none ..).symm
  | cons v vs ih =>
    rw [List.foldl_cons, ih]
    unfold entryStep firstStore
    cases hv : isStore v with
    | false => rw [List.filter_cons_of_neg (by simp [hv]), if_neg Bool.false_ne_true]
    | true =>
      rw [List.filter_cons_of_pos hv, if_pos rfl, List.map_cons, List.head?_cons, Option.or_assoc,
        Option.some_or]

/-- The loop over the members of the root. -/
theorem each_rootKey_ended (h : LaidOut js (.members ms) t u) (hshort : ShortDocument ms)
    (storageUrl : Option (List Byte)) :
    Ended (each (rootKey js) ms.length storageUrl t) (badDocument ms)
      (storageUrl.or (documentUrl ms)) u := by
  have hbad : badDocument ms = ms.any badRootKey := (any_valuesOf tokenName badToken ms).symm
  rw [hbad, documentUrl, ← foldl_entryStep, ← foldl_rootStep]
  apply each_ended (chain_members h)
  intro m hm storageUrl t u hat
  apply rootKey_ended hat
  intro hkey v hv
  apply hshort
  rw [documentEntries, ← hkey]
  exact List.mem_flatMap.mpr ⟨m.2, mem_valuesOf hm, hv⟩

end Document

end Wandio.Keystone
