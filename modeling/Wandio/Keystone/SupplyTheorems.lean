import Wandio.Keystone.CatalogTheorems

/-!
# When the walk stays in the array

The tokens of an answer need not be those of a JSON value: keys may have no value, or several. The
walk stays in the array if the tokens can be read the way it reads them: every key it comes to has
a value, and a value is complete, up to the first one of a wrong type.
-/

namespace Wandio.Keystone

open Loop Jsmn

/-! ## Rows -/

/-- The walk comes to `n` items that stand one behind the other, or gives up at one of them. -/
inductive Row {ι : Type} (At : ι → List Tok → Cursor → Prop) :
    ℕ → List ι → List Tok → Cursor → Prop where
  | nil {t : List Tok} : Row At 0 [] t (some t)
  | cut {n : ℕ} {i : ι} {t : List Tok} (h : At i t none) : Row At (n + 1) [i] t none
  | cons {n : ℕ} {i : ι} {is : List ι} {t u : List Tok} {c : Cursor} (h : At i t (some u))
    (hs : Row At n is u c) : Row At (n + 1) (i :: is) t c

/-- A turn ends without a fault exactly at what can be read as an item, and then makes
`step a i` of the state `a` unless it gives up. -/
structure Reads {α ι : Type} (body : α → List Tok → Except Fault (α × Cursor))
    (At : ι → List Tok → Cursor → Prop) (step : α → ι → α) : Prop where
  read : ∀ {a t b c}, body a t = .ok (b, c) → ∃ i, At i t c ∧ (c ≠ none → b = step a i)
  run : ∀ {i t c}, At i t c → ∀ a, ∃ b, body a t = .ok (b, c) ∧ (c ≠ none → b = step a i)

section Rows

variable {α ι : Type} {body : α → List Tok → Except Fault (α × Cursor)}
  {At : ι → List Tok → Cursor → Prop} {step : α → ι → α} {a b : α} {is : List ι} {n : ℕ}
  {t : List Tok} {c : Cursor}

/-- A loop over items that ends without a fault has come to a row of them. -/
theorem Reads.read_each (h : Reads body At step) (hbody : each body n a t = .ok (b, c)) :
    ∃ is, Row At n is t c ∧ (c ≠ none → b = is.foldl step a) := by
  induction n generalizing a t with
  | zero =>
    cases hbody
    exact ⟨[], .nil, fun _ => rfl⟩
  | succ n ih =>
    rw [each] at hbody
    obtain ⟨⟨a', cursor⟩, hturn, hbody⟩ := bind_ok hbody
    obtain ⟨i, hi, hstep⟩ := h.read hturn
    cases cursor with
    | none =>
      cases hbody
      exact ⟨[i], .cut hi, fun hne => absurd rfl hne⟩
    | some u =>
      obtain ⟨is, his, hfold⟩ := ih hbody
      refine ⟨i :: is, .cons hi his, ?_⟩
      intro hne
      rw [hfold hne, hstep (Option.some_ne_none u), List.foldl_cons]

/-- A loop over items goes through a row of them without a fault. -/
theorem Reads.run_each (h : Reads body At step) (hrow : Row At n is t c) (a : α) :
    ∃ b, each body n a t = .ok (b, c) ∧ (c ≠ none → b = is.foldl step a) := by
  induction hrow generalizing a with
  | nil => exact ⟨a, rfl, fun _ => rfl⟩
  | cut hi =>
    obtain ⟨b, hb, _⟩ := h.run hi a
    refine ⟨b, ?_, fun hne => absurd rfl hne⟩
    rw [each, hb]
    rfl
  | @cons n i is t u c hi _ ih =>
    obtain ⟨a', ha', hstep⟩ := h.run hi a
    obtain ⟨b, hb, hfold⟩ := ih a'
    refine ⟨b, ?_, ?_⟩
    · rw [each, ha', ok_bind]
      exact hb
    · intro hne
      rw [hfold hne, hstep (Option.some_ne_none u), List.foldl_cons]

/-- A loop over items reads a row of them. -/
theorem Reads.each (h : Reads body At step) (n : ℕ) :
    Reads (Keystone.each body n) (Row At n) (List.foldl step) :=
  ⟨h.read_each, h.run_each⟩

end Rows

/-! ## Endpoints -/

/-- A member of an endpoint: the token of its key and the one behind it. Of keys that are not
looked for the value is as many tokens as the sizes say. -/
inductive EndpointMemberAt (js : List Byte) : Tok × Tok → List Tok → Cursor → Prop where
  | text {key value : Tok} {t : List Tok}
    (hkey : jsmnStreq js key interfaceName ∨ jsmnStreq js key urlName)
    (htype : value.type = .string) : EndpointMemberAt js (key, value) (key :: value :: t) (some t)
  | wrong {key value : Tok} {t : List Tok}
    (hkey : jsmnStreq js key interfaceName ∨ jsmnStreq js key urlName)
    (htype : value.type ≠ .string) : EndpointMemberAt js (key, value) (key :: value :: t) none
  | other {key value : Tok} {t u : List Tok}
    (hkey : ¬ (jsmnStreq js key interfaceName ∨ jsmnStreq js key urlName))
    (hvalue : drain 1 (value :: t) = .ok u) :
    EndpointMemberAt js (key, value) (key :: value :: t) (some u)

/-- The members say that the endpoint is public. -/
def saysPublic (js : List Byte) (ms : List (Tok × Tok)) : Bool :=
  ms.any fun m => jsmnStreq js m.1 interfaceName && jsmnStreq js m.2 publicValue

/-- The last url among the members. -/
def urlToken (js : List Byte) (ms : List (Tok × Tok)) : Option Tok :=
  ((ms.filter fun m => jsmnStreq js m.1 urlName).map Prod.snd).getLast?

/-- The length of the url, as the walk computes it. -/
def urlSize (js : List Byte) (ms : List (Tok × Tok)) : ℕ := (urlToken js ms).elim 0 urlLength

/-- The url as it is put into the buffer. -/
def urlText (js : List Byte) (ms : List (Tok × Tok)) : List Byte :=
  cString ((urlToken js ms).elim [] (urlBytes js))

/-- An endpoint, by its members. The url fits into the buffer if the endpoint is public. -/
inductive EndpointAt (js : List Byte) : List (Tok × Tok) → List Tok → Cursor → Prop where
  | wrong {tok : Tok} {t : List Tok} (htype : tok.type ≠ .object) : EndpointAt js [] (tok :: t) none
  | object {tok : Tok} {t : List Tok} {ms : List (Tok × Tok)} {c : Cursor}
    (htype : tok.type = .object) (h : Row (EndpointMemberAt js) tok.size ms t c)
    (hurl : c ≠ none → saysPublic js ms → urlSize js ms < buflen) : EndpointAt js ms (tok :: t) c

/-- What a member of an endpoint does to the state. -/
def endpointNote (js : List Byte) (e : Endpoint) (m : Tok × Tok) : Endpoint :=
  if jsmnStreq js m.1 interfaceName then
    { e with foundInterface := e.foundInterface || jsmnStreq js m.2 publicValue }
  else if jsmnStreq js m.1 urlName then
    { e with urltmp := urlBytes js m.2, urllen := urlLength m.2 }
  else e

section Endpoints

variable {js : List Byte} {t : List Tok} {e e' : Endpoint} {c : Cursor} {ms : List (Tok × Tok)}
  {m : Tok × Tok} {key : Tok}

/-- A token is not two strings of different lengths. -/
theorem jsmnStreq_length {w w' : List Byte} (h : jsmnStreq js key w = true)
    (hlen : w.length ≠ w'.length) : jsmnStreq js key w' = false := by
  unfold jsmnStreq at h ⊢
  obtain ⟨_, hw, _⟩ := of_decide_eq_true h
  apply decide_eq_false
  rintro ⟨_, hw', _⟩
  apply hlen
  exact_mod_cast hw.trans hw'.symm

/-- A value that is skipped is as many tokens as the sizes say, and the state is as it was. -/
theorem skip_reads {α : Type} {a b : α}
    (h : (jsmnSkip t >>= fun t => .ok (a, some t)) = .ok (b, c)) :
    b = a ∧ ∃ value rest u, t = value :: rest ∧ drain 1 (value :: rest) = .ok u ∧ c = some u := by
  obtain ⟨u, hskip, h⟩ := bind_ok h
  rw [jsmnSkip_eq] at hskip
  cases h
  cases t with
  | nil => cases hskip
  | cons value rest => exact ⟨rfl, value, rest, u, rfl, hskip, rfl⟩

/-- A token can be read only where there is one. -/
theorem deref_ok {tok : Tok} (h : deref t = .ok tok) : ∃ rest, t = tok :: rest := by
  cases t with
  | nil => cases h
  | cons tok' rest => exact ⟨rest, by rw [Except.ok.inj h]⟩

theorem endpointNote_interface (h : jsmnStreq js m.1 interfaceName = true) (e : Endpoint) :
    endpointNote js e m =
      { e with foundInterface := e.foundInterface || jsmnStreq js m.2 publicValue } := if_pos h

/-- The url of an endpoint is noted, with its length. -/
theorem endpointNote_url (h : jsmnStreq js m.1 urlName = true) (e : Endpoint) :
    endpointNote js e m = { e with urltmp := urlBytes js m.2, urllen := urlLength m.2 } := by
  rw [endpointNote, jsmnStreq_length h (by decide), if_neg Bool.false_ne_true, if_pos h]

/-- A member of another name leaves the state as it is. -/
theorem endpointNote_other
    (h : ¬ (jsmnStreq js m.1 interfaceName = true ∨ jsmnStreq js m.1 urlName = true))
    (e : Endpoint) : endpointNote js e m = e := by
  obtain ⟨hinterface, hurl⟩ := not_or.mp h
  rw [endpointNote, if_neg hinterface, if_neg hurl]

/-- Where `endpointKey` ends without a fault there is a member of an endpoint, and the state notes
it. -/
theorem endpointKey_read (h : endpointKey js e t = .ok (e', c)) :
    ∃ m, EndpointMemberAt js m t c ∧ (c ≠ none → e' = endpointNote js e m) := by
  unfold endpointKey at h
  obtain ⟨key, hkey, h⟩ := bind_ok h
  obtain ⟨t, rfl⟩ := deref_ok hkey
  rw [List.tail_cons] at h
  split at h
  · next hinterface =>
    obtain ⟨value, hvalue, h⟩ := bind_ok h
    obtain ⟨t, rfl⟩ := deref_ok hvalue
    refine ⟨(key, value), ?_⟩
    rw [endpointNote_interface hinterface]
    split at h
    · next htype =>
      cases h
      exact ⟨.wrong (.inl hinterface) htype, fun hne => absurd rfl hne⟩
    · next htype =>
      have hat : EndpointMemberAt js (key, value) (key :: value :: t) (some t) :=
        .text (.inl hinterface) (not_not.mp htype)
      split at h
      · next hpublic =>
        cases h
        refine ⟨hat, fun _ => ?_⟩
        rw [hpublic, Bool.or_true]
      · next hpublic =>
        cases h
        refine ⟨hat, fun _ => ?_⟩
        rw [eq_false_of_ne_true hpublic, Bool.or_false]
  · next hinterface =>
    split at h
    · next hurl =>
      obtain ⟨value, hvalue, h⟩ := bind_ok h
      obtain ⟨t, rfl⟩ := deref_ok hvalue
      refine ⟨(key, value), ?_⟩
      rw [endpointNote_url hurl]
      split at h
      · next htype =>
        cases h
        exact ⟨.wrong (.inr hurl) htype, fun hne => absurd rfl hne⟩
      · next htype =>
        cases h
        exact ⟨.text (.inr hurl) (not_not.mp htype), fun _ => rfl⟩
    · next hurl =>
      have hother := not_or.mpr ⟨hinterface, hurl⟩
      obtain ⟨rfl, value, rest, u, rfl, hvalue, rfl⟩ := skip_reads h
      exact ⟨(key, value), .other hother hvalue, fun _ => (endpointNote_other hother e').symm⟩

/-- At a member of an endpoint `endpointKey` ends without a fault, and the state notes it. -/
theorem endpointKey_run (h : EndpointMemberAt js m t c) (e : Endpoint) :
    ∃ e', endpointKey js e t = .ok (e', c) ∧ (c ≠ none → e' = endpointNote js e m) := by
  cases h with
  | @text key value t hkey htype =>
    simp only [endpointKey, deref_cons, ok_bind, List.tail_cons]
    obtain hinterface | hurl := hkey
    · rw [endpointNote_interface hinterface, if_pos hinterface, if_neg (not_not_intro htype)]
      cases jsmnStreq js value publicValue with
      | true => exact ⟨_, rfl, fun _ => by rw [Bool.or_true]⟩
      | false => exact ⟨_, rfl, fun _ => by rw [Bool.or_false]⟩
    · rw [endpointNote_url hurl, jsmnStreq_length hurl (by decide), if_neg Bool.false_ne_true,
        if_pos hurl, if_neg (not_not_intro htype)]
      exact ⟨_, rfl, fun _ => rfl⟩
  | @wrong key value t hkey htype =>
    simp only [endpointKey, deref_cons, ok_bind, List.tail_cons]
    refine ⟨e, ?_, fun hne => absurd rfl hne⟩
    obtain hinterface | hurl := hkey
    · rw [if_pos hinterface, if_pos htype]
    · rw [jsmnStreq_length hurl (by decide), if_neg Bool.false_ne_true, if_pos hurl, if_pos htype]
  | @other key value t u hkey hvalue =>
    obtain ⟨hinterface, hurl⟩ := not_or.mp hkey
    simp only [endpointKey, deref_cons, ok_bind, List.tail_cons]
    rw [if_neg hinterface, if_neg hurl, jsmnSkip_eq, hvalue]
    exact ⟨e, rfl, fun _ => (endpointNote_other hkey e).symm⟩

/-- A turn of the loop over an endpoint reads one member. -/
theorem endpointKey_reads (js : List Byte) :
    Reads (endpointKey js) (EndpointMemberAt js) (endpointNote js) :=
  ⟨endpointKey_read, fun h e => endpointKey_run h e⟩

/-- After its members it is known whether an endpoint is public. -/
theorem foldl_note_foundInterface (js : List Byte) (ms : List (Tok × Tok)) (e : Endpoint) :
    (ms.foldl (endpointNote js) e).foundInterface = (e.foundInterface || saysPublic js ms) := by
  rw [saysPublic, ← foldl_or]
  apply (List.foldl_hom Endpoint.foundInterface _).symm
  intro e m
  unfold endpointNote
  split_ifs with hinterface hurl
  · rw [hinterface, Bool.true_and]
  · rw [eq_false_of_ne_true hinterface, Bool.false_and, Bool.or_false]
  · rw [eq_false_of_ne_true hinterface, Bool.false_and, Bool.or_false]

/-- The part of the state that only urls change. -/
theorem foldl_note_url {β : Type} {f : Endpoint → β} {g : Tok → β}
    (hurl : ∀ e m, jsmnStreq js m.1 urlName = true → f (endpointNote js e m) = g m.2)
    (hother : ∀ e m, jsmnStreq js m.1 urlName = false → f (endpointNote js e m) = f e)
    (ms : List (Tok × Tok)) (e : Endpoint) :
    f (ms.foldl (endpointNote js) e) = (urlToken js ms).elim (f e) g := by
  have hlast := foldl_last (fun m : Tok × Tok => jsmnStreq js m.1 urlName) (g ∘ Prod.snd) ms (f e)
  have hmap : (urlToken js ms).elim (f e) g =
      ((ms.filter fun m => jsmnStreq js m.1 urlName).map (g ∘ Prod.snd)).getLast?.getD (f e) := by
    unfold urlToken
    rw [← List.map_map]
    generalize (ms.filter fun m => jsmnStreq js m.1 urlName).map Prod.snd = urls
    rw [List.getLast?_map]
    cases urls.getLast? <;> rfl
  rw [hmap, ← hlast]
  apply (List.foldl_hom f _).symm
  intro e m
  cases hm : jsmnStreq js m.1 urlName with
  | true => exact (hurl e m hm).symm
  | false => exact (hother e m hm).symm

/-- Only a member with a url changes the url and its length. -/
theorem endpointNote_of_not_url (h : jsmnStreq js m.1 urlName = false) (e : Endpoint) :
    (endpointNote js e m).urltmp = e.urltmp ∧ (endpointNote js e m).urllen = e.urllen := by
  unfold endpointNote
  split_ifs with hinterface hurl
  · exact ⟨rfl, rfl⟩
  · rw [hurl] at h
    cases h
  · exact ⟨rfl, rfl⟩

/-- After the members of an endpoint the url is the last one among them. -/
theorem foldl_note_urltmp (js : List Byte) (ms : List (Tok × Tok)) (e : Endpoint) :
    (ms.foldl (endpointNote js) e).urltmp = (urlToken js ms).elim e.urltmp (urlBytes js) :=
  foldl_note_url (fun e m h => by rw [endpointNote_url h])
    (fun e m h => (endpointNote_of_not_url h e).1) ms e

/-- After the members of an endpoint the length is that of the last url. -/
theorem foldl_note_urllen (js : List Byte) (ms : List (Tok × Tok)) (e : Endpoint) :
    (ms.foldl (endpointNote js) e).urllen = (urlToken js ms).elim e.urllen urlLength :=
  foldl_note_url (fun e m h => by rw [endpointNote_url h])
    (fun e m h => (endpointNote_of_not_url h e).2) ms e

/-- The end of an endpoint whose members have been read. -/
theorem copyUrl_read (js urlbuf : List Byte) (ms : List (Tok × Tok)) :
    copyUrl buflen urlbuf (ms.foldl (endpointNote js) ⟨false, [], 0⟩) =
      if saysPublic js ms then
        if urlSize js ms < buflen then .ok (urlText js ms) else .error .assertion
      else .ok urlbuf := by
  unfold copyUrl
  rw [foldl_note_foundInterface, foldl_note_urllen, foldl_note_urltmp, Bool.false_or]
  rfl

/-- What an endpoint does to the buffer. -/
def urlbufNote (js urlbuf : List Byte) (ms : List (Tok × Tok)) : List Byte :=
  if saysPublic js ms then urlText js ms else urlbuf

/-- Where `process_endpoint_entry` ends without a fault there is an endpoint, and the buffer has its
url if it is public. -/
theorem processEndpointEntry_read {urlbuf urlbuf' : List Byte}
    (h : processEndpointEntry buflen js urlbuf t = .ok (urlbuf', c)) :
    ∃ ms, EndpointAt js ms t c ∧ (c ≠ none → urlbuf' = urlbufNote js urlbuf ms) := by
  unfold processEndpointEntry at h
  obtain ⟨tok, htok, h⟩ := bind_ok h
  obtain ⟨t, rfl⟩ := deref_ok htok
  split at h
  · next htype =>
    cases h
    exact ⟨[], .wrong htype, fun hne => absurd rfl hne⟩
  · next htype =>
    obtain ⟨⟨e, cursor⟩, heach, h⟩ := bind_ok h
    obtain ⟨ms, hrow, hfold⟩ := (endpointKey_reads js).read_each heach
    refine ⟨ms, ?_⟩
    cases cursor with
    | none =>
      cases h
      exact ⟨.object (not_not.mp htype) hrow (fun hne => absurd rfl hne), fun hne => absurd rfl hne⟩
    | some u =>
      obtain ⟨url, hcopy, h⟩ := bind_ok h
      cases h
      rw [hfold (Option.some_ne_none u), copyUrl_read] at hcopy
      unfold urlbufNote
      cases hpublic : saysPublic js ms with
      | false =>
        rw [hpublic] at hcopy
        cases hcopy
        refine ⟨.object (not_not.mp htype) hrow ?_, fun _ => rfl⟩
        intro _ hne
        rw [hpublic] at hne
        cases hne
      | true =>
        rw [hpublic, if_pos rfl] at hcopy
        split at hcopy
        · next hsize =>
          cases hcopy
          exact ⟨.object (not_not.mp htype) hrow (fun _ _ => hsize), fun _ => rfl⟩
        · cases hcopy

/-- At an endpoint `process_endpoint_entry` ends without a fault: the url fits into the buffer. -/
theorem processEndpointEntry_run (h : EndpointAt js ms t c) (urlbuf : List Byte) :
    ∃ urlbuf', processEndpointEntry buflen js urlbuf t = .ok (urlbuf', c) ∧
      (c ≠ none → urlbuf' = urlbufNote js urlbuf ms) := by
  cases h with
  | wrong htype =>
    simp only [processEndpointEntry, deref_cons, ok_bind]
    rw [if_pos htype]
    exact ⟨urlbuf, rfl, fun hne => absurd rfl hne⟩
  | object htype hrow hurl =>
    simp only [processEndpointEntry, deref_cons, ok_bind, List.tail_cons]
    rw [if_neg (not_not_intro htype)]
    obtain ⟨e, heach, hfold⟩ := (endpointKey_reads js).run_each hrow ⟨false, [], 0⟩
    rw [heach, ok_bind]
    cases c with
    | none => exact ⟨urlbuf, rfl, fun hne => absurd rfl hne⟩
    | some u =>
      have hcopy : copyUrl buflen urlbuf e = .ok (urlbufNote js urlbuf ms) := by
        rw [hfold (Option.some_ne_none u), copyUrl_read, urlbufNote]
        split
        · next hpublic => rw [if_pos (hurl (Option.some_ne_none u) hpublic)]
        · rfl
      simp only [hcopy, ok_bind]
      exact ⟨_, rfl, fun _ => rfl⟩

/-- A turn of the loop over the endpoints reads one endpoint. -/
theorem processEndpointEntry_reads (js : List Byte) :
    Reads (processEndpointEntry buflen js) (EndpointAt js) (urlbufNote js) :=
  ⟨processEndpointEntry_read, fun h urlbuf => processEndpointEntry_run h urlbuf⟩

end Endpoints

/-! ## Entries of the catalog -/

/-- A member of an entry that has been read: its key, the token behind it, and the endpoints. -/
abbrev EntryMember := Tok × Tok × List (List (Tok × Tok))

/-- A member of an entry, by its key, the token behind it and the endpoints in it. -/
inductive EntryMemberAt (js : List Byte) : EntryMember → List Tok → Cursor → Prop where
  | type {key value : Tok} {t : List Tok} (hkey : jsmnStreq js key typeName)
    (htype : value.type = .string) :
    EntryMemberAt js (key, value, []) (key :: value :: t) (some t)
  | wrongType {key value : Tok} {t : List Tok} (hkey : jsmnStreq js key typeName)
    (htype : value.type ≠ .string) : EntryMemberAt js (key, value, []) (key :: value :: t) none
  | endpoints {key value : Tok} {es : List (List (Tok × Tok))} {t : List Tok} {c : Cursor}
    (hkey : jsmnStreq js key endpointsName) (htype : value.type = .array)
    (h : Row (EndpointAt js) value.size es t c) :
    EntryMemberAt js (key, value, es) (key :: value :: t) c
  | wrongEndpoints {key value : Tok} {t : List Tok} (hkey : jsmnStreq js key endpointsName)
    (htype : value.type ≠ .array) : EntryMemberAt js (key, value, []) (key :: value :: t) none
  | other {key value : Tok} {t u : List Tok}
    (hkey : ¬ (jsmnStreq js key typeName ∨ jsmnStreq js key endpointsName))
    (hvalue : drain 1 (value :: t) = .ok u) :
    EntryMemberAt js (key, value, []) (key :: value :: t) (some u)

/-- The members say that the entry is for an object store. -/
def saysStore (js : List Byte) (ms : List EntryMember) : Bool :=
  ms.any fun m => jsmnStreq js m.1 typeName && jsmnStreq js m.2.1 objectStoreValue

/-- The endpoints of an entry. -/
def endpointsRead (js : List Byte) (ms : List EntryMember) : List (List (Tok × Tok)) :=
  (ms.filter fun m => jsmnStreq js m.1 endpointsName).flatMap fun m => m.2.2

/-- The url of the last public endpoint. -/
def storeText (js : List Byte) (ms : List EntryMember) : List Byte :=
  (((endpointsRead js ms).filter (saysPublic js)).map (urlText js)).getLast?.getD []

/-- An entry, by its members. The walk gives up at an object store without a url. -/
inductive EntryAt (js : List Byte) : List EntryMember → List Tok → Cursor → Prop where
  | wrong {tok : Tok} {t : List Tok} (htype : tok.type ≠ .object) : EntryAt js [] (tok :: t) none
  | cut {tok : Tok} {t : List Tok} {ms : List EntryMember} (htype : tok.type = .object)
    (h : Row (EntryMemberAt js) tok.size ms t none) : EntryAt js ms (tok :: t) none
  | noUrl {tok : Tok} {t u : List Tok} {ms : List EntryMember} (htype : tok.type = .object)
    (h : Row (EntryMemberAt js) tok.size ms t (some u)) (hstore : saysStore js ms)
    (hurl : storeText js ms = []) : EntryAt js ms (tok :: t) none
  | object {tok : Tok} {t u : List Tok} {ms : List EntryMember} (htype : tok.type = .object)
    (h : Row (EntryMemberAt js) tok.size ms t (some u))
    (hurl : saysStore js ms → storeText js ms ≠ []) : EntryAt js ms (tok :: t) (some u)

/-- What a member of an entry does to the state. -/
def entryNote (js : List Byte) (c : Entry) (m : EntryMember) : Entry :=
  if jsmnStreq js m.1 typeName then
    { c with foundService := c.foundService || jsmnStreq js m.2.1 objectStoreValue }
  else if jsmnStreq js m.1 endpointsName then
    { c with urlbuf := m.2.2.foldl (urlbufNote js) c.urlbuf }
  else c

/-- What an entry does to the storage url. -/
def storageNote (js : List Byte) (storageUrl : Option (List Byte)) (ms : List EntryMember) :
    Option (List Byte) :=
  if saysStore js ms then storageUrl.or (some (storeText js ms)) else storageUrl

section Entries

variable {js : List Byte} {t : List Tok} {d d' : Entry} {c : Cursor} {ms : List EntryMember}
  {m : EntryMember}

theorem entryNote_type (h : jsmnStreq js m.1 typeName = true) (d : Entry) :
    entryNote js d m =
      { d with foundService := d.foundService || jsmnStreq js m.2.1 objectStoreValue } := if_pos h

/-- The endpoints of an entry put their urls into the buffer, one after the other. -/
theorem entryNote_endpoints (h : jsmnStreq js m.1 endpointsName = true) (d : Entry) :
    entryNote js d m = { d with urlbuf := m.2.2.foldl (urlbufNote js) d.urlbuf } := by
  rw [entryNote, jsmnStreq_length h (by decide), if_neg Bool.false_ne_true, if_pos h]

/-- A member of another name leaves the state of an entry as it is. -/
theorem entryNote_other
    (h : ¬ (jsmnStreq js m.1 typeName = true ∨ jsmnStreq js m.1 endpointsName = true))
    (d : Entry) : entryNote js d m = d := by
  obtain ⟨htypeName, hendpoints⟩ := not_or.mp h
  rw [entryNote, if_neg htypeName, if_neg hendpoints]

/-- Where `catalogKey` ends without a fault there is a member of an entry, and the state notes
it. -/
theorem catalogKey_read (h : catalogKey js d t = .ok (d', c)) :
    ∃ m, EntryMemberAt js m t c ∧ (c ≠ none → d' = entryNote js d m) := by
  unfold catalogKey at h
  obtain ⟨key, hkey, h⟩ := bind_ok h
  obtain ⟨t, rfl⟩ := deref_ok hkey
  rw [List.tail_cons] at h
  split at h
  · next htypeName =>
    obtain ⟨value, hvalue, h⟩ := bind_ok h
    obtain ⟨t, rfl⟩ := deref_ok hvalue
    refine ⟨(key, value, []), ?_⟩
    rw [entryNote_type htypeName]
    split at h
    · next htype =>
      cases h
      exact ⟨.wrongType htypeName htype, fun hne => absurd rfl hne⟩
    · next htype =>
      have hat : EntryMemberAt js (key, value, []) (key :: value :: t) (some t) :=
        .type htypeName (not_not.mp htype)
      split at h
      · next hstore =>
        cases h
        refine ⟨hat, fun _ => ?_⟩
        rw [hstore, Bool.or_true]
      · next hstore =>
        cases h
        refine ⟨hat, fun _ => ?_⟩
        rw [eq_false_of_ne_true hstore, Bool.or_false]
  · next htypeName =>
    split at h
    · next hendpoints =>
      obtain ⟨value, hvalue, h⟩ := bind_ok h
      obtain ⟨t, rfl⟩ := deref_ok hvalue
      split at h
      · next htype =>
        cases h
        exact ⟨(key, value, []), .wrongEndpoints hendpoints htype, fun hne => absurd rfl hne⟩
      · next htype =>
        obtain ⟨⟨urlbuf, cursor⟩, heach, h⟩ := bind_ok h
        cases h
        obtain ⟨es, hrow, hfold⟩ := (processEndpointEntry_reads js).read_each heach
        refine ⟨(key, value, es), .endpoints hendpoints (not_not.mp htype) hrow, ?_⟩
        intro hne
        rw [entryNote_endpoints hendpoints, hfold hne]
    · next hendpoints =>
      have hother := not_or.mpr ⟨htypeName, hendpoints⟩
      obtain ⟨rfl, value, rest, u, rfl, hvalue, rfl⟩ := skip_reads h
      exact ⟨(key, value, []), .other hother hvalue, fun _ => (entryNote_other hother d').symm⟩

/-- At a member of an entry `catalogKey` ends without a fault, and the state notes it. -/
theorem catalogKey_run (h : EntryMemberAt js m t c) (d : Entry) :
    ∃ d', catalogKey js d t = .ok (d', c) ∧ (c ≠ none → d' = entryNote js d m) := by
  cases h with
  | @type key value t htypeName htype =>
    simp only [catalogKey, deref_cons, ok_bind, List.tail_cons]
    rw [entryNote_type htypeName, if_pos htypeName, if_neg (not_not_intro htype)]
    cases jsmnStreq js value objectStoreValue with
    | true => exact ⟨_, rfl, fun _ => by rw [Bool.or_true]⟩
    | false => exact ⟨_, rfl, fun _ => by rw [Bool.or_false]⟩
  | @wrongType key value t htypeName htype =>
    simp only [catalogKey, deref_cons, ok_bind, List.tail_cons]
    rw [if_pos htypeName, if_pos htype]
    exact ⟨d, rfl, fun hne => absurd rfl hne⟩
  | @endpoints key value es t c hendpoints htype hrow =>
    simp only [catalogKey, deref_cons, ok_bind, List.tail_cons]
    obtain ⟨urlbuf, heach, hfold⟩ := (processEndpointEntry_reads js).run_each hrow d.urlbuf
    rw [entryNote_endpoints hendpoints, jsmnStreq_length hendpoints (by decide),
      if_neg Bool.false_ne_true, if_pos hendpoints, if_neg (not_not_intro htype), heach]
    refine ⟨_, rfl, ?_⟩
    intro hne
    rw [hfold hne]
  | @wrongEndpoints key value t hendpoints htype =>
    simp only [catalogKey, deref_cons, ok_bind, List.tail_cons]
    rw [jsmnStreq_length hendpoints (by decide), if_neg Bool.false_ne_true, if_pos hendpoints,
      if_pos htype]
    exact ⟨d, rfl, fun hne => absurd rfl hne⟩
  | @other key value t u hkey hvalue =>
    obtain ⟨htypeName, hendpoints⟩ := not_or.mp hkey
    simp only [catalogKey, deref_cons, ok_bind, List.tail_cons]
    rw [if_neg htypeName, if_neg hendpoints, jsmnSkip_eq, hvalue]
    exact ⟨d, rfl, fun _ => (entryNote_other hkey d).symm⟩

/-- A turn of the loop over an entry reads one member. -/
theorem catalogKey_reads (js : List Byte) :
    Reads (catalogKey js) (EntryMemberAt js) (entryNote js) :=
  ⟨catalogKey_read, fun h d => catalogKey_run h d⟩

/-- After its members it is known whether an entry is for an object store. -/
theorem foldl_note_foundService (js : List Byte) (ms : List EntryMember) (d : Entry) :
    (ms.foldl (entryNote js) d).foundService = (d.foundService || saysStore js ms) := by
  rw [saysStore, ← foldl_or]
  apply (List.foldl_hom Entry.foundService _).symm
  intro d m
  unfold entryNote
  split_ifs with htypeName hendpoints
  · rw [htypeName, Bool.true_and]
  · rw [eq_false_of_ne_true htypeName, Bool.false_and, Bool.or_false]
  · rw [eq_false_of_ne_true htypeName, Bool.false_and, Bool.or_false]

/-- After the members of an entry the buffer has the url of its last public endpoint. -/
theorem foldl_note_urlbuf (js : List Byte) (ms : List EntryMember) (d : Entry) :
    (ms.foldl (entryNote js) d).urlbuf =
      (((endpointsRead js ms).filter (saysPublic js)).map (urlText js)).getLast?.getD d.urlbuf := by
  rw [← foldl_last, endpointsRead, List.foldl_flatMap, List.foldl_filter]
  apply (List.foldl_hom Entry.urlbuf _).symm
  intro d m
  cases hm : jsmnStreq js m.1 endpointsName with
  | true =>
    rw [entryNote_endpoints hm]
    rfl
  | false =>
    unfold entryNote
    rw [hm]
    simp only [Bool.false_eq_true, if_false]
    split <;> rfl

/-- The end of an entry whose members have been read. -/
theorem storeUrl_read (js : List Byte) (storageUrl : Option (List Byte)) (ms : List EntryMember)
    (t : List Tok) :
    storeUrl storageUrl (ms.foldl (entryNote js) ⟨false, []⟩) t =
      if saysStore js ms then
        if storeText js ms = [] then (storageUrl, none)
        else (storageUrl.or (some (storeText js ms)), some t)
      else (storageUrl, some t) := by
  unfold storeUrl
  rw [foldl_note_foundService, foldl_note_urlbuf, Bool.false_or]
  rfl

/-- Where `process_catalog_entry` ends without a fault there is an entry, and the storage url is set
if it is the first for an object store. -/
theorem processCatalogEntry_read {storageUrl stored : Option (List Byte)}
    (h : processCatalogEntry js storageUrl t = .ok (stored, c)) :
    ∃ ms, EntryAt js ms t c ∧ (c ≠ none → stored = storageNote js storageUrl ms) := by
  unfold processCatalogEntry at h
  obtain ⟨tok, htok, h⟩ := bind_ok h
  obtain ⟨t, rfl⟩ := deref_ok htok
  split at h
  · next htype =>
    cases h
    exact ⟨[], .wrong htype, fun hne => absurd rfl hne⟩
  · next htype =>
    obtain ⟨⟨d, cursor⟩, heach, h⟩ := bind_ok h
    obtain ⟨ms, hrow, hfold⟩ := (catalogKey_reads js).read_each heach
    refine ⟨ms, ?_⟩
    cases cursor with
    | none =>
      cases h
      exact ⟨.cut (not_not.mp htype) hrow, fun hne => absurd rfl hne⟩
    | some u =>
      have hstored : storeUrl storageUrl d u = (stored, c) := Except.ok.inj h
      rw [hfold (Option.some_ne_none u), storeUrl_read] at hstored
      unfold storageNote
      split at hstored
      · next hstore =>
        split at hstored
        · next hurl =>
          cases hstored
          exact ⟨.noUrl (not_not.mp htype) hrow hstore hurl, fun hne => absurd rfl hne⟩
        · next hurl =>
          cases hstored
          refine ⟨.object (not_not.mp htype) hrow fun _ => hurl, fun _ => ?_⟩
          rw [if_pos hstore]
      · next hstore =>
        cases hstored
        refine ⟨.object (not_not.mp htype) hrow fun h => absurd h hstore, fun _ => ?_⟩
        rw [if_neg hstore]

/-- At an entry `process_catalog_entry` ends without a fault. -/
theorem processCatalogEntry_run (h : EntryAt js ms t c) (storageUrl : Option (List Byte)) :
    ∃ stored, processCatalogEntry js storageUrl t = .ok (stored, c) ∧
      (c ≠ none → stored = storageNote js storageUrl ms) := by
  cases h with
  | wrong htype =>
    simp only [processCatalogEntry, deref_cons, ok_bind]
    rw [if_pos htype]
    exact ⟨storageUrl, rfl, fun hne => absurd rfl hne⟩
  | cut htype hrow =>
    obtain ⟨d, heach, _⟩ := (catalogKey_reads js).run_each hrow ⟨false, []⟩
    simp only [processCatalogEntry, deref_cons, ok_bind, List.tail_cons]
    rw [if_neg (not_not_intro htype), heach]
    exact ⟨storageUrl, rfl, fun hne => absurd rfl hne⟩
  | @noUrl tok t u ms htype hrow hstore hurl =>
    obtain ⟨d, heach, hfold⟩ := (catalogKey_reads js).run_each hrow ⟨false, []⟩
    simp only [processCatalogEntry, deref_cons, ok_bind, List.tail_cons]
    rw [if_neg (not_not_intro htype), heach, ok_bind, hfold (Option.some_ne_none u)]
    simp only
    rw [storeUrl_read, if_pos hstore, if_pos hurl]
    exact ⟨storageUrl, rfl, fun hne => absurd rfl hne⟩
  | @object tok t u ms htype hrow hurl =>
    obtain ⟨d, heach, hfold⟩ := (catalogKey_reads js).run_each hrow ⟨false, []⟩
    simp only [processCatalogEntry, deref_cons, ok_bind, List.tail_cons]
    rw [if_neg (not_not_intro htype), heach, ok_bind, hfold (Option.some_ne_none u)]
    simp only
    rw [storeUrl_read, storageNote]
    cases hstore : saysStore js ms with
    | true =>
      rw [if_pos rfl, if_neg (hurl hstore), if_pos rfl]
      exact ⟨_, rfl, fun _ => rfl⟩
    | false => exact ⟨_, rfl, fun _ => rfl⟩

/-- A turn of the loop over the catalog reads one entry. -/
theorem processCatalogEntry_reads (js : List Byte) :
    Reads (processCatalogEntry js) (EntryAt js) (storageNote js) :=
  ⟨processCatalogEntry_read, fun h storageUrl => processCatalogEntry_run h storageUrl⟩

end Entries

/-! ## The token and the root -/

/-- A member of a token, by the entries of the catalog in it. -/
inductive TokenMemberAt (js : List Byte) : List (List EntryMember) → List Tok → Cursor → Prop where
  | catalog {key value : Tok} {es : List (List EntryMember)} {t : List Tok} {c : Cursor}
    (hkey : jsmnStreq js key catalogName) (htype : value.type = .array)
    (h : Row (EntryAt js) value.size es t c) : TokenMemberAt js es (key :: value :: t) c
  | wrong {key value : Tok} {t : List Tok} (hkey : jsmnStreq js key catalogName)
    (htype : value.type ≠ .array) : TokenMemberAt js [] (key :: value :: t) none
  | other {key value : Tok} {t u : List Tok} (hkey : ¬ jsmnStreq js key catalogName)
    (hvalue : drain 1 (value :: t) = .ok u) : TokenMemberAt js [] (key :: value :: t) (some u)

/-- A member of the root, by the entries in it. -/
inductive RootMemberAt (js : List Byte) : List (List EntryMember) → List Tok → Cursor → Prop where
  | notString {key : Tok} {t : List Tok} (htype : key.type ≠ .string) :
    RootMemberAt js [] (key :: t) none
  | token {key value : Tok} {es : List (List (List EntryMember))} {t : List Tok} {c : Cursor}
    (hkey : jsmnStreq js key tokenName) (htype : value.type = .object)
    (h : Row (TokenMemberAt js) value.size es t c) :
    RootMemberAt js es.flatten (key :: value :: t) c
  | wrong {key value : Tok} {t : List Tok} (hkey : jsmnStreq js key tokenName)
    (htype : value.type ≠ .object) : RootMemberAt js [] (key :: value :: t) none
  | other {key value : Tok} {t u : List Tok} (hstring : key.type = .string)
    (hkey : ¬ jsmnStreq js key tokenName) (hvalue : drain 1 (value :: t) = .ok u) :
    RootMemberAt js [] (key :: value :: t) (some u)

/-- The tokens can be read, up to the first value of a wrong type. -/
inductive Supplied (js : List Byte) : List Tok → Prop where
  | empty : Supplied js []
  | wrong {tok : Tok} {t : List Tok} (htype : tok.type ≠ .object) : Supplied js (tok :: t)
  | object {tok : Tok} {t : List Tok} {es : List (List (List EntryMember))} {c : Cursor}
    (htype : tok.type = .object) (h : Row (RootMemberAt js) tok.size es t c) :
    Supplied js (tok :: t)

/-- What entries do to the storage url. -/
def storageNotes (js : List Byte) (storageUrl : Option (List Byte))
    (es : List (List EntryMember)) : Option (List Byte) := es.foldl (storageNote js) storageUrl

section Root

variable {js : List Byte} {t root : List Tok} {c : Cursor} {es : List (List EntryMember)}
  {storageUrl stored : Option (List Byte)}

/-- Only a string is equal to a word. -/
theorem jsmnStreq_type {tok : Tok} {w : List Byte} (h : jsmnStreq js tok w = true) :
    tok.type = .string := by
  unfold jsmnStreq at h
  exact (of_decide_eq_true h).1

/-- Where `tokenKey` ends without a fault there is a member of a token, and the entries in it have
set the storage url. -/
theorem tokenKey_read (h : tokenKey js storageUrl t = .ok (stored, c)) :
    ∃ es, TokenMemberAt js es t c ∧ (c ≠ none → stored = storageNotes js storageUrl es) := by
  unfold tokenKey at h
  obtain ⟨key, hkey, h⟩ := bind_ok h
  obtain ⟨t, rfl⟩ := deref_ok hkey
  rw [List.tail_cons] at h
  split at h
  · next hcatalog =>
    obtain ⟨value, hvalue, h⟩ := bind_ok h
    obtain ⟨t, rfl⟩ := deref_ok hvalue
    split at h
    · next htype =>
      cases h
      exact ⟨[], .wrong hcatalog htype, fun hne => absurd rfl hne⟩
    · next htype =>
      obtain ⟨es, hrow, hfold⟩ := (processCatalogEntry_reads js).read_each h
      exact ⟨es, .catalog hcatalog (not_not.mp htype) hrow, hfold⟩
  · next hcatalog =>
    obtain ⟨rfl, value, rest, u, rfl, hvalue, rfl⟩ := skip_reads h
    exact ⟨[], .other hcatalog hvalue, fun _ => rfl⟩

/-- At a member of a token `tokenKey` ends without a fault. -/
theorem tokenKey_run (h : TokenMemberAt js es t c) (storageUrl : Option (List Byte)) :
    ∃ stored, tokenKey js storageUrl t = .ok (stored, c) ∧
      (c ≠ none → stored = storageNotes js storageUrl es) := by
  cases h with
  | catalog hcatalog htype hrow =>
    simp only [tokenKey, deref_cons, ok_bind, List.tail_cons]
    rw [if_pos hcatalog, if_neg (not_not_intro htype)]
    exact (processCatalogEntry_reads js).run_each hrow storageUrl
  | wrong hcatalog htype =>
    simp only [tokenKey, deref_cons, ok_bind, List.tail_cons]
    rw [if_pos hcatalog, if_pos htype]
    exact ⟨storageUrl, rfl, fun hne => absurd rfl hne⟩
  | other hcatalog hvalue =>
    simp only [tokenKey, deref_cons, ok_bind, List.tail_cons]
    rw [if_neg hcatalog, jsmnSkip_eq, hvalue]
    exact ⟨storageUrl, rfl, fun _ => rfl⟩

/-- A turn of the loop over a token reads one member. -/
theorem tokenKey_reads (js : List Byte) :
    Reads (tokenKey js) (TokenMemberAt js) (storageNotes js) :=
  ⟨tokenKey_read, fun h storageUrl => tokenKey_run h storageUrl⟩

/-- Entries that come in several lists are entries that come in one. -/
theorem foldl_storageNotes (js : List Byte) (es : List (List (List EntryMember)))
    (storageUrl : Option (List Byte)) :
    es.foldl (storageNotes js) storageUrl = storageNotes js storageUrl es.flatten := by
  rw [storageNotes, List.foldl_flatten]
  rfl

/-- Where `rootKey` ends without a fault there is a member of the root, and the entries in it have
set the storage url. -/
theorem rootKey_read (h : rootKey js storageUrl t = .ok (stored, c)) :
    ∃ es, RootMemberAt js es t c ∧ (c ≠ none → stored = storageNotes js storageUrl es) := by
  unfold rootKey at h
  obtain ⟨key, hkey, h⟩ := bind_ok h
  obtain ⟨t, rfl⟩ := deref_ok hkey
  rw [List.tail_cons] at h
  split at h
  · next htype =>
    cases h
    exact ⟨[], .notString htype, fun hne => absurd rfl hne⟩
  · next hstring =>
    split at h
    · next htoken =>
      obtain ⟨value, hvalue, h⟩ := bind_ok h
      obtain ⟨t, rfl⟩ := deref_ok hvalue
      split at h
      · next htype =>
        cases h
        exact ⟨[], .wrong htoken htype, fun hne => absurd rfl hne⟩
      · next htype =>
        obtain ⟨es, hrow, hfold⟩ := (tokenKey_reads js).read_each h
        refine ⟨es.flatten, .token htoken (not_not.mp htype) hrow, ?_⟩
        intro hne
        rw [hfold hne, foldl_storageNotes]
    · next htoken =>
      obtain ⟨rfl, value, rest, u, rfl, hvalue, rfl⟩ := skip_reads h
      exact ⟨[], .other (not_not.mp hstring) htoken hvalue, fun _ => rfl⟩

/-- At a member of the root `rootKey` ends without a fault. -/
theorem rootKey_run (h : RootMemberAt js es t c) (storageUrl : Option (List Byte)) :
    ∃ stored, rootKey js storageUrl t = .ok (stored, c) ∧
      (c ≠ none → stored = storageNotes js storageUrl es) := by
  cases h with
  | notString htype =>
    simp only [rootKey, deref_cons, ok_bind]
    rw [if_pos htype]
    exact ⟨storageUrl, rfl, fun hne => absurd rfl hne⟩
  | token htoken htype hrow =>
    obtain ⟨stored, heach, hfold⟩ := (tokenKey_reads js).run_each hrow storageUrl
    simp only [rootKey, deref_cons, ok_bind, List.tail_cons]
    rw [if_neg (not_not_intro (jsmnStreq_type htoken)), if_pos htoken,
      if_neg (not_not_intro htype)]
    refine ⟨stored, heach, ?_⟩
    intro hne
    rw [hfold hne, foldl_storageNotes]
  | wrong htoken htype =>
    simp only [rootKey, deref_cons, ok_bind, List.tail_cons]
    rw [if_neg (not_not_intro (jsmnStreq_type htoken)), if_pos htoken, if_pos htype]
    exact ⟨storageUrl, rfl, fun hne => absurd rfl hne⟩
  | other hstring htoken hvalue =>
    simp only [rootKey, deref_cons, ok_bind, List.tail_cons]
    rw [if_neg (not_not_intro hstring), if_neg htoken, jsmnSkip_eq, hvalue]
    exact ⟨storageUrl, rfl, fun _ => rfl⟩

/-- A turn of the loop over the root reads one member. -/
theorem rootKey_reads (js : List Byte) :
    Reads (rootKey js) (RootMemberAt js) (storageNotes js) :=
  ⟨rootKey_read, fun h storageUrl => rootKey_run h storageUrl⟩

/-- The walk stays in the array, and no assertion fails, exactly if the tokens can be read. -/
theorem processJson_ok_iff (js : List Byte) (storageUrl : Option (List Byte)) (root : List Tok) :
    (∃ r, processJson js storageUrl root = .ok r) ↔ Supplied js root := by
  cases root with
  | nil => exact ⟨fun _ => .empty, fun _ => ⟨_, rfl⟩⟩
  | cons tok t =>
    by_cases htype : tok.type = .object
    · rw [processJson, if_neg (not_not_intro htype)]
      constructor
      · rintro ⟨r, hr⟩
        cases heach : each (rootKey js) tok.size storageUrl t with
        | error e =>
          rw [heach] at hr
          cases hr
        | ok x =>
          obtain ⟨es, hrow, _⟩ := (rootKey_reads js).read_each heach
          exact .object htype hrow
      · intro h
        cases h with
        | wrong hwrong => exact absurd htype hwrong
        | object _ hrow =>
          obtain ⟨stored, heach, _⟩ := (rootKey_reads js).run_each hrow storageUrl
          rw [heach]
          exact ⟨_, rfl⟩
    · rw [processJson, if_pos htype]
      exact ⟨fun _ => .wrong htype, fun _ => ⟨_, rfl⟩⟩

/-- The tokens of a JSON object whose urls are short can be read. -/
theorem supplied_of_laidOut {ms : Members} {rest : List Tok}
    (h : LaidOut js (.value (.object ms)) root rest) (hshort : ShortDocument ms) :
    Supplied js root := by
  obtain ⟨stored, hwalk, _⟩ := processJson_ended h hshort none
  exact (processJson_ok_iff js none root).mp ⟨_, hwalk⟩

end Root

end Wandio.Keystone
