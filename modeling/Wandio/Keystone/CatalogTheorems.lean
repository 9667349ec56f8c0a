import Wandio.Keystone.WalkTheorems

/-!
# The storage url of an answer

The walk goes forward through any tokens. Through those of a JSON value it agrees with reading the
storage url off the value.
-/

namespace Wandio.Keystone

open Jsmn

/-! ## Forward -/

/-- Whatever the tokens are, a turn that does not fail leaves the cursor further on. -/
def Forward {α : Type} (body : List Tok → Except Fault (α × Cursor)) : Prop :=
  ∀ t b u, body t = .ok (b, some u) → t ≠ [] ∧ u <:+ t.tail

section Forward

variable {α : Type} {body : α → List Tok → Except Fault (α × Cursor)} {js : List Byte} {n : ℕ}
  {a b : α} {t u : List Tok}

/-- A loop whose turns go forward goes forward. -/
theorem each_suffix (hbody : ∀ a, Forward (body a)) (h : each body n a t = .ok (b, some u)) :
    u <:+ t := by
  induction n generalizing a t with
  | zero =>
    cases h
    exact List.suffix_refl _
  | succ n ih =>
    rw [each] at h
    cases hturn : body a t with
    | error e =>
      rw [hturn] at h
      cases h
    | ok r =>
      obtain ⟨c, cursor⟩ := r
      rw [hturn, ok_bind] at h
      cases cursor with
      | none => cases h
      | some w =>
        obtain ⟨_, hw⟩ := hbody a t c w hturn
        exact ((ih h).trans hw).trans (List.tail_suffix t)

/-- Skipping goes forward. -/
theorem drain_suffix (h : drain n t = .ok u) : u <:+ t := by
  induction t generalizing n with
  | nil =>
    cases n with
    | zero =>
      rw [drain_zero] at h
      cases h
      exact List.suffix_refl _
    | succ n => cases h
  | cons tok rest ih =>
    cases n with
    | zero =>
      rw [drain_zero] at h
      cases h
      exact List.suffix_refl _
    | succ n =>
      rw [drain] at h
      apply List.IsSuffix.trans _ (List.suffix_cons tok rest)
      cases htype : tok.type <;> (rw [htype] at h; first | cases h | exact ih h)

/-- A computation in two parts has no fault only if neither has. -/
theorem bind_ok {ε α β : Type} {x : Except ε α} {f : α → Except ε β} {b : β}
    (h : (x >>= f) = .ok b) : ∃ a, x = .ok a ∧ f a = .ok b := by
  cases x with
  | error e => cases h
  | ok a => exact ⟨a, rfl, h⟩

/-- There is a token where one has been read. -/
theorem ne_nil_of_deref {tok : Tok} (h : deref t = .ok tok) : t ≠ [] := by
  rintro rfl
  cases h

/-- Behind the key stands a value that is read. -/
theorem suffix_of_value {f : Tok → Except Fault (α × Cursor)}
    (h : (deref t >>= f) = .ok (b, some u)) (hf : ∀ tok, f tok = .ok (b, some u) → u <:+ t.tail) :
    u <:+ t := by
  obtain ⟨tok, _, h⟩ := bind_ok h
  exact (hf tok h).trans (List.tail_suffix t)

/-- Behind the key stands a value that is skipped. -/
theorem suffix_of_skip (h : (jsmnSkip t >>= fun t => .ok (a, some t)) = .ok (b, some u)) :
    u <:+ t := by
  obtain ⟨w, hskip, h⟩ := bind_ok h
  cases h
  rw [jsmnSkip_eq] at hskip
  exact drain_suffix hskip

/-- A turn of the loop over an endpoint goes forward. -/
theorem endpointKey_forward (js : List Byte) (e : Endpoint) : Forward (endpointKey js e) := by
  intro t b u h
  unfold endpointKey at h
  obtain ⟨key, hkey, h⟩ := bind_ok h
  refine ⟨ne_nil_of_deref hkey, ?_⟩
  split at h
  · apply suffix_of_value h
    intro value h
    split at h
    · cases h
    · split at h <;> (cases h; exact List.suffix_refl _)
  · split at h
    · apply suffix_of_value h
      intro value h
      split at h
      · cases h
      · cases h
        exact List.suffix_refl _
    · exact suffix_of_skip h

/-- The walk over an endpoint goes forward. -/
theorem processEndpointEntry_forward (urlbufLen : ℕ) (js urlbuf : List Byte) :
    Forward (processEndpointEntry urlbufLen js urlbuf) := by
  intro t b u h
  unfold processEndpointEntry at h
  obtain ⟨tok, htok, h⟩ := bind_ok h
  refine ⟨ne_nil_of_deref htok, ?_⟩
  split at h
  · cases h
  · obtain ⟨⟨e, cursor⟩, heach, h⟩ := bind_ok h
    cases cursor with
    | none => cases h
    | some w =>
      obtain ⟨_, _, h⟩ := bind_ok h
      cases h
      exact each_suffix (endpointKey_forward js) heach

/-- A turn of the loop over an entry goes forward. -/
theorem catalogKey_forward (js : List Byte) (c : Entry) : Forward (catalogKey js c) := by
  intro t b u h
  unfold catalogKey at h
  obtain ⟨key, hkey, h⟩ := bind_ok h
  refine ⟨ne_nil_of_deref hkey, ?_⟩
  split at h
  · apply suffix_of_value h
    intro value h
    split at h
    · cases h
    · split at h <;> (cases h; exact List.suffix_refl _)
  · split at h
    · apply suffix_of_value h
      intro value h
      split at h
      · cases h
      · obtain ⟨⟨urlbuf, cursor⟩, heach, h⟩ := bind_ok h
        cases h
        exact each_suffix (processEndpointEntry_forward buflen js) heach
    · exact suffix_of_skip h

/-- The walk over an entry goes forward. -/
theorem processCatalogEntry_forward (js : List Byte) (storageUrl : Option (List Byte)) :
    Forward (processCatalogEntry js storageUrl) := by
  intro t b u h
  unfold processCatalogEntry at h
  obtain ⟨tok, htok, h⟩ := bind_ok h
  refine ⟨ne_nil_of_deref htok, ?_⟩
  split at h
  · cases h
  · obtain ⟨⟨c, cursor⟩, heach, h⟩ := bind_ok h
    cases cursor with
    | none => cases h
    | some w =>
      have hu : storeUrl storageUrl c w = (b, some u) := Except.ok.inj h
      have hw : w = u := by
        unfold storeUrl at hu
        split at hu
        · split at hu
          · cases hu
          · exact Option.some.inj (congrArg Prod.snd hu)
        · exact Option.some.inj (congrArg Prod.snd hu)
      rw [← hw]
      exact each_suffix (catalogKey_forward js) heach

/-- A turn of the loop over a token goes forward. -/
theorem tokenKey_forward (js : List Byte) (storageUrl : Option (List Byte)) :
    Forward (tokenKey js storageUrl) := by
  intro t b u h
  unfold tokenKey at h
  obtain ⟨key, hkey, h⟩ := bind_ok h
  refine ⟨ne_nil_of_deref hkey, ?_⟩
  split at h
  · apply suffix_of_value h
    intro value h
    split at h
    · cases h
    · exact each_suffix (processCatalogEntry_forward js) h
  · exact suffix_of_skip h

/-- A turn of the loop over the root goes forward. -/
theorem rootKey_forward (js : List Byte) (storageUrl : Option (List Byte)) :
    Forward (rootKey js storageUrl) := by
  intro t b u h
  unfold rootKey at h
  obtain ⟨key, hkey, h⟩ := bind_ok h
  refine ⟨ne_nil_of_deref hkey, ?_⟩
  split at h
  · cases h
  · split at h
    · apply suffix_of_value h
      intro value h
      split at h
      · cases h
      · exact each_suffix (tokenKey_forward js) h
    · exact suffix_of_skip h

end Forward

/-- Every loop of the walk goes forward. -/
structure InOrder (js : List Byte) : Prop where
  root : ∀ storageUrl, Forward (rootKey js storageUrl)
  token : ∀ storageUrl, Forward (tokenKey js storageUrl)
  entry : ∀ storageUrl, Forward (processCatalogEntry js storageUrl)
  catalog : ∀ c, Forward (catalogKey js c)
  endpoint : ∀ urlbuf, Forward (processEndpointEntry buflen js urlbuf)
  key : ∀ e, Forward (endpointKey js e)

/-- All the loops of the walk go forward. -/
theorem inOrder (js : List Byte) : InOrder js where
  root := rootKey_forward js
  token := tokenKey_forward js
  entry := processCatalogEntry_forward js
  catalog := catalogKey_forward js
  endpoint := processEndpointEntry_forward buflen js
  key := endpointKey_forward js

/-! ## The reference -/

section Reference

variable {js : List Byte} {ms : Members} {root rest : List Tok}

/-- On the tokens of an object: what the walk returns, the storage url, and where the cursor is
left. -/
theorem processJson_ended (h : LaidOut js (.value (.object ms)) root rest)
    (hshort : ShortDocument ms) (storageUrl : Option (List Byte)) :
    ∃ stored, processJson js storageUrl root = .ok (if badDocument ms then -1 else 0, stored) ∧
      (badDocument ms = false → stored = storageUrl.or (documentUrl ms)) ∧
      each (rootKey js) ms.length storageUrl root.tail =
        .ok (stored, if badDocument ms then none else some rest) := by
  cases h with
  | @object tok ms t rest htype hsize hmembers =>
    obtain ⟨stored, heach, hstored⟩ := each_rootKey_ended hmembers hshort storageUrl
    refine ⟨stored, ?_, hstored, heach⟩
    rw [processJson, if_neg (not_not_intro htype), hsize, heach]
    cases badDocument ms <;> rfl

/-- `process_json` agrees with reading the storage url off the value. The url is found in one
forward walk, and neither the order of distinct keys nor unrelated keys make a difference. Strings
and keys are the text between the quotation marks, escapes as they stand: so they are compared by
`jsmn_streq` and so the url is copied. -/
theorem processJson_reads_document (h : LaidOut js (.value (.object ms)) root rest)
    (hshort : ShortDocument ms) (storageUrl : Option (List Byte)) :
    InOrder js ∧ (∀ v t u, LaidOut js (.value v) t u → jsmnSkip t = .ok u) ∧
      ∃ stored, processJson js storageUrl root = .ok (if badDocument ms then -1 else 0, stored) ∧
        (badDocument ms = false → stored = storageUrl.or (documentUrl ms)) ∧
        each (rootKey js) ms.length storageUrl root.tail =
          .ok (stored, if badDocument ms then none else some rest) ∧
        ∀ js' ms' root' rest', DocumentAlike ms ms' →
          LaidOut js' (.value (.object ms')) root' rest' → ShortDocument ms' →
          ∃ stored', processJson js' storageUrl root' =
              .ok (if badDocument ms then -1 else 0, stored') ∧
            (badDocument ms = false → stored' = stored) := by
  obtain ⟨stored, hwalk, hstored, hcursor⟩ := processJson_ended h hshort storageUrl
  refine ⟨inOrder js, fun v t u hvalue => hvalue.jsmnSkip, stored, hwalk, hstored, hcursor, ?_⟩
  intro js' ms' root' rest' halike h' hshort'
  obtain ⟨stored', hwalk', hstored', _⟩ := processJson_ended h' hshort' storageUrl
  obtain ⟨hbad, hurl⟩ := halike.eq
  refine ⟨stored', hbad ▸ hwalk', ?_⟩
  intro hgood
  rw [hstored hgood, hstored' (hbad ▸ hgood), hurl]

end Reference

/-- An answer with one object store, whose one endpoint is public. -/
def shortAnswer : List Byte :=
  [0x7b, 0x22] ++ tokenName ++ [0x22, 0x3a, 0x7b, 0x22] ++ catalogName ++
    [0x22, 0x3a, 0x5b, 0x7b, 0x22] ++ typeName ++ [0x22, 0x3a, 0x22] ++ objectStoreValue ++
    [0x22, 0x2c, 0x22] ++ endpointsName ++ [0x22, 0x3a, 0x5b, 0x7b, 0x22] ++ urlName ++
    [0x22, 0x3a, 0x22, 0x61, 0x22, 0x2c, 0x22] ++ interfaceName ++ [0x22, 0x3a, 0x22] ++
    publicValue ++ [0x22, 0x7d, 0x5d, 0x7d, 0x5d, 0x7d, 0x7d]

def shortEndpoint : Json :=
  .object [(urlName, .string [0x61]), (interfaceName, .string publicValue)]

def shortEntry : Json :=
  .object [(typeName, .string objectStoreValue), (endpointsName, .array [shortEndpoint])]

def shortMembers : Members := [(tokenName, .object [(catalogName, .array [shortEntry])])]

def shortTokens : List Tok :=
  [⟨.object, 0, 94, 1⟩, ⟨.string, 2, 7, 1⟩, ⟨.object, 9, 93, 1⟩, ⟨.string, 11, 18, 1⟩,
    ⟨.array, 20, 92, 1⟩, ⟨.object, 21, 91, 2⟩, ⟨.string, 23, 27, 1⟩, ⟨.string, 30, 42, 0⟩,
    ⟨.string, 45, 54, 1⟩, ⟨.array, 56, 90, 1⟩, ⟨.object, 57, 89, 2⟩, ⟨.string, 59, 62, 1⟩,
    ⟨.string, 65, 66, 0⟩, ⟨.string, 69, 78, 1⟩, ⟨.string, 81, 87, 0⟩]

example : (parseResponse shortAnswer 1000).map (fun r => r.2.tokens) = some shortTokens := by
  decide +kernel

theorem laidOut_shortTokens :
    LaidOut shortAnswer (.value (.object shortMembers)) shortTokens [] := by
  have hendpoint : ∀ rest, LaidOut shortAnswer (.value shortEndpoint)
      (shortTokens.drop 10 ++ rest) rest := by
    intro rest
    apply LaidOut.object rfl rfl
    apply LaidOut.member (by decide) (.string (by decide))
    exact LaidOut.member (by decide) (.string (by decide)) .noMembers
  have hentry : ∀ rest, LaidOut shortAnswer (.value shortEntry)
      (shortTokens.drop 5 ++ rest) rest := by
    intro rest
    apply LaidOut.object rfl rfl
    apply LaidOut.member (by decide) (.string (by decide))
    apply LaidOut.member (by decide) _ .noMembers
    exact LaidOut.array rfl rfl (.elem (hendpoint rest) .noElems)
  apply LaidOut.object rfl rfl
  apply LaidOut.member (by decide) _ .noMembers
  apply LaidOut.object rfl rfl
  apply LaidOut.member (by decide) _ .noMembers
  exact LaidOut.array rfl rfl (.elem (hentry []) .noElems)

theorem processJson_reads_document_short :
    ∃ stored, processJson shortAnswer none shortTokens = .ok (0, stored) ∧
      stored = some [0x61] := by
  have hshort : ShortDocument shortMembers := by
    unfold ShortDocument ShortEntry ShortEndpoint
    decide
  obtain ⟨_, _, stored, hwalk, hstored, _⟩ :=
    processJson_reads_document laidOut_shortTokens hshort none
  exact ⟨stored, hwalk, hstored (by decide)⟩

end Wandio.Keystone
