import Wandio.Jsmn.TextTheorems
import Wandio.Keystone.AuthModel
import Wandio.Keystone.CatalogTheorems
import Wandio.Keystone.GrowthTheorems

/-!
# An answer that is a document

From the bytes of an answer to the token: the callbacks put the answer together, the parser finds
the tokens of its value, and the walk reads the storage url off the value.
-/

namespace Wandio.Keystone

open Loop Jsmn
open Environment (letters)

/-! ## The answer put together -/

/-- The token that a header line gives. -/
def subjectToken (buf : List Byte) : Option (List Byte) := authHeaderCb none buf

def Delivery.header? : Delivery → Option (List Byte)
  | .header buf => some buf
  | .body _ => none

def Delivery.body? : Delivery → Option (List Byte)
  | .header _ => none
  | .body buf => some buf

/-- The token of the last header line that gives one. -/
def Answer.token (answer : Answer) : Option (List Byte) :=
  ((answer.deliveries.filterMap Delivery.header?).filterMap subjectToken).getLast?

/-- The pieces of the body, one after the other. -/
def Answer.body (answer : Answer) : List Byte :=
  (answer.deliveries.filterMap Delivery.body?).flatten

section Callbacks

variable {token : Option (List Byte)} {buf v w response : List Byte} {ds : List Delivery}

theorem authHeaderCb_eq (token : Option (List Byte)) (buf : List Byte) :
    authHeaderCb token buf = (subjectToken buf).or token := by
  unfold subjectToken authHeaderCb
  split <;> rfl

theorem getLast?_cons_or {α : Type} (a : Option α) (as : List α) (b : Option α) :
    ((a.toList ++ as).getLast?).or b = as.getLast?.or (a.or b) := by
  cases as using List.reverseRecOn with
  | nil => cases a <;> rfl
  | append_singleton as c =>
    rw [← List.append_assoc, List.getLast?_concat, List.getLast?_concat]
    rfl

theorem foldl_receive (ds : List Delivery) (token : Option (List Byte)) (response : List Byte) :
    ds.foldl receive (token, response) =
      (((ds.filterMap Delivery.header?).filterMap subjectToken).getLast?.or token,
        response ++ (ds.filterMap Delivery.body?).flatten) := by
  induction ds generalizing token response with
  | nil => simp
  | cons d ds ih =>
    cases d with
    | header buf =>
      rw [List.foldl_cons, receive, ih, authHeaderCb_eq]
      simp only [List.filterMap_cons, Delivery.header?, Delivery.body?]
      rw [← getLast?_cons_or]
      cases subjectToken buf <;> rfl
    | body buf =>
      rw [List.foldl_cons, receive, ih, authWriteCb]
      simp only [List.filterMap_cons, Delivery.header?, Delivery.body?, List.flatten_cons,
        List.append_assoc]

/-- The token is what stands in a header line between the name and the end of the line. -/
theorem subjectToken_line (hv : ∀ c ∈ v.getLast?, isGarbage c = false) (hzero : 0 ∉ v)
    (hw : ∀ c ∈ w, isGarbage c = true) (hne : v ++ w ≠ []) :
    subjectToken (tokenHdr ++ (v ++ w)) = some v := by
  have hlast : ∀ c ∈ (tokenHdr ++ v).getLast?, isGarbage c = false := by
    cases hcase : v.getLast? with
    | none =>
      rw [List.getLast?_eq_none_iff.mp hcase, List.append_nil]
      intro c hc
      have hspace : c = 0x20 := Option.some.inj (hc.symm.trans rfl)
      rw [hspace]
      rfl
    | some c =>
      rw [List.getLast?_append, hcase]
      rintro d ⟨⟩
      exact hv c hcase
  have hchomp : (tokenHdr ++ (v ++ w)).reverse.takeWhile isGarbage = w.reverse := by
    have hw' : ∀ c ∈ w.reverse, isGarbage c = true := fun c hc => hw c (List.mem_reverse.mp hc)
    rw [← List.append_assoc, List.reverse_append, List.takeWhile_append_of_pos hw']
    rw [← List.head?_reverse] at hlast
    cases hrev : (tokenHdr ++ v).reverse with
    | nil => rw [List.takeWhile_nil, List.append_nil]
    | cons c cs =>
      rw [hrev] at hlast
      rw [List.takeWhile_cons_of_neg (by simp [hlast c rfl]), List.append_nil]
  have hlength : 0 < (v ++ w).length := List.length_pos_iff.mpr hne
  rw [subjectToken, authHeaderCb, if_pos ⟨by rw [List.length_append]; omega, List.take_left⟩,
    hchomp, List.drop_left, List.length_reverse]
  have htake : (tokenHdr ++ (v ++ w)).length - tokenHdr.length - w.length = v.length := by
    simp only [List.length_append]
    omega
  simp only [htake]
  rw [List.take_left, cString_eq hzero]

end Callbacks

/-! ## The document -/

section Document

variable {js : List Byte} {ms : Members} {tokens : List Tok} {v : Json}

/-- The array is made large enough for the tokens of a document. -/
theorem parseResponse_document (h : Document v js) (hlen : js.length < 2 ^ 31) :
    ∃ tokens, LaidOut js (.value v) tokens [] ∧
      Yields (parseResponse js) ((tokens.length : ℤ), ⟨js.length, -1, tokens⟩) := by
  obtain ⟨tokens, hle, _, hlaid, hexact⟩ := document_ends h hlen
  have hlarge : tokens.length ≤ largest := by
    unfold largest
    omega
  have hends := (ends_larger hlarge hexact (enter_count _)).1 (count_ne_nomem _)
  have hsize : 128 * 2 ^ 24 = largest := by decide
  exact ⟨tokens, hlaid, parseResponse_yields_iff.mpr (again_of_ends (count_ne_nomem _) hsize hends)⟩

/-- The storage url is the one that the document says. -/
theorem processAuthResponse_document (h : Document (.object ms) js) (hlen : js.length < 2 ^ 31)
    (hshort : ShortDocument ms) (storageUrl : Option (List Byte)) :
    ∃ stored, Yields (processAuthResponse js storageUrl)
        (.ok (if badDocument ms then -1 else 0, stored)) ∧
      (badDocument ms = false → stored = storageUrl.or (documentUrl ms)) := by
  obtain ⟨tokens, hlaid, hparse⟩ := parseResponse_document h hlen
  obtain ⟨stored, hwalk, hstored, _⟩ := processJson_ended hlaid hshort storageUrl
  refine ⟨stored, ?_, hstored⟩
  have hanswer := hparse.map fun r : ℤ × Parser =>
    if r.1 < 0 then .ok (-1, storageUrl) else processJson js storageUrl r.2.tokens
  simp only at hanswer
  rw [if_neg (by omega), hwalk] at hanswer
  exact hanswer

end Document

/-! ## Authentication -/

/-- A variable that is set, and not to an empty string. -/
def setVar (env : Environ) (name : String) : Option CString :=
  (env name).bind fun s => if s.bytes.length = 0 then none else some s

/-- The token that a variable says. -/
def envToken (env : Environ) : Option (List Byte) := (setVar env "OS_AUTH_TOKEN").map CString.bytes

/-- The storage url that a variable says. -/
def envStorageUrl (env : Environ) : Option (List Byte) :=
  (setVar env "OS_STORAGE_URL").map CString.bytes

/-- The domain; without the variable it is the default one. -/
def envDomain (env : Environ) : Option CString :=
  if (env "OS_PROJECT_DOMAIN_ID").isSome then setVar env "OS_PROJECT_DOMAIN_ID" else some .default

/-- The credentials that the variables say. -/
def envCreds (env : Environ) : Option AuthCreds := do
  let authUrl ← setVar env "OS_AUTH_URL"
  let username ← setVar env "OS_USERNAME"
  let password ← setVar env "OS_PASSWORD"
  let project ← setVar env "OS_PROJECT_NAME"
  let domainId ← envDomain env
  return ⟨authUrl, username, password, project, domainId⟩

/-- The request is made, and the server says that it has created a token. -/
structure Grants (curl : Curl) (creds : AuthCreds) (answer : Answer) : Prop where
  easyInit : curl.easyInit = true
  setopt : curl.setopt = true
  perform : (authRequest creds).map curl.perform = some answer
  ok : answer.ok = true
  created : answer.responseCode = 201

section Authentication

variable {α : Type} {env : Environ} {name : String} {req : Bool} {strdup : CString → α}
  {dst : Option α} {curl : Curl} {creds : AuthCreds} {answer : Answer} {ms : Members}

theorem getenvInto_fst : (getenvInto env name req strdup dst).1 =
    ((setVar env name).map strdup).or dst := by
  unfold getenvInto setVar
  cases env name with
  | none => rfl
  | some tmp =>
    simp only [Option.bind_some]
    split <;> rfl

/-- An empty variable is worse than none. -/
theorem getenvInto_snd : (getenvInto env name req strdup dst).2 =
    ((setVar env name).isSome || ((env name).isNone && !req)) := by
  unfold getenvInto setVar
  cases env name with
  | none => simp
  | some tmp =>
    simp only [Option.bind_some]
    split <;> simp

theorem keystoneEnvParseToken_eq (env : Environ) (token : AuthToken) :
    keystoneEnvParseToken env token = ((envToken env).isSome && (envStorageUrl env).isSome,
      ⟨(envToken env).or token.token, (envStorageUrl env).or token.storageUrl⟩) := by
  unfold keystoneEnvParseToken envToken envStorageUrl
  ext <;> simp [getenvInto_fst, getenvInto_snd]

theorem envDomain_isSome (env : Environ) :
    ((setVar env "OS_PROJECT_DOMAIN_ID").isSome || (env "OS_PROJECT_DOMAIN_ID").isNone) =
      (envDomain env).isSome := by
  unfold envDomain setVar
  cases env "OS_PROJECT_DOMAIN_ID" with
  | none => rfl
  | some tmp => simp

theorem envDomain_getD {domainId : CString} (h : envDomain env = some domainId) :
    (setVar env "OS_PROJECT_DOMAIN_ID").getD .default = domainId := by
  unfold envDomain at h
  split at h
  · rw [h, Option.getD_some]
  · next hnone =>
    have hunset : setVar env "OS_PROJECT_DOMAIN_ID" = none := by
      rw [setVar, Option.not_isSome_iff_eq_none.mp hnone]
      rfl
    rw [hunset, Option.getD_none]
    exact Option.some.inj h

/-- The credentials are found if every one of them is set, and the domain is not set to an empty
string. -/
theorem keystoneEnvParseCreds_eq (env : Environ) :
    (keystoneEnvParseCreds env ⟨none, none, none, none, none⟩).1 = (envCreds env).isSome ∧
      ∀ creds, envCreds env = some creds →
        (keystoneEnvParseCreds env ⟨none, none, none, none, none⟩).2.known = some creds := by
  constructor
  · simp only [keystoneEnvParseCreds, getenvInto_snd, Bool.not_true, Bool.and_false, Bool.or_false,
      Bool.not_false, Bool.and_true, envDomain_isSome]
    unfold envCreds
    cases setVar env "OS_AUTH_URL" <;> cases setVar env "OS_USERNAME" <;>
      cases setVar env "OS_PASSWORD" <;> cases setVar env "OS_PROJECT_NAME" <;>
      cases envDomain env <;> rfl
  · intro creds h
    unfold envCreds at h
    simp only [Option.bind_eq_bind, Option.bind_eq_some_iff] at h
    obtain ⟨authUrl, hauthUrl, username, husername, password, hpassword, project, hproject,
      domainId, hdomainId, hcreds⟩ := h
    simp only [keystoneEnvParseCreds, getenvInto_fst, Option.map_id, id_eq, Option.or_none,
      hauthUrl, husername, hpassword, hproject, EnvCreds.known, envDomain_getD hdomainId]
    exact hcreds

/-- An answer whose body is a document: the token is that of the last header, and the storage url
that of the document, unless the environment says otherwise. -/
theorem keystoneAuthenticate_document (h : Grants curl creds answer)
    (hdoc : Document (.object ms) answer.body) (hlen : answer.body.length < 2 ^ 31)
    (hshort : ShortDocument ms) (env : Environ) :
    ∃ stored, Yields (keystoneAuthenticate curl env creds)
        (.ok (if badDocument ms then -1
          else if stored.isSome ∧ ((envToken env).or answer.token).isSome then 1 else 0,
          ⟨(envToken env).or answer.token, stored⟩)) ∧
      (badDocument ms = false → stored = (envStorageUrl env).or (documentUrl ms)) := by
  obtain ⟨stored, hyields, hstored⟩ :=
    processAuthResponse_document hdoc hlen hshort (envStorageUrl env)
  obtain ⟨request, hrequest, hperform⟩ := Option.map_eq_some_iff.mp h.perform
  refine ⟨stored, ?_, hstored⟩
  have hreceived : answer.deliveries.foldl receive (none, []) = (answer.token, answer.body) := by
    rw [foldl_receive, Option.or_none, List.nil_append]
    rfl
  have hanswer := hyields.map fun r : Except Fault (ℤ × Option (List Byte)) =>
    r.map fun p =>
      if p.1 ≠ 0 then (-1, (⟨(envToken env).or answer.token, p.2⟩ : AuthToken))
      else (if p.2.isSome ∧ ((envToken env).or answer.token).isSome then 1 else 0,
        ⟨(envToken env).or answer.token, p.2⟩)
  have hgo : ∀ fuel, keystoneAuthenticate curl env creds fuel =
      (processAuthResponse answer.body (envStorageUrl env) fuel).map fun r =>
        r.map fun p =>
          if p.1 ≠ 0 then (-1, (⟨(envToken env).or answer.token, p.2⟩ : AuthToken))
          else (if p.2.isSome ∧ ((envToken env).or answer.token).isSome then 1 else 0,
            ⟨(envToken env).or answer.token, p.2⟩) := by
    intro fuel
    rw [keystoneAuthenticate, hrequest]
    simp only [h.easyInit, h.setopt, hperform, handleAnswer, hreceived, h.ok, h.created,
      keystoneEnvParseToken_eq, Option.or_none]
    rfl
  simp only [← hgo] at hanswer
  cases hbad : badDocument ms with
  | true =>
    rw [hbad] at hanswer
    exact hanswer
  | false =>
    rw [hbad] at hanswer
    exact hanswer

end Authentication

theorem document_shortAnswer : Document (.object shortMembers) shortAnswer := by
  have hnone : Blanks [] := fun c hc => absurd hc List.not_mem_nil
  have hplain : ∀ s : List Byte, (s.all fun c => c ≠ 0 ∧ c ≠ 0x22 ∧ c ≠ 0x5c) = true →
      StringText s := by
    intro s hs
    apply stringText_of_plain
    simpa using hs
  have hendpoint : Spells (.value shortEndpoint) _ :=
    .object (.member hnone (hplain urlName rfl) hnone hnone (.string (hplain [0x61] rfl)) hnone
      (.lastMember hnone (hplain interfaceName rfl) hnone hnone
        (.string (hplain publicValue rfl)) hnone))
  have hentry : Spells (.value shortEntry) _ :=
    .object (.member hnone (hplain typeName rfl) hnone hnone
      (.string (hplain objectStoreValue rfl)) hnone
      (.lastMember hnone (hplain endpointsName rfl) hnone hnone
        (.array (.lastElem hnone hendpoint hnone)) hnone))
  have hcatalog : Spells (.value (.object shortMembers)) _ :=
    .object (.lastMember hnone (hplain tokenName rfl) hnone hnone
      (.object (.lastMember hnone (hplain catalogName rfl) hnone hnone
        (.array (.lastElem hnone hentry hnone)) hnone)) hnone)
  exact .mk hnone hcatalog hnone

end Wandio.Keystone
