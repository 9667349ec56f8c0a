import Wandio.Keystone.AuthTheorems
import Wandio.SwiftReader.Model

/-!
# Opening an object

With which url and which header the http reader of an object is opened, for any name, environment
and server: the token and the storage url are those of the environment if it has both, and
otherwise those of the server, except for what the environment has.
-/

namespace Wandio.SwiftReader

open Loop Jsmn Keystone
open Environment (letters)

/-! ## The name -/

/-- The container and the object, as they stand in the name. -/
def swiftPath (filename : CString) : Option (List Byte) :=
  let path := filename.bytes.drop swiftPfx.length
  if swiftPfx <+: filename.bytes ∧ 0x2f ∈ path then some path else none

section Name

variable {filename : CString} {path : List Byte}

/-- A path with a slash is what is before its first one, and what is behind it. -/
theorem dropWhile_slash (h : 0x2f ∈ path) :
    ∃ otmp, path.dropWhile (· ≠ 0x2f) = 0x2f :: otmp ∧
      path = path.take (path.length - otmp.length - 1) ++ 0x2f :: otmp := by
  induction path with
  | nil => cases h
  | cons c path ih =>
    by_cases hc : c = 0x2f
    · exact ⟨path, by simp [hc], by simp [hc]⟩
    · obtain ⟨otmp, hdrop, htake⟩ := ih ((List.mem_cons.mp h).resolve_left (Ne.symm hc))
      refine ⟨otmp, by simpa [hc] using hdrop, ?_⟩
      have hlen := congrArg List.length htake
      rw [List.length_append, List.length_cons] at hlen
      have hsucc : (c :: path).length - otmp.length - 1 = path.length - otmp.length - 1 + 1 := by
        rw [List.length_cons]
        omega
      rw [hsucc, List.take_succ_cons, List.cons_append, ← htake]

/-- A name with the prefix and a slash behind it is split into container and object. -/
theorem parseSwifturl_of_prefix (h : swiftPfx <+: filename.bytes)
    (hslash : 0x2f ∈ filename.bytes.drop swiftPfx.length) :
    ∃ container object, parseSwifturl filename = some (container, object) ∧
      filename.bytes.drop swiftPfx.length = container ++ 0x2f :: object := by
  obtain ⟨object, hdrop, htake⟩ := dropWhile_slash hslash
  have hlength : ¬ filename.bytes.length < swiftPfx.length + 1 := by
    have hpos := List.length_pos_of_mem hslash
    rw [List.length_drop] at hpos
    omega
  refine ⟨_, object, ?_, htake⟩
  rw [parseSwifturl, if_neg (not_or.mpr ⟨hlength, not_not.mpr (List.prefix_iff_eq_take.mp h).symm⟩)]
  simp only [hdrop]

/-- Another name is not split. -/
theorem parseSwifturl_eq_none
    (h : ¬ (swiftPfx <+: filename.bytes ∧ 0x2f ∈ filename.bytes.drop swiftPfx.length)) :
    parseSwifturl filename = none := by
  unfold parseSwifturl
  split
  · rfl
  · next hprefix =>
    rw [not_or, not_not] at hprefix
    have hslash : 0x2f ∉ filename.bytes.drop swiftPfx.length :=
      fun hslash => h ⟨List.prefix_iff_eq_take.mpr hprefix.2.symm, hslash⟩
    have hnil : (filename.bytes.drop swiftPfx.length).dropWhile (· ≠ 0x2f) = [] := by
      rw [List.dropWhile_eq_nil_iff]
      intro c hc
      exact decide_eq_true fun heq => hslash (heq ▸ hc)
    simp only [hnil]

/-- A name is accepted if a path with a slash in it stands behind the prefix, and the path is put
together again behind the storage url. -/
theorem swiftPath_eq (filename : CString) :
    swiftPath filename = (parseSwifturl filename).map fun r => r.1 ++ 0x2f :: r.2 := by
  unfold swiftPath
  by_cases h : swiftPfx <+: filename.bytes ∧ 0x2f ∈ filename.bytes.drop swiftPfx.length
  · obtain ⟨container, object, hparse, hpath⟩ := parseSwifturl_of_prefix h.1 h.2
    rw [hparse, if_pos h, hpath]
    rfl
  · rw [parseSwifturl_eq_none h, if_neg h]
    rfl

/-- A name with a path has the prefix. -/
theorem prefix_of_swiftPath (h : swiftPath filename = some path) :
    swiftPfx <+: filename.bytes := by
  unfold swiftPath at h
  simp only at h
  split at h
  · next hprefix => exact hprefix.1
  · cases h

end Name

/-! ## The token -/

/-- The answer of a server that has created a token. -/
def granted (curl : Curl) (creds : AuthCreds) : Option Answer :=
  if curl.easyInit ∧ curl.setopt then
    ((authRequest creds).map curl.perform).filter fun a => a.ok ∧ a.responseCode = 201
  else none

/-- A token and a storage url, if both are there. -/
def pair (token : AuthToken) : Option (List Byte × List Byte) :=
  token.token.bind fun tok => token.storageUrl.map fun storageUrl => (tok, storageUrl)

/-- The token and the storage url for an object. The environment is asked for both first. If it
does not have both, the server is asked, whose answer has the members `ms`, but what the environment
has is preferred. -/
def access (curl : Curl) (env : Environ) (ms : Members) : Option (List Byte × List Byte) :=
  (pair ⟨envToken env, envStorageUrl env⟩).or
    ((envCreds env).bind fun creds => (granted curl creds).bind fun answer =>
      if badDocument ms then none
      else pair
        ⟨(envToken env).or answer.token, (envStorageUrl env).or (documentUrl ms)⟩)

section Open

variable {α : Type} {curl : Curl} {env : Environ} {creds : AuthCreds} {answer : Answer}
  {ms : Members} {token : AuthToken} {filename : CString}

/-- The answer that is found is one that grants access. -/
theorem grants_of_granted (h : granted curl creds = some answer) : Grants curl creds answer := by
  unfold granted at h
  split at h
  · next hcurl =>
    obtain ⟨hperform, hanswer⟩ := Option.filter_eq_some_iff.mp h
    rw [decide_eq_true_eq] at hanswer
    exact ⟨hcurl.1, hcurl.2, hperform, hanswer.1, hanswer.2⟩
  · cases h

/-- Without a server that creates a token there is an error. -/
theorem keystoneAuthenticate_refused (h : granted curl creds = none) (env : Environ) :
    ∃ token, ∀ fuel, keystoneAuthenticate curl env creds fuel = some (.ok (-1, token)) := by
  unfold keystoneAuthenticate
  by_cases hinit : curl.easyInit = true
  · cases hrequest : authRequest creds with
    | none => exact ⟨⟨none, none⟩, fun fuel => by simp [hinit]⟩
    | some request =>
      by_cases hsetopt : curl.setopt = true
      · simp only [granted, hinit, hsetopt, and_self, if_true, hrequest, Option.map_some,
          Option.filter_eq_none_iff, Option.some.injEq, forall_eq',
          decide_eq_true_eq, not_and] at h
        simp only [hinit, hsetopt, Bool.not_true, Bool.false_eq_true, if_false, handleAnswer]
        refine ⟨⟨((curl.perform request).deliveries.foldl receive (none, [])).1, none⟩, ?_⟩
        intro fuel
        by_cases hok : (curl.perform request).ok = true
        · simp [hok, h hok]
        · simp [hok]
      · exact ⟨⟨none, none⟩, fun fuel => by simp [hinit, hsetopt]⟩
  · exact ⟨⟨none, none⟩, fun fuel => by simp [hinit]⟩

/-- A token is complete exactly if it has both its parts. -/
theorem pair_isSome (token : AuthToken) :
    (pair token).isSome = (token.token.isSome && token.storageUrl.isSome) := by
  cases token with
  | mk tok storageUrl => cases tok <;> cases storageUrl <;> rfl

theorem pair_eq_some {tok storageUrl : List Byte} (h : pair token = some (tok, storageUrl)) :
    token.token = some tok ∧ token.storageUrl = some storageUrl := by
  unfold pair at h
  obtain ⟨tok', htok, h⟩ := Option.bind_eq_some_iff.mp h
  obtain ⟨url', hurl, h⟩ := Option.map_eq_some_iff.mp h
  cases h
  exact ⟨htok, hurl⟩

/-- `get_token` has a token and a storage url, or fails. -/
theorem getToken_yields
    (hserver : ∀ creds answer, envCreds env = some creds → granted curl creds = some answer →
      Document (.object ms) answer.body ∧ answer.body.length < 2 ^ 31)
    (hshort : ShortDocument ms) :
    ∃ rc token, Yields (getToken curl env) (.ok (rc, token)) ∧
      access curl env ms = (if rc = 0 then (pair token) else none) ∧
      (rc = 0 → (pair token).isSome) := by
  have hparse := keystoneEnvParseToken_eq env ⟨none, none⟩
  simp only [Option.or_none] at hparse
  by_cases hfound : ((envToken env).isSome && (envStorageUrl env).isSome) = true
  · refine ⟨0, ⟨envToken env, envStorageUrl env⟩, ⟨0, fun fuel _ => ?_⟩, ?_, fun _ => ?_⟩
    · simp only [getToken, hparse, hfound, if_true]
    · rw [if_pos rfl, access, Option.or_of_isSome]
      rw [pair_isSome]
      exact hfound
    · rw [pair_isSome]
      exact hfound
  · have hpair : pair ⟨envToken env, envStorageUrl env⟩ = none := by
      rw [← Option.not_isSome_iff_eq_none, pair_isSome]
      exact hfound
    have haccess : access curl env ms = (envCreds env).bind fun creds =>
        (granted curl creds).bind fun answer => if badDocument ms then none
          else pair
            ⟨(envToken env).or answer.token, (envStorageUrl env).or (documentUrl ms)⟩ := by
      rw [access, hpair, Option.none_or]
    obtain ⟨hknown, hcreds⟩ := keystoneEnvParseCreds_eq env
    cases henv : envCreds env with
    | none =>
      refine ⟨-1, ⟨envToken env, envStorageUrl env⟩, ⟨0, fun fuel _ => ?_⟩, ?_,
        fun h => absurd h (by decide)⟩
      · rw [henv, Option.isSome_none] at hknown
        simp only [getToken, hparse, hfound, hknown, Bool.false_eq_true, if_false, Bool.not_false,
          if_true]
      · rw [haccess, henv]
        rfl
    | some creds =>
      rw [henv, Option.isSome_some] at hknown
      have hgo : ∀ fuel, getToken curl env fuel =
          (keystoneAuthenticate curl env creds fuel).map fun r =>
            r.map fun p => (if p.1 ≠ 1 then -1 else 0, p.2) := by
        intro fuel
        simp only [getToken, hparse, hfound, hknown, hcreds creds henv, Bool.false_eq_true,
          if_false, Bool.not_true]
      rw [henv, Option.bind_some] at haccess
      cases hgranted : granted curl creds with
      | none =>
        obtain ⟨token, hrefused⟩ := keystoneAuthenticate_refused hgranted env
        refine ⟨-1, token, ⟨0, fun fuel _ => ?_⟩, ?_, fun h => absurd h (by decide)⟩
        · rw [hgo, hrefused]
          rfl
        · rw [haccess, hgranted]
          rfl
      | some answer =>
        obtain ⟨hdoc, hlen⟩ := hserver creds answer henv hgranted
        obtain ⟨stored, hyields, hstored⟩ :=
          keystoneAuthenticate_document (grants_of_granted hgranted) hdoc hlen hshort env
        have htoken := hyields.map fun r : Except Fault (ℤ × AuthToken) =>
          r.map fun p => (if p.1 ≠ 1 then -1 else 0, p.2)
        simp only [← hgo] at htoken
        rw [hgranted, Option.bind_some] at haccess
        cases hbad : badDocument ms with
        | true =>
          rw [hbad] at htoken haccess
          exact ⟨-1, _, htoken, haccess, fun h => absurd h (by decide)⟩
        | false =>
          obtain rfl := hstored hbad
          rw [hbad] at htoken haccess
          have hsome := pair_isSome
            ⟨(envToken env).or answer.token, (envStorageUrl env).or (documentUrl ms)⟩
          by_cases hboth : ((envStorageUrl env).or (documentUrl ms)).isSome ∧
              ((envToken env).or answer.token).isSome
          · simp only [hboth, and_self, if_true] at htoken
            rw [hboth.1, hboth.2] at hsome
            exact ⟨0, _, htoken, haccess, fun _ => hsome⟩
          · simp only [hboth, if_false] at htoken
            refine ⟨-1, _, htoken, haccess.trans ?_, fun h => absurd h (by decide)⟩
            rw [if_neg (by decide), if_neg (by decide), ← Option.not_isSome_iff_eq_none, hsome,
              Bool.and_eq_true]
            exact fun h => hboth ⟨h.2, h.1⟩

/-- An object is opened behind the storage url, with a header for the token. -/
theorem swiftOpen_of_parse {container object : List Byte}
    (hserver : ∀ creds answer, envCreds env = some creds → granted curl creds = some answer →
      Document (.object ms) answer.body ∧ answer.body.length < 2 ^ 31)
    (hshort : ShortDocument ms) (httpOpenHdrs : List Byte → List (List Byte) → Option α)
    (hparse : parseSwifturl filename = some (container, object)) :
    Yields (swiftOpen curl env httpOpenHdrs filename)
      (.ok ((access curl env ms).bind fun a =>
        httpOpenHdrs (buildHttpUrl a.2 container object) [buildAuthTokenHdr a.1])) := by
  obtain ⟨rc, token, htoken, haccess, hsome⟩ := getToken_yields hserver hshort
  have hopen := htoken.map fun r : Except Fault (ℤ × AuthToken) =>
    r.bind (openObject httpOpenHdrs container object)
  have hgo : ∀ fuel, swiftOpen curl env httpOpenHdrs filename fuel =
      (getToken curl env fuel).map fun r =>
        r.bind (openObject httpOpenHdrs container object) := by
    intro fuel
    simp only [swiftOpen, hparse]
  simp only [← hgo] at hopen
  have hresult : openObject httpOpenHdrs container object (rc, token) =
      .ok ((access curl env ms).bind fun a =>
        httpOpenHdrs (buildHttpUrl a.2 container object) [buildAuthTokenHdr a.1]) := by
    rw [haccess]
    by_cases hrc : rc = 0
    · obtain ⟨⟨tok, storageUrl⟩, hpair⟩ := Option.isSome_iff_exists.mp (hsome hrc)
      rw [if_pos hrc, hpair]
      obtain ⟨htok, hurl⟩ := pair_eq_some hpair
      simp only [openObject, hrc, htok, hurl]
      rfl
    · rw [if_neg hrc, openObject, if_pos hrc]
      rfl
  rw [← hresult]
  exact hopen

/-- The http reader is opened for the path behind the storage url, with a header for the token. -/
theorem swiftOpen_request
    (hserver : ∀ creds answer, envCreds env = some creds → granted curl creds = some answer →
      Document (.object ms) answer.body ∧ answer.body.length < 2 ^ 31)
    (hshort : ShortDocument ms) (httpOpenHdrs : List Byte → List (List Byte) → Option α)
    (filename : CString) :
    Yields (swiftOpen curl env httpOpenHdrs filename)
      (.ok ((swiftPath filename).bind fun path => (access curl env ms).bind fun a =>
        httpOpenHdrs (a.2 ++ 0x2f :: path) [buildAuthTokenHdr a.1])) := by
  rw [swiftPath_eq]
  cases hparse : parseSwifturl filename with
  | none =>
    -- nobody is asked for a token
    refine ⟨0, fun fuel _ => ?_⟩
    simp only [swiftOpen, hparse]
    rfl
  | some r =>
    obtain ⟨container, object⟩ := r
    exact swiftOpen_of_parse hserver hshort httpOpenHdrs hparse

end Open

/-! ## An object of a container -/

/-- A string of the source. -/
def cstr (word : String) (h : 0 ∉ letters word) : CString := ⟨letters word, h⟩

/-- The credentials are set, and the domain is not. -/
def shortEnv : Environ := fun name =>
  if name = "OS_AUTH_URL" then some (cstr "u" (by decide))
  else if name = "OS_USERNAME" then some (cstr "n" (by decide))
  else if name = "OS_PASSWORD" then some (cstr "p" (by decide))
  else if name = "OS_PROJECT_NAME" then some (cstr "r" (by decide))
  else none

/-- The server creates the token `t`, and its body comes in two pieces. -/
def shortCurl : Curl where
  easyInit := true
  setopt := true
  perform _ :=
    { ok := true
      deliveries := [.body (shortAnswer.take 20), .header (tokenHdr ++ [0x74, 0x0d, 0x0a]),
        .body (shortAnswer.drop 20)]
      responseCode := 201 }

theorem shortDocument_shortMembers : ShortDocument shortMembers := by
  unfold ShortDocument ShortEntry ShortEndpoint
  decide

theorem shortCurl_document (creds : AuthCreds) (answer : Answer)
    (_ : envCreds shortEnv = some creds) (hgranted : granted shortCurl creds = some answer) :
    Document (.object shortMembers) answer.body ∧ answer.body.length < 2 ^ 31 := by
  obtain ⟨request, _, rfl⟩ := Option.map_eq_some_iff.mp (grants_of_granted hgranted).perform
  have hbody : (shortCurl.perform request).body = shortAnswer := rfl
  rw [hbody]
  exact ⟨document_shortAnswer, by decide⟩

theorem swiftOpen_request_short :
    Yields (swiftOpen shortCurl shortEnv (fun url hdrs => some (url, hdrs))
        (cstr "swift://c/o" (by decide)))
      (.ok (some (letters "a/c/o", [letters "X-Auth-Token: t"]))) := by
  have hopen := swiftOpen_request shortCurl_document shortDocument_shortMembers
    (fun url hdrs => some (url, hdrs)) (cstr "swift://c/o" (by decide))
  have hresult : ((swiftPath (cstr "swift://c/o" (by decide))).bind fun path =>
      (access shortCurl shortEnv shortMembers).bind fun a =>
        some (a.2 ++ 0x2f :: path, [buildAuthTokenHdr a.1])) =
      some (letters "a/c/o", [letters "X-Auth-Token: t"]) := by
    decide +kernel
  rw [hresult] at hopen
  exact hopen

end Wandio.SwiftReader
