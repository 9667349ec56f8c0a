import Wandio.Keystone.RequestModel
import Wandio.Utils.JsonTextTheorems

/-!
# The request is a JSON document

The body of the request is the document that it is to be exactly if no quotation mark, no reverse
solidus and no control character is among the credentials: whatever else a credential holds, the
machine that reads JSON goes through the template as it does for any other.
-/

namespace Wandio.Keystone

open JsonText

/-! ## Texts -/

/-- The bytes of a text. -/
def utf8 (text : List Char) : List Byte := text.flatMap String.utf8EncodeChar

/-- A text that a string of C can hold. -/
structure Text where
  chars : List Char
  noZero : '\x00' ∉ chars

/-- The encoding of a text is that of its parts. -/
theorem utf8_append (s t : List Char) : utf8 (s ++ t) = utf8 s ++ utf8 t := List.flatMap_append

/-- A text can be told from its encoding. -/
theorem utf8_injective {s t : List Char} (h : utf8 s = utf8 t) : s = t := by
  have hdecode : s.utf8Encode.utf8Decode? = t.utf8Encode.utf8Decode? := by
    unfold List.utf8Encode
    exact congrArg (fun bytes => bytes.toByteArray.utf8Decode?) h
  rw [List.utf8Decode?_utf8Encode, List.utf8Decode?_utf8Encode] at hdecode
  exact congrArg Array.toList (Option.some.inj hdecode)

theorem ofNat_ne_zero {n : ℕ} (hpos : 0 < n) (hlt : n < 256) : 0 ≠ UInt8.ofNat n := by
  intro h
  have hn : (UInt8.ofNat n).toNat = 0 := h ▸ rfl
  rw [UInt8.toNat_ofNat_of_lt' hlt] at hn
  omega

/-- Only the character zero is encoded with a byte zero. -/
theorem eq_zero_of_mem {c : Char} (h : 0 ∈ String.utf8EncodeChar c) : c = '\x00' := by
  unfold String.utf8EncodeChar at h
  simp only at h
  split at h
  · rename_i hlow
    rw [List.mem_singleton] at h
    by_contra hc
    exact ofNat_ne_zero (Nat.pos_of_ne_zero fun hzero => hc (Char.toNat_inj.mp hzero))
      (Nat.lt_of_le_of_lt hlow (by decide)) h
  split at h
  · simp only [List.mem_cons, List.not_mem_nil, or_false] at h
    rcases h with h | h <;> exact absurd h (ofNat_ne_zero (by omega) (by omega))
  split at h
  · simp only [List.mem_cons, List.not_mem_nil, or_false] at h
    rcases h with h | h | h <;> exact absurd h (ofNat_ne_zero (by omega) (by omega))
  · simp only [List.mem_cons, List.not_mem_nil, or_false] at h
    rcases h with h | h | h | h <;> exact absurd h (ofNat_ne_zero (by omega) (by omega))

/-- The string of C that is a text. -/
def Text.encode (t : Text) : CString where
  bytes := utf8 t.chars
  noZero h := by
    obtain ⟨c, hc, hzero⟩ := List.mem_flatMap.mp h
    exact t.noZero (eq_zero_of_mem hzero ▸ hc)

/-- The credentials of a user, as texts. -/
structure Identity where
  username : Text
  password : Text
  project : Text
  domainId : Text

def Identity.creds (i : Identity) (authUrl : CString) : AuthCreds :=
  ⟨authUrl, i.username.encode, i.password.encode, i.project.encode, i.domainId.encode⟩

/-! ## The document -/

section

variable (i : Identity)

def domainMembers : List (List Char × (Value → Prop)) :=
  [("id".toList, (· = .string i.domainId.chars))]

def userMembers : List (List Char × (Value → Prop)) :=
  [("name".toList, (· = .string i.username.chars)),
   ("domain".toList, IsObject (domainMembers i)),
   ("password".toList, (· = .string i.password.chars))]

def identityMembers : List (List Char × (Value → Prop)) :=
  [("methods".toList, (· = .array [.string "password".toList])),
   ("password".toList, IsObject [("user".toList, IsObject (userMembers i))])]

def projectMembers : List (List Char × (Value → Prop)) :=
  [("domain".toList, IsObject (domainMembers i)),
   ("name".toList, (· = .string i.project.chars))]

def authMembers : List (List Char × (Value → Prop)) :=
  [("identity".toList, IsObject (identityMembers i)),
   ("scope".toList, IsObject [("project".toList, IsObject (projectMembers i))])]

/-- The document with the members of the template and the strings of the credentials. -/
def AuthDocument : Value → Prop := IsObject [("auth".toList, IsObject (authMembers i))]

end

/-- The body is a JSON text, and its value is the document for the credentials. -/
def Faithful (i : Identity) (body : List Byte) : Prop :=
  ∃ text v, body = utf8 text ∧ JsonText.read text = some v ∧ AuthDocument i v

/-- No character of a credential has a meaning of its own in a JSON string. -/
def Identity.Plain (i : Identity) : Prop :=
  JsonText.Plain i.username.chars ∧ JsonText.Plain i.domainId.chars ∧
    JsonText.Plain i.password.chars ∧ JsonText.Plain i.project.chars

instance (i : Identity) : Decidable i.Plain :=
  inferInstanceAs (Decidable (JsonText.Plain _ ∧ JsonText.Plain _ ∧ JsonText.Plain _ ∧
    JsonText.Plain _))

/-! ## The template -/

/-- The template between the credentials. -/
def beforeUsername : List Char :=
  ["\x7b",
   "  \"auth\": \x7b",
   "    \"identity\": \x7b",
   "      \"methods\": [\"password\"],",
   "      \"password\": \x7b",
   "        \"user\": \x7b",
   "          \"name\": \""].flatMap String.toList

def beforeUserDomain : List Char :=
  ["\",",
   "          \"domain\": \x7b \"id\": \""].flatMap String.toList

def beforePassword : List Char :=
  ["\" \x7d,",
   "          \"password\": \""].flatMap String.toList

def beforeProjectDomain : List Char :=
  ["\"",
   "        \x7d",
   "      \x7d",
   "    \x7d,",
   "    \"scope\": \x7b",
   "      \"project\": \x7b",
   "        \"domain\": \x7b \"id\": \""].flatMap String.toList

def beforeProject : List Char :=
  ["\" \x7d,",
   "        \"name\": \""].flatMap String.toList

def behindProject : List Char :=
  ["\"",
   "      \x7d",
   "    \x7d",
   "  \x7d",
   "\x7d"].flatMap String.toList

set_option maxRecDepth 4000 in
/-- The template in pieces: a hole for each of the five strings. -/
theorem authReqTmpl_eq :
    authReqTmpl = beforeUsername ++ '%' :: 's' :: (beforeUserDomain ++ '%' :: 's' ::
      (beforePassword ++ '%' :: 's' :: (beforeProjectDomain ++ '%' :: 's' ::
      (beforeProject ++ '%' :: 's' :: (behindProject ++ []))))) := by
  rfl

/-- The text of the request. -/
def requestText (i : Identity) : List Char :=
  beforeUsername ++ (i.username.chars ++ (beforeUserDomain ++ (i.domainId.chars ++
    (beforePassword ++ (i.password.chars ++ (beforeProjectDomain ++ (i.domainId.chars ++
    (beforeProject ++ (i.project.chars ++ (behindProject ++ []))))))))))

section

variable {text tmpl : List Char} {arg : Text} {args : List CString}

/-- A part of the template without a hole is copied. -/
theorem formatted_text (h : '%' ∉ text) :
    formatted (text ++ tmpl) args = utf8 text ++ formatted tmpl args := by
  induction text with
  | nil => rfl
  | cons c text ih =>
    rw [List.mem_cons, not_or] at h
    rw [List.cons_append, formatted, ih h.2]
    · exact (List.append_assoc ..).symm
    · intro tmpl' arg args' _ hc
      exact absurd hc.symm h.1

/-- A hole is filled by the next argument. -/
theorem formatted_string (h : '%' ∉ text) :
    formatted (text ++ '%' :: 's' :: tmpl) (arg.encode :: args) =
      utf8 text ++ (utf8 arg.chars ++ formatted tmpl args) := formatted_text h

end

/-! ## The machine on the template -/

section

variable (u d p r : List Char)

/-- The arrays and objects around the string of a user. -/
def userFrames (members : List (List Char × Value)) (name : List Char) : List Frame :=
  [.object members (some name),
   .object [] (some "user".toList),
   .object [("methods".toList, .array [.string "password".toList])] (some "password".toList),
   .object [] (some "identity".toList),
   .object [] (some "auth".toList)]

/-- The object of a domain. -/
def domainValue : Value := .object [("id".toList, .string d)]

/-- The object of a user. -/
def userValue : Value :=
  .object [("name".toList, .string u), ("domain".toList, domainValue d),
    ("password".toList, .string p)]

def identityValue : Value :=
  .object [("methods".toList, .array [.string "password".toList]),
    ("password".toList, .object [("user".toList, userValue u d p)])]

/-- The arrays and objects around the strings of a project. -/
def projectFrames (members : List (List Char × Value)) (name : List Char) : List Frame :=
  [.object members (some name),
   .object [] (some "project".toList),
   .object [("identity".toList, identityValue u d p)] (some "scope".toList),
   .object [] (some "auth".toList)]

def projectValue : Value :=
  .object [("domain".toList, domainValue d), ("name".toList, .string r)]

/-- The document. -/
def requestValue : Value :=
  .object [("auth".toList, .object [("identity".toList, identityValue u d p),
    ("scope".toList, .object [("project".toList, projectValue d r)])])]

def userHole : List Frame := userFrames [] "name".toList

def userDomainHole : List Frame :=
  .object [] (some "id".toList) :: userFrames [("name".toList, .string u)] "domain".toList

def passwordHole : List Frame :=
  userFrames [("name".toList, .string u), ("domain".toList, domainValue d)] "password".toList

def projectDomainHole : List Frame :=
  .object [] (some "id".toList) :: projectFrames u d p [] "domain".toList

def projectHole : List Frame :=
  projectFrames u d p [("domain".toList, domainValue d)] "name".toList

set_option maxRecDepth 10000 in
theorem run_beforeUsername :
    run ⟨[], .value⟩ beforeUsername = some ⟨userHole, .literal false .start⟩ := by
  rfl

set_option maxRecDepth 10000 in
theorem run_beforeUserDomain :
    run ⟨userHole, .literal false ⟨u, .none⟩⟩ beforeUserDomain =
      some ⟨userDomainHole u, .literal false .start⟩ := by
  rfl

set_option maxRecDepth 10000 in
theorem run_beforePassword :
    run ⟨userDomainHole u, .literal false ⟨d, .none⟩⟩ beforePassword =
      some ⟨passwordHole u d, .literal false .start⟩ := by
  rfl

set_option maxRecDepth 10000 in
theorem run_beforeProjectDomain :
    run ⟨passwordHole u d, .literal false ⟨p, .none⟩⟩ beforeProjectDomain =
      some ⟨projectDomainHole u d p, .literal false .start⟩ := by
  rfl

set_option maxRecDepth 10000 in
theorem run_beforeProject :
    run ⟨projectDomainHole u d p, .literal false ⟨d, .none⟩⟩ beforeProject =
      some ⟨projectHole u d p, .literal false .start⟩ := by
  rfl

set_option maxRecDepth 10000 in
theorem run_behindProject :
    run ⟨projectHole u d p, .literal false ⟨r, .none⟩⟩ behindProject =
      some ⟨[], .done (requestValue u d p r)⟩ := by
  rfl

end

/-! ## The body -/

section

variable {i : Identity} {creds : AuthCreds} {authUrl : CString} {body : List Byte} {v : Value}

/-- A body that fits into the buffer is formatted whole. -/
theorem snprintf_of_lt {tmpl : List Char} {args : List CString}
    (h : (formatted tmpl args).length < buflen) :
    snprintf tmpl args = some (formatted tmpl args) := if_neg (Nat.not_le_of_lt h)

/-- What `snprintf` writes is the whole formatted text. -/
theorem eq_formatted {tmpl : List Char} {args : List CString}
    (h : snprintf tmpl args = some body) : body = formatted tmpl args := by
  unfold snprintf at h
  split at h
  · cases h
  · exact (Option.some.inj h).symm

/-- The body is the one with the credentials between the quotation marks. -/
theorem authReqBody_eq (h : authReqBody (i.creds authUrl) = some body) :
    body = utf8 (requestText i) := by
  rw [eq_formatted h, authReqTmpl_eq, Identity.creds, formatted_string (by decide),
    formatted_string (by decide), formatted_string (by decide), formatted_string (by decide),
    formatted_string (by decide), formatted_text (by decide), requestText]
  simp only [utf8_append]
  rfl

/-- The document if every character of the credentials stands for itself. -/
theorem read_requestText (h : i.Plain) :
    JsonText.read (requestText i) =
      some (requestValue i.username.chars i.domainId.chars i.password.chars i.project.chars) := by
  obtain ⟨husername, hdomain, hpassword, hproject⟩ := h
  rw [JsonText.read, requestText, run_append, run_beforeUsername, Option.bind_some,
    run_string husername (run_beforeUserDomain ..), run_string hdomain (run_beforePassword ..),
    run_string hpassword (run_beforeProjectDomain ..), run_string hdomain (run_beforeProject ..),
    run_string hproject (run_behindProject ..)]
  rfl

/-- The value with the credentials in it is the request that is asked for. -/
theorem authDocument_requestValue :
    AuthDocument i
      (requestValue i.username.chars i.domainId.chars i.password.chars i.project.chars) := by
  have hdomain : IsObject (domainMembers i) (domainValue i.domainId.chars) := isObject_single rfl
  have huser : IsObject (userMembers i)
      (userValue i.username.chars i.domainId.chars i.password.chars) :=
    isObject_object (by simp [userMembers])
      (.cons ⟨rfl, rfl⟩ (.cons ⟨rfl, hdomain⟩ (.cons ⟨rfl, rfl⟩ .nil)))
  have hidentity : IsObject (identityMembers i)
      (identityValue i.username.chars i.domainId.chars i.password.chars) :=
    isObject_object (by simp [identityMembers])
      (.cons ⟨rfl, rfl⟩ (.cons ⟨rfl, isObject_single huser⟩ .nil))
  have hproject : IsObject (projectMembers i)
      (projectValue i.domainId.chars i.project.chars) :=
    isObject_object (by simp [projectMembers])
      (.cons ⟨rfl, hdomain⟩ (.cons ⟨rfl, rfl⟩ .nil))
  apply isObject_single
  exact isObject_object (by simp [authMembers])
    (.cons ⟨rfl, hidentity⟩ (.cons ⟨rfl, isObject_single hproject⟩ .nil))

section Holes

variable {members : List (List Char × Value)} {name : List Char} {Q : Value → Prop}
  {u d p : List Char}

/-- In a request the value of `auth` is an object with the members that are asked for. -/
theorem forces_auth :
    Forces [.object members (some "auth".toList)] (AuthDocument i) (IsObject (authMembers i)) :=
  Forces.document.member (List.mem_cons_self ..)

/-- What is to be in the object of the user. -/
theorem forces_user (hmem : (name, Q) ∈ userMembers i) :
    Forces (userFrames members name) (AuthDocument i) Q := by
  apply Forces.member (M := userMembers i) _ hmem
  apply Forces.member (M := [("user".toList, IsObject (userMembers i))]) _
    (List.mem_cons_self ..)
  apply Forces.member (M := identityMembers i) _ (List.mem_cons_of_mem _ (List.mem_cons_self ..))
  exact forces_auth.member (List.mem_cons_self ..)

/-- What is to be in the object of the project. -/
theorem forces_project (hmem : (name, Q) ∈ projectMembers i) :
    Forces (projectFrames u d p members name) (AuthDocument i) Q := by
  apply Forces.member (M := projectMembers i) _ hmem
  apply Forces.member (M := [("project".toList, IsObject (projectMembers i))]) _
    (List.mem_cons_self ..)
  exact forces_auth.member (List.mem_cons_of_mem _ (List.mem_cons_self ..))

end Holes

/-! ## What is behind a credential -/

section

variable {piece a t text : List Char}

/-- A piece of the template ends the string before it. -/
theorem closes_piece (ha : Plain a) (h : piece = quotationMark :: (a ++ quotationMark :: t)) :
    Closes (piece ++ text) := by
  refine ⟨a, ha, .inr ⟨t ++ text, ?_⟩⟩
  rw [h, List.cons_append, List.append_assoc, List.cons_append]

theorem closes_beforeUserDomain : Closes (beforeUserDomain ++ text) :=
  closes_piece (a := ",          ".toList) (by decide) rfl

theorem closes_beforePassword : Closes (beforePassword ++ text) :=
  closes_piece (a := " \x7d,          ".toList) (by decide) rfl

theorem closes_beforeProjectDomain : Closes (beforeProjectDomain ++ text) :=
  closes_piece (a := "        \x7d      \x7d    \x7d,    ".toList) (by decide) rfl

theorem closes_behindProject : Closes (behindProject ++ []) :=
  ⟨"      \x7d    \x7d  \x7d\x7d".toList, by decide, .inl rfl⟩

end

/-- Up to a credential the machine is where it is to be, and so the credential is what it reads. -/
theorem plain_of_read (hread : JsonText.read (requestText i) = some v) (h : AuthDocument i v) :
    i.Plain := by
  rw [JsonText.read, requestText, run_append, run_beforeUsername, Option.bind_some] at hread
  have husername : Plain i.username.chars :=
    (forces_user (List.mem_cons_self ..)).plain closes_beforeUserDomain h hread
  rw [run_string husername (run_beforeUserDomain ..)] at hread
  have hdomain : Plain i.domainId.chars :=
    ((forces_user (List.mem_cons_of_mem _ (List.mem_cons_self ..))).member
      (List.mem_cons_self ..)).plain closes_beforePassword h hread
  rw [run_string hdomain (run_beforePassword ..)] at hread
  have hpassword : Plain i.password.chars :=
    (forces_user (by simp [userMembers])).plain closes_beforeProjectDomain h hread
  rw [run_string hpassword (run_beforeProjectDomain ..),
    run_string hdomain (run_beforeProject ..)] at hread
  have hproject : Plain i.project.chars :=
    (forces_project (by simp [projectMembers])).plain closes_behindProject h hread
  exact ⟨husername, hdomain, hpassword, hproject⟩

/-- Only for credentials without a character that ends a string or is escaped does the body say
what it should. -/
theorem plain_of_faithful (hbody : authReqBody (i.creds authUrl) = some body)
    (h : Faithful i body) : i.Plain := by
  obtain ⟨text, v, htext, hread, hdocument⟩ := h
  rw [authReqBody_eq hbody] at htext
  rw [← utf8_injective htext] at hread
  exact plain_of_read hread hdocument

/-- The body is the document for the credentials exactly if each of their characters stands for
itself. -/
theorem faithful_iff (hbody : authReqBody (i.creds authUrl) = some body) :
    Faithful i body ↔ i.Plain := by
  constructor
  · exact plain_of_faithful hbody
  · intro h
    exact ⟨_, _, authReqBody_eq hbody, read_requestText h, authDocument_requestValue⟩

end

/-! ## Two requests -/

/-- The credentials of a user, with an `a` for each of the others. -/
def identityOf (username : Text) : Identity :=
  ⟨username, ⟨['a'], by decide⟩, ⟨['a'], by decide⟩, ⟨['a'], by decide⟩⟩

def emptyUrl : CString := ⟨[], nofun⟩

set_option maxRecDepth 10000 in
theorem authReqBody_letters :
    authReqBody ((identityOf ⟨['a'], by decide⟩).creds emptyUrl) =
      some (formatted authReqTmpl (List.replicate 5 ⟨[97], by decide⟩)) :=
  snprintf_of_lt (by decide)

set_option maxRecDepth 10000 in
theorem authReqBody_quotationMark :
    authReqBody ((identityOf ⟨[quotationMark], by decide⟩).creds emptyUrl) =
      some (formatted authReqTmpl (⟨[34], by decide⟩ :: List.replicate 4 ⟨[97], by decide⟩)) :=
  snprintf_of_lt (by decide)

theorem faithful_letters :
    Faithful (identityOf ⟨['a'], by decide⟩)
      (formatted authReqTmpl (List.replicate 5 ⟨[97], by decide⟩)) :=
  (faithful_iff authReqBody_letters).mpr (by decide)

/-- With a quotation mark in the name of the user the body is not the document for it. -/
theorem not_faithful_quotationMark :
    ¬ ∀ (i : Identity) (authUrl : CString) (body : List Byte),
      authReqBody (i.creds authUrl) = some body → Faithful i body := by
  intro h
  have hplain := plain_of_faithful authReqBody_quotationMark (h _ _ _ authReqBody_quotationMark)
  exact (hplain.1 quotationMark (List.mem_cons_self ..)).1 rfl

end Wandio.Keystone
