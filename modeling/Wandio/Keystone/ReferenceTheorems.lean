import Mathlib.Data.List.Forall2
import Wandio.Jsmn.LayoutTheorems
import Wandio.Keystone.Model

/-!
# What the answer says

The storage url as it is read off the JSON value of an answer: the url of the last public endpoint
of the first entry for an object store. Of every object only the values of certain keys count, so
the other keys do not matter, nor the order of keys that are distinct.
-/

namespace Wandio.Keystone

open Jsmn

abbrev Members := List (List Byte × Json)

/-- The values of the members with the key `k`, in their order. -/
def valuesOf (k : List Byte) (ms : Members) : List Json :=
  (ms.filter fun m => m.1 = k).map Prod.snd

def isString : Json → Bool
  | .string _ => true
  | _ => false

/-- The letters of a string. -/
def text : Json → List Byte
  | .string s => s
  | _ => []

/-- The value is the string `s`. -/
def isText (s : List Byte) (v : Json) : Bool := isString v && text v = s

/-- The elements of an array. -/
def elemsOf : Json → List Json
  | .array vs => vs
  | _ => []

def isArray : Json → Bool
  | .array _ => true
  | _ => false

/-- The members of an object. -/
def membersOf : Json → Members
  | .object ms => ms
  | _ => []

def isObject : Json → Bool
  | .object _ => true
  | _ => false

/-! ## Endpoints -/

/-- An endpoint that is not an object, or whose interface or url is not a string. -/
def badEndpoint (v : Json) : Bool :=
  !isObject v || (valuesOf interfaceName (membersOf v)).any (!isString ·) ||
    (valuesOf urlName (membersOf v)).any (!isString ·)

def publicEndpoint (v : Json) : Bool :=
  (valuesOf interfaceName (membersOf v)).any (isText publicValue)

def endpointUrl (v : Json) : List Byte :=
  ((valuesOf urlName (membersOf v)).map text).getLast?.getD []

/-! ## Entries of the catalog -/

/-- The endpoints of an entry. -/
def endpointsOf (ms : Members) : List Json := (valuesOf endpointsName ms).flatMap elemsOf

/-- The entry is for an object store. -/
def isStore (v : Json) : Bool := (valuesOf typeName (membersOf v)).any (isText objectStoreValue)

/-- The url of the last public endpoint of some. -/
def lastUrl (vs : List Json) : List Byte :=
  ((vs.filter publicEndpoint).map endpointUrl).getLast?.getD []

def entryUrl (v : Json) : List Byte := lastUrl (endpointsOf (membersOf v))

/-- An entry whose values are of a wrong type, or an object store without a url. -/
def badEntry (v : Json) : Bool :=
  !isObject v || (valuesOf typeName (membersOf v)).any (!isString ·) ||
    ((valuesOf endpointsName (membersOf v)).any fun w =>
      !isArray w || (elemsOf w).any badEndpoint) ||
    isStore v && entryUrl v = []

/-! ## The answer -/

/-- The entries of the catalogs of a token. -/
def entriesOf (ms : Members) : List Json := (valuesOf catalogName ms).flatMap elemsOf

/-- The entries of an answer. -/
def documentEntries (ms : Members) : List Json :=
  (valuesOf tokenName ms).flatMap fun v => entriesOf (membersOf v)

/-- A token that is not an object, or a catalog in it that is not an array of good entries. -/
def badToken (v : Json) : Bool :=
  !isObject v ||
    (valuesOf catalogName (membersOf v)).any fun w => !isArray w || (elemsOf w).any badEntry

/-- Some value that counts is of a wrong type, or an object store has no url. -/
def badDocument (ms : Members) : Bool := (valuesOf tokenName ms).any badToken

/-- The url of the first object store of some entries. -/
def firstStore (vs : List Json) : Option (List Byte) := ((vs.filter isStore).map entryUrl).head?

/-- The storage url of an answer. -/
def documentUrl (ms : Members) : Option (List Byte) := firstStore (documentEntries ms)

/-! ## The order of the keys -/

/-- The members are in another order, which matters only for keys that are not distinct, or differ
in keys that are not among the names. -/
inductive Rearranged (names : List (List Byte)) : Members → Members → Prop where
  | order {ms ms' : Members} (h : ms.Perm ms') (hnodup : (ms.map Prod.fst).Nodup) :
    Rearranged names ms ms'
  | unrelated {ms ms' : Members}
    (h : (ms.filter fun m => m.1 ∈ names) = ms'.filter fun m => m.1 ∈ names) :
    Rearranged names ms ms'
  | trans {ms ms' ms'' : Members} (h : Rearranged names ms ms') (h' : Rearranged names ms' ms'') :
    Rearranged names ms ms''

/-- Endpoints that say the same. -/
inductive EndpointAlike : Json → Json → Prop where
  | refl (v : Json) : EndpointAlike v v
  | object {ms ms' : Members} (h : Rearranged [interfaceName, urlName] ms ms') :
    EndpointAlike (.object ms) (.object ms')

/-- Values of which an array has elements that say the same. -/
inductive ArrayAlike (R : Json → Json → Prop) : Json → Json → Prop where
  | refl (v : Json) : ArrayAlike R v v
  | array {vs vs' : List Json} (h : List.Forall₂ R vs vs') : ArrayAlike R (.array vs) (.array vs')

/-- Members with the same keys, of which those with the key `k` say the same, and the others are
the same. -/
def MembersAlike (k : List Byte) (R : Json → Json → Prop) : Members → Members → Prop :=
  List.Forall₂ fun m m' => m.1 = m'.1 ∧ if m.1 = k then R m.2 m'.2 else m.2 = m'.2

/-- Entries that say the same. -/
inductive EntryAlike : Json → Json → Prop where
  | refl (v : Json) : EntryAlike v v
  | object {ms ms' ms'' : Members} (h : Rearranged [typeName, endpointsName] ms ms')
    (halike : MembersAlike endpointsName (ArrayAlike EndpointAlike) ms' ms'') :
    EntryAlike (.object ms) (.object ms'')

/-- Tokens that say the same. -/
inductive TokenAlike : Json → Json → Prop where
  | refl (v : Json) : TokenAlike v v
  | object {ms ms' ms'' : Members} (h : Rearranged [catalogName] ms ms')
    (halike : MembersAlike catalogName (ArrayAlike EntryAlike) ms' ms'') :
    TokenAlike (.object ms) (.object ms'')

/-- Answers that say the same. -/
def DocumentAlike (ms ms'' : Members) : Prop :=
  ∃ ms', Rearranged [tokenName] ms ms' ∧ MembersAlike tokenName TokenAlike ms' ms''

section Alike

variable {names : List (List Byte)} {k : List Byte} {ms ms' ms'' : Members} {v v' : Json}
  {R : Json → Json → Prop}

/-- There is only one order of at most one thing. -/
theorem eq_of_perm_of_length_le {α : Type} {l l' : List α} (h : l.Perm l') (hlen : l.length ≤ 1) :
    l = l' := by
  cases l with
  | nil => exact (List.nil_perm.mp h).symm
  | cons a l =>
    obtain rfl := List.eq_nil_of_length_eq_zero (Nat.le_zero.mp (Nat.le_of_succ_le_succ hlen))
    exact (List.singleton_perm.mp h)

/-- What a reordering or unrelated keys leave as it is. -/
theorem Rearranged.valuesOf (h : Rearranged names ms ms') (hk : k ∈ names) :
    valuesOf k ms = valuesOf k ms' := by
  induction h with
  | @order ms ms' h hnodup =>
    -- of distinct keys only one is `k`
    have hone : (ms.filter fun m => m.1 = k).length ≤ 1 := by
      have hkeys : ((ms.filter fun m => m.1 = k).map Prod.fst).Nodup :=
        hnodup.sublist (List.filter_sublist.map Prod.fst)
      have hconst : (ms.filter fun m => m.1 = k).map Prod.fst =
          List.replicate (ms.filter fun m => m.1 = k).length k := by
        rw [List.eq_replicate_iff]
        refine ⟨List.length_map .., ?_⟩
        intro b hb
        obtain ⟨m, hm, rfl⟩ := List.mem_map.mp hb
        simpa using (List.mem_filter.mp hm).2
      rw [hconst, List.nodup_replicate] at hkeys
      exact hkeys
    have hperm := h.filter fun m => m.1 = k
    unfold Keystone.valuesOf
    congr 1
    exact eq_of_perm_of_length_le hperm hone
  | @unrelated ms ms' h =>
    have hfilter : ∀ ms : Members,
        (ms.filter fun m => m.1 = k) =
          (ms.filter fun m => m.1 ∈ names).filter fun m => m.1 = k := by
      intro ms
      rw [List.filter_filter]
      apply List.filter_congr
      intro m _
      by_cases hm : m.1 = k
      · simp [hm, hk]
      · simp [hm]
    unfold Keystone.valuesOf
    rw [hfilter ms, hfilter ms', h]
  | trans _ _ ih ih' => exact ih.trans ih'

example (s : List Byte) :
    EndpointAlike (.object [(urlName, .string s), (interfaceName, .string publicValue)])
      (.object [(interfaceName, .string publicValue), (urlName, .string s)]) :=
  .object (.order (.swap ..) (show [urlName, interfaceName].Nodup by decide))

/-- The values of the key that may differ are alike. -/
theorem MembersAlike.valuesOf_self (h : MembersAlike k R ms ms') :
    List.Forall₂ R (Keystone.valuesOf k ms) (Keystone.valuesOf k ms') := by
  induction h with
  | nil => exact .nil
  | @cons m m' ms ms' hm _ ih =>
    obtain ⟨hkey, hvalue⟩ := hm
    unfold Keystone.valuesOf at ih ⊢
    by_cases hk : m.1 = k
    · rw [if_pos hk] at hvalue
      rw [List.filter_cons_of_pos (by simpa using hk),
        List.filter_cons_of_pos (by simpa [← hkey] using hk)]
      exact .cons hvalue ih
    · rw [List.filter_cons_of_neg (by simpa using hk),
        List.filter_cons_of_neg (by simpa [← hkey] using hk)]
      exact ih

/-- The values of the other keys are the same. -/
theorem MembersAlike.valuesOf_ne {k' : List Byte} (h : MembersAlike k R ms ms') (hne : k' ≠ k) :
    Keystone.valuesOf k' ms = Keystone.valuesOf k' ms' := by
  induction h with
  | nil => rfl
  | @cons m m' ms ms' hm _ ih =>
    obtain ⟨hkey, hvalue⟩ := hm
    unfold Keystone.valuesOf at ih ⊢
    by_cases hk : m.1 = k'
    · rw [if_neg (by rw [hk]; exact hne)] at hvalue
      rw [List.filter_cons_of_pos (by simpa using hk),
        List.filter_cons_of_pos (by simpa [← hkey] using hk), List.map_cons, List.map_cons, ih,
        hvalue]
    · rw [List.filter_cons_of_neg (by simpa using hk),
        List.filter_cons_of_neg (by simpa [← hkey] using hk)]
      exact ih

/-- What is the same for two values is the same for two lists of such. -/
theorem any_eq_of_forall₂ {vs vs' : List Json} {p : Json → Bool} (h : List.Forall₂ R vs vs')
    (hp : ∀ v v', R v v' → p v = p v') : vs.any p = vs'.any p := by
  induction h with
  | nil => rfl
  | cons hv _ ih => rw [List.any_cons, List.any_cons, hp _ _ hv, ih]

/-- Of values that are alike the same is found. -/
theorem filter_map_eq_of_forall₂ {α : Type} {vs vs' : List Json} {p : Json → Bool} {g : Json → α}
    (h : List.Forall₂ R vs vs') (hp : ∀ v v', R v v' → p v = p v')
    (hg : ∀ v v', R v v' → g v = g v') : (vs.filter p).map g = (vs'.filter p).map g := by
  induction h with
  | nil => rfl
  | @cons v v' vs vs' hv _ ih =>
    rw [List.filter_cons, List.filter_cons, hp _ _ hv]
    split
    · rw [List.map_cons, List.map_cons, hg _ _ hv, ih]
    · exact ih

/-- Alike arrays are both arrays, or neither is one. -/
theorem ArrayAlike.isArray (h : ArrayAlike R v v') : isArray v = isArray v' := by
  cases h <;> rfl

/-- The elements of alike arrays are alike. -/
theorem ArrayAlike.elemsOf (h : ArrayAlike R v v') (hrefl : ∀ v, R v v) :
    List.Forall₂ R (elemsOf v) (elemsOf v') := by
  cases h with
  | refl v => exact List.forall₂_same.mpr fun v _ => hrefl v
  | array h => exact h

/-- The elements of alike arrays are alike one after the other. -/
theorem forall₂_flatMap {ws ws' : List Json} (h : List.Forall₂ (ArrayAlike R) ws ws')
    (hrefl : ∀ v, R v v) : List.Forall₂ R (ws.flatMap elemsOf) (ws'.flatMap elemsOf) := by
  induction h with
  | nil => exact .nil
  | cons hw _ ih =>
    rw [List.flatMap_cons, List.flatMap_cons]
    exact List.rel_append (hw.elemsOf hrefl) ih

/-- Endpoints that say the same. -/
theorem EndpointAlike.eq (h : EndpointAlike v v') :
    badEndpoint v = badEndpoint v' ∧ publicEndpoint v = publicEndpoint v' ∧
      endpointUrl v = endpointUrl v' := by
  cases h with
  | refl v => exact ⟨rfl, rfl, rfl⟩
  | @object ms ms' h =>
    have hinterface := h.valuesOf (k := interfaceName) (by simp)
    have hurl := h.valuesOf (k := urlName) (by simp)
    refine ⟨?_, ?_, ?_⟩
    · simp only [badEndpoint, membersOf, hinterface, hurl, isObject]
    · simp only [publicEndpoint, membersOf, hinterface]
    · simp only [endpointUrl, membersOf, hurl]

/-- Entries that say the same. -/
theorem EntryAlike.eq (h : EntryAlike v v') :
    badEntry v = badEntry v' ∧ isStore v = isStore v' ∧ entryUrl v = entryUrl v' := by
  cases h with
  | refl v => exact ⟨rfl, rfl, rfl⟩
  | @object ms ms' ms'' h halike =>
    have htype : valuesOf typeName ms = valuesOf typeName ms'' :=
      (h.valuesOf (by simp)).trans (halike.valuesOf_ne (by decide))
    have hendpoints : List.Forall₂ (ArrayAlike EndpointAlike) (valuesOf endpointsName ms)
        (valuesOf endpointsName ms'') := by
      rw [h.valuesOf (by simp)]
      exact halike.valuesOf_self
    have hstore : isStore (.object ms) = isStore (.object ms'') := by
      simp only [isStore, membersOf, htype]
    have hurl : entryUrl (.object ms) = entryUrl (.object ms'') := by
      have helems := forall₂_flatMap hendpoints EndpointAlike.refl
      have hmap := filter_map_eq_of_forall₂ helems (fun _ _ h => h.eq.2.1) fun _ _ h => h.eq.2.2
      simp only [entryUrl, lastUrl, endpointsOf, membersOf, hmap]
    refine ⟨?_, hstore, hurl⟩
    have hbad := any_eq_of_forall₂ hendpoints
      (p := fun w => !isArray w || (elemsOf w).any badEndpoint) fun w w' hw => by
        rw [hw.isArray, any_eq_of_forall₂ (hw.elemsOf EndpointAlike.refl) fun _ _ h => h.eq.1]
    simp only [badEntry, hstore, hurl, membersOf, htype, hbad, isObject]

/-- Tokens that say the same. -/
theorem TokenAlike.eq (h : TokenAlike v v') :
    badToken v = badToken v' ∧
      List.Forall₂ EntryAlike (entriesOf (membersOf v)) (entriesOf (membersOf v')) := by
  cases h with
  | refl v => exact ⟨rfl, List.forall₂_same.mpr fun v _ => EntryAlike.refl v⟩
  | @object ms ms' ms'' h halike =>
    have hcatalog : List.Forall₂ (ArrayAlike EntryAlike) (valuesOf catalogName ms)
        (valuesOf catalogName ms'') := by
      rw [h.valuesOf (by simp)]
      exact halike.valuesOf_self
    refine ⟨?_, forall₂_flatMap hcatalog EntryAlike.refl⟩
    have hbad := any_eq_of_forall₂ hcatalog
      (p := fun w => !isArray w || (elemsOf w).any badEntry) fun w w' hw => by
        rw [hw.isArray, any_eq_of_forall₂ (hw.elemsOf EntryAlike.refl) fun _ _ h => h.eq.1]
    simp only [badToken, membersOf, hbad, isObject]

/-- The entries of alike tokens are alike. -/
theorem forall₂_entries {ws ws' : List Json} (h : List.Forall₂ TokenAlike ws ws') :
    List.Forall₂ EntryAlike (ws.flatMap fun v => entriesOf (membersOf v))
      (ws'.flatMap fun v => entriesOf (membersOf v)) := by
  induction h with
  | nil => exact .nil
  | cons hv _ ih =>
    rw [List.flatMap_cons, List.flatMap_cons]
    exact List.rel_append hv.eq.2 ih

/-- Answers that say the same. -/
theorem DocumentAlike.eq (h : DocumentAlike ms ms'') :
    badDocument ms = badDocument ms'' ∧ documentUrl ms = documentUrl ms'' := by
  obtain ⟨ms', h, halike⟩ := h
  have htoken : List.Forall₂ TokenAlike (valuesOf tokenName ms) (valuesOf tokenName ms'') := by
    rw [h.valuesOf (by simp)]
    exact halike.valuesOf_self
  constructor
  · exact any_eq_of_forall₂ htoken fun _ _ h => h.eq.1
  · have hentries : List.Forall₂ EntryAlike (documentEntries ms) (documentEntries ms'') :=
      forall₂_entries htoken
    have hmap := filter_map_eq_of_forall₂ hentries (fun _ _ h => h.eq.2.1) fun _ _ h => h.eq.2.2
    simp only [documentUrl, firstStore, hmap]

end Alike

end Wandio.Keystone
