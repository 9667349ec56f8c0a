import Wandio.CurlHelper.Model

/-!
# How long libcurl is initialised

Whoever opens, reconnects and closes readers in whatever order: libcurl is initialised as long as a
reader is open. A reader takes a use with every connection and gives one back at its close, so
libcurl is cleaned up behind the last reader only if none of them has had to connect again, and
nobody has authenticated.
-/

namespace Wandio.CurlHelper

open Transition

variable {s t : State} {ls : List Label} {n : ℕ}

/-- libcurl is initialised if there are uses. -/
structure Used (s : State) : Prop where
  alive : s.aborted = false
  nonneg : 0 ≤ s.cgInitCnt
  inUse : inUse s.libcurl = some (decide (0 < s.cgInitCnt))

theorem Used.readers (h : Used s) (readers : List ℕ) : Used { s with readers := readers } :=
  ⟨h.alive, h.nonneg, h.inUse⟩

theorem inUse_append (calls : List GlobalCall) (call : GlobalCall) :
    inUse (calls ++ [call]) = (inUse calls).bind fun b => initialised b call := by
  unfold inUse
  rw [List.foldlM_append]
  cases calls.foldlM initialised false with
  | none => rfl
  | some b => exact bind_pure (initialised b call)

theorem safeGlobalInit_spec (h : Used s) (ht : safeGlobalInit s = some t) :
    Used t ∧ t.cgInitCnt = s.cgInitCnt + 1 ∧ t.readers = s.readers := by
  have hnonneg := h.nonneg
  have hinUse := h.inUse
  unfold safeGlobalInit at ht
  split at ht
  · obtain rfl := Option.some.inj ht
    refine ⟨⟨h.alive, ?_, ?_⟩, rfl, rfl⟩
    · show 0 ≤ s.cgInitCnt + 1
      omega
    · show inUse (if s.cgInitCnt = 0 then s.libcurl ++ [.init] else s.libcurl) =
        some (decide (0 < s.cgInitCnt + 1))
      rw [decide_eq_true (by omega)]
      split
      · next hzero =>
        rw [inUse_append, hinUse, decide_eq_false (by omega)]
        rfl
      · next hused => rw [hinUse, decide_eq_true (by omega)]
  · contradiction

theorem safeGlobalCleanup_spec (h : Used s) (hpos : 0 < s.cgInitCnt) :
    Used (safeGlobalCleanup s) ∧ (safeGlobalCleanup s).cgInitCnt = s.cgInitCnt - 1 := by
  have hinUse := h.inUse
  rw [decide_eq_true hpos] at hinUse
  unfold safeGlobalCleanup
  rw [if_neg (by omega)]
  refine ⟨⟨h.alive, ?_, ?_⟩, rfl⟩
  · show 0 ≤ s.cgInitCnt - 1
    omega
  · show inUse (if s.cgInitCnt - 1 = 0 then s.libcurl ++ [.cleanup] else s.libcurl) =
      some (decide (0 < s.cgInitCnt - 1))
    split
    · next hlast =>
      rw [inUse_append, hinUse, decide_eq_false (by omega)]
      rfl
    · next hmore => rw [hinUse, decide_eq_true (by omega)]

/-- The uses are those of the open readers and the `n` that are not given back. -/
structure Counted (s : State) (n : ℕ) : Prop where
  used : Used s
  count : s.cgInitCnt = s.readers.length + n

/-- A step that is no close takes a use, which belongs to a reader that it opens or is kept. -/
theorem Counted.step {l : Label} (h : Counted s n) (hs : step s l = some t) :
    Counted t (n + if l.keeps then 1 else 0) := by
  have hcount := h.count
  unfold CurlHelper.step at hs
  rw [h.used.alive] at hs
  simp only [Bool.false_eq_true, if_false] at hs
  cases l with
  | httpOpen reader =>
    simp only at hs
    split at hs
    · contradiction
    · obtain ⟨u, hu, rfl⟩ := Option.map_eq_some_iff.mp hs
      obtain ⟨hused, hmore, hreaders⟩ := safeGlobalInit_spec h.used hu
      refine ⟨hused.readers _, ?_⟩
      show u.cgInitCnt = ((reader :: u.readers).length : ℤ) + (n + 0 : ℕ)
      rw [hmore, hreaders, List.length_cons]
      omega
  | reconnect reader =>
    simp only at hs
    split at hs
    · obtain ⟨hused, hmore, hreaders⟩ := safeGlobalInit_spec h.used hs
      refine ⟨hused, ?_⟩
      show t.cgInitCnt = (t.readers.length : ℤ) + (n + 1 : ℕ)
      rw [hmore, hreaders]
      omega
    · contradiction
  | httpClose reader =>
    simp only at hs
    split at hs
    · next hmem =>
      obtain rfl := Option.some.inj hs
      have hlen := List.length_erase_of_mem hmem
      have hpos := List.length_pos_of_mem hmem
      obtain ⟨hused, hless⟩ := safeGlobalCleanup_spec h.used (by omega)
      refine ⟨hused.readers _, ?_⟩
      show (safeGlobalCleanup s).cgInitCnt = ((s.readers.erase reader).length : ℤ) + (n + 0 : ℕ)
      rw [hless, hlen]
      omega
    · contradiction
  | keystoneAuthenticate =>
    obtain ⟨hused, hmore, hreaders⟩ := safeGlobalInit_spec h.used hs
    refine ⟨hused, ?_⟩
    show t.cgInitCnt = (t.readers.length : ℤ) + (n + 1 : ℕ)
    rw [hmore, hreaders]
    omega

/-- A run keeps the uses of all its steps that do not give theirs back. -/
theorem Counted.run (h : Counted s n) (hrun : exec system s ls = some t) :
    Counted t (n + ls.countP Label.keeps) := by
  induction ls generalizing s n with
  | nil =>
    obtain rfl := Option.some.inj hrun
    exact h
  | cons l ls ih =>
    rw [exec, Option.bind_eq_some_iff] at hrun
    obtain ⟨u, hu, hrest⟩ := hrun
    have hlast := ih (h.step hu) hrest
    rw [List.countP_cons, Nat.add_comm (ls.countP _), ← Nat.add_assoc]
    exact hlast

/-- In every run: no `assert` fails, libcurl is never initialised twice nor cleaned up twice, it is
initialised as long as a reader is open, and when no reader is open it has been cleaned up exactly
if none has connected again and nobody has authenticated. -/
theorem curl_initialised (ls : List Label) (s : State) (hrun : exec system start ls = some s) :
    s.aborted = false ∧ (inUse s.libcurl).isSome ∧
      (s.readers ≠ [] → inUse s.libcurl = some true) ∧
      (s.readers = [] → (inUse s.libcurl = some false ↔ ∀ l ∈ ls, l.keeps = false)) := by
  have hstart : Counted start 0 := ⟨⟨rfl, le_rfl, rfl⟩, rfl⟩
  obtain ⟨⟨halive, hnonneg, hinUse⟩, hcount⟩ := hstart.run hrun
  rw [Nat.zero_add] at hcount
  refine ⟨halive, by rw [hinUse]; rfl, fun hopen => ?_, fun hclosed => ?_⟩
  · have hpos := List.length_pos_iff.mpr hopen
    rw [hinUse, decide_eq_true (by omega)]
  · rw [hclosed, List.length_nil] at hcount
    have hkept : (∀ l ∈ ls, l.keeps = false) ↔ ls.countP Label.keeps = 0 := by
      rw [List.countP_eq_zero]
      simp only [Bool.not_eq_true]
    rw [hkept, hinUse, Option.some_inj, decide_eq_false_iff_not]
    omega

/-- Two readers, of which the second one has been opened with a token and connects again. -/
theorem curl_initialised_two : ∃ s, exec system start
    [.httpOpen 0, .keystoneAuthenticate, .httpOpen 1, .reconnect 1, .httpClose 0, .httpClose 1] =
      some s ∧ s.aborted = false ∧ inUse s.libcurl ≠ some false := by
  have hrun : exec system start [.httpOpen 0, .keystoneAuthenticate, .httpOpen 1, .reconnect 1,
      .httpClose 0, .httpClose 1] = some ⟨2, [.init], [], false⟩ := by decide
  obtain ⟨halive, _, _, hcleaned⟩ := curl_initialised _ _ hrun
  refine ⟨_, hrun, halive, fun hfalse => ?_⟩
  have hnone := (hcleaned rfl).mp hfalse .keystoneAuthenticate (by decide)
  contradiction

end Wandio.CurlHelper
