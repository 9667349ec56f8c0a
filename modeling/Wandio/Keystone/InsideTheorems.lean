import Wandio.Jsmn.TypeTheorems
import Wandio.Keystone.GrowthTheorems
import Wandio.Keystone.SupplyTheorems

/-!
# Walking through an answer that has been accepted

The parser accepts answers that are no JSON. The walk trusts that every key has a value, and that a
url fits into its buffer.
-/

namespace Wandio.Keystone

open Loop Jsmn

section Inside

variable {js : List Byte} {s : ℕ × Parser} {p : Parser} {x : ℤ × Parser} {ret : ℤ}

/-- Calling the parser again keeps every token typed. -/
theorem typed_of_again (h : Ends (AgainTurn js) s x) (hs : Typed s.2.tokens) :
    Typed x.2.tokens := by
  have hturn : ∀ (s : ℕ × Parser) (turn : Turn (ℕ × Parser) (ℤ × Parser)), AgainTurn js s turn →
      Typed s.2.tokens → ∃ y : ℤ × Parser, Typed y.2.tokens ∧
        turn = if y.1 = JsmnErr.nomem.code then .next (2 * s.1 % 2 ^ 64, y.2) else .done y := by
    intro s turn hagain hs
    obtain ⟨y, hy, heq⟩ := againTurn_iff.mp hagain
    exact ⟨y, typed_of_ends hy hs, heq⟩
  induction h with
  | @done s x hagain =>
    obtain ⟨y, hy, heq⟩ := hturn s _ hagain hs
    split at heq
    · cases heq
    · cases heq
      exact hy
  | @next s v x hagain _ ih =>
    obtain ⟨y, hy, heq⟩ := hturn s _ hagain hs
    split at heq
    · cases heq
      exact ih hy
    · cases heq

/-- An answer that has been parsed is walked through without leaving the tokens and without a
failed assertion exactly if its tokens can be read, if it has been accepted. The assertion in
`jsmn_skip` holds in any case. -/
theorem processAuthResponse_ok_iff (h : Yields (parseResponse js) (ret, p))
    (storageUrl : Option (List Byte)) :
    ∃ r, Yields (processAuthResponse js storageUrl) r ∧
      ((∃ y, r = .ok y) ↔ (0 ≤ ret → Supplied js p.tokens)) ∧
      ∀ t, t <:+ p.tokens → jsmnSkip t ≠ .error .assertion := by
  refine ⟨_, h.map _, ?_, ?_⟩
  · simp only
    split
    · next hneg => exact ⟨fun _ hret => absurd hneg (not_lt.mpr hret), fun _ => ⟨_, rfl⟩⟩
    · next hret =>
      rw [← processJson_ok_iff js storageUrl]
      exact ⟨fun hok _ => hok, fun hok => hok (not_lt.mp hret)⟩
  · intro t ht hskip
    have hinit : Typed jsmnInit.tokens := by
      intro tok hmem
      cases hmem
    have htyped : Typed p.tokens := typed_of_again (parseResponse_yields_iff.mp h) hinit
    rw [jsmnSkip_eq] at hskip
    have hbounds := drain_typed (fun tok hmem => htyped tok (ht.subset hmem)) hskip
    cases hbounds

/-- More fuel does not change the result of the parse. -/
theorem parseResponse_steady (js : List Byte) : Steady (parseResponse js) :=
  Steady.nested (againBody_steady js) (128, jsmnInit)

theorem parseResponse_shortAnswer :
    Yields (parseResponse shortAnswer) (15, ⟨94, -1, shortTokens⟩) :=
  (parseResponse_steady shortAnswer).yields_iff.mpr ⟨100, by decide +kernel⟩

theorem processAuthResponse_ok_short :
    ∃ r, Yields (processAuthResponse shortAnswer none) r ∧ ∃ y, r = .ok y := by
  have hshort : ShortDocument shortMembers := by
    unfold ShortDocument ShortEntry ShortEndpoint
    decide
  obtain ⟨r, hyields, hiff, _⟩ := processAuthResponse_ok_iff parseResponse_shortAnswer none
  exact ⟨r, hyields, hiff.mpr fun _ => supplied_of_laidOut laidOut_shortTokens hshort⟩

end Inside

/-! ## A key without a value -/

/-- The answer `{"a"}`. -/
def keyOnly : List Byte := [0x7b, 0x22, 0x61, 0x22, 0x7d]

/-- It has two tokens, and what would be the value of the key is behind them. -/
def keyOnlyParser : Parser := ⟨5, -1, [⟨.object, 0, 5, 1⟩, ⟨.string, 2, 3, 0⟩]⟩

theorem parseResponse_keyOnly : Yields (parseResponse keyOnly) (2, keyOnlyParser) :=
  (parseResponse_steady keyOnly).yields_iff.mpr ⟨20, by decide +kernel⟩

theorem walk_leaves_tokens :
    ¬ ∀ (js : List Byte) (ret : ℤ) (p : Parser) (storageUrl : Option (List Byte)),
      Yields (parseResponse js) (ret, p) → 0 ≤ ret →
        ∃ r, processJson js storageUrl p.tokens = .ok r := by
  intro h
  obtain ⟨r, hr⟩ := h keyOnly 2 keyOnlyParser none parseResponse_keyOnly (by decide)
  have hbounds : processJson keyOnly none keyOnlyParser.tokens = .error .bounds := by
    decide +kernel
  rw [hbounds] at hr
  cases hr

end Wandio.Keystone
