import Wandio.Jsmn.LayoutTheorems
import Wandio.Jsmn.ResumeTheorems

/-!
# The types of parsed tokens

The parser gives every token a type, so that a walk does not come to the case of `jsmn_skip` that
is asserted not to exist.
-/

namespace Wandio.Jsmn

open Loop

/-- Every token has been given a type. -/
def Typed (tokens : List Tok) : Prop := ∀ tok ∈ tokens, tok.type ≠ .undefined

section Types

variable {js : List Byte} {n fuel i : ℕ} {p q : Parser} {count : ℤ} {tok : Tok}
  {tokens t u : List Tok} {type : TokType} {s : Parser × ℤ} {x : ℤ × Parser} {e : Fault}

/-- A typed token may be put behind typed ones. -/
theorem Typed.append (h : Typed tokens) (htype : tok.type ≠ .undefined) :
    Typed (tokens ++ [tok]) := by
  intro tok' hmem
  obtain hmem | hmem := List.mem_append.mp hmem
  · exact h tok' hmem
  · rw [List.mem_singleton.mp hmem]
    exact htype

/-- Tokens that keep their types remain typed. -/
theorem Typed.modify (h : Typed tokens) {g : Tok → Tok} (hg : ∀ tok, (g tok).type = tok.type)
    (i : ℕ) : Typed (tokens.modify i g) := by
  intro tok hmem
  obtain ⟨j, hj, rfl⟩ := List.getElem_of_mem hmem
  rw [List.length_modify] at hj
  rw [List.getElem_modify]
  split
  · rw [hg]
    exact h _ (List.getElem_mem hj)
  · exact h _ (List.getElem_mem hj)

theorem Typed.grow (h : Typed p.tokens) : Typed p.grow.tokens := by
  unfold Parser.grow
  split
  · exact h
  · apply h.modify
    intro tok
    rfl

/-- Beginning an array or an object keeps all tokens typed. -/
theorem Typed.openToken (h : Typed p.tokens) (htype : type ≠ .undefined)
    (hq : openToken n p type = some q) : Typed q.tokens := by
  unfold Jsmn.openToken at hq
  obtain ⟨u, hu, rfl⟩ := Option.map_eq_some_iff.mp hq
  obtain ⟨_, rfl⟩ := jsmnAllocToken_eq_some hu
  apply Typed.grow
  exact h.append htype

/-- Ending an array or an object keeps all tokens typed. -/
theorem Typed.closeToken (h : Typed p.tokens) (hq : closeToken p type = some q) :
    Typed q.tokens := by
  unfold Jsmn.closeToken at hq
  split at hq
  · cases hq
  · split at hq
    · cases hq
    · rw [← Option.some.inj hq]
      apply h.modify
      intro tok
      rfl

/-- A comma keeps all tokens typed. -/
theorem Typed.commaToken (h : Typed p.tokens) : Typed (commaToken p).tokens := by
  unfold Jsmn.commaToken
  split
  · split <;> exact h
  · exact h

/-- What comes of a scan is typed. -/
theorem Typed.scanned (h : Typed p.tokens) {tok : ℕ → Tok} {next : ℕ → ℕ}
    (htype : ∀ pos, (tok pos).type ≠ .undefined) (scan : Scan) :
    Typed (scanned n p tok next scan).2.tokens := by
  cases scan with
  | inval => exact h
  | part => exact h
  | found pos =>
    unfold Jsmn.scanned
    simp only
    split
    · exact h
    · next q hq =>
      obtain ⟨_, rfl⟩ := jsmnAllocToken_eq_some hq
      exact h.append (htype pos)

theorem Typed.primitive (h : Typed p.tokens) (hx : jsmnParsePrimitive js n p fuel = some x) :
    Typed x.2.tokens := by
  rw [jsmnParsePrimitive_eq] at hx
  obtain ⟨scan, _, rfl⟩ := Option.map_eq_some_iff.mp hx
  have htype : TokType.primitive ≠ .undefined := by decide
  exact h.scanned (fun _ => htype) scan

theorem Typed.string (h : Typed p.tokens) (hx : jsmnParseString js n p fuel = some x) :
    Typed x.2.tokens := by
  rw [jsmnParseString_eq] at hx
  obtain ⟨scan, _, rfl⟩ := Option.map_eq_some_iff.mp hx
  have htype : TokType.string ≠ .undefined := by decide
  exact h.scanned (fun _ => htype) scan

/-- A bracket begins an array or an object. -/
theorem caseAt_opening {pos : ℕ} (h : caseAt js pos = .opening type) : type ≠ .undefined := by
  unfold caseAt at h
  cases hget : js[pos]? with
  | none =>
    rw [hget] at h
    cases h
  | some c =>
    rw [hget, Option.elim_some] at h
    rintro rfl
    have hne : ∀ {p : Prop} [Decidable p] {a b : Case}, a ≠ .opening .undefined →
        b ≠ .opening .undefined → (if p then a else b) ≠ .opening .undefined := by
      intro p _ a b ha hb
      split
      · exact ha
      · exact hb
    revert h
    unfold caseOf
    repeat' apply hne
    all_goals nofun

/-- A turn leaves every token with a type. -/
theorem ParseTurn.typed {v : Parser × ℤ} (h : ParseTurn js n s (.next v)) (hs : Typed s.1.tokens) :
    Typed v.1.tokens := by
  obtain ⟨enough, hturn⟩ := h
  have hbody := hturn enough le_rfl
  have hparsed : ∀ y : ℤ × Parser, Typed y.2.tokens → parsedToken s.2 y = .next v →
      Typed v.1.tokens := by
    intro y hy hv
    unfold parsedToken at hv
    split at hv
    · cases hv
    · cases hv
      exact hy.grow
  unfold parseBody at hbody
  cases hcase : caseAt js s.1.pos with
  | stop =>
    simp only [hcase] at hbody
    cases hbody
  | opening type =>
    simp only [hcase] at hbody
    split at hbody
    · cases hbody
    · next q hq =>
      cases hbody
      have hopened : Typed q.tokens := hs.openToken (caseAt_opening hcase) hq
      exact hopened
  | closing type =>
    simp only [hcase] at hbody
    split at hbody
    · cases hbody
    · next q hq =>
      cases hbody
      have hclosed : Typed q.tokens := hs.closeToken hq
      exact hclosed
  | quote =>
    simp only [hcase, Option.map_eq_some_iff] at hbody
    obtain ⟨y, hy, hv⟩ := hbody
    exact hparsed y (hs.string hy) hv
  | other =>
    simp only [hcase, Option.map_eq_some_iff] at hbody
    obtain ⟨y, hy, hv⟩ := hbody
    exact hparsed y (hs.primitive hy) hv
  | blank =>
    simp only [hcase] at hbody
    cases hbody
    exact hs
  | colon =>
    simp only [hcase] at hbody
    cases hbody
    exact hs
  | comma =>
    simp only [hcase] at hbody
    cases hbody
    have hcomma : Typed (commaToken s.1).tokens := hs.commaToken
    exact hcomma

/-- So does a call of the parser. -/
theorem typed_of_ends (h : Ends (ParseTurn js n) s x) (hs : Typed s.1.tokens) :
    Typed x.2.tokens := by
  induction h with
  | done hturn =>
    rw [hturn.done]
    exact hs
  | next hturn _ ih => exact ih (hturn.typed hs)

/-- Where every token has a type, skipping fails only at the end of the tokens. -/
theorem drain_typed (h : Typed t) (he : drain n t = .error e) : e = .bounds := by
  induction t generalizing n with
  | nil =>
    cases n with
    | zero => cases he
    | succ n => exact (Except.error.inj he).symm
  | cons tok rest ih =>
    have hrest : Typed rest := fun tok' hmem => h tok' (List.mem_cons_of_mem tok hmem)
    cases n with
    | zero => cases he
    | succ n =>
      rw [drain] at he
      cases htype : tok.type with
      | undefined => exact absurd htype (h tok List.mem_cons_self)
      | object =>
        rw [htype] at he
        exact ih hrest he
      | array =>
        rw [htype] at he
        exact ih hrest he
      | string =>
        rw [htype] at he
        exact ih hrest he
      | primitive =>
        rw [htype] at he
        exact ih hrest he

end Types

end Wandio.Jsmn
