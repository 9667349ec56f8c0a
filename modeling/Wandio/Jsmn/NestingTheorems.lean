import Wandio.Jsmn.ReadingTheorems

/-!
# The nesting of the tokens

Whatever the text is, and however often the parser has been called again with another array, the
tokens stand in the array in the order in which they begin in the text, and of two tokens one lies
behind the other or in it. The sizes are another matter: a token is counted at most once, and for a
token before it, but this need not be the one that it lies in.
-/

namespace Wandio.Jsmn

open Loop

/-- Where a token lies in the text, of which `pos` characters have been read. The quotes of a string
do not belong to it. -/
inductive Spans (js : List Byte) (pos : ℕ) : Tok → Prop where
  | opened {type : TokType} {start size : ℕ} (hstart : caseAt js start = .opening type)
    (hlt : start < pos) : Spans js pos ⟨type, start, -1, size⟩
  | closed {type : TokType} {start stop size : ℕ} (hstart : caseAt js start = .opening type)
    (hstop : caseAt js stop = .closing type) (hlt : start < stop) (hle : stop < pos) :
    Spans js pos ⟨type, start, (stop : ℤ) + 1, size⟩
  | string {quote stop size : ℕ} (hquote : caseAt js quote = .quote)
    (hstop : caseAt js stop = .quote) (hlt : quote < stop) (hle : stop < pos) :
    Spans js pos ⟨.string, (quote : ℤ) + 1, stop, size⟩
  | primitive {start stop size : ℕ} (hlt : start < stop) (hle : stop ≤ pos)
    (hplain : ∀ i, start ≤ i → i < stop → ∃ c, js[i]? = some c ∧ 32 ≤ c ∧ c < 127 ∧
      endsPrimitive c = false) :
    Spans js pos ⟨.primitive, start, stop, size⟩

/-- `b` begins behind the beginning of `a`, and lies behind all of `a` or, if `a` is an object or an
array, in it. What comes next lies in every open token. -/
def Succeeds (a b : Tok) : Prop :=
  a.start < b.start ∧ (a.isOpen = true ∨ a.stop ≤ b.start ∨
    (a.type = .object ∨ a.type = .array) ∧ b.isOpen = false ∧ b.stop < a.stop)

/-- Which token counts which: to each token belongs the index of the token whose size it has been
added to, if there is one. This is a token before it, and a size says how many tokens there are to
which the index belongs. -/
structure Counts (tokens : List Tok) (counter : List (Option ℕ)) : Prop where
  length : counter.length = tokens.length
  before : ∀ i j : ℕ, counter[j]? = some (some i) → i < j
  size : ∀ (i : ℕ) tok, tokens[i]? = some tok → tok.size = counter.count (some i)

/-- What holds between the turns of the parser. -/
structure Nested (js : List Byte) (p : Parser) : Prop where
  pos_le : p.pos ≤ js.length
  count_le : p.toknext ≤ p.pos
  /-- The superior token is in the array. -/
  super : -1 ≤ p.toksuper ∧ p.toksuper < p.toknext
  spans : ∀ tok ∈ p.tokens, Spans js p.pos tok
  order : p.tokens.Pairwise Succeeds
  /-- Every token is counted at most once, and only for a token before it. -/
  counted : ∃ counter, Counts p.tokens counter

/-- The states that calls of `jsmn_parse` on a text leave, each with an array of its own. -/
inductive Called (js : List Byte) : Parser → Prop where
  | init : Called js jsmnInit
  | call {p q : Parser} {n : ℕ} {r : ℤ} (h : Called js p)
    (hcall : Yields (jsmnParse js n p) (r, q)) : Called js q

section Lists

variable {α : Type} {l : List α} {g : α → α}

theorem pairwise_modify {R : α → α → Prop} (h : l.Pairwise R) (hleft : ∀ a b, R a b → R (g a) b)
    (hright : ∀ a b, R a b → R a (g b)) (i : ℕ) : (l.modify i g).Pairwise R := by
  rw [List.pairwise_iff_getElem] at h ⊢
  intro j k hj hk hjk
  rw [List.length_modify] at hj hk
  have hjk' := h j k hj hk hjk
  rw [List.getElem_modify, List.getElem_modify]
  split
  · split
    · exact hleft _ _ (hright _ _ hjk')
    · exact hleft _ _ hjk'
  · split
    · exact hright _ _ hjk'
    · exact hjk'

theorem forall_mem_modify {P : α → Prop} (h : ∀ a ∈ l, P a) (hg : ∀ a, P a → P (g a)) (i : ℕ) :
    ∀ a ∈ l.modify i g, P a := by
  intro a ha
  obtain ⟨j, hj, rfl⟩ := List.getElem_of_mem ha
  rw [List.length_modify] at hj
  rw [List.getElem_modify]
  split
  · exact hg _ (h _ (List.getElem_mem hj))
  · exact h _ (List.getElem_mem hj)

end Lists

section Spans

variable {js : List Byte} {pos next size : ℕ} {tok a b : Tok}

/-- A token that has just been begun is open. -/
theorem isOpen_opened (type : TokType) (start size : ℕ) :
    (⟨type, start, -1, size⟩ : Tok).isOpen = true := by
  have hstart : (start : ℤ) ≠ -1 := by omega
  exact decide_eq_true ⟨hstart, rfl⟩

/-- A token that is inside of what has been parsed remains so. -/
theorem Spans.mono (h : Spans js pos tok) (hle : pos ≤ next) : Spans js next tok := by
  cases h with
  | opened hstart hlt => exact .opened hstart (by omega)
  | closed hstart hstop hlt hle' => exact .closed hstart hstop hlt (by omega)
  | string hquote hstop hlt hle' => exact .string hquote hstop hlt (by omega)
  | primitive hlt hle' hplain => exact .primitive hlt (by omega) hplain

/-- The size has no part in where a token is. -/
theorem Spans.resize (h : Spans js pos tok) (size : ℕ) :
    Spans js pos { tok with size := size } := by
  cases h with
  | opened hstart hlt => exact .opened hstart hlt
  | closed hstart hstop hlt hle => exact .closed hstart hstop hlt hle
  | string hquote hstop hlt hle => exact .string hquote hstop hlt hle
  | primitive hlt hle hplain => exact .primitive hlt hle hplain

/-- A token that is not open ends in what has been read. -/
theorem Spans.stop_le (h : Spans js pos tok) (hclosed : tok.isOpen = false) :
    tok.stop ≤ pos := by
  cases h with
  | opened hstart hlt =>
    rw [isOpen_opened] at hclosed
    contradiction
  | closed hstart hstop hlt hle =>
    simp only
    omega
  | string hquote hstop hlt hle =>
    simp only
    omega
  | primitive hlt hle hplain =>
    simp only
    omega

theorem caseAt_opening_type {type : TokType} (h : caseAt js pos = .opening type) :
    type = .object ∨ type = .array := by
  unfold caseAt at h
  cases hget : js[pos]? with
  | none =>
    rw [hget] at h
    cases h
  | some c =>
    rw [hget, Option.elim_some, caseOf] at h
    split_ifs at h
    · exact .inl (Case.opening.inj h).symm
    · exact .inr (Case.opening.inj h).symm

/-- An open token is an object or an array, and is ended by the bracket that belongs to it. -/
theorem Spans.close (h : Spans js pos tok) (hopen : tok.isOpen = true)
    (hstop : caseAt js pos = .closing tok.type) :
    (tok.type = .object ∨ tok.type = .array) ∧
      Spans js (pos + 1) { tok with stop := (pos : ℤ) + 1 } := by
  simp only [Tok.isOpen, decide_eq_true_eq] at hopen
  cases h with
  | opened hstart hlt =>
    exact ⟨caseAt_opening_type hstart, .closed hstart hstop hlt (Nat.lt_succ_self _)⟩
  | closed hstart hstop' hlt hle =>
    simp only at hopen
    omega
  | string hquote hstop' hlt hle =>
    simp only at hopen
    omega
  | primitive hlt hle hplain =>
    simp only at hopen
    omega

/-- What begins where the reading has come to comes behind the beginning of every token. -/
theorem Spans.succeeds (h : Spans js pos a) (hb : (pos : ℤ) ≤ b.start) : Succeeds a b := by
  cases h with
  | opened hstart hlt =>
    refine ⟨?_, .inl (isOpen_opened _ _ _)⟩
    simp only
    omega
  | closed hstart hstop hlt hle =>
    refine ⟨?_, .inr (.inl ?_)⟩ <;> simp only <;> omega
  | string hquote hstop hlt hle =>
    refine ⟨?_, .inr (.inl ?_)⟩ <;> simp only <;> omega
  | primitive hlt hle hplain =>
    refine ⟨?_, .inr (.inl ?_)⟩ <;> simp only <;> omega

end Spans

section Counts

variable {tokens : List Tok} {counter : List (Option ℕ)} {tok : Tok} {g : Tok → Tok} {i : ℕ}

theorem counts_nil : Counts [] [] := ⟨rfl, nofun, nofun⟩

/-- A change that leaves the sizes as they are. -/
theorem Counts.modify (h : Counts tokens counter) (hg : ∀ t, (g t).size = t.size) (i : ℕ) :
    Counts (tokens.modify i g) counter where
  length := h.length.trans (List.length_modify _ _ _).symm
  before := h.before
  size k t ht := by
    rw [List.getElem?_modify] at ht
    obtain ⟨u, hu, rfl⟩ := Option.map_eq_some_iff.mp ht
    rw [← h.size k u hu]
    split
    · exact hg u
    · rfl

/-- A token at the end has not been counted for by any. -/
theorem Counts.count_length (h : Counts tokens counter) :
    counter.count (some tokens.length) = 0 := by
  rw [List.count_eq_zero]
  intro hmem
  obtain ⟨j, hj, hget⟩ := List.getElem_of_mem hmem
  have hlt := h.before tokens.length j (by rw [List.getElem?_eq_getElem hj, hget])
  rw [h.length] at hj
  omega

/-- One more token, which has no superior. -/
theorem Counts.concat (h : Counts tokens counter) (hsize : tok.size = 0) :
    Counts (tokens ++ [tok]) (counter ++ [none]) where
  length := by rw [List.length_append, List.length_append, h.length]; rfl
  before i j hj := by
    rcases Nat.lt_or_ge j counter.length with hlt | hge
    · rw [List.getElem?_append_left hlt] at hj
      exact h.before i j hj
    · rw [List.getElem?_append_right hge] at hj
      cases List.mem_singleton.mp (List.mem_of_getElem? hj)
  size i t ht := by
    rw [List.count_append, List.count_singleton]
    rcases Nat.lt_or_ge i tokens.length with hlt | hge
    · rw [List.getElem?_append_left hlt] at ht
      exact h.size i t ht
    · have hbound := (List.getElem?_eq_some_iff.mp ht).1
      rw [List.length_append, List.length_singleton] at hbound
      obtain rfl : i = tokens.length := by omega
      rw [List.getElem?_concat_length, Option.some_inj] at ht
      rw [← ht, hsize, h.count_length]
      rfl

/-- One more token, which its superior token counts. -/
theorem Counts.concat_grow (h : Counts tokens counter) (hsize : tok.size = 0)
    (hi : i < tokens.length) :
    Counts ((tokens ++ [tok]).modify i fun t => { t with size := t.size + 1 })
      (counter ++ [some i]) where
  length := by
    rw [List.length_modify, List.length_append, List.length_append, h.length]
    rfl
  before k j hj := by
    rcases Nat.lt_or_ge j counter.length with hlt | hge
    · rw [List.getElem?_append_left hlt] at hj
      exact h.before k j hj
    · rw [List.getElem?_append_right hge] at hj
      obtain rfl : k = i := Option.some.inj (List.mem_singleton.mp (List.mem_of_getElem? hj))
      rw [h.length] at hge
      exact hi.trans_le hge
  size k t ht := by
    rw [List.getElem?_modify] at ht
    obtain ⟨u, hu, rfl⟩ := Option.map_eq_some_iff.mp ht
    have hold := (h.concat hsize).size k u hu
    rw [List.count_append, List.count_singleton] at hold ⊢
    by_cases hik : i = k
    · simp [hik, hold]
    · have hne : (some i == some k) = false := by simp [hik]
      rw [if_neg hik, hne, hold]
      rfl

end Counts

/-! ## What the parser does with the array -/

section Operations

variable {js : List Byte} {n pos : ℕ} {super : ℤ} {p q : Parser} {type : TokType} {tok : Tok}

/-- At the beginning there are no tokens. -/
theorem nested_init (js : List Byte) : Nested js jsmnInit where
  pos_le := Nat.zero_le _
  count_le := le_rfl
  super := by decide
  spans := nofun
  order := List.Pairwise.nil
  counted := ⟨[], counts_nil⟩

/-- Behind a character that makes no token. -/
theorem Nested.skip (h : Nested js p) (hlt : p.pos < js.length)
    (hsuper : -1 ≤ super ∧ super < p.toknext) :
    Nested js { p with toksuper := super, pos := p.pos + 1 } where
  pos_le := hlt
  count_le := Nat.le_succ_of_le h.count_le
  super := hsuper
  spans tok htok := (h.spans tok htok).mono (Nat.le_succ _)
  order := h.order
  counted := h.counted

theorem grow_tokens (p : Parser) (tokens : List Tok) :
    ({ p with tokens := tokens } : Parser).grow.tokens = tokens ∧ p.toksuper = -1 ∨
      ({ p with tokens := tokens } : Parser).grow.tokens =
        tokens.modify p.toksuper.toNat (fun t => { t with size := t.size + 1 }) ∧
        p.toksuper ≠ -1 := by
  unfold Parser.grow
  split
  · next hsuper => exact .inl ⟨rfl, hsuper⟩
  · next hsuper => exact .inr ⟨rfl, hsuper⟩

/-- One more token, which its superior token counts. -/
theorem Nested.add (h : Nested js p) (htok : Spans js pos tok) (hsize : tok.size = 0)
    (hstart : (p.pos : ℤ) ≤ tok.start) (hlt : p.pos < pos) (hle : pos ≤ js.length)
    (hsuper : -1 ≤ super ∧ super < p.toknext + 1) :
    Nested js { ({ p with tokens := p.tokens ++ [tok] } : Parser).grow with
      toksuper := super, pos := pos } := by
  have hlength : (p.tokens ++ [tok]).length = p.toknext + 1 := List.length_append
  have hcount : ({ p with tokens := p.tokens ++ [tok] } : Parser).grow.toknext = p.toknext + 1 :=
    (toknext_grow _).trans hlength
  have hspans : ∀ t ∈ p.tokens ++ [tok], Spans js pos t := by
    intro t ht
    rcases List.mem_append.mp ht with ht | ht
    · exact (h.spans t ht).mono hlt.le
    · rw [List.mem_singleton.mp ht]
      exact htok
  have horder : (p.tokens ++ [tok]).Pairwise Succeeds := by
    refine List.pairwise_append.mpr ⟨h.order, List.pairwise_singleton _ _, ?_⟩
    intro a ha b hb
    rw [List.mem_singleton.mp hb]
    exact (h.spans a ha).succeeds hstart
  have hold := h.super
  obtain ⟨counter, hcounter⟩ := h.counted
  refine ⟨hle, ?_, ?_, ?_, ?_, ?_⟩
  · show Parser.toknext (Parser.grow _) ≤ pos
    have hle' := h.count_le
    omega
  · show -1 ≤ super ∧ super < (Parser.toknext (Parser.grow _) : ℤ)
    rw [hcount]
    exact_mod_cast hsuper
  · show ∀ t ∈ (Parser.grow _).tokens, _
    rcases grow_tokens p (p.tokens ++ [tok]) with ⟨heq, _⟩ | ⟨heq, _⟩
    · rw [heq]
      exact hspans
    · rw [heq]
      exact forall_mem_modify hspans (fun t ht => ht.resize _) _
  · show (Parser.grow _).tokens.Pairwise _
    rcases grow_tokens p (p.tokens ++ [tok]) with ⟨heq, _⟩ | ⟨heq, _⟩
    · rw [heq]
      exact horder
    · rw [heq]
      apply pairwise_modify horder
      · exact fun a b hab => hab
      · exact fun a b hab => hab
  · show ∃ counter, Counts (Parser.grow _).tokens counter
    rcases grow_tokens p (p.tokens ++ [tok]) with ⟨heq, _⟩ | ⟨heq, hsome⟩
    · rw [heq]
      exact ⟨_, hcounter.concat hsize⟩
    · -- the superior token is one of the old ones
      rw [heq]
      exact ⟨_, hcounter.concat_grow hsize (show p.toksuper.toNat < p.toknext by omega)⟩

theorem lastToken_lt {f : Tok → Bool} {tokens : List Tok} {i m : ℕ}
    (h : lastToken f tokens m = some i) : i < m := by
  induction m with
  | zero => contradiction
  | succ m ih =>
    rw [lastToken] at h
    split at h
    · exact Option.some.inj h ▸ Nat.lt_succ_self m
    · exact (ih h).trans (Nat.lt_succ_self m)

/-- A closing bracket ends the last open token, behind which all tokens have an end. -/
theorem closeToken_eq_some (h : closeToken p type = some q) :
    ∃ before tok behind, ∃ super : ℤ, p.tokens = before ++ tok :: behind ∧ tok.isOpen = true ∧
      tok.type = type ∧ (∀ t ∈ behind, t.isOpen = false) ∧
      (-1 ≤ super ∧ super < p.toknext) ∧
      q = ⟨p.pos, super, before ++ { tok with stop := cInt (p.pos + 1) } :: behind⟩ := by
  unfold closeToken at h
  split at h
  · contradiction
  · next i hlast =>
    split at h
    · contradiction
    · next htype =>
      obtain ⟨before, tok, behind, heq, hlen, htok, hbehind⟩ := lastToken_eq_some hlast le_rfl
      rw [Parser.toknext, List.take_length] at heq
      have hget : p.tokens[i]? = some tok := by
        rw [heq, ← hlen]
        simp
      refine ⟨before, tok, behind, indexOrNone (lastToken Tok.isOpen
        (p.tokens.modify i fun t => { t with stop := cInt (p.pos + 1) }) (i + 1)), heq, htok, ?_,
        hbehind, ?_, ?_⟩
      · rw [hget, Option.any_some] at htype
        simpa using htype
      · have hi := lastToken_lt hlast
        cases hsuper : lastToken Tok.isOpen
            (p.tokens.modify i fun t => { t with stop := cInt (p.pos + 1) }) (i + 1) with
        | none => exact ⟨le_rfl, by rw [indexOrNone, Option.elim_none]; omega⟩
        | some j =>
          have hj := lastToken_lt hsuper
          rw [indexOrNone, Option.elim_some]
          omega
      · rw [← Option.some.inj h, heq, ← hlen, modify_length]

/-- Ending the innermost open token keeps the tokens nested. -/
theorem Nested.close (h : Nested js p) {before behind : List Tok}
    (hstop : caseAt js p.pos = .closing tok.type) (hlt : p.pos < js.length)
    (htokens : p.tokens = before ++ tok :: behind) (hopen : tok.isOpen = true)
    (hbehind : ∀ t ∈ behind, t.isOpen = false) (hsuper : -1 ≤ super ∧ super < p.toknext) :
    Nested js ⟨p.pos + 1, super, before ++ { tok with stop := (p.pos : ℤ) + 1 } :: behind⟩ := by
  have hmem : tok ∈ p.tokens := by
    rw [htokens]
    exact List.mem_append_right _ List.mem_cons_self
  obtain ⟨hbracket, hspans⟩ := (h.spans tok hmem).close hopen hstop
  have hmodify : before ++ { tok with stop := (p.pos : ℤ) + 1 } :: behind =
      p.tokens.modify before.length fun t => { t with stop := (p.pos : ℤ) + 1 } := by
    rw [htokens, modify_length]
  have hlength : (before ++ { tok with stop := (p.pos : ℤ) + 1 } :: behind).length = p.toknext := by
    rw [hmodify, List.length_modify, Parser.toknext]
  refine ⟨hlt, ?_, ?_, ?_, ?_, ?_⟩
  · rw [Parser.toknext, hlength]
    exact Nat.le_succ_of_le h.count_le
  · rw [Parser.toknext, hlength]
    exact hsuper
  · intro t ht
    have hold : ∀ t ∈ before ++ behind, Spans js (p.pos + 1) t := by
      intro t ht
      apply (h.spans t _).mono (Nat.le_succ _)
      rw [htokens]
      rcases List.mem_append.mp ht with ht | ht
      · exact List.mem_append_left _ ht
      · exact List.mem_append_right _ (List.mem_cons_of_mem _ ht)
    rcases List.mem_append.mp ht with ht | ht
    · exact hold t (List.mem_append_left _ ht)
    · rcases List.mem_cons.mp ht with rfl | ht
      · exact hspans
      · exact hold t (List.mem_append_right _ ht)
  · have horder := h.order
    rw [htokens, List.pairwise_append, List.pairwise_cons] at horder
    obtain ⟨hbefore, ⟨htok, hrest⟩, hbetween⟩ := horder
    refine List.pairwise_append.mpr ⟨hbefore, List.pairwise_cons.mpr ⟨?_, hrest⟩, ?_⟩
    · intro b hb
      have hstopped := (h.spans b (by
        rw [htokens]
        exact List.mem_append_right _ (List.mem_cons_of_mem _ hb))).stop_le (hbehind b hb)
      refine ⟨(htok b hb).1, .inr (.inr ⟨hbracket, hbehind b hb, ?_⟩)⟩
      simp only
      omega
    · intro a ha b hb
      rcases List.mem_cons.mp hb with rfl | hb
      · -- what comes before the token lies behind no token that is closed around it
        obtain ⟨hstart, hopen' | hle | hin⟩ := hbetween a ha tok List.mem_cons_self
        · exact ⟨hstart, .inl hopen'⟩
        · exact ⟨hstart, .inr (.inl hle)⟩
        · rw [hopen] at hin
          exact absurd hin.2.1 (by decide)
      · exact hbetween a ha b (List.mem_cons_of_mem _ hb)
  · obtain ⟨counter, hcounter⟩ := h.counted
    rw [hmodify]
    refine ⟨counter, hcounter.modify ?_ _⟩
    exact fun _ => rfl

end Operations

/-! ## Strings and primitives -/

section Scans

variable {js : List Byte} {fuel start pos next : ℕ}

theorem endsAt_length (js : List Byte) : EndsAt js js.length := by
  rw [EndsAt, List.getElem?_eq_none le_rfl]
  rfl

/-- A string is found at its closing quote. -/
theorem stringBody_found (h : stringBody js pos = .done (.found next)) :
    next = pos ∧ js[pos]? = some 0x22 := by
  unfold stringBody at h
  split at h
  · cases h
  · next c hget =>
    split_ifs at h with hzero hquote hescape
    · cases h
    · cases h
      exact ⟨rfl, hquote ▸ hget⟩
    · simp only at h
      split at h
      · cases h
      · split_ifs at h
        · split at h <;> cases h
        · cases h

/-- A string ends at a quotation mark. -/
theorem string_found (hlen : js.length < 2 ^ 32) (hstart : start ≤ js.length)
    (h : loop (stringBody js) fuel start = some (.found pos)) :
    start ≤ pos ∧ pos < js.length ∧ caseAt js pos = .quote := by
  have hinv := loop_invariant (I := fun pos => start ≤ pos ∧ pos ≤ js.length)
    (Q := fun scan => ∀ pos, scan = .found pos →
      start ≤ pos ∧ pos < js.length ∧ caseAt js pos = .quote) ?_ ?_ ⟨le_rfl, hstart⟩ h
  · exact hinv pos rfl
  · intro pos next hpos hbody
    have hnext := stringBody_next (endsAt_length js) hlen hpos.2 hbody
    exact ⟨by omega, hnext.2⟩
  · intro pos scan hpos hbody found hfound
    rw [hfound] at hbody
    obtain ⟨rfl, hquote⟩ := stringBody_found hbody
    refine ⟨hpos.1, (List.getElem?_eq_some_iff.mp hquote).1, ?_⟩
    rw [caseAt, hquote]
    rfl

/-- The characters of a primitive are all of one kind. -/
theorem primitiveBody_next (hlen : js.length < 2 ^ 32) (h : primitiveBody js pos = .next next) :
    next = pos + 1 ∧ ∃ c, js[pos]? = some c ∧ 32 ≤ c ∧ c < 127 ∧ endsPrimitive c = false := by
  unfold primitiveBody at h
  split at h
  · cases h
  · next c hget =>
    split_ifs at h with hend hrange
    have hlt := (List.getElem?_eq_some_iff.mp hget).1
    rw [cUInt_of_lt (by omega)] at h
    cases h
    rw [not_or, UInt8.not_lt, UInt8.not_le] at hrange
    exact ⟨rfl, c, hget, hrange.1, hrange.2, by simpa using fun hc => hend (.inr hc)⟩

/-- A primitive ends where a character cannot be part of it. -/
theorem primitive_found (hlen : js.length < 2 ^ 32) (hother : caseAt js start = .other)
    (h : loop (primitiveBody js) fuel start = some (.found pos)) :
    start < pos ∧ pos ≤ js.length ∧ ∀ i, start ≤ i → i < pos → ∃ c, js[i]? = some c ∧ 32 ≤ c ∧
      c < 127 ∧ endsPrimitive c = false := by
  have hinv := loop_invariant (I := fun pos => start ≤ pos ∧ pos ≤ js.length ∧
      ∀ i, start ≤ i → i < pos → ∃ c, js[i]? = some c ∧ 32 ≤ c ∧ c < 127 ∧ endsPrimitive c = false)
    (Q := fun scan => ∀ pos, scan = .found pos → start < pos ∧ pos ≤ js.length ∧
      ∀ i, start ≤ i → i < pos → ∃ c, js[i]? = some c ∧ 32 ≤ c ∧ c < 127 ∧
        endsPrimitive c = false) ?_ ?_ ⟨le_rfl, ?_, fun i hi hlt => ?_⟩ h
  · exact hinv pos rfl
  · rintro pos next ⟨hle, hbound, hplain⟩ hbody
    obtain ⟨rfl, c, hget, hc⟩ := primitiveBody_next hlen hbody
    refine ⟨Nat.le_succ_of_le hle, (List.getElem?_eq_some_iff.mp hget).1, fun i hi hlt => ?_⟩
    rcases Nat.lt_succ_iff_lt_or_eq.mp hlt with hlt | rfl
    · exact hplain i hi hlt
    · exact ⟨c, hget, hc⟩
  · rintro pos scan ⟨hle, hbound, hplain⟩ hbody found hfound
    rw [hfound] at hbody
    obtain ⟨c, hget, hc⟩ := caseAt_other hother
    have hne : pos ≠ start := by
      rintro rfl
      simp only [primitiveBody, hget, if_neg hc] at hbody
      split_ifs at hbody
      cases hbody
    have hsame : found = pos := by
      unfold primitiveBody at hbody
      split at hbody
      · cases hbody
        rfl
      · split_ifs at hbody
        · cases hbody
          rfl
        · cases hbody
    rw [hsame]
    exact ⟨by omega, hbound, hplain⟩
  · obtain ⟨c, hget, _⟩ := caseAt_other hother
    exact (List.getElem?_eq_some_iff.mp hget).1.le
  · omega

end Scans

/-! ## Turns and calls -/

section Runs

variable {js : List Byte} {n fuel : ℕ} {p q : Parser} {s t : Parser × ℤ} {x : ℤ × Parser} {r : ℤ}

theorem grow_pos (p : Parser) : p.grow.pos = p.pos := by
  unfold Parser.grow
  split <;> rfl

/-- What comes of a string or a primitive, with the turn that it ends. -/
theorem scanned_next {tok : ℕ → Tok} {next : ℕ → ℕ} {scan : Scan} {count : ℤ}
    (h : parsedToken count (scanned n p tok next scan) = .next t) :
    ∃ pos, scan = .found pos ∧
      t.1 = { ({ p with tokens := p.tokens ++ [tok pos] } : Parser).grow with
        toksuper := p.toksuper, pos := cUInt (next pos + 1) } := by
  cases scan with
  | inval => cases h
  | part => cases h
  | found pos =>
    refine ⟨pos, rfl, ?_⟩
    unfold scanned at h
    simp only at h
    split at h
    · cases h
    · next q hq =>
      obtain ⟨_, rfl⟩ := jsmnAllocToken_eq_some hq
      rw [parsedToken, if_neg (lt_irrefl 0)] at h
      rw [← Turn.next.inj h]
      unfold Parser.grow Parser.advance
      simp only
      split <;> rfl

/-- The parser finds a character only inside of the text. -/
theorem lt_length_of_caseAt {pos : ℕ} (h : caseAt js pos ≠ .stop) : pos < js.length := by
  by_contra hge
  apply h
  rw [caseAt, List.getElem?_eq_none (Nat.le_of_not_lt hge)]
  rfl

/-- A turn keeps the nesting: one case for each case of the `switch`. -/
theorem ParseTurn.nested (hlen : js.length < 2 ^ 31) (h : ParseTurn js n s (.next t))
    (hs : Nested js s.1) : Nested js t.1 := by
  obtain ⟨fuel, hfuel⟩ := h
  have hbody := hfuel fuel le_rfl
  have hcount := hs.count_le
  have hsuper := hs.super
  have hadvance : caseAt js s.1.pos ≠ .stop → cUInt (s.1.pos + 1) = s.1.pos + 1 := by
    intro hcase
    have hlt := lt_length_of_caseAt hcase
    exact cUInt_of_lt (by omega)
  have hint : caseAt js s.1.pos ≠ .stop → cInt (s.1.pos + 1) = s.1.pos + 1 := by
    intro hcase
    have hlt := lt_length_of_caseAt hcase
    exact cInt_of_range (by omega) (by omega)
  have hskip : caseAt js s.1.pos ≠ .stop → ∀ super : ℤ, -1 ≤ super ∧ super < s.1.toknext →
      Nested js (Parser.advance { s.1 with toksuper := super }) := by
    intro hcase super hsuper
    have hnested := hs.skip (lt_length_of_caseAt hcase) hsuper
    rwa [← hadvance hcase] at hnested
  unfold parseBody at hbody
  cases hcase : caseAt js s.1.pos with
  | stop =>
    simp only [hcase] at hbody
    cases hbody
  | opening type =>
    have hne : caseAt js s.1.pos ≠ .stop := by simp [hcase]
    have hlt := lt_length_of_caseAt hne
    simp only [hcase] at hbody
    split at hbody
    · cases hbody
    · next q hq =>
      cases hbody
      obtain ⟨u, hu, rfl⟩ := Option.map_eq_some_iff.mp hq
      obtain ⟨_, rfl⟩ := jsmnAllocToken_eq_some hu
      have hstart : cInt s.1.pos = s.1.pos := cInt_of_lt (by omega)
      have hnew : cInt ((s.1.tokens ++ [Tok.mk type s.1.pos (-1) 0]).length - 1 : ℤ) =
          s.1.toknext := by
        rw [List.length_append, List.length_singleton, Nat.cast_succ, Int.add_sub_cancel]
        exact cInt_of_lt (show s.1.toknext < 2 ^ 31 by omega)
      have hroom : -1 ≤ (s.1.toknext : ℤ) ∧ (s.1.toknext : ℤ) < s.1.toknext + 1 := by omega
      have hadd := hs.add (.opened hcase (Nat.lt_succ_self _)) rfl le_rfl (Nat.lt_succ_self _) hlt
        hroom
      rw [Nat.succ_eq_add_one, ← hadvance hne, ← hnew] at hadd
      rw [hstart, Parser.advance]
      simp only [grow_pos]
      exact hadd
  | closing type =>
    have hne : caseAt js s.1.pos ≠ .stop := by simp [hcase]
    have hlt := lt_length_of_caseAt hne
    simp only [hcase] at hbody
    split at hbody
    · cases hbody
    · next q hq =>
      cases hbody
      obtain ⟨before, tok, behind, super, htokens, hopen, htype, hbehind, hsuper', rfl⟩ :=
        closeToken_eq_some hq
      have hclose := hs.close (htype.symm ▸ hcase) hlt htokens hopen hbehind hsuper'
      rw [← hadvance hne] at hclose
      rw [hint hne]
      exact hclose
  | quote =>
    have hne : caseAt js s.1.pos ≠ .stop := by simp [hcase]
    have hlt := lt_length_of_caseAt hne
    simp only [hcase, jsmnParseString_eq, Option.map_map, Option.map_eq_some_iff] at hbody
    obtain ⟨scan, hscan, hnext⟩ := hbody
    obtain ⟨pos, rfl, ht⟩ := scanned_next hnext
    rw [hadvance hne] at hscan
    obtain ⟨hle, hpos, hquote⟩ := string_found (by omega) hlt hscan
    rw [ht, hint hne, cInt_of_lt (show pos < 2 ^ 31 by omega),
      cUInt_of_lt (show pos + 1 < 2 ^ 32 by omega)]
    exact hs.add (.string hcase hquote hle (Nat.lt_succ_self _)) rfl (Int.le_add_one le_rfl)
      (by omega) hpos (by omega)
  | other =>
    simp only [hcase, jsmnParsePrimitive_eq, Option.map_map, Option.map_eq_some_iff] at hbody
    obtain ⟨scan, hscan, hnext⟩ := hbody
    obtain ⟨pos, rfl, ht⟩ := scanned_next hnext
    obtain ⟨hlt, hpos, hplain⟩ := primitive_found (by omega) hcase hscan
    have hback : cUInt (cUInt (pos + (2 ^ 32 - 1)) + 1) = pos := by
      unfold cUInt
      omega
    rw [ht, cInt_of_lt (show s.1.pos < 2 ^ 31 by omega), cInt_of_lt (show pos < 2 ^ 31 by omega),
      hback]
    exact hs.add (.primitive hlt le_rfl hplain) rfl le_rfl hlt hpos (by omega)
  | blank =>
    simp only [hcase] at hbody
    cases hbody
    exact hskip (by simp [hcase]) _ hsuper
  | colon =>
    simp only [hcase] at hbody
    cases hbody
    apply hskip (by simp [hcase])
    rw [cInt_of_range (by omega) (by have := hs.pos_le; omega)]
    omega
  | comma =>
    simp only [hcase] at hbody
    cases hbody
    have hcomma : ∃ super : ℤ, (-1 ≤ super ∧ super < s.1.toknext) ∧
        commaToken s.1 = { s.1 with toksuper := super } := by
      unfold commaToken
      split
      · split
        · next i hlast =>
          have hi := lastToken_lt hlast
          exact ⟨i, by omega, rfl⟩
        · exact ⟨_, hsuper, rfl⟩
      · exact ⟨_, hsuper, rfl⟩
    obtain ⟨super, hsuper', heq⟩ := hcomma
    rw [heq]
    exact hskip (by simp [hcase]) super hsuper'

/-- A text is accepted at its end, when no token is open. -/
theorem ParseTurn.accepted (h : ParseTurn js n s (.done x)) (hx : 0 ≤ x.1) :
    x = (s.2, s.1) ∧ ∀ tok ∈ s.1.tokens, tok.isOpen = false := by
  obtain ⟨fuel, hfuel⟩ := h
  have hbody := hfuel fuel le_rfl
  have hparsed : ∀ y, Parsed n s.1 y → parsedToken s.2 y ≠ .done x := by
    intro y hy heq
    cases hy with
    | token tok pos hroom => cases heq
    | error err =>
      have hneg := err.code_neg
      rw [parsedToken, if_pos hneg, Turn.done.injEq] at heq
      rw [← heq] at hx
      exact absurd hx (not_le.mpr hneg)
  unfold parseBody at hbody
  cases hcase : caseAt js s.1.pos with
  | stop =>
    simp only [hcase, Option.some.injEq, Turn.done.injEq] at hbody
    rw [← hbody] at hx ⊢
    unfold parseEnd at hx ⊢
    split at hx
    · exact absurd hx (not_le.mpr (JsmnErr.code_neg .part))
    · next hopen =>
      rw [if_neg hopen]
      refine ⟨rfl, fun tok htok => ?_⟩
      simpa using fun htrue => hopen (List.any_eq_true.mpr ⟨tok, htok, htrue⟩)
  | opening type =>
    simp only [hcase] at hbody
    split at hbody <;> cases hbody
    exact absurd hx (not_le.mpr (JsmnErr.code_neg .nomem))
  | closing type =>
    simp only [hcase] at hbody
    split at hbody <;> cases hbody
    exact absurd hx (not_le.mpr (JsmnErr.code_neg .inval))
  | quote =>
    simp only [hcase, Option.map_eq_some_iff] at hbody
    obtain ⟨y, hy, heq⟩ := hbody
    exact absurd heq (hparsed y (jsmnParseString_parsed hy))
  | other =>
    simp only [hcase, Option.map_eq_some_iff] at hbody
    obtain ⟨y, hy, heq⟩ := hbody
    exact absurd heq (hparsed y (jsmnParsePrimitive_parsed hy))
  | blank | colon | comma =>
    simp only [hcase] at hbody
    cases hbody

/-- A call keeps the nesting. -/
theorem ends_nested (hlen : js.length < 2 ^ 31) (h : Ends (ParseTurn js n) s x)
    (hs : Nested js s.1) (hcount : s.2 = cInt s.1.toknext) :
    Nested js x.2 ∧ (0 ≤ x.1 → x.1 = x.2.toknext ∧ ∀ tok ∈ x.2.tokens, tok.isOpen = false) := by
  induction h with
  | @done s x hturn =>
    obtain ⟨r, q⟩ := x
    obtain rfl := hturn.done
    refine ⟨hs, fun hr => ?_⟩
    obtain ⟨heq, hclosed⟩ := hturn.accepted hr
    refine ⟨?_, hclosed⟩
    have hle := hs.count_le
    have hpos := hs.pos_le
    rw [(Prod.mk.inj heq).1, hcount, cInt_of_lt (by omega)]
  | next hturn _ ih => exact ih (hturn.nested hlen hs) (hturn.next hcount)

/-- The tokens are nested after every call. -/
theorem Called.nested (h : Called js p) (hlen : js.length < 2 ^ 31) : Nested js p := by
  induction h with
  | init => exact nested_init js
  | call _ hcall ih =>
    exact (ends_nested hlen (jsmnParse_yields_iff.mp hcall) ih (enter_count _)).1

end Runs

end Wandio.Jsmn
