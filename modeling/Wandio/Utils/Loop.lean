import Mathlib.Logic.Relation
import Mathlib.Order.WellFounded
import Mathlib.Data.List.Basic

/-!
# Loops under a bound on their turns

A `while` loop is its body, one turn at a time. Running it takes a bound on the number of
turns; a computation under such a bound `Yields` a result when it comes to that result under
every bound that is large enough. The two rules of the file are the invariant rule (what
holds if the loop is left) and the rule with a variant (the loop is left).
-/

namespace Wandio.Loop

variable {σ ρ α β : Type*}

/-- One turn of a loop: it goes on with new variables, or it is left with a result. -/
inductive Turn (σ ρ : Type*) where
  | next (s : σ)
  | done (r : ρ)

/-- The variables behind a turn that goes on are as `P` says, and the result of one that does not
as `Q` says. -/
inductive Turn.All (P : σ → Prop) (Q : ρ → Prop) : Turn σ ρ → Prop where
  | next {s : σ} (h : P s) : All P Q (.next s)
  | done {r : ρ} (h : Q r) : All P Q (.done r)

theorem Turn.All.of_next {P : σ → Prop} {Q : ρ → Prop} {s : σ}
    (h : (Turn.next s : Turn σ ρ).All P Q) : P s := by
  cases h with
  | next h => exact h

theorem Turn.All.of_done {P : σ → Prop} {Q : ρ → Prop} {r : ρ}
    (h : (Turn.done r : Turn σ ρ).All P Q) : Q r := by
  cases h with
  | done h => exact h

/-- A turn of the same loop over other variables. -/
def Turn.map {τ π : Type*} (f : σ → τ) (g : ρ → π) : Turn σ ρ → Turn τ π
  | .next s => .next (f s)
  | .done r => .done (g r)

/-- The result of a loop that is left within `fuel` turns. -/
def loop (body : σ → Turn σ ρ) : ℕ → σ → Option ρ
  | 0, _ => none
  | fuel + 1, s =>
    match body s with
    | .next t => loop body fuel t
    | .done r => some r

/-- A computation comes to the result `r` under every bound that is large enough. -/
def Yields (f : ℕ → Option ρ) (r : ρ) : Prop := ∃ enough, ∀ fuel, enough ≤ fuel → f fuel = some r

theorem Yields.unique {f : ℕ → Option ρ} {r r' : ρ} (h : Yields f r) (h' : Yields f r') :
    r = r' := by
  obtain ⟨n, hn⟩ := h
  obtain ⟨m, hm⟩ := h'
  have hr := hn (max n m) (le_max_left _ _)
  rw [hm (max n m) (le_max_right _ _)] at hr
  exact (Option.some.inj hr).symm

theorem Yields.pure (r : ρ) : Yields (fun _ => some r) r := ⟨0, fun _ _ => rfl⟩

/-- One computation after another. -/
theorem Yields.bind {f : ℕ → Option ρ} {g : ρ → ℕ → Option β} {r : ρ} {q : β} (h : Yields f r)
    (h' : Yields (g r) q) : Yields (fun fuel => (f fuel).bind fun r => g r fuel) q := by
  obtain ⟨n, hn⟩ := h
  obtain ⟨m, hm⟩ := h'
  refine ⟨max n m, fun fuel hfuel => ?_⟩
  simp only [hn fuel ((le_max_left _ _).trans hfuel)]
  exact hm fuel ((le_max_right _ _).trans hfuel)

theorem Yields.map {f : ℕ → Option ρ} {r : ρ} (g : ρ → β) (h : Yields f r) :
    Yields (fun fuel => (f fuel).map g) (g r) := by
  obtain ⟨n, hn⟩ := h
  exact ⟨n, fun fuel hfuel => by simp only [hn fuel hfuel, Option.map_some]⟩

/-! ## The rules for loops -/

section Rules

variable {body : σ → Turn σ ρ}

/-- The invariant rule. -/
theorem loop_invariant {I : σ → Prop} {Q : ρ → Prop}
    (hnext : ∀ s t, I s → body s = .next t → I t) (hdone : ∀ s r, I s → body s = .done r → Q r)
    {fuel : ℕ} {s : σ} {r : ρ} (h : I s) (hr : loop body fuel s = some r) : Q r := by
  induction fuel generalizing s with
  | zero => contradiction
  | succ fuel ih =>
    rw [loop] at hr
    cases hbody : body s with
    | next t =>
      rw [hbody] at hr
      exact ih (hnext s t h hbody) hr
    | done q =>
      rw [hbody, Option.some_inj] at hr
      exact hr ▸ hdone s q h hbody

/-- The invariant rule, with one premise for both kinds of turns. -/
theorem loop_all {I : σ → Prop} {Q : ρ → Prop} (hturn : ∀ s, I s → (body s).All I Q) {fuel : ℕ}
    {s : σ} {r : ρ} (h : I s) (hr : loop body fuel s = some r) : Q r := by
  apply loop_invariant (I := I) _ _ h hr
  · intro s t hs hbody
    have ht := hturn s hs
    rw [hbody] at ht
    exact ht.of_next
  · intro s q hs hbody
    have hq := hturn s hs
    rw [hbody] at hq
    exact hq.of_done

/-- A turn that goes on does not change what the loop yields. -/
theorem Yields.next {s t : σ} {r : ρ} (hbody : body s = .next t)
    (h : Yields (fun fuel => loop body fuel t) r) : Yields (fun fuel => loop body fuel s) r := by
  obtain ⟨n, hn⟩ := h
  refine ⟨n + 1, fun fuel hfuel => ?_⟩
  obtain ⟨m, rfl⟩ : ∃ m, fuel = m + 1 := ⟨fuel - 1, by omega⟩
  simp only [loop, hbody]
  exact hn m (by omega)

theorem Yields.done {s : σ} {r : ρ} (hbody : body s = .done r) :
    Yields (fun fuel => loop body fuel s) r := by
  refine ⟨1, fun fuel hfuel => ?_⟩
  obtain ⟨m, rfl⟩ : ∃ m, fuel = m + 1 := ⟨fuel - 1, by omega⟩
  simp only [loop, hbody]

/-- The rule with a variant: a loop whose turns decrease `μ` is left, and what it yields is
as the invariant promises. -/
theorem loop_total {ω : Type*} [Preorder ω] [WellFoundedLT ω] (μ : σ → ω) {I : σ → Prop}
    {Q : ρ → Prop} (hnext : ∀ s t, I s → body s = .next t → I t ∧ μ t < μ s)
    (hdone : ∀ s r, I s → body s = .done r → Q r) {s : σ} (h : I s) :
    ∃ r, Yields (fun fuel => loop body fuel s) r ∧ Q r := by
  -- induction on the variant, with the invariant for the state behind a turn
  induction hs : μ s using WellFoundedLT.induction generalizing s with
  | ind w ih =>
    cases hbody : body s with
    | next t =>
      obtain ⟨ht, hlt⟩ := hnext s t h hbody
      obtain ⟨r, hr, hq⟩ := ih (μ t) (hs ▸ hlt) ht rfl
      exact ⟨r, hr.next hbody, hq⟩
    | done r => exact ⟨r, .done hbody, hdone s r h hbody⟩

/-- The turns of a loop where `p` holds, as a loop of their own. -/
def part (p : σ → Prop) [DecidablePred p] (body : σ → Turn σ ρ) (s : σ) : Turn σ (σ ⊕ ρ) :=
  if p s then
    match body s with
    | .next t => .next t
    | .done r => .done (.inr r)
  else .done (.inl s)

/-- The rule with a variant for a part of a loop. -/
theorem part_total {ω : Type*} [Preorder ω] [WellFoundedLT ω] (μ : σ → ω) {p : σ → Prop}
    [DecidablePred p] {I : σ → Prop} {Q : ρ → Prop}
    (hturn : ∀ s, p s → I s → (body s).All (fun t => I t ∧ μ t < μ s) Q) {s : σ} (h : I s) :
    ∃ r, Yields (fun fuel => loop (part p body) fuel s) r ∧
      r.elim (fun t => I t ∧ ¬ p t) Q := by
  apply loop_total μ (I := I) (Q := fun r : σ ⊕ ρ => r.elim (fun t => I t ∧ ¬ p t) Q) _ _ h
  · intro s t hs hbody
    unfold part at hbody
    split at hbody
    · next hp =>
      have hall := hturn s hp hs
      split at hbody
      · next u hnext =>
        cases hbody
        rw [hnext] at hall
        exact hall.of_next
      · cases hbody
    · cases hbody
  · intro s r hs hbody
    unfold part at hbody
    split at hbody
    · next hp =>
      have hall := hturn s hp hs
      split at hbody
      · cases hbody
      · next q hdone =>
        cases hbody
        rw [hdone] at hall
        exact hall.of_done
    · next hp =>
      cases hbody
      exact ⟨hs, hp⟩

/-- A loop that is started at `s` takes a turn at `t`. -/
def Visits (body : σ → Turn σ ρ) : σ → σ → Prop := Relation.ReflTransGen fun s t => body s = .next t

/-- What every turn preserves holds wherever a turn is taken. -/
theorem Visits.all {I : σ → Prop} {Q : ρ → Prop} (hturn : ∀ s, I s → (body s).All I Q) {s t : σ}
    (h : Visits body s t) (hs : I s) : I t := by
  induction h with
  | refl => exact hs
  | tail _ hbody ih =>
    have ht := hturn _ ih
    rw [hbody] at ht
    exact ht.of_next

/-- In the rule with a variant, the turns to look at are those that are taken. -/
theorem loop_total_visits {ω : Type*} [Preorder ω] [WellFoundedLT ω] (μ : σ → ω) {I : σ → Prop}
    {Q : ρ → Prop} {s : σ}
    (hnext : ∀ t u, Visits body s t → I t → body t = .next u → I u ∧ μ u < μ t)
    (hdone : ∀ t r, Visits body s t → I t → body t = .done r → Q r) (h : I s) :
    ∃ r, Yields (fun fuel => loop body fuel s) r ∧ Q r := by
  refine loop_total μ (I := fun t => Visits body s t ∧ I t) (fun t u ht hu => ?_)
    (fun t r ht hr => hdone t r ht.1 ht.2 hr) ⟨.refl, h⟩
  obtain ⟨hI, hlt⟩ := hnext t u ht.1 ht.2 hu
  exact ⟨⟨ht.1.tail hu, hI⟩, hlt⟩

/-- A larger bound does no harm. -/
theorem loop_mono {fuel more : ℕ} {s : σ} {r : ρ} (h : loop body fuel s = some r)
    (hle : fuel ≤ more) : loop body more s = some r := by
  induction fuel generalizing s more with
  | zero => contradiction
  | succ fuel ih =>
    obtain ⟨m, rfl⟩ : ∃ m, more = m + 1 := ⟨more - 1, by omega⟩
    rw [loop] at h ⊢
    cases hbody : body s with
    | next t =>
      rw [hbody] at h
      exact ih h (by omega)
    | done q =>
      rw [hbody] at h
      exact h

/-- A loop whose body needs a bound itself, against one whose body does not: where each turn of the
one is the turn of the other under every bound that is large enough, so is the result. -/
theorem Yields.loop_map {τ π : Type*} {body' : ℕ → τ → Turn τ π} (f : σ → τ) (g : ρ → π)
    {I : σ → Prop} {Q : ρ → Prop} (hturn : ∀ s, I s → (body s).All I Q)
    (hbody : ∀ s, I s → ∃ n, ∀ fuel, n ≤ fuel → body' fuel (f s) = (body s).map f g) {s : σ} {r : ρ}
    (h : I s) (hr : Yields (fun fuel => loop body fuel s) r) :
    Yields (fun fuel => loop (body' fuel) fuel (f s)) (g r) := by
  obtain ⟨turns, hturns⟩ := hr
  have hloop : loop body turns s = some r := hturns turns le_rfl
  -- the bound on the turns and the bounds of the bodies are kept apart
  have hsplit : ∃ n, ∀ fuel, n ≤ fuel → loop (body' fuel) turns (f s) = some (g r) := by
    clear hturns
    induction turns generalizing s with
    | zero => contradiction
    | succ turns ih =>
      obtain ⟨n, hn⟩ := hbody s h
      have hall := hturn s h
      rw [loop] at hloop
      cases hcase : body s with
      | next t =>
        rw [hcase] at hloop hall
        obtain ⟨m, hm⟩ := ih hall.of_next hloop
        refine ⟨max n m, fun fuel hfuel => ?_⟩
        rw [loop, hn fuel ((le_max_left _ _).trans hfuel), hcase]
        exact hm fuel ((le_max_right _ _).trans hfuel)
      | done q =>
        rw [hcase, Option.some_inj] at hloop
        refine ⟨n, fun fuel hfuel => ?_⟩
        rw [loop, hn fuel hfuel, hcase, ← hloop]
        rfl
  obtain ⟨n, hn⟩ := hsplit
  refine ⟨max n turns, fun fuel hfuel => ?_⟩
  exact loop_mono (hn fuel ((le_max_left _ _).trans hfuel)) ((le_max_right _ _).trans hfuel)

/-- A loop whose turns all go on is not left. -/
theorem loop_diverges {I : σ → Prop} (hnext : ∀ s, I s → ∃ t, body s = .next t ∧ I t) {s : σ}
    (h : I s) (fuel : ℕ) : loop body fuel s = none := by
  induction fuel generalizing s with
  | zero => rfl
  | succ fuel ih =>
    obtain ⟨t, hbody, ht⟩ := hnext s h
    rw [loop, hbody]
    exact ih ht

/-- A loop that comes to `t` ends as a loop from there. -/
theorem Visits.loop_iff {s t : σ} (h : Visits body s t) (r : ρ) :
    (∃ fuel, loop body fuel s = some r) ↔ ∃ fuel, loop body fuel t = some r := by
  induction h with
  | refl => exact Iff.rfl
  | tail _ hbody ih =>
    rw [ih]
    constructor
    · rintro ⟨fuel, hr⟩
      cases fuel with
      | zero => contradiction
      | succ fuel =>
        rw [loop, hbody] at hr
        exact ⟨fuel, hr⟩
    · rintro ⟨fuel, hr⟩
      refine ⟨fuel + 1, ?_⟩
      rw [loop, hbody]
      exact hr

/-- The turns of a loop that is left within `fuel` turns. -/
def turns (body : σ → Turn σ ρ) : ℕ → σ → List σ
  | 0, _ => []
  | fuel + 1, s =>
    s ::
      match body s with
      | .next t => turns body fuel t
      | .done _ => []

theorem mem_turns {fuel : ℕ} {s t : σ} (hr : (loop body fuel s).isSome) (h : Visits body s t) :
    t ∈ turns body fuel s := by
  induction fuel generalizing s with
  | zero => contradiction
  | succ fuel ih =>
    rw [turns]
    rw [loop] at hr
    rcases Relation.ReflTransGen.cases_head h with rfl | ⟨u, hu, hut⟩
    · exact List.mem_cons_self ..
    · rw [hu] at hr ⊢
      exact List.mem_cons_of_mem _ (ih hr hut)

/-- The invariant rule, where the invariant may speak of the turns so far. -/
theorem loop_turns {I : List σ → σ → Prop} {Q : List σ → ρ → Prop}
    (hnext : ∀ seen s t, I seen s → body s = .next t → I (seen ++ [s]) t)
    (hdone : ∀ seen s r, I seen s → body s = .done r → Q (seen ++ [s]) r) {fuel : ℕ}
    (seen : List σ) {s : σ} {r : ρ} (h : I seen s) (hr : loop body fuel s = some r) :
    Q (seen ++ turns body fuel s) r := by
  induction fuel generalizing seen s with
  | zero => contradiction
  | succ fuel ih =>
    rw [loop] at hr
    rw [turns]
    cases hbody : body s with
    | next t =>
      rw [hbody] at hr
      have hrest := ih (seen ++ [s]) (hnext seen s t h hbody) hr
      rwa [List.append_assoc] at hrest
    | done q =>
      rw [hbody, Option.some_inj] at hr
      exact hr ▸ hdone seen s q h hbody

end Rules

/-! ## Loops in loops -/

/-- The result of a loop whose body has loops of its own, under one bound for all of them. -/
def nested (body : ℕ → σ → Option (Turn σ ρ)) : ℕ → σ → Option ρ
  | 0, _ => none
  | fuel + 1, s =>
    (body fuel s).bind fun
      | .next t => nested body fuel t
      | .done r => some r

/-- Under a larger bound a computation comes to the same result. -/
def Steady (f : ℕ → Option ρ) : Prop :=
  ∀ fuel more r, f fuel = some r → fuel ≤ more → f more = some r

theorem Steady.yields_iff {f : ℕ → Option ρ} (h : Steady f) {r : ρ} :
    Yields f r ↔ ∃ fuel, f fuel = some r := by
  constructor
  · intro ⟨n, hn⟩
    exact ⟨n, hn n le_rfl⟩
  · intro ⟨n, hn⟩
    exact ⟨n, fun fuel hfuel => h n fuel r hn hfuel⟩

theorem Steady.const (r : Option ρ) : Steady fun _ => r := fun _ _ _ h _ => h

theorem Steady.map {f : ℕ → Option ρ} (h : Steady f) (g : ρ → β) :
    Steady fun fuel => (f fuel).map g := by
  intro fuel more r hr hle
  simp only [Option.map_eq_some_iff] at hr ⊢
  obtain ⟨q, hq, heq⟩ := hr
  exact ⟨q, h fuel more q hq hle, heq⟩

theorem Steady.loop (body : σ → Turn σ ρ) (s : σ) : Steady fun fuel => loop body fuel s :=
  fun _ _ _ h hle => loop_mono h hle

theorem Steady.nested {body : ℕ → σ → Option (Turn σ ρ)} (h : ∀ s, Steady fun fuel => body fuel s)
    (s : σ) : Steady fun fuel => nested body fuel s := by
  intro fuel
  induction fuel generalizing s with
  | zero => nofun
  | succ fuel ih =>
    intro more r hr hle
    obtain ⟨m, rfl⟩ : ∃ m, more = m + 1 := ⟨more - 1, by omega⟩
    simp only [Loop.nested, Option.bind_eq_some_iff] at hr ⊢
    obtain ⟨turn, hturn, hrest⟩ := hr
    refine ⟨turn, h s fuel m turn hturn (by omega), ?_⟩
    cases turn with
    | next t => exact ih t m r hrest (by omega)
    | done q => exact hrest

/-- From `s` on the turns of `step` lead to the result `r`. -/
inductive Ends (step : σ → Turn σ ρ → Prop) : σ → ρ → Prop where
  | done {s : σ} {r : ρ} : step s (.done r) → Ends step s r
  | next {s t : σ} {r : ρ} : step s (.next t) → Ends step t r → Ends step s r

theorem Ends.unique {step : σ → Turn σ ρ → Prop}
    (hstep : ∀ s turn turn', step s turn → step s turn' → turn = turn') {s : σ} {r r' : ρ}
    (h : Ends step s r) (h' : Ends step s r') : r = r' := by
  induction h with
  | done hs =>
    cases h' with
    | done hs' => exact Turn.done.inj (hstep _ _ _ hs hs')
    | next hs' _ => cases hstep _ _ _ hs hs'
  | next hs _ ih =>
    cases h' with
    | done hs' => cases hstep _ _ _ hs hs'
    | next hs' hrest' =>
      cases hstep _ _ _ hs hs'
      exact ih hrest'

/-- A loop with loops in its body, turn by turn. -/
theorem nested_yields_iff {body : ℕ → σ → Option (Turn σ ρ)}
    (h : ∀ s, Steady fun fuel => body fuel s) {s : σ} {r : ρ} :
    Yields (fun fuel => nested body fuel s) r ↔
      Ends (fun s turn => Yields (fun fuel => body fuel s) turn) s r := by
  rw [(Steady.nested h s).yields_iff]
  constructor
  · intro ⟨fuel, hr⟩
    induction fuel generalizing s with
    | zero => contradiction
    | succ fuel ih =>
      simp only [nested, Option.bind_eq_some_iff] at hr
      obtain ⟨turn, hturn, hrest⟩ := hr
      have hyields := (h s).yields_iff.mpr ⟨fuel, hturn⟩
      cases turn with
      | next t => exact .next hyields (ih hrest)
      | done q => exact .done (Option.some.inj hrest ▸ hyields)
  · intro hends
    induction hends with
    | done hs =>
      obtain ⟨n, hn⟩ := hs
      refine ⟨n + 1, ?_⟩
      simp only [nested, hn n le_rfl, Option.bind_some]
    | @next s t r hs _ ih =>
      obtain ⟨n, hn⟩ := hs
      obtain ⟨m, hm⟩ := ih
      refine ⟨max n m + 1, ?_⟩
      simp only [nested, hn _ (le_max_left n m), Option.bind_some]
      exact Steady.nested h t m _ r hm (le_max_right n m)

/-! ## Logs -/

/-- Every entry of a log is as `P` says, given the entries before it. -/
def Each (P : List α → α → Prop) (log : List α) : Prop :=
  ∀ before e after, log = before ++ e :: after → P before e

theorem Each.nil {P : List α → α → Prop} : Each P [] := by
  intro before e after heq
  simp at heq

/-- A log grows by an entry that is as it should be. -/
theorem Each.append {P : List α → α → Prop} {log : List α} {e : α} (h : Each P log)
    (he : P log e) : Each P (log ++ [e]) := by
  intro before e' after heq
  -- the entry is the new one or one of the old ones
  rcases List.eq_nil_or_concat' after with rfl | ⟨after', x, rfl⟩
  · obtain ⟨hlog, hlast⟩ := List.append_inj' heq rfl
    have he' : e' = e := by simpa using hlast.symm
    rw [← hlog, he']
    exact he
  · have hlog : log = before ++ e' :: after' := by
      have hsplit : log ++ [e] = (before ++ e' :: after') ++ [x] := by rw [heq]; simp
      exact (List.append_inj' hsplit rfl).1
    exact h before e' after' hlog

/-! ## Sequences of calls -/

/-- The calls of a list, one after the other, each with its result. -/
def runCalls (call : α → σ → Option (β × σ)) : List α → σ → Option (List (α × β) × σ)
  | [], s => some ([], s)
  | a :: as, s =>
    (call a s).bind fun r => (runCalls call as r.2).map fun q => ((a, r.1) :: q.1, q.2)

/-- Calls that are made in two lots. -/
theorem runCalls_append (call : α → σ → Option (β × σ)) (as bs : List α) (s : σ) :
    runCalls call (as ++ bs) s =
      (runCalls call as s).bind fun r =>
        (runCalls call bs r.2).map fun q => (r.1 ++ q.1, q.2) := by
  induction as generalizing s with
  | nil =>
    rw [List.nil_append, runCalls, Option.bind_some]
    simp
  | cons a as ih =>
    rw [List.cons_append, runCalls, runCalls]
    cases call a s with
    | none => rfl
    | some r =>
      rw [Option.bind_some, Option.bind_some, ih]
      cases runCalls call as r.2 with
      | none => rfl
      | some q =>
        simp only [Option.bind_some, Option.map_some]
        cases runCalls call bs q.2 <;> rfl

/-- The invariant rule for calls; the invariant may speak of the results so far. -/
theorem runCalls_invariant {call : α → σ → Option (β × σ)} {I : List (α × β) → σ → Prop}
    {as : List α}
    (hcall : ∀ log a s b t, a ∈ as → I log s → call a s = some (b, t) → I (log ++ [(a, b)]) t)
    (log : List (α × β)) {s t : σ} {log' : List (α × β)} (h : I log s)
    (hr : runCalls call as s = some (log', t)) : I (log ++ log') t := by
  induction as generalizing log s log' with
  | nil =>
    rw [runCalls, Option.some_inj, Prod.mk.injEq] at hr
    rw [← hr.1, ← hr.2, List.append_nil]
    exact h
  | cons a as ih =>
    rw [runCalls, Option.bind_eq_some_iff] at hr
    obtain ⟨⟨b, u⟩, hb, hr⟩ := hr
    rw [Option.map_eq_some_iff] at hr
    obtain ⟨⟨rest, v⟩, hrest, heq⟩ := hr
    obtain ⟨rfl, rfl⟩ := Prod.mk.inj heq
    have hu := hcall log a s b u (List.mem_cons_self ..) h hb
    have hv := ih (fun log a s b t ha => hcall log a s b t (List.mem_cons_of_mem _ ha)) _ hu hrest
    rw [List.append_cons]
    exact hv

/-- The log names the calls. -/
theorem runCalls_fst {call : α → σ → Option (β × σ)} {as : List α} {s t : σ} {log : List (α × β)}
    (hr : runCalls call as s = some (log, t)) : log.map Prod.fst = as := by
  induction as generalizing s log with
  | nil =>
    rw [runCalls, Option.some_inj, Prod.mk.injEq] at hr
    rw [← hr.1, List.map_nil]
  | cons a as ih =>
    rw [runCalls, Option.bind_eq_some_iff] at hr
    obtain ⟨⟨b, u⟩, -, hr⟩ := hr
    rw [Option.map_eq_some_iff] at hr
    obtain ⟨⟨rest, v⟩, hrest, heq⟩ := hr
    cases heq
    rw [List.map_cons, ih hrest]

theorem Yields.runCalls_nil {call : α → σ → ℕ → Option (β × σ)} {s : σ} :
    Yields (fun fuel => runCalls (fun a s => call a s fuel) [] s) ([], s) := .pure _

/-- A call that returns, and then the others. -/
theorem Yields.runCalls_cons {call : α → σ → ℕ → Option (β × σ)} {a : α} {as : List α} {b : β}
    {log : List (α × β)} {s t u : σ} (h : Yields (call a s) (b, t))
    (h' : Yields (fun fuel => runCalls (fun a s => call a s fuel) as t) (log, u)) :
    Yields (fun fuel => runCalls (fun a s => call a s fuel) (a :: as) s) ((a, b) :: log, u) :=
  h.bind (h'.map fun q => ((a, b) :: q.1, q.2))

/-- Calls that all return: so does the sequence. -/
theorem runCalls_total {call : α → σ → ℕ → Option (β × σ)} {I : List (α × β) → σ → Prop}
    {as : List α}
    (hcall : ∀ log a s, a ∈ as → I log s →
      ∃ r, Yields (call a s) r ∧ I (log ++ [(a, r.1)]) r.2)
    (log : List (α × β)) {s : σ} (h : I log s) :
    ∃ q, Yields (fun fuel => runCalls (fun a s => call a s fuel) as s) q ∧ I (log ++ q.1) q.2 ∧
      q.1.map Prod.fst = as := by
  induction as generalizing log s with
  | nil => exact ⟨([], s), .runCalls_nil, by rwa [List.append_nil], rfl⟩
  | cons a as ih =>
    obtain ⟨⟨b, t⟩, hb, ht⟩ := hcall log a s (List.mem_cons_self ..) h
    obtain ⟨⟨rest, u⟩, hrest, hu, has⟩ :=
      ih (fun log a s ha => hcall log a s (List.mem_cons_of_mem _ ha)) _ ht
    refine ⟨((a, b) :: rest, u), hb.runCalls_cons hrest, ?_, ?_⟩
    · rw [List.append_cons]
      exact hu
    · rw [List.map_cons, has]

/-- The same for calls that need no bound. -/
theorem runCalls_some {call : α → σ → Option (β × σ)} {I : List (α × β) → σ → Prop}
    {as : List α}
    (hcall : ∀ log a s, a ∈ as → I log s → ∃ r, call a s = some r ∧ I (log ++ [(a, r.1)]) r.2)
    (log : List (α × β)) {s : σ} (h : I log s) :
    ∃ q, runCalls call as s = some q ∧ I (log ++ q.1) q.2 ∧ q.1.map Prod.fst = as := by
  have htotal : ∀ log a s, a ∈ as → I log s →
      ∃ r, Yields (fun _ : ℕ => call a s) r ∧ I (log ++ [(a, r.1)]) r.2 := by
    intro log a s ha hs
    obtain ⟨r, hr, hI⟩ := hcall log a s ha hs
    exact ⟨r, ⟨0, fun _ _ => hr⟩, hI⟩
  obtain ⟨q, ⟨n, hn⟩, hq⟩ := runCalls_total htotal log h
  exact ⟨q, hn n le_rfl, hq⟩

end Wandio.Loop
