import Mathlib.Logic.Relation
import Mathlib.Data.Nat.Notation

/-!
# Labelled transition systems

A system has one initial state and a partial step function that takes the choice made by
the environment (which thread runs next, whether a sleeper wakes up) as a label. The
states a program can be in, under every order of steps, are the `Reachable` ones.

* `Reachable.invariant` is the one induction over runs: an inductive property holds of
  every reachable state;
* `exec` runs a list of labels, so that a concrete schedule can be evaluated;
* `System.restrict` keeps the runs whose steps all meet a condition;
* `countSteps_le` bounds the number of steps of a kind in a run by a budget, and
  `countSteps_le_budget` by one that another kind of steps may raise;
* `exists_exec` is the end of a run that some steps always come closer to.
-/

namespace Wandio.Transition

/-- A transition system over states `σ` and labels `ℓ`; `next s l = none` when `l` is
not enabled in `s`. -/
structure System (σ ℓ : Type*) where
  init : σ
  next : σ → ℓ → Option σ

variable {σ ℓ : Type*} {S : System σ ℓ}

/-- The states of all runs of `S`. -/
inductive Reachable (S : System σ ℓ) : σ → Prop where
  | init : Reachable S S.init
  | next {s s' : σ} {l : ℓ} : Reachable S s → S.next s l = some s' → Reachable S s'

/-- An inductive property holds of every reachable state. -/
theorem Reachable.invariant {I : σ → Prop} (hinit : I S.init)
    (hnext : ∀ s l s', I s → S.next s l = some s' → I s') {s : σ} (h : Reachable S s) : I s := by
  induction h with
  | init => exact hinit
  | next _ hs ih => exact hnext _ _ _ ih hs

/-- Runs the labels of a schedule in order. -/
def exec (S : System σ ℓ) : σ → List ℓ → Option σ
  | s, [] => some s
  | s, l :: ls => (S.next s l).bind (exec S · ls)

/-- A schedule leads from a reachable state to a reachable state. -/
theorem Reachable.exec {s s' : σ} {ls : List ℓ} (h : Reachable S s)
    (he : exec S s ls = some s') : Reachable S s' := by
  induction ls generalizing s with
  | nil =>
    rw [Transition.exec, Option.some_inj] at he
    exact he ▸ h
  | cons l ls ih =>
    rw [Transition.exec, Option.bind_eq_some_iff] at he
    obtain ⟨t, ht, hrest⟩ := he
    exact ih (.next h ht) hrest

/-- The runs of `S` in which every step meets `p`. -/
def System.restrict (S : System σ ℓ) (p : σ → ℓ → Bool) : System σ ℓ where
  init := S.init
  next s l := if p s l then S.next s l else none

theorem restrict_next {p : σ → ℓ → Bool} {s t : σ} {l : ℓ} :
    (S.restrict p).next s l = some t ↔ p s l = true ∧ S.next s l = some t := by
  show (if p s l = true then S.next s l else none) = some t ↔ _
  by_cases hp : p s l = true
  · rw [if_pos hp]
    exact (and_iff_right hp).symm
  · rw [if_neg hp]
    exact iff_of_false (by simp) fun h => hp h.1

/-- The number of steps of a run that `p` counts. -/
def countSteps (S : System σ ℓ) (p : σ → ℓ → Bool) : σ → List ℓ → ℕ
  | _, [] => 0
  | s, l :: ls => (if p s l then 1 else 0) + (S.next s l).elim 0 (countSteps S p · ls)

/-- A run takes no more counted steps than its budget, if no step raises the budget and each
counted one costs. -/
theorem countSteps_le {p : σ → ℓ → Bool} {I : σ → ℕ → Prop}
    (hnext : ∀ s l t n, I s n → S.next s l = some t →
      ∃ m, I t m ∧ (if p s l then 1 else 0) + m ≤ n)
    {s t : σ} {ls : List ℓ} {n : ℕ} (h : I s n) (he : exec S s ls = some t) :
    countSteps S p s ls ≤ n := by
  induction ls generalizing s n with
  | nil => exact Nat.zero_le n
  | cons l ls ih =>
    rw [Transition.exec, Option.bind_eq_some_iff] at he
    obtain ⟨u, hu, hrest⟩ := he
    obtain ⟨m, hm, hle⟩ := hnext s l u n h hu
    have hcount := ih hm hrest
    rw [countSteps, hu]
    show (if p s l then 1 else 0) + countSteps S p u ls ≤ n
    omega

/-- The steps of a run that `p` counts are paid by a budget and by the steps that `q` counts, if
each step of `p` costs and only those of `q` raise the budget. -/
theorem countSteps_le_budget {p q : σ → ℓ → Bool} {I : σ → ℕ → Prop}
    (hnext : ∀ s l t n, I s n → S.next s l = some t →
      ∃ m, I t m ∧ (if p s l then 1 else 0) + m ≤ n + if q s l then 1 else 0)
    {s t : σ} {ls : List ℓ} {n : ℕ} (h : I s n) (he : exec S s ls = some t) :
    countSteps S p s ls ≤ n + countSteps S q s ls := by
  induction ls generalizing s n with
  | nil => exact Nat.zero_le _
  | cons l ls ih =>
    rw [Transition.exec, Option.bind_eq_some_iff] at he
    obtain ⟨u, hu, hrest⟩ := he
    obtain ⟨m, hm, hle⟩ := hnext s l u n h hu
    have hcount := ih hm hrest
    rw [countSteps, countSteps, hu]
    show (if p s l then 1 else 0) + countSteps S p u ls ≤
      n + ((if q s l then 1 else 0) + countSteps S q u ls)
    omega

/-- The same with a measure of the state for a budget. -/
theorem countSteps_le_add {p q : σ → ℓ → Bool} {I : σ → Prop} {measure : σ → ℕ}
    (hnext : ∀ s l t, I s → S.next s l = some t →
      I t ∧ (if p s l then 1 else 0) + measure t ≤ measure s + if q s l then 1 else 0)
    {s t : σ} {ls : List ℓ} (h : I s) (he : exec S s ls = some t) :
    countSteps S p s ls ≤ measure s + countSteps S q s ls := by
  refine countSteps_le_budget (I := fun s n => I s ∧ n = measure s) ?_ ⟨h, rfl⟩ he
  rintro s l t n ⟨hs, rfl⟩ hstep
  obtain ⟨ht, hle⟩ := hnext s l t hs hstep
  exact ⟨_, ⟨ht, rfl⟩, hle⟩

/-- If before the end a step of the kind `p` is always possible and costs, such steps alone lead to
the end. -/
theorem exists_exec {p : ℓ → Prop} {stop : σ → Prop} {I : σ → ℕ → Prop}
    (hnext : ∀ s n, I s n → ¬ stop s → ∃ l t m, p l ∧ S.next s l = some t ∧ I t m ∧ m < n)
    {s : σ} {n : ℕ} (h : I s n) :
    ∃ ls t, (∀ l ∈ ls, p l) ∧ exec S s ls = some t ∧ stop t := by
  -- induction on the budget that is left
  induction n using Nat.strongRecOn generalizing s with
  | _ n ih =>
    by_cases hstop : stop s
    · exact ⟨[], s, fun l hl => absurd hl List.not_mem_nil, rfl, hstop⟩
    · obtain ⟨l, t, m, hl, hs, hm, hlt⟩ := hnext s n h hstop
      obtain ⟨ls, u, hls, hrun, hu⟩ := ih m hlt hm
      refine ⟨l :: ls, u, List.forall_mem_cons.mpr ⟨hl, hls⟩, ?_, hu⟩
      rw [exec, hs, Option.bind_some]
      exact hrun

/-- A schedule whose last state passes the test `p` gives a reachable state that passes it. -/
theorem exists_reachable_of_exec (S : System σ ℓ) (ls : List ℓ) (p : σ → Bool)
    (h : (exec S S.init ls).any p = true) : ∃ s, Reachable S s ∧ p s = true := by
  obtain ⟨s, hs, hp⟩ := (Option.any_eq_true_iff_get p _).mp h |>.elim fun hsome hget =>
    (⟨_, Option.some_get hsome |>.symm, hget⟩ : ∃ s, exec S S.init ls = some s ∧ p s = true)
  exact ⟨s, Reachable.init.exec hs, hp⟩

end Wandio.Transition
