import Mathlib.Data.List.Chain
import Wandio.Interface
import Wandio.Utils.Transition

/-!
# What a read has put into the caller's buffer

A read can meet an error when a part of the caller's buffer has been filled. The bytes are not
lost if it ends there and returns their number, and the error if the read behind it returns that.
-/

namespace Wandio.Readers

open Transition

variable {σ : Type*}

/-- A read: what it returns, what has been put into the caller's buffer meanwhile, and for each
error that it has met, what had been put there by then. -/
structure Outcome where
  result : ReadResult
  placed : List Byte
  errors : List (List Byte)

/-- The read returns the number of bytes that have been put into the caller's buffer. -/
def Outcome.Reports (e : Outcome) : Prop :=
  e.result.ret.toNat = e.placed.length ∧ e.result.data.take e.result.ret.toNat = e.placed

/-- An error has been met behind some output. -/
def Outcome.Interrupted (e : Outcome) : Prop := ∃ p ∈ e.errors, p ≠ []

/-- An error behind some output ends the read. -/
def Outcome.Stops (e : Outcome) : Prop := ∀ p ∈ e.errors, p ≠ [] → e.placed = p

/-- Every read returns what has been put into the caller's buffer, an error behind some output
ends it, and then the next read returns an error. -/
def Kept (log : List Outcome) : Prop :=
  (∀ e ∈ log, e.Reports ∧ e.Stops) ∧
    log.IsChain fun e e' => e.Interrupted → e'.result.ret < 0

/-- The bytes that the caller is told of. -/
def reported (log : List Outcome) : List Byte :=
  log.flatMap fun e => e.result.data.take e.result.ret.toNat

/-- A read of some length, by a bound on the turns of its loops. -/
abbrev Read (σ : Type*) := ℕ → σ → ℕ → Option (Outcome × σ)

/-- A reader in state `s` and reads of any lengths. -/
def reads (read : Read σ) (s : σ) : System (σ × List Outcome) (ℕ × ℕ) where
  init := (s, [])
  next p a := (read a.1 p.1 a.2).map fun q => (q.2, p.2 ++ [q.1])

/-- The same, as long as the reads meet the condition `p`. -/
def readsWhile (read : Read σ) (p : σ → ℕ × ℕ → Bool) (s : σ) : System (σ × List Outcome) (ℕ × ℕ) :=
  (reads read s).restrict fun q a => p q.1 a

/-- The read with outcome `e` has lost nothing, whatever the read behind it is. -/
def Keeps (read : Read σ) (e : Outcome) (t : σ) : Prop :=
  e.Reports ∧ e.Stops ∧
    (e.Interrupted → ∀ len fuel e' t', read len t fuel = some (e', t') → e'.result.ret < 0)

instance (e : Outcome) : Decidable e.Reports := inferInstanceAs (Decidable (_ ∧ _))

instance (e : Outcome) : Decidable e.Interrupted :=
  inferInstanceAs (Decidable (∃ p ∈ e.errors, p ≠ []))

instance (e : Outcome) : Decidable e.Stops :=
  inferInstanceAs (Decidable (∀ p ∈ e.errors, p ≠ [] → e.placed = p))

instance : DecidablePred Kept := fun _ => inferInstanceAs (Decidable (_ ∧ _))

/-- An entry at the end of a list, and what it is mapped to. -/
theorem filterMap_concat {α β : Type*} (f : α → Option β) (l : List α) (a : α) :
    (l ++ [a]).filterMap f = l.filterMap f ++ (f a).toList := by
  rw [List.filterMap_append, List.filterMap_cons]
  cases f a <;> rfl

theorem Outcome.reports_of_nil {e : Outcome} (hplaced : e.placed = []) (hret : e.result.ret ≤ 0) :
    e.Reports := by
  have hzero : e.result.ret.toNat = 0 := Int.toNat_of_nonpos hret
  unfold Reports
  rw [hzero, hplaced]
  exact ⟨rfl, rfl⟩

theorem Outcome.reports_of_eq {e : Outcome} (hret : e.result.ret = e.placed.length)
    (hdata : e.result.data = e.placed) : e.Reports := by
  have hcount : e.result.ret.toNat = e.placed.length := by omega
  unfold Reports
  rw [hcount, hdata]
  exact ⟨rfl, List.take_length⟩

/-- What is lost is not reported. -/
theorem Outcome.not_reports {e : Outcome} (hplaced : e.placed ≠ []) (hret : e.result.ret ≤ 0) :
    ¬ e.Reports := by
  rintro ⟨hcount, -⟩
  have hpos := List.length_pos_iff.mpr hplaced
  omega

/-- A read without an error behind some output has only to say what it has got. -/
theorem keeps_of_reports {read : Read σ} {e : Outcome} (t : σ) (hreports : e.Reports)
    (hquiet : ¬ e.Interrupted) : Keeps read e t :=
  ⟨hreports, fun p hp hne => absurd ⟨p, hp, hne⟩ hquiet, fun h => absurd h hquiet⟩

/-- When the next read returns no error, there must be none to return. -/
theorem not_keeps_of_next {read : Read σ} {e e' : Outcome} {t t' : σ} (hmet : e.Interrupted)
    {len fuel : ℕ} (hnext : read len t fuel = some (e', t')) (hret : 0 ≤ e'.result.ret) :
    ¬ Keeps read e t := fun hkeeps =>
  absurd (hkeeps.2.2 hmet len fuel e' t' hnext) (not_lt.mpr hret)

theorem reported_eq {log : List Outcome} (h : Kept log) :
    reported log = log.flatMap Outcome.placed :=
  List.flatMap_congr fun e he => (h.1 e he).1.2

/-- If the reads of a run keep what they have got, so does the run. -/
theorem kept_reachable {read : Read σ} {s : σ} {I : σ → Prop} {p : σ → ℕ × ℕ → Bool} (hinit : I s)
    (hread : ∀ s len fuel e t, I s → p s (len, fuel) = true → read len s fuel = some (e, t) →
      I t ∧ Keeps read e t)
    {q : σ × List Outcome} (h : Reachable (readsWhile read p s) q) :
    I q.1 ∧ Kept q.2 := by
  -- the invariant looks ahead to the next read
  have hinv : I q.1 ∧ Kept q.2 ∧ ∀ e ∈ q.2.getLast?, Keeps read e q.1 := by
    apply h.invariant (I := fun q => I q.1 ∧ Kept q.2 ∧ ∀ e ∈ q.2.getLast?, Keeps read e q.1)
    · refine ⟨hinit, ⟨fun e he => absurd he List.not_mem_nil, .nil⟩, fun e he => ?_⟩
      have hnone : (none : Option Outcome) = some e := he
      contradiction
    · rintro ⟨u, log⟩ ⟨len, fuel⟩ v ⟨hI, ⟨hreports, hchain⟩, hlast⟩ hs
      obtain ⟨hp, hnext⟩ := restrict_next.mp hs
      obtain ⟨⟨e, t⟩, he, rfl⟩ := Option.map_eq_some_iff.mp hnext
      obtain ⟨hIt, hkeeps⟩ := hread u len fuel e t hI hp he
      refine ⟨hIt, ⟨fun e' he' => ?_, ?_⟩, fun e' he' => ?_⟩
      · rcases List.mem_append.mp he' with hold | hnew
        · exact hreports e' hold
        · rw [List.mem_singleton.mp hnew]
          exact ⟨hkeeps.1, hkeeps.2.1⟩
      · refine List.isChain_append.mpr ⟨hchain, .singleton _, fun x hx y hy => ?_⟩
        obtain rfl : e = y := by simpa using hy
        exact fun hmet => (hlast x hx).2.2 hmet len fuel e t he
      · obtain rfl : e = e' := by simpa using he'
        exact hkeeps
  exact ⟨hinv.1, hinv.2.1⟩

end Wandio.Readers
