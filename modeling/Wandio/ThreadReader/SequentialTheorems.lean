import Wandio.ThreadReader.DeliveryTheorems

/-!
# The threaded reader against one without threads

Which thread runs when, and how many slots the ring has, cannot be seen in the results: in every run
the calls return what they would return one after the other over the whole stream.
-/

namespace Wandio.ThreadReader

open Loop Transition

/-- What reads of `lens` bytes return over the bytes `rest` with no thread between: as many as they
ask for while there are so many, and `terminal` when there are none. -/
def sequential (terminal : ℤ) : List Byte → List ℕ → List (ℕ × ReadResult)
  | _, [] => []
  | rest, len :: lens =>
    (len, ⟨if 0 < len ∧ rest = [] then terminal else (rest.take len).length, rest.take len⟩) ::
      sequential terminal (rest.drop len) lens

section Sequential

variable {parent : ℕ → ReadResult} {before rest : List Byte} {len K : ℕ} {r : ReadResult}

/-- The result of one call. -/
theorem Answered.exact (h : Answered parent before len r) (hsmall : len < 2 ^ 31)
    (hend : Ends parent K) (hstream : bytesUpTo parent K = before ++ rest) :
    r = ⟨if 0 < len ∧ rest = [] then (parent K).ret else (rest.take len).length,
      rest.take len⟩ := by
  cases h with
  | @full k out hk hpre hlen =>
    have hout : out <+: rest := by
      have hall := hpre.trans (bytesUpTo_mono parent (hk.le_of_ends hend))
      rw [hstream] at hall
      exact (List.prefix_append_right_inj _).mp hall
    have htake : rest.take len = out := by
      rw [← hlen]
      exact (List.prefix_iff_eq_take.mp hout).symm
    have hsome : ¬ (0 < len ∧ rest = []) := by
      intro hnone
      rw [hnone.2, List.prefix_nil] at hout
      rw [hout, List.length_nil] at hlen
      omega
    rw [if_neg hsome, htake, cInt_of_lt (by omega)]
  | @ended k out hk hall hlen =>
    obtain rfl := hk.unique hend
    rw [hstream] at hall
    obtain rfl := List.append_cancel_left hall
    rw [List.take_of_length_le hlen.le, cInt_of_lt (by omega)]
    congr 1
    by_cases hnil : out = []
    · rw [if_pos (by rw [hnil]; decide), if_pos ⟨by omega, hnil⟩]
    · have hpos := List.length_pos_iff.mpr hnil
      rw [if_neg (by omega), if_neg fun h => hnil h.2]

/-- The results of calls that are each as they should be. -/
theorem eq_sequential (hend : Ends parent K) {log : List (ℕ × ReadResult)}
    (hlog : Each (fun before e => Answered parent (delivered before) e.1 e.2) log)
    (hsmall : ∀ e ∈ log, e.1 < 2 ^ 31) :
    log = sequential (parent K).ret (bytesUpTo parent K) (log.map Prod.fst) := by
  -- induction on the calls that are left, behind any calls that have used up a part of the stream
  have hrest : ∀ done left rest, log = done ++ left → bytesUpTo parent K = delivered done ++ rest →
      left = sequential (parent K).ret rest (left.map Prod.fst) := by
    intro done left rest hsplit hstream
    induction left generalizing done rest with
    | nil => rfl
    | cons e left ih =>
      have hmem : e ∈ log := by
        rw [hsplit]
        exact List.mem_append_right _ (List.mem_cons_self ..)
      have hexact := (hlog done e left hsplit).exact (hsmall e hmem) hend hstream
      have hdata : e.2.data = rest.take e.1 := congrArg ReadResult.data hexact
      have hnext : bytesUpTo parent K = delivered (done ++ [e]) ++ rest.drop e.1 := by
        have hone : delivered [e] = rest.take e.1 := (delivered_singleton e.1 e.2).trans hdata
        rw [hstream, delivered_append, hone, List.append_assoc, List.take_append_drop]
      have htail := ih (done ++ [e]) (rest.drop e.1) (by rw [hsplit, List.append_cons]) hnext
      rw [List.map_cons, sequential, ← htail, ← hexact]
  exact hrest [] log _ rfl rfl

/-- In every run over a parent whose data end, whatever the order of the steps and however many
slots there are: the calls that have returned are the first ones, with the results that they would
have over the whole stream with no thread between. -/
theorem threadReader_sequential (n : ℕ) (hn : 0 < n) (parent : ℕ → ReadResult)
    (hparent : WellBehaved parent) (K : ℕ) (hend : Ends parent K) (lens : List ℕ)
    (hsmall : ∀ l ∈ lens, l < 2 ^ 31) (s : State) (h : Reachable (system n parent lens) s) :
    s.log = sequential (parent K).ret (bytesUpTo parent K) (lens.take s.log.length) := by
  obtain ⟨head, k, hinv⟩ := inv_reachable hn hparent h
  have hfst : lens.take s.log.length = s.log.map Prod.fst := by
    have hlength : s.log.length = (s.log.map Prod.fst).length := (List.length_map ..).symm
    rw [hinv.lens_eq, hlength, List.take_left]
  rw [hfst]
  apply eq_sequential hend hinv.log
  intro e he
  apply hsmall
  rw [hinv.lens_eq]
  exact List.mem_append_left _ (List.mem_map_of_mem he)

end Sequential

end Wandio.ThreadReader
