import Wandio.StdioWriter.ShortTheorems

/-!
# Lengths beyond an `int`

`stdio_wwrite` takes its `int64_t` length into an `int`, and adds to it what the buffer holds.
Where the one loses bits or the other overflows, the call fails an `assert`, has no result, or
returns the length and drops all bytes beyond the `int`.
-/

namespace Wandio.StdioWriter

open Loop

/-- A call whose length is not negative. -/
def Call.NonNegative : Call → Prop
  | .wwrite w => 0 ≤ w.len
  | .wflush => True

/-- `stdio_wwrite` returns its length, and has taken all of the caller's bytes. -/
def Takes (kernel : Kernel) (w : WriteCall) (s t : State) : Prop :=
  Yields (stdioWwrite kernel w s) (w.len, t) ∧ t.bytes = s.bytes ++ w.data

/-- `stdio_wwrite` honours its length: it takes all bytes and returns how many they are, and an
`int` holds both the length and every result of a request. -/
def Honours (kernel : Kernel) (w : WriteCall) (s : State) : Prop :=
  ∃ t, Takes kernel w s t ∧ cInt w.len = w.len ∧
    ∀ r ∈ t.requests, cInt r.bytes.length = r.bytes.length

section Calls

variable {kernel : Kernel} {s t : State} {w : WriteCall}

/-- Without a beginning there is no result: an `assert` fails, or the first sum overflows. -/
theorem stdioWwrite_none (kernel : Kernel) (hlen : 0 ≤ w.len) (hw : ¬ Begins s w) (fuel : ℕ) :
    stdioWwrite kernel w s fuel = none := by
  unfold stdioWwrite
  by_cases hneg : cInt w.len < 0
  · simp only [hneg, if_true]
  · have hover : ¬ s.offset + cInt w.len < 2 ^ 31 := by
      intro hfits
      exact hw ⟨hlen, not_lt.mp hneg, hfits⟩
    have hsum : addInt s.offset (cInt w.len) = none := if_neg fun h => hover h.2
    have hturn : wwriteTurn kernel ⟨s, w.buffer, cInt w.len⟩ = .done .undefined := by
      unfold wwriteTurn
      simp only [hsum]
    simp only [hneg, if_false]
    cases fuel with
    | zero => rfl
    | succ fuel =>
      rw [loop, hturn]
      rfl

/-- Every call returns and keeps the invariant, or it has no result. -/
theorem call_cases (hkernel : TakesSome kernel) (h : Inv s) {c : Call} (hc : c.NonNegative) :
    (∃ r, Yields (call kernel c s) r ∧ Inv r.2) ∨ ∀ fuel, call kernel c s fuel = none := by
  cases c with
  | wwrite w =>
    by_cases hw : Begins s w
    · by_cases htaken : Writing.Taken kernel ⟨s, w.buffer, cInt w.len⟩
      · obtain ⟨t, hyields, ht, _⟩ := stdioWwrite_taken hkernel h hw htaken
        exact .inl ⟨_, hyields, ht⟩
      · exact .inr fun fuel => stdioWwrite_short hkernel h hw htaken fuel
    · exact .inr fun fuel => stdioWwrite_none kernel hc hw fuel
  | wflush =>
    obtain ⟨hinv, _⟩ := stdioWflush_eq kernel h
    exact .inl ⟨_, .pure _, hinv⟩

/-- A larger bound does no harm to a call. -/
theorem call_mono {c : Call} {fuel more : ℕ} {r : ℤ × State}
    (hr : call kernel c s fuel = some r) (hle : fuel ≤ more) : call kernel c s more = some r := by
  cases c with
  | wwrite w =>
    simp only [call, stdioWwrite] at hr ⊢
    split at hr
    · contradiction
    · next hneg =>
      rw [if_neg hneg]
      obtain ⟨exit, hexit, hend⟩ := Option.bind_eq_some_iff.mp hr
      rw [loop_mono hexit hle]
      exact hend
  | wflush => exact hr

theorem inv_call (hkernel : TakesSome kernel) (h : Inv s) {c : Call} (hc : c.NonNegative)
    {fuel : ℕ} {r : ℤ × State} (hr : call kernel c s fuel = some r) : Inv r.2 := by
  have hyields : Yields (call kernel c s) r := ⟨fuel, fun _ hle => call_mono hr hle⟩
  rcases call_cases hkernel h hc with ⟨r', hr', hinv⟩ | hnone
  · rw [hyields.unique hr']
    exact hinv
  · rw [hnone] at hr
    contradiction

/-- The invariant of every run, whatever the lengths. -/
theorem inv_run (hkernel : TakesSome kernel) {direct : Bool} {calls : List Call}
    (hcalls : ∀ c ∈ calls, c.NonNegative) {log : List (Call × ℤ)}
    (h : Yields (run kernel direct calls) (log, s)) : Inv s := by
  obtain ⟨n, hn⟩ := h
  exact runCalls_invariant (I := fun _ s => Inv s)
    (fun _ c s _ _ hc hs hr => inv_call hkernel hs (hcalls c hc) hr) []
    (inv_stdioWopen direct) (hn n le_rfl)

/-- A write that takes all bytes has not lost any of them to its `int`. -/
theorem Takes.fits (hkernel : TakesSome kernel) (h : Inv s) (hlen : 0 ≤ w.len)
    (ht : Takes kernel w s t) :
    s.offset + w.len < 2 ^ 31 ∧ (Call.wwrite w).Taken kernel s := by
  obtain ⟨hyields, hbytes⟩ := ht
  have hsome : ¬ ∀ fuel, stdioWwrite kernel w s fuel = none := by
    intro hnone
    obtain ⟨n, hn⟩ := hyields
    have hr := hn n le_rfl
    rw [hnone] at hr
    contradiction
  have hw : Begins s w := by
    by_contra hw
    exact hsome (stdioWwrite_none kernel hlen hw)
  have htaken : Writing.Taken kernel ⟨s, w.buffer, cInt w.len⟩ := by
    by_contra hshort
    exact hsome (stdioWwrite_short hkernel h hw hshort)
  -- as many bytes have been taken as the `int` says
  obtain ⟨u, hu, _, htook⟩ := stdioWwrite_taken hkernel h hw htaken
  obtain ⟨_, rfl⟩ := Prod.mk.inj (hyields.unique hu)
  have hsame : w.data.take (cInt w.len).toNat = w.data :=
    List.append_cancel_left (htook.symm.trans hbytes)
  have hcount := congrArg List.length hsame
  rw [List.length_take, w.length_data] at hcount
  have hnonneg := hw.towrite_nonneg
  have hle := cInt_le_self hlen
  have hcInt : cInt w.len = w.len := by omega
  rw [hcInt] at htaken
  exact ⟨hcInt ▸ hw.fits, htaken⟩

/-- The length is honoured when no bytes can be lost to the `int`. -/
theorem honours_of_fits (hkernel : TakesSome kernel) (h : Inv s) (hlen : 0 ≤ w.len)
    (hfits : s.offset + w.len < 2 ^ 31) (htaken : (Call.wwrite w).Taken kernel s) :
    Honours kernel w s := by
  obtain ⟨_, hcInt⟩ := Begins.of_fits h hlen hfits
  obtain ⟨t, hyields, ht, hbytes⟩ := stdioWwrite_spec hkernel h hlen hfits htaken
  exact ⟨t, ⟨hyields, hbytes⟩, hcInt, fun r hr => cInt_of_lt (ht.counted r hr)⟩

end Calls

end Wandio.StdioWriter
