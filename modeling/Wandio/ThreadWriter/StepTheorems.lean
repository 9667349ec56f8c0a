import Wandio.ThreadWriter.Model

/-!
# The steps of the threaded writer

All that a section of one of the two threads can do, with the place at which it begins. The
invariants of the writer are proved by cases on these.
-/

namespace Wandio.ThreadWriter

variable {s t : State}

/-- What a section of the caller's thread does. -/
inductive CallerMove (s : State) : State → Prop where
  | close (hpc : s.caller = .idle) (hcalls : s.calls = []) : CallerMove s (threadWclose s)
  | wwrite {buffer : List Byte} {tl : List Call} (hpc : s.caller = .idle)
      (hcalls : s.calls = .wwrite buffer :: tl) :
      CallerMove s (wwriteLoop { s with rest := buffer, copied := 0 })
  | wflush {tl : List Call} (hpc : s.caller = .idle) (hcalls : s.calls = .wflush :: tl) :
      CallerMove s (threadWflush s)
  | wake (hpc : s.caller = .waitSpace true) : CallerMove s (wwriteSpace s)
  | copy {slice : ℕ} (hpc : s.caller = .copying slice) : CallerMove s (wwriteCopy s slice)
  | commit {slice : ℕ} (hpc : s.caller = .copied slice) :
      CallerMove s (wwriteLoop (wwriteAdvance (wwriteCommit s slice)))
  | joined (hpc : s.caller = .joining) (hex : s.consumer = .exited) :
      CallerMove s { s with caller := .closed }

theorem callerMove (hs : callerStep s = some t) : CallerMove s t := by
  unfold callerStep at hs
  cases hpc : s.caller with
  | idle =>
    rw [hpc] at hs
    cases hcalls : s.calls with
    | nil =>
      rw [hcalls, Option.some_inj] at hs
      exact hs ▸ .close hpc hcalls
    | cons c tl =>
      cases c with
      | wwrite buffer =>
        rw [hcalls, Option.some_inj, ← hcalls] at hs
        exact hs ▸ .wwrite hpc hcalls
      | wflush =>
        rw [hcalls, Option.some_inj] at hs
        exact hs ▸ .wflush hpc hcalls
  | waitSpace signalled =>
    rw [hpc] at hs
    cases signalled with
    | false => contradiction
    | true =>
      rw [Option.some_inj] at hs
      exact hs ▸ .wake hpc
  | copying slice =>
    rw [hpc, Option.some_inj] at hs
    exact hs ▸ .copy hpc
  | copied slice =>
    rw [hpc, Option.some_inj] at hs
    exact hs ▸ .commit hpc
  | joining =>
    rw [hpc] at hs
    simp only at hs
    split at hs
    · next hex =>
      rw [Option.some_inj] at hs
      exact hs ▸ .joined hpc hex
    · contradiction
  | closed =>
    rw [hpc] at hs
    contradiction

/-- What a section of `thread_consumer` does. -/
inductive ConsumerMove (s : State) : State → Prop where
  | loop (hpc : s.consumer = .start ∨ s.consumer = .waitData true) :
      ConsumerMove s (consumerLoop s)
  | write (hpc : s.consumer = .writing) : ConsumerMove s (consumerWrite s)
  | flush (hpc : s.consumer = .flushing) : ConsumerMove s (consumerFlush s)
  | relock (hpc : s.consumer = .relock) : ConsumerMove s (consumerRelock s)

theorem consumerMove (hs : consumerStep s = some t) : ConsumerMove s t := by
  unfold consumerStep at hs
  cases hpc : s.consumer with
  | start =>
    rw [hpc, Option.some_inj] at hs
    exact hs ▸ .loop (.inl hpc)
  | waitData signalled =>
    rw [hpc] at hs
    cases signalled with
    | false => contradiction
    | true =>
      rw [Option.some_inj] at hs
      exact hs ▸ .loop (.inr hpc)
  | writing =>
    rw [hpc, Option.some_inj] at hs
    exact hs ▸ .write hpc
  | flushing =>
    rw [hpc, Option.some_inj] at hs
    exact hs ▸ .flush hpc
  | relock =>
    rw [hpc, Option.some_inj] at hs
    exact hs ▸ .relock hpc
  | exited =>
    rw [hpc] at hs
    contradiction

/-- A spurious wake-up of the caller. -/
theorem wakeCaller_eq (hs : step s .wakeCaller = some t) :
    s.caller = .waitSpace false ∧ t = { s with caller := .waitSpace true } := by
  unfold step at hs
  simp only at hs
  split at hs
  · next hpc => exact ⟨hpc, (Option.some_inj.mp hs).symm⟩
  · contradiction

/-- A spurious wake-up of the consumer. -/
theorem wakeConsumer_eq (hs : step s .wakeConsumer = some t) :
    s.consumer = .waitData false ∧ t = { s with consumer := .waitData true } := by
  unfold step at hs
  simp only at hs
  split at hs
  · next hpc => exact ⟨hpc, (Option.some_inj.mp hs).symm⟩
  · contradiction

end Wandio.ThreadWriter
