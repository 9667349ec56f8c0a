import Wandio.ThreadReader.Model

/-!
# The steps of the threaded reader

All that a section of one of the two threads can do, with the place at which it begins. The
invariants of the reader are proved by cases on these.
-/

namespace Wandio.ThreadReader

variable {n : ℕ} {parent : ℕ → ReadResult} {s t : State}

/-- What a section of the caller's thread does. -/
inductive CallerMove (n : ℕ) (s : State) : State → Prop where
  | close (hpc : s.caller = .idle) (hcalls : s.calls = []) : CallerMove n s (threadClose s)
  | enter {len : ℕ} {tl : List ℕ} (hpc : s.caller = .idle) (hcalls : s.calls = len :: tl) :
      CallerMove n s { s with len := len, copied := 0, out := [], caller := .loop }
  | test (hpc : s.caller = .loop) (hlen : 0 < s.len) : CallerMove n s (readSlot s)
  | leave (hpc : s.caller = .loop) (hlen : s.len = 0) : CallerMove n s (s.return s.copied)
  | wake (hpc : s.caller = .waitData true) : CallerMove n s (readSlot s)
  | copy {slice : ℕ} (hpc : s.caller = .copying slice) : CallerMove n s (readCopy s slice)
  | commit {slice : ℕ} (hpc : s.caller = .copied slice) : CallerMove n s (readCommit n s slice)
  | joined (hpc : s.caller = .joining) (hex : s.producer = .exited) :
      CallerMove n s { s with caller := .closed }

theorem callerMove (hs : callerStep n s = some t) : CallerMove n s t := by
  unfold callerStep at hs
  cases hpc : s.caller with
  | idle =>
    rw [hpc] at hs
    cases hcalls : s.calls with
    | nil =>
      rw [hcalls, Option.some_inj] at hs
      exact hs ▸ .close hpc hcalls
    | cons len tl =>
      rw [hcalls, Option.some_inj, ← hcalls] at hs
      exact hs ▸ .enter hpc hcalls
  | loop =>
    rw [hpc] at hs
    simp only at hs
    split at hs
    · next hlen =>
      rw [Option.some_inj] at hs
      exact hs ▸ .test hpc hlen
    · next hlen =>
      rw [Option.some_inj] at hs
      exact hs ▸ .leave hpc (Nat.eq_zero_of_not_pos hlen)
  | waitData signalled =>
    rw [hpc] at hs
    cases signalled with
    | false => contradiction
    | true =>
      rw [Option.some_inj] at hs
      exact hs ▸ .wake hpc
  | copying slice =>
    rw [hpc, Option.some_inj] at hs
    exact hs ▸ .copy hpc
  | copied slice =>
    rw [hpc, Option.some_inj] at hs
    exact hs ▸ .commit hpc
  | joining =>
    rw [hpc] at hs
    simp only at hs
    split at hs
    · next hex =>
      rw [Option.some_inj] at hs
      exact hs ▸ .joined hpc hex
    · contradiction
  | closed =>
    rw [hpc] at hs
    contradiction

/-- What a section of `thread_producer` does. -/
inductive ProducerMove (n : ℕ) (parent : ℕ → ReadResult) (s : State) : State → Prop where
  | loop (hpc : s.producer = .start ∨ s.producer = .waitSpace true) :
      ProducerMove n parent s (producerLoop s)
  | read (hpc : s.producer = .reading) : ProducerMove n parent s (producerRead parent s)
  | relock (hpc : s.producer = .relock) : ProducerMove n parent s (producerRelock n s)

theorem producerMove (hs : producerStep n parent s = some t) : ProducerMove n parent s t := by
  unfold producerStep at hs
  cases hpc : s.producer with
  | start =>
    rw [hpc, Option.some_inj] at hs
    exact hs ▸ .loop (.inl hpc)
  | waitSpace signalled =>
    rw [hpc] at hs
    cases signalled with
    | false => contradiction
    | true =>
      rw [Option.some_inj] at hs
      exact hs ▸ .loop (.inr hpc)
  | reading =>
    rw [hpc, Option.some_inj] at hs
    exact hs ▸ .read hpc
  | relock =>
    rw [hpc, Option.some_inj] at hs
    exact hs ▸ .relock hpc
  | exited =>
    rw [hpc] at hs
    contradiction

/-- A spurious wake-up of the caller. -/
theorem wakeCaller_eq (hs : step n parent s .wakeCaller = some t) :
    s.caller = .waitData false ∧ t = { s with caller := .waitData true } := by
  unfold step at hs
  simp only at hs
  split at hs
  · next hpc => exact ⟨hpc, (Option.some_inj.mp hs).symm⟩
  · contradiction

/-- A spurious wake-up of the producer. -/
theorem wakeProducer_eq (hs : step n parent s .wakeProducer = some t) :
    s.producer = .waitSpace false ∧ t = { s with producer := .waitSpace true } := by
  unfold step at hs
  simp only at hs
  split at hs
  · next hpc => exact ⟨hpc, (Option.some_inj.mp hs).symm⟩
  · contradiction

/-- The test of the inner `while` leaves the ring alone. -/
theorem readSlot_ring (s : State) :
    (readSlot s).inBuffer = s.inBuffer ∧ (readSlot s).index = s.index := by
  unfold readSlot
  split
  · exact ⟨rfl, rfl⟩
  · split
    · exact ⟨rfl, rfl⟩
    · exact ⟨rfl, rfl⟩

/-- The top of the producer's loop leaves the ring alone. -/
theorem producerLoop_ring (s : State) :
    (producerLoop s).inBuffer = s.inBuffer ∧ (producerLoop s).index = s.index := by
  unfold producerLoop
  split
  · exact ⟨rfl, rfl⟩
  · split
    · exact ⟨rfl, rfl⟩
    · exact ⟨rfl, rfl⟩

end Wandio.ThreadReader
