import Wandio.Create.Model
import Wandio.ThreadReader.ProgressTheorems

/-!
# The rings of a process

`max_buffers` is the modulus and the loop bound of every ring, also of one that was allocated
when it had another value. The indices stay in the rings if no `wandio_create` leaves it at 0,
or at more than the slots of a threaded reader that is still open (`Fits`).
-/

namespace Wandio.Create

open Transition
open Environment (letters)

/-! ## The condition -/

/-- The threaded reader can work with this value of `max_buffers`, if it is still at work. -/
def Reader.fits (maxBuffers : ℕ) (r : Reader) : Bool :=
  r.state.caller = .closed ∨ 0 < maxBuffers ∧ maxBuffers ≤ r.slots

/-- What a `wandio_create` makes of `max_buffers` is fit for all threaded readers there are
then. -/
def fits (p : Process) : Label → Bool
  | .create env parent lens =>
    let q := wandioCreate p env parent lens
    q.readers.all (Reader.fits q.globals.maxBuffers)
  | .reader _ _ => true

/-- The next section of a thread of the reader uses its own slots only, and divides by no 0. -/
def Within (p : Process) (r : Reader) (l : ThreadReader.Label) : Prop :=
  (∀ k ∈ usedSlots p.globals.maxBuffers r.state l, k < r.slots) ∧
    (takesModulo r.state l = true → p.globals.maxBuffers ≠ 0)

/-! ## A step of a threaded reader -/

section Step

variable {n : ℕ} {parent : ℕ → ReadResult} {s t : ThreadReader.State}

/-- A thread moves on to the next slot or stays where it is. -/
def Moved (n i j : ℕ) : Prop := j = i ∨ j = (i + 1) % n

theorem Moved.lt {i j slots : ℕ} (h : Moved n i j) (hi : i < slots) (hpos : 0 < n)
    (hle : n ≤ slots) : j < slots := by
  rcases h with rfl | rfl
  · exact hi
  · have := Nat.mod_lt (i + 1) hpos
    omega

/-- Only the caller moves `in_buffer`. -/
theorem callerStep_ring (hs : ThreadReader.callerStep n s = some t) :
    Moved n s.inBuffer t.inBuffer ∧ t.index = s.index := by
  have hslot : Moved n s.inBuffer (ThreadReader.readSlot s).inBuffer ∧
      (ThreadReader.readSlot s).index = s.index := by
    obtain ⟨hin, hindex⟩ := ThreadReader.readSlot_ring s
    exact ⟨.inl hin, hindex⟩
  cases ThreadReader.callerMove hs with
  | test hpc hlen => exact hslot
  | wake hpc => exact hslot
  | commit hpc =>
    unfold ThreadReader.readCommit
    simp only
    split
    · exact ⟨.inr rfl, rfl⟩
    · exact ⟨.inl rfl, rfl⟩
  | close | enter | leave | copy | joined => exact ⟨.inl rfl, rfl⟩

/-- Only the producer moves `buffer`. -/
theorem producerStep_ring (hs : ThreadReader.producerStep n parent s = some t) :
    t.inBuffer = s.inBuffer ∧ Moved n s.index t.index := by
  cases ThreadReader.producerMove hs with
  | loop hpc =>
    obtain ⟨hin, hindex⟩ := ThreadReader.producerLoop_ring s
    exact ⟨hin, .inl hindex⟩
  | read hpc => exact ⟨rfl, .inl rfl⟩
  | relock hpc =>
    unfold ThreadReader.producerRelock
    simp only
    -- behind the remainder only the test of the next slot follows, or the end
    split
    · obtain ⟨hin, hindex⟩ := ThreadReader.producerLoop_ring
        { (s.setSlot s.index { s.buffer s.index with state := .full }).signalDataReady with
          index := (s.index + 1) % n }
      exact ⟨hin, .inr hindex⟩
    · exact ⟨rfl, .inr rfl⟩

theorem step_ring {l : ThreadReader.Label} (hs : ThreadReader.step n parent s l = some t) :
    Moved n s.inBuffer t.inBuffer ∧ Moved n s.index t.index := by
  cases l with
  | caller =>
    obtain ⟨hin, hindex⟩ := callerStep_ring hs
    exact ⟨hin, .inl hindex⟩
  | producer =>
    obtain ⟨hin, hindex⟩ := producerStep_ring hs
    exact ⟨.inl hin, hindex⟩
  | wakeCaller =>
    obtain ⟨_, rfl⟩ := ThreadReader.wakeCaller_eq hs
    exact ⟨.inl rfl, .inl rfl⟩
  | wakeProducer =>
    obtain ⟨_, rfl⟩ := ThreadReader.wakeProducer_eq hs
    exact ⟨.inl rfl, .inl rfl⟩

end Step

/-! ## The invariant -/

/-- A threaded reader whose threads are inside its ring, while `max_buffers` is fit for it. -/
structure Reader.Ok (maxBuffers : ℕ) (r : Reader) : Prop where
  inBuffer : r.state.inBuffer < r.slots
  index : r.state.index < r.slots
  closed : r.state.caller = .closed → r.state.producer = .exited
  fits : r.state.caller ≠ .closed → 0 < maxBuffers ∧ maxBuffers ≤ r.slots

/-- All threaded readers of the process are in order. -/
def Ok (p : Process) : Prop := ∀ r ∈ p.readers, r.Ok p.globals.maxBuffers

section Ok

variable {p q : Process} {r : Reader} {n : ℕ} {t : ThreadReader.State} {l : ThreadReader.Label}

theorem Reader.fits_iff :
    r.fits n = true ↔ (r.state.caller ≠ .closed → 0 < n ∧ n ≤ r.slots) := by
  unfold Reader.fits
  rw [decide_eq_true_iff, or_iff_not_imp_left]

/-- A reader in order that takes a step is open. -/
theorem Reader.Ok.open (h : r.Ok n) (hs : ThreadReader.step n r.parent r.state l = some t) :
    r.state.caller ≠ .closed := by
  intro hpc
  rw [ThreadReader.step_of_closed hpc (h.closed hpc)] at hs
  contradiction

/-- A step of one of its threads. -/
theorem Reader.Ok.step (h : r.Ok n) (hs : ThreadReader.step n r.parent r.state l = some t) :
    Reader.Ok n { r with state := t } := by
  obtain ⟨hpos, hle⟩ := h.fits (h.open hs)
  obtain ⟨hin, hindex⟩ := step_ring hs
  constructor
  · exact hin.lt h.inBuffer hpos hle
  · exact hindex.lt h.index hpos hle
  · exact ThreadReader.exited_step h.closed hs
  · intro _
    exact ⟨hpos, hle⟩

/-- A new value of `max_buffers` that is fit for it. -/
theorem Reader.Ok.create {m : ℕ} (h : r.Ok n) (hfits : r.fits m = true) : r.Ok m :=
  ⟨h.inBuffer, h.index, h.closed, Reader.fits_iff.mp hfits⟩

/-- `thread_open` begins at the first slot. -/
theorem Reader.ok_threadOpen {slots m : ℕ} {parent : ℕ → ReadResult} {lens : List ℕ}
    (hfits : Reader.fits m ⟨slots, parent, ThreadReader.threadOpen lens⟩ = true) :
    Reader.Ok m ⟨slots, parent, ThreadReader.threadOpen lens⟩ := by
  have hm := Reader.fits_iff.mp hfits
  have hopen : (ThreadReader.threadOpen lens).caller ≠ .closed := by
    show ThreadReader.CallerPc.idle ≠ .closed
    decide
  obtain ⟨hpos, hle⟩ := hm hopen
  have hslots : 0 < slots := hpos.trans_le hle
  exact ⟨hslots, hslots, fun hpc => absurd hpc hopen, hm⟩

/-- A `wandio_create` keeps the threaded readers there are and opens at most one. -/
theorem mem_wandioCreate {env : Option (List Byte)} {parent : Option (ℕ → ReadResult)}
    {lens : List ℕ} (hr : r ∈ (wandioCreate p env parent lens).readers) :
    r ∈ p.readers ∨ ∃ slots parent, r = ⟨slots, parent, ThreadReader.threadOpen lens⟩ := by
  unfold wandioCreate at hr
  simp only at hr
  split at hr
  · exact .inl hr
  · next parent =>
    split at hr
    · exact .inl hr
    · rcases List.mem_append.mp hr with hold | hnew
      · exact .inl hold
      · exact .inr ⟨_, parent, List.mem_singleton.mp hnew⟩

theorem ok_wandioCreate {env : Option (List Byte)} {parent : Option (ℕ → ReadResult)}
    {lens : List ℕ} (h : Ok p) (hfits : fits p (.create env parent lens) = true) :
    Ok (wandioCreate p env parent lens) := by
  intro r hr
  have hr' := List.all_eq_true.mp hfits r hr
  -- the new value of `max_buffers` is one for the open readers too, not only for the new one
  rcases mem_wandioCreate hr with hold | ⟨slots, parent, rfl⟩
  · exact (h r hold).create hr'
  · exact Reader.ok_threadOpen hr'

theorem ok_next (p : Process) (l : Label) (q : Process) (h : Ok p)
    (hs : (process.restrict fits).next p l = some q) : Ok q := by
  obtain ⟨hfits, hnext⟩ := restrict_next.mp hs
  cases l with
  | create env parent lens =>
    have hq : wandioCreate p env parent lens = q := Option.some_inj.mp hnext
    exact hq ▸ ok_wandioCreate h hfits
  | reader i l =>
    obtain ⟨r, hr, hq⟩ := Option.bind_eq_some_iff.mp hnext
    obtain ⟨t, ht, rfl⟩ := Option.map_eq_some_iff.mp hq
    -- `max_buffers` stays, and so do all other readers
    have hok := h r (List.mem_of_getElem? hr)
    intro u hu
    rcases List.mem_or_eq_of_mem_set hu with hold | rfl
    · exact h u hold
    · exact hok.step ht

theorem ok_reachable (h : Reachable (process.restrict fits) p) : Ok p := by
  apply h.invariant (I := Ok) ?_ ok_next
  intro r hr
  contradiction

/-- What a section of a thread does inside the ring of its reader. -/
theorem Reader.Ok.within (h : r.Ok p.globals.maxBuffers)
    (hs : ThreadReader.step p.globals.maxBuffers r.parent r.state l = some t) : Within p r l := by
  obtain ⟨hpos, hle⟩ := h.fits (h.open hs)
  have hin := h.inBuffer
  have hindex := h.index
  refine ⟨?_, fun _ => hpos.ne'⟩
  intro k hk
  cases l with
  | caller =>
    simp only [usedSlots] at hk
    split at hk
    · contradiction
    · split at hk
      · simpa [List.mem_singleton.mp hk] using hin
      · contradiction
    · simpa [List.mem_singleton.mp hk] using hin
    · simpa [List.mem_singleton.mp hk] using hin
    · simpa [List.mem_singleton.mp hk] using hin
    -- `thread_close` frees the first `max_buffers` slots
    · exact (List.mem_range.mp hk).trans_le hle
    · contradiction
  | producer =>
    simp only [usedSlots] at hk
    split at hk
    · contradiction
    · split at hk
      -- behind a read the producer goes on to the next slot
      · rcases List.mem_pair.mp hk with rfl | rfl
        · exact hindex
        · exact (Nat.mod_lt _ hpos).trans_le hle
      · simpa [List.mem_singleton.mp hk] using hindex
    · simpa [List.mem_singleton.mp hk] using hindex
  | wakeCaller => contradiction
  | wakeProducer => contradiction

end Ok

/-! ## Runs -/

/-- In every run in which each `wandio_create` leaves `max_buffers` at 1 at least, and at the
slots at most of each threaded reader that is open then: whichever thread of whichever reader
takes the next step, all the indices it uses are in the ring of that reader, and it takes no
remainder modulo 0. -/
theorem indices_within (p : Process) (h : Reachable (process.restrict fits) p) (i : ℕ)
    (r : Reader) (hr : p.readers[i]? = some r) (l : ThreadReader.Label)
    (hl : (ThreadReader.step p.globals.maxBuffers r.parent r.state l).isSome = true) :
    Within p r l := by
  obtain ⟨t, ht⟩ := Option.isSome_iff_exists.mp hl
  exact (ok_reachable h r (List.mem_of_getElem? hr)).within ht

/-- A parent at its end. -/
def emptyParent (_ : ℕ) : ReadResult := ⟨0, []⟩

/-- The second reader is opened with fewer buffers than the first, which has been closed. -/
def fewerBuffers : List Label :=
  [.create none (some emptyParent) [], .reader 0 .caller, .reader 0 .producer, .reader 0 .caller,
    .create (some (letters "buffers=2")) (some emptyParent) [4096]]

theorem indices_within_fewer : ∃ p r, Reachable (process.restrict fits) p ∧
    p.readers[1]? = some r ∧ r.slots = 2 ∧ Within p r .producer := by
  obtain ⟨p, hp, htest⟩ := exists_reachable_of_exec (process.restrict fits) fewerBuffers
    (fun p => (p.readers[1]?).any fun r => r.slots = 2 ∧
      (ThreadReader.step p.globals.maxBuffers r.parent r.state .producer).isSome) (by decide)
  obtain ⟨r, hr, hr'⟩ := (Option.any_eq_true _ _).mp htest
  obtain ⟨hslots, hl⟩ : r.slots = 2 ∧ _ := by simpa using hr'
  exact ⟨p, r, hp, hr, hslots, indices_within p hp 1 r hr .producer hl⟩

/-- A second `wandio_create` with more buffers while the first reader is open. -/
def moreBuffers : List Label :=
  [.create none (some emptyParent) [], .create (some (letters "buffers=60")) none [],
    .reader 0 .caller, .reader 0 .producer]

/-- And one that switches them off. -/
def noBuffers : List Label :=
  [.create none (some emptyParent) [], .reader 0 .producer, .reader 0 .producer,
    .create (some (letters "buffers=0")) none []]

/-- A second `wandio_create` raises `max_buffers` while a threaded reader is open, whose
`thread_close` then goes beyond its 50 slots; or it makes it 0, and the producer divides by it. -/
theorem indices_leave_ring :
    (∃ p r, Reachable process p ∧ p.readers[0]? = some r ∧
      (ThreadReader.step p.globals.maxBuffers r.parent r.state .caller).isSome = true ∧
      r.slots = 50 ∧ 50 ∈ usedSlots p.globals.maxBuffers r.state .caller) ∧
    ∃ p r, Reachable process p ∧ p.readers[0]? = some r ∧
      (ThreadReader.step p.globals.maxBuffers r.parent r.state .producer).isSome = true ∧
      takesModulo r.state .producer = true ∧ p.globals.maxBuffers = 0 := by
  constructor
  · obtain ⟨p, hp, htest⟩ := exists_reachable_of_exec process moreBuffers
      (fun p => (p.readers[0]?).any fun r =>
        (ThreadReader.step p.globals.maxBuffers r.parent r.state .caller).isSome ∧
          r.slots = 50 ∧ 50 ∈ usedSlots p.globals.maxBuffers r.state .caller) (by decide)
    obtain ⟨r, hr, hr'⟩ := (Option.any_eq_true _ _).mp htest
    exact ⟨p, r, hp, hr, by simpa using hr'⟩
  · obtain ⟨p, hp, htest⟩ := exists_reachable_of_exec process noBuffers
      (fun p => (p.readers[0]?).any fun r =>
        (ThreadReader.step p.globals.maxBuffers r.parent r.state .producer).isSome ∧
          takesModulo r.state .producer ∧ p.globals.maxBuffers = 0) (by decide)
    obtain ⟨r, hr, hr'⟩ := (Option.any_eq_true _ _).mp htest
    exact ⟨p, r, hp, hr, by simpa using hr'⟩

end Wandio.Create
