import Wandio.LzoWriter.ProgressTheorems

/-!
# The assertions of the lzo writer

What the slots of a pool have at any time while nobody is at them, and from it the assertions of
the caller's thread and of the compress threads at the places where they are.
-/

namespace Wandio.LzoWriter

open Transition

/-- What slot `j` has when the next one is `next`. -/
structure SlotKept (next j : ℕ) (t : LzoThread) : Prop where
  collected : j ≠ next → t.state = .empty → t.inbuf = []
  room : t.state = .empty → t.inbuf.length < maxBlockSize
  block : t.state ≠ .empty → 1 ≤ t.inbuf.length ∧ t.inbuf.length ≤ maxBlockSize

/-- A slot whose block has been written, if it had one. -/
def LzoThread.flushed (t : LzoThread) : LzoThread :=
  if t.state = .full then { t with state := .empty, inbuf := [] } else t

/-- The assertions of `lzo_wwrite` in front of a slot that does not wait to be compressed, with
`rest` to be written; the state is asserted a second time in front of the handing over. -/
structure WwriteAsserts (rest : List Byte) (t : LzoThread) : Prop where
  outbuf : t.state = .full → t.outbuf.length < maxBufferSize
  empty : t.flushed.state = .empty
  buffer : maxBlockSize ≤ maxBufferSize
  size_pos : 0 < min (maxBlockSize - t.flushed.inbuf.length) rest.length
  size_le : min (maxBlockSize - t.flushed.inbuf.length) rest.length ≤ maxBlockSize
  room : t.flushed.inbuf.length + min (maxBlockSize - t.flushed.inbuf.length) rest.length ≤
    maxBlockSize

/-- The assertions of `lzo_compress_thread` at a slot that waits to be compressed: those of
`lzo_wwrite_block` and of `write_buf`, and behind them the state. -/
structure CompressAsserts (lib : Lzo) (t : LzoThread) : Prop where
  block : (lzoWwriteBlock lib t.inbuf).isSome
  len : 0 < t.inbuf.length
  state : t.state = .waiting

/-- The assertions of `shutdown_thread` when it begins and, when the slot does not wait to be
compressed, behind its loop. -/
structure ShutdownAsserts (t : LzoThread) : Prop where
  first : ¬ t.state = .empty ∨ t.inbuf = []
  last : t.state ≠ .waiting → t.flushed.state = .empty ∧ t.flushed.inbuf = []

/-- All of them, at the places where they are. -/
structure Asserts (lib : Lzo) (s : State) : Prop where
  wwrite : s.main = .writing ∧ 0 < s.rest.length ∨ (∃ signalled, s.main = .waitOut signalled) →
    s.next.state ≠ .waiting → WwriteAsserts s.rest s.next
  compress : ∀ i, i < s.threads → (s.thread i).state = .waiting → CompressAsserts lib (s.thread i)
  shutdown : ∀ i is, s.main = .shutdown i is → ShutdownAsserts (s.thread i)
  waitShutdown : ∀ i is signalled, s.main = .waitShutdown i is signalled →
    ShutdownAsserts (s.thread i)

section Slots

variable {lib : Lzo} {header all part stored : List Byte} {bs : List (List Byte)} {s t : State}
  {C : ℕ → Content} {c : Content} {u : LzoThread} {i j n next : ℕ} {is : List ℕ}

/-- What a slot collects is bounded, and only the next one collects anything. -/
structure Collected (next j : ℕ) (c : Content) : Prop where
  other : ∀ p, c = .filling p → j ≠ next → p = []
  room : ∀ p, c = .filling p → p.length < maxBlockSize

theorem Holds.slotKept (h : Holds lib u c) (hc : Collected next j c) : SlotKept next j u := by
  constructor
  · intro hne hempty
    exact hc.other u.inbuf (h.of_empty hempty) hne
  · intro hempty
    exact hc.room u.inbuf (h.of_empty hempty)
  · intro hfull
    cases c with
    | filling p => exact absurd h.1 hfull
    | holding b =>
      rw [h.2.1]
      exact h.1

theorem collected_of_nil (hc : ∀ p, c = .filling p → p = []) : Collected next j c := by
  refine ⟨fun p hp _ => hc p hp, ?_⟩
  intro p hp
  rw [hc p hp]
  decide

/-- While data is written. -/
theorem Filling.collected (h : Filling lib header s C bs part) (hcut : Cut stored bs part)
    (hj : j < s.threads) : Collected s.nextThread j (C j) := by
  by_cases hnext : j = s.nextThread
  · refine ⟨fun p _ hne => absurd hnext hne, ?_⟩
    intro p hp
    rw [hnext, h.front] at hp
    rw [(contentAt_filling hp).1]
    exact hcut.part_lt
  · -- the other slots are those of a pool whose next slot collects nothing
    apply collected_of_nil
    intro p hp
    have hround : ∀ k, k < s.threads →
        Function.update C (bs.length % s.threads) (contentAt s.threads bs [] 0)
          ((bs.length + k) % s.threads) = contentAt s.threads bs [] k := by
      intro k hk
      by_cases hzero : k = 0
      · rw [hzero, Nat.add_zero, Function.update_self]
      · exact h.behind.update k (Nat.pos_of_ne_zero hzero) hk
    apply collected_of_contentAt h.pos hround hj
    rw [Function.update_of_ne (h.next ▸ hnext)]
    exact hp

/-- The block of a slot fits, and `lzo_wwrite_block` comes to its end on it. -/
theorem Holds.compressAsserts (h : Holds lib u c) (hw : u.state = .waiting) :
    CompressAsserts lib u := by
  obtain ⟨b, _, hb, hin⟩ := h.of_waiting hw
  refine ⟨?_, ?_, hw⟩
  · rw [hin]
    by_cases hok : (lib.compress b).1 = 0
    · rw [lzoWwriteBlock_eq hok hb]
      rfl
    · rw [lzoWwriteBlock_failed hok]
      rfl
  · rw [hin]
    exact hb.1

theorem flushed_of_empty (hempty : u.state = .empty) : u.flushed = u :=
  if_neg (by rw [hempty]; decide)

/-- A slot that does not wait is empty when its block has been written. -/
theorem flushed_cases (hw : u.state ≠ .waiting) :
    u.flushed.state = .empty ∧
      (u.state = .empty ∧ u.flushed.inbuf = u.inbuf ∨ u.state = .full ∧ u.flushed.inbuf = []) := by
  cases hstate : u.state with
  | empty =>
    rw [flushed_of_empty hstate]
    exact ⟨hstate, .inl ⟨rfl, rfl⟩⟩
  | waiting => exact absurd hstate hw
  | full =>
    have hflushed : u.flushed = { u with state := .empty, inbuf := [] } := if_pos hstate
    rw [hflushed]
    exact ⟨rfl, .inr ⟨rfl, rfl⟩⟩

theorem Holds.wwriteAsserts (h : Holds lib u c) (hc : Collected next j c) (hw : u.state ≠ .waiting)
    {rest : List Byte} (hrest : 0 < rest.length) : WwriteAsserts rest u := by
  obtain ⟨hempty, hin⟩ := flushed_cases hw
  have hroom : u.flushed.inbuf.length < maxBlockSize := by
    rcases hin with ⟨hstate, hsame⟩ | ⟨_, hnone⟩
    · rw [hsame]
      exact (h.slotKept hc).room hstate
    · rw [hnone]
      decide
  constructor
  · intro hfull
    obtain ⟨b, _, hb, hout⟩ := h.of_full hfull
    rw [hout]
    exact length_encoded_lt lib hb
  · exact hempty
  · decide
  · omega
  · omega
  · omega

theorem Holds.shutdownAsserts (h : Holds lib u c) (hc : ∀ p, c = .filling p → p = []) :
    ShutdownAsserts u := by
  have hnone : u.state = .empty → u.inbuf = [] := fun hempty => hc _ (h.of_empty hempty)
  constructor
  · by_cases hempty : u.state = .empty
    · exact .inr (hnone hempty)
    · exact .inl hempty
  · intro hw
    obtain ⟨hempty, ⟨hstate, hin⟩ | ⟨_, hin⟩⟩ := flushed_cases hw
    · exact ⟨hempty, hin.trans (hnone hstate)⟩
    · exact ⟨hempty, hin⟩

end Slots

/-! ## When the pool has been shut down -/

/-- Behind the end of `lzo_wclose` no slot has anything. -/
def Drained (lib : Lzo) (s : State) : Prop :=
  s.main = .closed → ∃ C, Contains lib s C ∧ ∀ j, j < s.threads → ∀ p, C j = .filling p → p = []

section Drained

variable {lib : Lzo} {header all : List Byte} {s t : State} {n mtime : ℕ}
  {calls : List (List Byte)}

theorem Drained.step (hn : 0 < n) (hinv : PooledInv lib header all n s) (h : Drained lib s)
    {l : Label} (hs : step lib s l = some t) : Drained lib t := by
  have htinv := hinv.step hn hs
  obtain ⟨C, hC, hplace⟩ := hinv.place
  intro hclosed
  by_cases hl : l = .main
  · rw [hl, LzoWriter.step, if_neg (by rw [hinv.aborted]; decide)] at hs
    -- the caller's thread comes from its last `pthread_join`
    cases mainMove (hinv.threads ▸ hn) hs htinv.aborted with
    | @join i is hmain _ =>
      rw [hmain] at hplace
      cases is with
      | nil => exact ⟨C, hC, hplace.collected⟩
      | cons j js => cases hclosed
    | _ => cases hclosed
  · obtain ⟨hq, _⟩ := step_quiet hl hinv.aborted hs hC
    have hbefore : s.main = .closed := by
      rcases hq.main with hmain | hmain
      · exact hmain.symm.trans hclosed
      · rw [hclosed] at hmain
        cases hpc : s.main with
        | closed => rfl
        | _ =>
          rw [hpc] at hmain
          cases hmain
    obtain ⟨C', hC', hnone⟩ := h hbefore
    exact ⟨C', (step_quiet hl hinv.aborted hs hC').2, hq.threads ▸ hnone⟩

theorem drained_of_reachable (hn : 0 < n) (hs : Reachable (system lib mtime n calls) s) :
    Drained lib s := by
  obtain ⟨header, hheader⟩ := lzopHeader_some lib mtime
  induction hs with
  | init => nofun
  | next hs hst ih => exact ih.step hn (pooledInv_of_reachable hn hheader hs) hst

/-- What the slots have, wherever the caller's thread is. -/
theorem exists_collected (hn : 0 < n) (hs : Reachable (system lib mtime n calls) s) :
    ∃ C, Contains lib s C ∧ ∀ j, j < n → Collected s.nextThread j (C j) := by
  obtain ⟨header, hheader⟩ := lzopHeader_some lib mtime
  have hinv := pooledInv_of_reachable hn hheader hs
  have hthreads := hinv.threads
  obtain ⟨C, hC, hplace⟩ := hinv.place
  cases hmain : s.main with
  | idle =>
    rw [hmain] at hplace
    obtain ⟨bs, part, stored, hfill, hcut, _⟩ := hplace
    exact ⟨C, hC, fun j hj => hfill.collected hcut (hthreads ▸ hj)⟩
  | writing =>
    rw [hmain] at hplace
    obtain ⟨bs, part, stored, hfill, hcut, _⟩ := hplace
    exact ⟨C, hC, fun j hj => hfill.collected hcut (hthreads ▸ hj)⟩
  | waitOut signalled =>
    rw [hmain] at hplace
    obtain ⟨_, bs, part, stored, hfill, hcut, _⟩ := hplace
    exact ⟨C, hC, fun j hj => hfill.collected hcut (hthreads ▸ hj)⟩
  | shutdown i is =>
    rw [hmain] at hplace
    exact ⟨C, hC, fun j hj => collected_of_nil (hplace.collected j (hthreads ▸ hj))⟩
  | waitShutdown i is signalled =>
    rw [hmain] at hplace
    exact ⟨C, hC, fun j hj => collected_of_nil (hplace.collected j (hthreads ▸ hj))⟩
  | joining i is =>
    rw [hmain] at hplace
    exact ⟨C, hC, fun j hj => collected_of_nil (hplace.collected j (hthreads ▸ hj))⟩
  | closed =>
    obtain ⟨C', hC', hnone⟩ := drained_of_reachable hn hs hmain
    exact ⟨C', hC', fun j hj => collected_of_nil (hnone j (hthreads ▸ hj))⟩

end Drained

/-! ## The assertions -/

section Assertions

variable {lib : Lzo} {s : State} {n mtime : ℕ} {calls : List (List Byte)}

theorem asserts_of_reachable (hn : 0 < n) (hs : Reachable (system lib mtime n calls) s) :
    Asserts lib s := by
  obtain ⟨header, hheader⟩ := lzopHeader_some lib mtime
  have hinv := pooledInv_of_reachable hn hheader hs
  have hthreads := hinv.threads
  obtain ⟨C, hC, hplace⟩ := hinv.place
  have hwrite : ∀ {bs part stored}, Filling lib header s C bs part → Cut stored bs part →
      0 < s.rest.length → s.next.state ≠ .waiting → WwriteAsserts s.rest s.next := by
    intro bs part stored hfill hcut hrest hw
    have hnext : s.nextThread < s.threads := hfill.next ▸ Nat.mod_lt _ hfill.pos
    exact (hC _ hnext).wwriteAsserts (hfill.collected hcut hnext) hw hrest
  have hshutdown : ∀ {i is}, Draining lib header calls.flatten s C (i :: is) →
      ShutdownAsserts (s.thread i) := by
    intro i is hdrain
    have hi := hdrain.lt i (List.mem_cons_self ..)
    exact (hC i hi).shutdownAsserts (hdrain.collected i hi)
  constructor
  · rintro (⟨hmain, hrest⟩ | ⟨signalled, hmain⟩) hw
    · rw [hmain] at hplace
      obtain ⟨bs, part, stored, hfill, hcut, _⟩ := hplace
      exact hwrite hfill hcut hrest hw
    · rw [hmain] at hplace
      obtain ⟨hrest, bs, part, stored, hfill, hcut, _⟩ := hplace
      exact hwrite hfill hcut (List.length_pos_iff.mpr hrest) hw
  · exact fun i hi hw => (hC i hi).compressAsserts hw
  · intro i is hmain
    rw [hmain] at hplace
    exact hshutdown hplace
  · intro i is signalled hmain
    rw [hmain] at hplace
    exact hshutdown hplace

/-- In every state of a pool each slot is as it should be, no assertion has failed, and none of
those to come fails. -/
theorem lzoPool_asserts (hn : 1 ≤ n) (hs : Reachable (system lib mtime n calls) s) :
    (∀ j, j < n → SlotKept s.nextThread j (s.thread j)) ∧ s.aborted = false ∧ Asserts lib s := by
  obtain ⟨header, hheader⟩ := lzopHeader_some lib mtime
  have hinv := pooledInv_of_reachable hn hheader hs
  obtain ⟨C, hC, hcollected⟩ := exists_collected hn hs
  refine ⟨?_, hinv.aborted, asserts_of_reachable hn hs⟩
  intro j hj
  exact (hC j (hinv.threads ▸ hj)).slotKept (hcollected j hj)

/-- Two threads, with a part of a block in the first slot. -/
theorem lzoPool_asserts_bytes : ∃ s, Reachable (system literalLzo 0 2 [[1, 2, 3], [4]]) s ∧
    s.main = .shutdown 1 [0] ∧ (∀ j, j < 2 → SlotKept s.nextThread j (s.thread j)) ∧
      s.aborted = false ∧ Asserts literalLzo s := by
  obtain ⟨s, hs, hmain⟩ := exists_reachable_of_exec (system literalLzo 0 2 [[1, 2, 3], [4]])
    [.main, .main, .main, .main, .main, .main, .main] (fun s => s.main = .shutdown 1 [0])
    (by decide +kernel)
  exact ⟨s, hs, by simpa using hmain, lzoPool_asserts (by decide) hs⟩

end Assertions

end Wandio.LzoWriter
