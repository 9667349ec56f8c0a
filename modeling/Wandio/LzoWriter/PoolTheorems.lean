import Wandio.LzoWriter.BlockTheorems
import Wandio.Utils.RingBuffer

/-!
# The pool

Seen from outside a slot of the pool has a `Content`: bytes that are being collected, or a
block that has been handed over and not been written yet. Compressing changes nothing in
that, so only the caller's thread makes the pool go on. The blocks go round the slots: when
`bs` have been handed over, the slot `k` behind the next one holds block `bs.length + k - n`.
-/

namespace Wandio.LzoWriter

open Transition RingBuffer

/-- What a slot of the pool has. -/
inductive Content where
  | filling (part : List Byte)
  | holding (block : List Byte)

/-- The block that is to be written from a slot. -/
def Content.block : Content → Option (List Byte)
  | .filling _ => none
  | .holding b => some b

/-- A slot has the content `c`, compressed or not. -/
def Holds (lib : Lzo) (t : LzoThread) : Content → Prop
  | .filling part => t.state = .empty ∧ t.inbuf = part
  | .holding b =>
    IsBlock b ∧ t.inbuf = b ∧ (t.state = .waiting ∨ t.state = .full ∧ t.outbuf = encoded lib b)

/-- The slots have the contents `C`. -/
def Contains (lib : Lzo) (s : State) (C : ℕ → Content) : Prop :=
  ∀ j, j < s.threads → Holds lib (s.thread j) (C j)

/-- A wake-up for a caller's thread that waits on `out_ready`. -/
def MainPc.wake : MainPc → MainPc
  | .waitOut _ => .waitOut true
  | .waitShutdown i is _ => .waitShutdown i is true
  | pc => pc

/-- Nothing has changed but the threads and, perhaps, a wake-up of the caller's thread. -/
structure Quiet (s t : State) : Prop where
  threads : t.threads = s.threads
  nextThread : t.nextThread = s.nextThread
  main : t.main = s.main ∨ t.main = s.main.wake
  calls : t.calls = s.calls
  rest : t.rest = s.rest
  child : t.child = s.child
  aborted : t.aborted = s.aborted

section Slots

variable {lib : Lzo} {s t : State} {C : ℕ → Content} {c : Content} {u v : LzoThread} {i : ℕ}

theorem Contains.setThread (h : Contains lib s C) (hv : Holds lib v c) :
    Contains lib (s.setThread i v) (Function.update C i c) := by
  intro j hj
  show Holds lib (Function.update s.thread i v j) (Function.update C i c j)
  by_cases hij : j = i
  · rw [hij, Function.update_self, Function.update_self]
    exact hv
  · rw [Function.update_of_ne hij, Function.update_of_ne hij]
    exact h j hj

/-- A thread that changes and has what it had. -/
theorem Contains.setThread_same (h : Contains lib s C) (hv : Holds lib v (C i)) :
    Contains lib (s.setThread i v) C := by
  have hset := h.setThread (i := i) hv
  rwa [Function.update_eq_self] at hset

theorem Holds.congr (h : Holds lib u c) (hstate : v.state = u.state) (hin : v.inbuf = u.inbuf)
    (hout : v.outbuf = u.outbuf) : Holds lib v c := by
  cases c with
  | filling part => exact ⟨hstate.trans h.1, hin.trans h.2⟩
  | holding b => exact ⟨h.1, hin.trans h.2.1, by rw [hstate, hout]; exact h.2.2⟩

theorem Holds.signalInReady (h : Holds lib u c) : Holds lib u.signalInReady c := by
  apply h.congr <;> unfold LzoThread.signalInReady <;> split <;> rfl

/-- A slot that waits to be compressed holds a block. -/
theorem Holds.of_waiting (h : Holds lib u c) (hw : u.state = .waiting) :
    ∃ b, c = .holding b ∧ IsBlock b ∧ u.inbuf = b := by
  cases c with
  | filling part =>
    rw [h.1] at hw
    contradiction
  | holding b => exact ⟨b, rfl, h.1, h.2.1⟩

/-- A slot that is full has an encoded block. -/
theorem Holds.of_full (h : Holds lib u c) (hf : u.state = .full) :
    ∃ b, c = .holding b ∧ IsBlock b ∧ u.outbuf = encoded lib b := by
  cases c with
  | filling part =>
    rw [h.1] at hf
    contradiction
  | holding b =>
    rcases h.2.2 with hw | ⟨_, hout⟩
    · rw [hf] at hw
      contradiction
    · exact ⟨b, rfl, h.1, hout⟩

theorem Holds.of_empty (h : Holds lib u c) (he : u.state = .empty) :
    c = .filling u.inbuf := by
  cases c with
  | filling part => rw [h.2]
  | holding b => rcases h.2.2 with hw | ⟨hf, _⟩ <;> simp_all

/-! ## Compressing -/

theorem Quiet.setThread (s : State) (i : ℕ) (v : LzoThread) : Quiet s (s.setThread i v) :=
  ⟨rfl, rfl, .inl rfl, rfl, rfl, rfl, rfl⟩

theorem signalOutReady_quiet (s : State) (i : ℕ) :
    Quiet s (s.signalOutReady i) ∧ (s.signalOutReady i).thread = s.thread := by
  unfold State.signalOutReady
  split
  · next hm =>
    split
    · exact ⟨⟨rfl, rfl, .inr (by rw [hm]; rfl), rfl, rfl, rfl, rfl⟩, rfl⟩
    · exact ⟨⟨rfl, rfl, .inl rfl, rfl, rfl, rfl, rfl⟩, rfl⟩
  · next hm =>
    split
    · exact ⟨⟨rfl, rfl, .inr (by rw [hm]; rfl), rfl, rfl, rfl, rfl⟩, rfl⟩
    · exact ⟨⟨rfl, rfl, .inl rfl, rfl, rfl, rfl, rfl⟩, rfl⟩
  · exact ⟨⟨rfl, rfl, .inl rfl, rfl, rfl, rfl, rfl⟩, rfl⟩

/-- A thread that has what it had signals the caller's thread. -/
theorem Contains.signalOutReady (h : Contains lib s C) (hv : Holds lib v (C i)) :
    Quiet s ((s.setThread i v).signalOutReady i) ∧
      Contains lib ((s.setThread i v).signalOutReady i) C := by
  obtain ⟨hq, hthread⟩ := signalOutReady_quiet (s.setThread i v) i
  refine ⟨⟨hq.threads, hq.nextThread, hq.main, hq.calls, hq.rest, hq.child, hq.aborted⟩, ?_⟩
  intro j hj
  rw [hthread]
  exact h.setThread_same hv j (hq.threads ▸ hj)

/-- A compress thread changes nothing that can be seen from outside. -/
theorem compressLoop_quiet (h : Contains lib s C) (hi : i < s.threads) :
    Quiet s (compressLoop lib s i) ∧ Contains lib (compressLoop lib s i) C := by
  have hslot := h i hi
  unfold compressLoop
  simp only
  split
  · exact ⟨.setThread s i _, h.setThread_same (hslot.congr rfl rfl rfl)⟩
  -- the thread ends, compresses its block, or waits
  · split
    · next hw =>
      obtain ⟨b, hc, hb, hin⟩ := hslot.of_waiting hw
      by_cases hok : (lib.compress b).1 = 0
      · have hblock : lzoWwriteBlock lib (s.thread i).inbuf =
            some ((b.length : ℤ), encoded lib b) := by
          rw [hin, lzoWwriteBlock_eq hok hb, ← encoded_eq hok hb]
        rw [hblock]
        simp only
        rw [if_neg (by omega)]
        apply h.signalOutReady
        rw [hc]
        exact ⟨hb, hin, .inr ⟨rfl, rfl⟩⟩
      · -- the slot keeps its block
        have hblock : lzoWwriteBlock lib (s.thread i).inbuf =
            some (blockError (lib.compress b).1, []) := by rw [hin, lzoWwriteBlock_failed hok]
        rw [hblock]
        simp only
        rw [if_pos (blockError_neg _)]
        refine ⟨.setThread s i _, h.setThread_same ?_⟩
        rw [hc]
        exact ⟨hb, hin, .inl hw⟩
    · exact ⟨.setThread s i _, h.setThread_same (hslot.congr rfl rfl rfl)⟩

theorem compressStep_quiet (h : Contains lib s C) (hs : compressStep lib s i = some t) :
    Quiet s t ∧ Contains lib t C := by
  unfold compressStep at hs
  split at hs
  · next hi =>
    have hloop := compressLoop_quiet h hi
    split at hs
    · exact Option.some.inj hs ▸ hloop
    · exact Option.some.inj hs ▸ hloop
    · contradiction
    · contradiction
  · contradiction

end Slots

/-! ## The blocks in the slots -/

/-- The content of the slot `k` behind the next one when `bs` have been handed over and
`part` is collected. -/
def contentAt (n : ℕ) (bs : List (List Byte)) (part : List Byte) (k : ℕ) : Content :=
  if k = 0 ∧ part ≠ [] then .filling part
  else if n ≤ bs.length + k then .holding (bs.getD (bs.length + k - n) [])
  else .filling []

/-- The contents of a pool of `n` slots, but for the next one. -/
def Behind (n : ℕ) (bs : List (List Byte)) (C : ℕ → Content) : Prop :=
  ∀ k, 0 < k → k < n → C ((bs.length + k) % n) = contentAt n bs [] k

section Round

variable {n : ℕ} {bs : List (List Byte)} {part b : List Byte} {C : ℕ → Content} {c : Content}

theorem Behind.update (h : Behind n bs C) :
    Behind n bs (Function.update C (bs.length % n) c) := by
  intro k hk hkn
  have hne : (bs.length + k) % n ≠ bs.length % n := by
    -- `k` slots on, and less than a round
    have := slot_ne' n bs.length (i := k) (j := 0) hkn (by omega) (by omega)
    rwa [Nat.add_zero] at this
  rw [Function.update_of_ne hne]
  exact h k hk hkn

/-- The next slot is handed over. -/
theorem Behind.advance (h : Behind n bs C) :
    ∀ k, k < n → Function.update C (bs.length % n) (.holding b) ((bs.length + 1 + k) % n) =
      contentAt n (bs ++ [b]) [] k := by
  intro k hkn
  have hlen : (bs ++ [b]).length = bs.length + 1 := by simp
  have hempty : ¬ (k = 0 ∧ ([] : List Byte) ≠ []) := fun hne => hne.2 rfl
  rw [contentAt, if_neg hempty, hlen]
  by_cases hlast : k + 1 = n
  · -- once round
    have hslot : (bs.length + 1 + k) % n = bs.length % n := by
      rw [show bs.length + 1 + k = bs.length + n by omega, Nat.add_mod_right]
    have hindex : bs.length + 1 + k - n = bs.length := by omega
    rw [hslot, Function.update_self, if_pos (by omega), hindex, List.getD_eq_getElem?_getD,
      List.getElem?_concat_length, Option.getD_some]
  -- any other slot is one behind the old next one
  · have hslot : bs.length + 1 + k = bs.length + (k + 1) := by omega
    rw [hslot, h.update (k + 1) (by omega) (by omega), contentAt,
      if_neg fun hne => hne.2 rfl]
    by_cases hheld : n ≤ bs.length + (k + 1)
    · rw [if_pos hheld, if_pos hheld, List.getD_eq_getElem?_getD, List.getD_eq_getElem?_getD,
        List.getElem?_append_left (by omega)]
    · rw [if_neg hheld, if_neg hheld]

end Round

end Wandio.LzoWriter
