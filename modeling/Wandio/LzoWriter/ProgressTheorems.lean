import Wandio.LzoWriter.OrderTheorems
import Mathlib.Algebra.BigOperators.Group.Finset.Basic

/-!
# Progress of the pool

A thread whose block is not accepted by the compressor ends and leaves its slot waiting, and
nobody else changes that. The caller's thread sleeps in front of such a slot for good, as soon as
it comes to it. No other wake-up is lost: as long as no block fails the caller's thread gets past
every slot.
-/

namespace Wandio.LzoWriter

open Transition

/-! ## Signals -/

/-- What `pthread_cond_signal(&in_ready)` makes of a thread. -/
def ThreadPc.signal : ThreadPc → ThreadPc
  | .waitIn _ => .waitIn true
  | pc => pc

theorem signal_ne_waitIn (pc : ThreadPc) : pc.signal ≠ .waitIn false := by
  cases pc <;> simp [ThreadPc.signal]

theorem signal_eq_exited {pc : ThreadPc} : pc.signal = .exited ↔ pc = .exited := by
  cases pc <;> simp [ThreadPc.signal]

theorem signalInReady_eq (t : LzoThread) : t.signalInReady = { t with pc := t.pc.signal } := by
  obtain ⟨pc, closing, state, inbuf, outbuf⟩ := t
  cases pc <;> rfl

/-! ## What a section can do -/

/-- Data has been put in the slot of `u`, and the slot handed over perhaps. -/
structure Refilled (u v : LzoThread) : Prop where
  closing : v.closing = u.closing
  outbuf : v.outbuf = u.outbuf
  state : v.state = .empty ∧ v.pc = u.pc ∨ v.state = .waiting ∧ v.pc = u.pc.signal

/-- The child has got what was in a full slot. -/
def Emptied (u : LzoThread) (before after : List ChildOp) : Prop :=
  after = before ∨ u.state = .full ∧ after = before ++ [.wwrite u.outbuf]

/-- The sections of the caller's thread when no assertion fails. -/
inductive MainMove (s : State) : State → Prop where
  | call {buffer : List Byte} {calls : List (List Byte)} (hmain : s.main = .idle)
    (hcalls : s.calls = buffer :: calls) : MainMove s { s with rest := buffer, main := .writing }
  | return (hmain : s.main = .writing) (hrest : s.rest = []) : MainMove s (s.return 0)
  | wait (hmain : s.main = .writing ∨ s.main = .waitOut true) (hslot : s.next.state = .waiting) :
    MainMove s { s with main := .waitOut false }
  | fill {v : LzoThread} {size next : ℕ} {child : List ChildOp}
    (hmain : s.main = .writing ∨ s.main = .waitOut true) (hslot : s.next.state ≠ .waiting)
    (hv : Refilled s.next v) (hchild : Emptied s.next s.child child) (hpos : 0 < size)
    (hle : size ≤ s.rest.length) :
    MainMove s
      { s with
        thread := Function.update s.thread s.nextThread v
        nextThread := next
        main := .writing
        rest := s.rest.drop size
        child := child }
  | close {v : LzoThread} {next i : ℕ} {is : List ℕ} (hmain : s.main = .idle)
    (hcalls : s.calls = []) (hv : v = s.next ∨ s.next.state = .empty ∧ Refilled s.next v)
    (hlen : is.length + 1 = s.threads) :
    MainMove s
      { s with
        thread := Function.update s.thread s.nextThread v
        nextThread := next
        main := .shutdown i is }
  | block {i : ℕ} {is : List ℕ} (hmain : s.main = .shutdown i is ∨ s.main = .waitShutdown i is true)
    (hslot : (s.thread i).state = .waiting) : MainMove s { s with main := .waitShutdown i is false }
  | stop {i : ℕ} {is : List ℕ} {v : LzoThread} {child : List ChildOp}
    (hmain : s.main = .shutdown i is ∨ s.main = .waitShutdown i is true)
    (hv : v.closing = true ∧ v.state = .empty ∧ v.pc = (s.thread i).pc.signal)
    (hchild : Emptied (s.thread i) s.child child) :
    MainMove s
      { s with
        thread := Function.update s.thread i v
        main := .joining i is
        child := child }
  | join {i : ℕ} {is : List ℕ} (hmain : s.main = .joining i is)
    (hexited : (s.thread i).pc = .exited) : MainMove s (shutdownNext s is)

/-- The sections of a compress thread that is awake. -/
inductive CompressMove (lib : Lzo) (s : State) (i : ℕ) : State → Prop where
  | exit (hclosing : (s.thread i).closing = true) :
    CompressMove lib s i (s.setThread i { s.thread i with pc := .exited })
  | compress {outbuf : List Byte} (hopen : (s.thread i).closing = false)
    (hstate : (s.thread i).state = .waiting) (hne : outbuf ≠ []) :
    CompressMove lib s i
      ((s.setThread i
        { s.thread i with
          outbuf := outbuf
          state := .full
          pc := .waitIn false }).signalOutReady i)
  | fail (hopen : (s.thread i).closing = false) (hstate : (s.thread i).state = .waiting)
    (hfail : (lib.compress (s.thread i).inbuf).1 ≠ 0) :
    CompressMove lib s i (s.setThread i { s.thread i with outbuf := [], pc := .exited })
  | sleep (hopen : (s.thread i).closing = false) (hstate : (s.thread i).state ≠ .waiting) :
    CompressMove lib s i (s.setThread i { s.thread i with pc := .waitIn false })

section Moves

variable {lib : Lzo} {s t : State} {i : ℕ} {is : List ℕ} {C : ℕ → Content}

/-- Filling the slot once it is empty. -/
theorem wwriteFill_eq (hempty : s.next.state = .empty) (hok : (wwriteFill s).aborted = false) :
    ∃ v size next, Refilled s.next v ∧ 0 < size ∧ size ≤ s.rest.length ∧
      wwriteFill s =
        { s with
          thread := Function.update s.thread s.nextThread v
          nextThread := next
          main := .writing
          rest := s.rest.drop size } := by
  unfold wwriteFill at hok ⊢
  simp only at hok ⊢
  split at hok
  · cases hok
  · next hsize =>
    rw [if_neg hsize]
    have hpos := Nat.pos_of_ne_zero hsize
    split
    · refine ⟨_, _, _, ?_, hpos, Nat.min_le_right _ _, rfl⟩
      rw [signalInReady_eq]
      exact ⟨rfl, rfl, .inr ⟨rfl, rfl⟩⟩
    · refine ⟨{ s.next with inbuf := _ }, _, _, ?_, hpos, Nat.min_le_right _ _, rfl⟩
      exact ⟨rfl, rfl, .inl ⟨hempty, rfl⟩⟩

/-- A section of `lzo_wwrite`. -/
theorem wwriteSection_move (hmain : s.main = .writing ∨ s.main = .waitOut true)
    (hok : (wwriteSection s).aborted = false) : MainMove s (wwriteSection s) := by
  unfold wwriteSection at hok ⊢
  split at hok
  · next hslot => exact .wait hmain hslot
  · next hslot =>
    split at hok
    · next hroom =>
      rw [if_pos hroom]
      set u := (s.wwrite s.next.outbuf).setThread s.nextThread
        { s.next with state := .empty, inbuf := [] } with hu
      have hnext : u.next = { s.next with state := .empty, inbuf := [] } := Function.update_self ..
      obtain ⟨v, size, next, hv, hpos, hle, heq⟩ := wwriteFill_eq (by rw [hnext]) hok
      rw [hnext] at hv
      rw [heq, hu]
      simp only [State.setThread, State.wwrite, Function.update_idem]
      exact .fill hmain (by rw [hslot]; decide) ⟨hv.closing, hv.outbuf, hv.state⟩
        (.inr ⟨hslot, rfl⟩) hpos hle
    · cases hok
  · next hslot =>
    obtain ⟨v, size, next, hv, hpos, hle, heq⟩ := wwriteFill_eq hslot hok
    rw [heq]
    exact .fill hmain (by rw [hslot]; decide) hv (.inl rfl) hpos hle

/-- A section of `shutdown_thread`. -/
theorem shutdownSection_move (hmain : s.main = .shutdown i is ∨ s.main = .waitShutdown i is true)
    (hok : (shutdownSection s i is).aborted = false) : MainMove s (shutdownSection s i is) := by
  unfold shutdownSection at hok ⊢
  simp only at hok ⊢
  cases hstate : (s.thread i).state with
  | waiting =>
    rw [if_pos rfl]
    exact .block hmain hstate
  | full =>
    simp only [hstate, reduceCtorEq, if_false, if_true] at hok ⊢
    rw [signalInReady_eq]
    exact .stop hmain ⟨rfl, rfl, rfl⟩ (.inr ⟨hstate, rfl⟩)
  | empty =>
    simp only [hstate, reduceCtorEq, if_false] at hok ⊢
    split
    · rw [signalInReady_eq]
      exact .stop hmain ⟨rfl, rfl, rfl⟩ (.inl rfl)
    · next hin =>
      rw [if_neg hin] at hok
      cases hok

theorem length_shutdownOrder {n a : ℕ} (ha : a < n) : (shutdownOrder n a).length = n := by
  rw [shutdownOrder_eq ha, List.length_map, List.length_range]

/-- `lzo_wclose` up to the first `shutdown_thread`. -/
theorem lzoWclose_move (hthreads : 0 < s.threads) (hmain : s.main = .idle) (hcalls : s.calls = []) :
    MainMove s (lzoWclose s) := by
  unfold lzoWclose
  rw [if_neg hthreads.ne']
  simp only
  set a := (s.nextThread + 1) % s.threads with ha
  have hlen := length_shutdownOrder (ha ▸ Nat.mod_lt _ hthreads : a < s.threads)
  cases horder : shutdownOrder s.threads a with
  | nil =>
    rw [horder, List.length_nil] at hlen
    omega
  | cons i is =>
    rw [horder, List.length_cons] at hlen
    split
    · next hpart =>
      rw [signalInReady_eq]
      exact .close hmain hcalls (.inr ⟨hpart.1, rfl, rfl, .inr ⟨rfl, rfl⟩⟩) hlen
    · have hsame : s.thread = Function.update s.thread s.nextThread s.next :=
        (Function.update_eq_self _ _).symm
      rw [hsame]
      exact .close hmain hcalls (.inl rfl) hlen

/-- A section of the caller's thread in which no assertion fails. -/
theorem mainMove (hthreads : 0 < s.threads) (hs : mainStep lib s = some t)
    (hok : t.aborted = false) : MainMove s t := by
  unfold mainStep at hs
  cases hmain : s.main with
  | idle =>
    rw [hmain] at hs
    cases hcalls : s.calls with
    | nil =>
      rw [hcalls] at hs
      simp only [Option.some.injEq] at hs
      subst hs
      exact lzoWclose_move hthreads hmain hcalls
    | cons buffer calls =>
      rw [hcalls] at hs
      simp only [Option.some.injEq] at hs
      subst hs
      have hmove := MainMove.call hmain hcalls
      rwa [hcalls] at hmove
  | writing =>
    rw [hmain] at hs
    simp only [Option.some.injEq, wwriteTurn] at hs
    split at hs
    · rw [if_neg (by omega)] at hs
      subst hs
      exact wwriteSection_move (.inl hmain) hok
    · next hrest =>
      subst hs
      exact .return hmain (List.eq_nil_of_length_eq_zero (by omega))
  | waitOut signalled =>
    rw [hmain] at hs
    cases signalled with
    | false => contradiction
    | true =>
      simp only [Option.some.injEq] at hs
      subst hs
      exact wwriteSection_move (.inr hmain) hok
  | shutdown i is =>
    rw [hmain] at hs
    simp only [Option.some.injEq] at hs
    subst hs
    unfold shutdownThread at hok ⊢
    split at hok
    · cases hok
    · next hkeep =>
      rw [if_neg hkeep]
      exact shutdownSection_move (.inl hmain) hok
  | waitShutdown i is signalled =>
    rw [hmain] at hs
    cases signalled with
    | false => contradiction
    | true =>
      simp only [Option.some.injEq] at hs
      subst hs
      exact shutdownSection_move (.inr hmain) hok
  | joining i is =>
    rw [hmain] at hs
    simp only at hs
    split at hs
    · next hexited =>
      simp only [Option.some.injEq] at hs
      subst hs
      exact .join hmain hexited
    · contradiction
  | closed =>
    rw [hmain] at hs
    contradiction

/-- A section of a compress thread that is awake. -/
theorem compressMove (hC : Contains lib s C) (hs : compressStep lib s i = some t) :
    i < s.threads ∧ ((s.thread i).pc = .start ∨ (s.thread i).pc = .waitIn true) ∧
      CompressMove lib s i t := by
  unfold compressStep at hs
  split at hs
  · next hi =>
    have hloop : CompressMove lib s i (compressLoop lib s i) := by
      unfold compressLoop
      simp only
      split
      · next hclosing => exact .exit hclosing
      · next hopen =>
        have hopen : (s.thread i).closing = false := by simpa using hopen
        split
        · next hstate =>
          obtain ⟨b, hc, hb, hin⟩ := (hC i hi).of_waiting hstate
          by_cases hcode : (lib.compress (s.thread i).inbuf).1 = 0
          · rw [← hin] at hb
            rw [lzoWwriteBlock_eq hcode hb]
            simp only
            rw [if_neg (by omega)]
            exact .compress hopen hstate (by simp [htonl])
          · rw [lzoWwriteBlock_failed hcode]
            simp only
            rw [if_pos (blockError_neg _)]
            exact .fail hopen hstate hcode
        · next hstate => exact .sleep hopen hstate
    refine ⟨hi, ?_⟩
    split at hs
    · next hpc => exact ⟨.inl hpc, Option.some.inj hs ▸ hloop⟩
    · next hpc => exact ⟨.inr hpc, Option.some.inj hs ▸ hloop⟩
    · contradiction
    · contradiction
  · contradiction

end Moves

/-! ## No lost wake-up -/

/-- The slot `j` is still to be shut down. -/
def MainPc.Pending (j : ℕ) : MainPc → Prop
  | .idle | .writing | .waitOut _ => True
  | .shutdown i is | .waitShutdown i is _ => j ∈ i :: is
  | .joining _ is => j ∈ is
  | .closed => False

/-- A compress thread ends only when it is told to or its block fails, and it sleeps only in front
of a slot that does not wait. -/
structure SlotLive (lib : Lzo) (t : LzoThread) : Prop where
  exited : t.pc = .exited →
    t.closing = true ∨ t.state = .waiting ∧ (lib.compress t.inbuf).1 ≠ 0
  asleep : t.pc = .waitIn false → t.state ≠ .waiting ∧ t.closing = false
  full : t.state = .full → t.outbuf ≠ []

/-- The caller's thread waits for what is to come. -/
def MainLive (s : State) : MainPc → Prop
  | .writing => s.calls ≠ []
  | .waitOut signalled => s.calls ≠ [] ∧ (signalled = false → s.next.state = .waiting)
  | .waitShutdown i _ signalled => signalled = false → (s.thread i).state = .waiting
  | .joining i _ => i < s.threads ∧ (s.thread i).closing = true
  | _ => True

/-- What holds of the slots and of the caller's thread at every moment. -/
structure Live (lib : Lzo) (s : State) : Prop where
  slot : ∀ j, SlotLive lib (s.thread j)
  pending : ∀ j, s.main.Pending j → (s.thread j).closing = false
  main : MainLive s s.main
  child : .wwrite [] ∉ s.child

section Live

variable {lib : Lzo} {header all : List Byte} {n : ℕ} {s t : State} {u v : LzoThread} {i : ℕ}
  {child : List ChildOp}

theorem SlotLive.signal (h : SlotLive lib u) : SlotLive lib { u with pc := u.pc.signal } := by
  refine ⟨fun hpc => h.exited (signal_eq_exited.mp hpc), fun hpc => ?_, h.full⟩
  exact absurd hpc (signal_ne_waitIn _)

/-- A slot that is refilled was not waiting, and its thread has not been told to end. -/
theorem SlotLive.refilled (h : SlotLive lib u) (hopen : u.closing = false)
    (hslot : u.state ≠ .waiting) (hv : Refilled u v) : SlotLive lib v := by
  have halive : u.pc ≠ .exited := by
    intro hpc
    rcases h.exited hpc with hclosing | ⟨hwaiting, _⟩
    · rw [hopen] at hclosing
      cases hclosing
    · exact hslot hwaiting
  obtain ⟨hclosing, houtbuf, ⟨hstate, hpc⟩ | ⟨hstate, hpc⟩⟩ := hv
  · refine ⟨fun hex => absurd (hpc ▸ hex) halive, fun hsleep => ?_, ?_⟩
    · exact ⟨by rw [hstate]; decide, hclosing.trans hopen⟩
    · rw [hstate]
      nofun
  · refine ⟨fun hex => ?_, fun hsleep => ?_, ?_⟩
    · rw [hpc] at hex
      exact absurd (signal_eq_exited.mp hex) halive
    · rw [hpc] at hsleep
      exact absurd hsleep (signal_ne_waitIn _)
    · rw [hstate]
      nofun

/-- What is written of a slot is not empty. -/
theorem SlotLive.emptied (h : SlotLive lib u) (hchild : .wwrite [] ∉ s.child)
    (hemptied : Emptied u s.child child) : .wwrite [] ∉ child := by
  rcases hemptied with rfl | ⟨hfull, rfl⟩
  · exact hchild
  · rw [List.mem_append, List.mem_singleton, not_or]
    refine ⟨hchild, fun heq => ?_⟩
    exact h.full hfull (ChildOp.wwrite.inj heq).symm

/-- One slot changes. -/
theorem Live.update_slot (h : ∀ j, SlotLive lib (s.thread j)) (hv : SlotLive lib v) (j : ℕ) :
    SlotLive lib (Function.update s.thread i v j) := by
  by_cases hj : j = i
  · rw [hj, Function.update_self]
    exact hv
  · rw [Function.update_of_ne hj]
    exact h j

theorem Live.update_pending {P : ℕ → Prop} (h : ∀ j, P j → (s.thread j).closing = false)
    (hv : P i → v.closing = false) (j : ℕ) (hj : P j) :
    (Function.update s.thread i v j).closing = false := by
  by_cases hij : j = i
  · rw [hij, Function.update_self]
    exact hv (hij ▸ hj)
  · rw [Function.update_of_ne hij]
    exact h j hj

theorem Live.mainStep (hinv : PooledInv lib header all n s) (h : Live lib s)
    (hmove : MainMove s t) : Live lib t := by
  cases hmove with
  | call hmain hcalls =>
    have hpending := h.pending
    rw [hmain] at hpending
    exact ⟨h.slot, hpending, by rw [MainLive, hcalls]; simp, h.child⟩
  | «return» hmain hrest =>
    have hpending := h.pending
    rw [hmain] at hpending
    exact ⟨h.slot, hpending, trivial, h.child⟩
  | wait hmain hslot =>
    have hpending := h.pending
    have hcalls := h.main
    rcases hmain with hmain | hmain
    · rw [hmain] at hpending hcalls
      exact ⟨h.slot, hpending, ⟨hcalls, fun _ => hslot⟩, h.child⟩
    · rw [hmain] at hpending hcalls
      exact ⟨h.slot, hpending, ⟨hcalls.1, fun _ => hslot⟩, h.child⟩
  | fill hmain hslot hv hchild hpos hle =>
    have hpending : ∀ j, (s.thread j).closing = false := by
      intro j
      apply h.pending
      rcases hmain with hmain | hmain <;> (rw [hmain]; trivial)
    have hcalls : s.calls ≠ [] := by
      have hmain' := h.main
      rcases hmain with hmain | hmain
      · rwa [hmain] at hmain'
      · rw [hmain] at hmain'
        exact hmain'.1
    refine ⟨?_, ?_, hcalls, (h.slot _).emptied h.child hchild⟩
    · exact Live.update_slot h.slot ((h.slot _).refilled (hpending _) hslot hv)
    · exact Live.update_pending (P := fun _ => True) (fun j _ => hpending j)
        fun _ => hv.closing.trans (hpending _)
  | @close v next i is hmain hcalls hv hlen =>
    have hpending : ∀ j, (s.thread j).closing = false := by
      intro j
      apply h.pending
      rw [hmain]
      trivial
    have hslot : SlotLive lib v ∧ v.closing = false := by
      rcases hv with rfl | ⟨hempty, hv⟩
      · exact ⟨h.slot _, hpending _⟩
      · refine ⟨(h.slot _).refilled (hpending _) ?_ hv, hv.closing.trans (hpending _)⟩
        rw [show (s.thread s.nextThread).state = .empty from hempty]
        decide
    refine ⟨Live.update_slot h.slot hslot.1, ?_, trivial, h.child⟩
    exact Live.update_pending (P := (· ∈ i :: is)) (fun j _ => hpending j) fun _ => hslot.2
  | block hmain hslot =>
    have hpending := h.pending
    rcases hmain with hmain | hmain
    · rw [hmain] at hpending
      exact ⟨h.slot, hpending, fun _ => hslot, h.child⟩
    · rw [hmain] at hpending
      exact ⟨h.slot, hpending, fun _ => hslot, h.child⟩
  | @stop i is v child hmain hv hchild =>
    obtain ⟨C, _, hplace⟩ := hinv.place
    have hpending : ∀ j ∈ i :: is, (s.thread j).closing = false := by
      intro j hj
      apply h.pending
      rcases hmain with hmain | hmain <;> (rw [hmain]; exact hj)
    have hdrain : Draining lib header all s C (i :: is) := by
      rcases hmain with hmain | hmain <;> (rw [hmain] at hplace; exact hplace)
    have hv' : SlotLive lib v := by
      refine ⟨fun _ => .inl hv.1, fun hsleep => ?_, ?_⟩
      · rw [hv.2.2] at hsleep
        exact absurd hsleep (signal_ne_waitIn _)
      · rw [hv.2.1]
        nofun
    refine ⟨Live.update_slot h.slot hv', ?_, ⟨?_, ?_⟩, (h.slot _).emptied h.child hchild⟩
    · refine Live.update_pending (P := (· ∈ is))
        (fun j hj => hpending j (List.mem_cons_of_mem _ hj)) fun hi => ?_
      exact absurd hi (List.nodup_cons.mp hdrain.nodup).1
    · exact hdrain.lt i (List.mem_cons_self ..)
    · show (Function.update s.thread i v i).closing = true
      rw [Function.update_self]
      exact hv.1
  | @join i is hmain hexited =>
    have hpending := h.pending
    rw [hmain] at hpending
    cases is with
    | nil =>
      refine ⟨h.slot, nofun, trivial, ?_⟩
      show _ ∉ s.child ++ _
      simp [h.child]
    | cons j js => exact ⟨h.slot, hpending, trivial, h.child⟩

/-- A thread goes on and leaves its slot as it is. -/
theorem Live.setThread (h : Live lib s) (hv : SlotLive lib v)
    (hclosing : v.closing = (s.thread i).closing) (hstate : v.state = (s.thread i).state) :
    Live lib (s.setThread i v) := by
  have hsame : ∀ j, (Function.update s.thread i v j).state = (s.thread j).state ∧
      (Function.update s.thread i v j).closing = (s.thread j).closing := by
    intro j
    by_cases hj : j = i
    · rw [hj, Function.update_self]
      exact ⟨hstate, hclosing⟩
    · rw [Function.update_of_ne hj]
      exact ⟨rfl, rfl⟩
  refine ⟨Live.update_slot h.slot hv, ?_, ?_, h.child⟩
  · exact Live.update_pending h.pending fun hi => hclosing.trans (h.pending i hi)
  · have hmain := h.main
    show MainLive (s.setThread i v) s.main
    cases hpc : s.main with
    | waitOut signalled =>
      rw [hpc] at hmain
      exact ⟨hmain.1, fun hs => (hsame _).1.trans (hmain.2 hs)⟩
    | waitShutdown j js signalled =>
      rw [hpc] at hmain
      exact fun hs => (hsame _).1.trans (hmain hs)
    | joining j js =>
      rw [hpc] at hmain
      exact ⟨hmain.1, (hsame _).2.trans hmain.2⟩
    | writing =>
      rw [hpc] at hmain
      exact hmain
    | _ => trivial

/-- A thread has compressed its block, and signals the caller's thread. -/
theorem Live.compressed (h : Live lib s) (hv : SlotLive lib v)
    (hclosing : v.closing = (s.thread i).closing) :
    Live lib ((s.setThread i v).signalOutReady i) := by
  obtain ⟨hquiet, hthread⟩ := signalOutReady_quiet (s.setThread i v) i
  have hpending : ∀ j, s.main.Pending j → (Function.update s.thread i v j).closing = false :=
    Live.update_pending h.pending fun hi => hclosing.trans (h.pending i hi)
  have hmain := h.main
  refine ⟨?_, ?_, ?_, ?_⟩
  · rw [hthread]
    exact Live.update_slot h.slot hv
  · intro j hj
    rw [hthread]
    refine hpending j ?_
    rcases hquiet.main with heq | heq
    · rwa [heq] at hj
    · rw [heq] at hj
      show s.main.Pending j
      change (MainPc.wake s.main).Pending j at hj
      cases hpc : s.main <;> (rw [hpc] at hj; exact hj)
  · have hset : (s.setThread i v).main = s.main := rfl
    unfold State.signalOutReady
    cases hpc : s.main with
    | waitOut signalled =>
      rw [hpc] at hmain
      simp only [hset, hpc]
      split
      · exact ⟨hmain.1, nofun⟩
      · next hi =>
        show MainLive (s.setThread i v) s.main
        rw [hpc]
        refine ⟨hmain.1, fun hs => ?_⟩
        show (Function.update s.thread i v s.nextThread).state = _
        rw [Function.update_of_ne (show s.nextThread ≠ i from fun h => hi h.symm)]
        exact hmain.2 hs
    | waitShutdown j js signalled =>
      rw [hpc] at hmain
      simp only [hset, hpc]
      split
      · nofun
      · next hi =>
        show MainLive (s.setThread i v) s.main
        rw [hpc]
        intro hs
        show (Function.update s.thread i v j).state = _
        rw [Function.update_of_ne (Ne.symm hi)]
        exact hmain hs
    | joining j js =>
      rw [hpc] at hmain
      simp only [hset, hpc]
      refine ⟨hmain.1, ?_⟩
      show (Function.update s.thread i v j).closing = true
      by_cases hj : j = i
      · rw [hj, Function.update_self, hclosing, ← hj]
        exact hmain.2
      · rw [Function.update_of_ne hj]
        exact hmain.2
    | writing =>
      rw [hpc] at hmain
      simp only [hset, hpc]
      exact hmain
    | _ => simp only [hset, hpc, MainLive]
  · rw [hquiet.child]
    exact h.child

theorem Live.compressStep (h : Live lib s) (hmove : CompressMove lib s i t) : Live lib t := by
  have hslot := h.slot i
  cases hmove with
  | exit hclosing => exact h.setThread ⟨fun _ => .inl hclosing, nofun, hslot.full⟩ rfl rfl
  | compress hopen hstate hne =>
    exact h.compressed ⟨nofun, fun _ => ⟨nofun, hopen⟩, fun _ => hne⟩ rfl
  | fail hopen hstate hfail =>
    refine h.setThread ⟨fun _ => .inr ⟨hstate, hfail⟩, nofun, fun hfull => ?_⟩ rfl rfl
    exact absurd (hstate.symm.trans hfull) (by decide)
  | sleep hopen hstate =>
    exact h.setThread ⟨nofun, fun _ => ⟨hstate, hopen⟩, hslot.full⟩ rfl rfl

theorem Live.wakeMain (h : Live lib s) (ht : step lib s .wakeMain = some t) : Live lib t := by
  have hpending := h.pending
  have hmain := h.main
  unfold LzoWriter.step at ht
  split at ht
  · contradiction
  · cases hpc : s.main with
    | waitOut signalled =>
      rw [hpc] at hpending hmain
      simp only [hpc, Option.some.injEq] at ht
      subst ht
      exact ⟨h.slot, hpending, ⟨hmain.1, nofun⟩, h.child⟩
    | waitShutdown i is signalled =>
      rw [hpc] at hpending hmain
      simp only [hpc, Option.some.injEq] at ht
      subst ht
      exact ⟨h.slot, hpending, nofun, h.child⟩
    | _ =>
      simp only [hpc] at ht
      contradiction

theorem Live.step (hinv : PooledInv lib header all n s) (hpos : 0 < n) (h : Live lib s) {l : Label}
    (hs : step lib s l = some t) : Live lib t := by
  have hok := (hinv.step hpos hs).aborted
  obtain ⟨C, hC, -⟩ := hinv.place
  cases l with
  | main =>
    have hs' : LzoWriter.mainStep lib s = some t := by
      rwa [LzoWriter.step, if_neg (by rw [hinv.aborted]; decide)] at hs
    exact h.mainStep hinv (mainMove (hinv.threads ▸ hpos) hs' hok)
  | compress i =>
    have hs' : LzoWriter.compressStep lib s i = some t := by
      rwa [LzoWriter.step, if_neg (by rw [hinv.aborted]; decide)] at hs
    exact h.compressStep (compressMove hC hs').2.2
  | wakeMain => exact h.wakeMain hs
  | wakeThread i =>
    rw [LzoWriter.step, if_neg (by rw [hinv.aborted]; decide)] at hs
    split at hs
    · cases hs
      rw [signalInReady_eq]
      exact h.setThread (h.slot i).signal rfl rfl
    · contradiction

theorem write32_ne_nil {buffer out : List Byte} {value : ℕ} (h : write32 buffer value = some out) :
    out ≠ [] := by
  rintro rfl
  unfold write32 writeBuf at h
  split at h
  · have hnil := Option.some.inj h
    simp [htonl] at hnil
  · contradiction

/-- The header of the file is not empty. -/
theorem lzopHeader_ne_nil {mtime : ℕ} (hheader : lzopHeader lib mtime = some header) :
    header ≠ [] := by
  unfold lzopHeader at hheader
  simp only [Option.bind_eq_bind, Option.bind_eq_some_iff] at hheader
  obtain ⟨_, -, _, -, _, -, _, -, _, -, _, -, _, -, _, -, _, -, _, -, _, -, _, -, hlast⟩ := hheader
  exact write32_ne_nil hlast

theorem live_of_reachable {mtime : ℕ} {calls : List (List Byte)} (hn : 0 < n)
    (hheader : lzopHeader lib mtime = some header)
    (hs : Reachable (system lib mtime n calls) s) : Live lib s := by
  have hboth : PooledInv lib header calls.flatten n s ∧ Live lib s := by
    apply hs.invariant (I := fun s => PooledInv lib header calls.flatten n s ∧ Live lib s)
    · obtain ⟨hchild, _⟩ := lzoWopen_header n calls hheader
      refine ⟨pooledInv_of_reachable hn hheader .init, fun j => ⟨nofun, nofun, nofun⟩,
        fun j _ => rfl, trivial, ?_⟩
      show _ ∉ (lzoWopen lib mtime n calls).child
      rw [hchild, written, List.map_nil, List.mem_singleton]
      exact fun heq => lzopHeader_ne_nil hheader (ChildOp.wwrite.inj heq).symm
    · intro s l t h hst
      exact ⟨h.1.step hn hst, h.2.step h.1 hn hst⟩
  exact hboth.2

end Live

end Wandio.LzoWriter
