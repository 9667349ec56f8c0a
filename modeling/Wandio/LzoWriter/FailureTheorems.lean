import Wandio.LzoWriter.ProgressTheorems

/-!
# A block that the compressor rejects

Every section of the program lowers a measure that only spurious wake-ups raise, so the caller's
thread gets to the end of `lzo_wclose` unless it sleeps in front of a slot whose thread is gone.
That happens exactly when a block of the data is rejected: the thread ends without changing the
slot and without telling anybody.
-/

namespace Wandio.LzoWriter

open Transition

/-! ## The measure -/

/-- The sections of its thread that a slot stands for: one if the thread is awake, and four if
the slot waits, since compressing wakes the caller's thread. -/
def slotWork (t : LzoThread) : ℕ :=
  (if t.state = .waiting then 4 else 0) + if t.pc = .start ∨ t.pc = .waitIn true then 1 else 0

/-- The sections of the caller's thread before it takes up its next turn. -/
def MainPc.work : MainPc → ℕ
  | .idle | .joining .. => 3
  | .writing | .shutdown .. => 2
  | .waitOut signalled | .waitShutdown _ _ signalled => signalled.toNat
  | .closed => 0

/-- A bound for the turns that are left: bytes to store, calls to return from and threads to shut
down. -/
def turns (s : State) : MainPc → ℕ
  | .idle => s.calls.flatten.length + s.calls.length + s.threads + 1
  | .writing | .waitOut _ =>
    s.rest.length + s.calls.tail.flatten.length + s.calls.length + s.threads + 1
  | .shutdown _ is | .waitShutdown _ is _ => is.length + 1
  | .joining _ is => is.length
  | .closed => 0

/-- The measure: a turn of the caller's thread can fill a slot and wake its thread. -/
def workLeft (s : State) : ℕ :=
  8 * turns s s.main + s.main.work + ∑ j ∈ Finset.range s.threads, slotWork (s.thread j)

section Measure

variable {lib : Lzo} {header all : List Byte} {n i : ℕ} {s t : State} {v : LzoThread}

theorem slotWork_le (t : LzoThread) : slotWork t ≤ 5 := by
  unfold slotWork
  split <;> split <;> omega

theorem slotWork_signal (t : LzoThread) :
    slotWork { t with pc := t.pc.signal } ≤ slotWork t + 1 := by
  unfold slotWork
  simp only
  split <;> split <;> omega

/-- A thread that is not awake. -/
theorem slotWork_asleep {t : LzoThread} (h : ¬ (t.pc = .start ∨ t.pc = .waitIn true)) :
    slotWork t = if t.state = .waiting then 4 else 0 := by
  rw [slotWork, if_neg h, Nat.add_zero]

theorem sum_slotWork_update (thread : ℕ → LzoThread) (v : LzoThread) (hi : i < n) :
    (∑ j ∈ Finset.range n, slotWork (Function.update thread i v j)) + slotWork (thread i) =
      (∑ j ∈ Finset.range n, slotWork (thread j)) + slotWork v := by
  have hmem : i ∈ Finset.range n := Finset.mem_range.mpr hi
  rw [← Finset.add_sum_erase _ _ hmem, ← Finset.add_sum_erase _ (fun j => slotWork (thread j)) hmem,
    Function.update_self]
  have hrest : ∑ j ∈ (Finset.range n).erase i, slotWork (Function.update thread i v j) =
      ∑ j ∈ (Finset.range n).erase i, slotWork (thread j) := by
    apply Finset.sum_congr rfl
    intro j hj
    rw [Function.update_of_ne (Finset.ne_of_mem_erase hj)]
  rw [hrest]
  omega

theorem sum_slotWork_update_le (n i : ℕ) (thread : ℕ → LzoThread) (v : LzoThread) :
    ∑ j ∈ Finset.range n, slotWork (Function.update thread i v j) ≤
      (∑ j ∈ Finset.range n, slotWork (thread j)) + slotWork v := by
  by_cases hi : i < n
  · have := sum_slotWork_update thread v hi
    omega
  · apply le_of_eq_of_le _ (Nat.le_add_right _ _)
    apply Finset.sum_congr rfl
    intro j hj
    rw [Function.update_of_ne]
    rintro rfl
    exact hi (Finset.mem_range.mp hj)

/-- A section of the caller's thread lowers the measure. -/
theorem MainMove.workLeft_lt (h : MainMove s t) (hlive : MainLive s s.main) :
    workLeft t < workLeft s := by
  unfold workLeft
  cases h with
  | @call buffer calls hmain hcalls =>
    simp only [hmain, hcalls, turns, MainPc.work, List.tail_cons, List.flatten_cons,
      List.length_append]
    omega
  | «return» hmain hrest =>
    rw [hmain] at hlive
    obtain ⟨buffer, calls, hcalls⟩ := List.exists_cons_of_ne_nil hlive
    simp only [hmain, hrest, State.return, hcalls, turns, MainPc.work, List.tail_cons,
      List.length_cons, List.length_nil]
    omega
  | wait hmain hslot =>
    rcases hmain with hmain | hmain <;>
      (simp only [hmain, turns, MainPc.work, Bool.toNat_true, Bool.toNat_false]; omega)
  | @fill v size next child hmain hslot hv hchild hpos hle =>
    have hslots := sum_slotWork_update_le s.threads s.nextThread s.thread v
    have hfive := slotWork_le v
    rcases hmain with hmain | hmain <;>
      (simp only [hmain, turns, MainPc.work, List.length_drop, Bool.toNat_true]; omega)
  | @close v next i is hmain hcalls hv hlen =>
    have hslots := sum_slotWork_update_le s.threads s.nextThread s.thread v
    have hfive := slotWork_le v
    simp only [hmain, turns, MainPc.work]
    omega
  | block hmain hslot =>
    rcases hmain with hmain | hmain <;>
      (simp only [hmain, turns, MainPc.work, Bool.toNat_true, Bool.toNat_false]; omega)
  | @stop i is v child hmain hv hchild =>
    have hslots := sum_slotWork_update_le s.threads i s.thread v
    have hfive := slotWork_le v
    rcases hmain with hmain | hmain <;>
      (simp only [hmain, turns, MainPc.work, Bool.toNat_true]; omega)
  | @join i is hmain hexited =>
    cases is with
    | nil =>
      simp only [hmain, shutdownNext, finish, turns, MainPc.work]
      omega
    | cons j js =>
      simp only [hmain, shutdownNext, turns, MainPc.work, List.length_cons]
      omega

theorem workLeft_setThread (hi : i < s.threads) (v : LzoThread) :
    workLeft (s.setThread i v) + slotWork (s.thread i) = workLeft s + slotWork v := by
  have hslots := sum_slotWork_update s.thread v hi
  have hturns : turns (s.setThread i v) s.main = turns s s.main := by cases s.main <;> rfl
  show 8 * turns (s.setThread i v) s.main + s.main.work +
    (∑ j ∈ Finset.range s.threads, slotWork (Function.update s.thread i v j)) + _ = _
  rw [hturns, workLeft]
  omega

/-- A wake-up of the caller's thread. -/
theorem workLeft_signalOutReady_le (s : State) (i : ℕ) :
    workLeft (s.signalOutReady i) ≤ workLeft s + 1 := by
  unfold State.signalOutReady
  split
  · next b hmain =>
    split
    · simp only [workLeft, hmain, turns, MainPc.work, Bool.toNat_true]
      omega
    · exact Nat.le_succ _
  · next j js b hmain =>
    split
    · simp only [workLeft, hmain, turns, MainPc.work, Bool.toNat_true]
      omega
    · exact Nat.le_succ _
  · exact Nat.le_succ _

theorem slotWork_awake {t : LzoThread} (h : t.pc = .start ∨ t.pc = .waitIn true) :
    slotWork t = (if t.state = .waiting then 4 else 0) + 1 := by
  rw [slotWork, if_pos h]

/-- A thread goes to sleep or ends, and leaves its slot as it is. -/
theorem workLeft_setThread_lt (hi : i < s.threads)
    (hawake : (s.thread i).pc = .start ∨ (s.thread i).pc = .waitIn true)
    (hv : ¬ (v.pc = .start ∨ v.pc = .waitIn true)) (hstate : v.state = (s.thread i).state) :
    workLeft (s.setThread i v) < workLeft s := by
  have hset := workLeft_setThread hi v
  rw [slotWork_awake hawake, slotWork_asleep hv, hstate] at hset
  omega

/-- A section of a compress thread lowers the measure. -/
theorem CompressMove.workLeft_lt (h : CompressMove lib s i t) (hi : i < s.threads)
    (hawake : (s.thread i).pc = .start ∨ (s.thread i).pc = .waitIn true) :
    workLeft t < workLeft s := by
  cases h with
  | exit hclosing => exact workLeft_setThread_lt hi hawake (by simp) rfl
  | @compress outbuf hopen hstate hne =>
    set v : LzoThread :=
      { s.thread i with outbuf := outbuf, state := .full, pc := .waitIn false } with hv
    have hset := workLeft_setThread hi v
    have hsignal := workLeft_signalOutReady_le (s.setThread i v) i
    rw [slotWork_awake hawake, if_pos hstate, slotWork_asleep (by simp [hv]), hv,
      if_neg (by simp), ← hv] at hset
    omega
  | fail hopen hstate hfail => exact workLeft_setThread_lt hi hawake (by simp) rfl
  | sleep hopen hstate => exact workLeft_setThread_lt hi hawake (by simp) rfl

end Measure

/-! ## Getting past every slot -/

/-- A wake-up that nobody has sent. -/
def Label.spurious : Label → Bool
  | .wakeMain | .wakeThread _ => true
  | .main | .compress _ => false

/-- The slot on whose `out_ready` the caller's thread waits. -/
def State.awaited (s : State) : Option ℕ :=
  match s.main with
  | .waitOut _ => some s.nextThread
  | .waitShutdown i _ _ => some i
  | _ => none

/-- The caller's thread waits for a thread that has ended. -/
def Stuck (s : State) : Prop := ∃ i, s.awaited = some i ∧ (s.thread i).pc = .exited

/-- From `s` on the writer gets to the end of `lzo_wclose` in every order of steps: until then
somebody can go on, and beside the spurious wake-ups and what they cause only so many sections
are run. -/
def Closes (S : System State Label) (s : State) : Prop :=
  ∃ bound, ∀ ls t, exec S s ls = some t →
    countSteps S (fun _ l => !l.spurious) s ls ≤
        bound + countSteps S (fun _ l => l.spurious) s ls ∧
      (t.main = .closed ∨ ∃ l u, l.spurious = false ∧ S.next t l = some u)

/-- The compressor accepts every block into which `data` is cut. -/
def Accepted (lib : Lzo) (data : List Byte) : Prop :=
  ∀ bs part, Cut data bs part →
    (∀ b ∈ bs, (lib.compress b).1 = 0) ∧ (part ≠ [] → (lib.compress part).1 = 0)

/-- A pool survives its compressor: nobody is waited for in vain, the writer is closed in the end,
and by then some call has reported a block that was rejected. -/
structure Survives (lib : Lzo) (mtime n : ℕ) (calls : List (List Byte)) (s : State) : Prop where
  awake : ¬ Stuck s
  closes : Closes (system lib mtime n calls) s
  reported : s.main = .closed → ¬ Accepted lib calls.flatten → ∃ r ∈ s.returns, r < 0

section Cuts

variable {all stored more part part' q : List Byte} {bs bs' cs : List (List Byte)}

theorem exists_cut (data : List Byte) : ∃ bs part, Cut data bs part := by
  have hpos : 0 < maxBlockSize := by decide
  induction hlen : data.length using Nat.strong_induction_on generalizing data with
  | _ m ih =>
    by_cases hshort : data.length < maxBlockSize
    · exact ⟨[], data, rfl, List.forall_mem_nil _, hshort⟩
    · have hblock : (data.take maxBlockSize).length = maxBlockSize := by
        rw [List.length_take]
        omega
      obtain ⟨bs, part, hcut⟩ := ih (data.drop maxBlockSize).length
        (by rw [List.length_drop]; omega) (data.drop maxBlockSize) rfl
      refine ⟨data.take maxBlockSize :: bs, part, ?_, ?_, hcut.part_lt⟩
      · rw [List.flatten_cons, List.append_assoc, hcut.data, List.take_append_drop]
      · exact List.forall_mem_cons.mpr ⟨hblock, hcut.full⟩

/-- More data is cut behind what has been stored. -/
theorem Cut.append (h : Cut stored bs part) (hmore : Cut (part ++ more) cs q) :
    Cut (stored ++ more) (bs ++ cs) q := by
  refine ⟨?_, List.forall_mem_append.mpr ⟨h.full, hmore.full⟩, hmore.part_lt⟩
  rw [List.flatten_append, List.append_assoc, hmore.data, ← List.append_assoc, h.data]

/-- Data is cut in one way only. -/
theorem Cut.unique (h : Cut all bs part) (h' : Cut all bs' part') : bs = bs' ∧ part = part' := by
  have hpos : 0 < maxBlockSize := by decide
  have hcount : ∀ {bs part}, Cut all bs part → bs.length = all.length / maxBlockSize := by
    intro bs part hcut
    rw [← hcut.data, List.length_append, length_flatten_of_full hcut.full, Nat.mul_comm,
      Nat.mul_add_div hpos, Nat.div_eq_of_lt hcut.part_lt, Nat.add_zero]
  have hlen : bs.length = bs'.length := (hcount h).trans (hcount h').symm
  have hflat : bs.flatten.length = bs'.flatten.length := by
    rw [length_flatten_of_full h.full, length_flatten_of_full h'.full, hlen]
  obtain ⟨hblocks, hpart⟩ := List.append_inj (h.data.trans h'.data.symm) hflat
  exact ⟨eq_of_flatten_eq h.full h'.full hlen hblocks, hpart⟩

/-- A part of the data has no other blocks. -/
theorem Accepted.of_append {lib : Lzo} (h : Accepted lib (stored ++ more))
    (hcut : Cut stored bs part) :
    ∀ b ∈ bs, (lib.compress b).1 = 0 := by
  obtain ⟨cs, q, hmore⟩ := exists_cut (part ++ more)
  intro b hb
  exact (h _ _ (hcut.append hmore)).1 b (List.mem_append_left _ hb)

end Cuts

section Survive

variable {lib : Lzo} {header all : List Byte} {mtime n i : ℕ} {calls : List (List Byte)}
  {s t : State}

/-- A step lowers the measure, or is a spurious wake-up and adds one section. -/
theorem workLeft_step (hinv : PooledInv lib header all n s) (hpos : 0 < n) (h : Live lib s)
    {l : Label} (hs : step lib s l = some t) :
    (if !l.spurious then 1 else 0) + workLeft t ≤ workLeft s + if l.spurious then 1 else 0 := by
  have hok := (hinv.step hpos hs).aborted
  obtain ⟨C, hC, -⟩ := hinv.place
  unfold step at hs
  rw [if_neg (by rw [hinv.aborted]; decide)] at hs
  cases l with
  | main =>
    have hlt := (mainMove (hinv.threads ▸ hpos) hs hok).workLeft_lt h.main
    simp only [Label.spurious, Bool.not_false, if_true, Bool.false_eq_true, if_false]
    omega
  | compress i =>
    obtain ⟨hi, hawake, hmove⟩ := compressMove hC hs
    have hlt := hmove.workLeft_lt hi hawake
    simp only [Label.spurious, Bool.not_false, if_true, Bool.false_eq_true, if_false]
    omega
  | wakeMain =>
    simp only [Label.spurious, Bool.not_true, if_true, Bool.false_eq_true, if_false]
    simp only at hs
    split at hs
    · next hmain =>
      cases hs
      simp only [workLeft, hmain, turns, MainPc.work, Bool.toNat_true]
      omega
    · next hmain =>
      cases hs
      simp only [workLeft, hmain, turns, MainPc.work, Bool.toNat_true]
      omega
    · contradiction
  | wakeThread i =>
    simp only [Label.spurious, Bool.not_true, if_true, Bool.false_eq_true, if_false]
    simp only at hs
    split at hs
    · next hi =>
      cases hs
      have hset := workLeft_setThread hi (s.thread i).signalInReady
      rw [signalInReady_eq] at hset ⊢
      have hsignal := slotWork_signal (s.thread i)
      omega
    · contradiction

/-- A thread whose slot waits can go on, unless it has ended. -/
theorem compress_enabled (hinv : PooledInv lib header all n s) (h : Live lib s)
    (hi : i < s.threads) (hslot : (s.thread i).state = .waiting ∨ (s.thread i).closing = true)
    (hpc : (s.thread i).pc ≠ .exited) : ∃ u, step lib s (.compress i) = some u := by
  refine ⟨compressLoop lib s i, ?_⟩
  rw [step, if_neg (by rw [hinv.aborted]; decide)]
  show compressStep lib s i = _
  rw [compressStep, if_pos hi]
  cases hthread : (s.thread i).pc with
  | start => rfl
  | waitIn signalled =>
    cases signalled with
    | true => rfl
    | false =>
      obtain ⟨hstate, hclosing⟩ := (h.slot i).asleep hthread
      rcases hslot with hwaiting | hclose
      · exact absurd hwaiting hstate
      · rw [hclosing] at hclose
        cases hclose
  | exited => exact absurd hthread hpc

/-- Somebody can go on until the writer is closed. -/
theorem exists_step (hinv : PooledInv lib header all n s) (h : Live lib s) (hstuck : ¬ Stuck s)
    (hopen : s.main ≠ .closed) : ∃ l u, l.spurious = false ∧ step lib s l = some u := by
  have hmain : ∀ u, mainStep lib s = some u →
      ∃ l u, l.spurious = false ∧ step lib s l = some u := by
    intro u hu
    refine ⟨.main, u, rfl, ?_⟩
    rw [step, if_neg (by rw [hinv.aborted]; decide)]
    exact hu
  have hcompress : ∀ i, i < s.threads →
      (s.thread i).state = .waiting ∨ (s.thread i).closing = true → (s.thread i).pc ≠ .exited →
      ∃ l u, l.spurious = false ∧ step lib s l = some u := by
    intro i hi hslot hpc
    obtain ⟨u, hu⟩ := compress_enabled hinv h hi hslot hpc
    exact ⟨.compress i, u, rfl, hu⟩
  obtain ⟨C, hC, hplace⟩ := hinv.place
  have hwaits := h.main
  cases hpc : s.main with
  | idle =>
    cases hcalls : s.calls with
    | nil => exact hmain (lzoWclose s) (by simp only [mainStep, hpc, hcalls])
    | cons buffer calls =>
      exact hmain { s with rest := buffer, main := .writing } (by simp only [mainStep, hpc, hcalls])
  | writing => exact hmain (wwriteTurn lib s) (by simp only [mainStep, hpc])
  | waitOut signalled =>
    cases signalled with
    | true => exact hmain (wwriteSection s) (by simp only [mainStep, hpc])
    | false =>
      rw [hpc] at hwaits hplace
      obtain ⟨-, bs, part, stored, hfill, -⟩ := hplace
      apply hcompress s.nextThread
      · exact hfill.next ▸ Nat.mod_lt _ hfill.pos
      · exact .inl (hwaits.2 rfl)
      · exact fun hexited => hstuck ⟨_, by rw [State.awaited, hpc], hexited⟩
  | shutdown i is => exact hmain (shutdownThread s i is) (by simp only [mainStep, hpc])
  | waitShutdown i is signalled =>
    cases signalled with
    | true => exact hmain (shutdownSection s i is) (by simp only [mainStep, hpc])
    | false =>
      rw [hpc] at hwaits hplace
      apply hcompress i
      · exact hplace.lt i (List.mem_cons_self ..)
      · exact .inl (hwaits rfl)
      · exact fun hexited => hstuck ⟨_, by rw [State.awaited, hpc], hexited⟩
  | joining i is =>
    rw [hpc] at hwaits
    by_cases hexited : (s.thread i).pc = .exited
    · exact hmain (shutdownNext s is) (by simp only [mainStep, hpc, hexited, if_true])
    · exact hcompress i hwaits.1 (.inr hwaits.2) hexited
  | closed => exact absurd hpc hopen

/-- The block the caller's thread waits for is one of the data, and the compressor rejects it. -/
theorem not_stuck (hinv : PooledInv lib header all n s) (h : Live lib s)
    (hacc : Accepted lib all) : ¬ Stuck s := by
  rintro ⟨i, hi, hexited⟩
  obtain ⟨C, hC, hplace⟩ := hinv.place
  have hpending := h.pending i
  have hfailed : s.main.Pending i →
      (s.thread i).state = .waiting ∧ (lib.compress (s.thread i).inbuf).1 ≠ 0 := by
    intro hp
    rcases (h.slot i).exited hexited with hclosing | hfailed
    · rw [hpending hp] at hclosing
      cases hclosing
    · exact hfailed
  unfold State.awaited at hi
  split at hi
  · next signalled hmain =>
    obtain rfl := Option.some.inj hi
    rw [hmain] at hplace hfailed
    obtain ⟨-, bs, part, stored, hfill, hcut, hall⟩ := hplace
    obtain ⟨hstate, hcode⟩ := hfailed trivial
    have hnext : s.nextThread < s.threads := hfill.next ▸ Nat.mod_lt _ hfill.pos
    obtain ⟨b, hc, -, hin⟩ := (hC _ hnext).of_waiting hstate
    rw [hfill.front] at hc
    obtain ⟨-, hle, rfl⟩ := contentAt_holding hc
    have hpos := hfill.pos
    have hlt : bs.length - s.threads < bs.length := by omega
    apply hcode
    rw [hin, List.getD_eq_getElem?_getD, List.getElem?_eq_getElem hlt]
    rw [← hall] at hacc
    exact hacc.of_append hcut _ (List.getElem_mem hlt)
  · next j is signalled hmain =>
    obtain rfl := Option.some.inj hi
    rw [hmain] at hplace hfailed
    obtain ⟨hstate, hcode⟩ := hfailed (List.mem_cons_self ..)
    obtain ⟨bs, part, done, hcut, -, horder⟩ := hplace.blocks
    obtain ⟨b, hc, -, hin⟩ := (hC _ (hplace.lt _ (List.mem_cons_self ..))).of_waiting hstate
    have hmem : b ∈ closeOrder s.threads bs part := by
      rw [← horder, List.filterMap_cons, hc]
      simp [Content.block]
    obtain ⟨hbs, hpart⟩ := hacc bs part hcut
    rw [hin] at hcode
    rcases mem_closeOrder.mp hmem with hb | ⟨hne, rfl⟩
    · exact hcode (hbs b hb)
    · exact hcode (hpart hne)
  · contradiction

/-- When the writer is closed no block has been rejected. -/
theorem accepted_of_closed (hinv : PooledInv lib header all n s) (h : Live lib s)
    (hclosed : s.main = .closed) : Accepted lib all := by
  obtain ⟨C, -, hplace⟩ := hinv.place
  rw [hclosed] at hplace
  obtain ⟨bs, part, hcut, hchild⟩ := hplace
  have hcode : ∀ b ∈ closeOrder s.threads bs part, (lib.compress b).1 = 0 := by
    intro b hb
    by_contra hfail
    apply h.child
    rw [hchild, ← encoded_failed hfail]
    apply List.mem_append_left
    exact List.mem_cons_of_mem _ (List.mem_map_of_mem hb)
  intro bs' part' hcut'
  obtain ⟨rfl, rfl⟩ := hcut.unique hcut'
  constructor
  · exact fun b hb => hcode b (mem_closeOrder.mpr (.inl hb))
  · exact fun hne => hcode part (mem_closeOrder.mpr (.inr ⟨hne, rfl⟩))

/-- If nobody is waited for in vain a run leads to the end. -/
theorem exists_closed (hn : 0 < n) (hheader : lzopHeader lib mtime = some header)
    (h : ∀ s, Reachable (system lib mtime n calls) s → ¬ Stuck s) :
    ∃ s, Reachable (system lib mtime n calls) s ∧ s.main = .closed := by
  have hfrom : ∀ m s, Reachable (system lib mtime n calls) s → workLeft s = m →
      ∃ t, Reachable (system lib mtime n calls) t ∧ t.main = .closed := by
    intro m
    induction m using Nat.strong_induction_on with
    | _ m ih =>
      intro s hs hm
      by_cases hclosed : s.main = .closed
      · exact ⟨s, hs, hclosed⟩
      · have hinv := pooledInv_of_reachable hn hheader hs
        have hlive := live_of_reachable hn hheader hs
        obtain ⟨l, u, hl, hu⟩ := exists_step hinv hlive (h s hs) hclosed
        have hstep := workLeft_step hinv hn hlive hu
        rw [hl] at hstep
        simp only [Bool.not_false, if_true, Bool.false_eq_true, if_false] at hstep
        exact ih (workLeft u) (by omega) u (hs.next hu) rfl
  exact hfrom _ _ .init rfl

/-- Until the end somebody can go on, and the sections are bounded. -/
theorem closes_of_not_stuck (hn : 0 < n) (hheader : lzopHeader lib mtime = some header)
    (h : ∀ s, Reachable (system lib mtime n calls) s → ¬ Stuck s)
    (hs : Reachable (system lib mtime n calls) s) : Closes (system lib mtime n calls) s := by
  refine ⟨workLeft s, fun ls t ht => ⟨?_, ?_⟩⟩
  · apply countSteps_le_add (I := Reachable (system lib mtime n calls)) _ hs ht
    intro u l v hu huv
    have hinv := pooledInv_of_reachable hn hheader hu
    exact ⟨hu.next huv, workLeft_step hinv hn (live_of_reachable hn hheader hu) huv⟩
  · have hreach := hs.exec ht
    by_cases hclosed : t.main = .closed
    · exact .inl hclosed
    · exact .inr (exists_step (pooledInv_of_reachable hn hheader hreach)
        (live_of_reachable hn hheader hreach) (h t hreach) hclosed)

/-- A pool survives its compressor exactly if no block is rejected. -/
theorem lzoPool_survives_iff (hn : 0 < n) :
    (∀ s, Reachable (system lib mtime n calls) s → Survives lib mtime n calls s) ↔
      Accepted lib calls.flatten := by
  obtain ⟨header, hheader⟩ := lzopHeader_some lib mtime
  constructor
  · intro h
    obtain ⟨s, hs, hclosed⟩ := exists_closed hn hheader fun s hs => (h s hs).awake
    exact accepted_of_closed (pooledInv_of_reachable hn hheader hs)
      (live_of_reachable hn hheader hs) hclosed
  · intro hacc s hs
    have hawake : ∀ s, Reachable (system lib mtime n calls) s → ¬ Stuck s := fun s hs =>
      not_stuck (pooledInv_of_reachable hn hheader hs) (live_of_reachable hn hheader hs) hacc
    exact ⟨hawake s hs, closes_of_not_stuck hn hheader hawake hs, fun _ hrej => absurd hacc hrej⟩

end Survive

/-- One byte and a compressor that accepts everything. -/
theorem lzoPool_survives_iff_literal : Accepted literalLzo [1] ∧
    ∀ s, Reachable (system literalLzo 0 1 [[1]]) s → Survives literalLzo 0 1 [[1]] s := by
  have haccepted : Accepted literalLzo [1] := fun _ _ _ => ⟨fun _ _ => rfl, fun _ => rfl⟩
  exact ⟨haccepted, (lzoPool_survives_iff Nat.one_pos).mpr haccepted⟩

/-- A compressor that is out of memory. -/
def exhaustedLzo : Lzo := { literalLzo with compress := fun _ => (-2, []) }

/-- One byte is written and the writer closed: the only thread ends over its block, and
`shutdown_thread` waits for it. -/
theorem lzoPool_stuck : ∃ s, Reachable (system exhaustedLzo 0 1 [[1]]) s ∧
    ¬ Survives exhaustedLzo 0 1 [[1]] s := by
  obtain ⟨s, hs, hstuck⟩ := exists_reachable_of_exec (system exhaustedLzo 0 1 [[1]])
    [.main, .main, .main, .main, .compress 0, .main]
    (fun s => s.awaited = some 0 ∧ (s.thread 0).pc = .exited) (by decide +kernel)
  exact ⟨s, hs, fun h => h.awake ⟨0, by simpa using hstuck⟩⟩

end Wandio.LzoWriter
