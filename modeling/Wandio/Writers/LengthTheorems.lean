import Wandio.StdioWriter.LengthTheorems
import Wandio.ThreadWriter.ErrorTheorems
import Wandio.ThreadWriter.ProgressTheorems
import Wandio.ThreadReader.DeliveryTheorems
import Wandio.ThreadReader.ProgressTheorems

/-!
# Lengths of 2 GiB and more

The lengths of the interface are `int64_t`, but `stdio_wwrite`, `thread_wwrite` and
`thread_read` count bytes in an `int`. The first loses the bytes that its `int` does not count;
the other two move all bytes, and return how many they are as far as an `int` can say it.
-/

namespace Wandio.ThreadWriter

open Transition

section Lengths

variable {all : List Call} {s : State}

/-- A running `thread_wwrite` has counted what it has copied, as an `int`. -/
theorem Inv.copied_eq (h : Inv all s) {buffer : List Byte} {tl : List Call}
    (hcalls : s.calls = .wwrite buffer :: tl) (hpc : s.caller ≠ .idle) :
    ∃ gone, buffer = gone ++ s.rest ∧ s.copied = cInt gone.length := by
  have hwrite : ∀ done stored, InWrite s done stored →
      ∃ gone, buffer = gone ++ s.rest ∧ s.copied = cInt gone.length := by
    rintro done stored ⟨pre, tl', hcalls', _, hcopied⟩
    obtain ⟨hbuffer, _⟩ := List.cons.inj (hcalls.symm.trans hcalls')
    exact ⟨pre, Call.wwrite.inj hbuffer, hcopied⟩
  obtain ⟨_, _, ⟨done, _, _, hprog⟩, _⟩ := h
  cases hcaller : s.caller with
  | idle => exact absurd hcaller hpc
  | waitSpace signalled =>
    rw [hcaller] at hprog
    exact hwrite _ _ hprog.2.2.2
  | copying slice =>
    rw [hcaller] at hprog
    exact hwrite _ _ hprog.2.2.2.2.2.2
  | copied slice =>
    rw [hcaller] at hprog
    obtain ⟨_, _, _, _, _, _, before, hw, _⟩ := hprog
    exact hwrite _ _ hw
  | joining =>
    rw [hcaller] at hprog
    rw [hprog.2.1] at hcalls
    contradiction
  | closed =>
    rw [hcaller] at hprog
    rw [hprog.2.1] at hcalls
    contradiction

/-- A slice is a part of a buffer. -/
theorem Inv.slice_le (h : Inv all s) {slice : ℕ}
    (hpc : s.caller = .copying slice ∨ s.caller = .copied slice) : slice ≤ wandioBufferSize := by
  obtain ⟨_, _, ⟨done, _, _, hprog⟩, _⟩ := h
  rcases hpc with hpc | hpc
  · rw [hpc] at hprog
    obtain ⟨_, _, _, _, _, hle, _⟩ := hprog
    omega
  · rw [hpc] at hprog
    obtain ⟨_, _, _, _, _, hle, _⟩ := hprog
    omega

end Lengths

end Wandio.ThreadWriter

namespace Wandio.ThreadReader

open Transition Loop

/-- The parent's stream has at least `n` bytes. -/
def HasData (parent : ℕ → ReadResult) (n : ℕ) : Prop :=
  ∀ k, Ends parent k → n ≤ (bytesUpTo parent k).length

section Lengths

variable {n : ℕ} {parent : ℕ → ReadResult} {lens : List ℕ} {s : State} {head k : ℕ}

theorem length_delivered_le {log : List (ℕ × ReadResult)}
    (h : ∀ e ∈ log, e.2.data.length ≤ e.1) : (delivered log).length ≤ (log.map Prod.fst).sum := by
  induction log with
  | nil => exact le_rfl
  | cons e log ih =>
    have hhead := h e List.mem_cons_self
    have htail := ih fun e' he' => h e' (List.mem_cons_of_mem _ he')
    rw [List.map_cons, List.sum_cons, delivered, List.flatMap_cons, List.length_append]
    exact Nat.add_le_add hhead htail

/-- Where there is enough data a call gets all bytes it has asked for. -/
theorem Answered.of_hasData {before : List Byte} {len : ℕ} {r : ReadResult}
    (h : Answered parent before len r) (hdata : HasData parent (before.length + len)) :
    r.data.length = len ∧ r.ret = cInt len := by
  cases h with
  | full hk hpre hlen =>
    refine ⟨hlen, ?_⟩
    simp only [hlen]
  | @ended m out hend hall hlen =>
    -- the stream would have been too short
    have hroom := hdata m hend
    rw [← hall, List.length_append] at hroom
    omega

theorem Inv.answer (h : Inv n parent lens s head k) (hdata : HasData parent lens.sum)
    {e : ℕ × ReadResult} (he : e ∈ s.log) : e.2.data.length = e.1 ∧ e.2.ret = cInt e.1 := by
  have hle : ∀ e ∈ s.log, e.2.data.length ≤ e.1 := by
    intro e he
    obtain ⟨before, after, hlog⟩ := List.append_of_mem he
    exact (h.log before e after hlog).length_le
  obtain ⟨before, after, hlog⟩ := List.append_of_mem he
  have hbefore : (delivered before).length ≤ (before.map Prod.fst).sum := by
    apply length_delivered_le
    intro e' he'
    apply hle e'
    rw [hlog]
    exact List.mem_append_left _ he'
  have hsum : (before.map Prod.fst).sum + e.1 ≤ lens.sum := by
    rw [h.lens_eq, hlog]
    simp only [List.map_append, List.map_cons, List.sum_append, List.sum_cons]
    omega
  apply (h.log before e after hlog).of_hasData
  intro m hend
  have hroom := hdata m hend
  omega

/-- A running `thread_read` has counted what it has copied, as an `int`. -/
theorem Inv.copied_eq (h : Inv n parent lens s head k) (hopen : s.closing = false)
    (hpc : s.caller ≠ .idle) : s.copied = cInt s.out.length := by
  have hprog := h.progress
  cases hcaller : s.caller with
  | idle => exact absurd hcaller hpc
  | loop =>
    rw [hcaller] at hprog
    exact hprog.2.2.copied_eq
  | waitData signalled =>
    rw [hcaller] at hprog
    exact hprog.2.2.1.copied_eq
  | copying slice =>
    rw [hcaller] at hprog
    exact hprog.2.2.1.copied_eq
  | copied slice =>
    rw [hcaller] at hprog
    exact hprog.2.2.1.copied_eq
  | joining =>
    rw [hcaller] at hprog
    have hclosing : s.closing = true := hprog
    rw [hopen] at hclosing
    contradiction
  | closed =>
    rw [hcaller] at hprog
    have hclosing : s.closing = true := hprog
    rw [hopen] at hclosing
    contradiction

/-- A slice is a part of a read. -/
theorem Inv.slice_le (h : Inv n parent lens s head k) (hparent : WellBehaved parent) {slice : ℕ}
    (hpc : s.caller = .copying slice ∨ s.caller = .copied slice) : slice ≤ wandioBufferSize := by
  have hprog := h.progress
  rcases hpc with hpc | hpc
  · rw [hpc] at hprog
    obtain ⟨_, _, _, _, _, _, hret, hle⟩ := hprog
    have hread := hparent.data_le head hret
    omega
  · rw [hpc] at hprog
    obtain ⟨_, hat, _, hpos, _, hret⟩ := hprog
    have hread := hparent.data_le head hret
    rcases hat.place_le with hzero | ⟨_, _, hle⟩
    · omega
    · omega

end Lengths

end Wandio.ThreadReader

namespace Wandio.Writers

open Transition Loop

/-- When the children take bytes and the reader has enough of them: a `stdio_wwrite` of any
length, after any calls, honours it if and only if an `int` holds the sum of the length and the
bytes in the buffer, and the first `writev` takes the latter. In every state of every run,
`thread_wwrite` and `thread_read` have moved all bytes, and the results and the `copied` of the
call that runs are the number of them if and only if an `int` holds that number. -/
theorem lengths_honoured_iff (kernel : StdioWriter.Kernel) (hkernel : StdioWriter.TakesSome kernel)
    (parent : ℕ → ReadResult) (hparent : ThreadReader.WellBehaved parent) :
    (∀ direct calls, (∀ c ∈ calls, StdioWriter.Call.NonNegative c) → ∀ log s,
      Yields (StdioWriter.run kernel direct calls) (log, s) → ∀ w : WriteCall, 0 ≤ w.len →
        (StdioWriter.Honours kernel w s ↔
          s.offset + w.len < 2 ^ 31 ∧ (StdioWriter.Call.wwrite w).Taken kernel s)) ∧
    (∀ all s, Reachable (ThreadWriter.system all) s →
      (∀ buffer r, (.wwrite buffer, r) ∈ all.zip s.returns →
        (r = buffer.length ↔ buffer.length < 2 ^ 31)) ∧
      (∀ buffer tl, s.calls = .wwrite buffer :: tl → s.caller ≠ .idle →
        ∃ gone, buffer = gone ++ s.rest ∧ (s.copied = gone.length ↔ gone.length < 2 ^ 31)) ∧
      (∀ slice, s.caller = .copying slice ∨ s.caller = .copied slice → cInt slice = slice) ∧
      (s.caller = .closed → s.returns.length = all.length ∧
        ThreadWriter.childBytes s.child = ThreadWriter.callBytes all) ∧
      (s.caller ≠ .closed → (ThreadWriter.step s .caller).isSome = true ∨
        (ThreadWriter.step s .consumer).isSome = true)) ∧
    ∀ n, 0 < n → ∀ lens : List ℕ, ThreadReader.HasData parent lens.sum → ∀ s,
      Reachable (ThreadReader.system n parent lens) s →
      (∀ e ∈ s.log, e.2.data.length = e.1 ∧ (e.2.ret = e.1 ↔ e.1 < 2 ^ 31)) ∧
      (s.closing = false → s.caller ≠ .idle →
        (s.copied = s.out.length ↔ s.out.length < 2 ^ 31)) ∧
      (∀ slice, s.caller = .copying slice ∨ s.caller = .copied slice → cInt slice = slice) ∧
      (∃ k, ThreadReader.Live parent k ∧
        ThreadReader.delivered s.log <+: ThreadReader.bytesUpTo parent k) ∧
      (s.caller ≠ .closed → (ThreadReader.step n parent s .caller).isSome = true ∨
        (ThreadReader.step n parent s .producer).isSome = true) := by
  refine ⟨?_, ?_, ?_⟩
  · intro direct calls hcalls log s hrun w hlen
    have hinv := StdioWriter.inv_run hkernel hcalls hrun
    constructor
    · rintro ⟨t, ht, _⟩
      exact ht.fits hkernel hinv hlen
    · rintro ⟨hfits, htaken⟩
      exact StdioWriter.honours_of_fits hkernel hinv hlen hfits htaken
  · intro all s h
    have hinv := ThreadWriter.inv_reachable h
    refine ⟨?_, ?_, ?_, ?_, ?_⟩
    · intro buffer r he
      rw [hinv.returned he buffer rfl]
      exact cInt_natCast_eq_iff
    · intro buffer tl hcalls hpc
      obtain ⟨gone, hbuffer, hcopied⟩ := hinv.copied_eq hcalls hpc
      rw [hcopied]
      exact ⟨gone, hbuffer, cInt_natCast_eq_iff⟩
    · intro slice hpc
      have hle := hinv.slice_le hpc
      apply cInt_of_lt
      exact hle.trans_lt (by decide)
    · intro hclosed
      obtain ⟨begun, hw⟩ := ThreadWriter.exists_watched h
      exact (ThreadWriter.record_reachable hw).closed hclosed
    · exact ThreadWriter.exists_step hinv (ThreadWriter.noLostWakeup_reachable h)
  · intro n hn lens hdata s h
    obtain ⟨head, k, hinv⟩ := ThreadReader.inv_reachable hn hparent h
    refine ⟨?_, ?_, ?_, hinv.stream, (ThreadReader.awake_reachable hn h).exists_step⟩
    · intro e he
      obtain ⟨hlen, hret⟩ := hinv.answer hdata he
      rw [hret]
      exact ⟨hlen, cInt_natCast_eq_iff⟩
    · intro hopen hpc
      rw [hinv.copied_eq hopen hpc]
      exact cInt_natCast_eq_iff
    · intro slice hpc
      have hle := hinv.slice_le hparent hpc
      apply cInt_of_lt
      exact hle.trans_lt (by decide)

/-! ## A few bytes, and 4 GiB -/

theorem twoReads_hasData : ThreadReader.HasData ThreadReader.twoReads 4 := by
  intro k hk
  have htwo : ThreadReader.Ends ThreadReader.twoReads 2 := by
    refine ⟨fun i hi => ?_, le_rfl⟩
    rcases i with _ | _ | i
    · decide
    · decide
    · omega
  obtain rfl := hk.unique htwo
  decide

/-- The lengths of a few bytes are honoured. -/
theorem lengths_honoured_iff_few :
    StdioWriter.Honours (fun _ n => n) StdioWriter.three (StdioWriter.stdioWopen false) ∧
    (∃ s, Reachable (ThreadWriter.system ThreadWriter.flushedCalls) s ∧
      s.returns = [2, 2, 1] ∧ ThreadWriter.childBytes s.child = [1, 2, 3]) ∧
    ∃ s, Reachable (ThreadReader.system 1 ThreadReader.twoReads [3, 1]) s ∧ s.log.length = 2 ∧
      ∀ e ∈ s.log, e.2.ret = e.1 := by
  have haccepting : StdioWriter.Accepting fun _ n => n := fun _ _ => rfl
  obtain ⟨hstdio, hwriter, hreader⟩ := lengths_honoured_iff _ haccepting.takesSome
    ThreadReader.twoReads ThreadReader.twoReads_wellBehaved
  refine ⟨?_, ?_, ?_⟩
  · apply (hstdio false [] nofun [] _ (.pure _) StdioWriter.three (Int.natCast_nonneg 3)).mpr
    exact ⟨by decide, fun hfull => absurd hfull (by decide)⟩
  · obtain ⟨s, hs, hp⟩ := exists_reachable_of_exec (ThreadWriter.system ThreadWriter.flushedCalls)
      ThreadWriter.lazySchedule (fun s => s.caller = .closed ∧ s.returns = [2, 2, 1]) (by decide)
    obtain ⟨hclosed, hreturns⟩ : s.caller = .closed ∧ s.returns = [2, 2, 1] := by simpa using hp
    obtain ⟨_, _, _, hbytes, _⟩ := hwriter _ s hs
    exact ⟨s, hs, hreturns, (hbytes hclosed).2⟩
  · obtain ⟨s, hs, hp⟩ := exists_reachable_of_exec
      (ThreadReader.system 1 ThreadReader.twoReads [3, 1])
      (List.replicate 2 ThreadReader.Label.caller ++ List.replicate 3 ThreadReader.Label.producer ++
        List.replicate 6 ThreadReader.Label.caller ++
        List.replicate 3 ThreadReader.Label.producer ++
        List.replicate 4 ThreadReader.Label.caller)
      (fun s => s.log.map Prod.fst = [3, 1]) (by decide)
    have hlog : s.log.map Prod.fst = [3, 1] := by simpa using hp
    obtain ⟨hanswers, _⟩ := hreader 1 (by decide) [3, 1] twoReads_hasData s hs
    refine ⟨s, hs, by rw [← List.length_map Prod.fst, hlog]; rfl, fun e he => ?_⟩
    apply (hanswers e he).2.mpr
    have hmem : e.1 ∈ s.log.map Prod.fst := List.mem_map_of_mem he
    rw [hlog] at hmem
    simp only [List.mem_cons, List.not_mem_nil, or_false] at hmem
    omega

/-- 4 GiB. -/
def fourGiB : WriteCall :=
  ⟨List.replicate (2 ^ 32) 0, 2 ^ 32, by rw [List.length_replicate]; exact Int.le_refl _⟩

/-- `stdio_wwrite` of 4 GiB returns 2^32, and writes nothing. -/
theorem four_gib_lost :
    Yields (StdioWriter.stdioWwrite (fun _ n => n) fourGiB (StdioWriter.stdioWopen false))
      (2 ^ 32, StdioWriter.stdioWopen false) ∧
    ¬ StdioWriter.Honours (fun _ n => n) fourGiB (StdioWriter.stdioWopen false) := by
  have hlen : fourGiB.len = 2 ^ 32 := rfl
  have hcInt : cInt fourGiB.len = 0 := by
    rw [hlen]
    decide
  constructor
  · refine ⟨1, fun fuel hfuel => ?_⟩
    obtain ⟨m, rfl⟩ : ∃ m, fuel = m + 1 := ⟨fuel - 1, by omega⟩
    unfold StdioWriter.stdioWwrite
    simp only [hcInt]
    rfl
  · rintro ⟨t, _, hsame, _⟩
    rw [hcInt, hlen] at hsame
    contradiction

end Wandio.Writers
