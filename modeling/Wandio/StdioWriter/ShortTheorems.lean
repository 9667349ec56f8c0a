import Wandio.StdioWriter.AccumulateTheorems
import Mathlib.Data.List.Induction

/-!
# Short writes

A kernel need not take all bytes it is offered. `stdio_wwrite` goes on with what has been left
of the caller's bytes, but it asserts that its own buffer has been taken; a flush makes one
`write`, and forgets what that leaves.
-/

namespace Wandio.StdioWriter

open Loop

section Short

variable {kernel : Kernel} {s : State} {v : Writing} {data : List Byte}

/-- A `writev` that takes a part of the writer's own buffer fails an `assert`. -/
theorem wwriteTurn_short (h : Pending v data) (hfull : minWriteSize ≤ v.io.offset + v.towrite)
    {err : ℤ} (herr : kernel v.io.requests.length v.whole.toNat = err) (hpos : 0 < err)
    (hshort : err < v.io.offset) : wwriteTurn kernel v = .done .undefined := by
  have hlt := h.inv.offset_lt
  have hmin := minWriteSize_eq
  have hto := h.towrite_eq
  have hlen := length_iov h hfull
  have hoffered : v.iov.flatten.length = v.whole.toNat := by omega
  have hcInt : cInt err = err := cInt_of_range (by omega) (by omega)
  rw [wwriteTurn_eq h hfull]
  simp only [State.request, Request.bytes, hoffered, herr, hcInt]
  rw [if_neg (by omega)]
  unfold dropTaken
  simp only [min_eq_right hshort.le]
  rw [if_neg (by omega), if_pos (by omega)]

/-- So a write in which the kernel takes less has no result. -/
theorem stdioWwrite_short (hkernel : TakesSome kernel) (h : Inv s) {w : WriteCall}
    (hw : Begins s w) (hshort : ¬ Writing.Taken kernel ⟨s, w.buffer, cInt w.len⟩) (fuel : ℕ) :
    stdioWwrite kernel w s fuel = none := by
  obtain ⟨hstart, hcall⟩ := stdioWwrite_eq kernel h hw
  set v : Writing := ⟨s, w.buffer, cInt w.len⟩ with hv
  obtain ⟨hfull, hless⟩ : minWriteSize ≤ v.io.offset + v.towrite ∧
      kernel v.io.requests.length v.whole.toNat < v.io.offset := by
    have hnot : ¬ (minWriteSize ≤ v.io.offset + v.towrite →
      v.io.offset ≤ kernel v.io.requests.length v.whole.toNat) := hshort
    exact ⟨by omega, by omega⟩
  obtain ⟨hge, _, _, _⟩ := whole_spec hfull
  have hmin := minWriteSize_eq
  have hpos := (hkernel v.io.requests.length v.whole.toNat).2.2 (by omega)
  have hturn := wwriteTurn_short hstart hfull rfl hpos hless
  rw [hcall]
  cases fuel with
  | zero => rfl
  | succ fuel =>
    simp only [loop, hturn]
    rfl

/-- A flush in which the kernel takes less loses bytes. -/
theorem stdioWflush_short (hkernel : TakesSome kernel) (h : Inv s)
    (hfile : (stdioWflush kernel s).2.file = s.bytes) : Call.wflush.Taken kernel s := by
  obtain ⟨_, hflushed, _⟩ := stdioWflush_eq kernel h
  obtain ⟨hnonneg, hmost, _⟩ := hkernel s.requests.length s.offset.toNat
  have hoffset := h.offset_nonneg
  have hown : (s.buffer.take s.offset.toNat).length = s.offset.toNat := by
    rw [List.length_take, Nat.min_eq_left h.offset_le]
  rw [hflushed, State.bytes, List.append_cancel_left_eq] at hfile
  have hlen := congrArg List.length hfile
  rw [List.length_take, hown] at hlen
  show kernel s.requests.length s.offset.toNat = s.offset
  omega

end Short

/-! ## Runs -/

/-- Every write and flush of a run returns, and at each flush and at the close the file holds
all that has been written before. -/
def Complete (kernel : Kernel) (direct : Bool) (calls : List Call) : Prop :=
  (∀ before after, calls = before ++ .wflush :: after → ∃ log s,
    Yields (run kernel direct (before ++ [.wflush])) (log, s) ∧
      s.file = before.flatMap Call.data) ∧
  ∃ log s, Yields (run kernel direct calls) (log, s) ∧
    (stdioWclose kernel s).file = calls.flatMap Call.data

/-- In each call of a run, and in the flush of the close, the kernel takes all bytes that the
writer has been holding back. -/
def AllTaken (kernel : Kernel) (direct : Bool) (calls : List Call) : Prop :=
  ∀ before c after, calls ++ [.wflush] = before ++ c :: after →
    ∀ log s, Yields (run kernel direct before) (log, s) → c.Taken kernel s

section Runs

variable {kernel : Kernel} {direct : Bool} {calls before : List Call} {c : Call} {s : State}
  {log : List (Call × ℤ)}

/-- One more call. -/
theorem run_append (h : Yields (run kernel direct before) (log, s)) {r : ℤ × State}
    (hr : Yields (call kernel c s) r) :
    Yields (run kernel direct (before ++ [c])) (log ++ [(c, r.1)], r.2) := by
  obtain ⟨n, hn⟩ := h
  obtain ⟨m, hm⟩ := hr
  refine ⟨max n m, fun fuel hfuel => ?_⟩
  have hrun := hn fuel ((le_max_left _ _).trans hfuel)
  have hcall := hm fuel ((le_max_right _ _).trans hfuel)
  rw [run] at hrun ⊢
  rw [runCalls_append, hrun, Option.bind_some, runCalls, hcall]
  rfl

/-- The calls of a run return, and all bytes are there behind each of them, when each finds a
kernel that takes what it should. -/
theorem run_of_taken (hkernel : TakesSome kernel) (hcalls : ∀ c ∈ calls, c.InRange)
    (htaken : ∀ before c after, calls = before ++ c :: after →
      ∀ log s, Yields (run kernel direct before) (log, s) → Inv s →
        s.bytes = before.flatMap Call.data → c.Taken kernel s)
    {after : List Call} (hsplit : calls = before ++ after) :
    ∃ log s, Yields (run kernel direct before) (log, s) ∧ Inv s ∧
      s.bytes = before.flatMap Call.data := by
  induction before using List.reverseRecOn generalizing after with
  | nil => exact ⟨[], stdioWopen direct, .pure _, inv_stdioWopen direct, rfl⟩
  | append_singleton before c ih =>
    rw [List.append_assoc, List.singleton_append] at hsplit
    obtain ⟨log, s, hrun, hinv, hbytes⟩ := ih hsplit
    have hc : c.InRange := hcalls c (by rw [hsplit]; simp)
    obtain ⟨r, hr, hinv', hbytes'⟩ := call_spec hkernel hinv hc
      (htaken before c after hsplit log s hrun hinv hbytes)
    refine ⟨_, r.2, run_append hrun hr, hinv', ?_⟩
    rw [hbytes', hbytes, List.flatMap_append, List.flatMap_cons, List.flatMap_nil,
      List.append_nil]

/-- A call without a result leaves the run without one. -/
theorem not_yields_of_none (h : Yields (run kernel direct before) (log, s))
    (hnone : ∀ fuel, call kernel c s fuel = none) (after : List Call)
    {q : List (Call × ℤ) × State} : ¬ Yields (run kernel direct (before ++ c :: after)) q := by
  rintro ⟨m, hm⟩
  obtain ⟨n, hn⟩ := h
  have hrun := hn (max n m) (le_max_left _ _)
  have hall := hm (max n m) (le_max_right _ _)
  rw [run] at hrun hall
  rw [runCalls_append, hrun, Option.bind_some, runCalls, hnone] at hall
  cases hall

/-- In a complete run the kernel takes what it should, call after call. -/
theorem Complete.taken (hkernel : TakesSome kernel) (hcalls : ∀ c ∈ calls, c.InRange)
    (h : Complete kernel direct calls) {after : List Call}
    (hsplit : calls = before ++ c :: after) (hrun : Yields (run kernel direct before) (log, s))
    (hinv : Inv s) (hbytes : s.bytes = before.flatMap Call.data) : c.Taken kernel s := by
  cases c with
  | wwrite w =>
    by_contra hshort
    obtain ⟨_, _, _, hall, _⟩ := h
    rw [hsplit] at hall
    have hw : (Call.wwrite w).InRange := hcalls _ (by rw [hsplit]; simp)
    obtain ⟨hlen, hlt⟩ := hw
    have hoffset := hinv.offset_lt
    obtain ⟨hbegins, hcInt⟩ := Begins.of_fits hinv hlen (by omega)
    have hnone : ∀ fuel, call kernel (.wwrite w) s fuel = none := by
      intro fuel
      apply stdioWwrite_short hkernel hinv hbegins
      rw [hcInt]
      exact hshort
    exact not_yields_of_none hrun hnone after hall
  | wflush =>
    obtain ⟨_, t, hflushed, hfile⟩ := h.1 before after hsplit
    have hsame := hflushed.unique (run_append hrun (.pure (stdioWflush kernel s)))
    rw [(Prod.mk.inj hsame).2] at hfile
    exact stdioWflush_short hkernel hinv (hfile.trans hbytes.symm)

/-- For every kernel that takes at least one byte of what it is offered, and every sequence of
writes and flushes: no `assert` fails, and each flush and the close leave in the file all that
has been written before, if and only if each `writev` takes at least the bytes that were in the
writer's buffer when the call began, and each `write` takes all. -/
theorem short_writes_iff (kernel : Kernel) (hkernel : TakesSome kernel) (direct : Bool)
    (calls : List Call) (hcalls : ∀ c ∈ calls, c.InRange) :
    Complete kernel direct calls ↔ AllTaken kernel direct calls := by
  constructor
  · intro h before c after hsplit log s hrun
    have htaken : ∀ before c after, calls = before ++ c :: after →
        ∀ log s, Yields (run kernel direct before) (log, s) → Inv s →
          s.bytes = before.flatMap Call.data → c.Taken kernel s :=
      fun before c after hsplit log s hrun hinv hbytes =>
        h.taken hkernel hcalls hsplit hrun hinv hbytes
    rcases List.eq_nil_or_concat' after with rfl | ⟨after, last, rfl⟩
    · -- the flush of the close
      obtain ⟨rfl, hlast⟩ := List.append_inj' hsplit rfl
      obtain rfl : Call.wflush = c := List.singleton_inj.mp hlast
      obtain ⟨log', s', hrun', hinv, hbytes⟩ := run_of_taken hkernel hcalls htaken
        (List.append_nil calls).symm
      obtain ⟨_, t, hclosed, hfile⟩ := h.2
      obtain ⟨rfl, rfl⟩ := Prod.mk.inj (hrun.unique hrun')
      obtain ⟨rfl, rfl⟩ := Prod.mk.inj (hrun.unique hclosed)
      exact stdioWflush_short hkernel hinv (hfile.trans hbytes.symm)
    · have hcons : before ++ c :: (after ++ [last]) = (before ++ c :: after) ++ [last] := by simp
      obtain ⟨hsplit, _⟩ := List.append_inj' (hsplit.trans hcons) rfl
      obtain ⟨log', s', hrun', hinv, hbytes⟩ := run_of_taken hkernel hcalls htaken hsplit
      obtain ⟨rfl, rfl⟩ := Prod.mk.inj (hrun.unique hrun')
      exact htaken before c after hsplit log s hrun hinv hbytes
  · intro h
    have htaken : ∀ before c after, calls = before ++ c :: after →
        ∀ log s, Yields (run kernel direct before) (log, s) → Inv s →
          s.bytes = before.flatMap Call.data → c.Taken kernel s :=
      fun before c after hsplit log s hrun _ _ =>
        h before c (after ++ [.wflush]) (by rw [hsplit]; simp) log s hrun
    constructor
    · intro before after hsplit
      obtain ⟨log, s, hrun, hinv, hbytes⟩ := run_of_taken hkernel hcalls htaken hsplit
      obtain ⟨_, hfile, _⟩ := stdioWflush_spec hinv
        (htaken before .wflush after hsplit log s hrun hinv hbytes)
      exact ⟨_, _, run_append hrun (.pure (stdioWflush kernel s)), hfile.trans hbytes⟩
    · obtain ⟨log, s, hrun, hinv, hbytes⟩ := run_of_taken hkernel hcalls htaken
        (List.append_nil calls).symm
      obtain ⟨_, hfile, _⟩ := stdioWflush_spec hinv (h calls .wflush [] rfl log s hrun)
      exact ⟨log, s, hrun, hfile.trans hbytes⟩

end Runs

/-! ## Kernels that take a byte at a time -/

/-- A block. -/
def block : WriteCall := ⟨List.replicate 4096 7, 4096, by rw [List.length_replicate]; rfl⟩

/-- Three bytes. -/
def three : WriteCall := ⟨[1, 2, 3], 3, Int.le_refl 3⟩

/-- One byte of a block, or all of less than a block. -/
def oneOfBlock : Kernel := fun _ n => if n < 4096 then n else 1

theorem oneOfBlock_takesSome : TakesSome oneOfBlock := by
  intro i n
  unfold oneOfBlock
  split <;> omega

/-- A `writev` takes one byte of a block and the `write` of the close takes the others. -/
theorem short_writes_iff_block : Complete oneOfBlock false [.wwrite block] := by
  have hblock : (Call.wwrite block).InRange := ⟨by decide, by decide⟩
  refine (short_writes_iff oneOfBlock oneOfBlock_takesSome false [.wwrite block]
    (by simpa using hblock)).mpr ?_
  intro before c after hsplit log s hrun
  rcases before with _ | ⟨c', _ | ⟨c'', before⟩⟩
  · obtain ⟨rfl, _⟩ := List.cons.inj hsplit
    obtain ⟨rfl, rfl⟩ := Prod.mk.inj (hrun.unique (.pure ([], stdioWopen false)))
    exact fun _ => (oneOfBlock_takesSome _ _).1
  · obtain ⟨rfl, htail⟩ := List.cons.inj hsplit
    obtain ⟨rfl, _⟩ := List.cons.inj htail
    obtain ⟨r, hr, hinv, _⟩ := call_spec oneOfBlock_takesSome (inv_stdioWopen false) hblock
      fun _ => (oneOfBlock_takesSome _ _).1
    have hstart : Yields (run oneOfBlock false []) ([], stdioWopen false) := .pure _
    obtain ⟨rfl, rfl⟩ := Prod.mk.inj (hrun.unique (run_append hstart hr))
    have hoffset := hinv.offset_nonneg
    have hlt := hinv.offset_lt
    have hmin := minWriteSize_eq
    show oneOfBlock _ _ = _
    unfold oneOfBlock
    rw [if_pos (by omega), Int.toNat_of_nonneg hoffset]
  · simp at hsplit

/-- One byte, whatever is offered. -/
def oneByte : Kernel := fun _ n => min n 1

/-- Three bytes are written and the writer is closed: one is in the file. Three bytes are
written and then a block: an `assert` fails. -/
theorem short_write_lost : TakesSome oneByte ∧ ¬ Complete oneByte false [.wwrite three] ∧
    ¬ Complete oneByte false [.wwrite three, .wwrite block] := by
  have htakes : TakesSome oneByte := by
    intro i n
    unfold oneByte
    omega
  set s : State := ⟨[1, 2, 3], 3, false, [], []⟩ with hs
  have hrun : Yields (run oneByte false [.wwrite three]) ([(.wwrite three, 3)], s) := by
    refine ⟨1, fun fuel hfuel => ?_⟩
    obtain ⟨m, rfl⟩ : ∃ m, fuel = m + 1 := ⟨fuel - 1, by omega⟩
    rfl
  refine ⟨htakes, ?_, ?_⟩
  · rintro ⟨_, log, t, hclosed, hfile⟩
    obtain ⟨rfl, rfl⟩ := Prod.mk.inj (hrun.unique hclosed)
    exact absurd hfile (by decide)
  · intro h
    have hcalls : ∀ c ∈ [Call.wwrite three, .wwrite block], c.InRange := by
      simp only [List.forall_mem_cons]
      exact ⟨⟨by decide, by decide⟩, ⟨by decide, by decide⟩, nofun⟩
    have hinv : Inv s := ⟨by decide, by decide, by decide, nofun, nofun⟩
    have hsplit : [.wwrite three, .wwrite block] = [.wwrite three] ++ Call.wwrite block :: [] := rfl
    have htaken := h.taken htakes hcalls hsplit hrun hinv rfl
    exact absurd (htaken (by decide)) (by decide)

end Wandio.StdioWriter
