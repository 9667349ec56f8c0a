import Wandio.ThreadWriter.DeliveryTheorems

/-!
# Failed child writes

`thread_consumer` does not look at what `wandio_wwrite` of the child returns, so a failed
write does not come back to the owner of the writer. To say what a call owes its caller, a
run is watched: of each call the record keeps what had been done to the child when it began.
-/

namespace Wandio.ThreadWriter

open Transition

/-- The results of the child's `wandio_wwrite`, given everything done to the child before. -/
abbrev ChildWrite := List ChildOp → List Byte → ℤ

/-- A write that is made behind `before`, and with which `ops` has been done, fails. -/
def FailsBetween (child : ChildWrite) (before ops : List ChildOp) : Prop :=
  ∃ past payload, before <+: past ∧ past ++ [.wwrite payload] <+: ops ∧ child past payload < 0

/-- A state of the writer, and what had been done to the child when each call of the owner
began, `thread_wclose` among them. -/
structure Watched where
  state : State
  begun : List (List ChildOp)

/-- The writer, watched. -/
def watched (all : List Call) : System Watched Label where
  init := ⟨threadWopen all, []⟩
  next w l := (step w.state l).map fun t =>
    ⟨t, if l = .caller ∧ w.state.caller = .idle then w.begun ++ [w.state.child] else w.begun⟩

/-- The calls that have returned, each with its result and its entry of the record. -/
def Watched.answered (all : List Call) (w : Watched) : List (Call × ℤ × List ChildOp) :=
  all.zip (w.state.returns.zip w.begun)

/-- A call that has something to report. -/
def Call.Asks : Call → Prop
  | .wwrite buffer => buffer ≠ []
  | .wflush => True

/-- A `thread_wwrite` whose length is negative as an `int`. -/
def Call.Wraps (c : Call) : Prop := ∃ buffer, c = .wwrite buffer ∧ cInt buffer.length < 0

/-- Every call that began behind a failed child write has returned a negative value. -/
def Reported (child : ChildWrite) (all : List Call) (w : Watched) : Prop :=
  ∀ e ∈ w.answered all, FailsBetween child [] e.2.2 → e.1.Asks → e.2.1 < 0

/-- All bytes have been in a child write, and none of these has failed. -/
def NothingLost (child : ChildWrite) (all : List Call) (w : Watched) : Prop :=
  childBytes w.state.child = callBytes all ∧ ¬ FailsBetween child [] w.state.child

section Fails

variable {child : ChildWrite} {before ops ops' : List ChildOp}

theorem FailsBetween.mono (h : FailsBetween child before ops) (hops : ops <+: ops') :
    FailsBetween child before ops' := by
  obtain ⟨past, payload, hbefore, hpast, hneg⟩ := h
  exact ⟨past, payload, hbefore, hpast.trans hops, hneg⟩

theorem not_failsBetween_nil : ¬ FailsBetween child [] [] := by
  rintro ⟨past, payload, _, hpast, _⟩
  have hnil := List.prefix_nil.mp hpast
  simp at hnil

/-- A failed write is one of the first ones or one of the others. -/
theorem failsBetween_split (hops : ops <+: ops') :
    FailsBetween child [] ops' ↔ FailsBetween child [] ops ∨ FailsBetween child ops ops' := by
  constructor
  · rintro ⟨past, payload, hnil, hpast, hneg⟩
    rcases List.prefix_or_prefix_of_prefix hpast hops with hle | hle
    · exact .inl ⟨past, payload, hnil, hle, hneg⟩
    · rcases List.prefix_concat_iff.mp hle with rfl | hle
      · exact .inl ⟨past, payload, hnil, List.prefix_rfl, hneg⟩
      · exact .inr ⟨past, payload, hle, hpast, hneg⟩
  · rintro (h | ⟨past, payload, _, hpast, hneg⟩)
    · exact h.mono hops
    · exact ⟨past, payload, List.nil_prefix, hpast, hneg⟩

end Fails

/-! ## The results -/

/-- A section of the caller's thread, seen by its owner: the call goes on, or it returns. -/
inductive OwnerMove (s t : State) : Prop where
  | goes (hcalls : t.calls = s.calls) (hreturns : t.returns = s.returns)
      (hpc : t.caller ≠ .idle)
  | returns (c : Call) (r : ℤ) (hcalls : s.calls = c :: t.calls)
      (hreturns : t.returns = s.returns ++ [r]) (hpc : t.caller = .idle)
      (hflush : c = .wflush → 0 ≤ r)

section Steps

variable {all : List Call} {s t : State}

/-- A `thread_wwrite` goes on or returns. -/
theorem ownerMove_wwriteLoop {buffer : List Byte} {tl : List Call}
    (hcalls : s.calls = .wwrite buffer :: tl) : OwnerMove s (wwriteLoop s) := by
  unfold wwriteLoop
  split
  · unfold wwriteSpace
    split
    · exact .goes rfl rfl (nomatch ·)
    · exact .goes rfl rfl (nomatch ·)
  · refine .returns (.wwrite buffer) s.copied ?_ rfl rfl (nomatch ·)
    rw [hcalls]
    simp [State.return, hcalls]

theorem ownerMove_threadWflush {tl : List Call} (hcalls : s.calls = .wflush :: tl)
    (hoffset : s.offset < wandioBufferSize) : OwnerMove s (threadWflush s) := by
  unfold threadWflush
  split
  · refine .returns .wflush (cInt s.offset) ?_ rfl rfl fun _ => ?_
    · rw [hcalls]
      simp [State.return, State.signalDataReady, State.setOut, State.setSlot, hcalls]
    · rw [cInt_of_lt (hoffset.trans (by decide))]
      exact Int.natCast_nonneg _
  · refine .returns .wflush 0 ?_ rfl rfl fun _ => le_rfl
    rw [hcalls]
    simp [State.return, hcalls]

/-- Every section of the caller's thread, from a state of a run. -/
theorem ownerMove (h : Inv all s) (hs : callerStep s = some t) : OwnerMove s t := by
  obtain ⟨fill, stored, ⟨done, hall, hdone, hprog⟩, hring⟩ := h
  cases callerMove hs with
  | close hpc hcalls => exact .goes rfl rfl (nomatch ·)
  | wwrite hpc hcalls =>
    cases ownerMove_wwriteLoop (s := { s with rest := _, copied := 0 }) hcalls with
    | goes hsame hreturns hgoes => exact .goes hsame hreturns hgoes
    | returns c r hsame hreturns hidle hflush => exact .returns c r hsame hreturns hidle hflush
  | wflush hpc hcalls =>
    rw [hpc] at hprog
    obtain ⟨head, k, hr⟩ := running_of_open hprog.1 hring
    have hlt := hr.offset_lt
    exact ownerMove_threadWflush hcalls (hprog.2.1 ▸ hlt)
  | wake hpc =>
    unfold wwriteSpace
    split
    · exact .goes rfl rfl (nomatch ·)
    · exact .goes rfl rfl (nomatch ·)
  | copy hpc => exact .goes rfl rfl (nomatch ·)
  | @commit slice hpc =>
    rw [hpc] at hprog
    obtain ⟨_, _, _, _, _, _, before, ⟨pre, tl, hcalls, _⟩, _⟩ := hprog
    -- the bookkeeping leaves the calls and their results alone
    have hkept : (wwriteAdvance (wwriteCommit s slice)).calls = s.calls ∧
        (wwriteAdvance (wwriteCommit s slice)).returns = s.returns := by
      unfold wwriteAdvance
      split <;> exact ⟨rfl, rfl⟩
    cases ownerMove_wwriteLoop (hkept.1.trans hcalls) with
    | goes hsame hreturns hgoes =>
      exact .goes (hsame.trans hkept.1) (hreturns.trans hkept.2) hgoes
    | returns c r hsame hreturns hidle hflush =>
      exact .returns c r (hkept.1.symm.trans hsame) (hkept.2 ▸ hreturns) hidle hflush
  | joined hpc hex => exact .goes rfl rfl (nomatch ·)

/-- The caller's thread leaves the child alone. -/
theorem child_callerStep (hs : callerStep s = some t) : t.child = s.child := by
  have hspace : ∀ u : State, (wwriteSpace u).child = u.child := by
    intro u
    unfold wwriteSpace
    split <;> rfl
  have hloop : ∀ u : State, (wwriteLoop u).child = u.child := by
    intro u
    unfold wwriteLoop
    split
    · exact hspace u
    · rfl
  cases callerMove hs with
  | wwrite => exact hloop _
  | wflush =>
    unfold threadWflush
    split <;> rfl
  | wake => exact hspace s
  | commit =>
    rw [hloop]
    unfold wwriteAdvance
    split <;> rfl
  | _ => rfl

/-- The consumer does something more to the child, and leaves the calls alone. -/
theorem consumerStep_frame (hs : consumerStep s = some t) :
    s.child <+: t.child ∧ t.calls = s.calls ∧ t.returns = s.returns ∧
      (t.caller = .idle ↔ s.caller = .idle) := by
  have hloop : ∀ u : State, (consumerLoop u).child = u.child ∧ (consumerLoop u).calls = u.calls ∧
      (consumerLoop u).returns = u.returns ∧ (consumerLoop u).caller = u.caller := by
    intro u
    unfold consumerLoop
    split <;> exact ⟨rfl, rfl, rfl, rfl⟩
  have hsignal : s.caller.signal = .idle ↔ s.caller = .idle := by
    cases s.caller <;> simp [CallerPc.signal]
  cases consumerMove hs with
  | loop =>
    obtain ⟨hchild, hcalls, hreturns, hcaller⟩ := hloop s
    exact ⟨hchild ▸ List.prefix_rfl, hcalls, hreturns, by rw [hcaller]⟩
  | write =>
    refine ⟨?_, rfl, rfl, Iff.rfl⟩
    unfold consumerWrite
    simp only
    split
    · exact List.prefix_append _ _
    · exact List.prefix_rfl
  | flush =>
    refine ⟨?_, rfl, rfl, Iff.rfl⟩
    unfold consumerFlush
    simp only
    split
    · exact List.prefix_append _ _
    · exact List.prefix_rfl
  | relock =>
    unfold consumerRelock
    split
    · obtain ⟨hchild, hcalls, hreturns, hcaller⟩ := hloop (consumerRelease s)
      refine ⟨hchild ▸ List.prefix_rfl, hcalls, hreturns, ?_⟩
      rw [hcaller]
      exact hsignal
    · exact ⟨List.prefix_append _ _, rfl, rfl, hsignal⟩

end Steps

/-! ## Watched runs -/

/-- The invariant of a watched run. -/
structure Record (all : List Call) (w : Watched) : Prop where
  inv : Inv all w.state
  flushes : ∃ done, all = done ++ w.state.calls ∧
    List.Forall₂ (fun c r => c = .wflush → 0 ≤ r) done w.state.returns
  length : w.begun.length = w.state.returns.length + if w.state.caller = .idle then 0 else 1
  past : ∀ past ∈ w.begun, past <+: w.state.child

section Watched

variable {all : List Call} {w : Watched}

theorem record_init (all : List Call) : Record all ⟨threadWopen all, []⟩ where
  inv := inv_init all
  flushes := ⟨[], rfl, .nil⟩
  length := rfl
  past _ hpast := absurd hpast List.not_mem_nil

/-- A section of the caller's thread, recorded. -/
theorem Record.caller {t : State} (h : Record all w) (hs : callerStep w.state = some t) :
    Record all ⟨t, if w.state.caller = .idle then w.begun ++ [w.state.child] else w.begun⟩ := by
  obtain ⟨done, hall, hdone⟩ := h.flushes
  -- the record has an entry for the call that is running
  have hlength : (if w.state.caller = .idle then w.begun ++ [w.state.child] else w.begun).length =
      w.state.returns.length + 1 := by
    have hold := h.length
    split
    · next hidle =>
      rw [if_pos hidle] at hold
      rw [List.length_append, List.length_singleton, hold]
    · next hbusy =>
      rw [if_neg hbusy] at hold
      exact hold
  refine ⟨inv_callerStep h.inv hs, ?_, ?_, ?_⟩
  · cases ownerMove h.inv hs with
    | goes hcalls hreturns hpc =>
      simp only [hcalls, hreturns]
      exact ⟨done, hall, hdone⟩
    | returns c r hcalls hreturns hpc hflush =>
      simp only [hreturns]
      refine ⟨done ++ [c], ?_, List.rel_append hdone (.cons hflush .nil)⟩
      rw [hall, hcalls, List.append_cons]
  · rw [hlength]
    cases ownerMove h.inv hs with
    | goes hcalls hreturns hpc => rw [hreturns, if_neg hpc]
    | returns c r hcalls hreturns hpc hflush =>
      rw [hreturns, if_pos hpc, List.length_append, List.length_singleton]
  · intro past hpast
    simp only at hpast ⊢
    rw [child_callerStep hs]
    split at hpast
    · rcases List.mem_append.mp hpast with hold | hnew
      · exact h.past past hold
      · exact List.mem_singleton.mp hnew ▸ List.prefix_rfl
    · exact h.past past hpast

/-- A step that leaves the calls alone is not recorded. -/
theorem Record.frame {t : State} (h : Record all w) (hinv : Inv all t)
    (hchild : w.state.child <+: t.child) (hcalls : t.calls = w.state.calls)
    (hreturns : t.returns = w.state.returns) (hpc : t.caller = .idle ↔ w.state.caller = .idle) :
    Record all ⟨t, w.begun⟩ where
  inv := hinv
  flushes := by
    simp only [hcalls, hreturns]
    exact h.flushes
  length := by
    simp only [hreturns, hpc]
    exact h.length
  past past hpast := (h.past past hpast).trans hchild

theorem record_step (w : Watched) (l : Label) (v : Watched) (h : Record all w)
    (hs : (watched all).next w l = some v) : Record all v := by
  obtain ⟨t, ht, rfl⟩ := Option.map_eq_some_iff.mp hs
  have hinv := inv_step _ _ _ h.inv ht
  cases l with
  | caller => simpa using h.caller ht
  | consumer =>
    obtain ⟨hchild, hcalls, hreturns, hpc⟩ := consumerStep_frame ht
    exact h.frame hinv hchild hcalls hreturns hpc
  | wakeCaller =>
    obtain ⟨hpc, rfl⟩ := wakeCaller_eq ht
    exact h.frame hinv List.prefix_rfl rfl rfl (by simp [hpc])
  | wakeConsumer =>
    obtain ⟨hpc, rfl⟩ := wakeConsumer_eq ht
    exact h.frame hinv List.prefix_rfl rfl rfl Iff.rfl

theorem record_reachable (h : Reachable (watched all) w) : Record all w :=
  h.invariant (record_init all) record_step

/-- Every run can be watched. -/
theorem exists_watched {s : State} (h : Reachable (system all) s) :
    ∃ begun, Reachable (watched all) ⟨s, begun⟩ := by
  induction h with
  | init => exact ⟨[], .init⟩
  | @next s t l hs hnext ih =>
    obtain ⟨begun, hw⟩ := ih
    have hstep : step s l = some t := hnext
    have hnext' : (watched all).next ⟨s, begun⟩ l = some ⟨t, if l = .caller ∧ s.caller = .idle
        then begun ++ [s.child] else begun⟩ := by
      simp only [watched, hstep, Option.map_some]
    exact ⟨_, hw.next hnext'⟩

/-! ## What is reported -/

/-- What the calls that have returned have returned. -/
theorem Record.answer (h : Record all w) {e : Call × ℤ × List ChildOp}
    (he : e ∈ w.answered all) : Returned e.1 e.2.1 ∧ (e.1 = .wflush → 0 ≤ e.2.1) := by
  have hmem : (e.1, e.2.1) ∈ all.zip w.state.returns := by
    obtain ⟨i, hi, rfl⟩ := List.mem_iff_getElem.mp he
    simp only [Watched.answered, List.length_zip] at hi
    have hi' : i < (all.zip w.state.returns).length := by
      rw [List.length_zip]
      omega
    refine List.mem_iff_getElem.mpr ⟨i, hi', ?_⟩
    simp only [Watched.answered, List.getElem_zip]
  obtain ⟨done, hall, hflushes⟩ := h.flushes
  refine ⟨h.inv.returned hmem, ?_⟩
  rw [hall] at hmem
  exact forall₂_of_mem_zip hflushes hmem

/-- A call returns a negative value if and only if its length is one as an `int`. -/
theorem Record.neg_iff (h : Record all w) {e : Call × ℤ × List ChildOp}
    (he : e ∈ w.answered all) : e.2.1 < 0 ↔ e.1.Wraps := by
  obtain ⟨hreturned, hflush⟩ := h.answer he
  constructor
  · intro hneg
    cases hcall : e.1 with
    | wwrite buffer => exact ⟨buffer, rfl, hreturned buffer hcall ▸ hneg⟩
    | wflush =>
      have := hflush hcall
      omega
  · rintro ⟨buffer, hcall, hneg⟩
    rw [hreturned buffer hcall]
    exact hneg

/-- The state behind `thread_wclose`: all calls have returned, and all bytes have been in a
child write. -/
theorem Record.closed (h : Record all w) (hclosed : w.state.caller = .closed) :
    w.state.returns.length = all.length ∧ childBytes w.state.child = callBytes all := by
  obtain ⟨fill, stored, ⟨done, hall, hdone, hprog⟩, hring⟩ := h.inv
  rw [hclosed] at hprog
  obtain ⟨hcl, hcalls, hstored, hex⟩ := hprog
  rw [hcalls, List.append_nil] at hall
  subst hall
  refine ⟨hdone.length_eq.symm, ?_⟩
  rcases hring with ⟨head, k, hr⟩ | hd | he
  · exact absurd hex hr.alive
  · have hbusy := hd.busy
    rw [hex] at hbusy
    contradiction
  · obtain ⟨ops, hchild, _, hbytes⟩ := he.child
    rw [hchild, childBytes_append, hbytes, hstored]
    simp [childBytes, ChildOp.payload]

/-- Behind `thread_wclose` a call has returned a negative value if and only if the length of
one is negative as an `int`. -/
theorem Record.succeeded_iff (h : Record all w) (hclosed : w.state.caller = .closed) :
    (∀ r ∈ w.state.returns, 0 ≤ r) ↔ ∀ c ∈ all, ¬ c.Wraps := by
  have hlen := (h.closed hclosed).1
  have hbegun := h.length
  rw [if_neg (by rw [hclosed]; exact nofun)] at hbegun
  have hentry : ∀ i (hi : i < all.length) (hr : i < w.state.returns.length)
      (hb : i < w.begun.length), (all[i], w.state.returns[i], w.begun[i]) ∈ w.answered all := by
    intro i hi hr hb
    have hzip : i < (w.answered all).length := by
      simp only [Watched.answered, List.length_zip]
      omega
    refine List.mem_iff_getElem.mpr ⟨i, hzip, ?_⟩
    simp only [Watched.answered, List.getElem_zip]
  constructor
  · intro hpos c hc hwraps
    obtain ⟨i, hi, rfl⟩ := List.mem_iff_getElem.mp hc
    have hi' : i < w.state.returns.length := by omega
    have hneg : w.state.returns[i] < 0 :=
      (h.neg_iff (hentry i hi hi' (by omega))).mpr hwraps
    exact absurd (hpos _ (List.getElem_mem hi')) (not_le.mpr hneg)
  · intro hno r hr
    obtain ⟨i, hi, rfl⟩ := List.mem_iff_getElem.mp hr
    have hi' : i < all.length := by omega
    by_contra hneg
    have hwraps := (h.neg_iff (hentry i hi' hi (by omega))).mp (not_le.mp hneg)
    exact hno _ (List.getElem_mem hi') hwraps

/-- In every run, with every child: each call that began behind a failed child write has
returned a negative value if and only if all those that had something to report have a length
that is negative as an `int`; and when `thread_wclose` returns, nothing is lost in a run without
a failed call or a failed write since `thread_wclose` began, if and only if some length is
negative as an `int`, or no write had failed by then, or one has since. -/
theorem child_failure_reported_iff (child : ChildWrite) (all : List Call) (w : Watched)
    (h : Reachable (watched all) w) :
    (Reported child all w ↔
      ∀ e ∈ w.answered all, FailsBetween child [] e.2.2 → e.1.Asks → e.1.Wraps) ∧
    (w.state.caller = .closed → ∃ atClose, w.begun[all.length]? = some atClose ∧
      (((∀ r ∈ w.state.returns, 0 ≤ r) → ¬ FailsBetween child atClose w.state.child →
          NothingLost child all w) ↔
        ((∀ c ∈ all, ¬ c.Wraps) → FailsBetween child [] atClose →
          FailsBetween child atClose w.state.child))) := by
  have hrecord := record_reachable h
  constructor
  · constructor
    · exact fun hall e he hfails hasks => (hrecord.neg_iff he).mp (hall e he hfails hasks)
    · exact fun hall e he hfails hasks => (hrecord.neg_iff he).mpr (hall e he hfails hasks)
  · intro hclosed
    obtain ⟨hlen, hbytes⟩ := hrecord.closed hclosed
    have hbegun := hrecord.length
    rw [if_neg (by rw [hclosed]; exact nofun), hlen] at hbegun
    obtain ⟨atClose, hmem⟩ : ∃ atClose, w.begun[all.length]? = some atClose :=
      ⟨_, List.getElem?_eq_getElem (by omega)⟩
    have hpast : atClose <+: w.state.child := hrecord.past atClose (List.mem_of_getElem? hmem)
    refine ⟨atClose, hmem, ?_⟩
    rw [hrecord.succeeded_iff hclosed, NothingLost, failsBetween_split hpast]
    constructor
    · intro hlost hno hfails
      by_contra hnone
      exact (hlost hno hnone).2 (.inl hfails)
    · intro hfails hno hnone
      refine ⟨hbytes, ?_⟩
      rintro (hbefore | hbehind)
      · exact hnone (hfails hno hbefore)
      · exact hnone hbehind

end Watched

/-! ## Runs with a failing child -/

/-- A child on a full disk. -/
def fullDisk : ChildWrite := fun _ _ => -1

/-- The child fails only when the writer is closing. -/
theorem child_failure_reported_iff_closing : ∃ w, Reachable (watched flushedCalls) w ∧
    w.state.caller = .closed ∧ Reported fullDisk flushedCalls w := by
  obtain ⟨w, hw, hp⟩ := exists_reachable_of_exec (watched flushedCalls) lazySchedule
    (fun w => w.state.caller = .closed ∧ w.begun = [[], [], [], []]) (by decide)
  obtain ⟨hclosed, hbegun⟩ : w.state.caller = .closed ∧ w.begun = [[], [], [], []] := by
    simpa using hp
  refine ⟨w, hw, hclosed, (child_failure_reported_iff fullDisk flushedCalls w hw).1.mpr ?_⟩
  intro e he hfails
  obtain ⟨-, hpast⟩ := List.of_mem_zip (List.of_mem_zip he).2
  have hnil : e.2.2 = [] := by simpa [hbegun] using hpast
  rw [hnil] at hfails
  exact absurd hfails not_failsBetween_nil

/-- A byte is written and flushed, the child's write of it fails, and then the next byte is
written: the call returns 1. -/
theorem child_failure_swallowed :
    ∃ w, Reachable (watched flushedCalls) w ∧ ¬ Reported fullDisk flushedCalls w := by
  obtain ⟨w, hw, hp⟩ := exists_reachable_of_exec (watched flushedCalls)
    (List.replicate 4 .caller ++ List.replicate 2 .consumer ++ List.replicate 3 .caller)
    (fun w => w.state.returns = [2, 2, 1] ∧ w.begun = [[], [], [.wwrite [1, 2]]]) (by decide)
  obtain ⟨hreturns, hbegun⟩ : w.state.returns = [2, 2, 1] ∧
      w.begun = [[], [], [.wwrite [1, 2]]] := by
    simpa using hp
  refine ⟨w, hw, fun h => ?_⟩
  have hentry : (.wwrite [3], 1, [.wwrite [1, 2]]) ∈ w.answered flushedCalls := by
    simp [Watched.answered, flushedCalls, hreturns, hbegun]
  have hneg := h _ hentry ⟨[], [1, 2], List.prefix_rfl, List.prefix_rfl, by decide⟩
    (List.cons_ne_nil _ _)
  exact absurd hneg (by decide)

end Wandio.ThreadWriter
