import Wandio.LzoWriter.CloseTheorems

/-!
# The order of the file

What holds of the writer at each place of the caller's thread, and from it what the child has
when `lzo_wclose` has returned: without threads the blocks in their order, with a pool the
blocks in the order of `closeOrder`.
-/

namespace Wandio.LzoWriter

open Transition Codec

/-- The end of the file and the end of the child. -/
def trailer : List ChildOp := [.wwrite [0, 0, 0, 0], .wdestroy]

/-! ## Without threads -/

/-- What the child has at each place of the caller's thread when there is no pool. -/
def Unthreaded (lib : Lzo) (header all : List Byte) (s : State) : MainPc → Prop
  | .idle => ∃ bs, (∀ b ∈ bs, IsBlock b) ∧ s.child = written lib header bs ∧
      bs.flatten ++ s.calls.flatten = all
  | .writing => ∃ bs, (∀ b ∈ bs, IsBlock b) ∧ s.child = written lib header bs ∧
      bs.flatten ++ (s.rest ++ s.calls.tail.flatten) = all
  | .closed => ∃ bs, (∀ b ∈ bs, IsBlock b) ∧ s.child = written lib header bs ++ trailer ∧
      bs.flatten = all
  | _ => False

/-- The invariant of a writer without a pool. -/
structure UnthreadedInv (lib : Lzo) (header all : List Byte) (s : State) : Prop where
  aborted : s.aborted = false
  threads : s.threads = 0
  place : Unthreaded lib header all s s.main

section Unthreaded

variable {lib : Lzo} {header all : List Byte} {s t : State}

/-- A turn writes one block. -/
theorem wwriteUnthreaded_eq (hlib : lib.Succeeds) (hrest : 0 < s.rest.length) :
    IsBlock (s.rest.take maxBlockSize) ∧
      wwriteUnthreaded lib s =
        { s.wwrite (encoded lib (s.rest.take maxBlockSize)) with
          rest := s.rest.drop maxBlockSize } := by
  have hpos : 0 < maxBlockSize := by decide
  have hlen : (s.rest.take maxBlockSize).length = min s.rest.length maxBlockSize := by
    rw [List.length_take, Nat.min_comm]
  have hblock : IsBlock (s.rest.take maxBlockSize) := ⟨by omega, by omega⟩
  have htake : s.rest.take (min s.rest.length maxBlockSize) = s.rest.take maxBlockSize := by
    rw [← List.take_take, List.take_of_length_le (List.length_take_le' _ _)]
  have hdrop : s.rest.drop (min s.rest.length maxBlockSize) = s.rest.drop maxBlockSize := by
    rcases Nat.le_total s.rest.length maxBlockSize with h | h
    · rw [Nat.min_eq_left h, List.drop_length, List.drop_of_length_le h]
    · rw [Nat.min_eq_right h]
  refine ⟨hblock, ?_⟩
  unfold wwriteUnthreaded
  simp only
  rw [htake, lzoWwriteBlock_eq (hlib _) hblock, ← encoded_eq (hlib _) hblock]
  simp only
  rw [if_neg (by omega), if_pos (by rw [hlen]), hdrop]

theorem UnthreadedInv.main (hlib : lib.Succeeds) (h : UnthreadedInv lib header all s)
    (hs : mainStep lib s = some t) : UnthreadedInv lib header all t := by
  have hplace := h.place
  unfold mainStep at hs
  cases hmain : s.main with
  | idle =>
    rw [hmain] at hs hplace
    obtain ⟨bs, hbs, hchild, hall⟩ := hplace
    cases hcalls : s.calls with
    | nil =>
      -- `lzo_wclose`
      rw [hcalls] at hs hall
      simp only [lzoWclose, h.threads, if_true, Option.some.injEq] at hs
      subst hs
      refine ⟨h.aborted, h.threads, bs, hbs, ?_, by simpa using hall⟩
      show s.child ++ _ = _
      rw [hchild]
      rfl
    | cons buffer calls =>
      rw [hcalls] at hs hall
      simp only [Option.some.injEq] at hs
      subst hs
      exact ⟨h.aborted, h.threads, bs, hbs, hchild, hall⟩
  | writing =>
    rw [hmain] at hs hplace
    obtain ⟨bs, hbs, hchild, hall⟩ := hplace
    simp only [Option.some.injEq, wwriteTurn, h.threads, if_true] at hs
    split at hs
    · next hrest =>
      obtain ⟨hblock, hturn⟩ := wwriteUnthreaded_eq hlib hrest
      rw [hturn] at hs
      subst hs
      refine ⟨h.aborted, h.threads, ?_⟩
      show Unthreaded lib header all _ s.main
      rw [hmain]
      refine ⟨bs ++ [s.rest.take maxBlockSize], ?_, ?_, ?_⟩
      · intro b hb
        rcases List.mem_append.mp hb with hb | hb
        · exact hbs b hb
        · rw [List.mem_singleton.mp hb]
          exact hblock
      · show s.child ++ _ = _
        rw [hchild, written_append]
        rfl
      · show (bs ++ [_]).flatten ++ (s.rest.drop maxBlockSize ++ s.calls.tail.flatten) = all
        rw [← hall, List.flatten_append, List.append_assoc, ← List.append_assoc _ (s.rest.drop _)]
        simp
    · next hrest =>
      subst hs
      have hnil : s.rest = [] := List.eq_nil_of_length_eq_zero (by omega)
      rw [hnil] at hall
      exact ⟨h.aborted, h.threads, bs, hbs, hchild, hall⟩
  | waitOut signalled =>
    rw [hmain] at hplace
    exact hplace.elim
  | shutdown i is =>
    rw [hmain] at hplace
    exact hplace.elim
  | waitShutdown i is signalled =>
    rw [hmain] at hplace
    exact hplace.elim
  | joining i is =>
    rw [hmain] at hplace
    exact hplace.elim
  | closed =>
    rw [hmain] at hs
    contradiction

theorem UnthreadedInv.step (hlib : lib.Succeeds) (h : UnthreadedInv lib header all s) {l : Label}
    (hs : step lib s l = some t) : UnthreadedInv lib header all t := by
  have hplace := h.place
  unfold LzoWriter.step at hs
  rw [if_neg (by rw [h.aborted]; decide)] at hs
  cases l with
  | main => exact h.main hlib hs
  | compress i =>
    simp only [compressStep, h.threads, Nat.not_lt_zero, if_false] at hs
    contradiction
  | wakeMain =>
    cases hmain : s.main with
    | waitOut signalled =>
      rw [hmain] at hplace
      exact hplace.elim
    | waitShutdown i is signalled =>
      rw [hmain] at hplace
      exact hplace.elim
    | _ =>
      simp only [hmain] at hs
      contradiction
  | wakeThread i =>
    simp only [h.threads, Nat.not_lt_zero, if_false] at hs
    contradiction

end Unthreaded

/-! ## With a pool -/

/-- What holds of a pool with the contents `C` at each place of the caller's thread. -/
def Pooled (lib : Lzo) (header all : List Byte) (s : State) (C : ℕ → Content) : MainPc → Prop
  | .idle => ∃ bs part stored, Filling lib header s C bs part ∧ Cut stored bs part ∧
      stored ++ s.calls.flatten = all
  | .writing => ∃ bs part stored, Filling lib header s C bs part ∧ Cut stored bs part ∧
      stored ++ (s.rest ++ s.calls.tail.flatten) = all
  | .waitOut _ => s.rest ≠ [] ∧ ∃ bs part stored, Filling lib header s C bs part ∧
      Cut stored bs part ∧ stored ++ (s.rest ++ s.calls.tail.flatten) = all
  | .shutdown i is => Draining lib header all s C (i :: is)
  | .waitShutdown i is _ => Draining lib header all s C (i :: is)
  | .joining _ is => Draining lib header all s C is
  | .closed => ∃ bs part, Cut all bs part ∧
      s.child = written lib header (closeOrder s.threads bs part) ++ trailer

/-- The invariant of a writer with a pool. -/
structure PooledInv (lib : Lzo) (header all : List Byte) (n : ℕ) (s : State) : Prop where
  aborted : s.aborted = false
  threads : s.threads = n
  place : ∃ C, Contains lib s C ∧ Pooled lib header all s C s.main

section Pooled

variable {lib : Lzo} {header all part stored : List Byte} {bs : List (List Byte)} {n : ℕ}
  {s t : State} {C : ℕ → Content} {is : List ℕ}

theorem Filling.congr (h : Filling lib header s C bs part) (hthreads : t.threads = s.threads)
    (hnext : t.nextThread = s.nextThread) (hchild : t.child = s.child) :
    Filling lib header t C bs part := by
  obtain ⟨hpos, hslot, hfront, hbehind, hwritten⟩ := h
  rw [← hthreads] at hpos hslot hfront hbehind hwritten
  rw [← hnext] at hslot hfront
  exact ⟨hpos, hslot, hfront, hbehind, hchild.trans hwritten⟩

theorem Draining.congr (h : Draining lib header all s C is) (hthreads : t.threads = s.threads)
    (hchild : t.child = s.child) : Draining lib header all t C is := by
  obtain ⟨hblocks, hnodup, hlt, hcollected⟩ := h
  rw [← hthreads] at hblocks hlt hcollected
  rw [← hchild] at hblocks
  exact ⟨hblocks, hnodup, hlt, hcollected⟩

/-- A step that only changes the threads keeps the place. -/
theorem Pooled.quiet {pc : MainPc} (h : Pooled lib header all s C pc) (hq : Quiet s t) :
    Pooled lib header all t C pc := by
  cases pc with
  | idle =>
    obtain ⟨bs, part, stored, hfill, hcut, hall⟩ := h
    exact ⟨bs, part, stored, hfill.congr hq.threads hq.nextThread hq.child, hcut, by rwa [hq.calls]⟩
  | writing =>
    obtain ⟨bs, part, stored, hfill, hcut, hall⟩ := h
    exact ⟨bs, part, stored, hfill.congr hq.threads hq.nextThread hq.child, hcut,
      by rwa [hq.calls, hq.rest]⟩
  | waitOut signalled =>
    obtain ⟨hrest, bs, part, stored, hfill, hcut, hall⟩ := h
    exact ⟨by rwa [hq.rest], bs, part, stored, hfill.congr hq.threads hq.nextThread hq.child, hcut,
      by rwa [hq.calls, hq.rest]⟩
  | shutdown i is => exact Draining.congr h hq.threads hq.child
  | waitShutdown i is signalled => exact Draining.congr h hq.threads hq.child
  | joining i is => exact Draining.congr h hq.threads hq.child
  | closed =>
    obtain ⟨bs, part, hcut, hchild⟩ := h
    exact ⟨bs, part, hcut, by rw [hq.child, hq.threads, hchild]⟩

theorem Pooled.wake {pc : MainPc} (h : Pooled lib header all s C pc) :
    Pooled lib header all s C pc.wake := by
  cases pc <;> exact h

theorem PooledInv.quiet (h : PooledInv lib header all n s)
    (ht : ∀ C, Contains lib s C → Quiet s t ∧ Contains lib t C) :
    PooledInv lib header all n t := by
  obtain ⟨C, hC, hplace⟩ := h.place
  obtain ⟨hq, hC'⟩ := ht C hC
  refine ⟨hq.aborted.trans h.aborted, hq.threads.trans h.threads, C, hC', ?_⟩
  have hplace := hplace.quiet hq
  rcases hq.main with hmain | hmain
  · rwa [hmain]
  · rw [hmain]
    exact hplace.wake

/-- A section of `lzo_wwrite`. -/
theorem PooledInv.wwriteSection (h : PooledInv lib header all n s)
    (hC : Contains lib s C) (hfill : Filling lib header s C bs part) (hcut : Cut stored bs part)
    (hall : stored ++ (s.rest ++ s.calls.tail.flatten) = all) (hrest : s.rest ≠ []) :
    PooledInv lib header all n (wwriteSection s) := by
  rcases wwriteSection_taken hC hfill hcut hrest with hwait | htaken
  · rw [hwait]
    exact ⟨h.aborted, h.threads, C, hC, hrest, bs, part, stored, hfill.congr rfl rfl rfl, hcut,
      hall⟩
  · obtain ⟨C', bs', part', stored', hC', hfill', hcut', hdata⟩ := htaken.pool
    refine ⟨htaken.aborted.trans h.aborted, htaken.threads.trans h.threads, C', hC', ?_⟩
    rw [htaken.main]
    refine ⟨bs', part', stored', hfill', hcut', ?_⟩
    rw [htaken.calls, ← List.append_assoc, hdata, List.append_assoc]
    exact hall

/-- A section of `shutdown_thread`. -/
theorem PooledInv.shutdownSection {i : ℕ} (h : PooledInv lib header all n s)
    (hC : Contains lib s C) (hdrain : Draining lib header all s C (i :: is)) :
    PooledInv lib header all n (shutdownSection s i is) := by
  rcases shutdownSection_draining hC hdrain with hwait | hdone
  · rw [hwait]
    exact ⟨h.aborted, h.threads, C, hC, hdrain.congr rfl rfl⟩
  · obtain ⟨C', hmain, hthreads, haborted, hC', hdrain'⟩ := hdone
    refine ⟨haborted.trans h.aborted, hthreads.trans h.threads, C', hC', ?_⟩
    rw [hmain]
    exact hdrain'

theorem PooledInv.main (hn : 0 < n) (h : PooledInv lib header all n s)
    (hs : mainStep lib s = some t) : PooledInv lib header all n t := by
  obtain ⟨C, hC, hplace⟩ := h.place
  have hthreads := h.threads
  unfold mainStep at hs
  cases hmain : s.main with
  | idle =>
    rw [hmain] at hs hplace
    obtain ⟨bs, part, stored, hfill, hcut, hall⟩ := hplace
    cases hcalls : s.calls with
    | nil =>
      rw [hcalls] at hs hall
      simp only [Option.some.injEq] at hs
      rw [List.flatten_nil, List.append_nil] at hall
      rw [hall] at hcut
      obtain ⟨i, is, C', hm, hth, hab, hC', hdrain⟩ := lzoWclose_draining hC hfill hcut
      rw [hs] at hm hth hab hC' hdrain
      refine ⟨hab.trans h.aborted, hth.trans hthreads, C', hC', ?_⟩
      rw [hm]
      exact hdrain
    | cons buffer calls =>
      rw [hcalls] at hs hall
      simp only [Option.some.injEq] at hs
      subst hs
      exact ⟨h.aborted, hthreads, C, hC, bs, part, stored, hfill.congr rfl rfl rfl, hcut, hall⟩
  | writing =>
    rw [hmain] at hs hplace
    obtain ⟨bs, part, stored, hfill, hcut, hall⟩ := hplace
    simp only [Option.some.injEq, wwriteTurn] at hs
    split at hs
    · next hrest =>
      rw [if_neg (by omega)] at hs
      subst hs
      exact h.wwriteSection hC hfill hcut hall (List.ne_nil_of_length_pos hrest)
    · next hrest =>
      subst hs
      have hnil : s.rest = [] := List.eq_nil_of_length_eq_zero (by omega)
      rw [hnil] at hall
      exact ⟨h.aborted, hthreads, C, hC, bs, part, stored, hfill.congr rfl rfl rfl, hcut, hall⟩
  | waitOut signalled =>
    rw [hmain] at hs hplace
    obtain ⟨hrest, bs, part, stored, hfill, hcut, hall⟩ := hplace
    cases signalled with
    | false => contradiction
    | true =>
      simp only [Option.some.injEq] at hs
      subst hs
      exact h.wwriteSection hC hfill hcut hall hrest
  | shutdown i is =>
    rw [hmain] at hs hplace
    simp only [Option.some.injEq] at hs
    subst hs
    have hkeep : ¬ ((s.thread i).state = .empty ∧ (s.thread i).inbuf ≠ []) := by
      intro hempty
      have hi := hplace.lt i (List.mem_cons_self ..)
      exact hempty.2 (hplace.collected i hi _ ((hC i hi).of_empty hempty.1))
    rw [shutdownThread, if_neg hkeep]
    exact h.shutdownSection hC hplace
  | waitShutdown i is signalled =>
    rw [hmain] at hs hplace
    cases signalled with
    | false => contradiction
    | true =>
      simp only [Option.some.injEq] at hs
      subst hs
      exact h.shutdownSection hC hplace
  | joining i is =>
    rw [hmain] at hs hplace
    simp only at hs
    split at hs
    · simp only [Option.some.injEq] at hs
      subst hs
      cases is with
      | nil =>
        -- all threads are shut down
        obtain ⟨bs, part, done, hcut, hchild, horder⟩ := hplace.blocks
        refine ⟨h.aborted, hthreads, C, hC, bs, part, hcut, ?_⟩
        show s.child ++ trailer = written lib header (closeOrder s.threads bs part) ++ trailer
        rw [hchild, ← horder, List.filterMap_nil, List.append_nil]
      | cons j js => exact ⟨h.aborted, hthreads, C, hC, Draining.congr hplace rfl rfl⟩
    · contradiction
  | closed =>
    rw [hmain] at hs
    contradiction

/-- Only the caller's thread changes what can be seen from outside. -/
theorem step_quiet {l : Label} (hl : l ≠ .main) (hok : s.aborted = false)
    (hs : step lib s l = some t) (hC : Contains lib s C) : Quiet s t ∧ Contains lib t C := by
  unfold LzoWriter.step at hs
  rw [if_neg (by rw [hok]; decide)] at hs
  cases l with
  | main => exact absurd rfl hl
  | compress i => exact compressStep_quiet hC hs
  | wakeMain =>
    simp only at hs
    split at hs
    · next hmain =>
      rw [← Option.some.inj hs]
      exact ⟨⟨rfl, rfl, .inr (by rw [hmain]; rfl), rfl, rfl, rfl, rfl⟩, hC⟩
    · next hmain =>
      rw [← Option.some.inj hs]
      exact ⟨⟨rfl, rfl, .inr (by rw [hmain]; rfl), rfl, rfl, rfl, rfl⟩, hC⟩
    · contradiction
  | wakeThread i =>
    simp only at hs
    split at hs
    · next hi =>
      rw [← Option.some.inj hs]
      exact ⟨.setThread s i _, hC.setThread_same (hC i hi).signalInReady⟩
    · contradiction

theorem PooledInv.step (hn : 0 < n) (h : PooledInv lib header all n s) {l : Label}
    (hs : step lib s l = some t) : PooledInv lib header all n t := by
  by_cases hl : l = .main
  · rw [hl, LzoWriter.step, if_neg (by rw [h.aborted]; decide)] at hs
    exact h.main hn hs
  · exact h.quiet fun C hC => step_quiet hl h.aborted hs hC

end Pooled

/-! ## The file -/

/-- The child has got the header, an encoded block for each block of a cut of `data`, in their
order, and four zero bytes. -/
def FileOrder (lib : Lzo) (mtime : ℕ) (data : List Byte) (child : List ChildOp) : Prop :=
  ∃ (header : List Byte) (bs : List (List Byte)),
    lzopHeader lib mtime = some header ∧ bs.flatten = data ∧ (∀ b ∈ bs, IsBlock b) ∧
      childBytes child = header ++ (bs.flatMap (encoded lib) ++ [0, 0, 0, 0])

/-- Taking the blocks from a pool of `n` threads with the oldest one last makes no
difference. -/
def InOrder (n : ℕ) (data : List Byte) : Prop :=
  n ≤ 1 ∨ data.length % maxBlockSize ≠ 0 ∨ data.length < n * maxBlockSize ∨
    ∃ b, b.length = maxBlockSize ∧
      data.drop (data.length - n * maxBlockSize) = (List.replicate n b).flatten

section File

variable {lib : Lzo} {header all part data : List Byte} {bs cs : List (List Byte)} {n mtime : ℕ}

theorem length_flatten_of_full {m : ℕ} (h : ∀ b ∈ bs, b.length = m) :
    bs.flatten.length = bs.length * m := by
  induction bs with
  | nil => rw [List.flatten_nil, List.length_nil, List.length_nil, Nat.zero_mul]
  | cons b bs ih =>
    rw [List.flatten_cons, List.length_append, h b (List.mem_cons_self ..),
      ih fun c hc => h c (List.mem_cons_of_mem _ hc), List.length_cons, Nat.succ_mul, Nat.add_comm]

/-- Full blocks can be told from their concatenation. -/
theorem eq_of_flatten_eq {m : ℕ} (hb : ∀ b ∈ bs, b.length = m) (hc : ∀ c ∈ cs, c.length = m)
    (hlen : bs.length = cs.length) (h : bs.flatten = cs.flatten) : bs = cs := by
  rw [List.eq_iff_flatten_eq]
  refine ⟨h, ?_⟩
  rw [List.map_congr_left hb, List.map_congr_left hc, List.map_const', List.map_const', hlen]

theorem mem_closeOrder {b : List Byte} :
    b ∈ closeOrder n bs part ↔ b ∈ bs ∨ part ≠ [] ∧ b = part := by
  unfold closeOrder
  split
  · next hpart =>
    rw [List.mem_append, List.mem_singleton, and_iff_right hpart]
  · next hpart =>
    rw [or_iff_left fun h => hpart h.1]
    split
    · -- the last blocks are only moved round
      rw [List.mem_append, List.mem_rotate, ← List.mem_append, List.take_append_drop]
    · exact Iff.rfl

/-- What the pool has cut is blocks. -/
theorem Cut.isBlock (h : Cut all bs part) : ∀ b ∈ closeOrder n bs part, IsBlock b := by
  have hpos : 0 < maxBlockSize := by decide
  intro b hb
  rcases mem_closeOrder.mp hb with hb | ⟨hne, rfl⟩
  · have := h.full b hb
    exact ⟨by omega, by omega⟩
  · exact ⟨List.length_pos_iff.mpr hne, h.part_lt.le⟩

/-- The last `n` of the blocks are all equal. -/
theorem rotate_drop_iff (hn : n ≤ bs.length) :
    (bs.drop (bs.length - n)).rotate 1 = bs.drop (bs.length - n) ↔
      ∃ b, bs.drop (bs.length - n) = List.replicate n b := by
  have hlen : (bs.drop (bs.length - n)).length = n := by
    rw [List.length_drop]
    omega
  rw [List.rotate_one_eq_self_iff_eq_replicate, hlen]

/-- The pool gives the data in its order exactly if the input is one of those of `InOrder`. -/
theorem closeOrder_flatten_iff (hn : 0 < n) (h : Cut all bs part) :
    (closeOrder n bs part).flatten = all ↔ InOrder n all := by
  have hpos : 0 < maxBlockSize := by decide
  have hlen : all.length = bs.length * maxBlockSize + part.length := by
    rw [← h.data, List.length_append, length_flatten_of_full h.full]
  have hpart := h.part_lt
  unfold closeOrder
  by_cases hne : part = []
  · subst hne
    rw [List.length_nil, Nat.add_zero] at hlen
    have hdata : bs.flatten = all := by simpa using h.data
    rw [if_neg (by simp)]
    by_cases hused : n ≤ bs.length
    · -- every slot has been used, and the oldest of the last `n` blocks is written last
      rw [if_pos hused]
      have hdrop : all.length - n * maxBlockSize = (bs.length - n) * maxBlockSize := by
        rw [hlen, Nat.sub_mul]
      have htake : (bs.take (bs.length - n)).flatten.length = (bs.length - n) * maxBlockSize := by
        rw [length_flatten_of_full fun b hb => h.full b (List.mem_of_mem_take hb), List.length_take,
          Nat.min_eq_left (by omega)]
      have hsplit : all =
          (bs.take (bs.length - n)).flatten ++ (bs.drop (bs.length - n)).flatten := by
        rw [← List.flatten_append, List.take_append_drop, hdata]
      have hlast : all.drop (all.length - n * maxBlockSize) =
          (bs.drop (bs.length - n)).flatten := by
        rw [hdrop, ← htake, hsplit, List.drop_left]
      have hfull : ∀ b ∈ bs.drop (bs.length - n), b.length = maxBlockSize :=
        fun b hb => h.full b (List.mem_of_mem_drop hb)
      have hiff : (bs.take (bs.length - n) ++ (bs.drop (bs.length - n)).rotate 1).flatten = all ↔
          (bs.drop (bs.length - n)).rotate 1 = bs.drop (bs.length - n) := by
        constructor
        · intro heq
          rw [List.flatten_append] at heq
          exact eq_of_flatten_eq (fun b hb => hfull b (List.mem_rotate.mp hb)) hfull
            (List.length_rotate ..) (List.append_cancel_left (heq.trans hsplit))
        · intro heq
          rw [heq, List.take_append_drop, hdata]
      rw [hiff, rotate_drop_iff hused]
      constructor
      · rintro ⟨b, hb⟩
        refine .inr (.inr (.inr ⟨b, hfull b ?_, ?_⟩))
        · rw [hb]
          exact List.mem_replicate.mpr ⟨hn.ne', rfl⟩
        · rw [hlast, hb]
      · rintro (hone | hmod | hshort | ⟨b, hb, heq⟩)
        · have hn1 : n = 1 := by omega
          obtain ⟨b, hb⟩ := List.length_eq_one_iff.mp
            (show (bs.drop (bs.length - n)).length = 1 by rw [List.length_drop]; omega)
          exact ⟨b, by rw [hb, hn1]; rfl⟩
        · rw [hlen, Nat.mul_mod_left] at hmod
          exact absurd rfl hmod
        · rw [hlen] at hshort
          have := Nat.mul_le_mul_right maxBlockSize hused
          omega
        · refine ⟨b, eq_of_flatten_eq hfull ?_ ?_ (hlast ▸ heq)⟩
          · intro c hc
            rw [(List.mem_replicate.mp hc).2, hb]
          · rw [List.length_drop, List.length_replicate]
            omega
    · rw [if_neg hused]
      refine iff_of_true hdata (.inr (.inr (.inl ?_)))
      rw [hlen]
      exact Nat.mul_lt_mul_of_pos_right (by omega) hpos
  · rw [if_pos hne]
    have hmod : all.length % maxBlockSize = part.length := by
      rw [hlen, Nat.mul_add_mod_self_right, Nat.mod_eq_of_lt hpart]
    refine iff_of_true ?_ (.inr (.inl ?_))
    · rw [← h.data]
      simp
    · rw [hmod]
      exact (List.length_pos_iff.mpr hne).ne'

theorem childBytes_written (bs : List (List Byte)) :
    childBytes (written lib header bs ++ trailer) =
      header ++ (bs.flatMap (encoded lib) ++ [0, 0, 0, 0]) := by
  have hblocks : (bs.map fun b => ChildOp.wwrite (encoded lib b)).flatMap ChildOp.payload =
      bs.flatMap (encoded lib) := by
    rw [List.flatMap_map]
    rfl
  rw [childBytes, List.flatMap_append, written, List.flatMap_cons, hblocks, List.append_assoc]
  rfl

/-- The child has the blocks `bs` and no other. -/
theorem fileOrder_written (hlib : lib.Succeeds) (hless : lib.Lossless)
    (hheader : lzopHeader lib mtime = some header) (hbs : ∀ b ∈ bs, IsBlock b) :
    FileOrder lib mtime data (written lib header bs ++ trailer) ↔ bs.flatten = data := by
  constructor
  · rintro ⟨header', cs, hheader', hcs, hblocks, hbytes⟩
    obtain rfl : header = header' := Option.some.inj (hheader.symm.trans hheader')
    rw [childBytes_written] at hbytes
    have heq := List.append_cancel_right (List.append_cancel_left hbytes)
    rw [(encoded_selfDelimiting hlib hless).injective hbs hblocks heq]
    exact hcs
  · intro hdata
    exact ⟨header, bs, hheader, hdata, hbs, childBytes_written bs⟩

end File

/-! ## Runs -/

section Run

variable {lib : Lzo} {header : List Byte} {mtime n : ℕ} {calls : List (List Byte)} {s : State}

theorem lzoWopen_header (n : ℕ) (calls : List (List Byte))
    (hheader : lzopHeader lib mtime = some header) :
    (lzoWopen lib mtime n calls).child = written lib header [] ∧
      (lzoWopen lib mtime n calls).aborted = false := by
  simp only [lzoWopen, hheader, Option.toList_some, List.map_cons, List.map_nil, Option.isNone_some,
    written, and_self]

theorem unthreadedInv_of_reachable (hlib : lib.Succeeds)
    (hheader : lzopHeader lib mtime = some header)
    (hs : Reachable (system lib mtime 0 calls) s) :
    UnthreadedInv lib header calls.flatten s := by
  refine hs.invariant ?_ fun s l t h hst => h.step hlib hst
  obtain ⟨hchild, haborted⟩ := lzoWopen_header 0 calls hheader
  exact ⟨haborted, rfl, [], List.forall_mem_nil _, hchild, rfl⟩

theorem pooledInv_of_reachable (hn : 0 < n) (hheader : lzopHeader lib mtime = some header)
    (hs : Reachable (system lib mtime n calls) s) :
    PooledInv lib header calls.flatten n s := by
  refine hs.invariant ?_ fun s l t h hst => h.step hn hst
  have hpos : 0 < maxBlockSize := by decide
  have hcontent : ∀ k, k < n → contentAt n [] [] k = .filling [] := by
    intro k hk
    have hlt : ¬ n ≤ ([] : List (List Byte)).length + k := by
      rw [List.length_nil]
      omega
    rw [contentAt, if_neg fun hne => hne.2 rfl, if_neg hlt]
  obtain ⟨hchild, haborted⟩ := lzoWopen_header n calls hheader
  refine ⟨haborted, rfl, fun _ => .filling [], fun j _ => ⟨rfl, rfl⟩, [], [], [], ?_, ?_, rfl⟩
  · refine ⟨hn, ?_, (hcontent 0 hn).symm, fun k _ hk => (hcontent k hk).symm, ?_⟩
    · show (if n = 0 then 9 else 0) = _
      rw [if_neg hn.ne', List.length_nil, Nat.zero_mod]
    · rw [List.take_nil]
      exact hchild
  · exact ⟨rfl, List.forall_mem_nil _, hpos⟩

/-- When `lzo_wclose` has returned, the child has some blocks in some order, and the order is
that of the data exactly for the inputs of `InOrder`. -/
theorem closed_blocks (hlib : lib.Succeeds) (hheader : lzopHeader lib mtime = some header)
    (hs : Reachable (system lib mtime n calls) s) (hclosed : s.main = .closed) :
    ∃ bs, (∀ b ∈ bs, IsBlock b) ∧ s.child = written lib header bs ++ trailer ∧
      (bs.flatten = calls.flatten ↔ InOrder n calls.flatten) := by
  rcases Nat.eq_zero_or_pos n with rfl | hn
  · have hplace := (unthreadedInv_of_reachable hlib hheader hs).place
    rw [hclosed] at hplace
    obtain ⟨bs, hbs, hchild, hall⟩ := hplace
    exact ⟨bs, hbs, hchild, iff_of_true hall (.inl (Nat.zero_le 1))⟩
  · have hinv := pooledInv_of_reachable hn hheader hs
    obtain ⟨C, hC, hplace⟩ := hinv.place
    rw [hclosed] at hplace
    obtain ⟨bs, part, hcut, hchild⟩ := hplace
    rw [hinv.threads] at hchild
    exact ⟨_, hcut.isBlock, hchild, closeOrder_flatten_iff hn hcut⟩

/-- No assertion fails, and the file is in order exactly for the inputs of `InOrder`: the pool
is shut down from the slot behind the next one on, also when the next one has the oldest
block. -/
theorem lzoWriter_in_order (hlib : lib.Succeeds) (hless : lib.Lossless)
    (hs : Reachable (system lib mtime n calls) s) :
    s.aborted = false ∧
      (s.main = .closed →
        (FileOrder lib mtime calls.flatten s.child ↔ InOrder n calls.flatten)) := by
  obtain ⟨header, hheader⟩ := lzopHeader_some lib mtime
  constructor
  · rcases Nat.eq_zero_or_pos n with rfl | hn
    · exact (unthreadedInv_of_reachable hlib hheader hs).aborted
    · exact (pooledInv_of_reachable hn hheader hs).aborted
  · intro hclosed
    obtain ⟨bs, hbs, hchild, hiff⟩ := closed_blocks hlib hheader hs hclosed
    rw [hchild, fileOrder_written hlib hless hheader hbs]
    exact hiff

end Run

/-- A compressor that puts a block behind a literal run, as lzo does with a block of up to 238
bytes in which it finds no match. -/
def literalLzo : Lzo where
  compress b := (0, UInt8.ofNat (17 + b.length) :: b ++ [0x11, 0, 0])
  adler32 adler b :=
    let sums := b.foldl
      (fun (low, high) byte => ((low + byte.toNat) % 65521, (high + low + byte.toNat) % 65521))
      (adler % 2 ^ 16, adler / 2 ^ 16)
    sums.2 * 2 ^ 16 + sums.1
  version := 0x20a0

theorem literalLzo_succeeds : literalLzo.Succeeds := fun _ => rfl

theorem literalLzo_lossless : literalLzo.Lossless := by
  refine ⟨fun s => (s.drop 1).take (s.length - 4), fun b => ?_⟩
  simp [literalLzo]

/-! ## Two blocks -/

section Full

variable {lib : Lzo} {b c eb : List Byte} {n mtime k i : ℕ} {is : List ℕ} {thread : ℕ → LzoThread}
  {all calls : List (List Byte)} {rest : List Byte} {returns : List ℤ} {child : List ChildOp}

/-- A call with a full block hands it over. -/
theorem exec_wwrite (hb : b.length = maxBlockSize) (hn : n ≠ 0)
    (hk : thread k = ⟨.start, false, .empty, [], []⟩) :
    exec (system lib mtime n all) ⟨n, k, thread, .idle, b :: calls, rest, returns, child, false⟩
        [.main, .main, .main] =
      some ⟨n, (k + 1) % n, Function.update thread k ⟨.start, false, .waiting, b, []⟩, .idle,
        calls, [], returns ++ [0], child, false⟩ := by
  have hpos : 0 < maxBlockSize := by decide
  have hne : b ≠ [] := List.ne_nil_of_length_pos (hb ▸ hpos)
  have htake : b.take maxBlockSize = b := List.take_of_length_le hb.le
  have hdrop : b.drop maxBlockSize = [] := List.drop_of_length_le hb.le
  simp [exec, system, step, mainStep, wwriteTurn, wwriteSection, wwriteFill, State.next,
    State.setThread, State.return, LzoThread.signalInReady, hb, hpos, hpos.ne', hne, htake, hdrop,
    hk, hn]

/-- A call with less than a block leaves it in the slot. -/
theorem exec_wwrite_part (hne : c ≠ []) (hc : c.length < maxBlockSize) (hn : n ≠ 0)
    (hk : thread k = ⟨.start, false, .empty, [], []⟩) :
    exec (system lib mtime n all) ⟨n, k, thread, .idle, c :: calls, rest, returns, child, false⟩
        [.main, .main, .main] =
      some ⟨n, k, Function.update thread k ⟨.start, false, .empty, c, []⟩, .idle, calls, [],
        returns ++ [0], child, false⟩ := by
  have hpos : 0 < c.length := List.length_pos_iff.mpr hne
  have hmax : maxBlockSize ≠ 0 := by decide
  have hmin : min maxBlockSize c.length = c.length := Nat.min_eq_right hc.le
  simp [exec, system, step, mainStep, wwriteTurn, wwriteSection, wwriteFill, State.next,
    State.setThread, State.return, hpos, hne, hmin, hmax, hc.not_ge, hk, hn]

/-- A close hands over what is left, and begins behind the slot that has it. -/
theorem exec_wclose_part (hne : c ≠ []) (hk : thread 1 = ⟨.start, false, .empty, c, []⟩) :
    exec (system lib mtime 2 all) ⟨2, 1, thread, .idle, [], rest, returns, child, false⟩ [.main] =
      some ⟨2, 0, Function.update thread 1 ⟨.start, false, .waiting, c, []⟩, .shutdown 0 [1], [],
        rest, returns, child, false⟩ := by
  have horder : shutdownOrder 2 0 = [0, 1] := by decide
  simp [exec, system, step, mainStep, lzoWclose, State.next, State.setThread, shutdownNext,
    LzoThread.signalInReady, horder, hne, hk]

/-- A thread compresses its block and is shut down. -/
theorem exec_shutdown (hi : i < n) (hblock : lzoWwriteBlock lib b = some ((b.length : ℤ), eb))
    (ht : thread i = ⟨.start, false, .waiting, b, []⟩) :
    exec (system lib mtime n all)
        ⟨n, k, thread, .shutdown i is, calls, rest, returns, child, false⟩
        [.compress i, .main, .compress i, .main] =
      some (shutdownNext ⟨n, k, Function.update thread i ⟨.exited, true, .empty, [], eb⟩,
        .joining i is, calls, rest, returns, child ++ [.wwrite eb], false⟩ is) := by
  have hsign : ¬ ((b.length : ℤ) < 0) := by omega
  simp [exec, system, step, mainStep, compressStep, compressLoop, State.signalOutReady,
    shutdownThread, shutdownSection, State.setThread, State.wwrite, LzoThread.signalInReady, hblock,
    ht, hi, hsign]

theorem exists_opened (lib : Lzo) (mtime n : ℕ) (hn : n ≠ 0) (all : List (List Byte)) :
    ∃ header, lzopHeader lib mtime = some header ∧ Reachable (system lib mtime n all)
      ⟨n, 0, fun _ => ⟨.start, false, .empty, [], []⟩, .idle, all, [], [], [.wwrite header],
        false⟩ := by
  obtain ⟨header, hheader⟩ := lzopHeader_some lib mtime
  have hinit := Reachable.init (S := system lib mtime n all)
  exact ⟨header, hheader, by simpa [system, lzoWopen, hheader, hn] using hinit⟩

/-- A pool of two threads gets a full block and a part of one, and is closed. -/
theorem exists_closed_part (mtime : ℕ) (hlib : lib.Succeeds) (hb : b.length = maxBlockSize)
    (hne : c ≠ []) (hc : c.length < maxBlockSize) :
    ∃ s, Reachable (system lib mtime 2 [b, c]) s ∧ s.main = .closed := by
  have hpos : 0 < maxBlockSize := by decide
  have hcpos : 0 < c.length := List.length_pos_iff.mpr hne
  obtain ⟨header, _, hopen⟩ := exists_opened lib mtime 2 two_ne_zero [b, c]
  have hfirst := hopen.exec (exec_wwrite hb two_ne_zero rfl)
  have hsecond := hfirst.exec (exec_wwrite_part hne hc two_ne_zero rfl)
  -- slot 1 has the part, so that slot 0 with the older block comes first
  have hclose := hsecond.exec (exec_wclose_part hne rfl)
  have hlast : Reachable (system lib mtime 2 [b, c])
      ⟨2, 0, _, .shutdown 1 [], [], [], [0, 0], _, false⟩ :=
    hclose.exec (exec_shutdown (by decide) (lzoWwriteBlock_eq (hlib _) ⟨by omega, hb.le⟩) rfl)
  exact ⟨_,
    hlast.exec (exec_shutdown (by decide) (lzoWwriteBlock_eq (hlib _) ⟨by omega, hc.le⟩) rfl),
    rfl⟩

/-- A pool of two threads gets two full blocks and is closed. -/
theorem exists_closed_two (mtime : ℕ) (hlib : lib.Succeeds) (hb : b.length = maxBlockSize)
    (hc : c.length = maxBlockSize) :
    ∃ s, Reachable (system lib mtime 2 [b, c]) s ∧ s.main = .closed := by
  have hpos : 0 < maxBlockSize := by decide
  obtain ⟨header, _, hopen⟩ := exists_opened lib mtime 2 two_ne_zero [b, c]
  have hfirst := hopen.exec (exec_wwrite hb two_ne_zero rfl)
  have hsecond := hfirst.exec (exec_wwrite hc two_ne_zero rfl)
  -- slot 0 is the next one and has the first block, and the threads are shut down from slot 1 on
  have hclose : Reachable (system lib mtime 2 [b, c])
      ⟨2, 1, _, .shutdown 1 [0], [], [], [0, 0], [.wwrite header], false⟩ :=
    hsecond.next (l := .main) rfl
  have hlast : Reachable (system lib mtime 2 [b, c])
      ⟨2, 1, _, .shutdown 0 [], [], [], [0, 0], _, false⟩ :=
    hclose.exec (exec_shutdown (by decide) (lzoWwriteBlock_eq (hlib _) ⟨by omega, hc.le⟩) rfl)
  exact ⟨_,
    hlast.exec (exec_shutdown (by decide) (lzoWwriteBlock_eq (hlib _) ⟨by omega, hb.le⟩) rfl),
    rfl⟩

end Full

/-- A full block and a part of one through two threads come out in order. -/
theorem lzoWriter_in_order_blocks : ∃ s,
    Reachable (system literalLzo 0 2 [List.replicate maxBlockSize 0, [4]]) s ∧
    s.main = .closed ∧ s.aborted = false ∧
    FileOrder literalLzo 0 (List.replicate maxBlockSize 0 ++ [4]) s.child := by
  obtain ⟨s, hs, hclosed⟩ := exists_closed_part 0 literalLzo_succeeds
    (List.length_replicate (a := (0 : Byte))) (List.cons_ne_nil 4 []) (by decide)
  obtain ⟨hkept, horder⟩ := lzoWriter_in_order literalLzo_succeeds literalLzo_lossless hs
  refine ⟨s, hs, hclosed, hkept, ?_⟩
  apply (horder hclosed).mpr
  have hlength : (List.replicate maxBlockSize (0 : Byte) ++ [4]).length = maxBlockSize + 1 := by
    rw [List.length_append, List.length_replicate, List.length_singleton]
  -- what is left over is a part of a block
  refine .inr (.inl ?_)
  rw [List.flatten_cons, List.flatten_singleton, hlength]
  decide

/-- Two different full blocks through two threads come out of order. -/
theorem lzoWriter_swapped : ∃ s,
    Reachable (system literalLzo 0 2
      [List.replicate maxBlockSize 0, List.replicate maxBlockSize 1]) s ∧ s.main = .closed ∧
    ¬ FileOrder literalLzo 0
      (List.replicate maxBlockSize 0 ++ List.replicate maxBlockSize 1) s.child := by
  have hpos : 0 < maxBlockSize := by decide
  obtain ⟨s, hs, hclosed⟩ := exists_closed_two 0 literalLzo_succeeds
    (List.length_replicate (a := (0 : Byte))) (List.length_replicate (a := (1 : Byte)))
  obtain ⟨header, hheader⟩ := lzopHeader_some literalLzo 0
  obtain ⟨bs, hbs, hchild, hiff⟩ := closed_blocks literalLzo_succeeds hheader hs hclosed
  refine ⟨s, hs, hclosed, ?_⟩
  rw [hchild, fileOrder_written literalLzo_succeeds literalLzo_lossless hheader hbs]
  have hdata : [List.replicate maxBlockSize (0 : Byte), List.replicate maxBlockSize 1].flatten =
      List.replicate maxBlockSize 0 ++ List.replicate maxBlockSize 1 := by
    rw [List.flatten_cons, List.flatten_singleton]
  rw [hdata] at hiff
  rw [hiff]
  have hlen : (List.replicate maxBlockSize (0 : Byte) ++ List.replicate maxBlockSize 1).length =
      2 * maxBlockSize := by
    rw [List.length_append, List.length_replicate, List.length_replicate, Nat.two_mul]
  rintro (h | h | h | ⟨b, hb, h⟩)
  · omega
  · rw [hlen, Nat.mul_mod_left] at h
    exact h rfl
  · omega
  · rw [hlen, Nat.sub_self, List.drop_zero] at h
    have hpair : (List.replicate 2 b).flatten = b ++ b := by simp [List.replicate_succ]
    rw [hpair] at h
    obtain ⟨hzero, hone⟩ := List.append_inj h (by rw [List.length_replicate, hb])
    have heq := hzero.trans hone.symm
    rw [List.replicate_inj] at heq
    rcases heq.2 with hnil | hbyte
    · omega
    · exact absurd hbyte (by decide)

end Wandio.LzoWriter
