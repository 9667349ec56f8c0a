import Wandio.PeekReader.BoundsModel

/-!
# The peeking reader stays inside its buffer

As long as `length` is not an error, every call touches its own buffer only. A `peek_read` that
finds an error there returns it, but `peek_peek` does not look: it takes the error for a length.
-/

namespace Wandio.PeekReader

open Transition

variable {σ : Type*} {child : FallibleSource σ} {addr len : ℤ} {s t : State σ} {r : ReadResult}

/-- The invariant: with no error in it, `length` is what has been written of the buffer. -/
structure Fits (s : State σ) : Prop where
  wf : Wf s
  le_capacity : 0 ≤ s.length → s.length ≤ s.capacity

theorem Fits.bounded (h : Fits s) : Bounded s := by
  by_cases hok : 0 ≤ s.length
  · exact .inl ⟨h.wf.offset_nonneg, h.wf.offset_le hok, h.le_capacity hok⟩
  · exact .inr (not_le.mp hok)

/-- A reader that has just been opened has no buffer to be outside of. -/
theorem fits_peekOpen (c : σ) : Fits (peekOpen c) := ⟨wf_peekOpen c, fun _ => le_rfl⟩

theorem freeDrained_le_capacity (h : 0 ≤ s.length → s.length ≤ s.capacity) :
    0 ≤ (freeDrained s).length → (freeDrained s).length ≤ (freeDrained s).capacity := by
  unfold freeDrained
  split
  · exact fun _ => le_rfl
  · exact h

/-- What is read is written to a block that has room for what was asked for. -/
theorem ReadMove.fits (h : Fits s) (hlen : 0 ≤ len)
    (hmove : ReadMove child.toSource addr len s r t) : Fits t := by
  refine ⟨hmove.wf h.wf hlen, ?_⟩
  cases hmove with
  | sticky => exact h.le_capacity
  | buffered => exact freeDrained_le_capacity h.le_capacity
  | direct => exact freeDrained_le_capacity h.le_capacity
  | directShort => exact h.le_capacity
  | refill _ _ _ hread =>
    have hle := child.ret_le s.child (refillAmount (len - s.left) s.length).toNat
    rw [hread] at hle
    exact freeDrained_le_capacity fun _ => hle
  | refillShort _ _ _ hread =>
    have hle := child.ret_le s.child (refillAmount (len - s.left) s.length).toNat
    rw [hread] at hle
    exact fun _ => hle

/-- A peek leaves the length inside of the buffer. -/
theorem PeekMove.fits (h : Fits s) (hok : 0 ≤ s.length)
    (hmove : PeekMove child.toSource len s r t) : Fits t := by
  refine ⟨hmove.wf h.wf hok, ?_⟩
  cases hmove with
  | enough => exact h.le_capacity
  | fail hmore =>
    have hpos := readAmount_pos hmore
    intro _
    show s.length ≤ ((s.length + s.readAmount len).toNat : ℤ)
    omega
  | @extend q _ hmore hread =>
    have hpos := readAmount_pos hmore
    have hle : q.ret ≤ (s.readAmount len).toNat := by
      have hasked := child.ret_le s.child (s.readAmount len).toNat
      rwa [hread] at hasked
    intro _
    show s.length + q.ret ≤ ((s.length + s.readAmount len).toNat : ℤ)
    omega

/-! ## The regions of a call -/

theorem refillAmount_pos (len : ℤ) {length : ℤ} (h : 0 ≤ length) : 0 < refillAmount len length :=
  h.trans_lt (lt_refillAmount len length)

theorem sizeT_of_nonneg {x : ℤ} (h : 0 ≤ x) : (sizeT x : ℤ) = x := by
  unfold sizeT
  rw [if_neg (not_lt.mpr h)]
  exact Int.toNat_of_nonneg h

/-- What is copied to the caller is inside of the buffer. -/
theorem copyRegion_inside (h : Fits s) (hok : 0 ≤ s.length) (hlen : 0 ≤ len) :
    (copyRegion len s).Inside := by
  have hle := h.wf.offset_le hok
  have hcapacity := h.le_capacity hok
  refine ⟨h.wf.offset_nonneg, ?_⟩
  show s.offset + (sizeT (min len (s.length - s.offset)) : ℤ) ≤ s.capacity
  rw [sizeT_of_nonneg (by omega)]
  omega

/-- Taking from the buffer stays inside of it. -/
theorem takeRegions_inside (h : Fits s) (hok : 0 ≤ s.length) (hlen : 0 ≤ len) :
    ∀ region ∈ takeRegions len s, region.Inside := by
  unfold takeRegions
  split
  · simp only [List.forall_mem_singleton]
    exact copyRegion_inside h hok hlen
  · simp

/-- Reading more stays inside of the buffer it is read into. -/
theorem moreRegions_inside (hok : 0 ≤ s.length) (hempty : s.length = s.offset)
    (hlen : 0 < len) (ret : ℤ) :
    ∀ region ∈ moreRegions child.toSource addr len ret s, region.Inside := by
  have hpos := refillAmount_pos len hok
  have hle := child.ret_le s.child (refillAmount len s.length).toNat
  unfold moreRegions
  split
  · simp
  · rw [refillBuffer_eq _ _ hempty]
    rw [List.forall_mem_cons]
    refine ⟨⟨le_rfl, ?_⟩, ?_⟩
    · unfold refillRegion
      simp only [lt_refillAmount, if_true]
      omega
    · simp only
      split
      · simp
      · next hret =>
        simp only [List.forall_mem_singleton]
        refine ⟨le_rfl, ?_⟩
        show (0 : ℤ) + (sizeT _ : ℤ) ≤ ((refillAmount len s.length).toNat : ℤ)
        rw [sizeT_of_nonneg (by omega)]
        omega

/-- A read stays inside of the buffers it uses. -/
theorem readRegions_inside (h : Fits s) (hlen : 0 ≤ len) :
    ∀ region ∈ readRegions child.toSource addr len s, region.Inside := by
  unfold readRegions
  split
  · simp
  · next herr =>
    have hok : 0 ≤ s.length := not_lt.mp herr
    have hle := h.wf.offset_le hok
    have hnonneg := h.wf.offset_nonneg
    rw [takeBuffered_eq h.wf hok hlen, List.forall_mem_append]
    refine ⟨takeRegions_inside h hok hlen, ?_⟩
    split
    · next hmore =>
      -- more is wanted only when the buffer has been emptied
      refine moreRegions_inside (s := { s with offset := s.offset + min len s.left }) hok ?_
        hmore _
      show s.length = s.offset + min len s.left
      unfold State.left at hmore ⊢
      omega
    · simp

/-- Moving the bytes to a larger buffer stays inside of both. -/
theorem reallocRegions_inside (h : Fits s) (hok : 0 ≤ s.length) {size : ℕ}
    (hsize : s.length ≤ size) :
    ∀ region ∈ reallocRegions s.buffer (sizeT s.length) size, region.Inside := by
  have hcapacity := h.le_capacity hok
  unfold reallocRegions
  split
  · simp
  · rw [List.forall_mem_cons, List.forall_mem_singleton]
    have hold := sizeT_of_nonneg hok
    constructor
    · refine ⟨le_rfl, ?_⟩
      show (0 : ℤ) + (sizeT s.length : ℤ) ≤ s.capacity
      omega
    · refine ⟨le_rfl, ?_⟩
      show (0 : ℤ) + (sizeT s.length : ℤ) ≤ size
      omega

/-- A peek stays inside of the buffers it uses. -/
theorem peekRegions_inside (h : Fits s) (hok : 0 ≤ s.length) (hlen : 0 ≤ len) :
    ∀ region ∈ peekRegions child.toSource len s, region.Inside := by
  unfold peekRegions
  split
  · next hmore =>
    have hpos := readAmount_pos (s := s) hmore
    have hsize : (sizeT (s.length + s.readAmount len) : ℤ) = s.length + s.readAmount len :=
      sizeT_of_nonneg (by omega)
    simp only [alignedrealloc_eq h.wf hok hmore]
    rw [List.forall_mem_append, List.forall_mem_cons]
    refine ⟨reallocRegions_inside h hok (by omega), ⟨hok, ?_⟩, ?_⟩
    · show s.length + ((s.readAmount len).toNat : ℤ) ≤ ((s.length + s.readAmount len).toNat : ℤ)
      omega
    · split
      · simp
      · next hret =>
        rw [List.forall_mem_singleton]
        have hread := child.ret_le s.child (s.readAmount len).toNat
        have hle := h.wf.offset_le hok
        refine copyRegion_inside ⟨⟨h.wf.offset_nonneg, fun _ => ?_, fun h => nomatch h⟩,
          fun _ => ?_⟩ ?_ hlen
        · show s.offset ≤ s.length + _
          omega
        · show s.length + _ ≤ ((s.length + s.readAmount len).toNat : ℤ)
          omega
        · show 0 ≤ s.length + _
          omega
  · rw [List.forall_mem_singleton]
    exact copyRegion_inside h hok hlen

theorem exists_alignedrealloc {b : Block} {oldsize size : ℕ} {buffer : Option Block}
    (h : alignedrealloc (some b) oldsize size = some buffer) : ∃ b', buffer = some b' := by
  unfold alignedrealloc at h
  split at h
  · exact ⟨b, (Option.some.inj h).symm⟩
  · split at h
    · contradiction
    · exact ⟨_, (Option.some.inj h).symm⟩

/-- A peek that comes behind an error hands the child what lies in front of the buffer. -/
theorem exists_region_outside (h : Fits s) (herr : s.length < 0) (hlen : 0 ≤ len)
    {r : ReadResult × State σ} (hpeek : peekPeek child.toSource len s = some r) :
    ∃ region ∈ peekRegions child.toSource len s, region.start = s.length := by
  have hnonneg := h.wf.offset_nonneg
  have hmore : s.length - s.offset < len := by omega
  unfold peekPeek at hpeek
  unfold peekRegions
  rw [if_pos hmore] at hpeek ⊢
  rw [Option.map_eq_some_iff] at hpeek
  obtain ⟨buffer, hrealloc, -⟩ := hpeek
  obtain ⟨b, hb⟩ : ∃ b, s.buffer = some b := by
    rw [← Option.ne_none_iff_exists']
    intro hnone
    have hzero := h.wf.empty hnone
    omega
  obtain ⟨b', rfl⟩ := exists_alignedrealloc (hb ▸ hrealloc)
  have hrealloc : alignedrealloc s.buffer (sizeT s.length) (sizeT (s.length + s.readAmount len)) =
    some (some b') := hrealloc
  simp only [hrealloc]
  exact ⟨_, List.mem_append_right _ (List.mem_cons_self ..), rfl⟩

/-! ## Runs -/

/-- Every call leaves the length inside of the buffer. -/
theorem fits_next {c : σ} (s : State σ) (a : Call) (t : State σ) (h : Fits s)
    (hs : ((calls child.toSource c).restrict peeksUnfailed).next s a = some t) : Fits t := by
  obtain ⟨hok, hnext⟩ := restrict_next.mp hs
  obtain ⟨⟨r, u⟩, hcall, rfl⟩ := Option.map_eq_some_iff.mp hnext
  cases a with
  | read addr len =>
    obtain ⟨q, v, hread, hmove⟩ := readMove child.toSource (addr : ℤ) h.wf (Int.natCast_nonneg len)
    obtain ⟨rfl, rfl⟩ : q = r ∧ v = u := by
      have heq := hread.symm.trans hcall
      rw [Option.some_inj, Prod.mk.injEq] at heq
      exact heq
    exact hmove.fits h (Int.natCast_nonneg len)
  | peek addr len =>
    have hok : 0 ≤ s.length := of_decide_eq_true hok
    obtain ⟨q, v, hpeek, hmove⟩ := peekMove child.toSource (len : ℤ) h.wf hok
    obtain ⟨rfl, rfl⟩ : q = r ∧ v = u := by
      have heq := hpeek.symm.trans hcall
      rw [Option.some_inj, Prod.mk.injEq] at heq
      exact heq
    exact hmove.fits h hok

theorem fits_reachable {c : σ}
    (h : Reachable ((calls child.toSource c).restrict peeksUnfailed) s) : Fits s :=
  h.invariant (fits_peekOpen c) fits_next

/-- In every run in which no peek comes behind an error: `offset` and `length` stay within the
buffer, and a call returns and touches nothing outside it if and only if it is not a peek that
comes behind an error. -/
theorem regions_inside (child : FallibleSource σ) (c : σ) (s : State σ)
    (h : Reachable ((calls child.toSource c).restrict peeksUnfailed) s) :
    Bounded s ∧ ∀ a, ((call child.toSource a s).isSome ∧
      ∀ region ∈ regions child.toSource a s, region.Inside) ↔ peeksUnfailed s a = true := by
  have hfits := fits_reachable h
  refine ⟨hfits.bounded, fun a => ?_⟩
  cases a with
  | read addr len =>
    obtain ⟨r, t, hread, -⟩ :=
      readMove child.toSource (addr : ℤ) hfits.wf (Int.natCast_nonneg len)
    refine iff_of_true ⟨?_, readRegions_inside hfits (Int.natCast_nonneg len)⟩ rfl
    show (peekRead child.toSource addr len s).isSome
    rw [hread]
    rfl
  | peek addr len =>
    show _ ↔ decide (0 ≤ s.length) = true
    rw [decide_eq_true_iff]
    constructor
    · rintro ⟨hsome, hinside⟩
      obtain ⟨r, hpeek⟩ := Option.isSome_iff_exists.mp hsome
      by_contra hneg
      obtain ⟨region, hmem, hstart⟩ :=
        exists_region_outside hfits (not_le.mp hneg) (Int.natCast_nonneg len) hpeek
      have hbad := (hinside region hmem).1
      omega
    · intro hok
      obtain ⟨r, t, hpeek, -⟩ := peekMove child.toSource (len : ℤ) hfits.wf hok
      refine ⟨?_, peekRegions_inside hfits hok (Int.natCast_nonneg len)⟩
      show (peekPeek child.toSource len s).isSome
      rw [hpeek]
      rfl

/-- A read fails; the next one returns its error and touches nothing. -/
theorem regions_inside_sticky : ∃ s, s.length = -1 ∧
    ∀ region ∈ regions failing.toSource (.read 1 10) s, region.Inside := by
  obtain ⟨s, hs, hlength⟩ := exists_reachable_of_exec
    ((calls failing.toSource ()).restrict peeksUnfailed) [.read 1 10]
    (fun s => s.length = -1) (by decide)
  exact ⟨s, of_decide_eq_true hlength,
    (((regions_inside failing () s hs).2 (.read 1 10)).mpr rfl).2⟩

/-- A read fails; the peek behind it lets the child write from the byte in front of the
buffer on. -/
theorem peek_outside : ∃ s, Reachable (calls failing.toSource ()) s ∧
    ∃ region ∈ regions failing.toSource (.peek 1 10) s, region.start = -1 ∧ ¬ region.Inside := by
  obtain ⟨s, hs, htest⟩ := exists_reachable_of_exec (calls failing.toSource ()) [.read 1 10]
    (fun s => ∃ region ∈ regions failing.toSource (.peek 1 10) s,
      region.start = -1 ∧ ¬ region.Inside) (by decide)
  exact ⟨s, hs, of_decide_eq_true htest⟩

end Wandio.PeekReader
