import Wandio.LzoWriter.PoolTheorems

/-!
# Writing through the pool

The data is cut into blocks of `MAX_BLOCK_SIZE` bytes. In front of the next slot the caller's
thread first writes the block that went through it one round before, so the child always has
a first part of the blocks.
-/

namespace Wandio.LzoWriter

open Transition RingBuffer

/-- The data `all` cut into full blocks and what is left. -/
structure Cut (all : List Byte) (bs : List (List Byte)) (part : List Byte) : Prop where
  data : bs.flatten ++ part = all
  full : ∀ b ∈ bs, b.length = maxBlockSize
  part_lt : part.length < maxBlockSize

/-- The header and the encoded blocks `bs` have been written. -/
def written (lib : Lzo) (header : List Byte) (bs : List (List Byte)) : List ChildOp :=
  .wwrite header :: bs.map fun b => .wwrite (encoded lib b)

/-- The caller's thread is in front of the next slot, with `bs` handed over and `part` in the
slot. -/
structure Filling (lib : Lzo) (header : List Byte) (s : State) (C : ℕ → Content)
    (bs : List (List Byte)) (part : List Byte) : Prop where
  pos : 0 < s.threads
  next : s.nextThread = bs.length % s.threads
  front : C s.nextThread = contentAt s.threads bs part 0
  behind : Behind s.threads bs C
  child : s.child =
    written lib header (bs.take (bs.length + (if part = [] then 0 else 1) - s.threads))

/-- The same when the block of the last round has been written. -/
structure Cleared (lib : Lzo) (header : List Byte) (s : State) (C : ℕ → Content)
    (bs : List (List Byte)) (part : List Byte) : Prop where
  pos : 0 < s.threads
  next : s.nextThread = bs.length % s.threads
  front : C s.nextThread = .filling part
  behind : Behind s.threads bs C
  child : s.child = written lib header (bs.take (bs.length + 1 - s.threads))

section Blocks

variable {lib : Lzo} {header part b q : List Byte} {bs : List (List Byte)} {n : ℕ}

theorem written_append (bs bs' : List (List Byte)) :
    written lib header (bs ++ bs') =
      written lib header bs ++ bs'.map fun b => .wwrite (encoded lib b) := by
  simp [written]

/-- `outbuf` has room for every encoded block. -/
theorem length_encoded_lt (lib : Lzo) (hb : IsBlock b) :
    (encoded lib b).length < maxBufferSize := by
  have hle := length_payload_le lib b
  have hmax := hb.2
  have hsize : maxBlockSize + 12 < maxBufferSize := by decide
  by_cases hok : (lib.compress b).1 = 0
  · rw [encoded_eq hok hb]
    simp only [List.length_append, length_htonl]
    omega
  · rw [encoded_failed hok, List.length_nil]
    omega

theorem contentAt_holding (h : contentAt n bs part 0 = .holding b) :
    part = [] ∧ n ≤ bs.length ∧ b = bs.getD (bs.length - n) [] := by
  unfold contentAt at h
  split at h
  · contradiction
  · next hpart =>
    split at h
    · next hn => exact ⟨by simpa using hpart, hn, (Content.holding.inj h).symm⟩
    · contradiction

theorem contentAt_filling (h : contentAt n bs part 0 = .filling q) :
    q = part ∧ (part = [] → bs.length < n) := by
  unfold contentAt at h
  split at h
  · next hpart => exact ⟨(Content.filling.inj h).symm, fun hnil => absurd hnil hpart.2⟩
  · next hpart =>
    have hnil : part = [] := by simpa using hpart
    split at h
    · contradiction
    · next hn => exact ⟨by rw [hnil, Content.filling.inj h], fun _ => by omega⟩

/-- The next block in turn. -/
theorem take_getD {i : ℕ} (h : i < bs.length) : bs.take i ++ [bs.getD i []] = bs.take (i + 1) := by
  rw [List.take_succ_eq_append_getElem h, List.getD_eq_getElem?_getD, List.getElem?_eq_getElem h,
    Option.getD_some]

/-- One more block is cut off. -/
theorem Cut.block {all : List Byte} (h : Cut all bs part) {more : List Byte}
    (hfull : (part ++ more).length = maxBlockSize) :
    Cut (all ++ more) (bs ++ [part ++ more]) [] := by
  refine ⟨?_, ?_, by decide⟩
  · rw [← h.data]
    simp
  · intro b hb
    rcases List.mem_append.mp hb with hb | hb
    · exact h.full b hb
    · rw [List.mem_singleton.mp hb]
      exact hfull

end Blocks

section Write

variable {lib : Lzo} {header : List Byte} {s t : State} {C : ℕ → Content}
  {bs : List (List Byte)} {part stored : List Byte}

/-- The pool takes data: what it has stored grows by a part of `rest`. -/
structure Taken (lib : Lzo) (header : List Byte) (s t : State) (stored : List Byte) : Prop where
  aborted : t.aborted = s.aborted
  threads : t.threads = s.threads
  main : t.main = .writing
  calls : t.calls = s.calls
  pool : ∃ C bs part stored', Contains lib t C ∧ Filling lib header t C bs part ∧
    Cut stored' bs part ∧ stored' ++ t.rest = stored ++ s.rest

theorem wwriteFill_taken (hC : Contains lib s C) (h : Cleared lib header s C bs part)
    (hcut : Cut stored bs part) (hrest : s.rest ≠ []) :
    Taken lib header s (wwriteFill s) stored := by
  have hpos := h.pos
  have hlt := hcut.part_lt
  have hnext : s.nextThread < s.threads := h.next ▸ Nat.mod_lt _ hpos
  have hslot := hC _ hnext
  rw [h.front] at hslot
  obtain ⟨hstate, hin⟩ : s.next.state = .empty ∧ s.next.inbuf = part := hslot
  have hlen : 0 < s.rest.length := List.length_pos_iff.mpr hrest
  unfold wwriteFill
  simp only [hin]
  set size := min (maxBlockSize - part.length) s.rest.length with hsize
  rw [if_neg (by omega)]
  have htake : (part ++ s.rest.take size).length = part.length + size := by
    rw [List.length_append, List.length_take]
    omega
  have hne : part ++ s.rest.take size ≠ [] := by
    apply List.ne_nil_of_length_pos
    omega
  have hstored : (stored ++ s.rest.take size) ++ s.rest.drop size = stored ++ s.rest := by
    rw [List.append_assoc, List.take_append_drop]
  split
  · next hfull =>
    -- the block is full and goes to its thread
    have hexact : (part ++ s.rest.take size).length = maxBlockSize := by omega
    have hblock : IsBlock (part ++ s.rest.take size) := by
      have : 1 ≤ maxBlockSize := by decide
      exact ⟨by omega, by omega⟩
    have hround := h.behind.advance (b := part ++ s.rest.take size)
    rw [← h.next] at hround
    refine ⟨rfl, rfl, rfl, rfl,
      Function.update C s.nextThread (.holding (part ++ s.rest.take size)),
      bs ++ [part ++ s.rest.take size], [], stored ++ s.rest.take size, ?_, ?_,
      hcut.block hexact, hstored⟩
    · exact hC.setThread (Holds.signalInReady ⟨hblock, rfl, .inl rfl⟩)
    · have hslot' : (s.nextThread + 1) % s.threads =
          (bs ++ [part ++ s.rest.take size]).length % s.threads := by
        rw [h.next, Nat.mod_add_mod, List.length_append, List.length_singleton]
      refine ⟨hpos, hslot', ?_, ?_, ?_⟩
      · show Function.update C _ _ ((s.nextThread + 1) % s.threads) = _
        rw [hslot', List.length_append, List.length_singleton]
        exact hround 0 hpos
      · intro k _ hk
        rw [List.length_append, List.length_singleton]
        exact hround k hk
      · show s.child =
          written lib header (List.take ((bs ++ [_]).length + _ - s.threads) (bs ++ [_]))
        rw [h.child, List.length_append, List.length_singleton, if_pos rfl, Nat.add_zero,
          List.take_append_of_le_length (by omega)]
  · next hmore =>
    refine ⟨rfl, rfl, rfl, rfl,
      Function.update C s.nextThread (.filling (part ++ s.rest.take size)), bs,
      part ++ s.rest.take size, stored ++ s.rest.take size, ?_, ?_, ?_, hstored⟩
    · exact hC.setThread ⟨hstate, rfl⟩
    · refine ⟨hpos, h.next, ?_, ?_, ?_⟩
      · show Function.update C s.nextThread _ s.nextThread = _
        rw [Function.update_self, contentAt, if_pos ⟨rfl, hne⟩]
      · rw [h.next]
        exact h.behind.update
      · rw [if_neg hne]
        exact h.child
    · refine ⟨?_, hcut.full, by omega⟩
      rw [← hcut.data, List.append_assoc]

/-- A section of `lzo_wwrite`: the caller's thread waits for the slot, or the pool takes
data. -/
theorem wwriteSection_taken (hC : Contains lib s C) (h : Filling lib header s C bs part)
    (hcut : Cut stored bs part) (hrest : s.rest ≠ []) :
    wwriteSection s = { s with main := .waitOut false } ∨
      Taken lib header s (wwriteSection s) stored := by
  have hpos := h.pos
  have hnext : s.nextThread < s.threads := h.next ▸ Nat.mod_lt _ hpos
  have hslot : Holds lib s.next (C s.nextThread) := hC _ hnext
  have hfront := h.front
  unfold wwriteSection
  split
  · exact .inl rfl
  · next hfull =>
    -- the block of the last round is written
    right
    obtain ⟨b, hc, hb, hout⟩ := hslot.of_full hfull
    rw [hc] at hfront
    obtain ⟨rfl, hn, hget⟩ := contentAt_holding hfront.symm
    rw [hout, if_pos (length_encoded_lt lib hb)]
    set u : State := (s.wwrite (encoded lib b)).setThread s.nextThread
      { s.next with state := .empty, inbuf := [] } with hu
    have hcu : Contains lib u (Function.update C s.nextThread (.filling [])) :=
      Contains.setThread (s := s.wwrite (encoded lib b)) hC ⟨rfl, rfl⟩
    have hcleared : Cleared lib header u (Function.update C s.nextThread (.filling [])) bs [] := by
      refine ⟨hpos, h.next, Function.update_self .., ?_, ?_⟩
      · show Behind s.threads bs (Function.update C s.nextThread (.filling []))
        rw [h.next]
        exact h.behind.update
      · show s.child ++ [.wwrite (encoded lib b)] = _
        have hindex : bs.length + 1 - s.threads = bs.length - s.threads + 1 := by omega
        rw [h.child, if_pos rfl, Nat.add_zero]
        show _ = written lib header (bs.take (bs.length + 1 - s.threads))
        rw [hindex, ← take_getD (by omega), ← hget, written_append]
        rfl
    have htaken := wwriteFill_taken hcu hcleared hcut hrest
    exact ⟨htaken.aborted, htaken.threads, htaken.main, htaken.calls, htaken.pool⟩
  · next hempty =>
    right
    have hc := hslot.of_empty hempty
    rw [hc] at hfront
    obtain ⟨hin, hfirst⟩ := contentAt_filling hfront.symm
    refine wwriteFill_taken hC ⟨hpos, h.next, by rw [hc, hin], h.behind, ?_⟩ hcut hrest
    rw [h.child]
    split
    · next hnil =>
      -- the first round
      have := hfirst hnil
      rw [Nat.sub_eq_zero_of_le (by omega), Nat.sub_eq_zero_of_le (by omega)]
    · rfl

end Write

end Wandio.LzoWriter
