import Wandio.LzoWriter.WriteTheorems
import Mathlib.Data.List.Rotate

/-!
# Closing the pool

`lzo_wclose` hands over the block that has been begun, goes on to the next slot and shuts the
threads down from there on. When no block has been begun the slot it goes away from may hold
the oldest block, which is then written last.
-/

namespace Wandio.LzoWriter

open Transition RingBuffer

/-- The blocks in the order in which the child gets them from a pool of `n` threads. -/
def closeOrder (n : ℕ) (bs : List (List Byte)) (part : List Byte) : List (List Byte) :=
  if part ≠ [] then bs ++ [part]
  else if n ≤ bs.length then
    bs.take (bs.length - n) ++ (bs.drop (bs.length - n)).rotate 1
  else bs

/-! ## The order of the slots -/

section Order

variable {n : ℕ} {bs : List (List Byte)} {C : ℕ → Content}

theorem mem_shutdownOrder {a j : ℕ} : j ∈ shutdownOrder n a ↔ j < max n a := by
  rw [shutdownOrder, List.mem_append, List.mem_range'_1, List.mem_range]
  omega

theorem nodup_shutdownOrder (n a : ℕ) : (shutdownOrder n a).Nodup := by
  apply List.Nodup.append (List.nodup_range' ..) List.nodup_range
  intro j hj hj'
  rw [List.mem_range'_1] at hj
  rw [List.mem_range] at hj'
  omega

/-- The two loops of `lzo_wclose` go once round the pool. -/
theorem shutdownOrder_eq {a : ℕ} (ha : a < n) :
    shutdownOrder n a = (List.range n).map fun k => (a + k) % n := by
  apply List.ext_getElem
  · simp only [shutdownOrder, List.length_append, List.length_range', List.length_range,
      List.length_map]
    omega
  · intro i hi hi'
    rw [List.length_map, List.length_range] at hi'
    simp only [shutdownOrder, List.getElem_map, List.getElem_range]
    by_cases hfirst : i < n - a
    · rw [List.getElem_append_left (by rwa [List.length_range']), List.getElem_range',
        Nat.mod_eq_of_lt (by omega)]
      omega
    · rw [List.getElem_append_right (by rw [List.length_range']; omega), List.getElem_range,
        List.length_range', Nat.mod_eq_sub_mod (by omega), Nat.mod_eq_of_lt (by omega)]
      omega

theorem shutdownOrder_mod (hn : 0 < n) (m : ℕ) :
    shutdownOrder n (m % n) = (List.range n).map fun k => (m + k) % n := by
  rw [shutdownOrder_eq (Nat.mod_lt m hn)]
  exact List.map_congr_left fun k _ => Nat.mod_add_mod m n k

theorem filterMap_cons_toList {α β : Type*} (f : α → Option β) (a : α) (l : List α) :
    (a :: l).filterMap f = (f a).toList ++ l.filterMap f := by
  rw [List.filterMap_cons]
  cases f a <;> rfl

/-- The slots of a pool that collects nothing hold the last blocks. -/
theorem filterMap_contentAt (n : ℕ) (bs : List (List Byte)) :
    (List.range n).filterMap (fun k => (contentAt n bs [] k).block) = bs.drop (bs.length - n) := by
  have hat : ∀ k, contentAt n bs [] k =
      if n ≤ bs.length + k then .holding (bs.getD (bs.length + k - n) []) else .filling [] :=
    fun k => if_neg fun hne => hne.2 rfl
  -- the slots that have not been used, and the others
  have hsplit : List.range n =
      List.range (n - bs.length) ++ (List.range (min n bs.length)).map (n - bs.length + ·) := by
    rw [← List.range_add]
    congr 1
    omega
  have hunused : (List.range (n - bs.length)).filterMap
      (fun k => (contentAt n bs [] k).block) = [] := by
    rw [List.filterMap_eq_nil_iff]
    intro k hk
    rw [List.mem_range] at hk
    rw [hat, if_neg (by omega)]
    rfl
  rw [hsplit, List.filterMap_append, hunused, List.nil_append, List.filterMap_map]
  have hused : ∀ i, i ∈ List.range (min n bs.length) →
      ((fun k => (contentAt n bs [] k).block) ∘ (n - bs.length + ·)) i =
        some (bs.getD (bs.length - n + i) []) := by
    intro i hi
    rw [List.mem_range] at hi
    have hindex : bs.length + (n - bs.length + i) - n = bs.length - n + i := by omega
    simp only [Function.comp_apply]
    rw [hat, if_pos (by omega), hindex]
    rfl
  rw [List.filterMap_congr hused, ← Function.comp_def some, List.filterMap_eq_map]
  apply List.ext_getElem
  · simp only [List.length_map, List.length_range, List.length_drop]
    omega
  · intro i hi hi'
    rw [List.length_drop] at hi'
    rw [List.getElem_map, List.getElem_range, List.getElem_drop, List.getD_eq_getElem?_getD,
      List.getElem?_eq_getElem (by omega), Option.getD_some]

/-- Shut down from the next slot on, the pool gives its blocks in order. -/
theorem filterMap_shutdownOrder (hn : 0 < n)
    (hC : ∀ k, k < n → C ((bs.length + k) % n) = contentAt n bs [] k) :
    (shutdownOrder n (bs.length % n)).filterMap (fun j => (C j).block) =
      bs.drop (bs.length - n) := by
  rw [shutdownOrder_mod hn, List.filterMap_map, ← filterMap_contentAt]
  apply List.filterMap_congr
  intro k hk
  rw [Function.comp_apply, hC k (List.mem_range.mp hk)]

/-- Shut down from the slot behind the next one on, a pool whose slots are all used gives its
oldest block last. -/
theorem filterMap_shutdownOrder_succ (hn : 0 < n)
    (hC : ∀ k, k < n → C ((bs.length + k) % n) = contentAt n bs [] k) :
    bs.take (bs.length - n) ++
      (shutdownOrder n ((bs.length + 1) % n)).filterMap (fun j => (C j).block) =
        closeOrder n bs [] := by
  obtain ⟨m, rfl⟩ : ∃ m, n = m + 1 := ⟨n - 1, by omega⟩
  set g : ℕ → Option (List Byte) := fun k => (contentAt (m + 1) bs [] k).block with hg
  set behind := (List.range m).filterMap (g ∘ Nat.succ) with hbehind
  have hwhole : bs.drop (bs.length - (m + 1)) = (g 0).toList ++ behind := by
    rw [← filterMap_contentAt, List.range_succ_eq_map, filterMap_cons_toList, List.filterMap_map]
  have horder : (shutdownOrder (m + 1) ((bs.length + 1) % (m + 1))).filterMap
      (fun j => (C j).block) = behind ++ (g 0).toList := by
    have hlast : (bs.length + 1 + m) % (m + 1) = (bs.length + 0) % (m + 1) := by
      rw [show bs.length + 1 + m = bs.length + 0 + (m + 1) by omega, Nat.add_mod_right]
    rw [shutdownOrder_mod hn, List.filterMap_map, List.range_succ, List.filterMap_append]
    congr 1
    · apply List.filterMap_congr
      intro k hk
      rw [List.mem_range] at hk
      rw [Function.comp_apply, Function.comp_apply,
        show bs.length + 1 + k = bs.length + (k + 1) by omega, hC (k + 1) (by omega)]
    · rw [filterMap_cons_toList, List.filterMap_nil, List.append_nil, Function.comp_apply, hlast,
        hC 0 hn]
  have hfirst : g 0 =
      if m + 1 ≤ bs.length then some (bs.getD (bs.length - (m + 1)) []) else none := by
    show (contentAt (m + 1) bs [] 0).block = _
    rw [contentAt, if_neg fun hne => hne.2 rfl]
    simp only [Nat.add_zero]
    by_cases hfull : m + 1 ≤ bs.length
    · rw [if_pos hfull, if_pos hfull]
      rfl
    · rw [if_neg hfull, if_neg hfull]
      rfl
  rw [horder, closeOrder, if_neg fun hne => hne rfl]
  split
  · next hfull =>
    rw [if_pos hfull] at hfirst
    rw [hwhole, hfirst]
    show _ = _ ++ (_ :: behind).rotate (0 + 1)
    rw [List.rotate_cons_succ, List.rotate_zero]
    rfl
  · next hfew =>
    rw [if_neg hfew] at hfirst
    rw [hfirst] at hwhole ⊢
    rw [Nat.sub_eq_zero_of_le (by omega)] at hwhole ⊢
    rw [List.take_zero, List.nil_append, Option.toList_none, List.append_nil]
    exact hwhole.symm

end Order

/-! ## Shutting down -/

/-- The threads of `pending` are still to be shut down. -/
structure Draining (lib : Lzo) (header all : List Byte) (s : State) (C : ℕ → Content)
    (pending : List ℕ) : Prop where
  blocks : ∃ bs part done, Cut all bs part ∧ s.child = written lib header done ∧
    done ++ pending.filterMap (fun j => (C j).block) = closeOrder s.threads bs part
  nodup : pending.Nodup
  lt : ∀ j ∈ pending, j < s.threads
  collected : ∀ j, j < s.threads → ∀ part, C j = .filling part → part = []

section Shutdown

variable {lib : Lzo} {header all part : List Byte} {bs : List (List Byte)} {s t : State}
  {C : ℕ → Content} {i : ℕ} {is : List ℕ}

/-- Only the next slot collects data. -/
theorem collected_of_contentAt {n m : ℕ} (hn : 0 < n)
    (hC : ∀ k, k < n → C ((m + k) % n) = contentAt n bs [] k) {j : ℕ} (hj : j < n)
    {q : List Byte} (hq : C j = .filling q) : q = [] := by
  have hmem : j ∈ shutdownOrder n (m % n) := mem_shutdownOrder.mpr (lt_max_of_lt_left hj)
  rw [shutdownOrder_mod hn, List.mem_map] at hmem
  obtain ⟨k, hk, rfl⟩ := hmem
  rw [hC k (List.mem_range.mp hk), contentAt, if_neg fun hne => hne.2 rfl] at hq
  split at hq
  · contradiction
  · exact (Content.filling.inj hq).symm

/-- `lzo_wclose` up to the first `shutdown_thread`. -/
theorem lzoWclose_draining (hC : Contains lib s C) (h : Filling lib header s C bs part)
    (hcut : Cut all bs part) :
    ∃ i is C', (lzoWclose s).main = .shutdown i is ∧ (lzoWclose s).threads = s.threads ∧
      (lzoWclose s).aborted = s.aborted ∧ Contains lib (lzoWclose s) C' ∧
      Draining lib header all (lzoWclose s) C' (i :: is) := by
  have hpos := h.pos
  have hnext : s.nextThread < s.threads := h.next ▸ Nat.mod_lt _ hpos
  have hslot : Holds lib s.next (C s.nextThread) := hC _ hnext
  set a := (s.nextThread + 1) % s.threads with ha
  have ha' : a = (bs.length + 1) % s.threads := by rw [ha, h.next, Nat.mod_add_mod]
  obtain ⟨i, is, horder⟩ : ∃ i is, shutdownOrder s.threads a = i :: is := by
    apply List.exists_cons_of_ne_nil
    intro hnil
    have : 0 ∈ shutdownOrder s.threads a := mem_shutdownOrder.mpr (lt_max_of_lt_left hpos)
    rw [hnil] at this
    contradiction
  have hlt : ∀ j ∈ shutdownOrder s.threads a, j < s.threads := by
    intro j hj
    have hmod := Nat.mod_lt (s.nextThread + 1) hpos
    have := mem_shutdownOrder.mp hj
    omega
  have hnodup := nodup_shutdownOrder s.threads a
  unfold lzoWclose
  rw [if_neg (by omega)]
  simp only [← ha, horder, shutdownNext]
  rw [horder] at hlt hnodup
  by_cases hpart : part = []
  · -- no block has been begun
    subst hpart
    have hkeep : ¬ (s.next.state = .empty ∧ s.next.inbuf ≠ []) := by
      rintro ⟨hempty, hin⟩
      have hc := hslot.of_empty hempty
      rw [h.front] at hc
      exact hin (contentAt_filling hc).1
    rw [if_neg hkeep]
    have hround : ∀ k, k < s.threads → C ((bs.length + k) % s.threads) =
        contentAt s.threads bs [] k := by
      intro k hk
      rcases Nat.eq_zero_or_pos k with rfl | hk'
      · rw [Nat.add_zero, ← h.next]
        exact h.front
      · exact h.behind k hk' hk
    refine ⟨i, is, C, rfl, rfl, rfl, hC, ?_, hnodup, hlt, fun j hj q hq =>
      collected_of_contentAt hpos hround hj hq⟩
    refine ⟨bs, [], bs.take (bs.length - s.threads), hcut, ?_, ?_⟩
    · rw [h.child, if_pos rfl, Nat.add_zero]
    · rw [← horder, ha']
      exact filterMap_shutdownOrder_succ hpos hround
  · -- the last block is handed over
    have hc : C s.nextThread = .filling part := by
      rw [h.front, contentAt, if_pos ⟨rfl, hpart⟩]
    rw [hc] at hslot
    have hblock : IsBlock part :=
      ⟨List.length_pos_iff.mpr hpart, hcut.part_lt.le⟩
    rw [if_pos ⟨hslot.1, hslot.2 ▸ hpart⟩]
    set C' := Function.update C s.nextThread (.holding part) with hC'
    have hround : ∀ k, k < s.threads →
        C' (((bs ++ [part]).length + k) % s.threads) =
          contentAt s.threads (bs ++ [part]) [] k := by
      have hadvance := h.behind.advance (b := part)
      rw [← h.next, ← hC'] at hadvance
      intro k hk
      rw [List.length_append, List.length_singleton]
      exact hadvance k hk
    refine ⟨i, is, C', rfl, rfl, rfl, ?_, ?_, hnodup, hlt, fun j hj q hq =>
      collected_of_contentAt hpos hround hj hq⟩
    · exact hC.setThread (Holds.signalInReady ⟨hblock, hslot.2, .inl rfl⟩)
    · refine ⟨bs, part, bs.take (bs.length + 1 - s.threads), hcut, ?_, ?_⟩
      · show s.child = _
        rw [h.child, if_neg hpart]
      · have hlen : (bs ++ [part]).length = bs.length + 1 := by simp
        have htake : (bs ++ [part]).take (bs.length + 1 - s.threads) =
            bs.take (bs.length + 1 - s.threads) := List.take_append_of_le_length (by omega)
        show _ = closeOrder s.threads bs part
        rw [← horder, ha', ← hlen, filterMap_shutdownOrder hpos hround, closeOrder, if_pos hpart,
          hlen, ← htake, List.take_append_drop]

/-- A section of `shutdown_thread`: the caller's thread waits for the slot, or the slot is
written and the thread told to end. -/
theorem shutdownSection_draining (hC : Contains lib s C)
    (h : Draining lib header all s C (i :: is)) :
    shutdownSection s i is = { s with main := .waitShutdown i is false } ∨
      ∃ C', (shutdownSection s i is).main = .joining i is ∧
        (shutdownSection s i is).threads = s.threads ∧
        (shutdownSection s i is).aborted = s.aborted ∧
        Contains lib (shutdownSection s i is) C' ∧
        Draining lib header all (shutdownSection s i is) C' is := by
  obtain ⟨bs, part, done, hcut, hchild, horder⟩ := h.blocks
  have hi : i < s.threads := h.lt i (List.mem_cons_self ..)
  have hslot := hC i hi
  obtain ⟨hnot, hnodup⟩ := List.nodup_cons.mp h.nodup
  unfold shutdownSection
  simp only
  cases hstate : (s.thread i).state with
  | waiting => exact .inl (if_pos rfl)
  | full =>
    right
    obtain ⟨b, hc, hb, hout⟩ := hslot.of_full hstate
    rw [if_neg (by decide), if_pos rfl, if_pos rfl, if_pos rfl]
    refine ⟨Function.update C i (.filling []), rfl, rfl, rfl, ?_, ?_, hnodup,
      fun j hj => h.lt j (List.mem_cons_of_mem _ hj), ?_⟩
    · exact Contains.setThread (s := s.wwrite (s.thread i).outbuf) hC
        (Holds.signalInReady ⟨rfl, rfl⟩)
    · refine ⟨bs, part, done ++ [b], hcut, ?_, ?_⟩
      · show s.child ++ [.wwrite (s.thread i).outbuf] = _
        rw [hchild, written_append, hout]
        rfl
      · have hsame : is.filterMap (fun j => (Function.update C i (.filling []) j).block) =
            is.filterMap fun j => (C j).block := by
          apply List.filterMap_congr
          intro j hj
          have hij : j ≠ i := fun hij => hnot (hij ▸ hj)
          rw [Function.update_of_ne hij]
        rw [filterMap_cons_toList, hc] at horder
        rw [hsame, List.append_assoc]
        exact horder
    · intro j hj q hq
      by_cases hij : j = i
      · rw [hij, Function.update_self] at hq
        exact (Content.filling.inj hq).symm
      · rw [Function.update_of_ne hij] at hq
        exact h.collected j hj q hq
  | empty =>
    right
    have hc := hslot.of_empty hstate
    have hin := h.collected i hi _ hc
    have hfull : ¬ SlotState.empty = .full := by decide
    rw [if_neg (by decide)]
    simp only [if_neg hfull]
    rw [if_pos hin]
    refine ⟨C, rfl, rfl, rfl, ?_, ?_, hnodup, fun j hj => h.lt j (List.mem_cons_of_mem _ hj),
      h.collected⟩
    · apply Contains.setThread_same hC
      exact Holds.signalInReady (hslot.congr rfl rfl rfl)
    · refine ⟨bs, part, done, hcut, hchild, ?_⟩
      rw [filterMap_cons_toList, hc] at horder
      exact horder

end Shutdown

end Wandio.LzoWriter
