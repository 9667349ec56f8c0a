import Mathlib.Data.List.Basic
import Mathlib.Data.Nat.ModEq

/-!
# Ring buffers read as queues

A ring of `n` slots is a function on slot numbers; the queue it holds starts at position
`head` and has `k ≤ n` entries. Positions count up for ever and are reduced modulo `n` only
to find a slot, so the `i`-th entry lives in slot `(head + i) % n`.

* `window ring n head k` is the queue, oldest entry first;
* `window_succ` and `window_cons` are the two ways to take it apart (newest, oldest);
* `slot_ne` says that positions closer than `n` have different slots, and
  `window_update` that writing outside the queue leaves it alone.
-/

namespace Wandio.RingBuffer

variable {α β : Type*}

/-- The `k` entries from position `head` on, in the order of their positions. -/
def window (ring : ℕ → α) (n head k : ℕ) : List α :=
  (List.range k).map fun j => ring ((head + j) % n)

@[simp] theorem length_window (ring : ℕ → α) (n head k : ℕ) :
    (window ring n head k).length = k := by simp [window]

@[simp] theorem window_zero (ring : ℕ → α) (n head : ℕ) : window ring n head 0 = [] := rfl

/-- The newest entry of the queue is its last one. -/
theorem window_succ (ring : ℕ → α) (n head k : ℕ) :
    window ring n head (k + 1) = window ring n head k ++ [ring ((head + k) % n)] := by
  simp [window, List.range_succ]

/-- The oldest entry of the queue is its first one. -/
theorem window_cons (ring : ℕ → α) (n head k : ℕ) :
    window ring n head (k + 1) = ring (head % n) :: window ring n (head + 1) k := by
  simp only [window, List.range_succ_eq_map, List.map_cons, List.map_map, Nat.add_zero]
  congr 1
  refine List.map_congr_left fun j _ => ?_
  simp only [Function.comp_apply]
  congr 2
  omega

theorem mem_window {ring : ℕ → α} {n head k : ℕ} {x : α} :
    x ∈ window ring n head k ↔ ∃ j, j < k ∧ ring ((head + j) % n) = x := by
  simp [window]

/-- Two rings that agree on the slots of the queue hold the same queue. -/
theorem window_congr {ring ring' : ℕ → α} {n head k : ℕ}
    (h : ∀ j, j < k → ring ((head + j) % n) = ring' ((head + j) % n)) :
    window ring n head k = window ring' n head k := by
  refine List.map_congr_left fun j hj => h j ?_
  simpa using hj

/-- Positions closer than `n` to each other lie in different slots. -/
theorem slot_ne (n head : ℕ) {i j : ℕ} (hij : i < j) (hj : j < i + n) :
    (head + i) % n ≠ (head + j) % n := by
  intro h
  have hmod : head + i ≡ head + j [MOD n] := h
  have hdvd : n ∣ (head + j) - (head + i) := (Nat.modEq_iff_dvd' (by omega)).mp hmod
  have hle : n ≤ (head + j) - (head + i) := Nat.le_of_dvd (by omega) hdvd
  omega

/-- `slot_ne` without an order on the two positions. -/
theorem slot_ne' (n head : ℕ) {i j : ℕ} (hi : i < n) (hj : j < n) (hij : i ≠ j) :
    (head + i) % n ≠ (head + j) % n := by
  rcases Nat.lt_or_gt_of_ne hij with h | h
  · exact slot_ne n head h (by omega)
  · exact (slot_ne n head h (by omega)).symm

/-- Writing the slot at distance `i` leaves the slot at distance `j ≠ i` alone. -/
theorem update_slot_ne (ring : ℕ → α) {n head i j : ℕ} (x : α) (hi : i < n) (hj : j < n)
    (hij : j ≠ i) :
    Function.update ring ((head + i) % n) x ((head + j) % n) = ring ((head + j) % n) :=
  Function.update_of_ne (slot_ne' n head hj hi hij) _ _

/-- Writing a slot behind the queue leaves the queue alone. -/
theorem window_update (ring : ℕ → α) {n head k i : ℕ} (x : α) (hk : k ≤ i) (hi : i < n) :
    window (Function.update ring ((head + i) % n) x) n head k = window ring n head k :=
  window_congr fun _ hj => update_slot_ne ring x hi (by omega) (by omega)

/-- Writing the oldest slot leaves the rest of the queue alone. -/
theorem window_tail_update (ring : ℕ → α) {n head k : ℕ} (x : α) (hk : k < n) :
    window (Function.update ring (head % n) x) n (head + 1) k = window ring n (head + 1) k := by
  refine window_congr fun j hj => Function.update_of_ne ?_ _ _
  have h := slot_ne n head (i := 0) (j := j + 1) (by omega) (by omega)
  have hadd : head + 1 + j = head + (j + 1) := by omega
  rw [hadd]
  exact h.symm

end Wandio.RingBuffer
