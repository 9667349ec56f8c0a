import Mathlib.Data.List.Basic
import Mathlib.Order.MinMax

/-!
# Input windows

A reader that keeps what it has read ahead in an array has two offsets: what lies between them is
still to be consumed. `Holds` says what lies there, and `Tracks` that it is the part of a stream
that has been read and not yet been consumed. There is a rule for every way to move the offsets.
-/

namespace Wandio.InputWindow

variable {β : Type*}

/-- In an array of `size` cells, of which `inbuf` has been written, `unread` lies between `start`
and `stop`. -/
structure Holds (size : ℕ) (inbuf : List β) (start stop : ℕ) (unread : List β) : Prop where
  start_le : start ≤ stop
  stop_le : stop ≤ size
  written : stop ≤ inbuf.length
  segment : (inbuf.drop start).take (stop - start) = unread

section Holds

variable {size start stop : ℕ} {inbuf inbuf' unread data : List β}

theorem Holds.empty (size : ℕ) (inbuf : List β) : Holds size inbuf 0 0 [] :=
  ⟨le_rfl, Nat.zero_le _, Nat.zero_le _, rfl⟩

/-- There are as many unread bytes as lie between the two indices. -/
theorem Holds.length_unread (h : Holds size inbuf start stop unread) :
    unread.length = stop - start := by
  have hwritten := h.written
  rw [← h.segment, List.length_take, List.length_drop]
  omega

/-- The unread part is moved to the front. -/
theorem Holds.compact (h : Holds size inbuf start stop unread)
    (hmove : inbuf'.take unread.length = unread) : Holds size inbuf' 0 (stop - start) unread := by
  have hlen := h.length_unread
  have hstop := h.stop_le
  have hwritten : unread.length ≤ inbuf'.length := by
    rw [← hmove, List.length_take]
    exact (min_le_right _ _).trans (by simp)
  constructor
  · exact Nat.zero_le _
  · omega
  · omega
  · rw [List.drop_zero, Nat.sub_zero, ← hlen]
    exact hmove

/-- What is copied behind the unread part is unread, too. -/
theorem Holds.fill (h : Holds size inbuf start stop unread) (hroom : stop + data.length ≤ size)
    (hcopy : inbuf'.take (stop + data.length) = inbuf.take stop ++ data) :
    Holds size inbuf' start (stop + data.length) (unread ++ data) := by
  have hstart := h.start_le
  have hlen : (inbuf.take stop).length = stop := by
    rw [List.length_take, Nat.min_eq_left h.written]
  constructor
  · omega
  · exact hroom
  · have hle : (inbuf'.take (stop + data.length)).length ≤ inbuf'.length := List.length_take_le' _ _
    rw [hcopy, List.length_append, hlen] at hle
    exact hle
  · rw [← List.drop_take, hcopy, List.drop_append_of_le_length (by omega), List.drop_take,
      h.segment]

/-- The first `n` unread elements are consumed. -/
theorem Holds.consume {n : ℕ} (h : Holds size inbuf start stop unread) (hn : n ≤ unread.length) :
    Holds size inbuf (start + n) stop (unread.drop n) := by
  have hlen := h.length_unread
  have hstart := h.start_le
  constructor
  · omega
  · exact h.stop_le
  · exact h.written
  · rw [← h.segment, List.drop_take, List.drop_drop, Nat.sub_sub]

end Holds

/-- The array holds what has been `delivered` of a stream, but for the first `taken` elements. -/
structure Tracks (size : ℕ) (inbuf : List β) (start stop : ℕ) (delivered : List β) (taken : ℕ) :
    Prop where
  taken_le : taken ≤ delivered.length
  holds : Holds size inbuf start stop (delivered.drop taken)

section Tracks

variable {size start stop taken : ℕ} {inbuf inbuf' delivered data : List β}

theorem Tracks.empty (size : ℕ) (inbuf : List β) : Tracks size inbuf 0 0 [] 0 :=
  ⟨le_rfl, .empty size inbuf⟩

/-- With nothing unread the offsets may be anywhere. -/
theorem Tracks.reset (h : Tracks size inbuf start stop delivered taken)
    (hempty : stop - start = 0) :
    Tracks size inbuf 0 0 delivered taken := by
  have hnone : delivered.drop taken = [] := by
    rw [← List.length_eq_zero_iff, h.holds.length_unread]
    exact hempty
  refine ⟨h.taken_le, ?_⟩
  rw [hnone]
  exact .empty size inbuf

/-- Moving the unread bytes to the front keeps them. -/
theorem Tracks.compact (h : Tracks size inbuf start stop delivered taken)
    (hmove : inbuf'.take (stop - start) = (inbuf.drop start).take (stop - start)) :
    Tracks size inbuf' 0 (stop - start) delivered taken := by
  refine ⟨h.taken_le, h.holds.compact ?_⟩
  rw [h.holds.length_unread, hmove, h.holds.segment]

/-- New bytes go behind the unread ones. -/
theorem Tracks.fill (h : Tracks size inbuf start stop delivered taken)
    (hroom : stop + data.length ≤ size)
    (hcopy : inbuf'.take (stop + data.length) = inbuf.take stop ++ data) :
    Tracks size inbuf' start (stop + data.length) (delivered ++ data) taken := by
  have hle := h.taken_le
  refine ⟨hle.trans (by simp), ?_⟩
  rw [List.drop_append_of_le_length hle]
  exact h.holds.fill hroom hcopy

/-- Bytes are taken from the front. -/
theorem Tracks.consume {n : ℕ} (h : Tracks size inbuf start stop delivered taken)
    (hn : n ≤ stop - start) : Tracks size inbuf (start + n) stop delivered (taken + n) := by
  have hle := h.taken_le
  have hlen := h.holds.length_unread
  have hconsume := h.holds.consume (hn.trans hlen.ge)
  rw [List.drop_drop] at hconsume
  rw [List.length_drop] at hlen
  exact ⟨by omega, hconsume⟩

end Tracks

end Wandio.InputWindow
