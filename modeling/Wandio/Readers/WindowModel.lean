import Wandio.Interface
import Wandio.Utils.InputWindow
import Wandio.Utils.Loop

/-!
# What a reader has read ahead

The parents of the readers with an input window, and how the readers move their windows.
-/

namespace Wandio.Readers

open InputWindow Loop

variable {α ρ σ : Type*}

/-- A reader that returns some of the bytes it is asked for, none at the end, or an error. -/
structure ShortSource (σ : Type*) extends Source σ where
  returns : ∀ s n, (read s n).1.ret = (read s n).1.data.length ∧ (read s n).1.data.length ≤ n ∨
    -2 ^ 31 ≤ (read s n).1.ret ∧ (read s n).1.ret < 0

/-- A reader over a byte string is one. -/
def shortSource (parent : ByteSource σ) : ShortSource σ where
  toSource := parent.toSource
  returns s n := by
    left
    rcases Nat.eq_zero_or_pos n with rfl | hpos
    · rw [(parent.read_zero s).1]
      exact ⟨rfl, le_rfl⟩
    · obtain ⟨data, t, hread, hle, -⟩ := parent.read_spec s hpos
      rw [hread]
      exact ⟨rfl, hle⟩

/-- A reader that remembers the bytes it has returned, and otherwise is the same. -/
def ShortSource.logged (parent : ShortSource σ) : ShortSource (σ × List Byte) where
  read c n :=
    let r := parent.read c.1 n
    (r.1, (r.2, c.2 ++ if r.1.ret < 0 then [] else r.1.data))
  returns c := parent.returns c.1

/-- What is returned is an `int`, and no more than asked for. -/
theorem read_ret (parent : ShortSource σ) (c : σ) {n : ℕ} (hn : n < 2 ^ 31) :
    cInt (parent.read c n).1.ret = (parent.read c n).1.ret ∧ (parent.read c n).1.ret ≤ n := by
  rcases parent.returns c n with ⟨hlen, hle⟩ | ⟨hlow, hneg⟩
  · refine ⟨cInt_of_range ?_ ?_, ?_⟩ <;> omega
  · exact ⟨cInt_of_range hlow (by omega), by omega⟩

section Windows

variable {size start stop taken : ℕ} {inbuf delivered : List Byte}

/-- `memmove` to the front -/
theorem tracks_memmove (h : Tracks size inbuf start stop delivered taken) :
    Tracks size (memcpyAt inbuf 0 ((inbuf.drop start).take (stop - start))) 0 (stop - start)
      delivered taken := by
  apply h.compact
  have htake : (memcpyAt inbuf 0 ((inbuf.drop start).take (stop - start))).take
      (0 + ((inbuf.drop start).take (stop - start)).length) =
        inbuf.take 0 ++ (inbuf.drop start).take (stop - start) := take_memcpyAt _ (Nat.zero_le _)
  rw [h.holds.segment, h.holds.length_unread, Nat.zero_add, List.take_zero, List.nil_append]
    at htake
  rw [h.holds.segment]
  exact htake

/-- The parent is read: the window is longer by what it has returned. -/
theorem tracks_read (parent : ShortSource σ) {c : σ × List Byte} (hsize : size < 2 ^ 31)
    (h : Tracks size inbuf start stop c.2 taken) :
    Tracks size (memcpyAt inbuf stop (parent.logged.read c (size - stop)).1.data) start
      (stop + (cInt (parent.logged.read c (size - stop)).1.ret).toNat)
      (parent.logged.read c (size - stop)).2.2 taken := by
  have hret : cInt (parent.logged.read c (size - stop)).1.ret =
      (parent.read c.1 (size - stop)).1.ret := (read_ret parent c.1 (by omega)).1
  rw [hret]
  show Tracks size (memcpyAt inbuf stop (parent.read c.1 (size - stop)).1.data) start
    (stop + (parent.read c.1 (size - stop)).1.ret.toNat)
      (c.2 ++ if (parent.read c.1 (size - stop)).1.ret < 0 then []
        else (parent.read c.1 (size - stop)).1.data) taken
  rcases parent.returns c.1 (size - stop) with ⟨hlen, hle⟩ | ⟨_, hneg⟩
  · have hstop := h.holds.stop_le
    rw [hlen, Int.toNat_natCast, if_neg (by omega)]
    exact h.fill (by omega) (take_memcpyAt _ h.holds.written)
  · -- what lies behind the window does not matter
    have hlen : (inbuf.take stop).length = stop := by
      rw [List.length_take, Nat.min_eq_left h.holds.written]
    rw [Int.toNat_of_nonpos hneg.le, if_pos hneg]
    refine @Tracks.fill _ _ _ _ _ _ _ _ [] h h.holds.stop_le ?_
    rw [List.append_nil, List.length_nil, Nat.add_zero, memcpyAt, List.append_assoc,
      List.take_append_of_le_length (by omega), List.take_of_length_le (by omega)]

end Windows

/-! ## The loop that fills the array -/

/-- How it ends when a parent is read for what is missing of an array. -/
inductive FillEnd where
  | full
  | ended
  | failed

/-- The parent, in state `c`, is read for what is missing of `size` bytes when `stop` are there:
again and again, until nothing is missing, it returns 0 or it fails. Then `stop'` bytes are there,
and the parent is in state `c'`. -/
inductive Asked (parent : Source σ) (size : ℕ) : ℕ → σ → FillEnd → ℕ → σ → Prop where
  | failed {stop : ℕ} {c : σ} (h : (parent.read c (size - stop)).1.ret < 0) :
      Asked parent size stop c .failed stop (parent.read c (size - stop)).2
  | ended {stop : ℕ} {c : σ} (h : (parent.read c (size - stop)).1.ret = 0) :
      Asked parent size stop c .ended stop (parent.read c (size - stop)).2
  | full {stop : ℕ} {c : σ} (hpos : 0 < (parent.read c (size - stop)).1.ret)
      (hfull : stop + (parent.read c (size - stop)).1.ret.toNat = size) :
      Asked parent size stop c .full size (parent.read c (size - stop)).2
  | more {stop stop' : ℕ} {c c' : σ} {how : FillEnd}
      (hpos : 0 < (parent.read c (size - stop)).1.ret)
      (hroom : stop + (parent.read c (size - stop)).1.ret.toNat < size)
      (h : Asked parent size (stop + (parent.read c (size - stop)).1.ret.toNat)
        (parent.read c (size - stop)).2 how stop' c') :
      Asked parent size stop c how stop' c'

/-- Where a loop that fills an array keeps what it works with, and what its results tell. -/
structure FillLoop (α ρ σ : Type*) where
  size : ℕ
  start : α → ℕ
  stop : α → ℕ
  source : α → σ
  /-- The program is in the loop. -/
  inside : α → Prop
  /-- The parent behind a result. -/
  left : ρ → σ
  err : ρ → ErrT

/-- How the loop is left from `l` on: with the array full, or as the parent has it. When the parent
fails, or ends with nothing unread, that is the end of the read as well. -/
inductive FillLeft (parent : Source σ) (v : FillLoop α ρ σ) (l : α) : α ⊕ ρ → Prop where
  | full {m : α} (h : Asked parent v.size (v.stop l) (v.source l) .full (v.stop m) (v.source m))
      (hstart : v.start m = v.start l) : FillLeft parent v l (.inl m)
  | ended {m : α} (h : Asked parent v.size (v.stop l) (v.source l) .ended (v.stop m) (v.source m))
      (hstart : v.start m = v.start l) (hunread : v.start m ≠ v.stop m) :
      FillLeft parent v l (.inl m)
  | nothing {r : ρ} (h : Asked parent v.size (v.stop l) (v.source l) .ended (v.start l) (v.left r))
      (herr : v.err r = .eof) : FillLeft parent v l (.inr r)
  | failed {r : ρ} (stop : ℕ)
      (h : Asked parent v.size (v.stop l) (v.source l) .failed stop (v.left r))
      (herr : v.err r = .error) : FillLeft parent v l (.inr r)

/-- A turn of such a loop reads the parent. The loop goes on if something has come and there is room
for more; the read ends if the parent has failed, or ended with nothing unread. -/
structure Fills (parent : Source σ) (v : FillLoop α ρ σ) (turn : α → Turn α ρ) : Prop where
  turn : ∀ l, v.inside l → (turn l).All
    (fun m =>
      (0 ≤ (parent.read (v.source l) (v.size - v.stop l)).1.ret ∧
        ((parent.read (v.source l) (v.size - v.stop l)).1.ret = 0 → v.start l ≠ v.stop l)) ∧
      v.start m = v.start l ∧
      v.stop m = v.stop l + (parent.read (v.source l) (v.size - v.stop l)).1.ret.toNat ∧
      v.source m = (parent.read (v.source l) (v.size - v.stop l)).2 ∧
      (v.inside m ↔
        (parent.read (v.source l) (v.size - v.stop l)).1.ret ≠ 0 ∧ v.stop m < v.size))
    (fun r =>
      v.left r = (parent.read (v.source l) (v.size - v.stop l)).2 ∧
      ((parent.read (v.source l) (v.size - v.stop l)).1.ret < 0 ∧ v.err r = .error ∨
        (parent.read (v.source l) (v.size - v.stop l)).1.ret = 0 ∧ v.start l = v.stop l ∧
          v.err r = .eof))

/-- The program stays at such a loop if something has come and there is room for more. -/
theorem fills_iff {point leaves stays : α} (hne : leaves ≠ stays) {ret : ℤ} {stop size : ℕ}
    (hpoint : point = if ret = 0 ∨ size ≤ stop then leaves else stays) :
    point = stays ↔ ret ≠ 0 ∧ stop < size := by
  rw [hpoint]
  split
  · next hlast =>
    refine ⟨fun h => absurd h hne, fun h => ?_⟩
    rcases hlast with hzero | hfull
    · exact absurd hzero h.1
    · exact absurd h.2 (not_lt.mpr hfull)
  · next hmore =>
    push Not at hmore
    exact ⟨fun _ => hmore, fun _ => rfl⟩

section Left

variable {parent : ShortSource σ} {v : FillLoop α ρ σ} {turn : α → Turn α ρ} {l m : α}

/-- In the loop: the reads of the parent from `l` on are those up to `m` and those from `m` on. -/
structure Amid (parent : Source σ) (v : FillLoop α ρ σ) (l m : α) : Prop where
  inside : v.inside m
  start_eq : v.start m = v.start l
  asked : ∀ how stop c, Asked parent v.size (v.stop m) (v.source m) how stop c →
    Asked parent v.size (v.stop l) (v.source l) how stop c

/-- A turn that ends the read. -/
theorem Amid.done (h : Amid parent.toSource v l m) (hfills : Fills parent.toSource v turn) {r : ρ}
    (hdone : turn m = .done r) : FillLeft parent.toSource v l (.inr r) := by
  have hall := hfills.turn m h.inside
  rw [hdone] at hall
  obtain ⟨hleft, ⟨hneg, herr⟩ | ⟨hzero, hempty, herr⟩⟩ := hall.of_done
  · refine .failed (v.stop m) ?_ herr
    rw [hleft]
    exact h.asked _ _ _ (.failed hneg)
  · refine .nothing ?_ herr
    rw [hleft, ← h.start_eq, hempty]
    exact h.asked _ _ _ (.ended hzero)

/-- A turn behind which the read goes on, in the loop or behind it. -/
theorem Amid.next (h : Amid parent.toSource v l m) (hfills : Fills parent.toSource v turn)
    (hsize : v.size < 2 ^ 31) {n : α} (hnext : turn m = .next n) :
    (Amid parent.toSource v l n ∧ v.size - v.stop n < v.size - v.stop m) ∨
      (¬ v.inside n ∧ FillLeft parent.toSource v l (.inl n) ∧
        v.size - v.stop n ≤ v.size - v.stop m) := by
  have hall := hfills.turn m h.inside
  rw [hnext] at hall
  obtain ⟨⟨hret, hunread⟩, hstart, hstop, hsource, hgoes⟩ := hall.of_next
  have hle := (read_ret parent (v.source m) ((Nat.sub_le v.size (v.stop m)).trans_lt hsize)).2
  have hfirst : v.start n = v.start l := hstart.trans h.start_eq
  by_cases hzero : (parent.read (v.source m) (v.size - v.stop m)).1.ret = 0
  · -- the parent has ended, and something is unread
    right
    rw [hzero, Int.toNat_zero, Nat.add_zero] at hstop
    refine ⟨fun hn => (hgoes.mp hn).1 hzero, .ended ?_ hfirst ?_, by rw [hstop]⟩
    · rw [hstop, hsource]
      exact h.asked _ _ _ (.ended hzero)
    · rw [hstart, hstop]
      exact hunread hzero
  · have hpos : 0 < (parent.read (v.source m) (v.size - v.stop m)).1.ret := by omega
    by_cases hroom : v.stop n < v.size
    · left
      refine ⟨⟨hgoes.mpr ⟨hzero, hroom⟩, hfirst, fun how stop c hasked => ?_⟩, by omega⟩
      rw [hstop, hsource] at hasked
      exact h.asked _ _ _ (.more hpos (hstop ▸ hroom) hasked)
    · right
      have hfull : v.stop n = v.size := by omega
      refine ⟨fun hn => hroom (hgoes.mp hn).2, .full ?_ hfirst, by omega⟩
      rw [hfull, hsource]
      exact h.asked _ _ _ (.full hpos (hstop ▸ hfull))

/-- The loop is left, whatever the parent does: every turn fills a part of the array, or is the
last one. -/
theorem Fills.left [DecidablePred v.inside] (hsize : v.size < 2 ^ 31)
    (h : Fills parent.toSource v turn) (l : α) (hl : v.inside l) :
    ∃ r, Yields (fun fuel => loop (part v.inside turn) fuel l) r ∧
      FillLeft parent.toSource v l r := by
  have hturn : ∀ m, v.inside m →
      (Amid parent.toSource v l m ∨
        ¬ v.inside m ∧ FillLeft parent.toSource v l (.inl m)) →
      (turn m).All
        (fun n => (Amid parent.toSource v l n ∨
            ¬ v.inside n ∧ FillLeft parent.toSource v l (.inl n)) ∧
          v.size - v.stop n + (if v.inside n then 1 else 0) <
            v.size - v.stop m + if v.inside m then 1 else 0)
        (fun r => FillLeft parent.toSource v l (.inr r)) := by
    intro m hm hor
    have hamid := hor.resolve_right fun hout => hout.1 hm
    cases hturn : turn m with
    | done r => exact .done (hamid.done h hturn)
    | next n =>
      apply Turn.All.next
      rw [if_pos hm]
      rcases hamid.next h hsize hturn with ⟨hn, hlt⟩ | ⟨hout, hleft, hle⟩
      · rw [if_pos hn.inside]
        exact ⟨.inl hn, by omega⟩
      · rw [if_neg hout]
        exact ⟨.inr ⟨hout, hleft⟩, by omega⟩
  obtain ⟨r, hr, hleft⟩ := part_total
    (fun m => v.size - v.stop m + if v.inside m then 1 else 0) hturn
    (.inl ⟨hl, rfl, fun _ _ _ hasked => hasked⟩)
  refine ⟨r, hr, ?_⟩
  cases r with
  | inl m => exact (hleft.1.resolve_left fun hm => hleft.2 hm.inside).2
  | inr q => exact hleft

end Left

end Wandio.Readers
