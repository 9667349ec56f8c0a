import Wandio.PeekReader.StepTheorems
import Wandio.Utils.Transition

/-!
# Errors of the child under the peeking reader

`peek_read` can meet an error when it has already copied bytes, which it then returns. A refill
leaves the error in `length`, for the next call; the read straight into the caller's memory
leaves nothing, so that the next call asks the child again.
-/

namespace Wandio.PeekReader

open Transition

variable {σ : Type*}

/-- The child together with the results of all its reads. -/
def recording (child : Source σ) : Source (σ × List ReadResult) where
  read s n :=
    let r := child.read s.1 n
    (r.1, (r.2, s.2 ++ [r.1]))

/-- Reads of at least one byte, over a child in state `c` whose results are kept. -/
def reads (child : Source σ) (c : σ) : System (State (σ × List ReadResult)) (ℕ × ℕ) where
  init := peekOpen (c, [])
  next s a :=
    if 0 < a.2 then (peekRead (recording child) a.1 a.2 s).map Prod.snd else none

/-- The reads that the child has made between two states. -/
def readsBetween (s t : State (σ × List ReadResult)) : List ReadResult :=
  t.child.2.drop s.child.2.length

/-- If a read of the child fails during the first of two calls, that call returns an error, or
the second one does and returns no bytes. -/
def Reported (child : Source σ) (a b : ℕ × ℕ) (s : State (σ × List ReadResult)) : Prop :=
  ∀ r t r' t', peekRead (recording child) a.1 a.2 s = some (r, t) →
    peekRead (recording child) b.1 b.2 t = some (r', t') →
    (∃ q ∈ readsBetween s t, q.ret < 0) → r.ret < 0 ∨ (r'.ret < 0 ∧ r'.data = [])

/-- What a `peek_read` asks the child for, when there is not enough in the buffer. -/
def asked (addr len : ℤ) (left length : ℤ) : ℕ :=
  if Aligned addr len left then (len - left).toNat else (refillAmount (len - left) length).toNat

/-- Behind bytes from the buffer, the rest of the first of two calls is read straight into the
caller's memory, and that read fails; but what the child is asked for next does not. -/
def Swallows (child : Source σ) (a b : ℕ × ℕ) (s : State (σ × List ReadResult)) : Prop :=
  0 < s.left ∧ s.left < a.2 ∧ Aligned a.1 a.2 s.left ∧
    (child.read s.child.1 (a.2 - s.left).toNat).1.ret < 0 ∧
    0 ≤ (child.read (child.read s.child.1 (a.2 - s.left).toNat).2
      (asked b.1 b.2 0 s.length)).1.ret

/-! ## The two calls -/

section Steps

variable {child : Source σ} {addr len : ℤ} {s t : State σ} {r : ReadResult}

/-- Once `length` is an error, it is returned. -/
theorem ReadMove.of_failed (h : ReadMove child addr len s r t) (herr : s.length < 0) :
    r = ⟨s.length, []⟩ ∧ t = s := by
  cases h with
  | sticky => exact ⟨rfl, rfl⟩
  | buffered hok => omega
  | direct hok => omega
  | directShort hok => omega
  | refill hok => omega
  | refillShort hok => omega

/-- With nothing in the buffer, a read fails if and only if the child's does. -/
theorem ReadMove.of_empty (h : ReadMove child addr len s r t) (hok : 0 ≤ s.length)
    (hempty : s.left = 0) (hlen : 0 < len) :
    (r.ret < 0 ↔ (child.read s.child (asked addr len 0 s.length)).1.ret < 0) ∧
      (r.ret < 0 → r.data = []) := by
  have hnil : s.window s.left = [] := by rw [hempty, window_zero]
  unfold asked
  cases h with
  | sticky herr => omega
  | buffered _ hle => omega
  | direct _ _ haligned hread hret =>
    rw [hempty] at haligned hread ⊢
    rw [if_pos haligned, hread]
    simp only
    omega
  | directShort _ _ haligned hread hret =>
    rw [hempty] at haligned hread
    rw [if_pos haligned, hread, hnil, hempty]
    exact ⟨Iff.rfl, fun _ => rfl⟩
  | refill _ _ haligned hread hret =>
    rw [hempty] at haligned hread ⊢
    rw [if_neg haligned, hread]
    simp only
    omega
  | refillShort _ _ haligned hread hret =>
    rw [hempty] at haligned hread
    rw [if_neg haligned, hread, hnil, hempty]
    exact ⟨Iff.rfl, fun _ => rfl⟩

end Steps

section Runs

variable {child : Source σ} {s t : State (σ × List ReadResult)} {r : ReadResult}

theorem readsBetween_self (s : State (σ × List ReadResult)) : readsBetween s s = [] :=
  List.drop_length ..

theorem readsBetween_freeDrained (s t : State (σ × List ReadResult)) :
    readsBetween s (freeDrained t) = readsBetween s t := by
  unfold readsBetween freeDrained
  split <;> rfl

/-- A read of the child puts its result behind the others. -/
theorem readsBetween_of_read {n : ℕ} {q : ReadResult} {c : σ × List ReadResult}
    (hread : (recording child).read s.child n = (q, c)) (hchild : t.child = c) :
    readsBetween s t = [q] ∧ child.read s.child.1 n = (q, c.1) := by
  have hq : (child.read s.child.1 n).1 = q := congrArg Prod.fst hread
  have hc : ((child.read s.child.1 n).2, s.child.2 ++ [(child.read s.child.1 n).1]) = c :=
    congrArg Prod.snd hread
  constructor
  · unfold readsBetween
    rw [hchild, ← hc, hq, List.drop_left]
  · rw [← hc, ← hq]

theorem wf_reads {c : σ} (h : Reachable (reads child c) s) : Wf s := by
  refine h.invariant (wf_peekOpen _) fun s a t hwf hs => ?_
  have hlen : (0 : ℤ) ≤ a.2 := Int.natCast_nonneg _
  obtain ⟨r, u, hread, hmove⟩ := readMove (recording child) (a.1 : ℤ) hwf hlen
  have hnext : (if 0 < a.2 then (peekRead (recording child) a.1 a.2 s).map Prod.snd else none) =
    some t := hs
  rw [hread] at hnext
  split at hnext
  · rw [← Option.some.inj hnext]
    exact hmove.wf hwf hlen
  · contradiction

/-- Two calls come to some result, and `Reported` is about that result. -/
theorem reported_iff {a b : ℕ × ℕ} {r' : ReadResult} {t' : State (σ × List ReadResult)}
    (hread : peekRead (recording child) a.1 a.2 s = some (r, t))
    (hread' : peekRead (recording child) b.1 b.2 t = some (r', t')) :
    Reported child a b s ↔
      ((∃ q ∈ readsBetween s t, q.ret < 0) → r.ret < 0 ∨ (r'.ret < 0 ∧ r'.data = [])) := by
  constructor
  · exact fun h => h r t r' t' hread hread'
  · intro h r₁ t₁ r₂ t₂ h₁ h₂
    rw [hread, Option.some_inj, Prod.mk.injEq] at h₁
    obtain ⟨rfl, rfl⟩ := h₁
    rw [hread', Option.some_inj, Prod.mk.injEq] at h₂
    obtain ⟨rfl, rfl⟩ := h₂
    exact h

/-- The two calls, by what the first one does. -/
theorem ReadMove.reported {a b : ℕ × ℕ} {r' : ReadResult} {t' : State (σ × List ReadResult)}
    (h : ReadMove (recording child) a.1 a.2 s r t)
    (h' : ReadMove (recording child) b.1 b.2 t r' t') (hwf : Wf s) (hb : 0 < b.2) :
    ((∃ q ∈ readsBetween s t, q.ret < 0) → r.ret < 0 ∨ (r'.ret < 0 ∧ r'.data = [])) ↔
      ¬ Swallows child a b s := by
  have hnonneg := hwf.offset_nonneg
  unfold Swallows
  cases h with
  | sticky herr =>
    rw [readsBetween_self]
    unfold State.left
    refine iff_of_true (by simp) fun hbad => ?_
    omega
  | buffered _ hle =>
    rw [readsBetween_freeDrained]
    refine iff_of_true ?_ fun hbad => ?_
    · rw [show readsBetween s { s with offset := s.offset + a.2 } = [] from List.drop_length ..]
      simp
    · omega
  | direct _ _ _ hread hret =>
    obtain ⟨hbetween, hchild⟩ :=
      readsBetween_of_read (t := { s with offset := s.length, child := _ }) hread rfl
    rw [readsBetween_freeDrained, hbetween, hchild]
    refine iff_of_true ?_ fun hbad => ?_
    · simp only [List.mem_singleton, exists_eq_left]
      omega
    · simp only at hbad
      omega
  | @directShort q d hok hmore haligned hread hret =>
    obtain ⟨hbetween, hchild⟩ :=
      readsBetween_of_read (t := { s with offset := s.length, child := d }) hread rfl
    rw [hbetween, hchild]
    simp only [List.mem_singleton, exists_eq_left]
    by_cases hbuffered : 0 < s.left
    · -- the error is gone, and the next call asks again
      rw [if_pos hbuffered]
      obtain ⟨hretry, hdata⟩ := h'.of_empty hok (Int.sub_self _) (by omega)
      have hretry : r'.ret < 0 ↔ (child.read d.1 (asked b.1 b.2 0 s.length)).1.ret < 0 := hretry
      constructor
      · rintro hreported ⟨-, -, -, hneg, hnext⟩
        rcases hreported hneg with hfirst | ⟨hsecond, -⟩
        · omega
        · rw [hretry] at hsecond
          omega
      · intro hswallows hneg
        have hfails : r'.ret < 0 := by
          rw [hretry]
          by_contra hnext
          exact hswallows ⟨hbuffered, hmore, haligned, hneg, not_lt.mp hnext⟩
        exact .inr ⟨hfails, hdata hfails⟩
    · rw [if_neg hbuffered]
      refine iff_of_true (fun hneg => .inl hneg) fun hbad => hbuffered hbad.1
  | @refill q d _ _ haligned hread hret =>
    obtain ⟨hbetween, -⟩ := readsBetween_of_read (s := s) (t := ⟨d, none, 0, 0⟩) hread rfl
    rw [readsBetween_freeDrained]
    refine iff_of_true (fun hneg => ?_) fun hbad => haligned hbad.2.2.1
    have hneg : ∃ q ∈ readsBetween s ⟨d, none, 0, 0⟩, q.ret < 0 := hneg
    rw [hbetween] at hneg
    simp only [List.mem_singleton, exists_eq_left] at hneg
    omega
  | @refillShort q d _ _ haligned hread hret =>
    obtain ⟨hbetween, -⟩ := readsBetween_of_read (s := s) (t := ⟨d, none, 0, 0⟩) hread rfl
    refine iff_of_true (fun hneg => ?_) fun hbad => haligned hbad.2.2.1
    have hneg : ∃ q ∈ readsBetween s ⟨d, none, 0, 0⟩, q.ret < 0 := hneg
    rw [hbetween] at hneg
    simp only [List.mem_singleton, exists_eq_left] at hneg
    -- the error is the new length
    obtain ⟨rfl, -⟩ := h'.of_failed hneg
    exact .inr ⟨hneg, rfl⟩

end Runs

/-- In every run of reads, whichever calls come next: a failed read of the child is reported by
the call that has made it or by the one behind it, if and only if that read was not made
straight into the caller's memory behind bytes from the buffer, or the next one fails too. -/
theorem child_error_reported (child : Source σ) (c : σ) (s : State (σ × List ReadResult))
    (h : Reachable (reads child c) s) (a b : ℕ × ℕ) (hb : 0 < b.2) :
    Reported child a b s ↔ ¬ Swallows child a b s := by
  have hwf := wf_reads h
  have hlen : (0 : ℤ) ≤ a.2 := Int.natCast_nonneg _
  obtain ⟨r, t, hread, hmove⟩ := readMove (recording child) (a.1 : ℤ) hwf hlen
  obtain ⟨r', t', hread', hmove'⟩ :=
    readMove (recording child) (b.1 : ℤ) (hmove.wf hwf hlen) (Int.natCast_nonneg b.2)
  rw [reported_iff hread hread']
  exact hmove.reported hmove' hwf hb

/-- A child that returns the results of a list, and then nothing more. -/
def scripted : Source (List ReadResult) where
  read s _ := (s.headD ⟨0, []⟩, s.tail)

/-- The child fails in the read that fills the buffer. -/
theorem child_error_reported_refill : ∃ s,
    Reachable (reads scripted [⟨2, [1, 2]⟩, ⟨-1, []⟩]) s ∧ s.left = 1 ∧
      Reported scripted (1, 10) (1, 1) s := by
  obtain ⟨s, hs, htest⟩ := exists_reachable_of_exec (reads scripted [⟨2, [1, 2]⟩, ⟨-1, []⟩])
    [(1, 1)] (fun s => s.left = 1) (by decide)
  have hleft : s.left = 1 := of_decide_eq_true htest
  refine ⟨s, hs, hleft,
    (child_error_reported scripted _ s hs (1, 10) (1, 1) (by decide)).mpr ?_⟩
  rintro ⟨-, -, haligned, -⟩
  rw [hleft] at haligned
  exact absurd haligned (by decide)

/-- The child fails in a read into the caller's memory behind one byte from the buffer: the
next call returns what the child returns then. -/
theorem child_error_swallowed : ∃ s,
    Reachable (reads scripted [⟨2, [1, 2]⟩, ⟨-1, []⟩, ⟨1, [3]⟩]) s ∧
      ¬ Reported scripted (4095, 4097) (1, 1) s := by
  obtain ⟨s, hs, htest⟩ := exists_reachable_of_exec
    (reads scripted [⟨2, [1, 2]⟩, ⟨-1, []⟩, ⟨1, [3]⟩]) [(1, 1)]
    (fun s => (peekRead (recording scripted) 4095 4097 s).any fun p =>
      (readsBetween s p.2).any (·.ret < 0) ∧ p.1.ret = 1 ∧
        (peekRead (recording scripted) 1 1 p.2).any fun q => q.1 = ⟨1, [3]⟩) (by decide)
  refine ⟨s, hs, fun hreported => ?_⟩
  obtain ⟨⟨r, t⟩, hread, htest⟩ := (Option.any_eq_true ..).mp htest
  obtain ⟨hfails, hret, htest⟩ := of_decide_eq_true htest
  obtain ⟨⟨r', t'⟩, hread', htest⟩ := (Option.any_eq_true ..).mp htest
  have hres : r' = ⟨1, [3]⟩ := of_decide_eq_true htest
  rcases hreported r t r' t' hread hread' (by simpa using hfails) with hneg | ⟨hneg, -⟩
  · rw [hret] at hneg
    contradiction
  · rw [hres] at hneg
    contradiction

end Wandio.PeekReader
