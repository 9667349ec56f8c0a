import Wandio.QatReader.Model

/-!
# The caller's buffer in qat_read

Every call of `qzDecompress` is given `len` bytes of room, however much the calls before it have
put into the buffer. The room is inside of the buffer as long as they have put nothing there.
-/

namespace Wandio.QatReader

open Codec Loop

variable {κ σ : Type*}

/-- A codec that remembers its answers, and otherwise is the same. -/
def Qatzip.recorded (qz : Qatzip κ) : Qatzip (Recorded κ Byte) where
  call r a input room :=
    let answer := qz.call r.state a input room
    { state := ⟨answer.state, r.answers ++ [(answer.output, answer.code)]⟩
      consumed := answer.consumed
      output := answer.output
      code := answer.code }
  consumed_le r := qz.consumed_le r.state
  output_le r := qz.output_le r.state
  ok := qz.ok
  bufError := qz.bufError
  dataError := qz.dataError

/-- In this turn `qzDecompress` is called. -/
def Calls (l : Locals κ σ) : Prop :=
  l.point = .decode ∧ 0 < cInt ↑(l.io.inoffset - l.io.indecomp)

/-- In a read of `len` bytes from `s` on, the window given to `qzDecompress` and what is written
are inside of the caller's buffer, and no more is returned than it has room for. -/
structure InsideBuffer (qz : Qatzip κ) (parent : Source σ) (len : ℕ) (s : State κ σ) : Prop where
  window : ∀ l, Visits (readTurn qz parent len) (.start s) l → Calls l →
    l.readsofar + dstLen len ≤ len
  written : ∀ l, Visits (readTurn qz parent len) (.start s) l → l.buffer.length ≤ len
  returned : ∀ fuel r t, qatRead qz parent len s fuel = some (r, t) →
    r.ret ≤ len ∧ r.data.length ≤ len

/-- Whenever `qzDecompress` is called, its calls in this read have put nothing out before. -/
def OutputLast (qz : Qatzip κ) (parent : Source σ) (len : ℕ) (s : State (Recorded κ Byte) σ) :
    Prop :=
  ∀ l, Visits (readTurn qz.recorded parent len) (.start s) l → Calls l →
    ∀ answer ∈ l.io.sess.answers.drop s.sess.answers.length, answer.1 = []

/-- `readsofar` is the length of what the calls of the read, which are `news`, have put out. -/
structure Filled (s : State (Recorded κ Byte) σ) (news : List (List Byte × ℤ))
    (l : Locals (Recorded κ Byte) σ) : Prop where
  answers : l.io.sess.answers = s.sess.answers ++ news
  buffer : l.buffer = news.flatMap Prod.fst
  readsofar : l.readsofar = l.buffer.length

section Turns

variable {qz : Qatzip κ} {parent : Source σ} {len : ℕ} {s : State (Recorded κ Byte) σ}
  {news : List (List Byte × ℤ)} {l m : Locals (Recorded κ Byte) σ}

theorem Filled.start (s : State (Recorded κ Byte) σ) : Filled s [] (.start s) :=
  ⟨(List.append_nil _).symm, rfl, rfl⟩

@[simp] theorem makeRoom_sess (s : State κ σ) : (makeRoom s).sess = s.sess := by
  unfold makeRoom
  simp only
  split
  · split
    · rfl
    · split <;> rfl
  · rfl

/-- The room of a call is what the buffer has when the read begins. -/
theorem dstLen_eq (hlen : len < 2 ^ 32) : dstLen len = len := cUInt_of_lt hlen

/-- A turn puts out nothing, or `qzDecompress` is called in it and its output goes behind what has
been put out. -/
theorem readTurn_next (h : Filled s news l) (hturn : readTurn qz.recorded parent len l = .next m) :
    Filled s news m ∨ Calls l ∧ ∃ answer : List Byte × ℤ, answer.1.length ≤ dstLen len ∧
      Filled s (news ++ [answer]) m := by
  unfold readTurn at hturn
  split at hturn
  · left
    unfold topTurn at hturn
    split at hturn
    · cases hturn
      exact ⟨by rw [← h.answers]; exact congrArg _ (makeRoom_sess _), h.buffer, h.readsofar⟩
    · cases hturn
  · left
    unfold fillTurn at hturn
    simp only at hturn
    split at hturn
    · cases hturn
    · split at hturn
      · cases hturn
      · cases hturn
        exact ⟨h.answers, h.buffer, h.readsofar⟩
  · next hpoint =>
    right
    unfold decodeTurn at hturn
    simp only at hturn
    split at hturn
    · cases hturn
    · next hrc =>
      split at hturn
      · cases hturn
        let a := qz.call l.io.sess.state ()
          ((window l.io).take (cUInt (l.io.inoffset - l.io.indecomp))) (dstLen len)
        refine ⟨⟨hpoint, not_le.mp hrc⟩, (a.output, a.code), qz.output_le _ _ _ _, ?_⟩
        have hcopy : ∀ out : List Byte, memcpyAt l.buffer l.readsofar out = l.buffer ++ out := by
          intro out
          rw [memcpyAt, h.readsofar, List.take_length, List.drop_eq_nil_of_le (by omega),
            List.append_nil]
        constructor
        · show l.io.sess.answers ++ [_] = _
          rw [h.answers, List.append_assoc]
        · show memcpyAt l.buffer l.readsofar _ = _
          rw [hcopy, h.buffer, List.flatMap_append, List.flatMap_singleton]
          rfl
        · show l.readsofar + _ = (memcpyAt l.buffer l.readsofar _).length
          rw [hcopy, List.length_append, h.readsofar]
      · cases hturn

/-- What a read returns is no more than what has been put out. -/
theorem readTurn_done {r : ReadResult × State κ σ} {qz : Qatzip κ} {l : Locals κ σ}
    (hturn : readTurn qz parent len l = .done r) :
    r.1.ret ≤ l.readsofar ∧ r.1.data.length ≤ l.readsofar := by
  have hret : ∀ l : Locals κ σ, l.ret.1.ret ≤ l.readsofar ∧ l.ret.1.data.length ≤ l.readsofar :=
    fun l => ⟨le_rfl, List.length_take_le _ _⟩
  have hleave : ∀ (l : Locals κ σ) (rc : ℤ), rc ≤ 0 →
      (l.leave rc).1.ret ≤ l.readsofar ∧ (l.leave rc).1.data.length ≤ l.readsofar := by
    intro l rc hrc
    unfold Locals.leave
    split
    · exact hret l
    · exact ⟨hrc.trans (Int.natCast_nonneg _), Nat.zero_le _⟩
  unfold readTurn at hturn
  split at hturn
  · unfold topTurn at hturn
    split at hturn
    · cases hturn
    · cases hturn
      exact hret l
  · unfold fillTurn at hturn
    simp only at hturn
    split at hturn
    · cases hturn
      exact hleave _ (-1) (by decide)
    · split at hturn
      · cases hturn
        exact hleave _ 0 le_rfl
      · cases hturn
  · unfold decodeTurn at hturn
    simp only at hturn
    split at hturn
    · next hrc =>
      cases hturn
      exact hleave l _ hrc
    · split at hturn
      · cases hturn
      · cases hturn
        refine ⟨?_, Nat.zero_le _⟩
        show (-1 : ℤ) ≤ l.readsofar
        omega

/-- The calls made so far. -/
theorem Filled.drop_answers (h : Filled s news l) :
    l.io.sess.answers.drop s.sess.answers.length = news := by
  rw [h.answers, List.drop_left]

theorem filled_of_visits (h : Visits (readTurn qz.recorded parent len) (.start s) l) :
    ∃ news, Filled s news l := by
  induction h with
  | refl => exact ⟨[], .start s⟩
  | tail _ hturn ih =>
    obtain ⟨news, hfilled⟩ := ih
    rcases readTurn_next hfilled hturn with hnext | ⟨_, answer, _, hnext⟩
    · exact ⟨news, hnext⟩
    · exact ⟨news ++ [answer], hnext⟩

end Turns

section Buffer

variable {qz : Qatzip κ} {parent : Source σ} {len : ℕ} {s : State (Recorded κ Byte) σ}
  {l : Locals (Recorded κ Byte) σ}

/-- With nothing put out before the last call, what is written is its output. -/
theorem length_buffer_le (hlen : len < 2 ^ 32) (hlast : OutputLast qz parent len s)
    (h : Visits (readTurn qz.recorded parent len) (.start s) l) : l.buffer.length ≤ len := by
  induction h with
  | refl => exact Nat.zero_le _
  | tail hvisits hturn ih =>
    obtain ⟨news, hfilled⟩ := filled_of_visits hvisits
    rcases readTurn_next hfilled hturn with hnext | ⟨hcalls, answer, hanswer, hnext⟩
    · rw [hnext.buffer, ← hfilled.buffer]
      exact ih
    · have hnone : ∀ a ∈ news, a.1 = [] := by
        intro a ha
        apply hlast _ hvisits hcalls
        rw [hfilled.drop_answers]
        exact ha
      rw [hnext.buffer, List.flatMap_append, List.flatMap_eq_nil_iff.mpr hnone, List.nil_append,
        List.flatMap_singleton]
      exact hanswer.trans (dstLen_eq hlen).le

/-- A read stays inside of the caller's buffer if and only if `qzDecompress` is not called again
once it has put something out. -/
theorem insideBuffer_iff (qz : Qatzip κ) (parent : Source σ) (s : State (Recorded κ Byte) σ)
    {len : ℕ} (hlen : len < 2 ^ 32) :
    InsideBuffer qz.recorded parent len s ↔ OutputLast qz parent len s := by
  constructor
  · intro h l hvisits hcalls answer hanswer
    obtain ⟨news, hfilled⟩ := filled_of_visits hvisits
    have hroom := h.window l hvisits hcalls
    rw [dstLen_eq hlen] at hroom
    have hnone : news.flatMap Prod.fst = [] := by
      rw [← hfilled.buffer, ← List.length_eq_zero_iff, ← hfilled.readsofar]
      omega
    rw [hfilled.drop_answers] at hanswer
    exact List.flatMap_eq_nil_iff.mp hnone answer hanswer
  · intro hlast
    refine ⟨?_, fun l hvisits => length_buffer_le hlen hlast hvisits, ?_⟩
    · intro l hvisits hcalls
      obtain ⟨news, hfilled⟩ := filled_of_visits hvisits
      have hnone := hlast l hvisits hcalls
      rw [hfilled.drop_answers] at hnone
      rw [hfilled.readsofar, hfilled.buffer, List.flatMap_eq_nil_iff.mpr hnone, dstLen_eq hlen]
      exact (Nat.zero_add len).le
    · intro fuel r t hr
      unfold qatRead at hr
      split at hr
      · cases hr
        exact ⟨Int.natCast_nonneg _, Nat.zero_le _⟩
      · cases hr
        refine ⟨?_, Nat.zero_le _⟩
        show (-1 : ℤ) ≤ len
        omega
      · apply loop_invariant (Q := fun r : ReadResult × State (Recorded κ Byte) σ =>
            r.1.ret ≤ len ∧ r.1.data.length ≤ len)
          (I := fun l => Visits (readTurn qz.recorded parent len) (.start s) l) _ _ .refl hr
        · exact fun l m hvisits hturn => hvisits.tail hturn
        · intro l r hvisits hturn
          obtain ⟨news, hfilled⟩ := filled_of_visits hvisits
          have hle := length_buffer_le hlen hlast hvisits
          obtain ⟨hret, hdata⟩ := readTurn_done hturn
          rw [hfilled.readsofar] at hret hdata
          exact ⟨hret.trans (Int.ofNat_le.mpr hle), hdata.trans hle⟩

end Buffer

/-! ## Three bytes -/

instance (l : Locals κ σ) : Decidable (Calls l) := inferInstanceAs (Decidable (_ ∧ _))

/-- A codec that copies: `first` bytes in its first call, then as many as there is room for. -/
def copying (first : ℕ) : Qatzip Bool where
  call begun _ input room :=
    let n := min (if begun then room else first) (min input.length room)
    ⟨true, n, input.take n, 0⟩
  consumed_le _ _ _ _ := (min_le_right _ _).trans (min_le_left _ _)
  output_le _ _ _ _ := (List.length_take_le _ _).trans ((min_le_right _ _).trans (min_le_right _ _))
  ok := 0
  bufError := -3
  dataError := -4

/-- A reader of three bytes. -/
def threeBytes : State (Recorded Bool Byte) (List Byte × List ℕ) :=
  qatOpen ⟨false, []⟩ ([1, 2, 3], [])

/-- The first call fills the buffer. -/
theorem insideBuffer_threeBytes :
    InsideBuffer (copying 2).recorded chunked.toSource 2 threeBytes := by
  have hall : ∀ l ∈ turns (readTurn (copying 2).recorded chunked.toSource 2) 10
      (.start threeBytes), Calls l → ∀ answer ∈ l.io.sess.answers.drop 0, answer.1 = [] := by
    decide +kernel
  rw [insideBuffer_iff _ _ _ (by decide)]
  exact fun l hl => hall l (mem_turns (by decide +kernel) hl)

/-- The first call leaves room for a byte, and the second one is given room for two. -/
theorem not_insideBuffer_threeBytes :
    ¬ InsideBuffer (copying 1).recorded chunked.toSource 2 threeBytes := by
  intro h
  have hret := (h.returned 10 ⟨3, [1, 2, 3]⟩ _ rfl).1
  exact absurd hret (by decide)

end Wandio.QatReader
