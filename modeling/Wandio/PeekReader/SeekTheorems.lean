import Wandio.PeekReader.SeekModel
import Wandio.PeekReader.TransparencyTheorems

/-!
# Where the peeking reader is

The child is ahead of the reader by what is unread in the buffer, so `peek_tell` and `peek_seek`
are right exactly when there is nothing in it.
-/

namespace Wandio.PeekReader

open HttpReader (Whence)
open Transition

variable {σ : Type*}

section Child

variable {child : Source σ} {addr len : ℤ} {s t : State σ} {r : ReadResult}

@[simp] theorem freeDrained_child (s : State σ) : (freeDrained s).child = s.child := by
  unfold freeDrained
  split <;> rfl

/-- A `peek_read` reads from the child once at most. -/
theorem ReadMove.child_eq (h : ReadMove child addr len s r t) :
    t.child = s.child ∨ ∃ n, t.child = (child.read s.child n).2 := by
  cases h with
  | sticky => exact .inl rfl
  | buffered => exact .inl (freeDrained_child _)
  | direct _ _ _ hread => exact .inr ⟨_, by rw [hread, freeDrained_child]⟩
  | directShort _ _ _ hread => exact .inr ⟨_, by rw [hread]⟩
  | refill _ _ _ hread => exact .inr ⟨_, by rw [hread, freeDrained_child]⟩
  | refillShort _ _ _ hread => exact .inr ⟨_, by rw [hread]⟩

theorem PeekMove.child_eq (h : PeekMove child len s r t) :
    t.child = s.child ∨ ∃ n, t.child = (child.read s.child n).2 := by
  cases h with
  | enough => exact .inl rfl
  | fail _ hread => exact .inr ⟨_, by rw [hread]⟩
  | extend _ hread => exact .inr ⟨_, by rw [hread]⟩

end Child

section Position

variable {child : SeekableSource σ} {pos : ℤ} {s t : State σ}

/-- The next byte of the reader is at `pos`, and its child is ahead by the unread bytes. -/
structure At (child : SeekableSource σ) (pos : ℤ) (s : State σ) : Prop where
  nonneg : 0 ≤ pos
  inv : Inv child.toByteSource child.all (child.all.take pos.toNat) s
  tell : child.tell s.child = pos + s.left

/-- A read of the child moves bytes from behind its offset to in front of it. -/
theorem tell_add_length (child : SeekableSource σ) (c : σ) (n : ℕ) :
    child.tell (child.read c n).2 + (child.content (child.read c n).2).length =
      child.tell c + (child.content c).length := by
  rw [child.tell_read]
  rcases Nat.eq_zero_or_pos n with rfl | hn
  · obtain ⟨hret, hcontent⟩ := child.read_zero c
    rw [hret, hcontent]
    simp
  · obtain ⟨data, d, hread, _, hcontent, _⟩ := child.toByteSource.read_spec c hn
    rw [hread, hcontent, List.length_append]
    rw [Nat.cast_add, Int.add_assoc]

theorem tell_add_length_of_child (h : t.child = s.child ∨
    ∃ n, t.child = (child.read s.child n).2) :
    child.tell t.child + (child.content t.child).length =
      child.tell s.child + (child.content s.child).length := by
  rcases h with hsame | ⟨n, hread⟩
  · rw [hsame]
  · rw [hread, tell_add_length]

/-- The lengths of the three parts of the stream. -/
theorem Inv.length_eq {child : ByteSource σ} {S given : List Byte} (h : Inv child S given s) :
    (S.length : ℤ) = given.length + s.left + (child.content s.child).length := by
  have hunread := h.length_unread
  have hstream := congrArg List.length h.stream
  rw [List.length_append, List.length_append] at hstream
  unfold State.left
  omega

/-- What comes behind the first `n` bytes, if it is there. -/
theorem take_append_of_begins {S data : List Byte} {n : ℕ} (h : S.take n ++ data <+: S) :
    S.take n ++ data = S.take (n + data.length) ∧ data <+: S.drop n := by
  have hdrop : data <+: S.drop n := by
    nth_rewrite 2 [← List.take_append_drop n S] at h
    exact (List.prefix_append_right_inj _).mp h
  refine ⟨?_, hdrop⟩
  rw [List.take_add]
  congr 1
  exact List.prefix_iff_eq_take.mp hdrop

/-- A state that one call leads to, when the unread bytes are `data` fewer. -/
theorem At.of_inv (h : At child pos s) {data : List Byte}
    (hinv : Inv child.toByteSource child.all (child.all.take pos.toNat ++ data) t)
    (hchild : t.child = s.child ∨ ∃ n, t.child = (child.read s.child n).2) :
    At child (pos + data.length) t := by
  have hpre : child.all.take pos.toNat ++ data <+: child.all := by
    nth_rewrite 2 [hinv.stream]
    exact List.prefix_append _ _
  have hnonneg := h.nonneg
  have htoNat : (pos + data.length).toNat = pos.toNat + data.length := by omega
  refine ⟨by omega, ?_, ?_⟩
  · rw [htoNat, ← (take_append_of_begins hpre).1]
    exact hinv
  · have hbefore := h.inv.length_eq
    have hafter := hinv.length_eq
    have htell := tell_add_length_of_child hchild
    have hwas := h.tell
    rw [List.length_append] at hafter
    omega

/-- A read returns the bytes at the position and moves on behind them. -/
theorem At.read (h : At child pos s) (addr len : ℕ) :
    ∃ data t, peekRead child.toByteSource.toSource addr len s =
        some (⟨(data.length : ℤ), data⟩, t) ∧
      At child (pos + data.length) t ∧ data.length ≤ len ∧ data <+: child.all.drop pos.toNat ∧
      (0 < len → data = [] → (child.all.length : ℤ) ≤ pos) := by
  obtain ⟨data, t, hread, hinv, hlen, hend⟩ := peekRead_spec h.inv addr len
  obtain ⟨r, u, hmove, hstep⟩ := readMove child.toSource addr h.inv.wf (Int.natCast_nonneg len)
  obtain ⟨rfl, rfl⟩ : r = ⟨(data.length : ℤ), data⟩ ∧ u = t := by
    have heq := hmove.symm.trans hread
    rw [Option.some_inj, Prod.mk.injEq] at heq
    exact heq
  have hpre : child.all.take pos.toNat ++ data <+: child.all := by
    nth_rewrite 2 [hinv.stream]
    exact List.prefix_append _ _
  refine ⟨data, u, hread, h.of_inv hinv hstep.child_eq, hlen, (take_append_of_begins hpre).2, ?_⟩
  intro hpos hnil
  have hall := congrArg List.length (hend hpos hnil)
  have hnonneg := h.nonneg
  rw [List.length_take] at hall
  omega

/-- A peek leaves the position where it is. -/
theorem At.peek (h : At child pos s) {len : ℕ} {r : ReadResult}
    (hpeek : peekPeek child.toByteSource.toSource len s = some (r, t)) : At child pos t := by
  obtain ⟨data, u, hspec, hinv, _⟩ := peekPeek_spec h.inv len
  have hok : 0 ≤ s.length := h.inv.offset_nonneg.trans h.inv.offset_le
  obtain ⟨q, v, hmove, hstep⟩ := peekMove child.toSource (len : ℤ) h.inv.wf hok
  obtain ⟨rfl, rfl⟩ : q = r ∧ v = t := by
    have heq := hmove.symm.trans hpeek
    rw [Option.some_inj, Prod.mk.injEq] at heq
    exact heq
  obtain ⟨_, rfl⟩ : (⟨(data.length : ℤ), data⟩ : ReadResult) = q ∧ u = v := by
    have heq := hspec.symm.trans hpeek
    rw [Option.some_inj, Prod.mk.injEq] at heq
    exact heq
  have hsame : Inv child.toByteSource child.all (child.all.take pos.toNat ++ []) u := by
    rw [List.append_nil]
    exact hinv
  have hat := h.of_inv hsame hstep.child_eq
  simpa using hat

/-- A seek with nothing unread in the buffer goes to what it returns. -/
theorem At.seek (h : At child pos s) (hdrained : s.length = s.offset) {offset : ℤ}
    {whence : Whence} (hret : 0 ≤ (peekSeek child.toSeekSource offset whence s).1) :
    At child (peekSeek child.toSeekSource offset whence s).1
      (peekSeek child.toSeekSource offset whence s).2 := by
  set r := child.seek s.child offset whence with hr
  have htell : child.tell r.2 = r.1 := child.tell_seek _ _ _ hret
  have hleft : ({ s with child := r.2 } : State σ).left = 0 := by
    show s.length - s.offset = 0
    omega
  have hnil : ({ s with child := r.2 } : State σ).unread = [] := h.inv.unread_eq_nil hdrained
  refine ⟨hret, ⟨h.inv.offset_nonneg, h.inv.offset_le, h.inv.empty, h.inv.written, ?_⟩, ?_⟩
  · show child.all = child.all.take r.1.toNat ++
      (({ s with child := r.2 } : State σ).unread ++ child.content r.2)
    rw [hnil, List.nil_append, child.content_eq, htell, List.take_append_drop]
  · show child.tell r.2 = r.1 + ({ s with child := r.2 } : State σ).left
    rw [htell, hleft, Int.add_zero]

/-! ## Runs -/

theorem position_append (start : ℤ) (log : List (Access × ReadResult)) (e : Access × ReadResult) :
    position start (log ++ [e]) = position (position start log) [e] :=
  List.foldl_append ..

theorem at_peekOpen (child : SeekableSource σ) (c : σ) : At child (child.tell c) (peekOpen c) := by
  refine ⟨child.tell_nonneg c, ⟨le_rfl, le_rfl, fun _ => rfl, by simp [peekOpen], ?_⟩, ?_⟩
  · show child.all = child.all.take (child.tell c).toNat ++ ([] ++ child.content c)
    rw [List.nil_append, child.content_eq, List.take_append_drop]
  · show child.tell c = child.tell c + (0 - 0)
    omega

theorem at_next {c : σ} (p : State σ × List (Access × ReadResult)) (a : Access)
    (q : State σ × List (Access × ReadResult))
    (h : At child (position (child.tell c) p.2) p.1)
    (hs : ((accesses child.toSeekSource c).restrict seeksDrained).next p a = some q) :
    At child (position (child.tell c) q.2) q.1 := by
  obtain ⟨hdrained, hnext⟩ := restrict_next.mp hs
  obtain ⟨⟨r, t⟩, haccess, hq⟩ := Option.bind_eq_some_iff.mp hnext
  split at hq
  · contradiction
  · next hret =>
    rw [Option.some_inj] at hq
    rw [← hq, position_append]
    cases a with
    | read addr len =>
      obtain ⟨data, u, hread, hat, _⟩ := h.read addr len
      have heq := hread.symm.trans haccess
      rw [Option.some_inj, Prod.mk.injEq] at heq
      obtain ⟨rfl, rfl⟩ := heq
      exact hat
    | peek addr len => exact h.peek haccess
    | tell =>
      have heq := Option.some_inj.mp haccess
      rw [Prod.mk.injEq] at heq
      obtain ⟨rfl, rfl⟩ := heq
      exact h
    | seek offset whence =>
      have heq := Option.some_inj.mp haccess
      rw [Prod.mk.injEq] at heq
      obtain ⟨rfl, rfl⟩ := heq
      exact h.seek (of_decide_eq_true hdrained) (not_lt.mp hret)

theorem at_reachable {c : σ} {p : State σ × List (Access × ReadResult)}
    (h : Reachable ((accesses child.toSeekSource c).restrict seeksDrained) p) :
    At child (position (child.tell c) p.2) p.1 := by
  apply h.invariant (I := fun p => At child (position (child.tell c) p.2) p.1) ?_ at_next
  exact at_peekOpen child c

end Position

/-- In every run in which seeks come when the buffer has been read to its end: the next read
returns the bytes at the position, which is what `peek_tell` returns if and only if the buffer
has been read to its end, and a seek to an offset then makes the next read begin there. -/
theorem seek_tell_agree (child : SeekableSource σ) (c : σ)
    (p : State σ × List (Access × ReadResult))
    (h : Reachable ((accesses child.toSeekSource c).restrict seeksDrained) p) :
    (∀ addr len : ℕ, ∃ r t, peekRead child.toByteSource.toSource addr len p.1 = some (r, t) ∧
      r.ret = r.data.length ∧ r.data.length ≤ len ∧
      r.data <+: child.all.drop (position (child.tell c) p.2).toNat ∧
      (0 < len → r.data = [] → (child.all.length : ℤ) ≤ position (child.tell c) p.2)) ∧
    (peekTell child.toSeekSource p.1 = position (child.tell c) p.2 ↔
      p.1.length = p.1.offset) ∧
    ∀ k : ℤ, 0 ≤ k → p.1.length = p.1.offset →
      (peekSeek child.toSeekSource k .set p.1).1 = k → ∀ addr len : ℕ, ∃ r t,
        peekRead child.toByteSource.toSource addr len (peekSeek child.toSeekSource k .set p.1).2 =
          some (r, t) ∧ r.ret = r.data.length ∧ r.data.length ≤ len ∧
        r.data <+: child.all.drop k.toNat ∧
        (0 < len → r.data = [] → (child.all.length : ℤ) ≤ k) := by
  have hat := at_reachable h
  refine ⟨fun addr len => ?_, ?_, fun k hk hdrained hret addr len => ?_⟩
  · obtain ⟨data, t, hread, _, hlen, hpre, hend⟩ := hat.read addr len
    exact ⟨_, t, hread, rfl, hlen, hpre, hend⟩
  · show child.tell p.1.child = _ ↔ _
    rw [hat.tell]
    unfold State.left
    omega
  · have hseek := hat.seek hdrained (hret.symm ▸ hk)
    rw [hret] at hseek
    obtain ⟨data, t, hread, _, hlen, hpre, hend⟩ := hseek.read addr len
    exact ⟨_, t, hread, rfl, hlen, hpre, hend⟩

/-- Three bytes are read, and the reader goes back to the second one. -/
theorem seek_tell_agree_back : ∃ p r t,
    Reachable ((accesses (file [1, 2, 3]).toSeekSource 0).restrict seeksDrained) p ∧
      p.1.length = p.1.offset ∧
      peekRead (file [1, 2, 3]).toByteSource.toSource 0 1
        (peekSeek (file [1, 2, 3]).toSeekSource 1 .set p.1).2 = some (r, t) ∧
      r.data <+: [2, 3] := by
  obtain ⟨p, hp, htest⟩ := exists_reachable_of_exec
    ((accesses (file [1, 2, 3]).toSeekSource 0).restrict seeksDrained) [.read 0 3]
    (fun p => p.1.length = p.1.offset ∧
      (peekSeek (file [1, 2, 3]).toSeekSource 1 .set p.1).1 = 1) (by decide)
  obtain ⟨hdrained, hret⟩ : p.1.length = p.1.offset ∧
      (peekSeek (file [1, 2, 3]).toSeekSource 1 .set p.1).1 = 1 := by simpa using htest
  obtain ⟨_, _, hseek⟩ := seek_tell_agree (file [1, 2, 3]) 0 p hp
  obtain ⟨r, t, hread, _, _, hpre, _⟩ := hseek 1 (by decide) hdrained hret 0 1
  exact ⟨p, r, t, hp, hdrained, hread, hpre⟩

/-- One byte of three is read: `peek_tell` returns 3, and the second byte is still the next
after a seek to 0. -/
theorem tell_ahead_of_reads : ∃ p,
    Reachable (accesses (file [1, 2, 3]).toSeekSource 0) p ∧ position 0 p.2 = 1 ∧
      peekTell (file [1, 2, 3]).toSeekSource p.1 = 3 ∧
      (peekSeek (file [1, 2, 3]).toSeekSource 0 .set p.1).1 = 0 ∧
      (peekRead (file [1, 2, 3]).toByteSource.toSource 0 1
        (peekSeek (file [1, 2, 3]).toSeekSource 0 .set p.1).2).map Prod.fst = some ⟨1, [2]⟩ := by
  obtain ⟨p, hp, htest⟩ := exists_reachable_of_exec (accesses (file [1, 2, 3]).toSeekSource 0)
    [.read 0 1]
    (fun p => position 0 p.2 = 1 ∧ peekTell (file [1, 2, 3]).toSeekSource p.1 = 3 ∧
      (peekSeek (file [1, 2, 3]).toSeekSource 0 .set p.1).1 = 0 ∧
      (peekRead (file [1, 2, 3]).toByteSource.toSource 0 1
        (peekSeek (file [1, 2, 3]).toSeekSource 0 .set p.1).2).map Prod.fst =
          some ⟨1, [2]⟩) (by decide)
  exact ⟨p, hp, of_decide_eq_true htest⟩

end Wandio.PeekReader
