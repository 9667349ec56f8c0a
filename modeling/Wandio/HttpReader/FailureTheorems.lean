import Wandio.HttpReader.FillTheorems

/-!
# Permanent failures

`fill_buffer` reports an error of curl with the same number as a new start, and `http_read`
takes it for one. When no more data comes a read therefore goes on for ever, unless a new
start fails: then, and only then, it returns an error.
-/

namespace Wandio.HttpReader

open Loop

/-- The length of the object that the reader goes by in the `k`-th transfer from now on, if
nothing comes and it does not start anew before. -/
def lengthAt (net : ℕ → Transfer) (object : List Byte) (s : State) : ℕ → ℤ
  | 0 => if s.totalLength < 0 then contentLength object s (net s.transfers) else s.totalLength
  | k + 1 =>
    if lengthAt net object s k < 0 then contentLength object s (net (s.transfers + (k + 1)))
    else lengthAt net object s k

/-- If nothing comes any more, the reader comes to a new start that fails: there is a transfer
without an error behind which curl refuses the new handle, and the reader knows in it, and in
those without an error before, that the object goes on. -/
def StartFails (net : ℕ → Transfer) (object : List Byte) (s : State) : Prop :=
  s.doneReading = false ∧ ∃ j, (net (s.transfers + j)).failed = false ∧
    (net (s.transfers + j)).addAgain ≠ 0 ∧
    ∀ k, k ≤ j → (net (s.transfers + k)).failed = false →
      ((s.off0 + s.lBuf : ℕ) : ℤ) < lengthAt net object s k

section Dead

variable {net : ℕ → Transfer} {object : List Byte} {s : State} {len : ℕ}

theorem lengthAt_of_nonneg (h : 0 ≤ lengthAt net object s 0) (k : ℕ) :
    lengthAt net object s k = lengthAt net object s 0 := by
  induction k with
  | zero => rfl
  | succ k ih =>
    show (if lengthAt net object s k < 0 then _ else lengthAt net object s k) = _
    rw [if_neg (by omega), ih]

/-- Where the reader is in the buffer makes no difference. -/
theorem startFails_pBuf (n : ℕ) :
    StartFails net object { s with pBuf := n } ↔ StartFails net object s := by
  have hlength : ∀ k, lengthAt net object { s with pBuf := n } k = lengthAt net object s k := by
    intro k
    induction k with
    | zero => rfl
    | succ k ih =>
      rw [lengthAt, ih]
      rfl
  unfold StartFails
  simp only [hlength]

/-- A transfer in which nothing comes. -/
theorem filled_dead (h : (net s.transfers).pieces = []) :
    filled net object s =
      { s with
        off0 := s.off0 + s.lBuf
        pBuf := 0
        lBuf := 0
        totalLength := lengthAt net object s 0
        transfers := s.transfers + 1 } := by
  rw [filled, perform, h]
  rfl

theorem lengthAt_filled (h : (net s.transfers).pieces = []) (k : ℕ) :
    lengthAt net object (filled net object s) k = lengthAt net object s (k + 1) := by
  induction k with
  | zero =>
    rw [filled_dead h]
    rfl
  | succ k ih =>
    rw [lengthAt, ih, lengthAt]
    have htransfers : (filled net object s).transfers + (k + 1) = s.transfers + (k + 1 + 1) := by
      rw [filled_dead h]
      simp only
      omega
    rw [htransfers]
    rw [filled_dead h]
    rfl

/-- An error does not change what the reader comes to. -/
theorem startFails_filled (h : (net s.transfers).pieces = [])
    (hfailed : (net s.transfers).failed = true) :
    StartFails net object (filled net object s) ↔ StartFails net object s := by
  have htransfers : ∀ k, (filled net object s).transfers + k = s.transfers + (k + 1) := by
    intro k
    rw [filled_dead h]
    simp only
    omega
  have hoff0 : (filled net object s).off0 + (filled net object s).lBuf = s.off0 + s.lBuf := by
    rw [filled_dead h]
    rfl
  have hdone : (filled net object s).doneReading = s.doneReading := by rw [filled_dead h]
  unfold StartFails
  simp only [hdone, hoff0, htransfers, lengthAt_filled h]
  apply and_congr_right
  intro _
  -- the transfers are counted from the next one on; the first has failed and is none of them
  constructor
  · rintro ⟨j, hj, hadd, hall⟩
    refine ⟨j + 1, hj, hadd, fun k hk hok => ?_⟩
    cases k with
    | zero =>
      rw [Nat.add_zero, hfailed] at hok
      contradiction
    | succ k => exact hall k (by omega) hok
  · rintro ⟨j, hj, hadd, hall⟩
    cases j with
    | zero =>
      rw [Nat.add_zero, hfailed] at hj
      contradiction
    | succ j => exact ⟨j, hj, hadd, fun k hk hok => hall (k + 1) (by omega) hok⟩

/-- A new start does not change it either. -/
theorem startFails_restarted (h : (net s.transfers).pieces = []) (hr : Restarts net object s)
    (hadd : (net s.transfers).addAgain = 0) :
    StartFails net object (prepare (net s.transfers).addAgain (initIo (filled net object s))) ↔
      StartFails net object s := by
  obtain ⟨hdone, hfailed, _, hmore⟩ := hr
  rw [filled_dead h] at hmore
  simp only at hmore
  set u := prepare (net s.transfers).addAgain (initIo (filled net object s)) with hu
  have htransfers : ∀ k, u.transfers + k = s.transfers + (k + 1) := by
    intro k
    show (filled net object s).transfers + k = _
    rw [filled_dead h]
    simp only
    omega
  have hoff0 : u.off0 + u.lBuf = s.off0 + s.lBuf := by
    show (filled net object s).off0 + 0 = _
    rw [filled_dead h]
    rfl
  have hdone' : u.doneReading = s.doneReading := by
    show (filled net object s).doneReading = _
    rw [filled_dead h]
  have hlength : ∀ k, lengthAt net object u k = lengthAt net object s 0 := by
    have htotal : u.totalLength = lengthAt net object s 0 := by
      show (filled net object s).totalLength = _
      rw [filled_dead h]
    have hzero : lengthAt net object u 0 = lengthAt net object s 0 := by
      rw [lengthAt, htotal, if_neg (by omega)]
    intro k
    rw [lengthAt_of_nonneg (by omega) k, hzero]
  have hstay : ∀ k, lengthAt net object s k = lengthAt net object s 0 :=
    lengthAt_of_nonneg (by omega)
  unfold StartFails
  simp only [hdone', hoff0, htransfers, hlength, hstay]
  apply and_congr_right
  intro _
  constructor
  · rintro ⟨j, hj, hadd', hall⟩
    exact ⟨j + 1, hj, hadd', fun _ _ _ => hmore⟩
  · rintro ⟨j, hj, hadd', hall⟩
    cases j with
    | zero => exact absurd hadd hadd'
    | succ j => exact ⟨j, hj, hadd', fun _ _ _ => hmore⟩

end Dead

/-! ## The loop of a read -/

section Loop

variable {net : ℕ → Transfer} {object : List Byte} {len : ℕ} {v w : Reading}

/-- The calls of a read are nested no deeper than one. -/
theorem readTurn_fillBuffer (fuel : ℕ) :
    readTurn (fillBuffer net object (fuel + 1)) len = readTurn (fillBuffer net object 1) len := by
  funext v
  unfold readTurn
  rw [fillBuffer_succ (s := { v.io with pBuf := v.io.lBuf }) rfl,
    fillBuffer_succ (s := { v.io with pBuf := v.io.lBuf }) rfl]

/-- A read wants more than there is in the buffer, and the reader comes to a new start that
fails. -/
def GivesUp (net : ℕ → Transfer) (object : List Byte) (v : Reading) : Prop :=
  v.io.lBuf - v.io.pBuf < v.rest ∧ StartFails net object v.io

/-- A turn that fills the buffer, when nothing comes. -/
theorem turn_short (hdead : (net v.io.transfers).pieces = [])
    (hshort : v.io.lBuf - v.io.pBuf < v.rest) {s : State}
    (hs : s = { v.io with pBuf := v.io.lBuf }) {rest : ℕ} {out : List Byte}
    (hrest : rest = v.rest - (v.io.lBuf - v.io.pBuf)) (hout : out = v.out ++ v.io.buffered) :
    readTurn (fillBuffer net object 1) len v =
      if s.doneReading then
        .done (some (⟨len - rest, out⟩, { s with off0 := s.off0 + s.lBuf, pBuf := 0, lBuf := 0 }))
      else if (net s.transfers).failed then .next ⟨filled net object s, rest, out⟩
      else if Restarts net object s then
        if (net s.transfers).addAgain = 0 then
          .next ⟨prepare (net s.transfers).addAgain (initIo (filled net object s)), rest, out⟩
        else
          .done (some (⟨-1, out⟩,
            prepare (net s.transfers).addAgain (initIo (filled net object s))))
      else .done (some (⟨len - rest, out⟩, { filled net object s with doneReading := true })) := by
  have hdead' : (net s.transfers).pieces = [] := by rw [hs]; exact hdead
  have hp : s.pBuf = s.lBuf := by rw [hs]
  unfold readTurn
  rw [if_neg (by omega), if_neg (by omega)]
  simp only [← hs, ← hrest, ← hout]
  rw [fillBuffer_succ hp, fillResult]
  simp only
  by_cases hdone : s.doneReading
  · simp only [hdone, if_true]
    rfl
  by_cases hfailed : (net s.transfers).failed
  · simp only [hdone, hfailed, if_true]
    rfl
  by_cases hr : Restarts net object s
  · by_cases hadd : (net s.transfers).addAgain = 0
    · simp only [hdone, hfailed, hr, hadd, if_true]
      rfl
    · simp only [hdone, hfailed, hr, hadd, if_true, if_false]
      rfl
  · -- nothing has come, so the reader takes this for the end
    have hl : (filled net object s).lBuf = 0 := by rw [filled_dead hdead']
    have hend : (filled net object s).lBuf < mBuf - curlMaxWriteSize ∧
        (filled net object s).totalLength ≤ (filled net object s).off0 := by
      refine ⟨by rw [hl]; decide, ?_⟩
      by_contra hmore
      exact hr ⟨by simpa using hdone, by simpa using hfailed, hl, by omega⟩
    simp only [hdone, hfailed, hr, hend, hl, if_false]
    rfl

/-- In a transfer in which nothing comes and that reports no error, the reader starts anew
exactly if it knows that the object goes on. -/
theorem restarts_dead_iff (object : List Byte) {s : State}
    (hdead : (net s.transfers).pieces = [])
    (hdone : s.doneReading = false) (hfailed : (net s.transfers).failed = false) :
    Restarts net object s ↔ ((s.off0 + s.lBuf : ℕ) : ℤ) < lengthAt net object s 0 := by
  unfold Restarts
  rw [filled_dead hdead]
  simp only [hdone, hfailed, true_and]

/-- A turn that goes on. -/
theorem turn_next (hdead : (net v.io.transfers).pieces = [])
    (h : readTurn (fillBuffer net object 1) len v = .next w) :
    (GivesUp net object w ↔ GivesUp net object v) ∧ w.rest ≤ v.rest ∧
      v.io.transfers ≤ w.io.transfers ∧
      (GivesUp net object v → w.io.transfers = v.io.transfers + 1) := by
  by_cases hshort : v.io.lBuf - v.io.pBuf < v.rest
  · set s : State := { v.io with pBuf := v.io.lBuf } with hs
    have hsame : StartFails net object s ↔ StartFails net object v.io := startFails_pBuf _
    have hdead' : (net s.transfers).pieces = [] := hdead
    -- the buffer is empty afterwards and there is more to read
    have hgives : ∀ (io : State) (out : List Byte), io.lBuf = 0 →
        (StartFails net object io ↔ StartFails net object s) →
        (GivesUp net object ⟨io, v.rest - (v.io.lBuf - v.io.pBuf), out⟩ ↔
          GivesUp net object v) := by
      intro io out hl hio
      unfold GivesUp
      rw [hio, hsame, hl]
      apply and_congr_left
      intro _
      exact iff_of_true (by simp only; omega) hshort
    have htransfers : (filled net object s).transfers = v.io.transfers + 1 := by
      rw [filled_dead hdead']
    have hl : (filled net object s).lBuf = 0 := by rw [filled_dead hdead']
    rw [turn_short hdead hshort hs rfl rfl] at h
    split at h
    · cases h
    · split at h
      · next hfailed =>
        cases h
        refine ⟨hgives _ _ hl (startFails_filled hdead' hfailed), Nat.sub_le _ _, ?_,
          fun _ => htransfers⟩
        show v.io.transfers ≤ (filled net object s).transfers
        omega
      · split at h
        · next hr =>
          split at h
          · next hadd =>
            cases h
            refine ⟨hgives _ _ rfl (startFails_restarted hdead' hr hadd), Nat.sub_le _ _, ?_,
              fun _ => htransfers⟩
            show v.io.transfers ≤ (filled net object s).transfers
            omega
          · cases h
        · cases h
  · -- the rest is in the buffer
    cases readMove_next h with
    | copy =>
      refine ⟨iff_of_false ?_ ?_, Nat.zero_le _, le_rfl, ?_⟩
      · exact fun hw => Nat.not_lt_zero _ hw.1
      · exact fun hv => hshort hv.1
      · exact fun hv => absurd hv.1 hshort
    | refill hshort' => exact absurd hshort' hshort

/-- A turn that ends the read. -/
theorem turn_done (hdead : (net v.io.transfers).pieces = []) (hrest : v.rest ≤ len)
    {q : Option (ReadResult × State)}
    (h : readTurn (fillBuffer net object 1) len v = .done q) :
    ∃ r t, q = some (r, t) ∧ (r.ret < 0 ↔ GivesUp net object v) := by
  have hcount : ∀ n, n ≤ len → ¬ ((len : ℤ) - (n : ℕ)) < 0 := by
    intro n hn
    omega
  by_cases hshort : v.io.lBuf - v.io.pBuf < v.rest
  · set s : State := { v.io with pBuf := v.io.lBuf } with hs
    have hdead' : (net s.transfers).pieces = [] := hdead
    have hless : v.rest - (v.io.lBuf - v.io.pBuf) ≤ len := by omega
    rw [turn_short hdead hshort hs rfl rfl] at h
    split at h
    · next hdone =>
      cases h
      refine ⟨_, _, rfl, iff_of_false (hcount _ hless) fun hg => ?_⟩
      have hdone' : v.io.doneReading = false := hg.2.1
      have hdone'' : v.io.doneReading = true := hdone
      rw [hdone'] at hdone''
      contradiction
    · next hdone =>
      have hdone' : s.doneReading = false := by simpa using hdone
      split at h
      · cases h
      · next hfailed =>
        have hfailed' : (net s.transfers).failed = false := by simpa using hfailed
        have hiff := restarts_dead_iff object hdead' hdone' hfailed'
        split at h
        · next hr =>
          split at h
          · cases h
          · next hadd =>
            -- the new start fails
            cases h
            have hfails : StartFails net object s := by
              refine ⟨hdone', 0, hfailed', hadd, fun k hk _ => ?_⟩
              rw [Nat.le_zero.mp hk]
              exact hiff.mp hr
            refine ⟨_, _, rfl, iff_of_true ?_ ⟨hshort, (startFails_pBuf _).mp hfails⟩⟩
            show (-1 : ℤ) < 0
            decide
        · next hr =>
          cases h
          refine ⟨_, _, rfl, iff_of_false (hcount _ hless) fun hg => ?_⟩
          obtain ⟨_, j, _, _, hall⟩ := (startFails_pBuf v.io.lBuf).mpr hg.2
          exact hr (hiff.mpr (hall 0 (Nat.zero_le j) hfailed'))
  · unfold readTurn at h
    split at h
    · cases h
      exact ⟨_, _, rfl, iff_of_false (hcount _ hrest) fun hg => hshort hg.1⟩
    · rw [if_pos (by omega)] at h
      cases h

/-- The rest never grows. -/
theorem turn_rest_le {fill : State → Option (ℤ × State)} (h : readTurn fill len v = .next w) :
    w.rest ≤ v.rest := by
  cases readMove_next h with
  | copy => exact Nat.zero_le _
  | refill => exact Nat.sub_le _ _

theorem rest_le_of_visits {fill : State → Option (ℤ × State)} {u : Reading}
    (hv : Visits (readTurn fill len) u v) : v.rest ≤ u.rest := by
  induction hv with
  | refl => exact le_rfl
  | tail _ hturn ih => exact (turn_rest_le hturn).trans ih

/-- A read in which nothing comes any more returns an error exactly if it gives up. -/
theorem loop_gives_up_iff (hdead : ∀ i, v.io.transfers ≤ i → (net i).pieces = [])
    (hrest : v.rest ≤ len) :
    (∃ fuel r t, loop (readTurn (fillBuffer net object 1) len) fuel v = some (some (r, t)) ∧
      r.ret < 0) ↔ GivesUp net object v := by
  constructor
  · rintro ⟨fuel, r, t, hloop, hneg⟩
    -- every turn keeps whether the read gives up
    refine loop_invariant
      (I := fun u => u.rest ≤ len ∧ v.io.transfers ≤ u.io.transfers ∧
        (GivesUp net object u ↔ GivesUp net object v))
      (Q := fun q => ∀ r t, q = some (r, t) → r.ret < 0 → GivesUp net object v)
      ?_ ?_ ⟨hrest, le_rfl, Iff.rfl⟩ hloop r t rfl hneg
    · rintro u w ⟨hu, htransfers, hiff⟩ hturn
      obtain ⟨hsame, hle, hmore, _⟩ := turn_next (hdead _ htransfers) hturn
      exact ⟨hle.trans hu, htransfers.trans hmore, hsame.trans hiff⟩
    · rintro u q ⟨hu, htransfers, hiff⟩ hturn r t hq hneg
      obtain ⟨r', t', hq', hgives⟩ := turn_done (hdead _ htransfers) hu hturn
      rw [hq, Option.some_inj, Prod.mk.injEq] at hq'
      exact hiff.mp (hgives.mp (hq'.1 ▸ hneg))
  · intro hgives
    obtain ⟨_, j, hj, hadd, _⟩ := hgives.2
    -- each turn is a transfer, and none is behind the one where the new start fails
    have hnext : ∀ u w : Reading, (u.rest ≤ len ∧ v.io.transfers ≤ u.io.transfers ∧
          u.io.transfers ≤ v.io.transfers + j ∧ GivesUp net object u) →
        readTurn (fillBuffer net object 1) len u = .next w →
        (w.rest ≤ len ∧ v.io.transfers ≤ w.io.transfers ∧
          w.io.transfers ≤ v.io.transfers + j ∧ GivesUp net object w) ∧
        v.io.transfers + j + 1 - w.io.transfers < v.io.transfers + j + 1 - u.io.transfers := by
      rintro u w ⟨hu, htransfers, hbound, hgu⟩ hturn
      obtain ⟨hsame, hle, hlater, hcount⟩ := turn_next (hdead _ htransfers) hturn
      have hlast : u.io.transfers ≠ v.io.transfers + j := by
        intro heq
        obtain ⟨hshort, hfails⟩ := hgu
        obtain ⟨hdone, i, _, _, hmore⟩ := (startFails_pBuf u.io.lBuf).mpr hfails
        have hfailed : (net u.io.transfers).failed = false := by rw [heq]; exact hj
        have hadd' : (net u.io.transfers).addAgain ≠ 0 := by rw [heq]; exact hadd
        have hr : Restarts net object { u.io with pBuf := u.io.lBuf } :=
          (restarts_dead_iff object (hdead _ htransfers) hdone hfailed).mpr
            (hmore 0 (Nat.zero_le i) hfailed)
        rw [turn_short (hdead _ htransfers) hshort rfl rfl rfl, if_neg (by rw [hdone]; decide),
          if_neg (by rw [hfailed]; decide), if_pos hr, if_neg hadd'] at hturn
        contradiction
      have htransfers' := hcount hgu
      exact ⟨⟨hle.trans hu, by omega, by omega, hsame.mpr hgu⟩, by omega⟩
    have hdone : ∀ (u : Reading) q, (u.rest ≤ len ∧ v.io.transfers ≤ u.io.transfers ∧
          u.io.transfers ≤ v.io.transfers + j ∧ GivesUp net object u) →
        readTurn (fillBuffer net object 1) len u = .done q →
        ∃ (r : ReadResult) (t : State), q = some (r, t) ∧ r.ret < 0 := by
      rintro u q ⟨hu, htransfers, _, hgu⟩ hturn
      obtain ⟨r, t, hq, hiff⟩ := turn_done (hdead _ htransfers) hu hturn
      exact ⟨r, t, hq, hiff.mpr hgu⟩
    obtain ⟨q, ⟨enough, hq⟩, r, t, rfl, hret⟩ :=
      loop_total (fun u : Reading => v.io.transfers + j + 1 - u.io.transfers) hnext hdone
        ⟨hrest, le_rfl, by omega, hgives⟩
    exact ⟨enough, r, t, hq enough le_rfl, hret⟩

/-- A read with its calls and its loop under one bound. -/
theorem httpRead_neg_iff {s : State} :
    (∃ fuel q, httpRead net object len s fuel = some q ∧ q.1.ret < 0) ↔
      s.lBuf ≠ 0 ∧ ∃ fuel r t,
        loop (readTurn (fillBuffer net object 1) len) fuel ⟨s, len, []⟩ = some (some (r, t)) ∧
          r.ret < 0 := by
  unfold httpRead httpReadWith
  by_cases hl : s.lBuf = 0
  · simp only [hl, if_true, Option.some_inj]
    refine iff_of_false ?_ fun h => h.1 rfl
    rintro ⟨_, q, rfl, hneg⟩
    exact absurd hneg (Int.lt_irrefl 0)
  · simp only [hl, if_false, not_false_eq_true, ne_eq, true_and, Option.join_eq_some_iff]
    constructor
    · rintro ⟨fuel, ⟨r, t⟩, hloop, hneg⟩
      cases fuel with
      | zero => contradiction
      | succ fuel =>
        rw [readTurn_fillBuffer] at hloop
        exact ⟨fuel + 1, r, t, hloop, hneg⟩
    · rintro ⟨fuel, r, t, hloop, hneg⟩
      refine ⟨fuel + 1, (r, t), ?_, hneg⟩
      rw [readTurn_fillBuffer]
      exact loop_mono hloop (Nat.le_succ fuel)

/-- A read that wants more than there is, of an object that goes on, when nothing comes any more
and every new start succeeds: it is never left. -/
theorem httpRead_never_returns {s : State}
    (hdead : ∀ i, s.transfers ≤ i → (net i).pieces = [] ∧ (net i).addAgain = 0)
    (hdone : s.doneReading = false) (hmore : ((s.off0 + s.lBuf : ℕ) : ℤ) < s.totalLength)
    (hshort : s.lBuf - s.pBuf < len) (hl : s.lBuf ≠ 0) (fuel : ℕ) :
    httpRead net object len s fuel = none := by
  unfold httpRead httpReadWith
  rw [if_neg hl]
  cases fuel with
  | zero => rfl
  | succ fuel =>
    rw [readTurn_fillBuffer, loop_diverges (I := fun v => s.transfers ≤ v.io.transfers ∧
      v.io.doneReading = false ∧ ((v.io.off0 + v.io.lBuf : ℕ) : ℤ) < v.io.totalLength ∧
      v.io.lBuf - v.io.pBuf < v.rest) ?_ ⟨le_rfl, hdone, hmore, hshort⟩]
    · rfl
    · rintro v ⟨htransfers, hdone, hmore, hshort⟩
      obtain ⟨hpieces, hadd⟩ := hdead v.io.transfers htransfers
      obtain ⟨u, hu⟩ : ∃ u : State, u = { v.io with pBuf := v.io.lBuf } := ⟨_, rfl⟩
      have hpieces' : (net u.transfers).pieces = [] := by rw [hu]; exact hpieces
      have hmore' : ((u.off0 + u.lBuf : ℕ) : ℤ) < lengthAt net object u 0 := by
        have htotal : u.totalLength = v.io.totalLength := by rw [hu]
        rw [lengthAt, if_neg (by omega), hu]
        exact hmore
      -- an error and a new start both lead to a state of the same kind
      rw [turn_short hpieces hshort hu rfl rfl, if_neg (by rw [hu, hdone]; decide)]
      have hfilled : filled net object u = _ := filled_dead hpieces'
      have hnext : ∀ io : State, io.transfers = u.transfers + 1 → io.doneReading = u.doneReading →
          io.off0 = u.off0 + u.lBuf → io.lBuf = 0 → io.totalLength = lengthAt net object u 0 →
          s.transfers ≤ io.transfers ∧ io.doneReading = false ∧
            ((io.off0 + io.lBuf : ℕ) : ℤ) < io.totalLength ∧
            io.lBuf - io.pBuf < v.rest - (v.io.lBuf - v.io.pBuf) := by
        intro io h₁ h₂ h₃ h₄ h₅
        rw [h₁, h₂, h₃, h₄, h₅]
        refine ⟨by rw [hu]; simp only; omega, by rw [hu]; exact hdone, hmore', by omega⟩
      split
      · exact ⟨_, rfl, by apply hnext <;> rw [hfilled]⟩
      · next hfailed =>
        have hr : Restarts net object u := by
          apply (restarts_dead_iff object hpieces' ?_ (by simpa using hfailed)).mpr hmore'
          rw [hu]
          exact hdone
        have hadd' : (net u.transfers).addAgain = 0 := by rw [hu]; exact hadd
        rw [if_pos hr, if_pos hadd']
        refine ⟨_, rfl, ?_⟩
        apply hnext
        · show (filled net object u).transfers = _
          rw [hfilled]
        · show (filled net object u).doneReading = _
          rw [hfilled]
        · show (filled net object u).off0 = _
          rw [hfilled]
        · rfl
        · show (filled net object u).totalLength = _
          rw [hfilled]

/-- From a point of a read on at which nothing comes any more, whatever errors curl reports: the
read returns an error if and only if a new start fails; and in every state an error that curl
reports in `fill_buffer` has the number of a new start. -/
theorem permanent_failure_iff {s : State}
    (hv : Visits (readTurn (fillBuffer net object 1) len) ⟨s, len, []⟩ v)
    (hdead : ∀ i, v.io.transfers ≤ i → (net i).pieces = []) :
    ((∃ fuel q, httpRead net object len s fuel = some q ∧ q.1.ret < 0) ↔
      s.lBuf ≠ 0 ∧ GivesUp net object v) ∧
    (∀ t fuel, t.pBuf = t.lBuf → t.doneReading = false → (net t.transfers).failed = true →
      ∃ u, fillBuffer net object (fuel + 1) t = some (fillRetry, u)) := by
  have hrest : v.rest ≤ len := rest_le_of_visits hv
  constructor
  · rw [httpRead_neg_iff]
    apply and_congr_right
    intro _
    rw [← loop_gives_up_iff hdead hrest]
    constructor
    · rintro ⟨fuel, r, t, hloop, hneg⟩
      obtain ⟨more, hmore⟩ := (hv.loop_iff _).mp ⟨fuel, hloop⟩
      exact ⟨more, r, t, hmore, hneg⟩
    · rintro ⟨fuel, r, t, hloop, hneg⟩
      obtain ⟨more, hmore⟩ := (hv.loop_iff _).mpr ⟨fuel, hloop⟩
      exact ⟨more, r, t, hmore, hneg⟩
  · intro t fuel hp hdone hfailed
    rw [fillBuffer_succ hp, fillResult]
    simp only [hdone, hfailed, Bool.false_eq_true, if_false, if_true]
    exact ⟨_, rfl⟩

end Loop

/-- One byte comes, then the connection is lost: each new start succeeds, and the transfer ends
with `CURLE_RECV_ERROR`. -/
def lostNet (i : ℕ) : Transfer :=
  if i = 0 then ⟨[1], true, true, none, 0, 0⟩
  else ⟨[], true, true, if i % 2 = 1 then some 56 else none, 0, 0⟩

/-- The reader of an object of three bytes behind the first of them. -/
def firstByte : State := ⟨⟨[], 0⟩, [1], 0, 3, 1, 0, false, 1, 1, [⟨[], 0⟩]⟩

theorem lostNet_dead (i : ℕ) (hi : 1 ≤ i) :
    (lostNet i).pieces = [] ∧ (lostNet i).addAgain = 0 := by
  unfold lostNet
  rw [if_neg (by omega)]
  exact ⟨rfl, rfl⟩

/-- Behind the first byte a read of two bytes does not return: nothing comes any more, and every
transfer that is started ends with an error. -/
theorem lostNet_read : httpOpenHdrs lostNet [1, 2, 3] [] 1 = some (some firstByte) ∧
    (∀ i, firstByte.transfers ≤ i → (lostNet i).pieces = []) ∧
    (∀ i, i % 2 = 1 → (lostNet i).failed = true) ∧
    ∀ fuel, httpRead lostNet [1, 2, 3] 2 firstByte fuel = none := by
  refine ⟨rfl, fun i hi => (lostNet_dead i hi).1, ?_,
    httpRead_never_returns lostNet_dead rfl (by decide) (by decide) (by decide)⟩
  intro i hi
  unfold lostNet
  rw [if_neg (by omega), if_pos hi]
  rfl

/-- The same network, when the new start in the fourth transfer is refused. -/
def refusedNet (i : ℕ) : Transfer :=
  { lostNet i with addAgain := if i = 4 then 5 else 0 }

theorem permanent_failure_iff_refused :
    httpOpenHdrs refusedNet [1, 2, 3] [] 1 = some (some firstByte) ∧
    (∃ fuel q, httpRead refusedNet [1, 2, 3] 2 firstByte fuel = some q ∧ q.1.ret < 0) ∧
    ∃ u, fillBuffer refusedNet [1, 2, 3] 1 { firstByte with pBuf := 1 } =
      some (fillRetry, u) := by
  have hdead : ∀ i, firstByte.transfers ≤ i → (refusedNet i).pieces = [] := by
    intro i hi
    have hpos : 1 ≤ i := hi
    exact (lostNet_dead i hpos).1
  obtain ⟨hread, herror⟩ := permanent_failure_iff
    (.refl : Visits (readTurn (fillBuffer refusedNet [1, 2, 3] 1) 2) _ ⟨firstByte, 2, []⟩) hdead
  refine ⟨rfl, hread.mpr ?_, herror { firstByte with pBuf := 1 } 0 rfl rfl rfl⟩
  exact ⟨by decide, by decide, rfl, 3, rfl, by decide, by decide⟩

end Wandio.HttpReader
