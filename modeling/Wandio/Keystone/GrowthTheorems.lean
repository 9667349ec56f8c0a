import Wandio.Jsmn.ReadingTheorems
import Wandio.Keystone.Model

/-!
# An array that grows

The array is made larger until the answer fits. As long as the number of tokens is not too large
for the argument of `jsmn_parse`, the calls together do what one call with a large array does.
-/

namespace Wandio.Keystone

open Loop Jsmn

/-- The largest array that is tried: twice its size is 0 as an `unsigned int`. -/
def largest : ℕ := 2 ^ 31

/-- A turn at `again:`. -/
def AgainTurn (js : List Byte) (s : ℕ × Parser) (turn : Turn (ℕ × Parser) (ℤ × Parser)) : Prop :=
  Yields (fun fuel => againBody js fuel s) turn

section Again

variable {js : List Byte} {s : ℕ × Parser} {p : Parser} {x : ℤ × Parser} {c j : ℕ}
  {turn : Turn (ℕ × Parser) (ℤ × Parser)}

theorem againBody_steady (js : List Byte) (s : ℕ × Parser) :
    Steady fun fuel => againBody js fuel s :=
  (jsmnParse_steady js _ _).map _

theorem parseResponse_yields_iff :
    Yields (parseResponse js) x ↔ Ends (AgainTurn js) (128, jsmnInit) x :=
  nested_yields_iff (againBody_steady js)

theorem againTurn_iff : AgainTurn js s turn ↔
    ∃ y, Ends (ParseTurn js (cUInt s.1)) s.2.enter y ∧
      turn = if y.1 = JsmnErr.nomem.code then .next (2 * s.1 % 2 ^ 64, y.2) else .done y := by
  unfold AgainTurn
  rw [(againBody_steady js s).yields_iff]
  simp only [againBody, Option.map_eq_some_iff]
  constructor
  · intro ⟨fuel, y, hy, hturn⟩
    exact ⟨y, jsmnParse_yields_iff.mp ((jsmnParse_steady js _ _).yields_iff.mpr ⟨fuel, hy⟩),
      hturn.symm⟩
  · intro ⟨y, hy, hturn⟩
    obtain ⟨fuel, hfuel⟩ := (jsmnParse_steady js _ _).yields_iff.mp (jsmnParse_yields_iff.mpr hy)
    exact ⟨fuel, y, hfuel, hturn.symm⟩

/-- The call that ends the loop has come to a state of its own. -/
theorem ends_last {n : ℕ} {s : Parser × ℤ} (h : Ends (ParseTurn js n) s x)
    (hs : s.2 = cInt s.1.toknext) : ParseTurn js n x.2.enter (.done x) := by
  induction h with
  | done hturn =>
    rw [hturn.done, Parser.enter, ← hs]
    exact hturn
  | next hturn _ ih => exact ih (hturn.next hs)

/-- The size of an array that is not yet the largest one. -/
theorem size_le (h : c * 2 ^ j = largest) : cUInt c = c ∧ c ≤ largest := by
  have hle : c ≤ largest := h ▸ Nat.le_mul_of_pos_right c (Nat.two_pow_pos j)
  exact ⟨cUInt_of_lt (hle.trans_lt (by decide)), hle⟩

/-- With an array of no tokens nothing is gained by trying again. -/
theorem not_ends_again_zero (h : Ends (AgainTurn js) s x) (hzero : cUInt s.1 = 0)
    (hfull : ParseTurn js 0 s.2.enter (.done (JsmnErr.nomem.code, s.2))) : False := by
  induction h with
  | done hturn =>
    obtain ⟨y, hy, heq⟩ := againTurn_iff.mp hturn
    rw [hzero] at hy
    obtain rfl := parse_unique hy (.done hfull)
    cases heq
  | @next s t x hturn _ ih =>
    obtain ⟨y, hy, heq⟩ := againTurn_iff.mp hturn
    rw [hzero] at hy
    obtain rfl := parse_unique hy (.done hfull)
    rw [if_pos rfl, Turn.next.injEq] at heq
    subst heq
    refine ih ?_ hfull
    unfold cUInt at hzero ⊢
    simp only
    omega

/-- What the calls come to is what one call with the largest array comes to. -/
theorem ends_of_again (h : Ends (AgainTurn js) s x) (hsize : s.1 * 2 ^ j = largest) :
    Ends (ParseTurn js largest) s.2.enter x ∧ x.1 ≠ JsmnErr.nomem.code := by
  induction h generalizing j with
  | @done s x hturn =>
    obtain ⟨y, hy, heq⟩ := againTurn_iff.mp hturn
    obtain ⟨hcast, hle⟩ := size_le hsize
    rw [hcast] at hy
    split at heq
    · cases heq
    · next hok =>
      obtain rfl := Turn.done.inj heq
      exact ⟨(ends_larger hle hy (enter_count _)).1 hok, hok⟩
  | @next s t x hturn hrest ih =>
    obtain ⟨y, hy, heq⟩ := againTurn_iff.mp hturn
    obtain ⟨hcast, hle⟩ := size_le hsize
    rw [hcast] at hy
    split at heq
    · next hfull =>
      obtain rfl := Turn.next.inj heq
      cases j with
      | zero =>
        -- the array cannot be made larger
        rw [pow_zero, Nat.mul_one] at hsize
        have hlast := ends_last hy (enter_count _)
        have hy' : y = (JsmnErr.nomem.code, y.2) := Prod.ext hfull rfl
        rw [hy'] at hlast
        refine (not_ends_again_zero hrest ?_ ?_).elim
        · rw [hsize]
          exact show cUInt (2 * largest % 2 ^ 64) = 0 by decide
        · rcases hlast.smaller (Nat.zero_le _) with hsame | hzero
          · exact hsame
          · exact hzero
      | succ j =>
        have hdouble : 2 * s.1 % 2 ^ 64 = 2 * s.1 := by
          apply Nat.mod_eq_of_lt
          unfold largest at hle
          omega
        have hsize' : 2 * s.1 * 2 ^ j = largest := by
          rw [← hsize, pow_succ', Nat.mul_left_comm, Nat.mul_assoc]
        rw [hdouble] at ih
        obtain ⟨hends, hok⟩ := ih hsize'
        exact ⟨((ends_larger hle hy (enter_count _)).2 hfull x).mp hends, hok⟩
    · cases heq

/-- If one call with the largest array has room enough, the calls come to its result. -/
theorem again_of_ends (hok : x.1 ≠ JsmnErr.nomem.code) (hsize : c * 2 ^ j = largest)
    (h : Ends (ParseTurn js largest) p.enter x) : Ends (AgainTurn js) (c, p) x := by
  induction j generalizing c p with
  | zero =>
    rw [pow_zero, Nat.mul_one] at hsize
    subst hsize
    refine .done (againTurn_iff.mpr ⟨x, ?_, (if_neg hok).symm⟩)
    rw [show cUInt largest = largest from by decide]
    exact h
  | succ j ih =>
    obtain ⟨hcast, hle⟩ := size_le hsize
    obtain ⟨y, hy⟩ := ends_smaller hle h
    obtain ⟨hsame, hresume⟩ := ends_larger hle hy (enter_count _)
    have hy' : Ends (ParseTurn js (cUInt c)) p.enter y := by rwa [hcast]
    by_cases hfull : y.1 = JsmnErr.nomem.code
    · have hdouble : 2 * c % 2 ^ 64 = 2 * c := by
        apply Nat.mod_eq_of_lt
        unfold largest at hle
        omega
      have hsize' : 2 * c * 2 ^ j = largest := by
        rw [← hsize, pow_succ', Nat.mul_left_comm, Nat.mul_assoc]
      refine .next (againTurn_iff.mpr ⟨y, hy', (if_pos hfull).symm⟩) ?_
      rw [hdouble]
      exact ih hsize' ((hresume hfull x).mpr h)
    · obtain rfl := parse_unique h (hsame hfull)
      exact .done (againTurn_iff.mpr ⟨x, hy', (if_neg hfull).symm⟩)

end Again

/-! ## The claim of the loop -/

/-- The loop ends, some array is large enough for a single call, and every single call whose array
is large enough ends in the same way: with the same result, the same tokens and the parser in the
same place. -/
def GrowthInvisible (js : List Byte) : Prop :=
  ∃ x, Yields (parseResponse js) x ∧ x.1 ≠ JsmnErr.nomem.code ∧
    (∃ n, n < 2 ^ 32 ∧ Yields (jsmnParse js n jsmnInit) x) ∧
    ∀ n y, n < 2 ^ 32 → Yields (jsmnParse js n jsmnInit) y → y.1 ≠ JsmnErr.nomem.code → y = x

/-- The text can be read to its end, and has no more tokens than the largest array. -/
def Countable (js : List Byte) : Prop := ∃ c, Yields (countTokens js) c ∧ c ≤ largest

section Growth

variable {js : List Byte} {k : ℕ}

theorem tracks_init : Tracks jsmnInit ⟨0, [], 0⟩ := ⟨rfl, rfl, rfl⟩

/-- Growing the array cannot be seen exactly if the tokens of the answer can be counted up to the
largest array: not if there are more of them, and not if the position runs round. -/
theorem growthInvisible_iff (js : List Byte) : GrowthInvisible js ↔ Countable js := by
  have hsize : 128 * 2 ^ 24 = largest := by decide
  constructor
  · intro ⟨x, hx, hok, _⟩
    obtain ⟨hends, -⟩ := ends_of_again (parseResponse_yields_iff.mp hx) hsize
    obtain ⟨c, hread, hc⟩ := ends_read_of_ends hends le_rfl tracks_init (enter_count _)
      (Nat.zero_le _) hok
    exact ⟨c, countTokens_yields_iff.mpr hread, hc⟩
  · intro ⟨c, hc, hle⟩
    obtain ⟨x, hends, hok⟩ := ends_of_ends_read (countTokens_yields_iff.mp hc) le_rfl hle
      tracks_init (s := jsmnInit.enter) (enter_count _) (Nat.zero_le _)
    refine ⟨x, ?_, hok, ⟨largest, by decide, jsmnParse_yields_iff.mpr hends⟩, ?_⟩
    · exact parseResponse_yields_iff.mpr (again_of_ends hok hsize hends)
    · intro n y _ hy hyok
      have hyends := jsmnParse_yields_iff.mp hy
      -- the smaller of the two arrays is large enough for both calls
      rcases Nat.le_total n largest with hn | hn
      · exact parse_unique ((ends_larger hn hyends (enter_count _)).1 hyok) hends
      · exact parse_unique hyends ((ends_larger hn hends (enter_count _)).1 hok)

/-- In particular it cannot be seen in an answer of less than two gigabytes. -/
theorem growthInvisible_of_short (hk : k < largest) (hend : EndsAt js k) : GrowthInvisible js := by
  obtain ⟨c, hc, hle⟩ := countTokens_of_endsAt hend (hk.trans (by decide))
  exact (growthInvisible_iff js).mpr ⟨c, hc, hle.trans hk.le⟩

/-- Blanks are read for ever if the position runs round among them. -/
theorem jsmnParse_blanks (hk : 2 ^ 32 ≤ k) (n fuel : ℕ) {p : Parser} (hp : p.pos < 2 ^ 32) :
    jsmnParse (List.replicate k 0x20) n p fuel = none := by
  have hblank : ∀ pos, pos < 2 ^ 32 → caseAt (List.replicate k 0x20) pos = .blank := by
    intro pos hpos
    rw [caseAt, List.getElem?_replicate, if_pos (by omega), Option.elim_some]
    decide
  have hloop : ∀ fuel (s : Parser × ℤ), s.1.pos < 2 ^ 32 →
      nested (fun fuel s => parseBody (List.replicate k 0x20) n fuel s.1 s.2) fuel s = none := by
    intro fuel
    induction fuel with
    | zero => exact fun _ _ => rfl
    | succ fuel ih =>
      intro s hs
      have hbody : parseBody (List.replicate k 0x20) n fuel s.1 s.2 =
          some (.next (s.1.advance, s.2)) := by
        simp only [parseBody, hblank _ hs]
      rw [nested, hbody, Option.bind_some]
      exact ih _ (Nat.mod_lt _ (by decide))
  exact hloop fuel _ hp

end Growth

/-- Four gigabytes of blanks keep the loop busy for ever. -/
theorem not_growthInvisible_blanks : ¬ GrowthInvisible (List.replicate (2 ^ 32) 0x20) := by
  intro ⟨x, ⟨enough, hx⟩, _⟩
  have hnone : ∀ fuel, parseResponse (List.replicate (2 ^ 32) 0x20) fuel = none := by
    intro fuel
    cases fuel with
    | zero => rfl
    | succ fuel =>
      rw [parseResponse, nested, againBody, jsmnParse_blanks le_rfl _ _ (Nat.two_pow_pos 32)]
      rfl
  have hsome := hx enough le_rfl
  rw [hnone] at hsome
  contradiction

end Wandio.Keystone
