import Wandio.LineReader.LineTheorems
import Wandio.Utils.Provider

/-!
# Reading lines from a layer

A line is read one byte at a time, so over a reader that is a layer itself `wandio_generic_fgets`
does what it does over a source of bytes, for every length.
-/

namespace Wandio.LineReader

open Loop Provider

variable {σ τ : Type*}

/-- The same variables over a file whose states are written down in another way. -/
def Reading.map (f : σ → τ) (v : Reading σ) : Reading τ := ⟨f v.file, v.buffer, v.i, v.done⟩

/-- What a call leaves in `buffer` that has read `bytes`. -/
def FgetsCall.left (call : FgetsCall) (bytes : List Byte) : List Byte :=
  if call.len ≤ 0 then call.buffer else stored (chomped call.chomp bytes) call.buffer

section Map

variable {source : Source σ} {source' : Source τ} {f : σ → τ} {v : Reading σ}

theorem fgetsTurn_map (h : Agrees source source' f v.file 1) (len : ℤ) (chomp : Bool) :
    fgetsTurn source' len chomp (v.map f) =
      (fgetsTurn source len chomp v).map (Reading.map f) fun r => (r.1, r.2.1, f r.2.2) := by
  have hread : source'.read (v.map f).file 1 = _ := h
  unfold fgetsTurn
  by_cases hgo : v.done = false ∧ v.i < len - 1
  · rw [if_pos hgo, if_pos (show (v.map f).done = false ∧ (v.map f).i < len - 1 from hgo), hread]
    simp only
    split
    · rfl
    · split
      · rfl
      · split <;> rfl
  · rw [if_neg hgo, if_neg (show ¬ ((v.map f).done = false ∧ (v.map f).i < len - 1) from hgo)]
    rfl

end Map

section Layer

variable {read : ℕ → σ → ℕ → Option (ReadResult × σ)} {limit : ℕ} {I : σ → List Byte → Prop}
  {s : σ} {rest : List Byte} {call : FgetsCall}

/-- The file stays in the states of `I`. -/
theorem fgetsTurn_file (h : Provides read limit I) (hlimit : 1 < limit) {v : Reading σ}
    (hv : ∃ rest, I v.file rest) (len : ℤ) (chomp : Bool) :
    (fgetsTurn (h.byteSource hlimit).toSource len chomp v).All
      (fun w => ∃ rest, I w.file rest) fun r => ∃ rest, I r.2.2 rest := by
  obtain ⟨rest, hrest⟩ := hv
  have hnext := h.byteSource_next hlimit hrest 1
  unfold fgetsTurn
  split
  · simp only
    split
    · exact .done hnext
    · split
      · exact .next hnext
      · split
        · exact .next hnext
        · exact .next hnext
  · exact .done ⟨rest, hrest⟩

/-- A call with room for more than the final zero. -/
theorem fgetsOver_long (h : Provides read limit I) (hlimit : 1 < limit) (hs : I s rest)
    (hlen : 2 ≤ call.len) (hint : call.len < 2 ^ 31) :
    ∃ t rest', Yields (fun fuel => wandioGenericFgets (bounded read fuel) call (some s) fuel)
        ((((line (call.len - 1).toNat rest).length : ℤ),
          call.left (line (call.len - 1).toNat rest)), some t) ∧
      rest = line (call.len - 1).toNat rest ++ rest' ∧ I t rest' := by
  obtain ⟨bytes, buffer, t, hyields, hread⟩ := fgets_spec (h.byteSource hlimit) call hlen hint s
  have hcontent := h.byteSource_content hlimit hs
  have hline := hread.line
  have hconsumed := hread.consumed
  have hbuffer := hread.buffer
  rw [hcontent] at hline hconsumed
  subst hline
  set source := (h.byteSource hlimit).toSource
  set start : Reading σ := ⟨s, call.buffer, 0, false⟩ with hstart
  have hcall : ∀ fuel, wandioGenericFgets source call s fuel =
      (loop (fgetsTurn source call.len call.chomp) fuel start).map
        fun r => ((r.1, r.2.1), r.2.2) := by
    intro fuel
    exact if_neg (by omega)
  -- the loop of the call, and the same over the layer
  obtain ⟨r, hloop, hr⟩ : ∃ r, Yields
      (fun fuel => loop (fgetsTurn source call.len call.chomp) fuel start) r ∧
      ((r.1, r.2.1), r.2.2) = ((((line (call.len - 1).toNat rest).length : ℤ), buffer), t) := by
    obtain ⟨n, hn⟩ := hyields
    have hsome := hn n le_rfl
    rw [hcall, Option.map_eq_some_iff] at hsome
    obtain ⟨r, hr, heq⟩ := hsome
    exact ⟨r, ⟨n, fun fuel hfuel => loop_mono hr hfuel⟩, heq⟩
  have hstate : ∃ rest, I start.file rest := ⟨rest, hs⟩
  have hturn := fun v (hv : ∃ rest, I (Reading.file v) rest) =>
    fgetsTurn_file h hlimit hv call.len call.chomp
  have hbody : ∀ v : Reading σ, (∃ rest, I v.file rest) → ∃ n, ∀ fuel, n ≤ fuel →
      fgetsTurn (bounded read fuel) call.len call.chomp (v.map some) =
        (fgetsTurn source call.len call.chomp v).map (Reading.map some)
          fun r => (r.1, r.2.1, some r.2.2) := by
    rintro v ⟨rest, hrest⟩
    obtain ⟨n, hn⟩ := h.bounded_eq hlimit hrest hlimit
    exact ⟨n, fun fuel hfuel => fgetsTurn_map (hn fuel hfuel) _ _⟩
  have hover : Yields
      (fun fuel => loop (fgetsTurn (bounded read fuel) call.len call.chomp) fuel (start.map some))
      (r.1, r.2.1, some r.2.2) :=
    hloop.loop_map (Reading.map some) (fun r => (r.1, r.2.1, some r.2.2)) hturn hbody hstate
  obtain ⟨n, hn⟩ := hloop
  obtain ⟨rest', ht⟩ := loop_all hturn hstate (hn n le_rfl)
  rw [Prod.mk.injEq, Prod.mk.injEq] at hr
  obtain ⟨⟨hcount, hbuf⟩, rfl⟩ := hr
  refine ⟨r.2.2, rest', ?_, ?_, ht⟩
  · have hmap := hover.map fun r => ((r.1, r.2.1), r.2.2)
    have hgo : (fun fuel => wandioGenericFgets (bounded read fuel) call (some s) fuel) =
        fun fuel => (loop (fgetsTurn (bounded read fuel) call.len call.chomp) fuel
          (start.map some)).map fun r => ((r.1, r.2.1), r.2.2) := by
      funext fuel
      exact if_neg (by omega)
    rw [hgo, FgetsCall.left, if_neg (by omega), ← hbuffer, ← hbuf, ← hcount]
    exact hmap
  · rw [h.byteSource_content hlimit ht] at hconsumed
    exact hconsumed

/-- A call reads the next line, whatever its length. -/
theorem fgetsOver_yields (h : Provides read limit I) (hlimit : 1 < limit) (hs : I s rest)
    (call : FgetsCall) (hint : call.len < 2 ^ 31) :
    ∃ t rest', Yields (fun fuel => wandioGenericFgets (bounded read fuel) call (some s) fuel)
        ((((line (call.len - 1).toNat rest).length : ℤ),
          call.left (line (call.len - 1).toNat rest)), some t) ∧
      rest = line (call.len - 1).toNat rest ++ rest' ∧ I t rest' := by
  by_cases hlong : 2 ≤ call.len
  · exact fgetsOver_long h hlimit hs hlong hint
  · have hnone : (call.len - 1).toNat = 0 := by omega
    rw [hnone, line]
    refine ⟨s, rest, ?_, rfl, hs⟩
    by_cases hpos : call.len ≤ 0
    · refine ⟨0, fun fuel _ => ?_⟩
      simp only [wandioGenericFgets, FgetsCall.left, if_pos hpos]
      rfl
    · -- there is room for the final zero
      have hfits := call.fits
      refine ⟨1, fun fuel hfuel => ?_⟩
      obtain ⟨n, rfl⟩ : ∃ n, fuel = n + 1 := ⟨fuel - 1, by omega⟩
      have hturn : fgetsTurn (bounded read (n + 1)) call.len call.chomp
          ⟨some s, call.buffer, 0, false⟩ = .done (0, call.buffer.set 0 0, some s) := by
        have hfull : ¬ (false = false ∧ (0 : ℤ) < call.len - 1) := by omega
        exact if_neg hfull
      simp only [wandioGenericFgets, FgetsCall.left, if_neg hpos, loop, hturn]
      have hstored : call.buffer.set 0 0 = stored (chomped call.chomp []) call.buffer := by
        rw [chomped_of_getLast?_ne _ (by simp)]
        have hroom : ([] : List Byte).length < call.buffer.length := by
          rw [List.length_nil]
          omega
        exact stored_eq hroom
      rw [← hstored]
      rfl

end Layer

end Wandio.LineReader
