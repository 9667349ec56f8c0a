import Wandio.QatWriter.Model

/-!
# What qat_wwrite returns

The loop goes on until `consumed` has come to `len`, and then the difference is returned.
-/

namespace Wandio.QatWriter

open Codec Loop

variable {κ σ : Type*} {qz : Qatzip κ} {child : Sink σ} {s : State κ σ}

/-- A write returns no positive number. -/
theorem qatWwriteLast_nonpos {buffer : List Byte} {len : ℤ} {last : Bool}
    (hok : s.err = .ok) {fuel : ℕ} {r : ℤ × State κ σ}
    (h : qatWwriteLast qz child buffer len last s fuel = some r) : r.1 ≤ 0 := by
  have hnext : ∀ v u : Writing κ σ, v.io.err = .ok →
      wwriteTurn qz child buffer len last v = .next u → u.io.err = .ok := by
    intro v u hv hu
    unfold wwriteTurn at hu
    split at hu
    · simp only at hu
      split at hu
      · cases hu
      · split at hu
        · cases hu
        · cases hu
          rfl
    · cases hu
  have hdone : ∀ (v : Writing κ σ) (r : ℤ × State κ σ), v.io.err = .ok →
      wwriteTurn qz child buffer len last v = .done r → r.1 ≤ 0 := by
    intro v r hv hr
    unfold wwriteTurn at hr
    split at hr
    · simp only at hr
      split at hr
      · cases hr
        exact (show (-1 : ℤ) ≤ 0 by decide)
      · split at hr
        · cases hr
          exact (show (-1 : ℤ) ≤ 0 by decide)
        · cases hr
    · next hleft =>
      -- nothing is left to be consumed
      cases hr
      have hall : ¬ v.consumed < len := fun hlt => hleft ⟨hv, hlt⟩
      simp only
      omega
  exact loop_invariant hnext hdone hok h

end Wandio.QatWriter
