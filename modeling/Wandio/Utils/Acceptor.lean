import Wandio.Interface
import Wandio.Utils.Loop

/-!
# Writers on top of each other

The laws of a `ByteSink` are about a write that always returns. The write of a layer is a loop, and
over another layer it works only in the states that layer can be in. `Accepts` is what the layer
above may rely on: in the states that `I` relates to the bytes written so far, every write and every
flush comes to a result, and the bytes are kept in order. Seen from above, such a writer is
`aborting` (what has not returned stays so), or with the bytes written beside its state it is a
`ByteSink`; in the states of `I` the two agree.
-/

namespace Wandio.Acceptor

open Loop

variable {σ τ : Type*}

/-- A writer whose writes may not return, in a program that goes no further then. -/
def aborting (write : List Byte → σ → Option (ℤ × σ)) : Sink (Option σ) where
  write s b :=
    match s.bind (write b) with
    | some (r, t) => (r, some t)
    | none => (0, none)

/-- The writes of a loop, under a bound on its turns. -/
def bounded (write : List Byte → σ → ℕ → Option (ℤ × σ)) (fuel : ℕ) : Sink (Option σ) :=
  aborting fun b s => write b s fuel

/-- A flush of such a writer. -/
def abortingFlush (flush : σ → ℤ × σ) (s : Option σ) : ℤ × Option σ :=
  match s with
  | some s => ((flush s).1, some (flush s).2)
  | none => (0, none)

/-- In the state `s` of the one writer and `f s` of the other the writes of `b` are the same. -/
def Agrees (child : Sink σ) (child' : Sink τ) (f : σ → τ) (s : σ) (b : List Byte) : Prop :=
  child'.write (f s) b = ((child.write s b).1, f (child.write s b).2)

/-- In the states where `I` holds the bytes `got` have been written. Every write of fewer than
`limit` bytes returns their number and adds them, and a flush leaves them as they are. -/
structure Accepts (write : List Byte → σ → ℕ → Option (ℤ × σ)) (flush : σ → ℤ × σ) (limit : ℕ)
    (I : σ → List Byte → Prop) : Prop where
  write : ∀ s got b, I s got → b.length < limit → ∃ t, Yields (write b s) ((b.length : ℤ), t) ∧
    I t (got ++ b)
  flush : ∀ s got, I s got → 0 ≤ (flush s).1 ∧ I (flush s).2 got

section Sink

variable {write : List Byte → σ → ℕ → Option (ℤ × σ)} {flush : σ → ℤ × σ} {limit : ℕ}
  {I : σ → List Byte → Prop} {s : σ} {got b : List Byte}

open Classical in
/-- What a write comes to. -/
noncomputable def settled (write : List Byte → σ → ℕ → Option (ℤ × σ)) (s : σ)
    (b : List Byte) : σ :=
  if h : ∃ t, Yields (write b s) ((b.length : ℤ), t) then h.choose else s

theorem settled_eq {t : σ} (h : Yields (write b s) ((b.length : ℤ), t)) :
    settled write s b = t := by
  have hex : ∃ t, Yields (write b s) ((b.length : ℤ), t) := ⟨t, h⟩
  rw [settled, dif_pos hex]
  exact (Prod.mk.inj (hex.choose_spec.unique h)).2

/-- The writer with all that has been written to it beside its state, as a sink of bytes. -/
noncomputable def byteSink (write : List Byte → σ → ℕ → Option (ℤ × σ)) :
    ByteSink (σ × List Byte) where
  write s b := (b.length, settled write s.1 b, s.2 ++ b)
  received := Prod.snd
  write_ret _ _ := rfl
  received_write _ _ := rfl

/-- The sink stays in the states of `I`. -/
theorem Accepts.settled (h : Accepts write flush limit I) (hs : I s got) (hb : b.length < limit) :
    I (Acceptor.settled write s b) (got ++ b) := by
  obtain ⟨t, hyields, ht⟩ := h.write s got b hs hb
  rw [settled_eq hyields]
  exact ht

/-- Under a large enough bound the writer does what the sink does. -/
theorem Accepts.bounded_eq (h : Accepts write flush limit I) (hs : I s got)
    (hb : b.length < limit) : ∃ n, ∀ fuel, n ≤ fuel →
      Agrees (byteSink write).toSink (bounded write fuel) (fun p => some p.1) (s, got) b := by
  obtain ⟨t, hyields, -⟩ := h.write s got b hs hb
  have hsettled := settled_eq hyields
  obtain ⟨n, hn⟩ := hyields
  refine ⟨n, fun fuel hfuel => ?_⟩
  simp only [Agrees, bounded, aborting, Option.bind_some, hn fuel hfuel, byteSink, hsettled]

end Sink

end Wandio.Acceptor
