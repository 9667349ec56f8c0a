import Wandio.Interface
import Wandio.Utils.Loop

/-!
# Readers on top of each other

The laws of a `ByteSource` are about a read that always returns. The read of a layer is a loop, and
over another layer it works only in the states that layer can be in. `Provides` is what the layer
above may rely on: in the states and with the bytes that `I` relates, every read comes to a result,
which continues the bytes. Seen from above, such a reader is `aborting` (what has not returned stays
so), or in the states of `I` it is a `ByteSource`; the two agree, so what is known over every
`ByteSource` holds over a layer.
-/

namespace Wandio.Provider

open Loop

variable {σ τ : Type*}

/-- A reader whose reads may not return, in a program that goes no further then. -/
def aborting (read : ℕ → σ → Option (ReadResult × σ)) : Source (Option σ) where
  read s len :=
    match s.bind (read len) with
    | some (r, t) => (r, some t)
    | none => (⟨0, []⟩, none)

/-- The reads of a loop, under a bound on its turns. -/
def bounded (read : ℕ → σ → ℕ → Option (ReadResult × σ)) (fuel : ℕ) : Source (Option σ) :=
  aborting fun len s => read len s fuel

/-- In the state `s` of the one source and `f s` of the other the reads of `n` bytes are the
same. -/
def Agrees (source : Source σ) (source' : Source τ) (f : σ → τ) (s : σ) (n : ℕ) : Prop :=
  source'.read (f s) n = ((source.read s n).1, f (source.read s n).2)

/-- In the states where `I` holds the bytes `rest` are still to come, and every read of fewer than
`limit` bytes returns some of them, and none only if there are none. -/
structure Provides (read : ℕ → σ → ℕ → Option (ReadResult × σ)) (limit : ℕ)
    (I : σ → List Byte → Prop) : Prop where
  next : ∀ s rest len, I s rest → len < limit → ∃ data t rest',
    Yields (read len s) (⟨data.length, data⟩, t) ∧ data.length ≤ len ∧ rest = data ++ rest' ∧
      I t rest' ∧ (0 < len → data = [] → rest = [])

theorem bounded_read {read : ℕ → σ → ℕ → Option (ReadResult × σ)} {s : σ} {len : ℕ}
    {q : ReadResult × σ} (h : Yields (read len s) q) :
    ∃ n, ∀ fuel, n ≤ fuel → (bounded read fuel).read (some s) len = (q.1, some q.2) := by
  obtain ⟨n, hn⟩ := h
  refine ⟨n, fun fuel hfuel => ?_⟩
  simp only [bounded, aborting, Option.bind_some, hn fuel hfuel]

namespace Provides

variable {read : ℕ → σ → ℕ → Option (ReadResult × σ)} {limit : ℕ} {I : σ → List Byte → Prop}
  {s : σ} {rest rest' : List Byte} {len : ℕ}

/-- The reads of a state say what is still to come. -/
theorem unique (h : Provides read limit I) (hlimit : 1 < limit) (hs : I s rest)
    (hs' : I s rest') : rest = rest' := by
  -- induction on the bytes to come, which a read of one byte makes fewer
  induction hn : rest.length using Nat.strong_induction_on generalizing s rest rest' with
  | _ n ih =>
    obtain ⟨data, t, left, hread, _, hrest, ht, hend⟩ := h.next s rest 1 hs hlimit
    obtain ⟨data', t', left', hread', _, hrest', ht', hend'⟩ := h.next s rest' 1 hs' hlimit
    have hsame := hread.unique hread'
    rw [Prod.mk.injEq, ReadResult.mk.injEq] at hsame
    obtain ⟨⟨-, rfl⟩, rfl⟩ := hsame
    by_cases hnil : data = []
    · rw [hend one_pos hnil, hend' one_pos hnil]
    · have hpos := List.length_pos_iff.mpr hnil
      have hlt : left.length < n := by
        rw [← hn, hrest, List.length_append]
        omega
      rw [hrest, hrest', ih left.length hlt ht ht' rfl]

/-- The same reader with its states written down in another way. -/
theorem map (h : Provides read limit I) {read' : ℕ → τ → ℕ → Option (ReadResult × τ)}
    (f : σ → τ) (hread : ∀ len s fuel, read' len (f s) fuel =
      (read len s fuel).map fun q => (q.1, f q.2)) :
    Provides read' limit fun t rest => ∃ s, t = f s ∧ I s rest where
  next t rest len ht hlen := by
    obtain ⟨s, rfl, hs⟩ := ht
    obtain ⟨data, u, rest', hyields, hle, hrest, hu, hend⟩ := h.next s rest len hs hlen
    refine ⟨data, f u, rest', ?_, hle, hrest, ⟨u, rfl, hu⟩, hend⟩
    have hmap : read' len (f s) = fun fuel => (read len s fuel).map fun q => (q.1, f q.2) := by
      funext fuel
      exact hread len s fuel
    rw [hmap]
    exact hyields.map fun q => (q.1, f q.2)

section ByteSource

open Classical in
/-- What is still to come in a state. -/
noncomputable def content (I : σ → List Byte → Prop) (s : σ) : List Byte :=
  if h : ∃ rest, I s rest then h.choose else []

open Classical in
/-- What a read comes to; one of `limit` bytes or more is made a smaller one. -/
noncomputable def settled (read : ℕ → σ → ℕ → Option (ReadResult × σ)) (limit : ℕ)
    (I : σ → List Byte → Prop) (s : σ) (len : ℕ) : ReadResult × σ :=
  if h : (∃ rest, I s rest) ∧ ∃ q, Yields (read (min len (limit - 1)) s) q then h.2.choose
  else (⟨0, []⟩, s)

theorem content_eq (h : Provides read limit I) (hlimit : 1 < limit) (hs : I s rest) :
    content I s = rest := by
  have hex : ∃ rest, I s rest := ⟨rest, hs⟩
  rw [content, dif_pos hex]
  exact h.unique hlimit hex.choose_spec hs

theorem content_of_not (hs : ¬ ∃ rest, I s rest) : content I s = [] := by
  rw [content, dif_neg hs]

theorem settled_of_not (hs : ¬ ∃ rest, I s rest) (len : ℕ) :
    settled read limit I s len = (⟨0, []⟩, s) := by
  rw [settled, dif_neg fun h => hs h.1]

/-- The read comes to the next bytes. -/
theorem settled_spec (h : Provides read limit I) (hlimit : 1 < limit) (hs : I s rest) (len : ℕ) :
    ∃ data t rest', settled read limit I s len = (⟨data.length, data⟩, t) ∧
      Yields (read (min len (limit - 1)) s) (⟨data.length, data⟩, t) ∧ data.length ≤ len ∧
      rest = data ++ rest' ∧ I t rest' ∧ (0 < len → data = [] → rest = []) := by
  obtain ⟨data, t, rest', hread, hle, hrest, ht, hend⟩ :=
    h.next s rest (min len (limit - 1)) hs (by omega)
  have hex : (∃ rest, I s rest) ∧ ∃ q, Yields (read (min len (limit - 1)) s) q :=
    ⟨⟨rest, hs⟩, _, hread⟩
  refine ⟨data, t, rest', ?_, hread, by omega, hrest, ht, fun hpos => hend (by omega)⟩
  rw [settled, dif_pos hex]
  exact hex.2.choose_spec.unique hread

/-- The reader as a source of bytes. -/
noncomputable def byteSource (h : Provides read limit I) (hlimit : 1 < limit) : ByteSource σ where
  read := settled read limit I
  content := content I
  read_zero s := by
    by_cases hs : ∃ rest, I s rest
    · obtain ⟨rest, hs⟩ := hs
      obtain ⟨data, t, rest', hread, _, hle, hrest, ht, _⟩ := h.settled_spec hlimit hs 0
      have hnil : data = [] := List.eq_nil_of_length_eq_zero (Nat.le_zero.mp hle)
      rw [hnil, List.nil_append] at hrest
      rw [hread, h.content_eq hlimit hs, h.content_eq hlimit ht, hnil, hrest]
      exact ⟨rfl, rfl⟩
    · rw [settled_of_not hs]
      exact ⟨rfl, rfl⟩
  read_eof s len hnil := by
    by_cases hs : ∃ rest, I s rest
    · obtain ⟨rest, hs⟩ := hs
      rw [h.content_eq hlimit hs] at hnil
      obtain ⟨data, t, rest', hread, _, _, hrest, ht, _⟩ := h.settled_spec hlimit hs len
      rw [hnil, eq_comm, List.append_eq_nil_iff] at hrest
      rw [hread, h.content_eq hlimit ht, hrest.1, hrest.2]
      exact ⟨rfl, rfl⟩
    · rw [settled_of_not hs]
      exact ⟨rfl, content_of_not hs⟩
  read_bytes s len hpos hne := by
    by_cases hs : ∃ rest, I s rest
    · obtain ⟨rest, hs⟩ := hs
      rw [h.content_eq hlimit hs] at hne ⊢
      obtain ⟨data, t, rest', hread, _, hle, hrest, ht, hend⟩ := h.settled_spec hlimit hs len
      have hdata : data ≠ [] := fun hnil => hne (hend hpos hnil)
      refine ⟨data.length, List.length_pos_iff.mpr hdata, hle, ?_, ?_, ?_⟩
      · rw [hrest, List.length_append]
        omega
      · rw [hread, hrest, List.take_left]
      · rw [hread, h.content_eq hlimit ht, hrest, List.drop_left]
    · exact absurd (content_of_not hs) hne

theorem byteSource_content (h : Provides read limit I) (hlimit : 1 < limit) (hs : I s rest) :
    (h.byteSource hlimit).content s = rest := h.content_eq hlimit hs

/-- A read of the source is a read of the reader. -/
theorem byteSource_read (h : Provides read limit I) (hlimit : 1 < limit) (hs : I s rest)
    (hlen : len < limit) : Yields (read len s) ((h.byteSource hlimit).read s len) := by
  obtain ⟨data, t, rest', hread, hyields, _⟩ := h.settled_spec hlimit hs len
  rw [Nat.min_eq_left (by omega)] at hyields
  show Yields (read len s) (settled read limit I s len)
  rw [hread]
  exact hyields

/-- The source stays in the states of `I`. -/
theorem byteSource_next (h : Provides read limit I) (hlimit : 1 < limit) (hs : I s rest)
    (len : ℕ) : ∃ rest', I ((h.byteSource hlimit).read s len).2 rest' := by
  obtain ⟨data, t, rest', hread, _, _, _, ht, _⟩ := h.settled_spec hlimit hs len
  show ∃ rest', I (settled read limit I s len).2 rest'
  rw [hread]
  exact ⟨rest', ht⟩

/-- Under a large enough bound the reader does what the source does. -/
theorem bounded_eq (h : Provides read limit I) (hlimit : 1 < limit) (hs : I s rest)
    (hlen : len < limit) : ∃ n, ∀ fuel, n ≤ fuel →
      Agrees (h.byteSource hlimit).toSource (bounded read fuel) some s len :=
  bounded_read (h.byteSource_read hlimit hs hlen)

end ByteSource

end Provides

end Wandio.Provider
