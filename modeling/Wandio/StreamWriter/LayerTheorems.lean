import Wandio.StreamWriter.CloseTheorems
import Wandio.Utils.Acceptor

/-!
# The writers over a `strm` structure as layers

Over a child that is itself a layer a writer does what it does over a sink of bytes: what has been
written to it is on its way through the compressor, and behind a close the child has all of it, as
one complete member.
-/

namespace Wandio.StreamWriter

open Acceptor Codec Loop

variable {κ σ τ : Type*}

/-- The same writer over a child whose states are written down in another way. -/
def State.map (f : σ → τ) (s : State κ σ) : State κ τ :=
  ⟨s.strm, s.nextIn, s.outbuff, f s.child, s.err⟩

/-! ## A child in other words -/

section Map

variable {z : Coder κ Action Byte} {child : Sink σ} {child' : Sink τ} {f : σ → τ} {s : State κ σ}

theorem wwriteTurn_map (accepts : ℤ → Bool) (len : ℕ)
    (hwrite : Agrees child child' f s.child s.outbuff) :
    wwriteTurn z child' accepts len (s.map f) =
      (wwriteTurn z child accepts len s).map (State.map f) fun q => (q.1, q.2.map f) := by
  have hwrite' : child'.write (s.map f).child (s.map f).outbuff = _ := hwrite
  have herr : (s.map f).err = s.err := rfl
  have hin : (s.map f).nextIn = s.nextIn := rfl
  have hroom : (s.map f).availOut = s.availOut := rfl
  unfold wwriteTurn
  simp only [herr, hin, hroom, hwrite']
  split
  · split
    · split <;> rfl
    · rfl
  · rfl

theorem wcloseTurn_map (goesOn : ℤ → Bool) (hwrite : Agrees child child' f s.child
    (s.outbuff ++ (z.call s.strm .finish s.nextIn s.availOut).output)) :
    wcloseTurn z child' goesOn (s.map f) =
      (wcloseTurn z child goesOn s).map (State.map f) (State.map f) := by
  have hwrite' : child'.write (s.map f).child
      ((s.map f).outbuff ++ (z.call s.strm .finish s.nextIn s.availOut).output) = _ := hwrite
  have hcall : z.call (s.map f).strm .finish (s.map f).nextIn (s.map f).availOut =
      z.call s.strm .finish s.nextIn s.availOut := rfl
  unfold wcloseTurn
  simp only [hcall, hwrite']
  split <;> rfl

end Map

/-! ## A compressor -/

/-- A compressor that makes a member of what it has taken. `At k fed out` says that in state `k`
it has taken `fed` and emitted `out`, and `Ending` the same while it finishes. When it finishes it
comes to the end of the stream, or with a code `goesOn` it holds no more than before, and less if
there was room. -/
structure Compressor (z : Coder κ Action Byte) (accepts goesOn : ℤ → Bool) (streamEnd : ℤ)
    (Member : List Byte → List Byte → Prop) (At Ending : κ → List Byte → List Byte → Prop)
    (held : κ → ℕ) : Prop extends Encoder z accepts At held where
  finish : ∀ k fed out room, At k fed out ∨ Ending k fed out →
    (z.call k .finish [] room).code = streamEnd ∧
        Member (out ++ (z.call k .finish [] room).output) fed ∨
      goesOn (z.call k .finish [] room).code = true ∧
        Ending (z.call k .finish [] room).state fed (out ++ (z.call k .finish [] room).output) ∧
        held (z.call k .finish [] room).state ≤ held k ∧
        (0 < room → held (z.call k .finish [] room).state < held k)
  stops : goesOn streamEnd = false

/-- A compressor that can be flushed while it runs. -/
def FlushesAt (z : Coder κ Action Byte) (streamError : ℤ) (At : κ → List Byte → List Byte → Prop) :
    Prop :=
  ∀ k fed out room, At k fed out → (z.call k .flush [] room).code ≠ streamError ∧
    At (z.call k .flush [] room).state fed (out ++ (z.call k .flush [] room).output)

/-- The loop of a close: no input is left, and what has been emitted is with the child or in
`outbuff`. -/
structure Draining (At Ending : κ → List Byte → List Byte → Prop) (child : ByteSink σ) (c : σ)
    (fed : List Byte) (s : State κ σ) : Prop where
  nil : s.nextIn = []
  room : s.outbuff.length ≤ wandioBufferSize
  emitted : ∃ out, (At s.strm fed out ∨ Ending s.strm fed out) ∧
    child.received s.child ++ s.outbuff = child.received c ++ out

section Close

variable {z : Coder κ Action Byte} {accepts goesOn : ℤ → Bool} {streamEnd : ℤ}
  {Member : List Byte → List Byte → Prop} {At Ending : κ → List Byte → List Byte → Prop}
  {held : κ → ℕ} {child : ByteSink σ} {c : σ} {fed : List Byte} {s : State κ σ}

/-- A turn of a close goes on with less held or a fresh `outbuff`, or the member is complete. -/
theorem Draining.turn
    (hz : Compressor z accepts goesOn streamEnd Member At Ending held)
    (h : Draining At Ending child c fed s) :
    (∃ t, wcloseTurn z child.toSink goesOn s = .next t ∧ Draining At Ending child c fed t ∧
        2 * held t.strm + (if t.availOut = 0 then 1 else 0) <
          2 * held s.strm + if s.availOut = 0 then 1 else 0) ∨
      ∃ t m, wcloseTurn z child.toSink goesOn s = .done t ∧ Member m fed ∧
        child.received t.child = child.received c ++ m := by
  obtain ⟨out, hat, hout⟩ := h.emitted
  have hreceived : child.received (child.write s.child
      (s.outbuff ++ (z.call s.strm .finish [] s.availOut).output)).2 =
      child.received c ++ (out ++ (z.call s.strm .finish [] s.availOut).output) := by
    rw [child.received_write, ← List.append_assoc, hout, List.append_assoc]
  have hfinish := hz.finish s.strm fed out s.availOut hat
  unfold wcloseTurn
  rw [h.nil]
  set a := z.call s.strm .finish [] s.availOut with ha
  rcases hfinish with ⟨hend, hmember⟩ | ⟨hgoes, hending, hle, hlt⟩
  · right
    have hdone : ¬ goesOn a.code = true := by
      rw [hend, hz.stops]
      decide
    exact ⟨_, out ++ a.output, if_neg hdone, hmember, hreceived⟩
  · left
    have hfresh : wandioBufferSize - ([] : List Byte).length ≠ 0 := by decide
    refine ⟨_, if_pos hgoes, ⟨List.drop_nil, Nat.zero_le _, _, .inr hending, ?_⟩, ?_⟩
    · rw [List.append_nil]
      exact hreceived
    · show 2 * held a.state + (if wandioBufferSize - ([] : List Byte).length = 0 then 1 else 0) < _
      rw [if_neg hfresh]
      split
      · omega
      · next hroom =>
        have hless := hlt (Nat.pos_of_ne_zero hroom)
        omega

/-- A close comes to the end of the stream, and the child has the whole member then. -/
theorem wclose_member (hz : Compressor z accepts goesOn streamEnd Member At Ending held)
    (h : Draining At Ending child c fed s) :
    ∃ t m, Yields (wclose z child.toSink goesOn s) t ∧ Member m fed ∧
      child.received t.child = child.received c ++ m := by
  have htotal : ∃ t, Yields (fun fuel => loop (wcloseTurn z child.toSink goesOn) fuel s) t ∧
      ∃ m, Member m fed ∧ child.received t.child = child.received c ++ m := by
    apply loop_total (fun s : State κ σ => 2 * held s.strm + if s.availOut = 0 then 1 else 0)
      (I := Draining At Ending child c fed) _ _ h
    · intro s t hs ht
      rcases hs.turn hz with ⟨u, hu, hnext⟩ | ⟨u, m, hu, _⟩
      · rw [ht] at hu
        cases hu
        exact hnext
      · rw [ht] at hu
        cases hu
    · intro s r hs hr
      rcases hs.turn hz with ⟨u, hu, _⟩ | ⟨u, m, hu, hmember⟩
      · rw [hr] at hu
        cases hu
      · rw [hr] at hu
        cases hu
        exact ⟨m, hmember⟩
  obtain ⟨t, ht, m, hm⟩ := htotal
  exact ⟨t, m, ht, hm⟩

end Close

/-! ## A layer over a layer -/

section Layer

variable {z : Coder κ Action Byte} {write : List Byte → σ → ℕ → Option (ℤ × σ)}
  {flush : σ → ℤ × σ} {limit : ℕ} {I : σ → List Byte → Prop}
  {At Ending : κ → List Byte → List Byte → Prop} {held : κ → ℕ} {fed buffer : List Byte}

/-- The writer over a layer. -/
def wwriteOver (z : Coder κ Action Byte) (write : List Byte → σ → ℕ → Option (ℤ × σ))
    (accepts : ℤ → Bool) (availIn : ℕ → ℕ) (buffer : List Byte) (s : State κ (Option σ))
    (fuel : ℕ) : Option (ℤ × State κ (Option σ)) :=
  (wwrite z (bounded write fuel) accepts availIn buffer s fuel).filter fun q => q.2.child.isSome

/-- A flush of the zlib writer over a layer. -/
def zlibWflushOver (z : Coder κ Action Byte) (write : List Byte → σ → ℕ → Option (ℤ × σ))
    (flush : σ → ℤ × σ) (s : State κ (Option σ)) (fuel : ℕ) : Option (ℤ × State κ (Option σ)) :=
  (some (zlibWflush z { bounded write fuel with flush := abortingFlush flush } s)).filter
    fun q => q.2.child.isSome

/-- A close over a layer, and the child that is left. -/
def wcloseOver (z : Coder κ Action Byte) (write : List Byte → σ → ℕ → Option (ℤ × σ))
    (goesOn : ℤ → Bool) (s : State κ (Option σ)) (fuel : ℕ) : Option σ :=
  (wclose z (bounded write fuel) goesOn s fuel).bind State.child

/-- A writer over a layer between two calls: `fed` has been written to it. -/
def Layered (write : List Byte → σ → ℕ → Option (ℤ × σ)) (I : σ → List Byte → Prop)
    (At : κ → List Byte → List Byte → Prop) (fed : List Byte) (s : State κ (Option σ)) : Prop :=
  ∃ (u : State κ (σ × List Byte)) (c : σ × List Byte), s = u.map (fun p => some p.1) ∧ c.2 = [] ∧
    I u.child.1 u.child.2 ∧ Pumping At (byteSink write) c fed u ∧ u.nextIn = []

/-- The turns of a write keep the child in its states. -/
theorem wwriteTurn_child (h : Accepts write flush limit I) (hlarge : wandioBufferSize < limit)
    (accepts : ℤ → Bool) (len : ℕ) {u : State κ (σ × List Byte)} (hu : I u.child.1 u.child.2)
    (hroom : u.outbuff.length ≤ wandioBufferSize) :
    (wwriteTurn z (byteSink write).toSink accepts len u).All
      (fun t => I t.child.1 t.child.2 ∧ t.outbuff.length ≤ wandioBufferSize)
      fun q => I q.2.child.1 q.2.child.2 := by
  have hsettled := h.settled hu (show u.outbuff.length < limit by omega)
  have houtput := z.output_le u.strm .run u.nextIn u.availOut
  unfold wwriteTurn
  split
  · split
    · simp only
      split
      · exact .done hsettled
      · exact .next ⟨hsettled, Nat.zero_le _⟩
    · refine .next ⟨hu, ?_⟩
      have hleft : u.availOut = wandioBufferSize - u.outbuff.length := rfl
      simp only [List.length_append]
      omega
  · exact .done hu

/-- So do those of a close. -/
theorem wcloseTurn_child (h : Accepts write flush limit I) (hlarge : wandioBufferSize < limit)
    (goesOn : ℤ → Bool) {u : State κ (σ × List Byte)} (hu : I u.child.1 u.child.2)
    (hroom : u.outbuff.length ≤ wandioBufferSize) :
    (wcloseTurn z (byteSink write).toSink goesOn u).All
      (fun t => I t.child.1 t.child.2 ∧ t.outbuff.length ≤ wandioBufferSize)
      fun t => I t.child.1 t.child.2 := by
  have houtput := z.output_le u.strm .finish u.nextIn u.availOut
  have hlen : (u.outbuff ++ (z.call u.strm .finish u.nextIn u.availOut).output).length < limit := by
    have hleft : u.availOut = wandioBufferSize - u.outbuff.length := rfl
    rw [List.length_append]
    omega
  have hsettled := h.settled hu hlen
  unfold wcloseTurn
  simp only
  split
  · exact .next ⟨hsettled, Nat.zero_le _⟩
  · exact .done hsettled

theorem wwrite_of_ok {child : Sink σ} {accepts : ℤ → Bool} {availIn : ℕ → ℕ} {s : State κ σ}
    (h : s.err = .ok) : wwrite z child accepts availIn buffer s = fun fuel =>
      loop (wwriteTurn z child accepts buffer.length) fuel
        { s with nextIn := buffer.take (availIn buffer.length) } := by
  funext fuel
  unfold wwrite
  rw [h]

/-- A write over a layer: the compressor takes as many bytes as `avail_in` says. -/
theorem wwriteOver_spec {accepts : ℤ → Bool} (hz : Encoder z accepts At held)
    (h : Accepts write flush limit I) (hlarge : wandioBufferSize < limit) (availIn : ℕ → ℕ)
    {s : State κ (Option σ)} (hs : Layered write I At fed s) (buffer : List Byte) :
    ∃ t, Yields (wwriteOver z write accepts availIn buffer s) ((buffer.length : ℤ), t) ∧
      Layered write I At (fed ++ buffer.take (availIn buffer.length)) t := by
  obtain ⟨u, c, rfl, hc, hchild, hpump, hnil⟩ := hs
  obtain ⟨v, hv, hpump', hnil'⟩ := wwrite_spec hz availIn buffer hpump
  rw [wwrite_of_ok hpump.err] at hv
  set u₀ : State κ (σ × List Byte) := { u with nextIn := buffer.take (availIn buffer.length) }
    with hu₀
  have hturn : ∀ s : State κ (σ × List Byte),
      I s.child.1 s.child.2 ∧ s.outbuff.length ≤ wandioBufferSize →
      (wwriteTurn z (byteSink write).toSink accepts buffer.length s).All
        (fun t => I t.child.1 t.child.2 ∧ t.outbuff.length ≤ wandioBufferSize)
        fun q => I q.2.child.1 q.2.child.2 :=
    fun s hs => wwriteTurn_child h hlarge accepts buffer.length hs.1 hs.2
  have hinv : I u₀.child.1 u₀.child.2 ∧ u₀.outbuff.length ≤ wandioBufferSize :=
    ⟨hchild, hpump.room⟩
  have hmapped := Yields.loop_map (State.map fun p => some p.1)
    (fun q : ℤ × State κ (σ × List Byte) => (q.1, q.2.map fun p => some p.1)) hturn (fun s hs => by
      obtain ⟨n, hn⟩ := h.bounded_eq hs.1 (show s.outbuff.length < limit by omega)
      exact ⟨n, fun fuel hfuel => wwriteTurn_map accepts buffer.length (hn fuel hfuel)⟩) hinv hv
  have hchild' : I v.child.1 v.child.2 := by
    obtain ⟨n, hn⟩ := hv
    exact loop_all hturn hinv (hn n le_rfl)
  refine ⟨v.map fun p => some p.1, ?_, v, c, rfl, hc, hchild', hpump', hnil'⟩
  obtain ⟨n, hn⟩ := hmapped
  refine ⟨n, fun fuel hfuel => ?_⟩
  have hfinal := hn fuel hfuel
  rw [wwriteOver, wwrite_of_ok (show (u.map fun p => some p.1).err = .ok from hpump.err)]
  exact congrArg (Option.filter fun q => q.2.child.isSome) hfinal

/-- A close over a layer leaves a member in the child. -/
theorem wcloseOver_spec {accepts goesOn : ℤ → Bool} {streamEnd : ℤ}
    {Member : List Byte → List Byte → Prop}
    (hz : Compressor z accepts goesOn streamEnd Member At Ending held)
    (h : Accepts write flush limit I) (hlarge : wandioBufferSize < limit)
    {s : State κ (Option σ)} (hs : Layered write I At fed s) :
    ∃ t m, Yields (wcloseOver z write goesOn s) t ∧ Member m fed ∧ I t m := by
  obtain ⟨u, c, rfl, hc, hchild, hpump, hnil⟩ := hs
  obtain ⟨out, hat, hout⟩ := hpump.emitted
  obtain ⟨v, m, hv, hmember, hreceived⟩ :=
    wclose_member hz (⟨hnil, hpump.room, out, .inl hat, hout⟩ : Draining At Ending _ c fed u)
  have hturn : ∀ s : State κ (σ × List Byte),
      I s.child.1 s.child.2 ∧ s.outbuff.length ≤ wandioBufferSize →
      (wcloseTurn z (byteSink write).toSink goesOn s).All
        (fun t => I t.child.1 t.child.2 ∧ t.outbuff.length ≤ wandioBufferSize)
        fun t => I t.child.1 t.child.2 :=
    fun s hs => wcloseTurn_child h hlarge goesOn hs.1 hs.2
  have hinv : I u.child.1 u.child.2 ∧ u.outbuff.length ≤ wandioBufferSize := ⟨hchild, hpump.room⟩
  have hmapped := Yields.loop_map (State.map fun p => some p.1) (State.map fun p => some p.1) hturn
    (fun s hs => by
      have houtput := z.output_le s.strm .finish s.nextIn s.availOut
      have hleft : s.availOut = wandioBufferSize - s.outbuff.length := rfl
      have hlen : (s.outbuff ++ (z.call s.strm .finish s.nextIn s.availOut).output).length <
          limit := by
        rw [List.length_append]
        omega
      obtain ⟨n, hn⟩ := h.bounded_eq hs.1 hlen
      exact ⟨n, fun fuel hfuel => wcloseTurn_map goesOn (hn fuel hfuel)⟩) hinv hv
  have hchild' : I v.child.1 v.child.2 := by
    obtain ⟨n, hn⟩ := hv
    exact loop_all hturn hinv (hn n le_rfl)
  have hall : v.child.2 = m := by
    have hsum : v.child.2 = c.2 ++ m := hreceived
    rw [hsum, hc, List.nil_append]
  refine ⟨v.child.1, m, ?_, hmember, hall ▸ hchild'⟩
  obtain ⟨n, hn⟩ := hmapped
  refine ⟨n, fun fuel hfuel => ?_⟩
  rw [wcloseOver]
  exact congrArg (fun o => Option.bind o State.child) (hn fuel hfuel)

/-- A flush of the zlib writer over a layer takes nothing away and adds nothing. -/
theorem zlibWflushOver_spec (hz : FlushesAt z zStreamError At) (h : Accepts write flush limit I)
    (hlarge : wandioBufferSize < limit) {s : State κ (Option σ)} (hs : Layered write I At fed s) :
    ∃ ret t, Yields (zlibWflushOver z write flush s) (ret, t) ∧ 0 ≤ ret ∧
      Layered write I At fed t := by
  obtain ⟨u, c, rfl, hc, hchild, hpump, hnil⟩ := hs
  obtain ⟨out, hat, hout⟩ := hpump.emitted
  obtain ⟨hcode, hat'⟩ := hz u.strm fed out u.availOut hat
  have houtput := z.output_le u.strm .flush [] u.availOut
  have hroom := hpump.room
  set a := z.call u.strm .flush [] u.availOut with ha
  have hlen : (u.outbuff ++ a.output).length ≤ wandioBufferSize := by
    have hleft : u.availOut = wandioBufferSize - u.outbuff.length := rfl
    rw [List.length_append]
    omega
  have hsettled := h.settled hchild (hlen.trans_lt hlarge)
  obtain ⟨hret, hflushed⟩ := h.flush _ _ hsettled
  obtain ⟨n, hn⟩ := h.bounded_eq hchild (hlen.trans_lt hlarge)
  set t := settled write u.child.1 (u.outbuff ++ a.output) with ht
  set v : State κ (σ × List Byte) :=
    ⟨a.state, [], [], ((flush t).2, u.child.2 ++ (u.outbuff ++ a.output)), u.err⟩ with hv
  refine ⟨(flush t).1, v.map fun p => some p.1, ⟨n, fun fuel hfuel => ?_⟩, hret, v, c, rfl, hc,
    hflushed, ⟨hpump.err, Nat.zero_le _, _, hat', ?_⟩, rfl⟩
  · have hwrite : (bounded write fuel).write (some u.child.1) (u.outbuff ++ a.output) =
        (((u.outbuff ++ a.output).length : ℤ), some t) := hn fuel hfuel
    have hcall : z.call (u.map fun p => some p.1).strm .flush (u.map fun p => some p.1).nextIn
        (u.map fun p => some p.1).availOut = a := by
      rw [ha, ← hnil]
      rfl
    have hsmall : ¬ cInt ((u.outbuff ++ a.output).length : ℤ) < 0 := by
      have hsize : wandioBufferSize < 2 ^ 31 := by decide
      rw [cInt_of_lt (by omega)]
      omega
    have hwrite' : (bounded write fuel).write (u.map fun p => some p.1).child
        ((u.map fun p => some p.1).outbuff ++ a.output) = _ := hwrite
    simp only [zlibWflushOver, zlibWflush, hcall, hcode, hwrite', hsmall, abortingFlush,
      not_lt.mpr hret, if_false]
    have hdrop : (u.map fun p => some p.1).nextIn.drop a.consumed = [] := by
      rw [show (u.map fun p => some p.1).nextIn = u.nextIn from rfl, hnil, List.drop_nil]
    rw [hdrop]
    rfl
  · show u.child.2 ++ (u.outbuff ++ a.output) ++ [] = c.2 ++ (out ++ a.output)
    have hall : u.child.2 ++ u.outbuff = c.2 ++ out := hout
    rw [List.append_nil, ← List.append_assoc, hall, List.append_assoc]

end Layer

end Wandio.StreamWriter
