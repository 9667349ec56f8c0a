import Wandio.Create.StackTheorems
import Wandio.ThreadReader.SequentialTheorems

/-!
# Reading through the stack with a thread

The threaded reader puts two threads and a ring between the decoder and the peeking reader on top.
Its results are those of a reader without threads, so the calls of the owner return what they return
without threads.
-/

namespace Wandio.Create

open Loop PeekReader Provider Transition

variable {κ ζ ν θ σ τ : Type*}

/-! ## The parent of the threaded reader -/

section Parent

variable {len : ℕ}

theorem readsOf_succ {source : Source τ} {s : τ} (h : 0 < (source.read s len).1.ret) (k : ℕ) :
    readsOf source len (k + 1) s = readsOf source len k (source.read s len).2 := if_pos h

theorem readsOf_of_end {source : Source τ} {s : τ} (h : ¬ 0 < (source.read s len).1.ret) (k : ℕ) :
    readsOf source len k s = (source.read s len).1 := by
  cases k with
  | zero => rfl
  | succ k => exact if_neg h

/-- The reads of a source of bytes are well behaved. -/
theorem wellBehaved_readsOf (source : ByteSource τ) (s : τ) :
    ThreadReader.WellBehaved fun k => readsOf source.toSource wandioBufferSize k s := by
  have hread : ∀ k s, ∃ data : List Byte,
      readsOf source.toSource wandioBufferSize k s = ⟨data.length, data⟩ ∧
        data.length ≤ wandioBufferSize := by
    intro k
    induction k with
    | zero =>
      intro s
      obtain ⟨data, t, hread, hle, _⟩ := source.read_spec s (show 0 < wandioBufferSize by decide)
      exact ⟨data, congrArg Prod.fst hread, hle⟩
    | succ k ih =>
      intro s
      by_cases hpos : 0 < (source.read s wandioBufferSize).1.ret
      · rw [readsOf_succ hpos]
        exact ih _
      · obtain ⟨data, t, hread, hle, _⟩ := source.read_spec s (show 0 < wandioBufferSize by decide)
        rw [readsOf_of_end hpos]
        exact ⟨data, congrArg Prod.fst hread, hle⟩
  constructor
  · intro k _
    obtain ⟨data, hk, _⟩ := hread k s
    simp only [hk]
  · intro k _
    obtain ⟨data, hk, hle⟩ := hread k s
    simp only [hk]
    exact hle
  · intro k
    obtain ⟨data, hk, _⟩ := hread k s
    simp only [hk]
    omega

theorem bytesUpTo_succ_left (parent : ℕ → ReadResult) (k : ℕ) :
    ThreadReader.bytesUpTo parent (k + 1) =
      (parent 0).data ++ ThreadReader.bytesUpTo (fun k => parent (k + 1)) k := by
  simp [ThreadReader.bytesUpTo, List.range_succ_eq_map, List.flatMap_map]

/-- They come to an end behind the last byte. -/
theorem ends_readsOf (source : ByteSource τ) (hlen : 0 < len) (s : τ) :
    ∃ K, ThreadReader.Ends (fun k => readsOf source.toSource len k s) K ∧
      ThreadReader.bytesUpTo (fun k => readsOf source.toSource len k s) K = source.content s ∧
      (readsOf source.toSource len K s).ret = 0 := by
  induction hn : (source.content s).length using Nat.strong_induction_on generalizing s with
  | _ n ih =>
    obtain ⟨data, t, hread, _, hcontent, hend⟩ := source.read_spec s hlen
    have hfirst : readsOf source.toSource len 0 s = ⟨data.length, data⟩ := congrArg Prod.fst hread
    by_cases hnil : data = []
    · have hzero : (readsOf source.toSource len 0 s).ret = 0 := by
        rw [hfirst, hnil]
        rfl
      refine ⟨0, ⟨fun i hi => absurd hi (Nat.not_lt_zero i), hzero.le⟩, ?_, hzero⟩
      rw [hend hnil]
      rfl
    · have hpos := List.length_pos_iff.mpr hnil
      have hret : 0 < (source.read s len).1.ret := by
        rw [hread]
        show (0 : ℤ) < data.length
        omega
      have hlt : (source.content t).length < n := by
        rw [← hn, hcontent, List.length_append]
        omega
      obtain ⟨K, ⟨hlive, hterm⟩, hbytes, hzero⟩ := ih _ hlt t rfl
      have hsucc : ∀ k,
          readsOf source.toSource len (k + 1) s = readsOf source.toSource len k t := by
        intro k
        rw [readsOf_succ hret, hread]
      refine ⟨K + 1, ⟨fun i hi => ?_, ?_⟩, ?_, ?_⟩
      · cases i with
        | zero => exact hret
        | succ i =>
          show 0 < (readsOf source.toSource len (i + 1) s).ret
          rw [hsucc]
          exact hlive i (by omega)
      · show (readsOf source.toSource len (K + 1) s).ret ≤ 0
        rw [hsucc]
        exact hterm
      · rw [bytesUpTo_succ_left]
        simp only [hsucc, hfirst]
        rw [hbytes, hcontent]
      · rw [hsucc]
        exact hzero

/-- Under a large enough bound the reads of a layer are those of the source of bytes. -/
theorem readsOf_bounded {read : ℕ → τ → ℕ → Option (ReadResult × τ)} {limit : ℕ}
    {J : τ → List Byte → Prop} (h : Provides read limit J) (hlimit : 1 < limit)
    (hlen : len < limit) {s : τ} {rest : List Byte} (hs : J s rest) :
    ∃ n, ∀ fuel, n ≤ fuel → ∀ k, readsOf (bounded read fuel) len k (some s) =
      readsOf (h.byteSource hlimit).toSource len k s := by
  induction hn : rest.length using Nat.strong_induction_on generalizing s rest with
  | _ n ih =>
    obtain ⟨m, hm⟩ := h.bounded_eq hlimit hs hlen
    obtain ⟨data, t, rest', hread, _, _, hrest, ht, hend⟩ := h.settled_spec hlimit hs len
    have hsource : (h.byteSource hlimit).read s len = (⟨data.length, data⟩, t) := hread
    by_cases hnil : data = []
    · refine ⟨m, fun fuel hfuel k => ?_⟩
      have hagrees : (bounded read fuel).read (some s) len = _ := hm fuel hfuel
      have hstop : ¬ 0 < ((h.byteSource hlimit).read s len).1.ret := by
        rw [hsource, hnil]
        exact lt_irrefl 0
      have hstop' : ¬ 0 < ((bounded read fuel).read (some s) len).1.ret := by
        rw [hagrees]
        exact hstop
      rw [readsOf_of_end hstop, readsOf_of_end hstop', hagrees]
    · have hdata := List.length_pos_iff.mpr hnil
      have hlt : rest'.length < n := by
        rw [← hn, hrest, List.length_append]
        omega
      obtain ⟨m', hm'⟩ := ih _ hlt ht rfl
      refine ⟨max m m', fun fuel hfuel k => ?_⟩
      have hagrees : (bounded read fuel).read (some s) len = _ :=
        hm fuel ((le_max_left _ _).trans hfuel)
      rw [hsource] at hagrees
      have hgoes : 0 < ((h.byteSource hlimit).read s len).1.ret := by
        rw [hsource]
        show (0 : ℤ) < data.length
        omega
      have hgoes' : 0 < ((bounded read fuel).read (some s) len).1.ret := by
        rw [hagrees]
        show (0 : ℤ) < data.length
        omega
      cases k with
      | zero =>
        show ((bounded read fuel).read (some s) len).1 = ((h.byteSource hlimit).read s len).1
        rw [hagrees, hsource]
      | succ k =>
        rw [readsOf_succ hgoes, readsOf_succ hgoes', hagrees, hsource]
        exact hm' fuel ((le_max_right _ _).trans hfuel) k

end Parent

/-! ## The reader on top -/

section Top

/-- The bytes of a list, as many at a time as are asked for, with the number of the reads so far. -/
def whole : ByteSource (List Byte × ℕ) where
  read s len := (⟨(s.1.take len).length, s.1.take len⟩, (s.1.drop len, s.2 + 1))
  content := Prod.fst
  read_zero s := by simp
  read_eof s len h := by simp [h]
  read_bytes s len hlen h := by
    have hpos := List.length_pos_iff.mpr h
    refine ⟨min len s.1.length, by omega, by omega, by omega, ?_, ?_⟩
    · rw [List.length_take, List.take_eq_take_min]
    · exact List.drop_eq_drop_min

variable {answers : List (ℕ × ReadResult)} {S : List Byte} {log : List (Call × ReadResult)}
  {s : PeekReader.State (List Byte × ℕ)}

/-- What is left of the answers of the threaded reader in a state of `whole`. -/
def answersLeft (answers : List (ℕ × ReadResult)) (c : List Byte × ℕ) :
    Option (List (ℕ × ReadResult)) := some (answers.drop c.2)

/-- The answers that are left are those over the bytes that are left. -/
def Answering (answers : List (ℕ × ReadResult)) (c : List Byte × ℕ) : Prop :=
  ∃ lens, answers.drop c.2 = ThreadReader.sequential 0 c.1 lens

/-- A read that is answered is one of `whole`. -/
theorem agrees_of_answered {c : List Byte × ℕ} {n : ℕ} (h : Answering answers c)
    (hsome : ((bounded answeredRead 0).read (answersLeft answers c) n).2.isSome) :
    Agrees whole.toSource (bounded answeredRead 0) (answersLeft answers) c n ∧
      Answering answers (whole.read c n).2 := by
  obtain ⟨lens, hlens⟩ := h
  have hdrop : answers.drop (c.2 + 1) = (answers.drop c.2).tail := by
    rw [List.tail_drop]
  unfold Agrees
  simp only [bounded, aborting, answersLeft, Option.bind_some] at hsome ⊢
  cases lens with
  | nil =>
    rw [hlens, ThreadReader.sequential, answeredRead] at hsome
    contradiction
  | cons len lens =>
    rw [ThreadReader.sequential] at hlens
    rw [hlens, answeredRead] at hsome
    by_cases heq : len = n
    · subst heq
      have hresult : (if 0 < len ∧ c.1 = [] then (0 : ℤ) else (c.1.take len).length) =
          (c.1.take len).length := by
        split
        · next hnil => rw [hnil.2, List.take_nil, List.length_nil, Nat.cast_zero]
        · rfl
      rw [hresult] at hlens
      refine ⟨?_, lens, ?_⟩
      · rw [hlens, answeredRead, if_pos rfl]
        show (_, some (ThreadReader.sequential 0 (c.1.drop len) lens)) = (_, some (answers.drop _))
        rw [show (whole.read c len).2.2 = c.2 + 1 from rfl, hdrop, hlens]
        rfl
      · show answers.drop (c.2 + 1) = _
        rw [hdrop, hlens]
        rfl
    · rw [if_neg heq] at hsome
      contradiction

/-- What the run of a reader with a thread keeps. -/
structure ThreadedRunning (answers : List (ℕ × ReadResult)) (S : List Byte)
    (log : List (Call × ReadResult)) (s : PeekReader.State (List Byte × ℕ)) : Prop where
  inv : PeekReader.Inv whole S (PeekReader.delivered log) s
  answering : Answering answers s.child
  ok : LogOk S log

/-- A call that is answered keeps its promises. -/
theorem threadedCall_spec (h : ThreadedRunning answers S log s) {a : Call} {r : ReadResult}
    {t' : PeekReader.State (Option (List (ℕ × ReadResult)))}
    (hcall : threadedCall a (s.map (answersLeft answers)) = some (r, t')) :
    ∃ t, t' = t.map (answersLeft answers) ∧
      ThreadedRunning answers S (log ++ [(a, r)]) t := by
  obtain ⟨⟨q, u⟩, hspec, hinv, hok⟩ := call_spec h.inv a
  have hwf := h.inv.wf
  have hlength : 0 ≤ s.length := h.inv.offset_nonneg.trans h.inv.offset_le
  rw [threadedCall, callOver, Option.filter_eq_some_iff] at hcall
  obtain ⟨hanswered, hsome⟩ := hcall
  have hasks : a.asks (s.map (answersLeft answers)) = a.asks s := by
    cases a <;> rfl
  -- the child is still there, so what has been asked for was the next answer
  have hread : ∀ n ∈ a.asks s,
      ((bounded answeredRead 0).read (answersLeft answers s.child) n).2.isSome := by
    intro n hn
    have hchild := call_child (s := s.map (answersLeft answers))
      ⟨hwf.offset_nonneg, hwf.offset_le, hwf.empty⟩ hlength hanswered
    rw [hasks, hn, Option.elim_some] at hchild
    rw [hchild] at hsome
    exact hsome
  have hmap : call (bounded answeredRead 0) a (s.map (answersLeft answers)) = _ :=
    call_map hwf fun n hn => (agrees_of_answered h.answering (hread n hn)).1
  rw [hanswered, hspec, Option.map_some, Option.some_inj, Prod.mk.injEq] at hmap
  obtain ⟨rfl, rfl⟩ := hmap
  refine ⟨u, rfl, hinv, ?_, h.ok.append hok⟩
  rw [call_child hwf hlength hspec]
  cases hn : a.asks s with
  | none => exact h.answering
  | some n => exact (agrees_of_answered h.answering (hread n hn)).2

/-- For the calls of an owner there are lengths of reads such that whoever answers these reads as
they should be answered keeps the calls going. -/
theorem exists_lens {calls : List Call} (hs : PeekReader.Inv whole S (PeekReader.delivered log) s)
    (hoffset : s.offset ≤ (PeekReader.delivered log).length) (hsmall : S.length + 2 ^ 21 ≤ 2 ^ 31)
    (hcalls : ∀ a ∈ calls, a.length + 2 ^ 21 ≤ 2 ^ 31) :
    ∃ lens : List ℕ, (∀ l ∈ lens, l < 2 ^ 31) ∧
      ∀ answers, answers.drop s.child.2 = ThreadReader.sequential 0 s.child.1 lens →
        (runCalls threadedCall calls (s.map (answersLeft answers))).isSome := by
  induction calls generalizing log s with
  | nil => exact ⟨[], fun l hl => absurd hl List.not_mem_nil, fun _ _ => rfl⟩
  | cons a calls ih =>
    have hwf := hs.wf
    have hlength : 0 ≤ s.length := hs.offset_nonneg.trans hs.offset_le
    obtain ⟨⟨r, t⟩, hcall, hinv, _⟩ := call_spec hs a
    have hchild := call_child hwf hlength hcall
    obtain ⟨lens, hlens, hrest⟩ := ih hinv (call_offset_le hs hoffset hcall) fun b hb =>
      hcalls b (List.mem_cons_of_mem _ hb)
    -- one call, and then the others
    have hstep : ∀ answers, (∀ n ∈ a.asks s,
        Agrees whole.toSource (bounded answeredRead 0) (answersLeft answers) s.child n) →
        answers.drop t.child.2 = ThreadReader.sequential 0 t.child.1 lens →
        (runCalls threadedCall (a :: calls) (s.map (answersLeft answers))).isSome := by
      intro answers hagrees hleft
      have hthreaded : threadedCall a (s.map (answersLeft answers)) =
          some (r, t.map (answersLeft answers)) := by
        rw [threadedCall, callOver, call_map hwf hagrees, hcall]
        rfl
      obtain ⟨q, hq⟩ := Option.isSome_iff_exists.mp (hrest answers hleft)
      rw [runCalls, hthreaded, Option.bind_some, hq]
      rfl
    cases hn : a.asks s with
    | none =>
      rw [hn, Option.elim_none] at hchild
      refine ⟨lens, hlens, fun answers hanswers => hstep answers ?_ ?_⟩
      · intro n hsome
        rw [hn] at hsome
        contradiction
      · rw [hchild]
        exact hanswers
    | some n =>
      rw [hn, Option.elim_some] at hchild
      have hle : (n : ℤ) ≤ 2 ^ 31 - 2 ^ 20 + minReadSize := by
        have hpeek : peekSize = 2 ^ 20 := rfl
        have ha := hcalls a (List.mem_cons_self ..)
        exact asks_le hs hoffset _ (by omega) (by omega) n hn
      have hmin : minReadSize = 2 ^ 12 := rfl
      refine ⟨n :: lens, fun l hl => ?_, fun answers hanswers => hstep answers ?_ ?_⟩
      · rcases List.mem_cons.mp hl with rfl | hl
        · omega
        · exact hlens l hl
      · intro n' hn'
        obtain rfl : n = n' := Option.some.inj (hn.symm.trans hn')
        apply (agrees_of_answered ⟨_, hanswers⟩ _).1
        simp only [bounded, aborting, answersLeft, Option.bind_some]
        rw [hanswers, ThreadReader.sequential, answeredRead, if_pos rfl]
        rfl
      · rw [hchild]
        show answers.drop (s.child.2 + 1) = _
        rw [← List.tail_drop, hanswers, ThreadReader.sequential]
        rfl

end Top

/-- The two threads of a reader that has been opened over a file that contains `contents`. -/
theorem threaded_of_encoded {libs : Libraries κ ζ ν θ} {formats : Formats libs} {build : Build}
    {qatOpens autodetect : Bool} (addr : ℕ → PeekReader.State σ → ℕ) {base : ByteSource σ}
    {file contents : List Byte} {decoder : Option Decoder} {s : PeekReader.State σ}
    (henc : Encoded formats build qatOpens autodetect decoder file contents)
    (hs : Inv base file [] s) :
    ∃ enough, ∀ fuel, enough ≤ fuel → ∀ maxBuffers, 0 < maxBuffers →
      (∀ lens u, (∀ l ∈ lens, l < 2 ^ 31) →
        Reachable (ThreadReader.system maxBuffers
          (producerReads libs addr base.toSource (.open libs s decoder) fuel) lens) u →
        ∀ calls log t, runCalls threadedCall calls (peekOpen (some u.log)) = some (log, t) →
          log.map Prod.fst = calls ∧ LogOk contents log) ∧
      ∀ calls : List Call, contents.length + 2 ^ 21 ≤ 2 ^ 31 →
        (∀ a ∈ calls, a.length + 2 ^ 21 ≤ 2 ^ 31) →
        ∃ lens : List ℕ, (∀ l ∈ lens, l < 2 ^ 31) ∧ ∀ u,
          Reachable (ThreadReader.system maxBuffers
            (producerReads libs addr base.toSource (.open libs s decoder) fuel) lens) u →
          u.calls = [] → (runCalls threadedCall calls (peekOpen (some u.log))).isSome := by
  obtain ⟨J, hJ, hstart⟩ := io_provides addr henc hs
  have hone : 1 < 2 ^ 32 := by decide
  obtain ⟨enough, hreads⟩ :=
    readsOf_bounded hJ hone (show wandioBufferSize < 2 ^ 32 by decide) hstart
  refine ⟨enough, fun fuel hfuel maxBuffers hn => ?_⟩
  have hcontent := hJ.byteSource_content hone hstart
  set source := hJ.byteSource hone
  obtain ⟨K, hend, hbytes, hzero⟩ := ends_readsOf source (show 0 < wandioBufferSize by decide)
    (Io.open libs s decoder)
  rw [hcontent] at hbytes
  have hparent : producerReads libs addr base.toSource (.open libs s decoder) fuel =
      fun k => readsOf source.toSource wandioBufferSize k (.open libs s decoder) := by
    funext k
    exact hreads fuel hfuel k
  rw [hparent]
  -- the threaded reader answers as one without threads
  have hanswers : ∀ lens u, (∀ l ∈ lens, l < 2 ^ 31) → Reachable (ThreadReader.system maxBuffers
      (fun k => readsOf source.toSource wandioBufferSize k (.open libs s decoder)) lens) u →
      u.log = ThreadReader.sequential 0 contents (u.log.map Prod.fst) ∧
        lens = u.log.map Prod.fst ++ u.calls := by
    intro lens u hsmall hu
    obtain ⟨head, k, hinv⟩ := ThreadReader.inv_reachable hn (wellBehaved_readsOf source _) hu
    have hlog := ThreadReader.eq_sequential hend hinv.log fun e he => by
      apply hsmall
      rw [hinv.lens_eq]
      exact List.mem_append_left _ (List.mem_map_of_mem he)
    rw [hbytes, hzero] at hlog
    exact ⟨hlog, hinv.lens_eq⟩
  have hopen : PeekReader.Inv whole contents [] (peekOpen (contents, 0)) :=
    inv_peekOpen whole (contents, 0)
  constructor
  · intro lens u hsmall hu calls log t hrun
    have hrunning : ThreadedRunning u.log contents [] (peekOpen (contents, 0)) :=
      ⟨hopen, ⟨_, (hanswers lens u hsmall hu).1⟩, Each.nil⟩
    refine ⟨runCalls_fst hrun, ?_⟩
    obtain ⟨v, _, hlast⟩ := runCalls_invariant
      (I := fun log t => ∃ v, t = v.map (answersLeft u.log) ∧ ThreadedRunning u.log contents log v)
      (fun log a v b w _ hv hcall => by
        obtain ⟨v', rfl, hrunning⟩ := hv
        exact threadedCall_spec hrunning hcall) [] ⟨_, rfl, hrunning⟩ hrun
    exact hlast.ok
  · intro calls hsmall hcalls
    obtain ⟨lens, hlens, hgoes⟩ := exists_lens
      (show PeekReader.Inv whole contents (PeekReader.delivered []) _ from hopen) le_rfl hsmall
      hcalls
    refine ⟨lens, hlens, fun u hu hdone => hgoes u.log ?_⟩
    obtain ⟨hlog, hall⟩ := hanswers lens u hlens hu
    rw [hdone, List.append_nil] at hall
    rw [hall]
    exact hlog

/-- With a thread, whoever of the two threads runs when and however many slots the ring has: the
calls of the owner that have returned have kept their promises, so what the reads have returned are
the contents of the file in order, to their end if one has returned 0, and the peeks what comes
next. Whatever the calls are, there are reads of the threaded reader such that when it has answered
these, all calls have returned. -/
theorem wandioCreate_threaded (libs : Libraries κ ζ ν θ) (formats : Formats libs) (build : Build)
    (qatOpens autodetect : Bool) (useThreads : ℕ) (hthreads : useThreads ≠ 0)
    (addr : ℕ → PeekReader.State σ → ℕ) (base : ByteSource σ) (c : σ)
    (decoder : Option Decoder) (contents : List Byte)
    (henc : Encoded formats build qatOpens autodetect decoder (base.content c) contents)
    (hfirst : (min 6 (base.content c).length : ℤ) ≤ firstChunk base.toSource c) :
    ∃ p, createIoReader build qatOpens useThreads autodetect base.toSource c = some (some p) ∧
      p.threaded = true ∧ ∃ enough, ∀ fuel, enough ≤ fuel → ∀ maxBuffers, 0 < maxBuffers →
        (∀ lens s, (∀ l ∈ lens, l < 2 ^ 31) →
          Reachable (ThreadReader.system maxBuffers
            (producerReads libs addr base.toSource (p.io libs) fuel) lens) s →
          ∀ calls log t, runCalls threadedCall calls (peekOpen (some s.log)) = some (log, t) →
            log.map Prod.fst = calls ∧ LogOk contents log) ∧
        ∀ calls : List Call, contents.length + 2 ^ 21 ≤ 2 ^ 31 →
          (∀ a ∈ calls, a.length + 2 ^ 21 ≤ 2 ^ 31) →
          ∃ lens : List ℕ, (∀ l ∈ lens, l < 2 ^ 31) ∧ ∀ s,
            Reachable (ThreadReader.system maxBuffers
              (producerReads libs addr base.toSource (p.io libs) fuel) lens) s → s.calls = [] →
            (runCalls threadedCall calls (peekOpen (some s.log))).isSome := by
  obtain ⟨s, hcreate, hs⟩ := createIoReader_encoded useThreads henc rfl hfirst
  exact ⟨_, hcreate, by simpa using hthreads, threaded_of_encoded addr henc hs⟩

/-- A bzip2 stream, with a ring of two slots. -/
theorem wandioCreate_threaded_letter :
    ∃ p, createIoReader fullBuild false 1 true chunked.toSource (StreamReader.bzMember, []) =
        some (some p) ∧
      ∃ fuel lens, ∀ s, Reachable (ThreadReader.system 2 (producerReads letterLibraries
          (fun _ _ => 0) chunked.toSource (p.io letterLibraries) fuel) lens) s →
        (s.calls = [] → (runCalls threadedCall [.read 0 5] (peekOpen (some s.log))).isSome) ∧
        ∀ log t, runCalls threadedCall [.read 0 5] (peekOpen (some s.log)) = some (log, t) →
          LogOk [0x61] log := by
  have hmembers : Encoded letterFormats fullBuild false true (some .bz)
      (StreamReader.bzMember, ([] : List ℕ)).1 [0x61] :=
    .members .bz [(StreamReader.bzMember, [0x61])] rfl rfl (by decide) nofun
      (by simp [letterFormats, letterMember])
  obtain ⟨p, hcreate, _, fuel, hfuel⟩ := wandioCreate_threaded letterLibraries letterFormats
    fullBuild false true 1 (by decide) (fun _ _ => 0) chunked (StreamReader.bzMember, []) _ _
    hmembers (by decide)
  obtain ⟨hsafe, hlive⟩ := hfuel fuel le_rfl 2 (by decide)
  obtain ⟨lens, hlens, hdone⟩ := hlive [.read 0 5] (by decide) (by decide)
  exact ⟨p, hcreate, fuel, lens, fun s hs => ⟨hdone s hs, fun log t hrun =>
    (hsafe lens s hlens hs _ log t hrun).2⟩⟩

end Wandio.Create
