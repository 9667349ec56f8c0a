import Wandio.Create.StackTheorems
import Wandio.Create.WriteStackModel
import Wandio.StdioWriter.AccumulateTheorems
import Wandio.StreamWriter.BzCloseTheorems
import Wandio.ThreadWriter.FlushTheorems

/-!
# Writing through the stack and reading back

What is written to a stack of writers can be read through a stack of readers. The two meet at the
file that a close leaves: it holds what has been written, or a member that the compressor has made
of it (`Sealed`), and to a reader it is then a file with these contents (`Encoded`).
-/

namespace Wandio.Create

open Acceptor Codec Loop Provider Transition

variable {κ μ ζ ν θ σ : Type*}

/-! ## The compressors and the decoders -/

/-- `Z_OK` and `LZMA_OK`; libbz2 has two such codes. -/
def kindAccepts : StreamReader.Kind → ℤ → Bool
  | .zlib => fun err => err = StreamWriter.zOk
  | .bz => fun err => err = StreamWriter.bzRunOk ∨ err = StreamWriter.bzOk
  | .lzma => fun err => err = StreamWriter.lzmaOk

/-- The codes that keep a close going. -/
def kindGoesOn : StreamReader.Kind → ℤ → Bool
  | .zlib => fun res => res ≠ StreamWriter.zStreamEnd ∧ res ≠ StreamWriter.zStreamError
  | .bz => fun err => err = StreamWriter.bzOk
  | .lzma => fun res => res = StreamWriter.lzmaOk

/-- What `avail_in` makes of a length. -/
def kindAvailIn : StreamReader.Kind → ℕ → ℕ
  | .zlib => cUInt
  | .bz => cUInt
  | .lzma => id

/-- What zlib and liblzma do when they compress: each makes a member of its format. -/
structure Archives {libs : Libraries κ ζ ν θ} (formats : Formats libs) (wlibs : Compressors μ) where
  At : StreamReader.Kind → μ → List Byte → List Byte → Prop
  Ending : StreamReader.Kind → μ → List Byte → List Byte → Prop
  held : StreamReader.Kind → μ → ℕ
  compresses : ∀ kind, kind ≠ .bz → StreamWriter.Compressor (wlibs.stream kind) (kindAccepts kind)
    (kindGoesOn kind) (kindEnd kind) (formats.Member kind) (At kind) (Ending kind) (held kind)
  flushes : StreamWriter.FlushesAt (wlibs.stream .zlib) StreamWriter.zStreamError (At .zlib)
  starts : ∀ kind level, At kind (wlibs.strm kind level) [] []

/-- The file is what a close leaves of `data`. -/
def Sealed {libs : Libraries κ ζ ν θ} (formats : Formats libs) (file data : List Byte) :
    Option StreamReader.Kind → Prop
  | none => file = data
  | some kind => formats.Member kind file data

section Reading

variable {libs : Libraries κ ζ ν θ} {formats : Formats libs} {build : Build} {qatOpens : Bool}
  {base : ByteSource σ} {file data : List Byte} {kind : Option StreamReader.Kind}

end Reading

/-! ## The stack as a layer -/

section Writing

variable {kernel : StdioWriter.Kernel} {s : StdioWriter.State} {data b : List Byte}

/-- The bytes of the stdio writer. -/
def Stores (s : StdioWriter.State) (data : List Byte) : Prop :=
  StdioWriter.Inv s ∧ s.bytes = data

theorem stdio_accepts (hkernel : StdioWriter.Accepting kernel) :
    Accepts (stdioWrite kernel) (StdioWriter.stdioWflush kernel) (2 ^ 31 - 4096) Stores where
  write s got b hs hb := by
    obtain ⟨hinv, hbytes⟩ := hs
    have hoffset := hinv.offset_lt
    rw [StdioWriter.minWriteSize_eq] at hoffset
    have hrange : (StdioWriter.Call.wwrite ⟨b, b.length, le_rfl⟩).InRange := by
      refine ⟨Int.natCast_nonneg _, ?_⟩
      rw [StdioWriter.minWriteSize_eq]
      show (b.length : ℤ) < _
      omega
    obtain ⟨t, hyields, hinv', hbytes'⟩ := StdioWriter.stdioWwrite_spec hkernel.takesSome hinv
      (w := ⟨b, b.length, le_rfl⟩) (Int.natCast_nonneg _) (by simp only; omega)
      (hkernel.taken hinv hrange)
    refine ⟨t, hyields, hinv', ?_⟩
    rw [hbytes', hbytes]
    simp [WriteCall.data]
  flush s got hs := by
    obtain ⟨hinv, hbytes⟩ := hs
    obtain ⟨hinv', _, hbytes'⟩ :=
      StdioWriter.stdioWflush_spec hinv (hkernel.taken (c := .wflush) hinv trivial)
    refine ⟨?_, hinv', hbytes'.trans hbytes⟩
    have hnonneg := hinv.offset_nonneg
    have hlt := hinv.offset_lt
    rw [StdioWriter.minWriteSize_eq] at hlt
    unfold StdioWriter.stdioWflush
    simp only [StdioWriter.State.request, hkernel _ _]
    rw [cInt_of_lt]
    · exact Int.natCast_nonneg _
    · have hlen : (StdioWriter.Request.write (s.buffer.take s.offset.toNat)).bytes.length ≤
          s.offset.toNat := by
        show (s.buffer.take s.offset.toNat).length ≤ _
        rw [List.length_take]
        exact Nat.min_le_left ..
      omega

variable {libs : Libraries κ ζ ν θ} {formats : Formats libs} {wlibs : Compressors μ}
  {archives : Archives formats wlibs} {kind : Option StreamReader.Kind} {iow : Iow μ}

/-- A stack to which `data` has been written. -/
inductive Holding (kernel : StdioWriter.Kernel) (archives : Archives formats wlibs) :
    Option StreamReader.Kind → List Byte → Iow μ → Prop where
  | stdio {data : List Byte} {s : StdioWriter.State} (h : Stores s data) :
      Holding kernel archives none data (.stdio s)
  | stream {kind : StreamReader.Kind} {data : List Byte}
      {s : StreamWriter.State μ (Option StdioWriter.State)} (hkind : kind ≠ .bz)
      (h : StreamWriter.Layered (stdioWrite kernel) Stores (archives.At kind) data s) :
      Holding kernel archives (some kind) data (.stream kind s)

theorem kindWwrite_eq (kind : StreamReader.Kind) (z : Coder μ StreamWriter.Action Byte)
    (child : Sink σ) (b : List Byte) : kindWwrite kind z child b =
      StreamWriter.wwrite z child (kindAccepts kind) (kindAvailIn kind) b := by
  cases kind <;> rfl

theorem kindWclose_eq (kind : StreamReader.Kind) (z : Coder μ StreamWriter.Action Byte)
    (child : Sink σ) : kindWclose kind z child = StreamWriter.wclose z child (kindGoesOn kind) := by
  cases kind <;> rfl

theorem kindAvailIn_eq (kind : StreamReader.Kind) {n : ℕ} (h : n < 2 ^ 32) :
    kindAvailIn kind n = n := by
  cases kind with
  | lzma => rfl
  | _ => exact cUInt_of_lt h

theorem wandioBufferSize_lt : wandioBufferSize < 2 ^ 31 - 4096 := by decide

/-- A write adds its bytes and returns their number. -/
theorem Holding.wwrite (hkernel : StdioWriter.Accepting kernel)
    (h : Holding kernel archives kind data iow) (hb : b.length < 2 ^ 31 - 4096) :
    ∃ t, Yields (iow.wwrite wlibs kernel b) ((b.length : ℤ), t) ∧
      Holding kernel archives kind (data ++ b) t := by
  have haccepts := stdio_accepts hkernel
  cases h with
  | stdio hs =>
    obtain ⟨t, hyields, ht⟩ := haccepts.write _ _ b hs hb
    have hmap := hyields.map fun q => (q.1, (Iow.stdio q.2 : Iow μ))
    exact ⟨.stdio t, hmap, .stdio ht⟩
  | @stream kind _ s hne hs =>
    have hz := (archives.compresses kind hne).toEncoder
    obtain ⟨t, hyields, ht⟩ := StreamWriter.wwriteOver_spec hz haccepts wandioBufferSize_lt
      (kindAvailIn kind) hs b
    rw [kindAvailIn_eq kind (by omega), List.take_length] at ht
    refine ⟨.stream kind t, ?_, .stream hne ht⟩
    have hcall : (Iow.stream kind s).wwrite wlibs kernel b = fun fuel =>
        (StreamWriter.wwriteOver (wlibs.stream kind) (stdioWrite kernel) (kindAccepts kind)
          (kindAvailIn kind) b s fuel).map fun q => (q.1, .stream kind q.2) := by
      funext fuel
      rw [Iow.wwrite, kindWwrite_eq]
      rfl
    rw [hcall]
    exact hyields.map fun q => (q.1, Iow.stream kind q.2)

/-- A flush leaves what has been written as it is. -/
theorem Holding.wflush (hkernel : StdioWriter.Accepting kernel)
    (h : Holding kernel archives kind data iow) :
    ∃ ret t, Yields (iow.wflush wlibs kernel) (ret, t) ∧ 0 ≤ ret ∧
      Holding kernel archives kind data t := by
  have haccepts := stdio_accepts hkernel
  cases h with
  | @stdio _ s hs =>
    obtain ⟨hret, ht⟩ := haccepts.flush _ _ hs
    exact ⟨_, .stdio (StdioWriter.stdioWflush kernel s).2, .pure _, hret, .stdio ht⟩
  | @stream kind _ s hne hs =>
    cases kind with
    | zlib =>
      obtain ⟨ret, t, hyields, hret, ht⟩ := StreamWriter.zlibWflushOver_spec archives.flushes
        haccepts wandioBufferSize_lt hs
      have hmap := hyields.map fun q => (q.1, Iow.stream .zlib q.2)
      exact ⟨ret, .stream .zlib t, hmap, hret, .stream hne ht⟩
    | bz => exact absurd rfl hne
    | lzma => exact ⟨0, .stream .lzma s, .pure _, le_rfl, .stream hne hs⟩

/-- A close leaves all of it in the file. -/
theorem Holding.wdestroy (hkernel : StdioWriter.Accepting kernel)
    (h : Holding kernel archives kind data iow) :
    ∃ t, Yields (iow.wdestroy wlibs kernel) t ∧ Sealed formats t.file data kind := by
  have haccepts := stdio_accepts hkernel
  have hclose : ∀ {s data}, Stores s data → (StdioWriter.stdioWclose kernel s).file = data := by
    intro s data hs
    obtain ⟨_, hfile, _⟩ :=
      StdioWriter.stdioWflush_spec hs.1 (hkernel.taken (c := .wflush) hs.1 trivial)
    exact hfile.trans hs.2
  cases h with
  | @stdio _ s hs => exact ⟨StdioWriter.stdioWclose kernel s, .pure _, hclose hs⟩
  | @stream kind _ s hne hs =>
    obtain ⟨t, m, hyields, hmember, ht⟩ :=
      StreamWriter.wcloseOver_spec (archives.compresses kind hne) haccepts wandioBufferSize_lt hs
    have hfile := hclose ht
    refine ⟨StdioWriter.stdioWclose kernel t, ?_, hfile.symm ▸ hmember⟩
    have hcall : (Iow.stream kind s).wdestroy wlibs kernel = fun fuel =>
        (StreamWriter.wcloseOver (wlibs.stream kind) (stdioWrite kernel) (kindGoesOn kind) s
          fuel).map (StdioWriter.stdioWclose kernel) := by
      funext fuel
      rw [Iow.wdestroy, kindWclose_eq]
      rfl
    rw [hcall]
    exact hyields.map _

/-! ## Runs -/

/-- A call of the owner of a writer without a thread. -/
theorem Holding.call (hkernel : StdioWriter.Accepting kernel)
    (h : Holding kernel archives kind data iow) (call : ThreadWriter.Call)
    (hcall : call.bytes.length < 2 ^ 31 - 4096) :
    ∃ q, Yields (wandioWcall wlibs kernel call iow) q ∧
      Holding kernel archives kind (data ++ call.bytes) q.2 ∧
      q.1 ≥ 0 ∧ (call ≠ .wflush → q.1 = call.bytes.length) := by
  cases call with
  | wwrite b =>
    obtain ⟨t, hyields, ht⟩ := h.wwrite hkernel hcall
    exact ⟨_, hyields, ht, Int.natCast_nonneg _, fun _ => rfl⟩
  | wflush =>
    obtain ⟨ret, t, hyields, hret, ht⟩ := h.wflush hkernel
    refine ⟨_, hyields, ?_, hret, fun hne => absurd rfl hne⟩
    rw [show ThreadWriter.Call.wflush.bytes = [] from rfl, List.append_nil]
    exact ht

/-- What the owner sees: every write returns the number of its bytes, and no flush fails. -/
def WritesOk (log : List (ThreadWriter.Call × ℤ)) : Prop :=
  ∀ e ∈ log, 0 ≤ e.2 ∧ (e.1 ≠ .wflush → e.2 = e.1.bytes.length)

/-- The calls of the owner and a close. -/
theorem Holding.calls (hkernel : StdioWriter.Accepting kernel)
    (h : Holding kernel archives kind [] iow) {calls : List ThreadWriter.Call}
    (hcalls : ∀ call ∈ calls, call.bytes.length < 2 ^ 31 - 4096) :
    ∃ log t u, Yields (fun fuel => runCalls
        (fun call iow => wandioWcall wlibs kernel call iow fuel) calls iow) (log, t) ∧
      log.map Prod.fst = calls ∧ WritesOk log ∧ Yields (t.wdestroy wlibs kernel) u ∧
      Sealed formats u.file (ThreadWriter.callBytes calls) kind := by
  obtain ⟨⟨log, t⟩, hrun, ⟨ht, hok⟩, hlog⟩ := runCalls_total
    (I := fun (log : List (ThreadWriter.Call × ℤ)) iow =>
      Holding kernel archives kind (ThreadWriter.callBytes (log.map Prod.fst)) iow ∧ WritesOk log)
    (fun log call iow hmem hiow => by
      obtain ⟨q, hq, hheld, hnonneg, hret⟩ := hiow.1.call hkernel call (hcalls call hmem)
      refine ⟨q, hq, ?_, ?_⟩
      · rw [List.map_append, ThreadWriter.callBytes_append]
        simpa [ThreadWriter.callBytes] using hheld
      · intro e he
        rcases List.mem_append.mp he with hold | hnew
        · exact hiow.2 e hold
        · rw [List.mem_singleton.mp hnew]
          exact ⟨hnonneg, hret⟩)
    [] ⟨h, fun _ he => absurd he List.not_mem_nil⟩
  rw [List.nil_append] at ht hok
  simp only at hlog ht hok
  rw [hlog] at ht
  obtain ⟨u, hu, hsealed⟩ := ht.wdestroy hkernel
  exact ⟨log, t, u, hrun, hlog, hok, hu, hsealed⟩

/-- What `thread_consumer` does comes to the same. -/
theorem Holding.consumed (hkernel : StdioWriter.Accepting kernel)
    (h : Holding kernel archives kind data iow) {ops : List ThreadWriter.ChildOp}
    (hops : ∀ op ∈ ops, op = .wflush ∨
      ∃ payload, op = .wwrite payload ∧ payload.length ≤ wandioBufferSize) :
    ∃ u, Yields (consumed wlibs kernel (ops ++ [.wdestroy]) iow) u ∧
      Sealed formats u.file (data ++ ThreadWriter.childBytes ops) kind := by
  induction ops generalizing data iow with
  | nil =>
    obtain ⟨u, hu, hsealed⟩ := h.wdestroy hkernel
    refine ⟨u, hu, ?_⟩
    rw [show ThreadWriter.childBytes [] = [] from rfl, List.append_nil]
    exact hsealed
  | cons op ops ih =>
    have hrest := fun op' hmem => hops op' (List.mem_cons_of_mem op hmem)
    rcases hops op (List.mem_cons_self ..) with rfl | ⟨payload, rfl, hle⟩
    · obtain ⟨ret, t, ht, _, hheld⟩ := h.wflush hkernel
      obtain ⟨u, hu, hsealed⟩ := ih hheld hrest
      exact ⟨u, ht.bind hu, hsealed⟩
    · obtain ⟨t, ht, hheld⟩ := h.wwrite hkernel (hle.trans_lt wandioBufferSize_lt)
      obtain ⟨u, hu, hsealed⟩ := ih hheld hrest
      refine ⟨u, ht.bind hu, ?_⟩
      rw [List.append_assoc] at hsealed
      exact hsealed

end Writing

section RoundTrip

variable {libs : Libraries κ ζ ν θ}

end RoundTrip

/-! ## A codec -/

/-- The header of a member, which begins with the magic number. -/
def kindHeader : StreamReader.Kind → List Byte
  | .zlib => [0x1f, 0x8b, 0x08, 0, 0, 0, 0, 0, 0, 0x03]
  | .bz => StreamWriter.bzHeader
  | .lzma => [0xfd, 0x37, 0x7a, 0x58, 0x5a, 0, 0, 0x04]

/-- A member: behind the header stand the escaped contents. -/
def escaped (kind : StreamReader.Kind) (data : List Byte) : List Byte :=
  kindHeader kind ++ StreamWriter.escape data

end Wandio.Create
