import Wandio.Create.ApiModel
import Wandio.Create.StackTheorems
import Wandio.LineReader.LayerTheorems

/-!
# The calls of the owner

In whatever order its owner reads, peeks and takes lines, a reader does what a list of the bytes of
the file would do: each call returns what stands at the place that the calls before it have come to.
-/

namespace Wandio.Create

open LineReader Loop PeekReader Provider

variable {κ ζ ν θ σ : Type*}

/-- What a call may return while the bytes `rest` are to come, and what is to come behind it: a line
is up to a newline, or as much as there is room for. -/
inductive Served : List Byte → ApiCall → ReadResult → List Byte → Prop where
  | io {a : Call} {r : ReadResult} {rest rest' : List Byte} (h : Hands rest r rest' a) :
      Served rest (.io a) r rest'
  | fgets {cbuf : ℕ} {call : FgetsCall} {bytes rest : List Byte}
      (h : bytes = line (call.len - 1).toNat (bytes ++ rest)) :
      Served (bytes ++ rest) (.fgets cbuf call) ⟨bytes.length, call.left bytes⟩ rest

/-- The calls of a log, from the beginning of `contents` to where `rest` is left. -/
inductive Serving (contents : List Byte) : List (ApiCall × ReadResult) → List Byte → Prop where
  | start : Serving contents [] contents
  | call {log : List (ApiCall × ReadResult)} {rest rest' : List Byte} {a : ApiCall} {r : ReadResult}
      (h : Serving contents log rest) (hcall : Served rest a r rest') :
      Serving contents (log ++ [(a, r)]) rest'

/-- The lengths are those of an `int`. -/
def ApiCall.Short : ApiCall → Prop
  | .io a => a.length < 2 ^ 31
  | .fgets _ call => call.len < 2 ^ 31

section Stack

variable {libs : Libraries κ ζ ν θ} {addr : ℕ → PeekReader.State σ → ℕ} {source : Source σ}
  {J : Io κ ζ ν θ σ → List Byte → Prop} {contents rest : List Byte}
  {u : PeekReader.State (Io κ ζ ν θ σ)}

/-- One call over the stack. -/
theorem apiCall_served (h : Provides (Io.read libs addr source) (2 ^ 32) J) (hone : 1 < 2 ^ 32)
    (hsmall : contents.length < 2 ^ 31) (hu : Standing h hone contents rest u) {a : ApiCall}
    (ha : a.Short) : ∃ r t rest', Yields (apiCall libs addr source a (u.map some)) (r, t.map some) ∧
      Served rest a r rest' ∧ Standing h hone contents rest' t := by
  have hpeek : peekSize = 2 ^ 20 := rfl
  have hmin : minReadSize = 2 ^ 12 := rfl
  have hbound : (2 ^ 31 + 2 ^ 20 : ℤ) + minReadSize < (2 ^ 32 : ℕ) := by omega
  cases a with
  | io a =>
    have hlen : a.length < 2 ^ 31 := ha
    obtain ⟨r, t, rest', hyields, hhands, ht⟩ := hu.call hbound (by omega) a (by omega)
    exact ⟨r, t, rest', hyields, .io hhands, ht⟩
  | fgets cbuf call =>
    have hlen : call.len < 2 ^ 31 := ha
    have hread := standing_provides h hone contents cbuf 2 hbound (by omega) (by omega)
    obtain ⟨_, rest', hyields, hrest, t, rfl, ht⟩ :=
      fgetsOver_yields hread (by decide) ⟨u, rfl, hu⟩ call hlen
    have hcall : Yields (apiCall libs addr source (.fgets cbuf call) (u.map some))
        (⟨(line (call.len - 1).toNat rest).length, call.left (line (call.len - 1).toNat rest)⟩,
          t.map some) := by
      obtain ⟨n, hn⟩ := hyields
      refine ⟨n, fun fuel hfuel => ?_⟩
      have hline := congrArg (Option.bind · fun q : (ℤ × List Byte) ×
        Option (PeekReader.State (Option (Io κ ζ ν θ σ))) => q.2.map fun t =>
          ((⟨q.1.1, q.1.2⟩ : ReadResult), t)) (hn fuel hfuel)
      exact hline
    have hserved : Served (line (call.len - 1).toNat rest ++ rest') (.fgets cbuf call)
        ⟨(line (call.len - 1).toNat rest).length, call.left (line (call.len - 1).toNat rest)⟩
        rest' := .fgets (by rw [← hrest])
    rw [← hrest] at hserved
    exact ⟨_, t, rest', hcall, hserved, ht⟩

variable {formats : Formats libs} {build : Build} {qatOpens autodetect : Bool}
  {base : ByteSource σ} {decoder : Option Decoder} {c : σ}

/-- The stack stands at the beginning of the contents. -/
theorem standing_open (addr : ℕ → PeekReader.State σ → ℕ) {file : List Byte}
    {s : PeekReader.State σ}
    (henc : Encoded formats build qatOpens autodetect decoder file contents)
    (hs : Inv base file [] s) :
    ∃ J, ∃ h : Provides (Io.read libs addr base.toSource) (2 ^ 32) J, ∃ hone : 1 < 2 ^ 32,
      Standing h hone contents contents (peekOpen (.open libs s decoder)) := by
  obtain ⟨J, hJ, hstart⟩ := io_provides addr henc hs
  have hone : 1 < 2 ^ 32 := by decide
  have hinv := inv_peekOpen (hJ.byteSource hone) (Io.open libs s decoder)
  rw [hJ.byteSource_content hone hstart] at hinv
  exact ⟨J, hJ, hone, ⟨[], rfl, hinv, le_rfl⟩, ⟨_, hstart⟩⟩

end Stack

/-- Without threads, whatever the calls of the owner are and in whatever order: they all return, and
one after the other they serve the contents of the file. -/
theorem wandioCreate_serves (libs : Libraries κ ζ ν θ) (formats : Formats libs) (build : Build)
    (qatOpens autodetect : Bool) (addr : ℕ → PeekReader.State σ → ℕ) (base : ByteSource σ) (c : σ)
    (decoder : Option Decoder) (contents : List Byte)
    (henc : Encoded formats build qatOpens autodetect decoder (base.content c) contents)
    (hfirst : (min 6 (base.content c).length : ℤ) ≤ firstChunk base.toSource c)
    (hsmall : contents.length < 2 ^ 31) (calls : List ApiCall) (hcalls : ∀ a ∈ calls, a.Short) :
    ∃ p, createIoReader build qatOpens 0 autodetect base.toSource c = some (some p) ∧
      ∃ log t rest, Yields (fun fuel => runCalls
          (fun a s => apiCall libs addr base.toSource a s fuel) calls
          (peekOpen (some (p.io libs)))) (log, t) ∧
        log.map Prod.fst = calls ∧ Serving contents log rest := by
  obtain ⟨s, hcreate, hs⟩ := createIoReader_encoded 0 henc rfl hfirst
  obtain ⟨J, hJ, hone, hopen⟩ := standing_open addr henc hs
  refine ⟨_, hcreate, ?_⟩
  have hcall : ∀ (log : List (ApiCall × ReadResult)) a
      (t : PeekReader.State (Option (Io κ ζ ν θ σ))), a ∈ calls →
      (∃ rest u, t = u.map some ∧ Standing hJ hone contents rest u ∧ Serving contents log rest) →
      ∃ q, Yields (apiCall libs addr base.toSource a t) q ∧ ∃ rest u, q.2 = u.map some ∧
        Standing hJ hone contents rest u ∧ Serving contents (log ++ [(a, q.1)]) rest := by
    rintro log a t ha ⟨rest, u, rfl, hu, hserving⟩
    obtain ⟨r, v, rest', hyields, hserved, hv⟩ := apiCall_served hJ hone hsmall hu (hcalls a ha)
    exact ⟨_, hyields, rest', v, rfl, hv, hserving.call hserved⟩
  obtain ⟨⟨log, t⟩, hrun, ⟨rest, u, _, _, hlast⟩, hlog⟩ :=
    runCalls_total hcall [] ⟨contents, _, rfl, hopen, .start⟩
  exact ⟨log, t, rest, hrun, hlog, hlast⟩

/-- A line from an xz stream, after a peek. -/
theorem wandioCreate_serves_line :
    ∃ p, createIoReader fullBuild false 0 true chunked.toSource (StreamReader.xzStream, []) =
        some (some p) ∧
      ∃ log t rest, Yields (fun fuel => runCalls
          (fun a s => apiCall letterLibraries (fun _ _ => 0) chunked.toSource a s fuel)
          [.io (.peek 0 1), .fgets 0 ⟨[7, 7, 7], 3, true, by decide⟩]
          (peekOpen (some (p.io letterLibraries)))) (log, t) ∧
        Serving [0x61] log rest := by
  have hmembers : Encoded letterFormats fullBuild false true (some .lzma)
      (StreamReader.xzStream, ([] : List ℕ)).1 [0x61] :=
    .members .lzma [(StreamReader.xzStream, [0x61])] rfl rfl (by decide) (fun _ => rfl)
      (by simp [letterFormats, letterMember])
  obtain ⟨p, hcreate, log, t, rest, hrun, _, hserving⟩ := wandioCreate_serves letterLibraries
    letterFormats fullBuild false true (fun _ _ => 0) chunked (StreamReader.xzStream, []) _ _
    hmembers (by decide) (by decide)
    [.io (.peek 0 1), .fgets 0 ⟨[7, 7, 7], 3, true, by decide⟩] (by
      intro a ha
      simp only [List.mem_cons, List.not_mem_nil, or_false] at ha
      rcases ha with rfl | rfl
      · exact (by decide : 1 < 2 ^ 31)
      · exact (by decide : (3 : ℤ) < 2 ^ 31))
  exact ⟨p, hcreate, log, t, rest, hrun, hserving⟩

end Wandio.Create
