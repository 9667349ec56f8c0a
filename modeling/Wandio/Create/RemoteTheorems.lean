import Wandio.Create.RemoteModel
import Wandio.Create.ThreadedTheorems
import Wandio.HttpReader.SourceTheorems
import Wandio.SwiftReader.OpenTheorems

/-!
# Reading a remote object

From the name of the file to what the calls return: the url and the headers of the request, the http
reader as a base reader, and the stack on top of it.
-/

namespace Wandio.Create

open Jsmn Keystone Loop Provider SwiftReader Transition
open Environment (letters)
open HttpReader (Clean GoesOn Coherent httpSource)

variable {κ ζ ν θ σ : Type*}

/-! ## The name -/

/-- The names that `swift_open` can do something with are handed to it. -/
theorem selectBase_swift {filename : List Byte} (h : swiftPfx <+: filename) :
    selectBase filename = .swift := by
  obtain ⟨rest, rfl⟩ := h
  have hslashes : letters "://" = [0x3a, 0x2f, 0x2f] := by decide
  have hprefix : letters "swift://" = [0x73, 0x77, 0x69, 0x66, 0x74, 0x3a, 0x2f, 0x2f] := by decide
  have hscheme : strstr (letters "://") (swiftPfx ++ rest) =
      some [0x73, 0x77, 0x69, 0x66, 0x74] := by
    rw [swiftPfx, hslashes, hprefix]
    rfl
  have hswift : strstr (letters "swift://") (swiftPfx ++ rest) = some [] := by
    rw [swiftPfx, hprefix]
    rfl
  unfold selectBase
  rw [hscheme, hswift]
  rfl

/-- The url and the headers with which the object of a name is asked for: the name itself, or the
path of the name behind the storage url, with the token. -/
inductive Located (curl : Curl) (env : Environ) (filename : CString) :
    List Byte → List (List Byte) → Prop where
  | http (h : selectBase filename.bytes = .http) : Located curl env filename filename.bytes []
  | swift (ms : Members) (path : List Byte) (a : List Byte × List Byte)
      (hserver : ∀ creds answer, envCreds env = some creds → granted curl creds = some answer →
        Document (.object ms) answer.body ∧ answer.body.length < 2 ^ 31)
      (hshort : ShortDocument ms) (hpath : swiftPath filename = some path)
      (haccess : access curl env ms = some a) :
      Located curl env filename (a.2 ++ 0x2f :: path) [SwiftReader.buildAuthTokenHdr a.1]

section Opening

variable {curl : Curl} {env : Environ} {filename : CString} {url : List Byte}
  {hdrs : List (List Byte)}

/-- What is opened is the http reader for the url. -/
theorem openRemote_located (web : List Byte → Site) (h : Located curl env filename url hdrs) :
    Yields (openRemote curl env web filename) (.ok (connect web url hdrs)) := by
  cases h with
  | http h =>
    refine ⟨0, fun fuel _ => ?_⟩
    unfold openRemote
    rw [h, if_neg (by decide)]
  | swift ms path a hserver hshort hpath haccess =>
    have hgo : openRemote curl env web filename = swiftOpen curl env (connect web) filename := by
      funext fuel
      exact if_pos (selectBase_swift (prefix_of_swiftPath hpath))
    rw [swiftPath_eq] at hpath
    obtain ⟨⟨container, object⟩, hparse, rfl⟩ := Option.map_eq_some_iff.mp hpath
    have hopen := swiftOpen_of_parse hserver hshort (connect web) hparse
    rw [haccess, Option.bind_some] at hopen
    rw [hgo]
    exact hopen

end Opening

/-! ## The stack over an http reader -/

/-- Without threads, whatever the calls of the owner are: they return the contents of the file. -/
def Delivers (libs : Libraries κ ζ ν θ) (build : Build) (qatOpens autodetect : Bool)
    (base : ByteSource σ) (c : σ) (contents : List Byte) : Prop :=
  ∀ addr calls, (∀ a ∈ calls, a.length < 2 ^ 31) →
    ∃ p, createIoReader build qatOpens 0 autodetect base.toSource c = some (some p) ∧
      ∃ log t, Yields (fun fuel => runCalls
          (fun a s => wandioCall libs addr base.toSource a s fuel) calls
          (PeekReader.peekOpen (some (p.io libs)))) (log, t) ∧
        log.map Prod.fst = calls ∧ PeekReader.LogOk contents log

/-- With a thread, in every run of the two threads: the calls that have returned have returned the
contents of the file, and for all calls there are reads of the threaded reader with which they
return. -/
def DeliversThreaded (libs : Libraries κ ζ ν θ) (build : Build) (qatOpens autodetect : Bool)
    (base : ByteSource σ) (c : σ) (contents : List Byte) : Prop :=
  ∀ addr useThreads, useThreads ≠ 0 →
    ∃ p, createIoReader build qatOpens useThreads autodetect base.toSource c = some (some p) ∧
      p.threaded = true ∧ ∃ enough, ∀ fuel, enough ≤ fuel → ∀ maxBuffers, 0 < maxBuffers →
        (∀ lens s, (∀ l ∈ lens, l < 2 ^ 31) →
          Reachable (ThreadReader.system maxBuffers
            (producerReads libs addr base.toSource (p.io libs) fuel) lens) s →
          ∀ calls log t, runCalls threadedCall calls (PeekReader.peekOpen (some s.log)) =
              some (log, t) →
            log.map Prod.fst = calls ∧ PeekReader.LogOk contents log) ∧
        ∀ calls : List PeekReader.Call, contents.length + 2 ^ 21 ≤ 2 ^ 31 →
          (∀ a ∈ calls, a.length + 2 ^ 21 ≤ 2 ^ 31) →
          ∃ lens : List ℕ, (∀ l ∈ lens, l < 2 ^ 31) ∧ ∀ s,
            Reachable (ThreadReader.system maxBuffers
              (producerReads libs addr base.toSource (p.io libs) fuel) lens) s → s.calls = [] →
            (runCalls threadedCall calls (PeekReader.peekOpen (some s.log))).isSome

section Remote

variable {net : ℕ → HttpReader.Transfer} {object : List Byte} (hnet : Clean net)
  (hgoes : GoesOn net) (c : {s : HttpReader.State // Coherent object s})

/-- The first read of an http reader brings the magic number. -/
theorem firstChunk_httpSource (hstart : HttpReader.httpTell c.1 = 0) :
    (httpSource hnet hgoes).content c = object ∧
      (min 6 ((httpSource hnet hgoes).content c).length : ℤ) ≤
        firstChunk (httpSource hnet hgoes).toSource c := by
  have hsize : wandioBufferSize = 2 ^ 20 := rfl
  have hcontent : (httpSource hnet hgoes).content c = object := by
    show object.drop (HttpReader.httpTell c.1) = object
    rw [hstart, List.drop_zero]
  refine ⟨hcontent, ?_⟩
  obtain ⟨hresult, _⟩ := HttpReader.httpReadAll_result hnet hgoes c.2 wandioBufferSize rfl
  rw [hstart, Nat.sub_zero] at hresult
  have hret : firstChunk (httpSource hnet hgoes).toSource c =
      (min wandioBufferSize object.length : ℕ) := congrArg ReadResult.ret hresult
  rw [hcontent]
  omega

end Remote

/-- From a name to the contents: the reader for the object is opened with one request, which has the
headers, its reads are those of a source of bytes, and over that the stack gives the contents of the
object, with a thread and without. -/
theorem wandioCreate_remote (libs : Libraries κ ζ ν θ) (formats : Formats libs) (build : Build)
    (qatOpens autodetect : Bool) (curl : Curl) (env : Environ) (web : List Byte → Site)
    (filename : CString) (url : List Byte) (hdrs : List (List Byte))
    (hlocated : Located curl env filename url hdrs) (hnet : Clean (web url).net)
    (hgoes : GoesOn (web url).net) (hfirst : ((web url).net 0).Delivers)
    (hne : (web url).object ≠ []) (decoder : Option Decoder) (contents : List Byte)
    (henc : Encoded formats build qatOpens autodetect decoder (web url).object contents)
    (hsmall : contents.length < 2 ^ 31) :
    ∃ (s₀ : HttpReader.State) (base : ByteSource {s // Coherent (web url).object s})
      (c : {s // Coherent (web url).object s}),
      Yields (openRemote curl env web filename) (.ok (some s₀)) ∧
      s₀.requests = [⟨hdrs, 0⟩] ∧ c.1 = s₀ ∧
      (∀ s len, Yields (HttpReader.httpRead (web url).net (web url).object len s.1)
        ((base.read s len).1, (base.read s len).2.1)) ∧
      Delivers libs build qatOpens autodetect base c contents ∧
      DeliversThreaded libs build qatOpens autodetect base c contents := by
  obtain ⟨s₀, hopen, hrequests⟩ :=
    HttpReader.httpOpenHdrs_delivers (web url).object hnet hfirst hdrs 0
  have hcoherent := HttpReader.coherent_of_open hnet hne hopen
  have hconnect : connect web url hdrs = some s₀ := by
    unfold connect
    rw [hopen, Option.join_some]
  have hopened := openRemote_located web hlocated
  rw [hconnect] at hopened
  obtain ⟨hcontent, hchunk⟩ := firstChunk_httpSource hnet hgoes ⟨s₀, hcoherent⟩
    (HttpReader.tell_of_open hopen)
  have henc' := henc
  rw [← hcontent] at henc'
  refine ⟨s₀, httpSource hnet hgoes, ⟨s₀, hcoherent⟩, hopened, hrequests, rfl,
    fun s len => HttpReader.httpReadAll_yields hnet hgoes s.2 len, ?_, ?_⟩
  · intro addr calls hcalls
    obtain ⟨s, hcreate, hs⟩ := createIoReader_encoded 0 henc' rfl hchunk
    exact ⟨_, hcreate, calls_of_encoded addr henc' hs hsmall hcalls⟩
  · intro addr useThreads hthreads
    obtain ⟨s, hcreate, hs⟩ := createIoReader_encoded useThreads henc' rfl hchunk
    exact ⟨_, hcreate, by simpa using hthreads, threaded_of_encoded addr henc' hs⟩

/-- A bzip2 stream behind every url, four bytes in each transfer. -/
def letterSite : Site := ⟨fun _ => ⟨[4], true, true, none, 0, 0⟩, StreamReader.bzMember⟩

/-- An object of a container, and the server of the swift reader's example. -/
theorem wandioCreate_remote_letter :
    ∃ (s₀ : HttpReader.State) (base : ByteSource {s // Coherent StreamReader.bzMember s})
      (c : {s // Coherent StreamReader.bzMember s}),
      Yields (openRemote shortCurl shortEnv (fun _ => letterSite) (cstr "swift://c/o" (by decide)))
        (.ok (some s₀)) ∧
      c.1 = s₀ ∧ Delivers letterLibraries fullBuild false true base c [0x61] := by
  have hmembers : Encoded letterFormats fullBuild false true (some .bz) StreamReader.bzMember
      [0x61] :=
    .members .bz [(StreamReader.bzMember, [0x61])] rfl rfl (by decide) nofun
      (by simp [letterFormats, letterMember])
  have hlocated : Located shortCurl shortEnv (cstr "swift://c/o" (by decide)) (letters "a/c/o")
      [letters "X-Auth-Token: t"] :=
    .swift shortMembers (letters "c/o") (letters "t", letters "a") shortCurl_document
      shortDocument_shortMembers (by decide +kernel) (by decide +kernel)
  obtain ⟨s₀, base, c, hopen, _, hc, _, hdelivers, _⟩ := wandioCreate_remote letterLibraries
    letterFormats fullBuild false true shortCurl shortEnv (fun _ => letterSite) _ _ _ hlocated
    (fun _ => ⟨rfl, rfl, rfl, rfl⟩)
    (fun i => ⟨i, le_rfl, 4, List.mem_singleton_self _, by decide, by decide⟩)
    ⟨4, by decide, by decide, by decide⟩ (by decide) _ _ hmembers (by decide)
  exact ⟨s₀, base, c, hopen, hc, hdelivers⟩

end Wandio.Create
