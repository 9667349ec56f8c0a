import Wandio.Create.DetectionTheorems
import Wandio.Create.StackModel

/-!
# Reading through the stack

Whatever the base reader returns in one read, and however the caller reads and peeks: what comes out
at the top of the stack is the contents of the file. Each layer provides bytes for the next one, and
the peeking reader on top does over the stack what it does over a source of bytes.
-/

namespace Wandio.Create

open Codec Loop PeekReader Provider

variable {κ ζ ν θ σ : Type*}

/-! ## What a file contains -/

/-- The magic number of the data that a reader is for. -/
def kindMagic : StreamReader.Kind → Magic
  | .zlib => .gzip
  | .bz => .bzip
  | .lzma => .lzma

def kindDecoder : StreamReader.Kind → Decoder
  | .zlib => .zlib
  | .bz => .bz
  | .lzma => .lzma

/-- `Z_STREAM_END`, `BZ_STREAM_END` and `LZMA_STREAM_END` -/
def kindEnd : StreamReader.Kind → ℤ
  | .zlib => 1
  | .bz => 4
  | .lzma => 1

/-- What the libraries do on the data they are for: `Member` is a gzip member, a bzip2 stream or an
xz stream with its contents. -/
structure Formats (libs : Libraries κ ζ ν θ) where
  Member : StreamReader.Kind → List Byte → List Byte → Prop
  At : StreamReader.Kind → κ → List Byte → List Byte → Prop
  decodes : ∀ kind, MemberDecoder (libs.stream kind) 0 (kindEnd kind) (Member kind) (At kind)
  fresh : ∀ kind m c, Member kind m c → At kind (libs.strm kind) m c
  begins : ∀ kind m c, Member kind m c → (kindMagic kind).found m.length m = true

variable {libs : Libraries κ ζ ν θ} {formats : Formats libs} {build : Build}
  {qatOpens autodetect : Bool} {file contents : List Byte} {decoder : Option Decoder}

/-- The file contains `contents`, and `decoder` reads it: nothing has to be done to a file without a
magic number, or if detection is switched off; of members and streams that the build has a library
for the contents are those of all of them, but an xz file has one stream. -/
inductive Encoded (formats : Formats libs) (build : Build) (qatOpens autodetect : Bool) :
    Option Decoder → List Byte → List Byte → Prop where
  | plain {file : List Byte} (h : autodetect = false ∨ magicOf file = none) :
      Encoded formats build qatOpens autodetect none file file
  | members (kind : StreamReader.Kind) (ms : List (List Byte × List Byte))
      (hauto : autodetect = true)
      (hbuild : build.decoder qatOpens (kindMagic kind) = some (kindDecoder kind)) (hne : ms ≠ [])
      (hone : kind = .lzma → ms.length = 1) (hall : ∀ p ∈ ms, formats.Member kind p.1 p.2) :
      Encoded formats build qatOpens autodetect (some (kindDecoder kind)) (ms.flatMap Prod.fst)
        (ms.flatMap Prod.snd)

/-- The file begins as its first member does. -/
theorem magicOf_members {kind : StreamReader.Kind} {ms : List (List Byte × List Byte)}
    (hne : ms ≠ []) (hall : ∀ p ∈ ms, formats.Member kind p.1 p.2) :
    magicOf (ms.flatMap Prod.fst) = some (kindMagic kind) := by
  cases ms with
  | nil => exact absurd rfl hne
  | cons p ms =>
    have hfound := formats.begins kind p.1 p.2 (hall p (List.mem_cons_self ..))
    have htake : ((p :: ms).flatMap Prod.fst).take p.1.length = p.1 := by
      rw [List.flatMap_cons, List.take_left]
    have hle : p.1.length ≤ ((p :: ms).flatMap Prod.fst).length := by
      rw [List.flatMap_cons, List.length_append]
      omega
    rw [magicOf_eq_some]
    nth_rewrite 2 [← htake] at hfound
    exact ((found_take hle).mp hfound).1

/-! ## Opening -/

section Opening

variable {base : ByteSource σ} {c : σ}

/-- A first read that brings the magic number selects the decoder of the file, and the peek for it
takes nothing away. -/
theorem createIoReader_encoded (useThreads : ℕ)
    (henc : Encoded formats build qatOpens autodetect decoder file contents)
    (hfile : base.content c = file)
    (hfirst : (min 6 file.length : ℤ) ≤ firstChunk base.toSource c) :
    ∃ s, createIoReader build qatOpens useThreads autodetect base.toSource c =
        some (some ⟨decoder, s, useThreads ≠ 0⟩) ∧ Inv base file [] s := by
  obtain ⟨data, s, hpeek, hinv, hpre, hlen⟩ := peekPeek_spec (inv_peekOpen base c) 1024
  rw [hfile] at hinv hpre
  rw [List.nil_append] at hpre
  have hsupplied : supplied base.toSource 1024 (peekOpen c) = firstChunk base.toSource c := rfl
  have hlen' : (data.length : ℤ) = min 1024 (firstChunk base.toSource c) := by
    rw [← hsupplied]
    simpa [peekOpen] using hlen
  have hdata : data = file.take data.length := List.prefix_iff_eq_take.mp hpre
  refine ⟨s, ?_, hinv⟩
  unfold createIoReader
  rw [show peekPeek base.toSource 1024 (peekOpen c) = _ from hpeek]
  have hint : cInt (data.length : ℤ) = data.length := cInt_of_lt (by omega)
  have hio : (if autodetect then detect build qatOpens data.length data else some none) =
      some decoder := by
    have hdetect := detect_take build qatOpens hpre.length_le
    rw [← hdata] at hdetect
    cases henc with
    | plain h =>
      rcases h with hauto | hmagic
      · rw [hauto]
        rfl
      · rw [hdetect, hmagic]
        split <;> rfl
    | members kind ms hauto hbuild hne _ hall =>
      have hmagic := magicOf_members hne hall
      have hsize : (kindMagic kind).size ≤ data.length := by
        have hfound := magicOf_eq_some.mp hmagic
        rw [Magic.found, decide_eq_true_iff] at hfound
        have hsix := size_le (kindMagic kind)
        omega
      rw [if_pos hauto, hdetect, hmagic]
      simp only
      rw [if_pos hsize, hbuild]
      rfl
  simp only [Option.map_some, hint, hio]

end Opening

/-! ## The stack as a layer -/

section Stack

variable {base : ByteSource σ} {addr : ℕ → PeekReader.State σ → ℕ} {s : PeekReader.State σ}

/-- Up to the decoder the stack provides the contents of the file. -/
theorem io_provides (addr : ℕ → PeekReader.State σ → ℕ)
    (henc : Encoded formats build qatOpens autodetect decoder file contents)
    (hs : Inv base file [] s) : ∃ J, Provides (Io.read libs addr base.toSource) (2 ^ 32) J ∧
      J (.open libs s decoder) contents := by
  have hbase := peekRead_provides base addr (2 ^ 32)
  have hone : 1 < 2 ^ 32 := by decide
  have hlarge : wandioBufferSize < 2 ^ 32 := by decide
  have hstart : ∃ given, Inv base (given ++ file) given s := ⟨[], hs⟩
  have hcontent : (hbase.byteSource hone).content s = file := hbase.byteSource_content hone hstart
  cases henc with
  | plain h =>
    exact ⟨_, hbase.map Io.base fun _ _ _ => rfl, s, rfl, hstart⟩
  | members kind ms hauto hbuild hne hsingle hall =>
    have hfresh := formats.fresh kind
    have hdecodes := formats.decodes kind
    cases kind with
    | zlib =>
      have hstream := StreamReader.members_provide StreamReader.zlib_resumes hdecodes
        (hbase.byteSource hone)
      have hover := StreamReader.readOver_provides .zlib hbase hone hlarge hstream
      refine ⟨_, hover.map (Io.stream .zlib) fun _ _ _ => rfl, _, rfl,
        StreamReader.zlibOpen (libs.strm .zlib) s, rfl, ⟨_, hstart⟩, .inl ⟨rfl, ?_⟩⟩
      exact .between ms hall hfresh hcontent rfl fun hnil => absurd hnil hne
    | bz =>
      have hstream := StreamReader.members_provide StreamReader.bz_resumes hdecodes
        (hbase.byteSource hone)
      have hover := StreamReader.readOver_provides .bz hbase hone hlarge hstream
      refine ⟨_, hover.map (Io.stream .bz) fun _ _ _ => rfl, _, rfl,
        StreamReader.bzOpen (libs.strm .bz) s, rfl, ⟨_, hstart⟩, .inl ⟨rfl, ?_⟩⟩
      exact .between ms hall hfresh hcontent rfl fun hnil => absurd hnil hne
    | lzma =>
      obtain ⟨p, rfl⟩ := List.length_eq_one_iff.mp (hsingle rfl)
      have hstream := StreamReader.first_provides hdecodes (hbase.byteSource hone) []
      have hover := StreamReader.readOver_provides .lzma hbase hone hlarge hstream
      refine ⟨_, hover.map (Io.stream .lzma) fun _ _ _ => rfl, _, rfl,
        StreamReader.lzmaOpen (libs.strm .lzma) s, rfl, ⟨_, hstart⟩, ?_⟩
      have hmember := hfresh p.1 p.2 (hall p (List.mem_cons_self ..))
      simp only [List.flatMap_cons, List.flatMap_nil, List.append_nil] at hcontent ⊢
      refine .inside rfl p.1 hmember ?_
      rw [List.append_nil]
      exact hcontent

/-- What the run of a reader without threads keeps. -/
structure Running {read : ℕ → Io κ ζ ν θ σ → ℕ → Option (ReadResult × Io κ ζ ν θ σ)}
    {J : Io κ ζ ν θ σ → List Byte → Prop} (h : Provides read (2 ^ 32) J) (hone : 1 < 2 ^ 32)
    (contents : List Byte) (log : List (Call × ReadResult)) (s : PeekReader.State (Io κ ζ ν θ σ)) :
    Prop where
  inv : PeekReader.Inv (h.byteSource hone) contents (PeekReader.delivered log) s
  child : ∃ rest, J s.child rest
  offset_le : s.offset ≤ (PeekReader.delivered log).length
  ok : LogOk contents log

/-- Calls of a reader without threads that has been opened over a file that contains `contents`. -/
theorem calls_of_encoded (addr : ℕ → PeekReader.State σ → ℕ)
    (henc : Encoded formats build qatOpens autodetect decoder file contents)
    (hs : Inv base file [] s) (hsmall : contents.length < 2 ^ 31) {calls : List Call}
    (hcalls : ∀ a ∈ calls, a.length < 2 ^ 31) :
    ∃ log t, Yields (fun fuel => runCalls
        (fun a s => wandioCall libs addr base.toSource a s fuel) calls
        (peekOpen (some (.open libs s decoder)))) (log, t) ∧
      log.map Prod.fst = calls ∧ LogOk contents log := by
  obtain ⟨J, hJ, hstart⟩ := io_provides addr henc hs
  have hone : 1 < 2 ^ 32 := by decide
  have hcall : ∀ (log : List (Call × ReadResult)) a
      (t : PeekReader.State (Option (Io κ ζ ν θ σ))), a ∈ calls →
      (∃ u, t = u.map some ∧ Running hJ hone contents log u) →
      ∃ q, Yields (wandioCall libs addr base.toSource a t) q ∧
        ∃ u, q.2 = u.map some ∧ Running hJ hone contents (log ++ [(a, q.1)]) u := by
    intro log a t ha ht
    obtain ⟨u, rfl, hrun⟩ := ht
    have hpeek : peekSize = 2 ^ 20 := rfl
    have hmin : minReadSize = 2 ^ 12 := rfl
    have hlen := hcalls a ha
    have hasks : ∀ n ∈ a.asks u, (n : ℤ) ≤ 2 ^ 31 + 2 ^ 20 + minReadSize :=
      asks_le hrun.inv hrun.offset_le _ (by omega) (by omega)
    obtain ⟨r, v, hyields, hstep, hinv, hok, hchild⟩ :=
      callOver_spec hJ hone hrun.inv hrun.child a fun n hn => by
        have hle := hasks n hn
        omega
    exact ⟨_, hyields, v, rfl, hinv, hchild, call_offset_le hrun.inv hrun.offset_le hstep,
      hrun.ok.append hok⟩
  have hopen : Running hJ hone contents [] (peekOpen (.open libs s decoder)) := by
    refine ⟨?_, ⟨_, hstart⟩, le_rfl, Each.nil⟩
    have hinv := inv_peekOpen (hJ.byteSource hone) (Io.open libs s decoder)
    rw [hJ.byteSource_content hone hstart] at hinv
    exact hinv
  obtain ⟨⟨log, t⟩, hrun, ⟨u, _, hlast⟩, hlog⟩ := runCalls_total hcall [] ⟨_, rfl, hopen⟩
  exact ⟨log, t, hrun, hlog, hlast.ok⟩

/-- Without threads, whatever the calls of the owner are: every call returns, the reads return the
contents of the file in order and stop only at their end, and the peeks return what comes next. -/
theorem wandioCreate_delivers (libs : Libraries κ ζ ν θ) (formats : Formats libs) (build : Build)
    (qatOpens autodetect : Bool) (addr : ℕ → PeekReader.State σ → ℕ) (base : ByteSource σ) (c : σ)
    (decoder : Option Decoder) (contents : List Byte)
    (henc : Encoded formats build qatOpens autodetect decoder (base.content c) contents)
    (hfirst : (min 6 (base.content c).length : ℤ) ≤ firstChunk base.toSource c)
    (hsmall : contents.length < 2 ^ 31) (calls : List Call)
    (hcalls : ∀ a ∈ calls, a.length < 2 ^ 31) :
    ∃ p, createIoReader build qatOpens 0 autodetect base.toSource c = some (some p) ∧
      ∃ log t, Yields (fun fuel => runCalls
          (fun a s => wandioCall libs addr base.toSource a s fuel) calls
          (peekOpen (some (p.io libs)))) (log, t) ∧
        log.map Prod.fst = calls ∧ LogOk contents log := by
  obtain ⟨s, hcreate, hs⟩ := createIoReader_encoded 0 henc rfl hfirst
  exact ⟨_, hcreate, calls_of_encoded addr henc hs hsmall hcalls⟩

end Stack

/-! ## The letter a -/

/-- The letter a, as each of the libraries compresses it. -/
def letterMember : StreamReader.Kind → List Byte
  | .zlib => StreamReader.gzMember
  | .bz => StreamReader.bzMember
  | .lzma => StreamReader.xzStream

/-- A coder of no bytes. -/
def silent : Coder Unit Unit Byte where
  call _ _ _ _ := ⟨(), 0, [], 0⟩
  consumed_le _ _ _ _ := Nat.zero_le _
  output_le _ _ _ _ := Nat.zero_le _

/-- Libraries that know the letter a. -/
def letterLibraries : Libraries (List Byte × List Byte) Unit Unit Unit where
  strm kind := (letterMember kind, [0x61])
  stream kind := StreamReader.oneMember (letterMember kind) [0x61] 0 (kindEnd kind)
  zstdBuild := ⟨true, true, true⟩
  zstdStream := ()
  zstd := silent
  lz4Context := ()
  lz4 := silent
  qatSession := ()
  qatzip := { silent with ok := 0, bufError := -2, dataError := -3 }

def letterFormats : Formats letterLibraries where
  Member kind m c := m = letterMember kind ∧ c = [0x61]
  At _ k todo out := k = (todo, out) ∧ todo ≠ []
  decodes kind := StreamReader.oneMember_decoder (by cases kind <;> decide) 0 (kindEnd kind)
  fresh kind m c h := by
    rw [h.1, h.2]
    exact ⟨rfl, by cases kind <;> decide⟩
  begins kind m c h := by
    rw [h.1]
    cases kind <;> decide

/-- Two gzip members, of which the first read brings ten bytes. -/
theorem wandioCreate_delivers_letters :
    ∃ p, createIoReader fullBuild false 0 true chunked.toSource
        (StreamReader.gzMember ++ StreamReader.gzMember, [10]) = some (some p) ∧
      ∃ log t, Yields (fun fuel => runCalls
          (fun a s => wandioCall letterLibraries (fun _ _ => 0) chunked.toSource a s fuel)
          [.peek 0 1, .read 0 1, .read 8 5] (peekOpen (some (p.io letterLibraries)))) (log, t) ∧
        log.map Prod.fst = [.peek 0 1, .read 0 1, .read 8 5] ∧ LogOk [0x61, 0x61] log := by
  have hmembers : Encoded letterFormats fullBuild false true (some .zlib)
      (StreamReader.gzMember ++ StreamReader.gzMember) [0x61, 0x61] :=
    .members .zlib [(StreamReader.gzMember, [0x61]), (StreamReader.gzMember, [0x61])] rfl rfl
      (by decide) nofun (by simp [letterFormats, letterMember])
  exact wandioCreate_delivers letterLibraries letterFormats fullBuild false true _ chunked
    (StreamReader.gzMember ++ StreamReader.gzMember, [10]) _ _ hmembers (by decide) (by decide) _
    (by decide)

end Wandio.Create
