/-
# `SeerDb.Storage.LogRun` — the metadata log over whole runs

A run of one database as far as its metadata log is concerned: the engine writes pages,
allocates ids and rebuilds its table; publications append a frame for the table of that
moment; a crash leaves an arbitrary part of the frame that was being written; an open cuts
off what is not a frame and goes on from the last one; pruning drops frames.

`published` records, for every frame that is in the log as a whole, the table and the
allocator that were live when it was written.
-/
import SeerDb.Storage.LogTables

namespace SeerDb

open Lib List

/-! ## Files that hold frames -/

/-- The header, the frames, and what is left of one that was cut. -/
def logFile (fs : List MetaLogFrame) (tail : Bytes) : Bytes :=
  metaLogHeaderBytes ++ (fs.flatMap MetaLogFrame.bytes ++ tail)

theorem length_metaLogHeaderBytes : metaLogHeaderBytes.length = metaLogHeaderSize := by decide

section

variable {fs : List MetaLogFrame} {tail : Bytes}

theorem length_logFile (fs : List MetaLogFrame) (tail : Bytes) :
    (logFile fs tail).length = (logFile fs []).length + tail.length := by
  simp only [logFile, length_append, length_nil]
  omega

theorem take_logFile : (logFile fs tail).take (logFile fs []).length = logFile fs [] := by
  rw [logFile, logFile, ← append_assoc, ← append_assoc, append_nil, take_left]

theorem logFile_concat (f : MetaLogFrame) : logFile fs [] ++ f.bytes = logFile (fs ++ [f]) [] := by
  simp [logFile]

/-- What the parser makes of such a file. -/
def parsedFile (fs : List MetaLogFrame) (tail : Bytes) : ParsedLogFile :=
  ⟨fs.map MetaLogFrame.logged, (logFile fs []).length, tail.isEmpty⟩

theorem parseMetaLog_logFile (hfs : ∀ f ∈ fs, f.Storable) (ht : parseFrame tail = .ok none) :
    parseMetaLog (logFile fs tail) = .ok (parsedFile fs tail) := by
  have hraw : (fs.map MetaLogFrame.logged).flatMap LoggedFrame.raw =
    fs.flatMap MetaLogFrame.bytes := by
    rw [flatMap_map]
    rfl
  have hvalid : ∀ r ∈ fs.map MetaLogFrame.logged, ∃ f : MetaLogFrame, f.Storable ∧
    r = f.logged := by
    intro r hr
    obtain ⟨f, hf, rfl⟩ := mem_map.mp hr
    exact ⟨f, hfs f hf, rfl⟩
  have hhead : (logFile fs tail).drop metaLogHeaderSize = fs.flatMap MetaLogFrame.bytes ++ tail :=
    drop_left' length_metaLogHeaderBytes
  have hlen : (logFile fs tail).length = metaLogHeaderSize +
    (fs.flatMap MetaLogFrame.bytes ++ tail).length := by
    rw [logFile, length_append, length_metaLogHeaderBytes]
  have hcount := framing.length_le hvalid
  rw [hraw] at hcount
  have hscan := framing.scan_eq ht hvalid
    (show _ < (logFile fs tail).length + 1 by rw [hlen, length_append]; omega)
  rw [hraw] at hscan
  have hmagic : (logFile fs tail).take 8 = metaLogMagic := by
    rw [logFile, metaLogHeaderBytes, append_assoc]
    exact take_left' (by decide)
  have hversion : leAt (logFile fs tail) 8 4 = formatVersion := by
    rw [logFile, metaLogHeaderBytes, append_assoc, leAt_skip (by decide)]
    exact leAt_head (by decide)
  rw [parseMetaLog, if_neg (by omega), if_neg (not_not.mpr hmagic),
    if_neg (not_not.mpr hversion), hhead, hscan]
  simp only [parsedFile, Except.ok.injEq, ParsedLogFile.mk.injEq, true_and]
  have hbare : (logFile fs []).length = metaLogHeaderSize +
    (fs.flatMap MetaLogFrame.bytes).length := by
    rw [logFile, append_nil, length_append, length_metaLogHeaderBytes]
  refine ⟨hbare.symm, ?_⟩
  rw [hlen, length_append]
  cases tail with
  | nil => simp
  | cons b tail => simp

/-- The frames that lie in the first `cut` bytes of the file. -/
def wholeFrames (fs : List MetaLogFrame) (cut : Nat) : List MetaLogFrame :=
  LogFile.within (fun f => f.bytes.length) (cut - metaLogHeaderSize) fs

/-- **The prefix law of the metadata log.**  A file that is cut anywhere behind its header has the
frames before the cut, and bytes behind it change nothing unless they complete a frame with its
checksum. -/
theorem parseMetaLog_cut (hfs : ∀ f ∈ fs, f.Storable) {cut : Nat} (hhead : metaLogHeaderSize ≤ cut)
    (hcut : cut ≤ (logFile fs []).length) :
    parseMetaLog ((logFile fs []).take cut) = .ok ⟨(wholeFrames fs cut).map MetaLogFrame.logged,
        (logFile (wholeFrames fs cut) []).length, cut = (logFile (wholeFrames fs cut) []).length⟩ ∧
      ∀ junk, ¬ Checksummed (((logFile fs []).take cut).drop (logFile (wholeFrames fs cut)
        []).length ++ junk) → ∃ complete, parseMetaLog ((logFile fs []).take cut ++ junk) = .ok
          ⟨(wholeFrames fs cut).map MetaLogFrame.logged,
            (logFile (wholeFrames fs cut) []).length, complete⟩ ∧
            (complete = true ↔ cut = (logFile (wholeFrames fs cut) []).length ∧ junk = []) := by
  have hbare : ∀ gs, (logFile gs []).length = metaLogHeaderSize + LogFile.bytes
    (fun f => f.bytes.length) gs := by
    intro gs
    rw [logFile, append_nil, length_append, length_metaLogHeaderBytes,
      LogFile.bytes, length_flatMap]
  rw [hbare] at hcut
  obtain ⟨k, hk, hend⟩ := @LogFile.take_flatMap _ (fun f : MetaLogFrame => f.bytes.length) _
    MetaLogFrame.bytes fs (cut - metaLogHeaderSize) (fun _ _ => rfl) (by omega)
  change cut - metaLogHeaderSize = LogFile.bytes _ (wholeFrames fs cut) + k at hk
  obtain ⟨post, hpost⟩ := @LogFile.within_append _ (fun f : MetaLogFrame => f.bytes.length)
    (cut - metaLogHeaderSize) fs
  have hwhole : ∀ f ∈ wholeFrames fs cut, f.Storable := by
    intro f hf
    refine hfs f ?_
    rw [hpost]
    exact mem_append_left _ hf
  -- what is left of the frame that the cut falls into
  obtain ⟨part, hpart, htorn, htake⟩ : ∃ part : Bytes, part.length = k ∧ ¬ Checksummed part ∧
      (logFile fs []).take cut = logFile (wholeFrames fs cut) part := by
    have hlog : (logFile fs []).take cut
        = metaLogHeaderBytes ++ (fs.flatMap MetaLogFrame.bytes).take (cut - metaLogHeaderSize) := by
      rw [logFile, append_nil, take_append, length_metaLogHeaderBytes,
        take_of_length_le (length_metaLogHeaderBytes.trans_le hhead)]
    rcases hend with ⟨rfl, htake⟩ | ⟨f, hf, hpos, hlt, htake⟩
    · refine ⟨[], rfl, fun h => ?_, by rw [hlog, htake, logFile, append_nil]; rfl⟩
      exact absurd h.1 (by decide)
    · refine ⟨f.bytes.take k, ?_, (hfs f hf).not_checksummed hlt, by rw [hlog, htake, logFile]; rfl⟩
      rw [length_take]
      exact min_eq_left hlt.le
  have hcomplete : cut = (logFile (wholeFrames fs cut) []).length ↔ part = [] := by
    rw [hbare, ← length_eq_zero_iff]
    omega
  have hbehind : ((logFile fs []).take cut).drop (logFile (wholeFrames fs cut)
    []).length = part := by
    rw [htake, logFile, logFile, append_nil, ← append_assoc, drop_left]
  simp only [hbehind, hcomplete]
  constructor
  · rw [htake, parseMetaLog_logFile hwhole (parseFrame_none htorn), parsedFile]
    cases part with
    | nil => simp
    | cons b part => simp
  · intro junk hjunk
    have hfile : (logFile fs []).take cut ++ junk = logFile (wholeFrames fs cut)
      (part ++ junk) := by
      rw [htake, logFile, logFile, append_assoc, append_assoc]
    refine ⟨_, by rw [hfile, parseMetaLog_logFile hwhole (parseFrame_none hjunk), parsedFile], ?_⟩
    rw [List.isEmpty_iff, List.append_eq_nil_iff]

attribute [mk_iff] Manifest.Fits

instance (m : Manifest) : Decidable m.Fits := decidable_of_iff' _ m.fits_iff

/-- The frame of an empty table. -/
def emptyFrame : MetaLogFrame := ⟨1, ⟨7, 1, 1, 1, 0, 1, 0, 0, 0⟩, .checkpoint [] .new⟩

theorem emptyFrame_storable : emptyFrame.Storable where
  id := by decide
  manifest := by decide
  entry :=
    ⟨.nil, by simp, by decide, by decide, by simp [PageAllocator.new], by simp [PageAllocator.new]⟩
  encoded := by
    have hlengths : emptyFrame.entry.checkLengths = .ok () := by decide +kernel
    have hpayload : ¬ emptyFrame.payload.length > u32Max := by decide +kernel
    rw [encodeMetaLogFrame, hlengths]
    exact if_neg hpayload

/-- Two frames, cut in the second. -/
theorem parseMetaLog_cut_second : (∀ f ∈ [emptyFrame, emptyFrame], f.Storable) ∧ ∃ len complete,
    parseMetaLog ((logFile [emptyFrame, emptyFrame] []).take 400) =
      .ok ⟨[emptyFrame.logged], len, complete⟩ := by
  have hfs : ∀ f ∈ [emptyFrame, emptyFrame], f.Storable := by simp [emptyFrame_storable]
  have hwhole : wholeFrames [emptyFrame, emptyFrame] 400 = [emptyFrame] := by decide +kernel
  obtain ⟨hparse, -⟩ := parseMetaLog_cut hfs (show metaLogHeaderSize ≤ 400 by decide)
    (by decide +kernel)
  rw [hwhole] at hparse
  exact ⟨hfs, _, _, hparse⟩

theorem parsedFile_records : (parsedFile fs tail).records = ⟨fs, tail.isEmpty⟩ := by
  rw [ParsedLogFile.records, parsedFile, map_map]
  congr 1
  exact map_id _

theorem cutTail_logFile : cutTail (parsedFile fs tail) (logFile fs tail) = logFile fs [] := by
  rw [cutTail]
  split
  · exact take_logFile
  rename_i hle
  rw [length_logFile fs tail] at hle
  obtain rfl : tail = [] := eq_nil_of_length_eq_zero (by simp only [parsedFile] at hle; omega)
  rfl

theorem parsedFile_select (h : LogWF fs) : (parsedFile fs tail).selectAuthorityManifest =
    .ok (fs.getLast?.map MetaLogFrame.manifest) := by
  have hselect := h.selectAuthorityManifest tail.isEmpty
  rw [ParsedMetaLog.selectAuthorityManifest, ParsedMetaLog.publicationManifests] at hselect
  have hmanifests : ((parsedFile fs tail).frames.filterMap fun frame => frame.entry.manifest) =
      fs.map MetaLogFrame.manifest := by
    rw [parsedFile, filterMap_map, ← filterMap_eq_map]
    rfl
  rw [ParsedLogFile.selectAuthorityManifest, hmanifests, parsedFile_records]
  cases fs with
  | nil => exact hselect
  | cons f fs => exact hselect

end

/-! ## Runs -/

/-- A frame and what it was written for. -/
structure Publication where
  frame : MetaLogFrame
  pmt : PMT
  allocator : PageAllocator

/-- The frames that are in the log as a whole. -/
abbrev framesOf (published : List Publication) : List MetaLogFrame :=
  published.map Publication.frame

/-- What a handle keeps that the log functions read. -/
structure LogHandle where
  latest : Option Manifest
  pmt : PMT
  allocator : PageAllocator
  frontier : Option MetaFrontier

structure LogState where
  file : Option Bytes
  handle : Option LogHandle
  published : List Publication

/-- The checkpoint that the next frame builds on. -/
def LogHandle.parent (h : LogHandle) : Nat := (h.latest.map Manifest.pmtCheckpointId).getD 0

/-- A manifest that may be published next: generations increase, and a checkpoint is named after
its generation.  Generation 0 is the empty database. -/
structure LogHandle.Admits (h : LogHandle) (m : Manifest) : Prop where
  fits : m.Fits
  named : m.pmtCheckpointId = m.generationId
  newer : ∀ latest, h.latest = some latest → latest.generationId < m.generationId
  bootstrap : m.generationId = 0 → h.pmt = PMT.new

namespace LogState

def initial : LogState := ⟨none, none, []⟩

def prepared (s : LogState) (h : LogHandle) (m : Manifest) :
    Option Bytes × Except Error (Nat × PendingFrame) :=
  prepareAppend s.file h.frontier m.generationId h.parent m h.pmt h.allocator

def appended (s : LogState) (h : LogHandle) (m : Manifest) :
    Except Error Unit × Option Bytes × Option MetaFrontier :=
  appendGenerationMeta s.file h.frontier m.generationId h.parent m h.pmt h.allocator

inductive Step : LogState → LogState → Prop
  /-- A page is written, by a flush or by a compaction. -/
  | write {s : LogState} {h : LogHandle} {pageId fileId offset : Nat} : s.handle = some h →
      pageId < 256 ^ 8 → fileId < 256 ^ 4 → offset < 256 ^ 8 → h.pmt.nextVersion < u64Max →
      Step s { s with handle := some { h with pmt := h.pmt.insert pageId fileId offset } }
  | alloc {s : LogState} {h : LogHandle} : s.handle = some h →
      Step s { s with handle := some { h with allocator := h.allocator.alloc.2 } }
  | advance {s : LogState} {h : LogHandle} {minimum : Nat} : s.handle = some h → minimum < 256 ^ 8 →
      Step s { s with handle := some { h with allocator := h.allocator.advanceNextId minimum } }
  /-- A vacuum starts a new tree; its first page is written. -/
  | rebuild {s : LogState} {h : LogHandle} {pageId fileId offset : Nat} : s.handle = some h →
      pageId < 256 ^ 8 → fileId < 256 ^ 4 → offset < 256 ^ 8 → h.pmt.nextVersion < u64Max →
      Step s { s with handle := some { h with
        pmt := h.pmt.clear.insert pageId fileId offset, allocator := .new } }
  | append {s : LogState} {h : LogHandle} {m : Manifest} {cut file : Option Bytes} {prefixLen : Nat}
      {pending : PendingFrame} {frontier : Option MetaFrontier} : s.handle = some h → h.Admits m →
      s.prepared h m = (cut, .ok (prefixLen, pending)) → s.appended h m = (.ok (), file, frontier) →
      Step s ⟨file, some { h with latest := some m, frontier := frontier },
        s.published ++ [⟨pending.frame, h.pmt, h.allocator⟩]⟩
  | refused {s : LogState} {h : LogHandle} {m : Manifest} {e : Error} {file : Option Bytes}
      {frontier : Option MetaFrontier} : s.handle = some h → h.Admits m →
      s.appended h m = (.error e, file, frontier) →
      Step s { s with file := file, handle := some { h with frontier := frontier } }
  /-- The crash comes when `k` bytes of the frame are in the file. -/
  | crashAppend {s : LogState} {h : LogHandle} {m : Manifest} {cut : Option Bytes} {prefixLen : Nat}
      {pending : PendingFrame} (k : Nat) : s.handle = some h → h.Admits m →
      s.prepared h m = (cut, .ok (prefixLen, pending)) →
      Step s ⟨some (frameBase cut ++ pending.bytes.take k), none,
        if pending.bytes.length ≤ k then s.published ++ [⟨pending.frame, h.pmt, h.allocator⟩]
        else s.published⟩
  | refresh {s : LogState} {h : LogHandle} {bytes bytes' : Bytes} {r : Except Error Nat}
      {frontier : Option MetaFrontier} : s.handle = some h → h.parent ≠ 0 → s.file = some bytes →
      ensureMetaFrontier bytes h.frontier h.parent = (r, bytes', frontier) →
      Step s { s with file := some bytes', handle := some { h with frontier := frontier } }
  | crash (s : LogState) : Step s { s with handle := none }
  | reopen {s : LogState} {l : LoadedLog} : s.handle = none → loadMetadata s.file = .ok l →
      Step s { s with file := l.file, handle := some ⟨l.current, l.pmt, l.allocator, l.frontier⟩ }

/-- `prune_history`: what the protected manifests are resolved from is kept, the current one among
them. -/
inductive Prune : LogState → LogState → Prop
  | prune {s : LogState} {h : LogHandle} {latest : Manifest} {bytes bytes' : Bytes}
      {p : ParsedLogFile} {keep : List Manifest} {retained : List Nat}
      {frontier : Option MetaFrontier} : s.handle = some h →
      h.latest = some latest → latest ∈ keep → s.file = some bytes → parseMetaLog bytes = .ok p →
      p.retainedCheckpoints keep = .ok retained →
      compactMetadataLog p bytes h.frontier retained = (bytes', frontier) →
      Prune s ⟨some bytes', some { h with frontier := frontier },
        s.published.filter fun x => x.frame.checkpointId ∈ retained⟩

/-- Appends, crashes and reopens. -/
inductive Reached : LogState → Prop
  | initial : Reached initial
  | step {s s' : LogState} : Reached s → Step s s' → Reached s'

/-- With pruning in between. -/
inductive ReachedPruning : LogState → Prop
  | initial : ReachedPruning initial
  | step {s s' : LogState} : ReachedPruning s → Step s s' → ReachedPruning s'
  | prune {s s' : LogState} : ReachedPruning s → Prune s s' → ReachedPruning s'

theorem Reached.pruning {s : LogState} (h : Reached s) : ReachedPruning s := by
  induction h with
  | initial => exact .initial
  | step _ hs ih => exact .step ih hs

/-! ## The invariant -/

/-- The file holds the published frames and nothing else that is a frame. -/
def Keeps (file : Option Bytes) (fs : List MetaLogFrame) : Prop := match file with
  | none => fs = []
  | some bytes => ∃ tail, parseFrame tail = .ok none ∧ bytes = logFile fs tail

/-- What the log holds. -/
structure Stored (file : Option Bytes) (published : List Publication) : Prop where
  wf : LogWF (framesOf published)
  storable : ∀ f ∈ framesOf published, f.Storable
  keeps : Keeps file (framesOf published)
  resolved : ∀ x ∈ published, ∃ n,
    Resolves (framesOf published) x.frame.checkpointId x.pmt x.allocator n
  sound : ∀ x ∈ published, x.pmt.Sound ∧ x.allocator.Fits
  ascending : published.Pairwise fun x y => x.pmt.nextVersion ≤ y.pmt.nextVersion

/-- The cached view is the one that the file gives. -/
def Current (file : Option Bytes) (fs : List MetaLogFrame) (parent : Nat)
    (f : MetaFrontier) : Prop :=
  f.checkpointId = parent ∧ file = some (logFile fs []) ∧ f.logLen = (logFile fs []).length ∧
    Resolves fs f.checkpointId f.pmt f.allocator f.depth

/-- What an open handle knows. -/
structure Knows (file : Option Bytes) (published : List Publication) (h : LogHandle) : Prop where
  sound : h.pmt.Sound
  allocator : h.allocator.Fits
  newest : ∀ x ∈ published, x.pmt.nextVersion ≤ h.pmt.nextVersion
  parent : h.parent = 0 ∨ ∃ f ∈ framesOf published, f.checkpointId = h.parent
  latest : ∀ f ∈ framesOf published, ∃ m, h.latest = some m ∧ f.checkpointId ≤ m.generationId
  frontier : ∀ f, h.frontier = some f → Current file (framesOf published) h.parent f

structure Inv (s : LogState) : Prop where
  stored : Stored s.file s.published
  knows : ∀ h, s.handle = some h → Knows s.file s.published h

theorem inv_initial : initial.Inv :=
  ⟨⟨LogWF.nil, by simp [initial], rfl, by simp [initial], by simp [initial], List.Pairwise.nil⟩,
    fun h hh => by cases hh⟩

variable {s : LogState} {h : LogHandle} {m : Manifest} {file : Option Bytes}
  {published : List Publication}

theorem Inv.of_knows (hst : Stored file published) (hk : Knows file published h) :
    Inv ⟨file, some h, published⟩ :=
  ⟨hst, fun _ hh => Option.some.inj hh ▸ hk⟩

/-! ## The next frame -/

/-- What a checkpoint of the log resolves to was published. -/
theorem Stored.of_resolves (hs : Stored file published) {id n : Nat} {pmt : PMT} {a : PageAllocator}
    (hr : Resolves (framesOf published) id pmt a n) :
    ∃ x ∈ published, x.frame.checkpointId = id ∧ x.pmt = pmt ∧ x.allocator = a := by
  obtain ⟨f, hf, rfl⟩ := hr.mem
  obtain ⟨x, hx, rfl⟩ := mem_map.mp hf
  obtain ⟨n', hr'⟩ := hs.resolved x hx
  obtain ⟨hpmt, ha, -⟩ := hr.unique hr'
  exact ⟨x, hx, rfl, hpmt, ha⟩

/-- The file of an invariant state, read. -/
theorem Stored.parse (hst : Stored (some bytes) published) : ∃ tail, parseFrame tail = .ok none ∧
    bytes = logFile (framesOf published) tail ∧
    parseMetaLog bytes = .ok (parsedFile (framesOf published) tail) := by
  obtain ⟨tail, ht, rfl⟩ := hst.keeps
  exact ⟨tail, ht, rfl, parseMetaLog_logFile hst.storable ht⟩

theorem Stored.resolve (hst : Stored file published) (tail : Bytes) {x : Publication}
    (hx : x ∈ published) :
    ∃ n ≤ maxMetaDeltaChain, (parsedFile (framesOf published) tail).resolveMetaLog
      x.frame.checkpointId = .ok (x.pmt, x.allocator, n) ∧
        Resolves (framesOf published) x.frame.checkpointId x.pmt x.allocator n := by
  obtain ⟨n, hr⟩ := hst.resolved x hx
  refine ⟨n, hr.chain_le, ?_, hr⟩
  rw [ParsedLogFile.resolveMetaLog, parsedFile_records]
  exact hr.resolve _

/-- The parent of the next frame, read from the file or from the cached view. -/
def ParentFound (fs : List MetaLogFrame) (parent : Nat)
    (image : Option (PMT × PageAllocator × Nat)) : Prop :=
  parent = 0 ∨ ∃ pmt a depth, image = some (pmt, a, depth) ∧ Resolves fs parent pmt a depth

/-- The entry that is written for the table of the handle. -/
theorem nextEntry_found (hs : Stored file published) (hk : Knows file published h) {id : Nat}
    {image : Option (PMT × PageAllocator × Nat)} (hid : h.parent < 256 ^ 8)
    (hlast : ∀ f ∈ framesOf published, f.checkpointId < id)
    (himage : ParentFound (framesOf published) h.parent image) :
    ∃ entry depth, nextEntry image h.parent h.pmt h.allocator = .ok (entry, depth) ∧ entry.Fits ∧
      (h.parent = 0 → entry = .checkpoint h.pmt.mappings h.allocator) ∧
      Resolves (framesOf published ++ [⟨id, m, entry⟩]) id h.pmt h.allocator depth := by
  have hfull : Resolves (framesOf published ++ [⟨id, m, .checkpoint h.pmt.mappings h.allocator⟩])
      id h.pmt h.allocator 0 := by
    have hself : entryAt (framesOf published ++ [⟨id, m, .checkpoint h.pmt.mappings h.allocator⟩])
      id = _ :=
      entryAt_concat ⟨id, m, .checkpoint h.pmt.mappings h.allocator⟩
    have hr := Resolves.checkpoint hself
    rwa [hk.sound.ofMappings_eq] at hr
  have hfits : (MetaLogEntry.checkpoint h.pmt.mappings h.allocator).Fits :=
    ⟨hk.sound.sorted, hk.sound.mappingFits, hk.allocator⟩
  by_cases h0 : h.parent = 0
  · exact ⟨_, 0, if_pos h0, hfits, fun _ => rfl, hfull⟩
  obtain ⟨pmt, a, depth, rfl, hr⟩ := himage.resolve_left h0
  obtain ⟨x, hx, hxid, rfl, rfl⟩ := hs.of_resolves hr
  by_cases hdepth : depth ≥ maxMetaDeltaChain
  · refine ⟨_, 0, ?_, hfits, fun hz => absurd hz h0, hfull⟩
    unfold nextEntry
    rw [if_neg h0]
    exact if_pos hdepth
  have hsound := (hs.sound x hx).1
  have happ := hsound.apply_encodeDelta hk.sound (hk.newest x hx) h.parent h.allocator
  have hlt : h.parent < id := by
    rw [← hxid]
    exact hlast _ (mem_map_of_mem hx)
  refine ⟨.delta (encodeDelta h.parent x.pmt h.pmt h.allocator), depth + 1, ?_,
    hsound.tableFits.encodeDelta hk.sound.tableFits hid hk.allocator, fun hz => absurd hz h0, ?_⟩
  · unfold nextEntry
    rw [if_neg h0]
    exact if_neg hdepth
  · exact .delta (entryAt_concat ⟨id, m, _⟩) hlt h0 (hr.concat hlast) (not_le.mp hdepth) happ

/-- What `prepare_append` finds, whether it reads the file or not. -/
theorem prepared_eq (hinv : s.Inv) (hh : s.handle = some h) : ∃ parsed cached image,
    parentImage parsed cached h.parent = .ok image ∧
      ParentFound (framesOf s.published) h.parent image ∧
    ∀ m, s.prepared h m = (s.file.map fun _ => logFile (framesOf s.published) [],
      (pendingFrame parsed cached m.generationId h.parent m h.pmt h.allocator).map
        fun pending => ((logFile (framesOf s.published) []).length, pending)) := by
  have hk := hinv.knows h hh
  have hst := hinv.stored
  cases hc : cachedParent h.frontier h.parent ((s.file.map List.length).getD 0) with
  | some c =>
    -- the view at hand is current, so the file ends with a frame and is left as it is
    rcases hf : h.frontier with _ | f
    · rw [hf] at hc
      cases hc
    rw [hf, cachedParent] at hc
    split at hc
    · rename_i hcond
      cases hc
      obtain ⟨hid, hfile, hlen, hr⟩ := hk.frontier f hf
      refine ⟨none, some (f.pmt, f.allocator, f.depth), some (f.pmt, f.allocator, f.depth), ?_,
        .inr ⟨_, _, _, rfl, hid ▸ hr⟩, fun m => ?_⟩
      · exact if_pos (.inr rfl)
      · rw [prepared, prepareAppend, hf, cachedParent, if_pos hcond]
        simp only [readForAppend, hfile]
        rfl
    · cases hc
  | none =>
    cases hfile : s.file with
    | none =>
      have hnil : framesOf s.published = [] := (hfile ▸ hst : Stored none s.published).keeps
      have h0 : h.parent = 0 := hk.parent.resolve_right (by
        rintro ⟨f, hf, -⟩
        rw [hnil] at hf
        cases hf)
      refine ⟨none, none, none, by rw [parentImage, if_pos (.inl h0)], .inl h0, fun m => ?_⟩
      rw [hfile] at hc
      rw [prepared, prepareAppend, hfile, hc, hnil]
      simp only [readForAppend]
      rfl
    | some bytes =>
      obtain ⟨tail, ht, rfl, hparse⟩ := (hfile ▸ hst : Stored (some bytes) s.published).parse
      have himage : ∃ image, parentImage (some (parsedFile (framesOf s.published) tail)) none
          h.parent = .ok image ∧ ParentFound (framesOf s.published) h.parent image := by
        by_cases h0 : h.parent = 0
        · exact ⟨none, by rw [parentImage, if_pos (.inl h0)], .inl h0⟩
        obtain ⟨f, hf, hid⟩ := hk.parent.resolve_left h0
        obtain ⟨x, hx, rfl⟩ := mem_map.mp hf
        obtain ⟨n, -, hres, hr⟩ := hst.resolve tail hx
        rw [hid] at hres hr
        refine ⟨some (x.pmt, x.allocator, n), ?_, .inr ⟨_, _, _, rfl, hr⟩⟩
        rw [parentImage, if_neg (by simp [h0])]
        simp only [hres]
        rfl
      obtain ⟨image, heq, hfound⟩ := himage
      refine ⟨_, _, image, heq, hfound, fun m => ?_⟩
      rw [hfile] at hc
      rw [prepared, prepareAppend, hfile, hc]
      simp only [readForAppend, hparse, Except.map]
      rw [Option.map_some, Option.map_some, cutTail_logFile]
      rfl

/-- The frame that is written next. -/
structure NextFrame (s : LogState) (h : LogHandle) (m : Manifest) (g : MetaLogFrame)
    (depth : Nat) : Prop where
  id : g.checkpointId = m.generationId
  manifest : g.manifest = m
  fits : g.entry.Fits
  last : ∀ f ∈ framesOf s.published, f.checkpointId < g.checkpointId
  resolved : Resolves (framesOf s.published ++ [g]) g.checkpointId h.pmt h.allocator depth
  wf : LogWF (framesOf s.published ++ [g])
  prepared : s.prepared h m = (s.file.map fun _ => logFile (framesOf s.published) [],
    (encodeMetaLogFrame g).map fun bytes =>
    ((logFile (framesOf s.published) []).length, ⟨g, bytes, depth⟩))

theorem exists_nextFrame (hinv : s.Inv) (hh : s.handle = some h) (hm : h.Admits m) :
    ∃ g depth, NextFrame s h m g depth := by
  have hk := hinv.knows h hh
  have hst := hinv.stored
  obtain ⟨parsed, cached, image, himage, hfound, hprep⟩ := prepared_eq hinv hh
  have hlast : ∀ f ∈ framesOf s.published, f.checkpointId < m.generationId := by
    intro f hf
    obtain ⟨latest, hlatest, hle⟩ := hk.latest f hf
    exact hle.trans_lt (hm.newer latest hlatest)
  have hparent : h.parent < 256 ^ 8 := by
    rcases hk.parent with h0 | ⟨f, hf, hid⟩
    · rw [h0]
      decide
    · rw [← hid]
      exact (hst.storable f hf).id
  obtain ⟨entry, depth, hentry, hfits, hfull, hr⟩ :=
    nextEntry_found (m := m) hst hk hparent hlast hfound
  refine ⟨⟨m.generationId, m, entry⟩, depth, rfl, rfl, hfits, hlast, hr, ?_, ?_⟩
  · refine (hst.wf.append hlast ⟨rfl, hm.named⟩ (fun h0 => ?_) ⟨_, _, _, hr, hk.sound.sorted⟩).1
    -- generation 0 has no predecessor, so its frame is a checkpoint of the empty table
    have hnone : h.latest = none := by
      cases hl : h.latest with
      | none => rfl
      | some latest => exact absurd (hm.newer latest hl) (by
        rw [show m.generationId = 0 from h0]
        exact Nat.not_lt_zero _)
    have h0' : h.parent = 0 := by rw [LogHandle.parent, hnone]; rfl
    refine ⟨h.allocator, ?_⟩
    rw [show entry = _ from hfull h0', hm.bootstrap h0]
    rfl
  · rw [hprep m, pendingFrame, himage]
    simp only [hentry]
    cases encodeMetaLogFrame ⟨m.generationId, m, entry⟩ with
    | error e => rfl
    | ok bytes => rfl

theorem encodeMetaLogFrame_eq {g : MetaLogFrame} {bytes : Bytes}
    (he : encodeMetaLogFrame g = .ok bytes) :
    bytes = g.bytes := by
  rw [encodeMetaLogFrame] at he
  cases hl : g.entry.checkLengths with
  | error e =>
    rw [hl] at he
    cases he
  | ok u =>
    rw [hl] at he
    simp only at he
    split at he
    · cases he
    · cases he
      rfl

variable {g : MetaLogFrame} {depth : Nat}

theorem NextFrame.storable (hn : NextFrame s h m g depth) (hm : h.Admits m) {bytes : Bytes}
    (he : encodeMetaLogFrame g = .ok bytes) : g.Storable := by
  refine ⟨?_, ?_, hn.fits, ?_⟩
  · rw [hn.id]
    exact hm.fits.generationId
  · rw [hn.manifest]
    exact hm.fits
  · rw [he, encodeMetaLogFrame_eq he]

/-- The frame is written behind the frames of the log. -/
theorem frameBase_eq (hst : Stored s.file s.published) :
    frameBase (s.file.map fun _ => logFile (framesOf s.published) []) =
      logFile (framesOf s.published) [] := by
  cases hf : s.file with
  | some bytes => rfl
  | none =>
    rw [(hf ▸ hst : Stored none s.published).keeps]
    rfl

/-- The log with the frame. -/
theorem NextFrame.stored (hn : NextFrame s h m g depth) (hst : Stored s.file s.published)
    (hk : Knows s.file s.published h) (hg : g.Storable) :
    Stored (some (logFile (framesOf s.published ++ [g]) []))
      (s.published ++ [⟨g, h.pmt, h.allocator⟩]) := by
  have hframes : framesOf (s.published ++ [⟨g, h.pmt, h.allocator⟩]) =
    framesOf s.published ++ [g] := by
    simp [framesOf]
  refine ⟨hframes ▸ hn.wf, hframes ▸ forall_mem_concat hst.storable hg, ⟨[], rfl, by rw [hframes]⟩,
    hframes ▸ forall_mem_concat (fun x hx => ?_) ⟨depth, hn.resolved⟩,
    forall_mem_concat hst.sound ⟨hk.sound, hk.allocator⟩, pairwise_concat hst.ascending hk.newest⟩
  obtain ⟨n, hr⟩ := hst.resolved x hx
  exact ⟨n, hr.concat hn.last⟩

/-- The log when a crash cut the frame. -/
theorem Stored.torn (hst : Stored s.file s.published) (hg : g.Storable) {k : Nat}
    (hk : k < g.bytes.length) :
    Stored (some (logFile (framesOf s.published) [] ++ g.bytes.take k)) s.published := by
  refine { hst with keeps := ⟨g.bytes.take k, parseFrame_none (hg.not_checksummed hk), ?_⟩ }
  simp [logFile]

/-- A tail that is cut off leaves what the log holds. -/
theorem Stored.cut (hst : Stored file published) :
    Stored (file.map fun _ => logFile (framesOf published) []) published := by
  refine { hst with keeps := ?_ }
  cases hf : file with
  | none =>
    have := hst.keeps
    rwa [hf] at this
  | some bytes => exact ⟨[], rfl, rfl⟩

/-! ## One step -/

variable {prefixLen : Nat} {cut : Option Bytes} {pending : PendingFrame}
  {frontier : Option MetaFrontier} {e : Error}

theorem NextFrame.of_prepared (hn : NextFrame s h m g depth)
    (hp : s.prepared h m = (cut, .ok (prefixLen, pending))) :
    cut = (s.file.map fun _ => logFile (framesOf s.published) []) ∧
      prefixLen = (logFile (framesOf s.published) []).length ∧ pending = ⟨g, g.bytes, depth⟩ ∧
      encodeMetaLogFrame g = .ok g.bytes := by
  rw [hn.prepared] at hp
  cases he : encodeMetaLogFrame g with
  | error e =>
    rw [he] at hp
    cases hp
  | ok bytes =>
    rw [he] at hp
    cases hp
    obtain rfl := encodeMetaLogFrame_eq he
    exact ⟨rfl, rfl, rfl, rfl⟩

theorem appended_eq (s : LogState) (h : LogHandle) (m : Manifest) : s.appended h m =
    match s.prepared h m with
    | (cut, .error e) => (.error e, cut, none)
    | (cut, .ok (prefixLen, pending)) => (.ok (), some (frameBase cut ++ pending.bytes),
        some ⟨m.generationId, h.pmt, h.allocator, pending.depth,
          prefixLen + pending.bytes.length⟩) := rfl

theorem Knows.uncached (hk : Knows file published h) (file' : Option Bytes) :
    Knows file' published { h with frontier := none } :=
  { hk with frontier := fun f hf => by cases hf }

theorem Inv.append (hinv : s.Inv) (hh : s.handle = some h) (hm : h.Admits m)
    (hp : s.prepared h m = (cut, .ok (prefixLen, pending)))
    (ha : s.appended h m = (.ok (), file, frontier)) :
    Inv ⟨file, some { h with latest := some m, frontier := frontier },
      s.published ++ [⟨pending.frame, h.pmt, h.allocator⟩]⟩ := by
  obtain ⟨g, depth, hn⟩ := exists_nextFrame hinv hh hm
  obtain ⟨rfl, rfl, rfl, he⟩ := hn.of_prepared hp
  rw [appended_eq, hp] at ha
  cases ha
  have hk := hinv.knows h hh
  have hfile : frameBase (s.file.map fun _ => logFile (framesOf s.published) []) ++ g.bytes =
      logFile (framesOf s.published ++ [g]) [] := by
    rw [frameBase_eq hinv.stored, logFile_concat]
  have hframes : framesOf (s.published ++ [⟨g, h.pmt, h.allocator⟩]) =
    framesOf s.published ++ [g] := by
    simp [framesOf]
  have hparent : ∀ f, (⟨some m, h.pmt, h.allocator, f⟩ : LogHandle).parent = g.checkpointId := by
    intro f
    rw [hn.id, ← hm.named]
    rfl
  refine .of_knows ?_ ?_
  · show Stored (some (_ ++ g.bytes)) _
    rw [hfile]
    exact hn.stored hinv.stored hk (hn.storable hm he)
  · refine ⟨hk.sound, hk.allocator, forall_mem_concat hk.newest le_rfl,
      .inr ⟨g, ?_, (hparent _).symm⟩, ?_, ?_⟩
    · rw [hframes]
      exact mem_concat_self
    · rw [hframes]
      exact forall_mem_concat (fun f hf => ⟨m, rfl, ((hn.last f hf).trans_eq hn.id).le⟩)
        ⟨m, rfl, hn.id.le⟩
    · rintro f ⟨⟩
      refine ⟨by rw [hparent, hn.id], ?_, ?_, ?_⟩
      · rw [hframes]
        exact congrArg some hfile
      · rw [hframes, ← logFile_concat, length_append]
      · rw [hframes]
        have hr := hn.resolved
        rwa [hn.id] at hr

theorem Inv.crashAppend (hinv : s.Inv) (hh : s.handle = some h) (hm : h.Admits m) (k : Nat)
    (hp : s.prepared h m = (cut, .ok (prefixLen, pending))) :
    Inv ⟨some (frameBase cut ++ pending.bytes.take k), none,
      if pending.bytes.length ≤ k then s.published ++ [⟨pending.frame, h.pmt, h.allocator⟩]
      else s.published⟩ := by
  obtain ⟨g, depth, hn⟩ := exists_nextFrame hinv hh hm
  obtain ⟨rfl, rfl, rfl, he⟩ := hn.of_prepared hp
  have hg := hn.storable hm he
  refine ⟨?_, fun h' hh' => by cases hh'⟩
  show Stored (some (_ ++ g.bytes.take k)) (if g.bytes.length ≤ k then _ else _)
  rw [frameBase_eq hinv.stored]
  by_cases hk : g.bytes.length ≤ k
  · rw [if_pos hk, take_of_length_le hk, logFile_concat]
    exact hn.stored hinv.stored (hinv.knows h hh) hg
  · rw [if_neg hk]
    exact hinv.stored.torn hg (not_le.mp hk)

theorem Inv.refused (hinv : s.Inv) (hh : s.handle = some h) (hm : h.Admits m)
    (ha : s.appended h m = (.error e, file, frontier)) :
    Inv { s with file := file, handle := some { h with frontier := frontier } } := by
  obtain ⟨g, depth, hn⟩ := exists_nextFrame hinv hh hm
  rw [appended_eq, hn.prepared] at ha
  cases henc : encodeMetaLogFrame g with
  | ok bytes =>
    rw [henc] at ha
    cases ha
  | error e' =>
    rw [henc] at ha
    cases ha
    exact .of_knows hinv.stored.cut ((hinv.knows h hh).uncached _)

theorem Inv.refresh (hinv : s.Inv) (hh : s.handle = some h) (hparent : h.parent ≠ 0)
    {bytes bytes' : Bytes} {r : Except Error Nat} (hf : s.file = some bytes)
    (he : ensureMetaFrontier bytes h.frontier h.parent = (r, bytes', frontier)) :
    Inv { s with file := some bytes', handle := some { h with frontier := frontier } } := by
  have hk := hinv.knows h hh
  have hst := hinv.stored
  rw [hf] at hk hst
  rw [ensureMetaFrontier] at he
  cases hc : cachedParent h.frontier h.parent bytes.length with
  | some c =>
    rw [hc] at he
    cases he
    exact .of_knows hst hk
  | none =>
    obtain ⟨tail, ht, rfl, hparse⟩ := hst.parse
    obtain ⟨f, hfm, hid⟩ := hk.parent.resolve_left hparent
    obtain ⟨x, hx, rfl⟩ := mem_map.mp hfm
    obtain ⟨n, -, hres, hr⟩ := hst.resolve tail hx
    rw [hid] at hres hr
    rw [hc, hparse] at he
    simp only [hres] at he
    cases he
    rw [cutTail_logFile]
    refine .of_knows hst.cut { hk with frontier := ?_ }
    rintro f ⟨⟩
    exact ⟨rfl, rfl, rfl, hr⟩

/-- The publication of the last frame. -/
theorem Stored.last (hst : Stored file published) {f : MetaLogFrame}
    (hf : (framesOf published).getLast? = some f) :
    ∃ x ∈ published, x.frame = f ∧ ∀ y ∈ published, y.pmt.nextVersion ≤ x.pmt.nextVersion := by
  rw [framesOf, List.getLast?_map] at hf
  obtain ⟨x, hx, rfl⟩ := Option.map_eq_some_iff.mp hf
  obtain ⟨init, rfl⟩ := List.getLast?_eq_some_iff.mp hx
  refine ⟨x, mem_concat_self, rfl, fun y hy => ?_⟩
  rcases mem_append.mp hy with hy | hy
  · exact (pairwise_append.mp hst.ascending).2.2 y hy x (.head _)
  · rw [mem_singleton.mp hy]

/-- A handle on a log without frames. -/
theorem knows_nil (hst : Stored file published) (hnil : framesOf published = []) :
    Knows file published ⟨none, PMT.new, .new, none⟩ := by
  obtain rfl : published = [] := map_eq_nil_iff.mp hnil
  exact ⟨PMT.sound_new, PageAllocator.fits_new, by simp, .inl rfl, by simp, fun f hf => by cases hf⟩

theorem Inv.reopen (hinv : s.Inv) {l : LoadedLog} (hl : loadMetadata s.file = .ok l) :
    Inv { s with file := l.file, handle := some ⟨l.current, l.pmt, l.allocator, l.frontier⟩ } := by
  have hst := hinv.stored
  rcases hf : s.file with _ | bytes
  · rw [hf] at hl hst
    cases hl
    exact .of_knows hst (knows_nil hst hst.keeps)
  rw [hf] at hl hst
  obtain ⟨tail, ht, rfl, hparse⟩ := hst.parse
  simp only [loadMetadata, hparse, parsedFile_select hst.wf] at hl
  split at hl
  · cases hl
  rcases hlast : (framesOf s.published).getLast? with _ | f
  · rw [hlast] at hl
    cases hl
    exact .of_knows hst (knows_nil hst (List.getLast?_eq_none_iff.mp hlast))
  obtain ⟨x, hx, rfl, hnewest⟩ := hst.last hlast
  have hxf : x.frame ∈ framesOf s.published := mem_map_of_mem hx
  obtain ⟨hgen, hid⟩ := hst.wf.named _ hxf
  obtain ⟨n, -, hres, hr⟩ := hst.resolve tail hx
  rw [hlast] at hl
  simp only [Option.map_some, hid, hres] at hl
  cases hl
  rw [cutTail_logFile]
  refine .of_knows hst.cut ⟨(hst.sound x hx).1, (hst.sound x hx).2, hnewest,
    .inr ⟨x.frame, hxf, hid.symm⟩, fun f hf =>
      ⟨_, rfl, (hst.wf.le_last hlast hf).trans_eq hgen.symm⟩, ?_⟩
  rintro f ⟨⟩
  exact ⟨hid.symm, rfl, rfl, hr⟩

theorem Step.inv {s s' : LogState} (hs : Step s s') (hinv : s.Inv) : s'.Inv := by
  cases hs with
  | @write h pageId fileId offset hh hp hf ho hn =>
    have hk := hinv.knows h hh
    exact .of_knows hinv.stored ⟨hk.sound.insert hp hf ho hn, hk.allocator,
      fun x hx => (hk.newest x hx).trans (Nat.le_succ _), hk.parent, hk.latest, hk.frontier⟩
  | @alloc h hh =>
    have hk := hinv.knows h hh
    exact .of_knows hinv.stored { hk with allocator := hk.allocator.alloc }
  | @advance h minimum hh hm =>
    have hk := hinv.knows h hh
    exact .of_knows hinv.stored { hk with allocator := hk.allocator.advanceNextId hm }
  | @rebuild h pageId fileId offset hh hp hf ho hn =>
    have hk := hinv.knows h hh
    exact .of_knows hinv.stored ⟨PMT.sound_clear_insert hp hf ho hn, PageAllocator.fits_new,
      fun x hx => (hk.newest x hx).trans (Nat.le_succ _), hk.parent, hk.latest, hk.frontier⟩
  | append hh hm hp ha => exact hinv.append hh hm hp ha
  | refused hh hm ha => exact hinv.refused hh hm ha
  | crashAppend k hh hm hp => exact hinv.crashAppend hh hm k hp
  | refresh hh hparent hf he => exact hinv.refresh hh hparent hf he
  | crash => exact ⟨hinv.stored, fun h hh => by cases hh⟩
  | reopen _ hl => exact hinv.reopen hl

/-! ## Pruning -/

theorem framesOf_filter (retained : List Nat) :
    framesOf (published.filter fun x => x.frame.checkpointId ∈ retained) =
      (framesOf published).filter fun f => f.checkpointId ∈ retained := by
  rw [framesOf, framesOf, filter_map]
  rfl

/-- What is kept of the log. -/
theorem Stored.filter (hst : Stored file published) {retained : List Nat}
    (hc : Closed (framesOf published) retained) :
    Stored (some (logFile ((framesOf published).filter fun f => f.checkpointId ∈ retained) []))
      (published.filter fun x => x.frame.checkpointId ∈ retained) := by
  obtain ⟨hwf, hmono⟩ := hst.wf.filter hc
  refine ⟨?_, ?_, ?_, ?_, ?_, hst.ascending.sublist filter_sublist⟩
  · rw [framesOf_filter]
    exact hwf
  · rw [framesOf_filter]
    exact fun f hf => hst.storable f (mem_filter.mp hf).1
  · exact ⟨[], rfl, by rw [framesOf_filter]⟩
  · rw [framesOf_filter]
    intro x hx
    obtain ⟨hx, hkept⟩ := mem_filter.mp hx
    obtain ⟨n, hr⟩ := hst.resolved x hx
    exact ⟨n, hmono (by simpa using hkept) hr⟩
  · exact fun x hx => hst.sound x (mem_filter.mp hx).1

theorem Prune.inv {s s' : LogState} (hs : Prune s s') (hinv : s.Inv) : s'.Inv := by
  obtain @⟨h, latest, bytes, bytes', p, keep, retained, frontier, hh, hlatest, hkeep,
    hf, hp, hr, hc⟩ := hs
  have hk := hinv.knows h hh
  have hst := hinv.stored
  rw [hf] at hk hst
  obtain ⟨tail, ht, rfl, hparse⟩ := hst.parse
  rw [hparse] at hp
  cases hp
  rw [ParsedLogFile.retainedCheckpoints, parsedFile_records] at hr
  obtain ⟨hclosed, hmem⟩ := retainedCheckpoints_closed keep hr
  rw [compactMetadataLog] at hc
  split at hc
  · -- every frame is kept
    rename_i hall
    cases hc
    have hsame : (s.published.filter fun x => x.frame.checkpointId ∈ retained) = s.published := by
      refine filter_eq_self.mpr fun x hx => ?_
      have := all_eq_true.mp hall x.frame.logged (mem_map_of_mem (mem_map_of_mem hx))
      exact this
    rw [hsame]
    exact .of_knows hst hk
  · cases hc
    have hfile : metaLogHeaderBytes ++ ((parsedFile (framesOf s.published) tail).frames.filter
        fun frame => frame.checkpointId ∈ retained).flatMap LoggedFrame.raw =
        logFile ((framesOf s.published).filter fun f => f.checkpointId ∈ retained) [] := by
      rw [parsedFile, filter_map, flatMap_map, logFile, append_nil]
      rfl
    rw [hfile]
    refine .of_knows (hst.filter hclosed) ⟨hk.sound, hk.allocator,
      fun x hx => hk.newest x (mem_filter.mp hx).1, ?_, ?_, fun f hf => by cases hf⟩
    · rcases hk.parent with h0 | ⟨f, hfm, hid⟩
      · exact .inl h0
      by_cases h0 : h.parent = 0
      · exact .inl h0
      refine .inr ⟨f, ?_, hid⟩
      rw [framesOf_filter]
      refine mem_filter.mpr ⟨hfm, ?_⟩
      have hpid : h.parent = latest.pmtCheckpointId := by rw [LogHandle.parent, hlatest]; rfl
      have := hmem latest hkeep (hpid ▸ h0)
      simpa [hid, hpid] using this
    · rw [framesOf_filter]
      exact fun f hf => hk.latest f (mem_filter.mp hf).1

/-! ## Whole runs -/

theorem ReachedPruning.inv {s : LogState} (h : ReachedPruning s) : s.Inv := by
  induction h with
  | initial => exact inv_initial
  | step _ hs ih => exact hs.inv ih
  | prune _ hs ih => exact hs.inv ih

/-- An open succeeds once there is a frame. -/
theorem Stored.load (hst : Stored file published) (hne : published ≠ []) :
    ∃ l, loadMetadata file = .ok l ∧ l.current = published.getLast?.map fun x =>
      x.frame.manifest := by
  have hframes : framesOf published ≠ [] := fun hnil => hne (map_eq_nil_iff.mp hnil)
  rcases hf : file with _ | bytes
  · rw [hf] at hst
    exact absurd hst.keeps hframes
  rw [hf] at hst
  obtain ⟨tail, ht, rfl, hparse⟩ := hst.parse
  obtain ⟨f, hlast⟩ := Option.isSome_iff_exists.mp (List.getLast?_isSome.mpr hframes)
  have hcurrent : (published.getLast?.map fun x => x.frame.manifest) = some f.manifest := by
    rw [framesOf, List.getLast?_map] at hlast
    obtain ⟨x, hx, rfl⟩ := Option.map_eq_some_iff.mp hlast
    rw [hx]
    rfl
  obtain ⟨x, hx, rfl, -⟩ := hst.last hlast
  obtain ⟨n, -, hres, -⟩ := hst.resolve tail hx
  have hid := (hst.wf.named _ (mem_map_of_mem hx)).2
  have hnonempty : (parsedFile (framesOf published) tail).frames.isEmpty = false := by
    simpa [parsedFile] using hne
  refine ⟨⟨some (cutTail (parsedFile (framesOf published) tail)
    (logFile (framesOf published) tail)), some x.frame.manifest, x.pmt, x.allocator,
    some ⟨x.frame.checkpointId, x.pmt, x.allocator, n,
      (parsedFile (framesOf published) tail).validLen⟩⟩, ?_,
    hcurrent.symm⟩
  simp only [loadMetadata, hparse, parsedFile_select hst.wf, hlast, Option.map_some,
    hid, hres, hnonempty]
  rfl

/-- **The authority is the last frame that was appended as a whole.**  Whatever appends, crashes in
the middle of an append and reopens led to the log: its frames are all those that were
appended as a whole, none hidden behind what a crash left; the last of them is selected; and
an open goes on from it. -/
theorem authority_selected {s : LogState} (h : Reached s) :
    (s.file = none → s.published = []) ∧
    (∀ bytes, s.file = some bytes → ∃ p, parseMetaLog bytes = .ok p ∧
      p.frames = s.published.map (fun x => x.frame.logged) ∧
      p.selectAuthorityManifest = .ok (s.published.getLast?.map fun x => x.frame.manifest)) ∧
    (s.published ≠ [] → ∃ l, loadMetadata s.file = .ok l ∧
      l.current = s.published.getLast?.map fun x => x.frame.manifest) := by
  have hst := h.pruning.inv.stored
  refine ⟨?_, ?_, hst.load⟩
  · intro hf
    rw [hf] at hst
    exact map_eq_nil_iff.mp hst.keeps
  · intro bytes hf
    rw [hf] at hst
    obtain ⟨tail, ht, rfl, hparse⟩ := hst.parse
    refine ⟨_, hparse, ?_, ?_⟩
    · rw [parsedFile, map_map]
      rfl
    · rw [parsedFile_select hst.wf, framesOf, List.getLast?_map, Option.map_map]
      rfl

/-- **Delta chains resolve to what was published.**  Whatever publications, crashes, reopens and
prunings led to the log: every frame in it resolves, within the bound on chains, to the table and
the allocator that were live when it was appended; and the cached view that the next append
builds on is what the file gives when it is read again. -/
theorem chains_resolved {s : LogState} (h : ReachedPruning s) :
    (∀ bytes, s.file = some bytes → ∃ p, parseMetaLog bytes = .ok p ∧
      p.frames = s.published.map (fun x => x.frame.logged) ∧
      ∀ x ∈ s.published, ∃ n ≤ maxMetaDeltaChain,
        p.resolveMetaLog x.frame.checkpointId = .ok (x.pmt, x.allocator, n)) ∧
    ∀ hd f, s.handle = some hd → hd.frontier = some f → ∃ bytes p, s.file = some bytes ∧
      parseMetaLog bytes = .ok p ∧ f.checkpointId = hd.parent ∧ f.logLen = bytes.length ∧
      f.logLen = p.validLen ∧ p.resolveMetaLog f.checkpointId =
        .ok (f.pmt, f.allocator, f.depth) := by
  have hst := h.inv.stored
  constructor
  · intro bytes hf
    rw [hf] at hst
    obtain ⟨tail, ht, rfl, hparse⟩ := hst.parse
    refine ⟨_, hparse, ?_, fun x hx => ?_⟩
    · rw [parsedFile, map_map]
      rfl
    · obtain ⟨n, hn, hres, -⟩ := hst.resolve tail hx
      exact ⟨n, hn, hres⟩
  · intro hd f hh hf
    obtain ⟨hid, hfile, hlen, hr⟩ := (h.inv.knows hd hh).frontier f hf
    refine ⟨_, _, hfile, parseMetaLog_logFile hst.storable (show parseFrame [] = .ok none from rfl),
      hid, hlen, hlen, ?_⟩
    rw [ParsedLogFile.resolveMetaLog, parsedFile_records]
    exact hr.resolve _

/-! ## Runs that are computed -/

attribute [mk_iff] LogHandle.Admits

instance (h : LogHandle) (m : Manifest) : Decidable (h.Admits m) :=
  decidable_of_iff (m.Fits ∧ m.pmtCheckpointId = m.generationId ∧ (∀ latest ∈ h.latest,
    latest.generationId < m.generationId) ∧ (m.generationId = 0 → h.pmt = PMT.new))
      (h.admits_iff m).symm

/-- Close or crash, and open again. -/
def reopened (s : LogState) : LogState := match loadMetadata s.file with
  | .error _ => { s with handle := none }
  | .ok l => { s with file := l.file, handle := some ⟨l.current, l.pmt, l.allocator, l.frontier⟩ }

theorem Reached.reopened {s : LogState} (h : Reached s) : Reached s.reopened := by
  rw [LogState.reopened]
  cases hl : loadMetadata s.file with
  | error e => exact h.step (.crash s)
  | ok l => exact (h.step (.crash s)).step (.reopen rfl hl)

/-- Write a page of the main file. -/
def wrote (s : LogState) (pageId offset : Nat) : LogState := match s.handle with
  | some h =>
    if pageId < 256 ^ 8 ∧ offset < 256 ^ 8 ∧ h.pmt.nextVersion < u64Max then
      { s with handle := some { h with pmt := h.pmt.insert pageId 0 offset } }
    else s
  | none => s

theorem Reached.wrote {s : LogState} (h : Reached s) (pageId offset : Nat) :
    Reached (s.wrote pageId offset) := by
  rw [LogState.wrote]
  cases hh : s.handle with
  | none => exact h
  | some hd =>
    simp only
    split
    · rename_i hc
      exact h.step (.write hh hc.1 (by decide) hc.2.1 hc.2.2)
    · exact h

/-- Publish, unless the manifest is not the next one. -/
def publish (s : LogState) (m : Manifest) : LogState := match s.handle with
  | none => s
  | some h =>
    if h.Admits m then match s.prepared h m, s.appended h m with
      | (_, .ok (_, pending)), (.ok (), file, frontier) =>
        ⟨file, some { h with latest := some m, frontier := frontier },
          s.published ++ [⟨pending.frame, h.pmt, h.allocator⟩]⟩
      | _, _ => s
    else s

theorem Reached.publish {s : LogState} (h : Reached s) (m : Manifest) : Reached (s.publish m) := by
  rw [LogState.publish]
  cases hh : s.handle with
  | none => exact h
  | some hd =>
    simp only
    split
    · rename_i hm
      split
      · rename_i hp ha
        exact h.step (.append hh hm hp ha)
      · exact h
    · exact h

/-- Crash with `k` bytes of the frame written. -/
def publishTorn (s : LogState) (m : Manifest) (k : Nat) : LogState := match s.handle with
  | none => s
  | some h =>
    if h.Admits m then match s.prepared h m with
      | (cut, .ok (_, pending)) => ⟨some (frameBase cut ++ pending.bytes.take k), none,
          if pending.bytes.length ≤ k then s.published ++ [⟨pending.frame, h.pmt, h.allocator⟩]
          else s.published⟩
      | _ => s
    else s

theorem Reached.publishTorn {s : LogState} (h : Reached s) (m : Manifest) (k : Nat) :
    Reached (s.publishTorn m k) := by
  rw [LogState.publishTorn]
  cases hh : s.handle with
  | none => exact h
  | some hd =>
    simp only
    split
    · rename_i hm
      split
      · rename_i hp
        exact h.step (.crashAppend k hh hm hp)
      · exact h
    · exact h

def generation (g : GenerationId) : Manifest := ⟨7, 1, g, g, 0, g, 0, 0, 0⟩

/-- The bootstrap frame and a commit. -/
def twoFrames : LogState :=
  ((initial.reopened.publish (generation 0)).wrote 0 0).publish (generation 1)

theorem twoFrames_reached : Reached twoFrames :=
  Reached.publish (Reached.wrote (Reached.publish (Reached.reopened .initial) _) _ _) _

/-- A crash cuts the next commit. -/
def cutShort : LogState := (twoFrames.wrote 1 4096).publishTorn (generation 2) 40

/-- The cut frame is not selected. -/
theorem authority_selected_cutShort : ∃ bytes p, cutShort.file = some bytes ∧
    parseMetaLog bytes = .ok p ∧ p.selectAuthorityManifest = .ok (some (generation 1)) := by
  have hreached : Reached cutShort := (twoFrames_reached.wrote 1 4096).publishTorn (generation 2) 40
  have hlast : (cutShort.published.getLast?.map fun x => x.frame.manifest) =
    some (generation 1) := by
    decide +kernel
  obtain ⟨hnone, hsome, -⟩ := authority_selected hreached
  cases hf : cutShort.file with
  | none =>
    rw [hnone hf] at hlast
    cases hlast
  | some bytes =>
    obtain ⟨p, hp, -, hselect⟩ := hsome bytes hf
    exact ⟨bytes, p, rfl, hp, by rw [hselect, hlast]⟩

/-- The third frame is a delta over the second. -/
def threeFrames : LogState := (twoFrames.wrote 1 4096).publish (generation 2)

/-- The handle that wrote the frames has the table of the third at hand. -/
theorem chains_resolved_threeFrames : ∃ hd f bytes p, threeFrames.handle = some hd ∧
    hd.frontier = some f ∧ f.depth = 1 ∧ threeFrames.file = some bytes ∧
      parseMetaLog bytes = .ok p ∧
    p.resolveMetaLog f.checkpointId = .ok (f.pmt, f.allocator, f.depth) := by
  have hreached : Reached threeFrames := (twoFrames_reached.wrote 1 4096).publish (generation 2)
  obtain ⟨-, hfrontier⟩ := chains_resolved hreached.pruning
  have hdepth : (threeFrames.handle.bind LogHandle.frontier).map (·.depth) = some 1 := by
    decide +kernel
  obtain ⟨f, hf, hone⟩ := Option.map_eq_some_iff.mp hdepth
  obtain ⟨hd, hh, hf⟩ := Option.bind_eq_some_iff.mp hf
  obtain ⟨bytes, p, hfile, hp, -, -, -, hres⟩ := hfrontier hd f hh hf
  exact ⟨hd, f, bytes, p, hh, hf, hone, hfile, hp, hres⟩

end LogState

end SeerDb
