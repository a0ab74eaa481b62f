/-
# `SeerDb.Storage.LogWriter` — appending to the metadata log, pruning it, opening it

The functions of `db/metadata.rs` that read and write the log file, and the part of
`db/open_catalog.rs` and `db/open_components.rs` that loads it.  The file is a string of
bytes; `frontier` is the handle's cached view of the checkpoint that the next frame builds
on, used only while the file still has the length the view was taken at.
-/
import SeerDb.Storage.LogCodec

namespace SeerDb

open Lib

structure MetaFrontier where
  checkpointId : Nat
  pmt : PMT
  allocator : PageAllocator
  depth : Nat
  logLen : Nat
deriving DecidableEq, Repr

/-! ## Reading -/

def LoggedEntry.manifest : LoggedEntry → Option Manifest
  | .publication manifest _ => some manifest
  | .bare _ => none

def LoggedEntry.inner : LoggedEntry → MetaLogEntry
  | .publication _ entry => entry
  | .bare entry => entry

namespace ParsedLogFile

/-- The frames as the walks over delta chains read them; a walk looks at ids and entries only. -/
def records (p : ParsedLogFile) : ParsedMetaLog where
  frames := p.frames.map fun frame =>
    ⟨frame.checkpointId, frame.entry.manifest.getD ⟨0, 0, 0, 0, 0, 0, 0, 0, 0⟩, frame.entry.inner⟩
  complete := p.complete

def resolveMetaLog (p : ParsedLogFile) (checkpointId : Nat) :
    Except Error (PMT × PageAllocator × Nat) :=
  p.records.resolve checkpointId

/-- The checkpoints that the manifests are resolved from. -/
def retainedCheckpoints (p : ParsedLogFile) (manifests : List Manifest) : Except Error (List Nat) :=
  p.records.retainedCheckpoints manifests

def selectAuthorityManifest (p : ParsedLogFile) : Except Error (Option Manifest) :=
  match ((p.frames.filterMap fun frame => frame.entry.manifest).insertionSort
      Manifest.notOlder).find? (resolves p.records) with
  | some manifest => .ok (some manifest)
  | none =>
    if p.frames.isEmpty then .ok none
    else .error (.corruption
      "metadata log has publication frames but no resolvable checkpoint chain")

end ParsedLogFile

/-- `set_len` to the valid prefix, where something follows it. -/
def cutTail (p : ParsedLogFile) (bytes : Bytes) : Bytes :=
  if p.validLen < bytes.length then bytes.take p.validLen else bytes

/-! ## Appending -/

def missingParent (parentCheckpointId : Nat) : Error := .corruption
  ("metadata log is missing parent checkpoint " ++ toString parentCheckpointId)

/-- The table, the allocator and the depth of the parent, if they are at hand. -/
def cachedParent (frontier : Option MetaFrontier) (parentCheckpointId onDiskLen : Nat) :
    Option (PMT × PageAllocator × Nat) :=
  match frontier with
  | none => none
  | some f =>
    if f.checkpointId = parentCheckpointId ∧ f.logLen = onDiskLen then
      some (f.pmt, f.allocator, f.depth)
    else none

/-- An existing file is read if the parent is not at hand. -/
def readForAppend (file : Option Bytes) (cached : Option (PMT × PageAllocator × Nat)) :
    Except Error (Option ParsedLogFile) :=
  match cached, file with
  | none, some bytes => (parseMetaLog bytes).map some
  | _, _ => .ok none

def parentImage (parsed : Option ParsedLogFile) (cached : Option (PMT × PageAllocator × Nat))
    (parentCheckpointId : Nat) : Except Error (Option (PMT × PageAllocator × Nat)) :=
  if parentCheckpointId = 0 ∨ cached.isSome then .ok cached
  else match parsed with
    | none => .error (missingParent parentCheckpointId)
    | some p => (p.resolveMetaLog parentCheckpointId).map some

/-- The entry of the next frame and its depth. -/
def nextEntry (parent : Option (PMT × PageAllocator × Nat)) (parentCheckpointId : Nat) (pmt : PMT)
    (allocator : PageAllocator) : Except Error (MetaLogEntry × Nat) :=
  if parentCheckpointId = 0 then .ok (.checkpoint pmt.mappings allocator, 0)
  else match parent with
    | none => .error (missingParent parentCheckpointId)
    | some (parentPmt, _, depth) =>
      if depth ≥ maxMetaDeltaChain then .ok (.checkpoint pmt.mappings allocator, 0)
      else .ok (.delta (encodeDelta parentCheckpointId parentPmt pmt allocator), depth + 1)

/-- A frame that is about to be written, and the depth of its checkpoint. -/
structure PendingFrame where
  frame : MetaLogFrame
  bytes : Bytes
  depth : Nat

def pendingFrame (parsed : Option ParsedLogFile) (cached : Option (PMT × PageAllocator × Nat))
    (checkpointId parentCheckpointId : Nat) (manifest : Manifest) (pmt : PMT)
    (allocator : PageAllocator) :
    Except Error PendingFrame :=
  match parentImage parsed cached parentCheckpointId with
  | .error e => .error e
  | .ok parent => match nextEntry parent parentCheckpointId pmt allocator with
    | .error e => .error e
    | .ok (entry, depth) => match encodeMetaLogFrame ⟨checkpointId, manifest, entry⟩ with
      | .error e => .error e
      | .ok bytes => .ok ⟨⟨checkpointId, manifest, entry⟩, bytes, depth⟩

/-- `append_generation_meta` up to the write: the file, with an abandoned tail cut off, the length
of what the frame is written behind, and the frame. -/
def prepareAppend (file : Option Bytes) (frontier : Option MetaFrontier)
    (checkpointId parentCheckpointId : Nat)
    (manifest : Manifest) (pmt : PMT) (allocator : PageAllocator) :
    Option Bytes × Except Error (Nat × PendingFrame) :=
  let cached := cachedParent frontier parentCheckpointId ((file.map List.length).getD 0)
  match readForAppend file cached with
  | .error e => (file, .error e)
  | .ok parsed =>
    let prefixLen := match file with
      | none => metaLogHeaderSize
      | some bytes => (parsed.map ParsedLogFile.validLen).getD bytes.length
    (match parsed with
      | none => file
      | some p => file.map (cutTail p),
     (pendingFrame parsed cached checkpointId parentCheckpointId manifest pmt allocator).map
      fun pending => (prefixLen, pending))

/-- A new file starts with the header. -/
def frameBase (file : Option Bytes) : Bytes := file.getD metaLogHeaderBytes

/-- The result, the file and the cached view. -/
def appendGenerationMeta (file : Option Bytes) (frontier : Option MetaFrontier)
    (checkpointId parentCheckpointId : Nat) (manifest : Manifest) (pmt : PMT)
    (allocator : PageAllocator) :
    Except Error Unit × Option Bytes × Option MetaFrontier :=
  match prepareAppend file frontier checkpointId parentCheckpointId manifest pmt allocator with
  | (cut, .error e) => (.error e, cut, none)
  | (cut, .ok (prefixLen, pending)) =>
    (.ok (), some (frameBase cut ++ pending.bytes),
      some ⟨checkpointId, pmt, allocator, pending.depth, prefixLen + pending.bytes.length⟩)

/-- The depth of the checkpoint, from the cached view or from the file. -/
def ensureMetaFrontier (bytes : Bytes) (frontier : Option MetaFrontier) (checkpointId : Nat) :
    Except Error Nat × Bytes × Option MetaFrontier :=
  match cachedParent frontier checkpointId bytes.length with
  | some (_, _, depth) => (.ok depth, bytes, frontier)
  | none => match parseMetaLog bytes with
    | .error e => (.error e, bytes, none)
    | .ok p => match p.resolveMetaLog checkpointId with
      | .error e => (.error e, cutTail p bytes, none)
      | .ok (pmt, allocator, depth) =>
        (.ok depth, cutTail p bytes, some ⟨checkpointId, pmt, allocator, depth, p.validLen⟩)

/-! ## Pruning and opening -/

/-- An atomic replacement, when there is a frame to drop. -/
def compactMetadataLog (p : ParsedLogFile) (bytes : Bytes) (frontier : Option MetaFrontier)
    (retained : List Nat) : Bytes × Option MetaFrontier :=
  if p.frames.all fun frame => frame.checkpointId ∈ retained then (bytes, frontier)
  else (metaLogHeaderBytes ++
    (p.frames.filter fun frame => frame.checkpointId ∈ retained).flatMap LoggedFrame.raw, none)

/-- What an open finds in the log. -/
structure LoadedLog where
  file : Option Bytes
  current : Option Manifest
  pmt : PMT
  allocator : PageAllocator
  frontier : Option MetaFrontier

/-- A log that has bytes but no frame is refused; a torn tail behind the frames is cut off. -/
def loadMetadata (file : Option Bytes) : Except Error LoadedLog :=
  match file with
  | none => .ok ⟨none, none, PMT.new, .new, none⟩
  | some bytes => match parseMetaLog bytes with
    | .error e => .error e
    | .ok p =>
      if p.frames.isEmpty && !p.complete then
        .error (.corruption "metadata log has no valid publication frames")
      else match p.selectAuthorityManifest with
        | .error e => .error e
        | .ok none => .ok ⟨some bytes, none, PMT.new, .new, none⟩
        | .ok (some current) => match p.resolveMetaLog current.pmtCheckpointId with
          | .error e => .error e
          | .ok (pmt, allocator, depth) =>
            .ok ⟨some (cutTail p bytes), some current, pmt, allocator,
              some ⟨current.pmtCheckpointId, pmt, allocator, depth, p.validLen⟩⟩

end SeerDb
