/-
# `SeerDb.Storage.MetaLog` — the metadata log

`db/metadata.rs` and `db/metadata_codec.rs`.  Every frame of the log publishes a
manifest together with the mapping table it selects, as a full checkpoint or as a
delta over a parent checkpoint.  Resolving a checkpoint walks the parents back to
a full one; the authority is the newest frame that resolves.
-/
import SeerDb.Storage.Pages
import SeerDb.Lib.Log

namespace SeerDb

structure MetaDelta where
  parentCheckpointId : Nat
  updates : List (PageId × PageMapping)
  removals : List PageId
  allocator : PageAllocator
deriving DecidableEq, Repr

inductive MetaLogEntry where
  | checkpoint (mappings : List (PageId × PageMapping)) (allocator : PageAllocator)
  | delta (delta : MetaDelta)
deriving DecidableEq, Repr

/-- A publication frame. -/
structure MetaLogFrame where
  checkpointId : Nat
  manifest : Manifest
  entry : MetaLogEntry
deriving DecidableEq, Repr

def PageAllocator.serializedLen (a : PageAllocator) : Nat := 12 + a.freeList.length * 8

def MetaLogEntry.size : MetaLogEntry → Nat
  | .checkpoint mappings allocator => 28 + mappings.length * 28 + allocator.serializedLen
  | .delta d => 36 + d.updates.length * 28 + d.removals.length * 8 + d.allocator.serializedLen

/-- Frame header, publication header, manifest slot, entry. -/
def MetaLogFrame.size (f : MetaLogFrame) : Nat := 16 + 16 + 256 + f.entry.size

/-- `MAX_META_DELTA_CHAIN`. -/
def maxMetaDeltaChain : Nat := 64

/-- What reading the log file gives: its frames, and whether they reach its end. -/
structure ParsedMetaLog where
  frames : List MetaLogFrame
  complete : Bool
deriving DecidableEq, Repr

abbrev MetaLog := Lib.LogFile MetaLogFrame

def MetaLog.parse (log : MetaLog) : ParsedMetaLog := ⟨log.records, log.torn = 0⟩

namespace ParsedMetaLog

/-- Later frames hide earlier ones of the same id. -/
def entry (p : ParsedMetaLog) (checkpointId : Nat) : Option MetaLogEntry :=
  (p.frames.reverse.find? (fun f => f.checkpointId = checkpointId)).map MetaLogFrame.entry

def missing (p : ParsedMetaLog) (checkpointId : Nat) : Error := .corruption
  ("metadata checkpoint " ++ toString checkpointId ++ " is missing from the log" ++
    (if p.complete then "" else " (the log ends at a torn or corrupt frame)"))

/-- Walk back to a full checkpoint, collecting the deltas passed, oldest first. -/
def collect (p : ParsedMetaLog) : Nat → Nat → List Nat → List MetaDelta →
    Except Error (PMT × PageAllocator × List MetaDelta)
  | 0, _, _, _ => .error (.corruption "metadata delta chain exceeds maximum length 64")
  | fuel + 1, current, visited, deltas => match p.entry current with
    | none => .error (p.missing current)
    | some (.checkpoint mappings allocator) => .ok (.ofMappings mappings, allocator, deltas)
    | some (.delta d) =>
      if d.parentCheckpointId ∈ visited then
        .error (.corruption "metadata delta chain contains a cycle")
      else if deltas.length + 1 > maxMetaDeltaChain then
        .error (.corruption "metadata delta chain exceeds maximum length 64")
      else if d.parentCheckpointId = 0 then
        .error (.corruption "metadata delta has no full checkpoint parent")
      else collect p fuel d.parentCheckpointId (d.parentCheckpointId :: visited) (d :: deltas)

end ParsedMetaLog

def removeAll : List PageId → PMT → Except Error PMT
  | [], pmt => .ok pmt
  | pageId :: rest, pmt =>
    if pmt.contains pageId then removeAll rest (pmt.remove pageId)
    else .error (.corruption ("metadata delta removes unknown page " ++ toString pageId))

def MetaDelta.apply (d : MetaDelta) (pmt : PMT) : Except Error PMT :=
  match removeAll d.removals pmt with
  | .error e => .error e
  | .ok pmt => .ok (d.updates.foldl (fun pmt u => pmt.insertPersisted u.1 u.2) pmt)

def applyDeltas : List MetaDelta → PMT × PageAllocator → Except Error (PMT × PageAllocator)
  | [], state => .ok state
  | d :: ds, (pmt, _) => match d.apply pmt with
    | .error e => .error e
    | .ok pmt => applyDeltas ds (pmt, d.allocator)

/-- The table, the allocator and the length of the delta chain of a checkpoint. -/
def ParsedMetaLog.resolve (p : ParsedMetaLog) (checkpointId : Nat) :
    Except Error (PMT × PageAllocator × Nat) :=
  match p.collect (maxMetaDeltaChain + 2) checkpointId [] [] with
  | .error e => .error e
  | .ok (pmt, allocator, deltas) => match applyDeltas deltas (pmt, allocator) with
    | .error e => .error e
    | .ok (pmt, allocator) => .ok (pmt, allocator, deltas.length)

def resolves (p : ParsedMetaLog) (m : Manifest) : Bool :=
  m.pmtCheckpointId = 0 || (match p.resolve m.pmtCheckpointId with
    | .ok _ => true
    | .error _ => false)

/-- `Reverse((generation_id, commit_id))`. -/
def Manifest.notOlder (m other : Manifest) : Prop :=
  other.generationId < m.generationId ∨
    (other.generationId = m.generationId ∧ other.commitId ≤ m.commitId)

instance : DecidableRel Manifest.notOlder := fun _ _ => inferInstanceAs (Decidable (_ ∨ _))

def ParsedMetaLog.publicationManifests (p : ParsedMetaLog) : List Manifest :=
  p.frames.map MetaLogFrame.manifest

/-- The newest publication whose checkpoint resolves. -/
def ParsedMetaLog.selectAuthorityManifest (p : ParsedMetaLog) : Except Error (Option Manifest) :=
  match (p.publicationManifests.insertionSort Manifest.notOlder).find? (resolves p) with
  | some manifest => .ok (some manifest)
  | none =>
    if p.frames.isEmpty then .ok none
    else .error (.corruption
      "metadata log has publication frames but no resolvable checkpoint chain")

/-- `encode_delta`: what turns the parent's table into the current one. -/
def encodeDelta (parentCheckpointId : Nat) (parent pmt : PMT) (allocator : PageAllocator) :
    MetaDelta where
  parentCheckpointId := parentCheckpointId
  updates := pmt.mappings.filter fun entry => parent.get entry.1 ≠ some entry.2
  removals := (parent.mappings.filter fun entry => !pmt.contains entry.1).map Prod.fst
  allocator := allocator

/-- The entry of the next frame: a delta over the parent unless there is none or its chain is
full. -/
def generationEntry (log : Option ParsedMetaLog) (parentCheckpointId : Nat) (pmt : PMT)
    (allocator : PageAllocator) : Except Error MetaLogEntry :=
  if parentCheckpointId = 0 then .ok (.checkpoint pmt.mappings allocator)
  else match log with
    | none => .error (.corruption
        ("metadata log is missing parent checkpoint " ++ toString parentCheckpointId))
    | some p => match p.resolve parentCheckpointId with
      | .error e => .error e
      | .ok (parent, _, depth) =>
        if depth ≥ maxMetaDeltaChain then .ok (.checkpoint pmt.mappings allocator)
        else .ok (.delta (encodeDelta parentCheckpointId parent pmt allocator))

/-- The checkpoints a checkpoint is resolved from, itself included. -/
def ParsedMetaLog.ancestors (p : ParsedMetaLog) : Nat → Nat → List Nat → Except Error (List Nat)
  | 0, _, _ => .error (.corruption "metadata delta chain exceeds maximum length 64")
  | fuel + 1, current, found =>
    if current ∈ found then .error (.corruption "metadata delta chain contains a cycle")
    else match p.entry current with
      | none => .error (.corruption
          ("metadata checkpoint " ++ toString current ++ " is missing from the log"))
      | some (.checkpoint _ _) => .ok (current :: found)
      | some (.delta d) =>
        if d.parentCheckpointId = 0 then .ok (current :: found)
        else p.ancestors fuel d.parentCheckpointId (current :: found)

/-- The checkpoints that the manifests are resolved from. -/
def ParsedMetaLog.retainedCheckpoints (p : ParsedMetaLog) : List Manifest → Except Error (List Nat)
  | [] => .ok []
  | m :: ms => match p.retainedCheckpoints ms with
    | .error e => .error e
    | .ok found =>
      if m.pmtCheckpointId = 0 then .ok found
      else match p.ancestors (maxMetaDeltaChain + 1) m.pmtCheckpointId [] with
        | .error e => .error e
        | .ok ancestors => .ok (ancestors ++ found)

end SeerDb
