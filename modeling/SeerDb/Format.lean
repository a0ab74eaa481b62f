/-
# `SeerDb.Format` — errors, commit records, manifests and their history

The identities of the durable format (`storage/format.rs`,
`storage/manifest_history.rs`) and the crate's error type (`error.rs`) as far as
the database functions below report it.  Identities and byte offsets are natural
numbers; the fields of a manifest that never vary (page size, format version, WAL
segment) are left out.
-/
import SeerDb.Btree.Tree

namespace SeerDb

abbrev GenerationId := Nat
abbrev CommitId := Nat
abbrev SnapshotId := Nat

inductive BlobManagerError where
  | fileIdExhausted
deriving DecidableEq, Repr

inductive Error where
  | diskFull
  | capacityPreflight
  | backpressure (required available : Nat)
  | duplicateKey
  | pageFull
  | corruption (message : String)
  | needsRecovery (message : String)
  | invalidArgument (message : String)
  | snapshotUnavailable (message : String)
  | serializationConflict (expected current : CommitId)
  | maintenanceInProgress (operation : String)
  | commitCleanup (commit : CommitId) (cleanup : Error)
  | btree (message : String)
  | wal (message : String)
  | blob (error : BlobManagerError)
deriving DecidableEq, Repr

/-- `{:?}` of a commit id. -/
def CommitId.debug (commit : CommitId) : String := "CommitId(" ++ toString commit ++ ")"

/-- `Display`. -/
def Error.display : Error → String
  | .diskFull => "disk full"
  | .capacityPreflight => "capacity preflight refused"
  | .backpressure required available => "write backpressure: requires " ++ toString required ++
      " WAL bytes, " ++ toString available ++ " available"
  | .duplicateKey => "duplicate key"
  | .pageFull => "page full"
  | .corruption message => "corruption: " ++ message
  | .needsRecovery message => "database needs recovery: " ++ message
  | .invalidArgument message => "invalid argument: " ++ message
  | .snapshotUnavailable message => "snapshot unavailable: " ++ message
  | .serializationConflict expected current => "serialization conflict: expected commit " ++
      expected.debug ++ ", current commit " ++ current.debug
  | .maintenanceInProgress operation => "maintenance is in progress: " ++ operation
  | .commitCleanup commit cleanup => "commit " ++ commit.debug ++
      " succeeded but transaction cleanup failed: " ++ cleanup.display
  | .btree message => "btree error: " ++ message
  | .wal message => "wal error: " ++ message
  | .blob .fileIdExhausted => "blob error: blob file ID space exhausted"

def SplitError.message : SplitError → String
  | .tooFewKeys => "node has too few keys to split"
  | .corruption => "node data corruption"
  | .insertFailed => "failed to insert into new node"

def Error.ofInsertError : InsertError → Error
  | .pageFull => .pageFull
  | .entryTooLarge => .invalidArgument "entry is too large for a B-tree page"
  | .wrongNodeType => .btree "wrong node type for operation"
  | .invalidIndex index =>
    .invalidArgument ("B-tree entry index " ++ toString index ++ " is out of bounds")
  | .valueSizeMismatch expected actual => .invalidArgument
      ("B-tree replacement size mismatch: expected " ++ toString expected ++ ", got " ++
        toString actual)
  | .duplicateKey _ => .duplicateKey

def Error.ofBTreeError : BTreeError → Error
  | .duplicateKey => .duplicateKey
  | .insertFailed e => .ofInsertError e
  | .splitFailed e => .btree ("split failed: " ++ e.message)
  | .pageIdExhausted => .btree "logical page ID exhausted"
  | .missingPage page => .corruption ("B-tree page " ++ toString page ++ " is not loaded")
  | .corruption message => .corruption message

/-- `?` on a B-tree result. -/
def liftBTree {α : Type} : Except BTreeError α → Except Error α
  | .ok a => .ok a
  | .error e => .error (.ofBTreeError e)

/-! ## Commits and manifests -/

structure CommitRecord where
  commitId : CommitId
  generationId : GenerationId
  rootPageId : PageId
  mutationCount : Nat
  digest : Nat
deriving DecidableEq, Repr

structure Manifest where
  databaseId : Nat
  historyId : Nat
  generationId : GenerationId
  commitId : CommitId
  rootPageId : PageId
  pmtCheckpointId : Nat
  walOffset : Nat
  mutationCount : Nat
  digest : Nat
deriving DecidableEq, Repr

def Manifest.isNewerThan (m other : Manifest) : Bool :=
  m.generationId > other.generationId ||
    (m.generationId = other.generationId && m.commitId > other.commitId)

/-- The published manifests, oldest first. -/
structure ManifestHistory where
  manifests : List Manifest
deriving DecidableEq, Repr

namespace ManifestHistory

def new : ManifestHistory := ⟨[]⟩

def latest (h : ManifestHistory) : Option Manifest := h.manifests.getLast?

def findCommit (h : ManifestHistory) (commitId : CommitId) : Option Manifest :=
  h.manifests.reverse.find? (fun m => m.commitId = commitId)

def reset (manifest : Manifest) : ManifestHistory := ⟨[manifest]⟩

def push (h : ManifestHistory) (manifest : Manifest) : Except String ManifestHistory :=
  match h.latest with
  | none => .ok ⟨h.manifests ++ [manifest]⟩
  | some current =>
    if current = manifest then .ok h
    else if manifest.isNewerThan current then .ok ⟨h.manifests ++ [manifest]⟩
    else .error "manifest history is not monotonic"

def reconcileCurrent (h : ManifestHistory) (current : Manifest) : Except String ManifestHistory :=
  if current ∈ h.manifests then .ok ⟨h.manifests.take (h.manifests.idxOf current + 1)⟩
  else match h.latest with
    | none => h.push current
    | some latest =>
      if latest.databaseId = current.databaseId ∧ latest.historyId = current.historyId ∧
          current.isNewerThan latest then h.push current
      else if latest.databaseId = current.databaseId ∧ latest.historyId ≠ current.historyId then
        .ok (reset current)
      else .error "manifest history disagrees with authoritative manifest"

def pruneToGenerations (h : ManifestHistory) (retained : List GenerationId) : ManifestHistory :=
  ⟨h.manifests.filter (fun m => m.generationId ∈ retained)⟩

theorem push_latest {h h' : ManifestHistory} {m : Manifest} (hp : h.push m = .ok h') :
    h'.latest = some m := by
  rw [push] at hp
  split at hp
  · cases hp
    simp [latest]
  rename_i current hl
  split at hp
  · rename_i he
    cases hp
    rw [hl, he]
  · split at hp
    · cases hp
      simp [latest]
    · cases hp

/-- However the history disagrees with the authority, it ends with it. -/
theorem reconcileCurrent_latest {h h' : ManifestHistory} {m : Manifest}
    (hr : h.reconcileCurrent m = .ok h') : h'.latest = some m := by
  rw [reconcileCurrent] at hr
  split at hr
  · rename_i hmem
    cases hr
    have hlt := List.idxOf_lt_length_of_mem hmem
    rw [latest, ← List.take_append_getElem hlt]
    simp
  split at hr
  · exact push_latest hr
  split at hr
  · exact push_latest hr
  split at hr
  · cases hr
    simp [latest, reset]
  · cases hr

end ManifestHistory

end SeerDb
