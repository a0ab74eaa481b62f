/-
# `SeerDb.Db.Client` — a process that uses a database

The public calls on a handle, the read views the process keeps, and opening the
database again.  A read view owns its pages' table and its blob files and keeps its
lease for itself, so it may outlive the handle it was taken from; the next handle
knows nothing of it.  A crash takes handle and views away.

Snapshot handles and transactions that outlive their handle are left out: each is to be
released before the database is opened again.  Dropped later, it would work on the roots of
the old handle and, if its root is a named one, write their registry over the new one, while
`releaseRoot` works on the handle that is open.
-/
import SeerDb.Lib.Restart
import SeerDb.Db.Maintain
import SeerDb.Db.Open
import SeerDb.Db.Txn
import SeerDb.Db.View

namespace SeerDb

/-- The calls on an open handle, apart from those that make and drop a view. -/
inductive DbCall where
  | put (key value : Bytes)
  | delete (key : Bytes)
  | commitBatch (mutations : List Mutation)
  | commitBatchAt (expectedCommit : CommitId) (mutations : List Mutation)
  | admitBatch (expectedCommit : CommitId) (mutations : List Mutation)
  | publicationBarrier
  | flush
  | close
  | compact (limit : Option Nat)
  | gc
  | vacuum
  | vacuumStep (maxEntries : Nat)
  | cancelVacuum
  | pruneHistory
  | retainCommit (commitId : CommitId)
  | retainCurrentCommit
  | retainCurrent (copied : Bool)
  | releaseSnapshot (snapshotId : SnapshotId)
  | beginBatchTransaction
  | releaseRoot (snapshotId : SnapshotId)
deriving DecidableEq, Repr

def discard {α : Type} (p : DbM α) : DbM Unit := do
  let _ ← p

/-- A transaction is kept as the root it pins: its commit is `commitBatchAt` and its end
`releaseRoot`. -/
def DbCall.run : DbCall → DbM Unit
  | .put key value => DB.put key value
  | .delete key => discard (DB.delete key)
  | .commitBatch mutations => DB.commitBatch mutations
  | .commitBatchAt expectedCommit mutations => DB.commitBatchAt expectedCommit mutations
  | .admitBatch expectedCommit mutations => discard (DB.admitBatch expectedCommit mutations)
  | .publicationBarrier => discard DB.publicationBarrier
  | .flush => DB.flush
  | .close => DB.close
  | .compact limit => DB.compactWithLimit limit
  | .gc => discard DB.gc
  | .vacuum => DB.vacuum
  | .vacuumStep maxEntries => discard (DB.vacuumStep maxEntries)
  | .cancelVacuum => discard DB.cancelVacuum
  | .pruneHistory => DB.pruneHistory
  | .retainCommit commitId => discard (DB.retainCommit commitId)
  | .retainCurrentCommit => discard DB.retainCurrentCommit
  | .retainCurrent copied => discard (DB.retainCurrent copied)
  | .releaseSnapshot snapshotId => DB.releaseSnapshot snapshotId
  | .beginBatchTransaction => discard DB.beginBatchTransaction
  | .releaseRoot snapshotId => DB.releaseRoot snapshotId

/-- The handle, its open views, and the open views of earlier handles. -/
structure Client where
  db : DB
  views : List ReadView
  stale : List ReadView
deriving DecidableEq, Repr

inductive Command where
  | call (call : DbCall)
  | beginReadView
  | dropReadView (index : Nat)
  | dropStaleView (index : Nat)
  | reopen (options : Options)
deriving DecidableEq, Repr

namespace Client

open Lib.Prog (handle modifyHandle onError zoom)

abbrev ClientM (α : Type) := Lib.Prog Client Disk Error α

/-- A call on the handle. -/
def onDb {α : Type} (p : DbM α) : ClientM α := zoom Client.db (fun db c => { c with db := db }) p

theorem onDb_runs {α : Type} {p : DbM α} {C : Disk → Prop} {w : Lib.World Client Disk}
    {Q : α → Lib.World Client Disk → Prop} {E : Error → Lib.World Client Disk → Prop}
    (h : Lib.Runs C p ⟨w.handle.db, w.disk, w.trace⟩
      (fun a w' => Q a ⟨{ w.handle with db := w'.handle }, w'.disk, w'.trace⟩)
      (fun e w' => E e ⟨{ w.handle with db := w'.handle }, w'.disk, w'.trace⟩)) :
    Lib.Runs C (onDb p) w Q E := Lib.Runs.zoom h

/-- What stands for the handle before the first open and after one that failed. -/
def noHandle : DB := { DB.assemble Options.default ⟨none, .new⟩ ⟨[], 1, [], u64Max⟩
  (StorageEngine.new PMT.new PageAllocator.new)
  (.withThresholdAndMode 0 false) none with isOpen := false }

/-- Drop the handle; its views stay, its snapshot handles and transactions are gone. -/
def dropHandle (c : Client) : Client := ⟨noHandle, [], c.views ++ c.stale⟩

def run : Command → ClientM Unit
  | .call call => onDb call.run
  | .beginReadView => do
    let view ← onDb DB.beginReadView
    modifyHandle fun c => { c with views := view :: c.views }
  | .dropReadView index => do
    let c ← handle
    match c.views[index]? with
    | none => pure ()
    | some view => do
      modifyHandle fun c => { c with views := c.views.eraseIdx index }
      onDb (DB.dropReadView view)
  | .dropStaleView index => do
    let c ← handle
    match c.stale[index]? with
    | none => pure ()
    | some view => do
      modifyHandle fun c => { c with stale := c.stale.eraseIdx index }
      -- its root was one of the earlier handle, but the sidecar name is shared
      onDb (DB.dropSidecar view.snapshotId)
  | .reopen options => do
    modifyHandle dropHandle
    onError (onDb (DB.openDb options)) fun _ => modifyHandle fun c => { c with db := noHandle }

/-- A process that has opened nothing yet. -/
def start : Client := ⟨noHandle, [], []⟩

/-- The runs from an empty directory whose commands satisfy `allowed`. -/
def system (allowed : Command → Client → Disk → Prop) : Lib.System Client Disk Error Command where
  run := run
  crash := Disk.Crash
  start := start
  initial d := ∃ space, d = Disk.empty space
  allowed := allowed

/-- Runs of any commands. -/
def anyCommand : Command → Client → Disk → Prop := fun _ _ _ => True

theorem reached_any {allowed : Command → Client → Disk → Prop} {c : Client} {d : Disk}
    (h : (system allowed).Reached c d) : (system anyCommand).Reached c d := by
  induction h with
  | base hb => exact .base hb
  | call i _ _ ih => exact .call i ih trivial
  | crash i _ _ hd hc ih => exact .crash i ih trivial hd hc

end Client

/-! ## A process that stops in the middle of a put -/

open Lib

/-- A crash that only cuts the WAL. -/
theorem Disk.Crash.of_wal {d : Disk} {wal wal' : WalFile} (hwal : d.wal = some wal)
    (hcut : LogFile.Crash WalRecord.size wal wal')
    (hdata : d.data.all fun dev => pageSize ∣ dev.size ∧ dev.unsynced = [])
    (hlog : d.metaLog.all fun log => log.torn = 0 ∧ log.synced = log.records.length)
    (hdelta : d.blobDelta = none)
    (hsegments : d.segments = []) : Disk.Crash d { d with wal := some wal' } := by
  refine ⟨?_, ?_, ?_, rfl, rfl, ?_, ?_, rfl, rfl⟩
  · cases hd : d.data with
    | none => trivial
    | some dev =>
      rw [hd, Option.all_some, decide_eq_true_iff] at hdata
      exact ⟨le_rfl, hdata.1, hdata.2, fun _ _ h => h, fun _ _ _ => rfl⟩
  · rw [hwal]
    exact hcut
  · cases hl : d.metaLog with
    | none => trivial
    | some log =>
      rw [hl, Option.all_some, decide_eq_true_iff] at hlog
      obtain ⟨records, torn, synced⟩ := log
      obtain ⟨rfl, hsynced⟩ := hlog
      obtain rfl : synced = records.length := hsynced
      exact ⟨records.length, 0, le_rfl, le_rfl, Nat.zero_le _, by rw [List.take_length]⟩
  · rw [hdelta]
    trivial
  · rw [hsegments]
    exact .nil

namespace Client

/-- A batch that is acknowledged by the WAL alone, and a put behind it. -/
def batchThenPut : List Command :=
  [.reopen { Options.default with walFirstCommits := true }, .call (.commitBatch [.put [1] [7]]),
    .call (.put [2] [8])]

def afterBatch : Client × Disk := (system anyCommand).runAll batchThenPut start (Disk.empty [])

/-- The records of the two groups: the second is not closed. -/
def batchRecords : List WalRecord :=
  [.put [1] [7], .commit ⟨1, 1, 0, 1, 2792984985⟩, .put [2] [8]]

theorem afterBatch_wal : afterBatch.2.wal = some ⟨batchRecords, 0, 2⟩ := by decide +kernel

/-- What a crash leaves that cuts the second put behind its seventh byte. -/
def tornDisk : Disk := { afterBatch.2 with wal := some ⟨batchRecords.take 2, 7, 2⟩ }

theorem afterBatch_reached : (system anyCommand).Reached afterBatch.1 afterBatch.2 :=
  System.From.runAll (fun _ _ _ _ => trivial) (.base ⟨rfl, [], rfl⟩)

theorem tornDisk_crash : Disk.Crash afterBatch.2 tornDisk := by
  refine Disk.Crash.of_wal afterBatch_wal ?_ (by decide +kernel) (by decide +kernel)
    (by decide +kernel) (by decide +kernel)
  exact ⟨2, 7, le_rfl, by decide, by decide, rfl⟩

theorem tornDisk_reached : (system anyCommand).Reached start tornDisk :=
  .crash (.call .flush) afterBatch_reached trivial (.head _) tornDisk_crash

end Client

end SeerDb
