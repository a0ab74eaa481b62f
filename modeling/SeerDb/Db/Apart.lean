/-
# `SeerDb.Db.Apart` — calls that leave the pins alone

Writing, publishing, maintenance and pruning never change what is retained: the
registered roots and their counters, the leases, the registry file and the blob images
beside it, and with them the options and the identity of the handle.
-/
import SeerDb.Db.Guard
import SeerDb.Db.Still

namespace SeerDb

open Lib

structure Pins where
  retention : RetentionState
  leases : List PMT
  options : Options
  databaseId : Nat
  historyId : Nat

def DB.pins (db : DB) : Pins where
  retention := db.retention
  leases := db.leases
  options := db.options
  databaseId := db.databaseId
  historyId := db.historyId

def Disk.pins (d : Disk) : Option RetentionRegistry × List (SnapshotId × BlobImage) :=
  (d.registry, d.retained)

abbrev Apart {α : Type} (p : DbM α) : Prop := Keeps DB.pins Disk.pins p

namespace DB

theorem apart_checkCapacity (refusal : Error) : Apart (checkCapacity refusal) :=
  keeps_checkCapacity (fun _ _ => rfl) refusal

theorem apart_counting : Counting DB.pins Disk.pins :=
  ⟨⟨fun _ _ => rfl, fun _ _ => rfl⟩, fun _ _ => rfl, fun _ _ => rfl, fun _ _ _ _ => rfl⟩

theorem apart_paging : Paging DB.pins Disk.pins := ⟨fun _ _ => rfl, fun _ _ => rfl⟩

theorem apart_storing : Storing DB.pins Disk.pins :=
  ⟨⟨fun _ _ => rfl, fun _ => rfl, fun _ => rfl, fun _ _ => rfl, fun _ _ => rfl,
    fun _ _ => rfl, fun _ _ => rfl⟩, fun _ _ => rfl⟩

theorem apart_recording : Recording DB.pins Disk.pins := ⟨fun _ _ => rfl, fun _ _ => rfl⟩

theorem apart_writeOne (mutation : Mutation) (context : String) :
    Apart (writeOne mutation context) :=
  apart_counting.writeOne apart_paging.prepareMutation (apart_storing.applyLive apart_paging)
    (fun _ _ _ => rfl) _ _

theorem apart_admitBatch (expected : CommitId) (mutations : List Mutation) :
    Apart (admitBatch expected mutations) :=
  apart_counting.admitBatch apart_paging.prepareMutation (fun _ _ _ => rfl) (fun _ _ _ => rfl) _ _

theorem apart_finishGenerationPublication (commit : CommitRecord) :
    Apart (finishGenerationPublication commit) :=
  .bind apart_storing.finishSegmentedBlobPublicationCleanup fun _ =>
    .bind apart_paging.completeGeneration fun _ =>
    .bind apart_counting.reclaimWal fun _ => .modifyHandle fun _ => rfl

/-! ## Publications -/

theorem apart_publishGeneration (commit : CommitRecord) (appendCommit : Bool)
    (recoveredWalOffset : Nat) :
    Apart (publishGeneration commit appendCommit recoveredWalOffset) := by
  refine .bind .handle fun db => .bind apart_paging.refreshIfNeeded fun _ =>
    .bind (apart_counting.writeWalToDisk _) fun _ =>
    .bind (apart_checkCapacity _) fun _ => .bind (.modifyHandle fun _ => rfl) fun _ =>
    .bind (apart_paging.flushPages fun _ _ => rfl) fun _ => .bind .handle fun _ =>
      .bind (.runIf (apart_storing.writeBlobArtifacts _)) fun _ => ?_
  have hrest : ∀ walOffset, Apart (do
      appendEnvelopeFrame commit walOffset db.latestOrBootstrap
      finishGenerationPublication commit) := fun _ =>
    .bind (apart_recording.appendEnvelopeFrame _ _ _) fun _ => apart_finishGenerationPublication _
  exact .ite (.bind (apart_counting.appendCommitRecord _) hrest) (hrest _)

theorem apart_publishEnvelopeGroup : Apart publishEnvelopeGroup :=
  .bind .handle fun _ => .bind (apart_counting.writeWalToDisk _) fun _ =>
    .bind (apart_checkCapacity _) fun _ =>
    .bind apart_paging.refreshIfNeeded fun _ => .bind (.modifyHandle fun _ => rfl) fun _ =>
    .bind (apart_paging.flushPages fun _ _ => rfl) fun _ =>
      .bind (apart_storing.writeGroupBlobArtifacts _) fun _ => .bind .handle fun _ =>
    .bind (.modifyHandle fun _ => rfl) fun _ => .bind (apart_counting.appendCommitRecord _) fun _ =>
    .bind (apart_recording.appendEnvelopeFrame _ _ _) fun _ => apart_finishGenerationPublication _

theorem apart_acknowledgeGroup : Apart acknowledgeGroup :=
  .bind .handle fun _ => .bind (apart_storing.writeGroupBlobArtifacts _) fun _ =>
    .bind .handle fun _ =>
    .bind (.modifyHandle fun _ => rfl) fun _ => .bind (.modifyHandle fun _ => rfl) fun _ =>
    .bind (apart_counting.writeWalToDisk _) fun _ => .modifyHandle fun _ => rfl

theorem apart_fence : Apart fence := .modifyHandle fun _ => rfl

/-- The pins are those of `w`. -/
abbrev SamePins (w : World DB Disk) : World DB Disk → Prop := SameParts DB.pins Disk.pins w

theorem apart_guard (w : World DB Disk) :
    Guard (fun d => d.pins = w.disk.pins) (SamePins w) (SamePins w) fun _ _ => True := by
  have hrefused : ∀ {p : DbM Unit} {w'}, Apart p → SamePins w w' →
      Runs (fun d => d.pins = w.disk.pins) p w'
      (fun _ => SamePins w) (Refused (SamePins w) (SamePins w)) := fun hp h =>
    (hp.within w _ h).imp_error fun _ _ he => ⟨he, fun _ => he⟩
  refine ⟨⟨fun h => h, fun h => h, fun _ h => h, fun _ h => h,
    fun h => hrefused (apart_publishGeneration _ _ _) h,
    fun h => hrefused apart_publishEnvelopeGroup h, fun h _ => hrefused apart_acknowledgeGroup h⟩,
    fun _ h => ?_, fun _ h _ => ?_⟩
  · exact ((apart_counting.prepareBatch apart_paging.prepareMutation _).within w _ h).imp
      fun _ _ hq => ⟨hq, trivial⟩
  · exact (apart_counting.writeWalToDisk _).within w _ h

theorem apart_of_guard {α : Type} {p : DbM α} (h : ∀ w w', Guarded (SamePins w) (SamePins w) w' →
    Runs (fun d => d.pins = w.disk.pins) p w' (fun _ => SamePins w)
      (fun _ => Guarded (SamePins w) (SamePins w))) :
    Apart p := .of_within fun w w' hs =>
  (h w w' ((apart_guard w).guarded hs)).imp_error fun _ _ he => he.weak

theorem apart_flush : Apart flush := apart_of_guard fun w _ => (apart_guard w).flush

theorem apart_close : Apart close :=
  .bind .handle fun _ => .runIf <| .bind apart_flush fun _ => .bind .disk fun _ =>
    .bind (.runIf (.write fun _ => rfl)) fun _ => .modifyHandle fun _ => rfl

/-! ## Maintenance -/

theorem apart_publishMaintenanceFrame (m : Manifest) : Apart (publishMaintenanceFrame m) :=
  .bind (apart_recording.publishAuthorityFrame _) fun _ =>
    .bind apart_storing.finishSegmentedBlobPublicationCleanup fun _ =>
    .bind apart_paging.completeGeneration fun _ => .modifyHandle fun _ => rfl

theorem apart_publishBlobRewriteGeneration : Apart publishBlobRewriteGeneration := by
  refine .bind keeps_latestManifest fun current => .bind .handle fun db => .bind .disk fun d =>
    .bind (.modifyHandle fun _ => rfl) fun _ => .bind (.runIf (.write fun _ => rfl)) fun _ =>
    .bind (.runIf (.write fun _ => rfl)) fun _ => ?_
  have hrest : Apart (do
      publishMaintenanceFrame (db.maintenanceManifest current)
      Prog.runIf (!db.blobs.segmented && d.blob.isSome)
        (Prog.write fun d => { d with blobBackup := none })) :=
    .bind (apart_publishMaintenanceFrame _) fun _ => .runIf (.write fun _ => rfl)
  exact .ite (.bind apart_storing.writeBlobSegments fun _ => hrest)
    (.bind apart_storing.writeBlobImage fun _ => hrest)

theorem apart_publishCompactionGeneration : Apart publishCompactionGeneration :=
  .bind keeps_latestManifest fun _ => .bind .handle fun _ =>
    .bind (.runIf (.bind (.modifyHandle fun _ => rfl) fun _ => apart_storing.writeBlobSegments))
      fun _ =>
    apart_publishMaintenanceFrame _

theorem apart_maintaining (w : World DB Disk) :
    Maintaining DB.pins Disk.pins (fun d => d.pins = w.disk.pins) (SamePins w) :=
  ⟨fun _ _ => rfl, apart_paging, apart_storing, apart_recording, fun _ _ => rfl,
    fun hp => hp.within w, apart_flush.within w, apart_publishBlobRewriteGeneration.within w,
    apart_publishCompactionGeneration.within w, apart_fence.within w⟩

end DB

/-! ## The calls on a handle -/

/-- The calls that register or release a root. -/
def DbCall.retains : DbCall → Bool
  | .retainCommit _ => true
  | .retainCurrentCommit => true
  | .retainCurrent _ => true
  | .releaseSnapshot _ => true
  | .beginBatchTransaction => true
  | .releaseRoot _ => true
  | _ => false

theorem apart_discard {α : Type} {p : DbM α} (h : Apart p) :
    Apart (discard p) := .bind h fun _ => .pure _

theorem DbCall.apart (call : DbCall) (h : call.retains = false) : Apart call.run := by
  have hvacuum : ∀ entries, Apart (DB.advanceVacuum entries) := fun entries =>
    .of_within fun w => (DB.apart_maintaining w).advanceVacuum entries
  cases call with
  | put key value => exact .bind (DB.apart_writeOne _ _) fun _ => .pure _
  | delete key => exact apart_discard (.bind (DB.apart_writeOne _ _) fun _ => .pure _)
  | commitBatch mutations =>
    exact .bind .handle fun _ => DB.apart_of_guard fun w _ hw =>
      (DB.apart_guard w).commitBatchAt hw _ _
  | commitBatchAt expected mutations =>
    exact DB.apart_of_guard fun w _ hw => (DB.apart_guard w).commitBatchAt hw _ _
  | admitBatch expected mutations => exact apart_discard (DB.apart_admitBatch _ _)
  | publicationBarrier =>
    exact apart_discard (DB.apart_of_guard fun w _ => (DB.apart_guard w).publicationBarrier)
  | flush => exact DB.apart_flush
  | close => exact DB.apart_close
  | compact limit => exact .of_within fun w => (DB.apart_maintaining w).compactWithLimit _
  | gc => exact apart_discard (.of_within fun w => (DB.apart_maintaining w).gc)
  | vacuum => exact .bind DB.keeps_checkWritable fun _ => apart_discard (hvacuum _)
  | vacuumStep maxEntries =>
    exact apart_discard (.bind DB.keeps_checkWritable fun _ => .bind (.check _ _)
      fun _ => hvacuum _)
  | cancelVacuum =>
    exact apart_discard (.bind DB.keeps_checkWritable fun _ => .bind .handle fun _ =>
      .bind (.modifyHandle fun _ => rfl) fun _ => .pure _)
  | pruneHistory => exact .of_within fun w => (DB.apart_maintaining w).pruneHistory
  | retainCommit commitId => cases h
  | retainCurrentCommit => cases h
  | retainCurrent copied => cases h
  | releaseSnapshot snapshotId => cases h
  | beginBatchTransaction => cases h
  | releaseRoot snapshotId => cases h

end SeerDb
