/-
# `SeerDb.Db.Still` — calls that leave the slots, the frames and the pins alone

Most of what the database functions do concerns the WAL, the blob artifacts and the
counters of the pending group.  `DB.core` is the rest of the handle: the table, the
free lists, the manifest history, the pins and the two flags that admit a call;
`Disk.core` is the data file and the metadata log.  A program is `Still` if it never
changes either.
-/
import SeerDb.Db.Keep
import SeerDb.Storage.Slots

namespace SeerDb

open Lib

structure Core where
  pmt : PMT
  nextOffset : Nat
  freeOffsets : List Nat
  pendingReclaimedOffsets : List Nat
  rebuildReservedOffsets : List Nat
  manifestHistory : ManifestHistory
  nextGenerationId : GenerationId
  retention : RetentionState
  leases : List PMT
  isOpen : Bool
  writeFenced : Bool

def DB.core (db : DB) : Core where
  pmt := db.engine.pmt
  nextOffset := db.engine.nextOffset
  freeOffsets := db.engine.freeOffsets
  pendingReclaimedOffsets := db.engine.pendingReclaimedOffsets
  rebuildReservedOffsets := db.engine.rebuildReservedOffsets
  manifestHistory := db.manifestHistory
  nextGenerationId := db.nextGenerationId
  retention := db.retention
  leases := db.leases
  isOpen := db.isOpen
  writeFenced := db.writeFenced

def Disk.core (d : Disk) : Option Device × Option MetaLog := (d.data, d.metaLog)

/-- The core is the same in both worlds. -/
abbrev SameCore (w w' : World DB Disk) : Prop := SameParts DB.core Disk.core w w'

abbrev Still {α : Type} (p : DbM α) : Prop := Keeps DB.core Disk.core p

namespace DB

/-! ## Checks -/

/-- A capacity check uses up one answer of the file system. -/
theorem checkCapacity_runs {C : Disk → Prop} (refusal : Error) (w : World DB Disk) :
    Runs C (checkCapacity refusal) w (fun _ w' => w'.handle = w.handle ∧ SameCore w w')
      (fun e w' => e = refusal ∧ w'.handle = w.handle ∧ SameCore w w') := by
  rw [Runs, checkCapacity]
  cases w.disk.space with
  | nil => exact ⟨⟨rfl, rfl, rfl⟩, Passed.refl _ w⟩
  | cons answer rest =>
    cases answer with
    | false => exact ⟨⟨rfl, rfl, rfl, rfl⟩, [], rfl, by simp⟩
    | true => exact ⟨⟨rfl, rfl, rfl⟩, [], rfl, by simp⟩

theorem still_checkCapacity (refusal : Error) : Still (checkCapacity refusal) :=
  keeps_checkCapacity (fun _ _ => rfl) refusal

/-! ## Corners outside the core -/

theorem still_counting : Counting DB.core Disk.core :=
  ⟨⟨fun _ _ => rfl, fun _ _ => rfl⟩, fun _ _ => rfl, fun _ _ => rfl, fun _ _ _ _ => rfl⟩

theorem still_filing : Filing DB.core Disk.core :=
  ⟨fun _ _ => rfl, fun _ => rfl, fun _ => rfl, fun _ _ => rfl, fun _ _ => rfl,
    fun _ _ => rfl, fun _ _ => rfl⟩

/-! ## Mutations -/

/-- Loading pages for a mutation. -/
theorem still_prepareMutation (key : Bytes) : Still (DB.prepareMutation key) := by
  intro w
  refine .handle (.disk (.lift (fun e _ => ⟨rfl, rfl⟩) fun engine h => ?_))
  obtain ⟨t, rfl⟩ := StorageEngine.prepareMutation_rest h
  exact .of_modifyHandle ⟨rfl, rfl⟩

theorem still_materialize : Still materialize := by
  intro w
  refine .handle (.disk (.lift (fun e _ => ⟨rfl, rfl⟩) fun engine h => ?_))
  obtain ⟨t, root, rfl⟩ := StorageEngine.ensureMaterialized_rest h
  exact .of_modifyHandle ⟨rfl, rfl⟩

theorem still_writeOne (mutation : Mutation) (context : String) :
    Still (writeOne mutation context) :=
  still_counting.writeOne still_prepareMutation
    (fun _ => .bind .handle fun _ => .bind (.modifyHandle fun _ => rfl) fun _ => .lift _)
    (fun _ _ _ => rfl) _ _

theorem still_admitBatch (expected : CommitId) (mutations : List Mutation) :
    Still (admitBatch expected mutations) :=
  still_counting.admitBatch still_prepareMutation (fun _ _ _ => rfl) (fun _ _ _ => rfl) _ _

/-! ## Sidecars and the pending vacuum -/

theorem still_dropSidecar (snapshotId : SnapshotId) :
    Still (dropSidecar snapshotId) := .write fun _ => rfl

theorem still_restoreVacuum (state : VacuumState) : Still (restoreVacuum state) :=
  .modifyHandle fun _ => rfl

end DB

end SeerDb
