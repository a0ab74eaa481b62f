/-
# `SeerDb.Db.CatalogReplay` — the catalog replays to the last publication

Sequences of appends, undone appends, deletions, sweeps and publications on a segmented
blob manager.  A publication writes what `db/segmented_blob_publication.rs` writes; with
`aside` it moves the catalog file out of the way first, as the rewrite of blob files
does, and a full catalog follows.

A file that is opened and gone again before the next publication stays on the frontier.
The next delta then removes a file that no catalog has named, and it does not replay.
-/
import SeerDb.Db.CatalogSpec
import Mathlib.Data.List.TakeWhile

namespace SeerDb

open Lib List

inductive BlobOp where
  | append (value : Bytes)
  | rollback (pointer : BlobPointer)
  | delete (pointer : BlobPointer)
  | gc
  /-- The generation is `step + 1` above the last one. -/
  | publish (aside : Bool) (step : Nat)
deriving DecidableEq, Repr

namespace BlobOp

open Prog (handle disk modifyHandle write runIf)

def setBlobs (blobs : BlobManager) : DbM Unit := modifyHandle fun db => { db with blobs := blobs }

def publishCatalog (aside : Bool) (generation : GenerationId) : DbM Unit := do
  let d ← disk
  runIf (aside && d.blob.isSome) (write fun d => { d with blob := none, blobBackup := d.blob })
  DB.writeBlobArtifacts generation
  DB.finishSegmentCatalogBackup

def run : BlobOp → DbM Unit
  | .append value => do
    let db ← handle
    match db.blobs.append value with
    | .error e => throw (.blob e)
    | .ok (_, blobs) => setBlobs blobs
  | .rollback pointer => modifyHandle fun db => { db with blobs := db.blobs.rollbackAppend pointer }
  | .delete pointer => do
    let db ← handle
    match db.blobs.markDeleted pointer with
    | none => pure ()
    | some blobs => setBlobs blobs
  | .gc => modifyHandle fun db => { db with blobs := db.blobs.gc.2 }
  | .publish aside step => do
    let db ← handle
    publishCatalog aside (db.blobs.generationId + step + 1)

/-- Runs of a new manager over a directory without blob files. -/
def system (db : DB) (threshold : Nat) : System DB Disk Error BlobOp where
  run := run
  crash _ _ := False
  start := { db with blobs := .withThresholdAndMode threshold true }
  initial d := d.blob = none ∧ d.blobBackup = none ∧ d.blobDelta = none ∧ d.segments = []
  allowed _ _ _ := True

/-- The manager as its last publication left it. -/
def lastPublication : Recorder DB Disk BlobOp (Option BlobManager) where
  blank := none
  note published op db d := match op with
    | .publish _ _ => match run op ⟨db, d, []⟩ with
      | .ok _ w => some w.handle.blobs
      | .error _ _ => published
    | _ => published
  cut published _ _ _ := published

/-- The length of a value keeps the 32 bits it is written with, only what no catalog names is
undone, and at a delta every file on the frontier is live or was published. -/
def Sound : Option BlobManager → BlobOp → DB → Disk → Prop
  | _, .append value, _, _ => value.length ≤ u32Max
  | _, .rollback pointer, db, _ => db.blobs.persistedSegmentLength pointer.fileId ≤ pointer.offset
  | _, .publish aside _, db, d =>
    aside = true ∨ db.segmentedCatalogConsolidationNeeded d = true ∨ NoLostFile db.blobs
  | _, _, _, _ => True

instance (published : Option BlobManager) (op : BlobOp) (db : DB) (d : Disk) :
    Decidable (Sound published op db d) :=
  match op with
  | .rollback _ => inferInstanceAs (Decidable (_ ≤ _))
  | .publish _ _ => inferInstanceAs (Decidable (_ ∨ _ ∨ _))
  | .append _ => inferInstanceAs (Decidable (_ ≤ _))
  | .delete _ => .isTrue trivial
  | .gc => .isTrue trivial

/-! ## Before the first publication -/

structure Fresh (db : DB) (d : Disk) : Prop where
  follows : Follows [] db.blobs
  blob : d.blob = none
  backup : d.blobBackup = none
  log : d.blobDelta = none
  segments : d.segments = []

/-! ## After it -/

/-- The catalog on disk and the manager that follows it. -/
structure Linked (b : BlobManager) (db : DB) (d : Disk) (anchor : SegmentCatalog)
    (deltas : List SegmentCatalogDelta) (needed : List BlobFile) : Prop where
  follows : Follows b.files db.blobs
  owes : Owes needed b.files db.blobs
  cataloged : Cataloged anchor [] deltas b.generationId needed b.files
  blob : d.blob = some (.catalog anchor)
  backup : d.blobBackup = none
  frames : (DB.deltaFile d).records = deltas
  synced : deltas.length ≤ (DB.deltaFile d).synced
  sorted : Sorted d.segments
  saved : SavesAll d.segments needed
  published : ∀ f ∈ b.files, f ∈ needed
  generation : db.blobs.catalog.persistedGenerationId = b.generationId
  ahead : b.generationId ≤ db.blobs.generationId
  persisted : db.blobs.catalog.catalogPersisted = true
  count : db.blobs.catalog.catalogDeltaCount = deltas.length

def Invariant : Option BlobManager → DB → Disk → Prop
  | none, db, d => Fresh db d
  | some b, db, d => ∃ anchor deltas needed, Linked b db d anchor deltas needed

/-! ## Operations on the manager -/

/-- What an operation makes of the manager; a publication is not one of these. -/
def moved : BlobOp → BlobManager → BlobManager
  | .append value, b => match b.append value with
    | .error _ => b
    | .ok (_, b') => b'
  | .rollback pointer, b => b.rollbackAppend pointer
  | .delete pointer, b => (b.markDeleted pointer).getD b
  | .gc, b => b.gc.2
  | .publish _ _, b => b

section

variable {op : BlobOp} {db : DB} {d : Disk} {b : BlobManager} {published needed : List BlobFile}
  {g : Option BlobManager}

/-- A publication is the only operation that writes. -/
theorem run_moved {C : Disk → Prop} {P : World DB Disk → Prop}
    (hop : ∀ aside step, op ≠ .publish aside step)
    (hP : P ⟨{ db with blobs := moved op db.blobs }, d, []⟩) :
    RunsTo C (run op) ⟨db, d, []⟩ P := by
  cases op with
  | append value =>
    refine .handle ?_
    rw [moved] at hP
    split
    · rename_i hv
      rw [hv] at hP
      exact .throw hP
    · rename_i hv
      rw [hv] at hP
      exact .of_modifyHandle hP
  | rollback pointer =>
    rw [run]
    refine .of_modifyHandle ?_
    exact hP
  | delete pointer =>
    refine .handle ?_
    rw [moved] at hP
    split
    · rename_i hv
      rw [hv] at hP
      exact .pure hP
    · rename_i hv
      rw [hv] at hP
      exact .of_modifyHandle hP
  | gc =>
    rw [run]
    refine .of_modifyHandle ?_
    exact hP
  | publish aside step => exact absurd rfl (hop aside step)

/-- All but an undone append move the files forward. -/
theorem moved_extends (hop : ∀ pointer, op ≠ .rollback pointer) (h : Follows published b) :
    b.Extends (moved op b) ∧ Follows published (moved op b) := by
  cases op with
  | append value =>
    rw [moved]
    split
    · exact ⟨.refl b, h⟩
    · rename_i hv
      exact ⟨BlobManager.append_extends hv, h.append hv⟩
  | rollback pointer => exact absurd rfl (hop pointer)
  | delete pointer =>
    rw [moved]
    cases hm : b.markDeleted pointer with
    | none => exact ⟨.refl b, h⟩
    | some b' => exact ⟨BlobManager.markDeleted_extends hm, h.markDeleted hm⟩
  | gc => exact ⟨b.gc_extends, h.gc⟩
  | publish aside step => exact ⟨.refl b, h⟩

theorem moved_follows (hs : Sound g op db d) (h : Follows published db.blobs) :
    Follows published (moved op db.blobs) := by
  by_cases hop : ∃ pointer, op = .rollback pointer
  · obtain ⟨pointer, rfl⟩ := hop
    exact h.rollback hs
  · exact (moved_extends (fun pointer hp => hop ⟨pointer, hp⟩) h).2

theorem moved_owes (h : Follows published b) (ho : Owes needed published b) :
    Owes needed published (moved op b) := by
  by_cases hop : ∃ pointer, op = .rollback pointer
  · obtain ⟨pointer, rfl⟩ := hop
    exact ho.rollback pointer
  · exact ho.extends (moved_extends (fun pointer hp => hop ⟨pointer, hp⟩) h).1

/-- The head of the frontier stays. -/
theorem moved_head (op : BlobOp) (h : Follows published b) :
    (moved op b).generationId = b.generationId ∧
    (moved op b).catalog = { b.catalog with
      persistedLengths := (moved op b).catalog.persistedLengths } := by
  by_cases hop : ∃ pointer, op = .rollback pointer
  · obtain ⟨pointer, rfl⟩ := hop
    rw [moved, BlobManager.rollbackAppend_eq]
    exact ⟨rfl, rfl⟩
  · have he : b.Extends (moved op b) := (moved_extends (fun pointer hp => hop ⟨pointer, hp⟩) h).1
    exact ⟨he.generationId, he.catalog⟩

theorem Fresh.moved (h : Fresh db d) (hs : Sound g op db d) :
    Fresh { db with blobs := moved op db.blobs } d :=
  { h with follows := moved_follows hs h.follows }

theorem Linked.moved {anchor : SegmentCatalog} {deltas : List SegmentCatalogDelta}
    (h : Linked b db d anchor deltas needed) (hs : Sound g op db d) :
    Linked b { db with blobs := BlobOp.moved op db.blobs } d anchor deltas needed := by
  obtain ⟨hgen, hcat⟩ := moved_head op h.follows
  refine { h with
    follows := moved_follows hs h.follows
    owes := moved_owes h.follows h.owes
    generation := ?_
    ahead := hgen ▸ h.ahead
    persisted := ?_
    count := ?_ }
  · rw [hcat]
    exact h.generation
  · rw [hcat]
    exact h.persisted
  · rw [hcat]
    exact h.count

end

/-! ## Publications -/

section

variable {w : World DB Disk} {published needed : List BlobFile} {b : BlobManager}
  {anchor : SegmentCatalog} {deltas : List SegmentCatalogDelta} {generation : GenerationId}

/-- What a publication owes. -/
def Publishes (w' : World DB Disk) : Prop :=
  ∃ anchor deltas needed, Linked w'.handle.blobs w'.handle w'.disk anchor deltas needed

/-- A full catalog, over files that `kept` saves. -/
theorem consolidate_runs {kept : List BlobFile}
    (h : DB.Backed kept published w.handle.blobs w.disk.segments)
    (hneeded : w.handle.segmentedCatalogConsolidationNeeded w.disk = true) :
    Runs (fun _ => True) (do DB.writeBlobArtifacts generation; DB.finishSegmentCatalogBackup) w
      (fun _ => Publishes) (fun _ _ => False) := by
  have hf := h.follows.setGeneration generation
  have hrun := DB.writeBlobSegments_consolidates
    (w := { w with handle := { w.handle with blobs := w.handle.blobs.setGeneration generation } })
    hneeded
    { h with follows := hf, owes := h.owes }
  refine .bind (.modifyHandle (.handle (.ite (fun _ => hrun) fun hseg => absurd hf.segmented hseg)))
    ?_
  intro _ w₁ ⟨hh, d, ⟨segments, hd, hsorted, hsaves⟩, hw₁⟩
  have hbackup : w₁.disk.blobBackup.isSome := by
    rw [hw₁, hd]
    exact DB.setAside_backup _ _
  refine DB.finishSegmentCatalogBackup_runs.imp fun _ w₂ ⟨hh₂, hd₂⟩ => ?_
  obtain ⟨db₂, d₂, trace⟩ := w₂
  obtain rfl : db₂ = _ := hh₂.trans hh
  rw [if_pos hbackup, hw₁, hd] at hd₂
  obtain rfl : d₂ = _ := hd₂
  refine ⟨(w.handle.blobs.setGeneration generation).toSegmentCatalog, [], w.handle.blobs.files, ?_⟩
  exact {
    follows := hf.captured 0
    owes := hf.owes
    cataloged := hf.wf.anchored nofun (Nat.zero_le _)
    blob := rfl
    backup := rfl
    frames := rfl
    synced := Nat.zero_le _
    sorted := hsorted
    saved := hsaves.subset fun f hf => mem_append_left _ hf
    published := fun _ hf => hf
    generation := rfl
    ahead := le_rfl
    persisted := rfl
    count := rfl }

theorem coveredFrames_eq (h : Linked b w.handle w.disk anchor deltas needed) :
    DB.coveredFrames w.handle w.disk = deltas := by
  rw [DB.coveredFrames, h.frames, h.generation]
  exact takeWhile_eq_self_iff.mpr fun frame hframe =>
    decide_eq_true (h.cataloged.chain.le.2 frame hframe).2

/-- A delta. -/
theorem delta_runs (h : Linked b w.handle w.disk anchor deltas needed)
    (hlost : NoLostFile w.handle.blobs)
    (hneeded : w.handle.segmentedCatalogConsolidationNeeded w.disk = false)
    (hgen : w.handle.blobs.generationId < generation) :
    Runs (fun _ => True) (do DB.writeBlobArtifacts generation; DB.finishSegmentCatalogBackup) w
      (fun _ => Publishes) (fun _ _ => False) := by
  have hf := h.follows.setGeneration generation
  have hcovered := coveredFrames_eq h
  have hrun := DB.writeBlobSegments_appends
    (w := { w with handle := { w.handle with blobs := w.handle.blobs.setGeneration generation } })
    hneeded
    ⟨hf, h.sorted, h.saved, h.owes, h.published⟩ hcovered h.synced
  refine .bind (.modifyHandle (.handle (.ite (fun _ => hrun) fun hseg => absurd hf.segmented hseg)))
    ?_
  intro _ w₁ ⟨hh, d, ⟨segments, hd, hsorted, hsaves⟩, hw₁⟩
  have hbackup : w₁.disk.blobBackup = none := by
    rw [hw₁, hd]
    exact h.backup
  refine DB.finishSegmentCatalogBackup_runs.imp fun _ w₂ ⟨hh₂, hd₂⟩ => ?_
  obtain ⟨db₂, d₂, trace⟩ := w₂
  obtain rfl : db₂ = _ := hh₂.trans hh
  rw [if_neg (by simp [hbackup]), hw₁, hd] at hd₂
  obtain rfl : d₂ = _ := hd₂
  refine ⟨anchor, deltas ++ [(w.handle.blobs.setGeneration generation).toSegmentCatalogDelta],
    w.handle.blobs.files ++ needed, ?_⟩
  have hcount : deltas.length < maxSegmentCatalogDeltas := by
    rw [DB.segmentedCatalogConsolidationNeeded, Bool.or_eq_false_iff,
      BlobManager.catalogNeedsConsolidation,
      h.persisted, Bool.true_and, decide_eq_false_iff_not, h.count, not_le] at hneeded
    exact hneeded.2
  exact {
    follows := hf.captured _
    owes := Owes.captured (b := w.handle.blobs.setGeneration generation) h.owes hf
    cataloged := Cataloged.extend (b := w.handle.blobs.setGeneration generation)
      (h.generation ▸ h.cataloged) hf hlost (h.generation ▸ h.ahead.trans_lt hgen) hcount
    blob := h.blob
    backup := h.backup
    frames := rfl
    synced := length_append.le
    sorted := hsorted
    saved := hsaves
    published := fun _ hf => mem_append_left _ hf
    generation := rfl
    ahead := le_rfl
    persisted := rfl
    count := by rw [length_append]; exact congrArg (· + 1) h.count }

theorem publish_runs_fresh (h : Fresh w.handle w.disk) (aside : Bool) :
    Runs (fun _ => True) (publishCatalog aside generation) w (fun _ => Publishes)
      (fun _ _ => False) := by
  refine .disk ?_
  rw [h.blob, Option.isSome_none, Bool.and_false]
  refine .bind (R := fun _ w' => w' = w) (.pure rfl) ?_
  rintro _ w' rfl
  exact consolidate_runs ⟨h.follows, h.segments ▸ List.Pairwise.nil, forall_mem_nil _,
    forall_mem_nil _, forall_mem_nil _⟩
    (by rw [DB.segmentedCatalogConsolidationNeeded, h.blob]; rfl)

theorem publish_runs_linked (h : Linked b w.handle w.disk anchor deltas needed) {aside : Bool}
    (hs : aside = true ∨ w.handle.segmentedCatalogConsolidationNeeded w.disk = true ∨
      NoLostFile w.handle.blobs)
    (hgen : w.handle.blobs.generationId < generation) :
    Runs (fun _ => True) (publishCatalog aside generation) w (fun _ => Publishes)
      (fun _ _ => False) := by
  refine .disk ?_
  rw [h.blob, Option.isSome_some, Bool.and_true]
  cases aside with
  | true =>
    -- without a catalog file the next catalog is a full one
    rw [Prog.runIf, if_pos rfl]
    refine .write trivial ?_
    exact consolidate_runs ⟨h.follows, h.sorted, h.saved, h.owes, h.published⟩ rfl
  | false =>
    refine .bind (R := fun _ w' => w' = w) (.pure rfl) ?_
    rintro _ w' rfl
    cases hneeded : w'.handle.segmentedCatalogConsolidationNeeded w'.disk with
    | true => exact consolidate_runs ⟨h.follows, h.sorted, h.saved, h.owes, h.published⟩ hneeded
    | false =>
      refine delta_runs h ?_ hneeded hgen
      rcases hs with hs | hs | hs
      · cases hs
      · rw [hneeded] at hs
        cases hs
      · exact hs

end

/-! ## Runs -/

section

variable {db₀ db : DB} {threshold : Nat} {d : Disk} {g : Option BlobManager} {op : BlobOp}

theorem publish_invariant (h : Invariant g db d) (aside : Bool) (step : Nat)
    (hs : Sound g (.publish aside step) db d) :
    Runs (fun _ => True) (run (.publish aside step)) ⟨db, d, []⟩ (fun _ => Publishes)
      (fun _ _ => False) := by
  cases g with
  | none => exact publish_runs_fresh (w := ⟨db, d, []⟩) h aside
  | some b =>
    obtain ⟨anchor, deltas, needed, hlinked⟩ := h
    exact publish_runs_linked (w := ⟨db, d, []⟩) hlinked hs
      (Nat.lt_succ_of_le (Nat.le_add_right _ _))

theorem invariant (h : (system db₀ threshold).Recorded lastPublication Sound g db d) :
    Invariant g db d := by
  refine System.Recorded.invariant (D := fun _ _ => True) ?_ ?_ (fun _ _ _ _ _ _ => trivial)
    (fun _ _ _ _ (hf : False) => hf.elim) h
  · intro d ⟨hblob, hbackup, hlog, hsegments⟩
    exact ⟨.initial threshold, hblob, hbackup, hlog, hsegments⟩
  · intro g op db d hs hinv
    by_cases hop : ∃ aside step, op = .publish aside step
    · obtain ⟨aside, step, rfl⟩ := hop
      refine (publish_invariant hinv aside step hs).result.conseq (fun _ w' ⟨hrun, hpub⟩ => ?_)
        fun _ _ he => he.2.elim
      have hnote : lastPublication.note g (.publish aside step) db d = some w'.handle.blobs := by
        simp only [lastPublication]
        rw [hrun]
      rw [hnote]
      exact hpub
    refine run_moved (fun aside step heq => hop ⟨aside, step, heq⟩) ?_
    have hnote : lastPublication.note g op db d = g := by
      cases op with
      | publish aside step => exact absurd ⟨aside, step, rfl⟩ hop
      | _ => rfl
    rw [hnote]
    cases g with
    | none => exact hinv.moved hs
    | some b =>
      obtain ⟨anchor, deltas, needed, hlinked⟩ := hinv
      exact ⟨anchor, deltas, needed, hlinked.moved hs⟩

/-- **The catalog replays to the files of the last publication.** -/
theorem catalog_replays {b : BlobManager}
    (h : (system db₀ threshold).Recorded lastPublication Sound (some b) db d) :
    ∃ artifact r, d.blob = some artifact ∧ d.parseBlob artifact (some b.generationId) = some r ∧
      r.files = b.files := by
  obtain ⟨anchor, deltas, needed, hlinked⟩ := invariant h
  obtain ⟨r, hr, hloads⟩ := hlinked.cataloged.replays [] nofun hlinked.saved.stores
  refine ⟨.catalog anchor, r, hlinked.blob, ?_, hloads.mirrors.files_eq hlinked.follows.sorted⟩
  rw [nil_append, append_nil, ← hlinked.frames, ← Disk.deltaFrames_eq] at hr
  exact hr

/-- A value is appended, published and marked, and another one is undone. -/
def publishTwice : List BlobOp :=
  [.append [1], .publish false 0, .append [2], .rollback ⟨1, 17, 1⟩,
    .delete ⟨1, 0, 1⟩, .publish false 0]

theorem catalog_replays_publishTwice :
    ∃ b db d, (system Client.noHandle 0).Recorded lastPublication Sound (some b) db d ∧
    b.files = [⟨1, [⟨[1]⟩], [0]⟩] ∧ ∃ artifact r, d.blob = some artifact ∧
      d.parseBlob artifact (some b.generationId) = some r ∧ r.files = b.files := by
  let s := (system Client.noHandle 0).recordAll lastPublication publishTwice none
    (system Client.noHandle 0).start (Disk.empty [])
  have hsome : (s.1.map BlobManager.files) = some [⟨1, [⟨[1]⟩], [0]⟩] := by decide +kernel
  obtain ⟨b, hb, hfiles⟩ := Option.map_eq_some_iff.mp hsome
  have hrun : (system Client.noHandle 0).Recorded lastPublication Sound s.1 s.2.1 s.2.2 :=
    .recordAll publishTwice (.initial ⟨rfl, rfl, rfl, rfl⟩)
      ⟨by decide +kernel, by decide +kernel, by decide +kernel, by decide +kernel, trivial,
        by decide +kernel, trivial⟩
  rw [hb] at hrun
  exact ⟨b, _, _, hrun, hfiles, catalog_replays hrun⟩

/-- The file of an undone append stays on the frontier. -/
def undoFirst : List BlobOp :=
  [.publish false 0, .append [1], .rollback ⟨1, 0, 1⟩, .publish false 0]

/-- **A file that no catalog named cannot be removed.** -/
theorem catalog_lost_file : ∃ b db d,
    (system Client.noHandle 0).Recorded lastPublication (fun _ _ _ _ => True) (some b) db d ∧
      ∃ artifact, d.blob = some artifact ∧ d.parseBlob artifact (some b.generationId) = none := by
  let s := (system Client.noHandle 0).recordAll lastPublication undoFirst none
    (system Client.noHandle 0).start (Disk.empty [])
  have hfound : ((s.1.bind fun b => s.2.2.blob.map fun artifact =>
      s.2.2.parseBlob artifact (some b.generationId)) = some none) := by decide +kernel
  obtain ⟨b, hb, hparse⟩ := Option.bind_eq_some_iff.mp hfound
  obtain ⟨artifact, hblob, hnone⟩ := Option.map_eq_some_iff.mp hparse
  have hrun : (system Client.noHandle 0).Recorded lastPublication
    (fun _ _ _ _ => True) s.1 s.2.1 s.2.2 :=
    .recordAll undoFirst (.initial ⟨rfl, rfl, rfl, rfl⟩)
      (System.allowedAll_of_forall (fun _ _ _ _ => trivial) _ _ _ _)
  rw [hb] at hrun
  exact ⟨b, _, _, hrun, artifact, hblob, hnone⟩

end

end BlobOp

end SeerDb
