/-
# `SeerDb.Db.Guard` — what fenced calls keep

A call that publishes succeeds, or is refused before it wrote anything that counts, or
fences the handle.  An invariant of the handle is therefore two: `S`, which holds
while the handle is open and not fenced, and `W`, which a failed publication leaves.
`Guard` collects what the publications and the staging of a batch owe to such a pair.
-/
import SeerDb.Db.Keep

namespace SeerDb

open Lib

variable {D : Disk → Prop} {S W : World DB Disk → Prop}
  {P : DB.PreparedBatch → World DB Disk → Prop} {w : World DB Disk}

/-- What a handle keeps between two calls. -/
structure Guarded (S W : World DB Disk → Prop) (w : World DB Disk) : Prop where
  weak : W w
  strong : w.handle.isOpen = true → w.handle.writeFenced = false → S w

/-- What a failed publication leaves: a refused capacity check can be retried. -/
structure Refused (S W : World DB Disk → Prop) (e : Error) (w : World DB Disk) : Prop where
  weak : W w
  retry : e = .capacityPreflight → S w

/-- What a failed call leaves before it is fenced; the call may have flushed, and that
may have fenced already. -/
structure Halting (S W : World DB Disk → Prop) (e : Error) (w : World DB Disk) : Prop where
  weak : W w
  retry : e = .capacityPreflight → Guarded S W w

theorem Guarded.admitted (h : Guarded S W w) :
    Runs D DB.checkWritable w (fun _ => S) (fun _ => Guarded S W) := by
  refine (DB.checkWritable_runs w).conseq (fun _ w' hw' => ?_) fun _ w' hw' => ?_
  · rw [hw'.1]
    exact h.strong hw'.2.1 hw'.2.2
  · rw [hw']
    exact h

/-- What publications owe. -/
structure Fencing (D : Disk → Prop) (S W : World DB Disk → Prop) : Prop where
  weaken : ∀ {w}, S w → W w
  fence : ∀ {w}, W w → W { w with handle := { w.handle with writeFenced := true } }
  stage : ∀ {w} envelopes, S w → S { w with
    handle := { w.handle with pendingEnvelopes := envelopes } }
  restage : ∀ {w} envelopes, W w →
    W { w with handle := { w.handle with pendingEnvelopes := envelopes } }
  publishGeneration : ∀ {w}, S w →
    Runs D (DB.publishGeneration w.handle.nextCommit true 0) w (fun _ => S) (Refused S W)
  publishEnvelopeGroup : ∀ {w}, S w → Runs D DB.publishEnvelopeGroup w (fun _ => S) (Refused S W)
  acknowledgeGroup : ∀ {w}, S w → w.handle.options.walFirstCommits = true →
    Runs D DB.acknowledgeGroup w (fun _ => S) (Refused S W)

/-- What the staging of a batch owes besides; `P` relates a prepared batch to the handle it was
prepared for. -/
structure Guard (D : Disk → Prop) (S W : World DB Disk → Prop)
    (P : DB.PreparedBatch → World DB Disk → Prop) :
    Prop extends Fencing D S W where
  prepareBatch : ∀ {w} mutations, S w → Runs D (DB.prepareBatch mutations) w
    (fun prepared w' => S w' ∧ P prepared w') (fun _ => S)
  /-- Buffering, writing and installing a prepared batch. -/
  install : ∀ {w prepared} sync, S w → P prepared w → Runs D (DB.writeWalToDisk sync)
    { w with handle := { w.handle with walBuffer := w.handle.walBuffer ++ prepared.records } }
    (fun _ w' => S { w' with handle := w'.handle.withBatch prepared false }) (fun _ => S)

namespace Fencing

open DB

variable (G : Fencing D S W)

include G

theorem guarded (h : S w) : Guarded S W w := ⟨G.weaken h, fun _ _ => h⟩

theorem refused_halting {e : Error} (h : Refused S W e w) : Halting S W e w :=
  ⟨h.weak, fun he => G.guarded (h.retry he)⟩

theorem fenced (h : W w) : Guarded S W { w with handle := { w.handle with writeFenced := true } } :=
  ⟨G.fence h, fun _ hf => by cases hf⟩

theorem idle (h : S w) : Runs D checkMaintenanceIdle w (fun _ => S) (fun _ => Guarded S W) := by
  refine (checkMaintenanceIdle_runs w).conseq (fun _ w' hw' => ?_) fun _ w' hw' => ?_
  · rw [hw']
    exact h
  · rw [hw']
    exact G.guarded h

section

variable {α : Type} {p : DbM α} {Q : α → World DB Disk → Prop}

theorem unlessPreflight {e : Error} (h : Halting S W e w) {E : Error → World DB Disk → Prop} :
    Runs D (fenceUnlessPreflight e) w (fun _ => Guarded S W) E := by
  refine .runIf (fun _ => .of_modifyHandle (G.fenced h.weak)) fun he => h.retry ?_
  simpa using he

/-- A call under the usual guard. -/
theorem onError (h : Runs D p w Q (Halting S W)) :
    Runs D (Prog.onError p fenceUnlessPreflight) w Q (fun _ => Guarded S W) :=
  .onError h fun _ _ he => G.unlessPreflight he

theorem alwaysFenced (h : Runs D p w Q (fun _ => W)) :
    Runs D (Prog.onError p fun _ => DB.fence) w Q (fun _ => Guarded S W) :=
  .onError h fun _ _ he => .of_modifyHandle (G.fenced he)

theorem publication (h : Runs D p w Q (Refused S W)) :
    Runs D (Prog.onError p fenceUnlessPreflight) w Q (fun _ => Guarded S W) :=
  G.onError (h.imp_error fun _ _ he => G.refused_halting he)

end

/-! ## The calls -/

theorem publishEnvelopeGroupWalFirst (h : S w) (hmode : w.handle.options.walFirstCommits = true) :
    Runs D DB.publishEnvelopeGroupWalFirst w (fun _ => S) (Refused S W) :=
  .handle (.disk (.ite (fun _ => G.publishEnvelopeGroup h) fun _ => G.acknowledgeGroup h hmode))

theorem flushGeneration (h : S w) : Runs D DB.flushGeneration w (fun _ => S)
    (fun _ => Guarded S W) := by
  refine .handle (.ite (fun _ => ?_) fun _ => ?_)
  · exact .runIf (fun _ => G.publication (G.publishEnvelopeGroup h)) fun _ => h
  · exact G.publication (G.publishGeneration h)

theorem checkedFlush (h : Guarded S W w) : Runs D (do
    checkWritable
    checkMaintenanceIdle
    DB.flushGeneration) w (fun _ => S) (fun _ => Guarded S W) :=
  .bind h.admitted fun _ _ h₁ => .bind (G.idle h₁) fun _ _ h₂ => G.flushGeneration h₂

theorem publicationBarrier (h : Guarded S W w) :
    Runs D DB.publicationBarrier w (fun _ => S) (fun _ => Guarded S W) := by
  refine .bind h.admitted fun _ w₁ h₁ => .handle (.ite (fun _ => ?_) fun _ => ?_)
  · exact .pure h₁
  refine .modifyHandle (.bind (R := fun _ => S) ?_ fun _ w₃ h₃ => .handle ?_)
  · refine .onError (R := Refused S W) (.ite (fun hmode => ?_) fun _ => ?_) fun e w' hw' => ?_
    · exact G.publishEnvelopeGroupWalFirst (G.stage [] h₁) hmode
    · exact G.publishEnvelopeGroup (G.stage [] h₁)
    · -- the envelopes are staged again before the fence
      refine .modifyHandle (G.unlessPreflight ⟨G.restage _ hw'.weak, fun he => ?_⟩)
      exact G.guarded (G.stage _ (hw'.retry he))
  · exact .bind (.runIf (fun _ => G.checkedFlush (G.guarded h₃)) fun _ => h₃) fun _ _ h₄ => .pure h₄

theorem flush (h : Guarded S W w) : Runs D DB.flush w (fun _ => S) (fun _ => Guarded S W) := by
  refine .bind h.admitted fun _ w₁ h₁ => .bind (G.idle h₁) fun _ w₂ h₂ => .handle ?_
  refine .ite (fun _ => G.flushGeneration h₂) fun _ => ?_
  exact .bind (G.publicationBarrier (G.guarded h₂)) fun _ _ h₃ => .pure h₃

end Fencing

namespace Guard

open DB

variable (G : Guard D S W P)

include G

theorem installBatch {prepared : PreparedBatch} (h : S w) (hp : P prepared w) :
    Runs D (DB.installBatch prepared) w (fun _ => S) (fun _ => Guarded S W) := by
  have hmode : Logging DB.options (fun _ : Disk => ()) := ⟨fun _ _ => rfl, fun _ _ => rfl⟩
  refine .modifyHandle (.handle ?_)
  refine .bind (((G.install _ h hp).and (hmode.writeWalToDisk _ _)).mono (fun _ hd => hd.1)
    (fun _ _ hq => hq) fun _ _ he => G.guarded he.1) fun _ w₂ hw₂ => .modifyHandle ?_
  obtain ⟨h₂, hopt, -⟩ := hw₂
  refine .ite (fun hfirst => ?_) fun _ => G.flush (G.guarded h₂)
  have hfirst₂ : w₂.handle.options.walFirstCommits = true := by
    rw [hopt]
    exact hfirst
  refine .bind (G.alwaysFenced ((G.publishEnvelopeGroupWalFirst h₂ hfirst₂).imp_error fun _ _ he =>
    he.weak)) fun _ w₃ h₃ => .handle ?_
  exact .runIf (fun _ => G.flush (G.guarded h₃)) fun _ => h₃

theorem commitBatchAt (h : Guarded S W w) (expected : CommitId) (mutations : List Mutation) :
    Runs D (DB.commitBatchAt expected mutations) w (fun _ => S) (fun _ => Guarded S W) := by
  refine .bind h.admitted fun _ w₁ h₁ => .bind (G.idle h₁) fun _ w₂ h₂ => ?_
  refine .bind ((checkExpectedCommit_runs expected w₂).imp_error fun _ _ he =>
    G.guarded (he ▸ h₂)) fun _ w₃ hw₃ => ?_
  rw [hw₃]
  refine .runIf (fun _ => .handle (.check (fun _ => G.guarded h₂) fun _ => ?_)) fun _ => h₂
  exact .bind ((G.prepareBatch mutations h₂).imp_error fun _ _ he => G.guarded he)
    fun prepared w₄ h₄ => G.installBatch h₄.1 h₄.2

end Guard

/-! ## Maintenance -/

/-- What maintenance owes to an invariant `I`.  The parts `f` and `g` decide it, and they see
nothing of what maintenance does besides flushing, publishing and fencing. -/
structure Maintaining {γ κ : Type} (f : DB → γ) (g : Disk → κ) (D : Disk → Prop)
    (I : World DB Disk → Prop) :
    Prop where
  space : ∀ d space, g { d with space := space } = g d
  paging : Paging f g
  storing : Storing f g
  recording : Recording f g
  vacuum : ∀ db vacuum, f { db with vacuumState := vacuum } = f db
  keeps : ∀ {α : Type} {p : DbM α}, Keeps f g p → Preserves D I p
  flush : Preserves D I DB.flush
  rewrite : Preserves D I DB.publishBlobRewriteGeneration
  compaction : Preserves D I DB.publishCompactionGeneration
  fence : Preserves D I DB.fence

namespace Maintaining

open DB

variable {γ κ : Type} {f : DB → γ} {g : Disk → κ} {I : World DB Disk → Prop}
  (M : Maintaining f g D I)

include M

theorem writable : Preserves D I checkWritable := M.keeps keeps_checkWritable

theorem idle : Preserves D I checkMaintenanceIdle := M.keeps keeps_checkMaintenanceIdle

theorem capacity (refusal : Error) : Preserves D I (checkCapacity refusal) :=
  M.keeps (keeps_checkCapacity M.space refusal)

theorem fenceUnlessPreflight (e : Error) :
    Preserves D I (DB.fenceUnlessPreflight e) := .runIf M.fence

theorem setVacuum (u : DB → Option VacuumState) :
    Preserves D I (Prog.modifyHandle fun db => { db with vacuumState := u db } : DbM Unit) :=
  M.keeps (.modifyHandle fun _ => M.vacuum _ _)

theorem swap (u : DB → StorageEngine) (blobs : BlobManager) :
    Preserves D I (Prog.modifyHandle fun db => { db with engine := u db, blobs := blobs } :
      DbM Unit) :=
  M.keeps (.modifyHandle fun db => (M.storing.blobs { db with engine := u db } blobs).trans
    (M.paging.engine db _))

theorem flushEngine : Preserves D I flushEngine :=
  M.keeps (.bind M.paging.refreshIfNeeded fun _ => M.paging.flushPages M.space)

theorem compactWithLimit (limit : Option Nat) : Preserves D I (DB.compactWithLimit limit) :=
  .bind M.writable fun _ => .bind M.idle fun _ => .onError
    (.bind M.flush fun _ => .bind .disk fun _ =>
      .bind (M.keeps (.modifyHandle fun _ => M.paging.engine _ _)) fun _ =>
      .bind .handle fun _ =>
        .bind (.runIf (.bind (.runIf (.bind (.check _ _) fun _ => .runIf (M.capacity _))) fun _ =>
        .bind (M.keeps (M.paging.relocateInteriorPages _)) fun _ => .runIf M.compaction)) fun _ =>
      M.keeps M.paging.truncateReclaimableTail) M.fenceUnlessPreflight

theorem sweepBlobs {onFailure : Error → DbM Unit} (h : ∀ e, Preserves D I (onFailure e)) :
    Preserves D I (DB.sweepBlobs onFailure) :=
  .bind .handle fun _ => .bind (.runIf (M.keeps (keeps_admitBlobImage M.space))) fun _ =>
    .bind (M.keeps (.modifyHandle fun _ => M.storing.blobs _ _)) fun _ =>
    .bind (.runIf (.onError (.ite M.rewrite (M.keeps M.storing.writeBlobImage)) h)) fun _ => .pure _

theorem rewriteMixedBlobFiles : Preserves D I DB.rewriteMixedBlobFiles := by
  refine .bind (M.keeps M.paging.materialize) fun _ => .bind .handle fun _ =>
    .bind (.lift _) fun candidate =>
    .ite (.pure _) <| .bind (M.capacity _) fun _ => .bind (M.capacity _) fun _ =>
      .bind (M.capacity _) fun _ =>
    .bind (.runIf (M.capacity _)) fun _ => ?_
  exact .bind (M.swap (fun db => { db.engine with btree := candidate.btree }) _) fun _ =>
    .bind M.flushEngine fun _ =>
    .bind M.rewrite fun _ => M.sweepBlobs fun _ => .pure _

theorem gc : Preserves D I DB.gc :=
  .bind M.writable fun _ => .bind M.idle fun _ => .bind M.flush fun _ => .bind .handle fun _ =>
    .ite (.pure _) <| .bind (M.sweepBlobs fun _ => M.fence) fun _ => .bind .handle fun _ => .ite
      (.bind (.onError M.rewriteMixedBlobFiles M.fenceUnlessPreflight) fun _ => .pure _) (.pure _)

theorem startVacuum : Preserves D I DB.startVacuum := by
  refine .bind M.flush fun _ => .bind (M.keeps M.paging.materialize) fun _ =>
    .bind .handle fun db => ?_
  cases db.engine.btree.rangeCursor [] scanEnd with
  | error e => exact .throw _
  | ok cursor => exact M.setVacuum _

theorem advanceVacuum (entries : BTree → Nat) : Preserves D I (DB.advanceVacuum entries) := by
  refine .bind .handle fun _ => .bind (.runIf M.startVacuum) fun _ => .bind .handle fun db => ?_
  cases db.vacuumState with
  | none => exact .throw _
  | some state =>
    refine .bind (M.setVacuum _) fun _ => .bind (.check _ _) fun _ =>
      .bind (.lift _) fun found => .ite ?_ (.bind (M.setVacuum _) fun _ => .pure _)
    refine .bind (M.keeps (keeps_preflightVacuum M.space M.vacuum _)) fun _ =>
      .bind (.onError ?_ fun _ => M.fence) fun _ => .pure _
    exact .bind .handle fun _ => .bind .disk fun _ => .bind (.lift _) fun engine =>
      .bind (M.swap (fun _ => engine) _) fun _ => .bind M.flushEngine fun _ => M.rewrite

theorem pruneHistory : Preserves D I DB.pruneHistory :=
  .bind M.writable fun _ => .bind M.flush fun _ => .bind .handle fun _ => .bind .disk fun _ =>
    .bind (.check _ _) fun _ => .bind (.lift _) fun _ =>
      .bind (M.keeps (.modifyHandle fun _ => M.recording.history _ _))
    fun _ => M.keeps (M.recording.compactMetadataLog _)

end Maintaining

end SeerDb
