/-
# `SeerDb.Db.MaintainSpec` — compaction, blob reclamation, vacuum, pruning

A maintenance call moves pages, rewrites them or cuts the file, and publishes a
frame that repeats the newest commit.  It obeys the same rule as a flush: what it
writes goes to slots that neither the newest frame nor a pin uses.  Vacuum and the
rewrite of blob files call the flush of the engine without setting its stamp, so
they are the calls for which no stamp is promised.
-/
import SeerDb.Db.FlushSpec

namespace SeerDb

open Lib List

variable {ctx : Ctx} {old : PMT} {g n : GenerationId} {parent m : Manifest} {w w' : World DB Disk}

/-- Without a flush the frame of the next generation is due at once. -/
theorem Sound.due (h : Sound ctx w) :
    Due ctx w.handle.engine.pmt w.handle.nextGenerationId w.handle.nextGenerationId
      w.handle.latestOrBootstrap w :=
  ⟨⟨h.toResting, h.next⟩, h.poised.parent_eq, h.poised.parentOf, rfl⟩

namespace DB

/-! ## The generation of a rewrite -/

variable {E : Error → World DB Disk → Prop}

theorem latestManifest_runs {C : Disk → Prop} (h : w.handle.manifestHistory.latest = some parent) :
    Runs C latestManifest w (fun current w' => current = parent ∧ w' = w) E := by
  refine .handle ?_
  rw [h]
  exact .pure ⟨rfl, rfl⟩

theorem publishMaintenanceFrame_runs (h : Due ctx old m.generationId n parent w)
    (hg : 0 < m.generationId) (hm : m.pmtCheckpointId = m.generationId)
    :
    Runs (Lasting ctx) (publishMaintenanceFrame m) w (fun _ => Sound ctx) E := by
  refine .bind (R := fun _ => Current ctx m) ?_ fun _ w₁ h₁ => ?_
  · refine .handle ?_
    rw [h.parent_eq]
    exact (frame_runs h hg hm).imp fun _ _ hw' => hw'.1
  refine .bind (Infallible.runs finishSegmentedBlobPublicationCleanup_infallible
    (Still.current still_filing.finishSegmentedBlobPublicationCleanup h₁)) fun _ w₂ h₂ => ?_
  refine .bind (completeGeneration_runs h₂) fun _ w₃ hw₃ => .of_modifyHandle ?_
  obtain ⟨h₃, hpend, hres, -⟩ := hw₃
  refine Current.sound (m := m)
    ⟨⟨⟨h₃.toBase.of_pins rfl rfl rfl, h₃.whole, h₃.newest, h₃.oldWF, h₃.held⟩,
    h₃.last, h₃.bound⟩, h₃.latest⟩ hpend hres ?_
  exact Nat.lt_succ_self _

/-- **The generation of a blob rewrite.** -/
theorem publishBlobRewriteGeneration_runs (h : Due ctx old n n parent w) (hn : 0 < n) :
    Runs (Lasting ctx) publishBlobRewriteGeneration w (fun _ => Sound ctx)
      (fun e w' => IsCorruption e ∧ Steady ctx w') := by
  refine .bind (latestManifest_runs h.parent_eq) fun current w₀ hw₀ => ?_
  obtain ⟨rfl, hw₀⟩ := hw₀
  rw [hw₀]
  refine .handle (.disk (.modifyHandle ?_))
  have hs : SameCore w { w with handle := { w.handle with
    blobs := w.handle.blobs.setGeneration w.handle.nextGenerationId } } := ⟨rfl, rfl⟩
  have hdrop : ∀ c : Bool,
    Still (Prog.runIf c (Prog.write fun d => { d with blobBackup := none })) :=
    fun _ => .runIf (.write fun _ => rfl)
  have hdrop' : ∀ c : Bool, Infallible
      (Prog.runIf c (Prog.write fun d => { d with blobBackup := none }) : DbM Unit) :=
    fun _ => .runIf (.write _)
  refine .bind (Infallible.runs (hdrop' _) ((hdrop _).due (h.congr hs))) fun _ w₁ h₁ => ?_
  have haside : ∀ c : Bool, Still (Prog.runIf c
      (Prog.write fun d => { d with blob := none, blobBackup := d.blob })) := fun _ =>
        .runIf (.write fun _ => rfl)
  have haside' : ∀ c : Bool, Infallible (Prog.runIf c
      (Prog.write fun d => { d with blob := none, blobBackup := d.blob }) : DbM Unit) :=
        fun _ => .runIf (.write _)
  refine .bind (Infallible.runs (haside' _) ((haside _).due h₁)) fun _ w₂ h₂ => ?_
  have hframe : ∀ w₃, Due ctx old n n current w₃ → Runs (Lasting ctx) (do
      publishMaintenanceFrame (w.handle.maintenanceManifest current)
      Prog.runIf (!w.handle.blobs.segmented && w.disk.blob.isSome)
        (Prog.write fun d => { d with blobBackup := none })) w₃ (fun _ => Sound ctx)
      (fun e w' => IsCorruption e ∧ Steady ctx w') := by
    intro w₃ h₃
    have hgen : (w.handle.maintenanceManifest current).generationId = n := h.count
    refine .bind (publishMaintenanceFrame_runs (m := w.handle.maintenanceManifest current)
      (by rw [hgen]; exact h₃) (by rw [hgen]; exact hn) rfl) fun _ w₄ h₄ => ?_
    exact Infallible.runs (hdrop' _) ((hdrop _).sound h₄)
  refine .ite (fun _ => ?_) fun _ => ?_
  · refine .bind ((Raises.runs writeBlobSegments_raises
      (Still.due still_filing.writeBlobSegments h₂)).imp_error fun e w' he =>
        ⟨he.1, he.2.toResting.steady⟩) fun _ w₃ h₃ => hframe w₃ h₃
  · exact .bind (Infallible.runs writeBlobImage_infallible
      (Still.due still_filing.writeBlobImage h₂)) fun _ w₃ h₃ => hframe w₃ h₃

theorem publishCompactionGeneration_runs (h : Due ctx old n n parent w) (hn : 0 < n) :
    Runs (Lasting ctx) publishCompactionGeneration w (fun _ => Sound ctx)
      (fun e w' => IsCorruption e ∧ Steady ctx w') := by
  refine .bind (latestManifest_runs h.parent_eq) fun current w₀ hw₀ => ?_
  obtain ⟨rfl, hw₀⟩ := hw₀
  rw [hw₀]
  have hstill : Still (do
      Prog.modifyHandle fun db => { db with blobs := db.blobs.setGeneration db.nextGenerationId }
      writeBlobSegments) := .bind (.modifyHandle fun _ => rfl) fun _ =>
        still_filing.writeBlobSegments
  have hraises : Raises IsCorruption (do
      Prog.modifyHandle fun db => { db with blobs := db.blobs.setGeneration db.nextGenerationId }
      writeBlobSegments : DbM Unit) := .bind (.modifyHandle _) fun _ => writeBlobSegments_raises
  refine .handle (.bind ((Raises.runs (Raises.runIf hraises)
    (Still.due (Keeps.runIf hstill) h)).imp_error fun e w' he => ⟨he.1, he.2.toResting.steady⟩)
      fun _ w₁ h₁ => ?_)
  have hgen : (w.handle.maintenanceManifest current).generationId = n := h.count
  exact publishMaintenanceFrame_runs (by rw [hgen]; exact h₁) (by rw [hgen]; exact hn) rfl

/-! ## The flush of the engine -/

/-- The flush behind a rewrite of the tree; it sets no stamp. -/
theorem flushEngine_runs (h : Sound ctx w) (hns : ctx.stamping = .none) :
    Runs (Lasting ctx) flushEngine w
      (fun _ w' => ∃ old, Due ctx old w.handle.nextGenerationId w.handle.nextGenerationId
        w.handle.latestOrBootstrap w')
      (fun e w' => e = .capacityPreflight ∧ Sound ctx w') := by
  refine .bind (refreshIfNeeded_runs h.poised) fun _ w₁ hw₁ => ?_
  have hcount : w₁.handle.nextGenerationId = w.handle.nextGenerationId := congrArg Prod.fst hw₁.2
  refine (flushPoised_runs hw₁.1 fun hs => absurd hns hs).imp fun _ w₂ h₂ => ?_
  rw [hcount] at h₂
  exact ⟨_, h₂⟩

/-- The flush of a rebuilt tree: the slots of the old table are reserved until it is durable. -/
theorem flushRebuilt_runs (h : Due ctx old g n parent w) (hns : ctx.stamping = .none)
    (hpend : w.handle.engine.pendingReclaimedOffsets = [])
    (hold : ∀ o ∈ old.offsets, o ∈ w.handle.engine.rebuildReservedOffsets) :
    Runs (Lasting ctx) flushEngine w (fun _ => Due ctx old g n parent) (fun _ => Steady ctx) := by
  have hrefresh : Runs (Lasting ctx) refreshIfNeeded w (fun _ => Due ctx old g n parent)
      (fun _ => Steady ctx) := by
    refine .handle (.disk (.of_modifyHandle ?_))
    refine { h with toBase := h.toBase.of_pins rfl rfl rfl, held := ?_ }
    refine h.held.refreshIfNeeded hpend fun o ho => ?_
    rcases mem_append.mp ho with ho | ho
    · exact .inl ho
    · exact .inr (.inr (hold o ho))
  refine .bind hrefresh fun _ w₁ h₁ => ?_
  refine ((flushPages_runs h₁.toFlushed fun hs => absurd hns hs).and (flushPages_keeps w₁)).mono
    (fun _ hd => hd.1) (fun _ w' hw' => ?_) fun e w' he => (h₁.congr he.1.2).toResting.steady
  obtain ⟨⟨hfl, hcount⟩, -, hlog⟩ := hw'
  have hframes : w'.disk.frames = w₁.disk.frames := by rw [Disk.frames, Disk.frames, hlog]
  have hnext : w'.handle.nextGenerationId = w₁.handle.nextGenerationId := congrArg Prod.fst hcount
  have hhist : w'.handle.manifestHistory = w₁.handle.manifestHistory := congrArg Prod.snd hcount
  refine ⟨hfl, ?_, ?_, hnext.trans h₁.count⟩
  · rw [hhist]
    exact h₁.parent_eq
  · rw [hframes]
    exact h₁.parentOf

/-! ## Blob reclamation -/

/-- Dropping dead blob files. -/
theorem sweepBlobs_runs (h : Sound ctx w) {onFailure : Error → DbM Unit}
    (hE : ∀ e w', Sound ctx w' → E e w')
    (hfail : ∀ e w', IsCorruption e → Steady ctx w' →
      RunsTo (Lasting ctx) (onFailure e) w' (fun w'' => E e w'')) :
    Runs (Lasting ctx) (sweepBlobs onFailure) w (fun _ => Sound ctx) E := by
  refine .handle (.bind ((Still.sound (Keeps.runIf (keeps_admitBlobImage fun _ _ => rfl))
    h).imp_error fun e w' he => hE e w' he) fun _ w₁ h₁ => .modifyHandle ?_)
  have hs : SameCore w₁ { w₁ with handle := { w₁.handle with blobs := w.handle.blobs.gc.2 } } :=
    ⟨rfl, rfl⟩
  have h₂ := h₁.congr hs
  refine .bind (R := fun _ => Sound ctx) (.runIf (fun _ => ?_) fun _ => h₂) fun _ _ h₃ => .pure h₃
  refine .onError (R := fun e w' => IsCorruption e ∧ Steady ctx w') (.ite (fun _ => ?_) fun _ => ?_)
    fun e w' he => hfail e w' he.1 he.2
  · exact publishBlobRewriteGeneration_runs h₂.due h₂.positive
  · exact Infallible.runs writeBlobImage_infallible (Still.sound still_filing.writeBlobImage h₂)

theorem rewriteMixedBlobFiles_runs (h : Sound ctx w) (hns : ctx.stamping = .none) :
    Runs (Lasting ctx) rewriteMixedBlobFiles w (fun _ => Sound ctx) (Failed ctx) := by
  refine .bind (still_materialize.sound_failed h) fun _ w₁ h₁ => ?_
  refine .handle (.lift (fun e _ => h₁.failed e) fun candidate _ => ?_)
  refine .ite (fun _ => .pure h₁) fun _ => ?_
  refine .bind ((still_checkCapacity _).sound_failed h₁) fun _ w₂ h₂ => ?_
  refine .bind ((still_checkCapacity _).sound_failed h₂) fun _ w₃ h₃ => ?_
  refine .bind ((still_checkCapacity _).sound_failed h₃) fun _ w₄ h₄ => ?_
  refine .bind (Still.sound_failed (Keeps.runIf (still_checkCapacity _)) h₄) fun _ w₅ h₅ =>
    .modifyHandle ?_
  have hs : SameCore w₅ { w₅ with handle := { w₅.handle with
    engine := { w₅.handle.engine with btree := candidate.btree }, blobs := candidate.blobs } } :=
      ⟨rfl, rfl⟩
  refine .bind ((flushEngine_runs (h₅.congr hs) hns).imp_error fun e w' he => ?_) fun _ w₆ hw₆ => ?_
  · exact he.2.failed e
  obtain ⟨old, h₆⟩ := hw₆
  refine .bind ((publishBlobRewriteGeneration_runs h₆ h₅.positive).imp_error
    fun e w' he => IsCorruption.failed he.1 he.2) fun _ w₇ h₇ => ?_
  exact sweepBlobs_runs h₇ (fun e _ hw' => hw'.failed e) fun e _ he hw' =>
    .pure (IsCorruption.failed he hw')

theorem gc_runs (h : Safe ctx w) (hns : ctx.stamping = .none) : Settles ctx gc w := by
  refine .bind (admitted_runs h) fun _ w₁ h₁ => ?_
  refine .bind (Still.sound_safe keeps_checkMaintenanceIdle h₁) fun _ w₂ h₂ => ?_
  refine .bind (flush_runs h₂.safe) fun _ w₃ h₃ => .handle ?_
  refine .ite (fun _ => .pure h₃) fun _ => ?_
  refine .bind (sweepBlobs_runs h₃ (fun _ _ hw' => hw'.safe) fun _ _ _ hw' => fence_runs hw')
    fun reclaimed w₄ h₄ => .handle ?_
  refine .ite (fun _ => ?_) fun _ => .pure h₄
  exact .bind (publication_runs (rewriteMixedBlobFiles_runs h₄ hns)) fun _ _ h₅ => .pure h₅

/-! ## Vacuum -/

theorem startVacuum_runs (h : Sound ctx w) : Settles ctx startVacuum w := by
  refine .bind (flush_runs h.safe) fun _ w₁ h₁ => ?_
  refine .bind (still_materialize.sound_safe h₁) fun _ w₂ h₂ => .handle ?_
  cases w₂.handle.engine.btree.rangeCursor [] scanEnd with
  | error e => exact .throw h₂.safe
  | ok cursor =>
    refine .of_modifyHandle ?_
    exact h₂.advance rfl rfl rfl rfl rfl le_rfl

/-- **The swap of the rebuilt tree.** -/
theorem finishVacuum_runs (h : Sound ctx w) (hns : ctx.stamping = .none) (state : VacuumState) :
    Runs (Lasting ctx) (finishVacuum state) w (fun _ => Sound ctx) (fun _ => Steady ctx) := by
  refine .handle (.disk (.lift (fun _ _ => h.steady) fun engine hengine => .modifyHandle ?_))
  obtain ⟨hslots, hres, hpend⟩ := h.held.rebuild hengine
  have hdue := h.due
  have h₁ : Due ctx w.handle.engine.pmt w.handle.nextGenerationId w.handle.nextGenerationId
      w.handle.latestOrBootstrap { w with handle := { w.handle with
        engine := engine, blobs := state.candidateBlobs } } :=
    ⟨⟨⟨h.toBase.of_pins rfl rfl rfl, h.whole, h.newest, h.oldWF, hslots⟩, h.next⟩, hdue.parent_eq,
      hdue.parentOf, rfl⟩
  have hold : ∀ o ∈ w.handle.engine.pmt.offsets, o ∈ engine.rebuildReservedOffsets := fun o ho => by
    rw [hres]
    exact ho
  refine .bind (flushRebuilt_runs h₁ hns hpend hold) fun _ w₂ h₂ => ?_
  exact (publishBlobRewriteGeneration_runs h₂ h.positive).imp_error fun _ _ he => he.2

theorem advanceVacuum_runs (h : Sound ctx w) (hns : ctx.stamping = .none) (entries : BTree → Nat) :
    Settles ctx (advanceVacuum entries) w := by
  refine .handle (.bind (.runIf (fun _ => startVacuum_runs h) fun _ => h) fun _ w₁ h₁ =>
    .handle ?_)
  cases w₁.handle.vacuumState with
  | none => exact .throw h₁.safe
  | some state =>
    have h₂ : Sound ctx { w₁ with handle := { w₁.handle with vacuumState := none } } :=
      h₁.advance rfl rfl rfl rfl rfl le_rfl
    refine .modifyHandle (.check (fun _ => h₂.safe) fun _ =>
      .lift (fun _ _ => h₂.safe) fun found _ => ?_)
    refine .ite (fun _ => ?_) fun _ => ?_
    · refine .bind (Still.sound_safe (keeps_preflightVacuum (fun _ _ => rfl) (fun _ _ => rfl) _) h₂)
        fun _ w₃ h₃ => ?_
      exact .bind (alwaysFenced_runs (finishVacuum_runs h₃ hns _)) fun _ _ h₄ => .pure h₄
    · exact .bind ((still_restoreVacuum _).sound_safe h₂) fun _ _ h₃ => .pure h₃

theorem vacuumStep_runs (h : Safe ctx w) (hns : ctx.stamping = .none) (maxEntries : Nat) :
    Settles ctx (vacuumStep maxEntries) w :=
  .bind (admitted_runs h) fun _ _ h₁ => .check (fun _ => h₁.safe) fun _ =>
    advanceVacuum_runs h₁ hns _

theorem vacuum_runs (h : Safe ctx w) (hns : ctx.stamping = .none) : Settles ctx vacuum w :=
  .bind (admitted_runs h) fun _ _ h₁ =>
    .bind (advanceVacuum_runs h₁ hns _) fun _ _ h₂ => .pure h₂

theorem cancelVacuum_runs (h : Safe ctx w) : Settles ctx cancelVacuum w := by
  refine .bind (admitted_runs h) fun _ w₁ h₁ => .handle (.modifyHandle (.pure ?_))
  exact h₁.advance rfl rfl rfl rfl rfl le_rfl

/-! ## Compaction -/

/-- Copies of pages of the newest table, to free slots. -/
theorem copyPages_runs (hcopy : ctx.stamping ≠ .none → ctx.stamping = .copied)
    (copies : List (Nat × Node)) :
    ∀ {w : World DB Disk}, Placing ctx w.handle.engine.pmt [] w →
    (∀ c ∈ copies, c.1 ∈ w.handle.engine.freeOffsets ∧ ∃ p m, w.handle.engine.pmt.get p = some m ∧
      w.disk.device.page m.offset = some c.2) →
    Runs (Lasting ctx) (Prog.forEach (fun move => writeData fun dev =>
      dev.writePage move.1 move.2) copies) w
      (fun _ w' => Placing ctx w.handle.engine.pmt [] w' ∧ w'.handle = w.handle ∧
        w'.disk.device = StorageEngine.copyPages w.disk.device copies ∧
        w'.disk.metaLog = w.disk.metaLog) E := by
  induction copies with
  | nil =>
    intro w h _
    exact .pure ⟨h, rfl, rfl, rfl⟩
  | cons c rest ih =>
    intro w h hc
    obtain ⟨hfree, p, m, hget, hpage⟩ := hc c (.head _)
    have hheld := (h.slots.free c.1 hfree).2
    have hsize : max w.disk.device.size (c.1 + pageSize) = w.disk.device.size :=
      max_eq_left (h.slots.free_in c.1 hfree).2
    have hwrote := fun trace => h.wrote trace hheld (n := c.2)
      (by rw [hsize]; exact h.slots) fun hs =>
      .inr ⟨hcopy hs, p, m, hget, hpage⟩
    refine .write (hwrote []).lasting ((ih (hwrote _) fun c' hc' => ?_).imp_error fun _ _ he => he)
    obtain ⟨hfree', p', m', hget', hpage'⟩ := hc c' (.tail _ hc')
    refine ⟨hfree', p', m', hget', ?_⟩
    -- a page of the table is not overwritten by a copy
    have hne : m'.offset ≠ c.1 := fun he =>
      (h.slots.free c.1 hfree).1 (he ▸ h.slots.pmt.mem_offsets.mpr ⟨p', m', hget', rfl⟩)
    show (if m'.offset = c.1 then some c.2 else w.disk.device.page m'.offset) = _
    rw [if_neg hne, hpage']

/-- The pages of a plan are copied; the frame that selects the copies is due. -/
theorem moveAll_runs (h : Sound ctx w) (hcopy : ctx.stamping ≠ .none → ctx.stamping = .copied)
    {moves : List StorageEngine.PageMove} {nodes : List Node}
    (hplan : StorageEngine.Plan w.handle.engine moves)
    (hnodes : w.handle.readMoves w.disk moves = .ok nodes)
    :
    Runs (Lasting ctx) (do
      Prog.forEach (fun move => writeData fun dev => dev.writePage move.1 move.2)
        ((moves.map StorageEngine.PageMove.target).zip nodes)
      writeData Device.sync
      modifyEngine fun e => e.relocated moves) w
      (fun _ => Due ctx w.handle.engine.pmt w.handle.nextGenerationId w.handle.nextGenerationId
        w.handle.latestOrBootstrap) E := by
  have hread : List.Forall₂ (fun m n => stored w.disk.device w.handle.engine.pmt m.pageId =
    some n) moves nodes :=
    (forall₂_map_left_iff.mp (readNodes_forall₂ hnodes)).imp fun m n hm => stored_eq_some.mpr hm
  have hcopies : ∀ c ∈ (moves.map StorageEngine.PageMove.target).zip nodes,
      c.1 ∈ w.handle.engine.freeOffsets ∧ ∃ p m, w.handle.engine.pmt.get p = some m ∧
        w.disk.device.page m.offset = some c.2 := by
    intro c hc
    rw [zip_map_left, mem_map] at hc
    obtain ⟨⟨move, node⟩, hmem, rfl⟩ := hc
    have hmove := (of_mem_zip hmem).1
    have hstored := (forall₂_iff_zip.mp hread).2 hmem
    rw [stored_eq h.held.pmt h.held.mapped, hplan.mapped move hmove] at hstored
    exact ⟨hplan.free move hmove, move.pageId, move.mapping, hplan.mapped move hmove, hstored⟩
  refine .bind (copyPages_runs hcopy _ h.toResting.placing hcopies) fun _ w₁ hw₁ => ?_
  obtain ⟨hplacing, hhandle, hdev, hlog⟩ := hw₁
  have hnone : ∀ o ∈ ([] : List Nat), o ∈ ([] : List Nat) := fun _ ho => ho
  have hsynced := fun trace => hplacing.synced trace hnone
  refine .write (hsynced []).lasting (.of_modifyHandle ?_)
  have hslots := (hplan.relocated h.held hread).slots
  have hframes : w₁.disk.frames = w.disk.frames := by rw [Disk.frames, Disk.frames, hlog]
  have hrest : ∀ trace, Resting ctx w.handle.engine.pmt
      ⟨{ w₁.handle with engine := w₁.handle.engine.relocated moves },
        { w₁.disk with data := some w₁.disk.device.sync }, trace⟩ := by
    intro trace
    have hq := (hsynced []).resting rfl
    refine { hq with toBase := hq.toBase.of_pins rfl rfl rfl, held := ?_ }
    show (w₁.handle.engine.relocated moves).SlotInv w₁.disk.device.sync.size [] _
    rw [hdev, hhandle]
    exact hslots
  have hdue := h.due
  refine ⟨⟨hrest _, ?_⟩, ?_, ?_, ?_⟩
  · show ∀ f ∈ w₁.disk.frames, _
    rw [hframes]
    exact h.next
  · show w₁.handle.manifestHistory.latest = _
    rw [hhandle]
    exact hdue.parent_eq
  · show ParentOf w₁.disk.frames _ _
    rw [hframes]
    exact hdue.parentOf
  · show w₁.handle.nextGenerationId = _
    rw [hhandle]

/-- **Relocation**: no page, or pages that the next frame is due for. -/
theorem relocateInteriorPages_runs (h : Sound ctx w)
    (hcopy : ctx.stamping ≠ .none → ctx.stamping = .copied) (limit : Option Nat) :
    Runs (Lasting ctx) (relocateInteriorPages limit) w
      (fun count w' => (count = 0 ∧ Sound ctx w') ∨ (0 < count ∧ Due ctx w.handle.engine.pmt
        w.handle.nextGenerationId w.handle.nextGenerationId w.handle.latestOrBootstrap w'))
      (fun _ => Sound ctx) := by
  refine .handle (.disk (.check (fun _ => h) fun _ => ?_))
  refine .lift (fun _ _ => h) fun nodes hnodes => ?_
  refine .bind (.runIf (fun hsome => ?_) fun hempty => ?_) fun _ w₁ hw₁ => .pure hw₁
  · have hpos := length_pos_iff.mpr (isEmpty_eq_false_iff.mp ((Bool.not_eq_true' _).mp hsome))
    exact (moveAll_runs h hcopy (h.held.plan _ _) hnodes).imp fun _ _ hq => .inr ⟨hpos, hq⟩
  · have hnil := isEmpty_iff.mp ((Bool.not_eq_false' _).mp hempty)
    exact .inl ⟨by rw [hnil]; rfl, h⟩

theorem truncateReclaimableTail_runs (h : Sound ctx w) :
    RunsTo (Lasting ctx) truncateReclaimableTail w (Sound ctx) := by
  refine .handle (.disk (.check (fun _ => h) fun _ => ?_))
  cases hr : w.handle.engine.reclaimableTailRange w.disk.device with
  | mk before after =>
    refine .runIf (fun _ => ?_) fun _ => h
    obtain ⟨hslots, -⟩ := h.held.truncate hr
    have hplacing : ∀ trace, Placing ctx w.handle.engine.pmt [] ⟨{ w.handle with engine := {
          w.handle.engine with
          freeOffsets := w.handle.engine.freeOffsets.take
            (w.handle.engine.freeOffsets.length - (before - after) / pageSize)
          nextOffset := after } },
        { w.disk with data := some (w.disk.device.truncate after) }, trace⟩ := fun trace => { h with
      data := rfl
      log := h.disk.log
      slots := hslots
      unheld := forall_mem_nil _
      pages := fun o ho => by
        have hin := hslots.held_in o (mem_append_left _ (h.protects o ho))
        show (if o + pageSize ≤ after then w.disk.device.page o else none) = _
        rw [if_pos hin.2]
        exact (h.kept o ho).2.2
      stamps := Stamped.of_synced rfl
      marked := h.disk.marked }
    refine .write (hplacing []).lasting (.of_modifyHandle ?_)
    exact { h with toResting := (hplacing _).resting rfl }

theorem compactInner_runs (h : Safe ctx w) (hcopy : ctx.stamping ≠ .none → ctx.stamping = .copied)
    (limit : Option Nat) :
    Runs (Lasting ctx) (compactInner limit) w (fun _ => Sound ctx) (Halted ctx) := by
  refine .bind ((flush_runs h).imp_error fun e _ he => he.halted e) fun _ w₁ h₁ =>
    .disk (.modifyHandle (.handle ?_))
  have h₂ := h₁.refreshed
  refine .bind (R := fun _ => Sound ctx) (.runIf (fun _ => ?_) fun _ => h₂) fun _ w₃ h₃ => ?_
  · have hplan : ∀ e : StorageEngine, ∀ keep : List Nat, Still (Prog.runIf (limit ≠ some 0) do
        Prog.check (e.pendingReclaimedOffsets = [])
          (.needsRecovery "cannot plan relocation before generation publication")
        Prog.runIf (!(e.plannedMoves keep).isEmpty) (checkCapacity .capacityPreflight)) :=
      fun _ _ => .runIf (.bind (.check _ _) fun _ => .runIf (still_checkCapacity _))
    refine .bind (((hplan _ _).sound_failed h₂).imp_error fun _ _ he => he.halted) fun _ w₃ h₃ => ?_
    refine .bind ((relocateInteriorPages_runs h₃ hcopy limit).imp_error fun e _ he =>
      he.safe.halted e) fun count w₄ hw₄ => ?_
    rcases hw₄ with ⟨rfl, h₄⟩ | ⟨hcount, h₄⟩
    · exact .pure h₄
    · refine .runIf (fun _ => ?_) fun hzero => absurd hcount (of_decide_eq_false hzero)
      exact (publishCompactionGeneration_runs h₄ h₃.positive).imp_error
        fun _ _ he => (IsCorruption.failed he.1 he.2).halted
  · exact (truncateReclaimableTail_runs h₃).imp_error fun e _ he => he.safe.halted e

theorem compactWithLimit_runs (h : Safe ctx w)
    (hcopy : ctx.stamping ≠ .none → ctx.stamping = .copied) (limit : Option Nat) :
    Settles ctx (compactWithLimit limit) w :=
  .bind (admitted_runs h) fun _ _ h₁ =>
    .bind (Still.sound_safe keeps_checkMaintenanceIdle h₁) fun _ _ h₂ =>
      fenced_runs (compactInner_runs h₂.safe hcopy limit)

end DB

end SeerDb
