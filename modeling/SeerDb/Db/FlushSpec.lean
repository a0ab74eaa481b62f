/-
# `SeerDb.Db.FlushSpec` — the calls that publish a group

`publish_generation`, the two envelope publications and the calls built on them,
each with one `Runs` lemma.  `Poised` is `Sound` with the parent of the next frame
named; `Due` is the same once the pages are written.  A publication that fails on a
refused capacity check leaves `Sound`; every other failure fences the handle, and a
fenced handle has to be no more than `Steady`.
-/
import SeerDb.Db.PublishSpec

namespace SeerDb

open Lib

variable {ctx : Ctx} {old : PMT} {g n : GenerationId} {parent m : Manifest} {w w' : World DB Disk}
  {e : Error} {commit : CommitRecord}

/-- A sound handle before the frame of generation `g`. -/
structure Poised (ctx : Ctx) (g : GenerationId) (parent : Manifest) (w : World DB Disk) : Prop
    extends Sound ctx w where
  bound : ∀ f ∈ w.disk.frames, f.checkpointId < g
  parent_eq : w.handle.manifestHistory.latest = some parent

/-- The pages are durable, the frame of generation `g` is next, under `n` as the next generation. -/
structure Due (ctx : Ctx) (old : PMT) (g n : GenerationId) (parent : Manifest)
    (w : World DB Disk) : Prop extends Flushed ctx old g w where
  parent_eq : w.handle.manifestHistory.latest = some parent
  parentOf : ParentOf w.disk.frames old.mappings parent
  count : w.handle.nextGenerationId = n

/-- The frame of `m` is durable and `m` is the newest manifest of the history. -/
structure Current (ctx : Ctx) (m : Manifest) (w : World DB Disk) : Prop extends Framed ctx m w where
  latest : w.handle.manifestHistory.latest = some m

/-- A handle that is not fenced is sound. -/
structure Safe (ctx : Ctx) (w : World DB Disk) : Prop where
  steady : Steady ctx w
  sound : w.handle.writeFenced = false → Sound ctx w

/-- A call that leaves a sound handle, and a safe one when it fails. -/
abbrev Settles {α : Type} (ctx : Ctx) (p : DbM α) (w : World DB Disk) : Prop :=
  Runs (Lasting ctx) p w (fun _ => Sound ctx) (fun _ => Safe ctx)

/-- What a publication leaves when it fails with `e`. -/
structure Failed (ctx : Ctx) (e : Error) (w : World DB Disk) : Prop where
  steady : Steady ctx w
  sound : e = .capacityPreflight → Sound ctx w

/-- What a call that has publications inside leaves when it fails with `e`. -/
structure Halted (ctx : Ctx) (e : Error) (w : World DB Disk) : Prop where
  steady : Steady ctx w
  safe : e = .capacityPreflight → Safe ctx w

theorem Sound.safe (h : Sound ctx w) : Safe ctx w := ⟨h.steady, fun _ => h⟩

theorem Sound.failed (h : Sound ctx w) (e : Error) : Failed ctx e w := ⟨h.steady, fun _ => h⟩

theorem Failed.halted (h : Failed ctx e w) : Halted ctx e w :=
  ⟨h.steady, fun he => (h.sound he).safe⟩

theorem Safe.halted (h : Safe ctx w) (e : Error) : Halted ctx e w := ⟨h.steady, fun _ => h⟩

theorem IsCorruption.failed (he : DB.IsCorruption e) (h : Steady ctx w) : Failed ctx e w := by
  obtain ⟨message, rfl⟩ := he
  exact ⟨h, fun hc => by cases hc⟩

section

variable (hs : SameCore w w')

include hs

theorem SameCore.history : w'.handle.manifestHistory = w.handle.manifestHistory :=
  congrArg Core.manifestHistory hs.1

theorem SameCore.next : w'.handle.nextGenerationId = w.handle.nextGenerationId :=
  congrArg Core.nextGenerationId hs.1

theorem SameCore.fenced : w'.handle.writeFenced = w.handle.writeFenced :=
  congrArg Core.writeFenced hs.1

theorem Poised.congr (h : Poised ctx g parent w) : Poised ctx g parent w' :=
  ⟨h.toSound.congr hs, by rw [hs.frames]; exact h.bound, by rw [hs.history]; exact h.parent_eq⟩

theorem Due.congr (h : Due ctx old g n parent w) : Due ctx old g n parent w' :=
  ⟨h.toFlushed.congr hs, by rw [hs.history]; exact h.parent_eq, by rw [hs.frames]; exact h.parentOf,
    by rw [hs.next]; exact h.count⟩

theorem Current.congr (h : Current ctx m w) : Current ctx m w' :=
  ⟨h.toFramed.congr hs, by rw [hs.history]; exact h.latest⟩

theorem Safe.congr (h : Safe ctx w) : Safe ctx w' :=
  ⟨h.steady.congr hs, fun hf => (h.sound (hs.fenced ▸ hf)).congr hs⟩

end

section

variable {α : Type} {p : DbM α}

theorem Still.poised (hp : Still p) (h : Poised ctx g parent w) :
    RunsTo (Lasting ctx) p w (Poised ctx g parent) :=
  Keeps.runs hp (fun _ hd => h.toBase.lasting_congr hd) fun _ hs => h.congr hs

theorem Still.due (hp : Still p) (h : Due ctx old g n parent w) :
    RunsTo (Lasting ctx) p w (Due ctx old g n parent) :=
  Keeps.runs hp (fun _ hd => h.toBase.lasting_congr hd) fun _ hs => h.congr hs

theorem Still.current (hp : Still p) (h : Current ctx m w) :
    RunsTo (Lasting ctx) p w (Current ctx m) :=
  Keeps.runs hp (fun _ hd => h.toBase.lasting_congr hd) fun _ hs => h.congr hs

theorem Still.safe (hp : Still p) (h : Safe ctx w) :
    RunsTo (Lasting ctx) p w (Safe ctx) :=
  Keeps.runs hp (fun _ hd => h.steady.toBase.lasting_congr hd) fun _ hs => h.congr hs

end

theorem Poised.parentOf (h : Poised ctx g parent w) :
    ParentOf w.disk.frames w.handle.engine.pmt.mappings parent := by
  obtain ⟨m, hm, hp⟩ := h.latest
  rw [h.parent_eq] at hm
  cases hm
  exact hp

/-- The free list may be rebuilt from the file at any time. -/
theorem Sound.refreshed (h : Sound ctx w) : Sound ctx { w with handle := { w.handle with
    engine := w.handle.engine.refreshReclamation w.disk.device w.handle.protectedOffsets } } :=
      { h with
  toBase := h.toBase.of_pins rfl rfl rfl
  held := h.held.refreshReclamation h.pending fun _ ho => (List.mem_append.mp ho).imp_right .inl }

/-- Every sound handle is poised for its next generation. -/
theorem Sound.poised (h : Sound ctx w) :
    Poised ctx w.handle.nextGenerationId w.handle.latestOrBootstrap w := by
  obtain ⟨m, hm, -⟩ := h.latest
  refine ⟨h, h.next, ?_⟩
  rw [DB.latestOrBootstrap, hm]
  rfl

/-- The parent of a due frame is older, and can be built on. -/
theorem Due.older (h : Due ctx old g n parent w) (hg : 0 < g) : parent.generationId < g ∧
    (parent.pmtCheckpointId = 0 ∨ ∃ f ∈ w.disk.frames, f.checkpointId =
      parent.pmtCheckpointId) := by
  rcases h.parentOf with ⟨-, h0, hgen, -⟩ | ⟨f, hf, rfl⟩
  · exact ⟨hgen ▸ hg, .inl h0⟩
  · have hmem := List.mem_of_getLast? hf
    obtain ⟨h1, h2⟩ := h.disk.log.named f hmem
    exact ⟨h1 ▸ h.bound f hmem, .inr ⟨f, hmem, h2.symm⟩⟩

namespace DB

/-! ## Before the frame -/

variable {E : Error → World DB Disk → Prop}

theorem refreshIfNeeded_runs (h : Poised ctx g parent w) :
    Runs (Lasting ctx) refreshIfNeeded w
      (fun _ w' => Poised ctx g parent w' ∧ counters w'.handle = counters w.handle) E := by
  refine .handle (.disk (.of_modifyHandle ⟨?_, rfl⟩))
  show Poised ctx g parent { w with handle := { w.handle with
    engine := w.handle.engine.refreshIfNeeded w.disk.device w.handle.protectedOffsets } }
  rw [StorageEngine.refreshIfNeeded]
  split
  · exact ⟨h.toSound.refreshed, h.bound, h.parent_eq⟩
  · exact h

/-- A refused check leaves the handle sound. -/
theorem preflight_runs (h : Poised ctx g parent w) (refusal : Error) :
    Runs (Lasting ctx) (checkCapacity refusal) w
      (fun _ w' => Poised ctx g parent w' ∧ counters w'.handle = counters w.handle)
      (Failed ctx) := by
  refine (checkCapacity_runs refusal w).conseq (fun _ w' hw' => ⟨h.congr hw'.2, ?_⟩)
    fun e w' hw' => ?_
  · rw [hw'.1]
  · exact (h.toSound.congr hw'.2.2).failed e

/-- The pages are written. -/
theorem flushPoised_runs (h : Poised ctx g parent w) (ha : Ahead ctx w) :
    Runs (Lasting ctx) flushPages w
      (fun _ => Due ctx w.handle.engine.pmt g w.handle.nextGenerationId parent)
      (fun e w' => e = .capacityPreflight ∧ Sound ctx w') := by
  refine ((flushPages_runs ⟨h.toResting, h.bound⟩ ha).and (flushPages_keeps w)).mono
    (fun _ hd => hd.1) (fun _ w' hw' => ?_) fun e w' he => ⟨he.1.1, h.toSound.congr he.1.2⟩
  obtain ⟨⟨hfl, hcount⟩, -, hlog⟩ := hw'
  have hframes : w'.disk.frames = w.disk.frames := by rw [Disk.frames, Disk.frames, hlog]
  refine ⟨hfl, ?_, ?_, congrArg Prod.fst hcount⟩
  · exact (congrArg ManifestHistory.latest (congrArg Prod.snd hcount)).trans h.parent_eq
  · rw [hframes]
    exact h.parentOf

/-- The stamp is set and the pages are written. -/
theorem stampAndFlush_runs (h : Poised ctx g parent w) (hg : 0 < g) {α : Type} {k : DbM α}
    {Q : α → World DB Disk → Prop}
    (hE : ∀ w', Sound ctx w' → E .capacityPreflight w')
    (hk : ∀ w', Due ctx w.handle.engine.pmt g w.handle.nextGenerationId parent w' →
      Runs (Lasting ctx) k w' Q E) :
    Runs (Lasting ctx) (do
      modifyEngine fun e => { e with writeGeneration := g }
      flushPages
      k) w Q E := by
  let w₁ : World DB Disk :=
    { w with handle := { w.handle with engine := { w.handle.engine with writeGeneration := g } } }
  have hs : SameCore w w₁ := ⟨rfl, rfl⟩
  have ha : Ahead ctx w₁ := by
    refine fun _ => ⟨hg, fun f hf => ?_⟩
    show f.manifest.generationId < g
    rw [(h.disk.log.named f hf).1]
    exact h.bound f hf
  refine .modifyHandle (.bind ((flushPoised_runs (h.congr hs) ha).imp_error
    fun e w' he => ?_) fun _ w' hw' => hk w' hw')
  obtain ⟨rfl, h'⟩ := he
  exact hE w' h'

/-! ## The frame and what follows it -/

theorem pushHistory_runs (h : Framed ctx m w) (hl : w.handle.manifestHistory.latest = some parent)
    (hlt : parent.generationId < m.generationId) :
    Runs (Lasting ctx) (pushHistory m) w (fun _ => Current ctx m) E := by
  have hne : parent ≠ m := fun he => by
    rw [he] at hlt
    exact lt_irrefl _ hlt
  have hnewer : m.isNewerThan parent = true := by
    simp [Manifest.isNewerThan, hlt]
  have hpush : w.handle.manifestHistory.push m =
    .ok ⟨w.handle.manifestHistory.manifests ++ [m]⟩ := by
    rw [ManifestHistory.push, hl]
    simp [hne, hnewer]
  refine .handle ?_
  rw [hpush]
  refine .of_modifyHandle { h with toBase := h.toBase.of_pins rfl rfl rfl, latest := ?_ }
  simp [ManifestHistory.latest]

/-- The frame of a generation over its parent. -/
theorem frame_runs (h : Due ctx old m.generationId n parent w) (hg : 0 < m.generationId)
    (hm : m.pmtCheckpointId = m.generationId) :
    Runs (Lasting ctx) (do
      appendGenerationMeta m.generationId parent.pmtCheckpointId m
      pushHistory m) w (fun _ w' => Current ctx m w' ∧ w'.handle.nextGenerationId = n) E := by
  obtain ⟨hlt, hparent⟩ := h.older hg
  refine .bind (appendGenerationMeta_runs h.toFlushed ⟨rfl, hm⟩ hparent
    fun h0 => absurd h0 hg.ne') fun _ w' hw' => ?_
  have hl : w'.handle.manifestHistory.latest = some parent := by
    rw [hw'.2]
    exact h.parent_eq
  have hn : w'.handle.nextGenerationId = n := by
    rw [hw'.2]
    exact h.count
  have hkeeps : Keeps DB.nextGenerationId (fun _ : Disk => ()) (pushHistory m) :=
    Recording.pushHistory ⟨fun _ _ => rfl, fun _ _ => rfl⟩ m
  refine ((pushHistory_runs hw'.1 hl hlt).and (hkeeps w')).mono (fun _ hd => hd.1)
    (fun _ w'' hw'' => ⟨hw''.1, hw''.2.1.trans hn⟩) fun _ _ he => he.1

theorem appendEnvelopeFrame_runs {walOffset : Nat}
    (h : Due ctx old commit.generationId n parent w) (hg : 0 < commit.generationId)
    :
    Runs (Lasting ctx) (appendEnvelopeFrame commit walOffset parent) w
      (fun _ w' => ∃ m, m.generationId = commit.generationId ∧ Current ctx m w') E := by
  refine .handle ((frame_runs (m := w.handle.commitManifest commit walOffset) h hg rfl).imp
    fun _ w' hw' => ⟨_, rfl, hw'.1⟩)

theorem completeGeneration_runs (h : Current ctx m w) :
    Runs (Lasting ctx) completeGeneration w
      (fun _ w' => Current ctx m w' ∧ w'.handle.engine.pendingReclaimedOffsets = [] ∧
        w'.handle.engine.rebuildReservedOffsets = [] ∧
        w'.handle.nextGenerationId = w.handle.nextGenerationId) E := by
  refine .handle (.of_modifyHandle ⟨?_, rfl, rfl, rfl⟩)
  refine { h with toBase := h.toBase.of_pins rfl rfl rfl, held := ?_ }
  refine h.held.complete fun o ho => ?_
  rcases List.mem_append.mp ho with ho | ho
  · exact .inl ⟨ho, List.mem_append_left _ ho⟩
  · exact .inr ho

end DB

/-- The counters move past the frame. -/
theorem Current.sound (h : Current ctx m w) (hpend : w.handle.engine.pendingReclaimedOffsets = [])
    (hres : w.handle.engine.rebuildReservedOffsets = [])
    (hn : m.generationId < w.handle.nextGenerationId) : Sound ctx w where
  toResting := h.toResting
  pending := hpend
  reserved := hres
  next f hf := lt_of_le_of_lt (h.bound f hf) hn
  positive := lt_of_le_of_lt (Nat.zero_le _) hn
  latest := ⟨m, h.latest, .inr h.last⟩

namespace DB

theorem finishGenerationPublication_runs (h : Current ctx m w)
    (hc : m.generationId = commit.generationId) {E : Error → World DB Disk → Prop} :
    Runs (Lasting ctx) (finishGenerationPublication commit) w (fun _ => Sound ctx) E := by
  refine .bind (Infallible.runs finishSegmentedBlobPublicationCleanup_infallible
    (Still.current still_filing.finishSegmentedBlobPublicationCleanup h)) fun _ w₁ h₁ => ?_
  refine .bind (completeGeneration_runs h₁) fun _ w₂ hw₂ => ?_
  obtain ⟨h₂, hpend, hres, -⟩ := hw₂
  refine .bind (Infallible.runs reclaimWal_infallible
    (Still.same still_counting.reclaimWal h₂.toBase)) fun _ w₃ hs => .of_modifyHandle ?_
  have h₃ := h₂.congr hs
  refine Current.sound (m := m)
    ⟨⟨⟨h₃.toBase.of_pins rfl rfl rfl, h₃.whole, h₃.newest, h₃.oldWF, h₃.held⟩,
    h₃.last, h₃.bound⟩, h₃.latest⟩ ?_ ?_ ?_
  · exact (congrArg Core.pendingReclaimedOffsets hs.1).trans hpend
  · exact (congrArg Core.rebuildReservedOffsets hs.1).trans hres
  · show m.generationId < max w₃.handle.nextGenerationId (commit.generationId + 1)
    rw [hc]
    exact lt_of_lt_of_le (Nat.lt_succ_self _) (le_max_right _ _)

/-- **A full publication.** -/
theorem publishGeneration_runs (h : Sound ctx w) (hg : 0 < commit.generationId)
    (hb : ∀ f ∈ w.disk.frames, f.checkpointId < commit.generationId) (appendCommit : Bool)
    (recoveredWalOffset : Nat) :
    Runs (Lasting ctx) (publishGeneration commit appendCommit recoveredWalOffset) w
      (fun _ => Sound ctx) (Failed ctx) := by
  have hpoised : Poised ctx commit.generationId w.handle.latestOrBootstrap w :=
    ⟨h, hb, h.poised.parent_eq⟩
  refine .handle (.bind (refreshIfNeeded_runs hpoised) fun _ w₁ hw₁ => ?_)
  refine .bind (Infallible.runs (writeWalToDisk_infallible _)
    (Still.poised (still_counting.writeWalToDisk _) hw₁.1)) fun _ w₂ h₂ => ?_
  refine .bind (preflight_runs h₂ _) fun _ w₃ hw₃ => ?_
  refine stampAndFlush_runs hw₃.1 hg (fun w' h' => h'.failed _) fun w₄ h₄ => .handle ?_
  refine .bind ((Raises.runs (Raises.runIf (writeBlobArtifacts_raises _))
    (Still.due (Keeps.runIf (still_filing.writeBlobArtifacts _)) h₄)).imp_error
    fun e w' he => IsCorruption.failed he.1 he.2.toResting.steady) fun _ w₅ h₅ => ?_
  have hrest : ∀ walOffset w₆, Due ctx w₃.handle.engine.pmt commit.generationId
      w₃.handle.nextGenerationId w.handle.latestOrBootstrap w₆ → Runs (Lasting ctx) (do
        appendEnvelopeFrame commit walOffset w.handle.latestOrBootstrap
        finishGenerationPublication commit) w₆ (fun _ => Sound ctx) (Failed ctx) := by
    intro walOffset w₆ h₆
    refine .bind (appendEnvelopeFrame_runs h₆ hg) fun _ w₇ hw₇ => ?_
    obtain ⟨m, hm, h₇⟩ := hw₇
    exact finishGenerationPublication_runs h₇ hm
  refine .ite (fun _ => ?_) fun _ => hrest recoveredWalOffset w₅ h₅
  exact .bind (Infallible.runs (appendCommitRecord_infallible _)
    (Still.due (still_counting.appendCommitRecord _) h₅)) hrest

/-- **The publication of a staged group.** -/
theorem publishEnvelopeGroup_runs (h : Sound ctx w) :
    Runs (Lasting ctx) publishEnvelopeGroup w (fun _ => Sound ctx) (Failed ctx) := by
  refine .handle (.bind (Infallible.runs (writeWalToDisk_infallible _)
    (Still.same (still_counting.writeWalToDisk _) h.toBase)) fun _ w₁ hs₁ => ?_)
  refine .bind (preflight_runs (h.poised.congr hs₁) _) fun _ w₂ hw₂ => ?_
  refine .bind (refreshIfNeeded_runs hw₂.1) fun _ w₃ hw₃ => ?_
  have hn₃ : w₃.handle.nextGenerationId = w.handle.nextGenerationId :=
    (congrArg Prod.fst hw₃.2).trans ((congrArg Prod.fst hw₂.2).trans hs₁.next)
  refine stampAndFlush_runs hw₃.1 h.positive (fun w' h' => h'.failed _) fun w₄ h₄ => ?_
  refine .bind ((Raises.runs (writeGroupBlobArtifacts_raises _)
    (Still.due (still_filing.writeGroupBlobArtifacts _) h₄)).imp_error
    fun e w' he => IsCorruption.failed he.1 he.2.toResting.steady) fun _ w₅ h₅ => .handle ?_
  have hg : w₅.handle.nextCommit.generationId = w.handle.nextGenerationId := h₅.count.trans hn₃
  -- the identities are taken before the commit record is written
  have h₆ : Due ctx w₃.handle.engine.pmt w₅.handle.nextCommit.generationId
      (w₅.handle.nextGenerationId + 1) w.handle.latestOrBootstrap
      { w₅ with handle := { w₅.handle with
        nextCommitId := w₅.handle.nextCommitId + 1
        nextGenerationId := w₅.handle.nextGenerationId + 1 } } := by
    rw [hg]
    exact ⟨⟨⟨h₅.toBase.of_pins rfl rfl rfl, h₅.whole, h₅.newest, h₅.oldWF, h₅.held⟩, h₅.bound⟩,
      h₅.parent_eq, h₅.parentOf, rfl⟩
  refine .modifyHandle (.bind (Infallible.runs (appendCommitRecord_infallible _)
    (Still.due (still_counting.appendCommitRecord _) h₆)) fun walOffset w₇ h₇ => ?_)
  refine .bind (appendEnvelopeFrame_runs h₇ (hg ▸ h.positive)) fun _ w₈ hw₈ => ?_
  obtain ⟨m, hm, h₈⟩ := hw₈
  exact finishGenerationPublication_runs h₈ hm

end DB

/-- The next generation may be any later one. -/
theorem Sound.advance (h : Sound ctx w) (hd : w'.disk = w.disk)
    (he : w'.handle.engine = w.handle.engine) (hret : w'.handle.retention = w.handle.retention)
    (hlease : w'.handle.leases = w.handle.leases)
    (hhist : w'.handle.manifestHistory = w.handle.manifestHistory)
    (hn : w.handle.nextGenerationId ≤ w'.handle.nextGenerationId) : Sound ctx w' where
  toBase := h.toBase.of_pins hd hret hlease
  whole := hd ▸ h.whole
  newest := by rw [hd, he]; exact h.newest
  oldWF := he ▸ h.oldWF
  held := by
    rw [DB.protectedOffsets, hret, hlease, hd, he]
    exact h.held
  pending := he ▸ h.pending
  reserved := he ▸ h.reserved
  next f hf := lt_of_lt_of_le (h.next f (hd ▸ hf)) hn
  positive := lt_of_lt_of_le h.positive hn
  latest := by
    rw [hd, he, hhist]
    exact h.latest

namespace DB

/-- A WAL-first acknowledgement writes no page and no frame. -/
theorem acknowledgeGroup_runs (h : Sound ctx w) :
    Runs (Lasting ctx) acknowledgeGroup w (fun _ => Sound ctx) (Failed ctx) := by
  refine .handle (.bind ((Still.sound (still_filing.writeGroupBlobArtifacts _) h).imp_error
    fun e _ he => he.failed e) fun _ w₁ h₁ => .handle (.modifyHandle ?_))
  have h₂ : Sound ctx { w₁ with handle := { w₁.handle with
      nextCommitId := w₁.handle.nextCommitId + 1
      nextGenerationId := w₁.handle.nextGenerationId + 1
      walBuffer := w₁.handle.walBuffer ++ [.commit w₁.handle.nextCommit] } } :=
    h₁.advance rfl rfl rfl rfl rfl (Nat.le_succ _)
  refine .modifyHandle (.bind (R := fun _ => Sound ctx) ?_ fun _ w₃ h₃ =>
    .of_modifyHandle (h₃.advance rfl rfl rfl rfl rfl le_rfl))
  exact Infallible.runs (writeWalToDisk_infallible _)
    (Still.sound (still_counting.writeWalToDisk _) h₂)

theorem publishEnvelopeGroupWalFirst_runs (h : Sound ctx w) :
    Runs (Lasting ctx) publishEnvelopeGroupWalFirst w (fun _ => Sound ctx) (Failed ctx) := by
  refine .handle (.disk (.ite (fun _ => ?_) fun _ => ?_))
  · exact publishEnvelopeGroup_runs h
  · exact acknowledgeGroup_runs h

/-! ## Fences -/

theorem fence_runs (h : Steady ctx w) {E : Error → World DB Disk → Prop} :
    Runs (Lasting ctx) fence w (fun _ => Safe ctx) E :=
  .of_modifyHandle ⟨⟨h.toBase.of_pins rfl rfl rfl, h.slots, h.durable⟩, fun hf => by cases hf⟩

theorem fenceUnlessPreflight_runs (h : Halted ctx e w) {E : Error → World DB Disk → Prop} :
    Runs (Lasting ctx) (fenceUnlessPreflight e) w (fun _ => Safe ctx) E :=
  .runIf (fun _ => fence_runs h.steady) fun he => h.safe (by simpa using he)

section

variable {α : Type} {p : DbM α} {Q : α → World DB Disk → Prop}

theorem fenced_runs (h : Runs (Lasting ctx) p w Q (Halted ctx)) :
    Runs (Lasting ctx) (Prog.onError p fenceUnlessPreflight) w Q (fun _ => Safe ctx) :=
  .onError h fun _ _ hf => fenceUnlessPreflight_runs hf

theorem alwaysFenced_runs (h : Runs (Lasting ctx) p w Q (fun _ => Steady ctx)) :
    Runs (Lasting ctx) (Prog.onError p fun _ => fence) w Q (fun _ => Safe ctx) :=
  .onError h fun _ _ hw' => fence_runs hw'

/-- A publication under the usual guard. -/
theorem publication_runs (h : Runs (Lasting ctx) p w Q (Failed ctx)) :
    Runs (Lasting ctx) (Prog.onError p fenceUnlessPreflight) w Q (fun _ => Safe ctx) :=
  fenced_runs (h.imp_error fun _ _ hf => hf.halted)

end

/-! ## Admission -/

/-- Only a handle that is not fenced gets past the check. -/
theorem admitted_runs (h : Safe ctx w) : Settles ctx checkWritable w := by
  refine (checkWritable_runs w).conseq (fun _ w' hw' => ?_) fun _ w' hw' => ?_
  · rw [hw'.1]
    exact h.sound hw'.2.2
  · rw [hw']
    exact h

end DB

theorem Still.sound_safe {α : Type} {p : DbM α} (hp : Still p)
    (h : Sound ctx w) : Settles ctx p w :=
  (hp.sound h).imp_error fun _ _ he => he.safe

theorem Still.sound_failed {α : Type} {p : DbM α} (hp : Still p) (h : Sound ctx w) :
    Runs (Lasting ctx) p w (fun _ => Sound ctx) (Failed ctx) :=
  (hp.sound h).imp_error fun e _ he => he.failed e

namespace DB

/-! ## The calls -/

theorem flushGeneration_runs (h : Sound ctx w) : Settles ctx flushGeneration w := by
  refine .handle (.ite (fun _ => ?_) fun _ => ?_)
  · exact .runIf (fun _ => publication_runs (publishEnvelopeGroup_runs h)) fun _ => h
  · exact publication_runs (publishGeneration_runs h h.positive h.next _ _)

/-- `flush` behind its check of the staged envelopes. -/
theorem checkedFlush_runs (h : Safe ctx w) : Settles ctx (do
      checkWritable
      checkMaintenanceIdle
      flushGeneration) w :=
  .bind (admitted_runs h) fun _ _ h₁ =>
    .bind (Still.sound_safe keeps_checkMaintenanceIdle h₁) fun _ _ h₂ => flushGeneration_runs h₂

theorem publicationBarrier_runs (h : Safe ctx w) : Settles ctx publicationBarrier w := by
  refine .bind (admitted_runs h) fun _ w₁ h₁ => .handle (.ite (fun _ => ?_) fun _ => ?_)
  · exact .pure h₁
  · have h₂ : Sound ctx { w₁ with handle := { w₁.handle with pendingEnvelopes := [] } } :=
      h₁.advance rfl rfl rfl rfl rfl le_rfl
    refine .modifyHandle (.bind (R := fun _ => Sound ctx) ?_ fun _ w₃ h₃ => .handle ?_)
    · refine .onError (R := Failed ctx) (.ite (fun _ => ?_) fun _ => ?_) fun e w' hw' => ?_
      · exact publishEnvelopeGroupWalFirst_runs h₂
      · exact publishEnvelopeGroup_runs h₂
      · -- the envelopes are staged again before the fence
        refine .modifyHandle (fenceUnlessPreflight_runs ⟨?_, fun he => Sound.safe ?_⟩)
        · exact ⟨hw'.steady.toBase.of_pins rfl rfl rfl, hw'.steady.slots, hw'.steady.durable⟩
        · exact (hw'.sound he).advance rfl rfl rfl rfl rfl le_rfl
    · exact .bind (.runIf (fun _ => checkedFlush_runs h₃.safe) fun _ => h₃) fun _ _ h₄ => .pure h₄

theorem flush_runs (h : Safe ctx w) : Settles ctx flush w := by
  refine .bind (admitted_runs h) fun _ w₁ h₁ => ?_
  refine .bind (Still.sound_safe keeps_checkMaintenanceIdle h₁) fun _ w₂ h₂ => .handle ?_
  refine .ite (fun _ => flushGeneration_runs h₂) fun _ => ?_
  exact .bind (publicationBarrier_runs h₂.safe) fun _ _ h₃ => .pure h₃

theorem installBatch_runs (h : Sound ctx w) (prepared : PreparedBatch) :
    Settles ctx (installBatch prepared) w := by
  have h₁ : Sound ctx { w with handle := { w.handle with
    walBuffer := w.handle.walBuffer ++ prepared.records } } :=
    h.advance rfl rfl rfl rfl rfl le_rfl
  refine .modifyHandle (.handle ?_)
  refine .bind (Still.sound_safe (still_counting.writeWalToDisk _) h₁) fun _ w₂ h₂ =>
    .modifyHandle ?_
  have hs : SameCore w₂ { w₂ with handle := w₂.handle.withBatch prepared false } := ⟨rfl, rfl⟩
  refine .ite (fun _ => ?_) fun _ => flush_runs (h₂.congr hs).safe
  refine .bind (alwaysFenced_runs ((publishEnvelopeGroupWalFirst_runs (h₂.congr hs)).imp_error
    fun _ _ he => he.steady)) fun _ w₃ h₃ => .handle ?_
  exact .runIf (fun _ => flush_runs h₃.safe) fun _ => h₃

theorem commitBatchAt_runs (h : Safe ctx w) (expected : CommitId) (mutations : List Mutation) :
    Settles ctx (commitBatchAt expected mutations) w := by
  refine .bind (admitted_runs h) fun _ w₁ h₁ => ?_
  refine .bind (Still.sound_safe keeps_checkMaintenanceIdle h₁) fun _ w₂ h₂ => ?_
  refine .bind (Still.sound_safe (keeps_checkExpectedCommit _) h₂) fun _ w₃ h₃ => ?_
  refine .runIf (fun _ => .handle (.check (fun _ => h₃.safe) fun _ => ?_)) fun _ => h₃
  exact .bind (Still.sound_safe (still_counting.prepareBatch still_prepareMutation _) h₃)
    fun prepared w₄ h₄ => installBatch_runs h₄ prepared

theorem commitBatch_runs (h : Safe ctx w) (mutations : List Mutation) :
    Settles ctx (commitBatch mutations) w :=
  .handle (commitBatchAt_runs h _ mutations)

theorem close_runs (h : Safe ctx w) :
    RunsTo (Lasting ctx) close w (Safe ctx) := by
  refine .handle (.runIf (fun _ => ?_) fun _ => h)
  refine .bind (flush_runs h) fun _ w₁ h₁ => .disk ?_
  have hwal : Still (Prog.runIf w₁.disk.wal.isSome (Prog.write fun d => { d with wal := none })) :=
    .runIf (.write fun _ => rfl)
  refine .bind (hwal.sound_safe h₁) fun _ w₂ h₂ => .of_modifyHandle ?_
  have h₃ : Sound ctx { w₂ with handle := { w₂.handle with isOpen := false } } :=
    h₂.advance rfl rfl rfl rfl rfl le_rfl
  exact h₃.safe

end DB

end SeerDb
