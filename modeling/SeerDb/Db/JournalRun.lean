/-
# `SeerDb.Db.JournalRun` — the layout of the WAL in every run

Every call of a handle keeps the layout of the WAL, and every open restores it: the
file is cut behind its last commit record, and what is left of it counts no further than
the identities the handle goes on from.
-/
import SeerDb.Db.Journal

namespace SeerDb

open Lib List DB

variable {groups : List WalGroup} {run : List WalRecord} {w w' : World DB Disk} {α : Type}
  {current : Option Manifest} {p : DbM α}

/-- What a handle keeps of the layout: all of it while it can be written through, and the
layout of the file in any case. -/
abbrev WellLogged : World DB Disk → Prop := Guarded LaysOut fun w => w.disk.Journaled

abbrev Loyal {α : Type} (p : DbM α) : Prop := Preserves Disk.Journaled WellLogged p

theorem LaysOut.wellLogged (h : LaysOut w) : WellLogged w := journal_guard.guarded h

theorem WellLogged.congr (h : WellLogged w) (hs : SameJournal w w') : WellLogged w' := by
  refine ⟨h.weak.congr hs.2, fun hopen hfence => ?_⟩
  rw [show w'.handle.isOpen = w.handle.isOpen from congrArg JournalPart.isOpen hs.1] at hopen
  rw [show w'.handle.writeFenced = w.handle.writeFenced from congrArg
    JournalPart.writeFenced hs.1] at hfence
  exact (h.strong hopen hfence).congr hs

theorem Aside.loyal (hp : Aside p) : Loyal p :=
  hp.preserves (fun _ _ h hd => h.weak.congr hd) fun _ _ h hs => WellLogged.congr h hs

/-- The checks of a call let only handles through that have the layout. -/
theorem loyal_of_laysOut
    (h : ∀ w, LaysOut w → Runs Disk.Journaled p w (fun _ => LaysOut) (fun _ => WellLogged)) :
    Loyal (do checkWritable; p) := by
  intro w hw
  refine .bind hw.admitted fun _ w₁ h₁ => ?_
  exact (h w₁ h₁).imp fun _ _ hq => hq.wellLogged

theorem Aside.laysOut_wellLogged (hp : Aside p) (h : LaysOut w) :
    Runs Disk.Journaled p w (fun _ => LaysOut) (fun _ => WellLogged) :=
  (hp.laysOut h).imp_error fun _ _ he => he.wellLogged

theorem loyal_fence : Loyal fence := .modifyHandle fun _ h => journal_guard.fenced h.weak

/-! ## Writing and publishing -/

theorem loyal_writeOne (mutation : Mutation) (context : String) :
    Loyal (writeOne mutation context) := by
  refine loyal_of_laysOut fun w h => ?_
  refine .bind (Aside.laysOut_wellLogged keeps_checkMaintenanceIdle h) fun _ w₂ h₂ => ?_
  refine .lift (fun _ _ => h₂.wellLogged) fun _ _ => ?_
  refine .bind (Aside.laysOut_wellLogged (.bind (keeps_admitWalBytes _) fun _ =>
    aside_ensureWalReservation) h₂) fun _ w₃ h₃ => ?_
  refine .bind (Aside.laysOut_wellLogged (aside_paging.prepareMutation _) h₃) fun _ w₄ h₄ => ?_
  refine .handle (.disk (.lift (fun _ _ => h₄.wellLogged) fun result _ => ?_))
  refine .bind (Aside.laysOut_wellLogged (.runIf aside_admitBlobImage) h₄) fun _ w₅ h₅ => ?_
  refine .bind (Aside.laysOut_wellLogged (aside_storing.applyLive aside_paging _) h₅)
    fun outcome w₆ h₆ => ?_
  refine .lift (fun _ _ => h₆.wellLogged) fun _ _ => ?_
  refine .bind (journalMutation_laysOut h₆ mutation) fun _ w₇ h₇ => ?_
  exact Aside.laysOut_wellLogged (.bind (.modifyHandle fun _ => rfl) fun _ => .pure _) h₇

theorem loyal_admitBatch (expected : CommitId) (mutations : List Mutation) :
    Loyal (admitBatch expected mutations) := by
  refine loyal_of_laysOut fun w h => ?_
  refine .bind (Aside.laysOut_wellLogged keeps_checkMaintenanceIdle h) fun _ w₁ h₁ => ?_
  refine .bind (Aside.laysOut_wellLogged (keeps_checkExpectedCommit _) h₁) fun _ w₂ h₂ => ?_
  refine .check (fun _ => h₂.wellLogged) fun _ => ?_
  refine .bind ((prepareBatch_laysOut h₂ mutations).imp_error fun _ _ he => he.wellLogged)
    fun prepared w₃ ⟨⟨groups, run, h₃⟩, hp⟩ => ?_
  refine .modifyHandle (.modifyHandle (.handle (.modifyHandle (.pure ?_))))
  refine ⟨groups, run ++ prepared.records,
    h₃.extend hp.mutations ?_ h₃.whole hp.count hp.bytes hp.digest rfl rfl⟩
  exact (append_assoc _ _ _).symm

theorem loyal_flush : Loyal DB.flush := fun _ h =>
  (journal_guard.flush h).imp fun _ _ hq => hq.wellLogged

theorem loyal_publicationBarrier : Loyal publicationBarrier := fun _ h =>
  (journal_guard.publicationBarrier h).imp fun _ _ hq => hq.wellLogged

theorem loyal_commitBatchAt (expected : CommitId) (mutations : List Mutation) :
    Loyal (commitBatchAt expected mutations) := fun _ h =>
  (journal_guard.commitBatchAt h expected mutations).imp fun _ _ hq => hq.wellLogged

/-- A closed handle writes nothing any more. -/
theorem loyal_close : Loyal DB.close := by
  refine .bind .handle fun _ => .runIf (.bind loyal_flush fun _ => .bind .disk fun d => ?_)
  intro w h
  refine .bind (R := fun _ w => w.disk.Journaled)
    (.runIf (fun _ => ?_) fun _ => h.weak) fun _ w₁ h₁ => ?_
  · exact .of_write ⟨[], [], Journal.empty⟩ ⟨[], [], Journal.empty⟩
  · exact .of_modifyHandle ⟨h₁, fun hopen => by cases hopen⟩

/-! ## Maintenance -/

/-- A call that stays clear, some way into a longer one. -/
theorem Aside.wellLogged (hp : Aside p) {w₀ : World DB Disk} (h : WellLogged w₀)
    (hs : SameJournal w₀ w) : Runs Disk.Journaled p w (fun _ => SameJournal w₀)
    (fun _ => WellLogged) :=
  (hp w).mono (fun _ hd => h.weak.congr (hd.trans hs.2)) (fun _ _ hs' => hs.trans hs')
    fun _ _ hs' => h.congr (hs.trans hs')

/-- A maintenance generation takes the next generation id. -/
theorem publishMaintenanceFrame_wellLogged {m : Manifest} {w₀ : World DB Disk} (h : WellLogged w₀)
    (hs : SameJournal w₀ w) (hm : m.generationId = w₀.handle.nextGenerationId) :
    RunsTo Disk.Journaled (publishMaintenanceFrame m) w WellLogged := by
  have hkeep : Aside (do
      publishAuthorityFrame m
      finishSegmentedBlobPublicationCleanup
      completeGeneration) := .bind (aside_recording.publishAuthorityFrame _) fun _ =>
    .bind aside_storing.finishSegmentedBlobPublicationCleanup fun _ =>
      aside_paging.completeGeneration
  have hsplit : publishMaintenanceFrame m = (do
      (do
        publishAuthorityFrame m
        finishSegmentedBlobPublicationCleanup
        completeGeneration)
      Prog.modifyHandle fun db => { db with
        generationId := m.generationId
        nextGenerationId := m.generationId + 1
          }) := by simp only [publishMaintenanceFrame, bind_assoc]
  rw [hsplit]
  refine .bind (Aside.wellLogged hkeep h hs) fun _ w₁ hs₁ => .of_modifyHandle ?_
  refine ⟨h.weak.congr hs₁.2, fun hopen hfence => ?_⟩
  obtain ⟨groups, run, h₁⟩ := (h.congr hs₁).strong hopen hfence
  refine ⟨groups, run, h₁.advance rfl le_rfl ?_⟩
  rw [show w₁.handle.nextGenerationId = w₀.handle.nextGenerationId from congrArg
    JournalPart.nextGenerationId hs₁.1]
  exact hm ▸ Nat.le_succ _

theorem loyal_publishBlobRewriteGeneration : Loyal publishBlobRewriteGeneration := by
  intro w h
  refine .bind (Aside.wellLogged keeps_latestManifest h ⟨rfl, rfl⟩) fun current w₁ hs₁ => ?_
  refine .handle (.disk (.modifyHandle ?_))
  refine .bind (Aside.wellLogged (aside_storing.dropBackup _) h ⟨hs₁.1, hs₁.2⟩) fun _ w₂ hs₂ => ?_
  refine .bind (Aside.wellLogged (aside_storing.setAside _) h hs₂) fun _ w₃ hs₃ => ?_
  have hframe : ∀ w₄, SameJournal w w₄ → RunsTo Disk.Journaled (do
      publishMaintenanceFrame (w₁.handle.maintenanceManifest current)
      Prog.runIf (!w₁.handle.blobs.segmented && w₁.disk.blob.isSome)
        (Prog.write fun d => { d with blobBackup := none })) w₄ WellLogged := by
    intro w₄ hs₄
    refine .bind (publishMaintenanceFrame_wellLogged h hs₄
      (congrArg JournalPart.nextGenerationId hs₁.1)) fun _ w₅ h₅ => ?_
    exact Aside.loyal (aside_storing.dropBackup _) w₅ h₅
  refine .ite (fun _ => ?_) fun _ => ?_
  · exact .bind (Aside.wellLogged aside_storing.writeBlobSegments h hs₃) fun _ w₄ hs₄ =>
      hframe w₄ hs₄
  · exact .bind (Aside.wellLogged aside_storing.writeBlobImage h hs₃) fun _ w₄ hs₄ => hframe w₄ hs₄

theorem loyal_publishCompactionGeneration : Loyal publishCompactionGeneration := by
  intro w h
  refine .bind (Aside.wellLogged keeps_latestManifest h ⟨rfl, rfl⟩) fun current w₁ hs₁ => .handle ?_
  refine .bind (Aside.wellLogged (.runIf aside_storing.stampSegments) h hs₁) fun _ w₂ hs₂ => ?_
  exact publishMaintenanceFrame_wellLogged h hs₂ (congrArg JournalPart.nextGenerationId hs₁.1)

theorem journal_maintaining : Maintaining DB.journal Disk.journal Disk.Journaled WellLogged :=
  ⟨fun _ _ => rfl, aside_paging, aside_storing, aside_recording, fun _ _ => rfl,
    Aside.loyal, loyal_flush, loyal_publishBlobRewriteGeneration,
      loyal_publishCompactionGeneration, loyal_fence⟩

/-! ## Pins -/

theorem aside_releaseRoot (snapshotId : SnapshotId) : Aside (releaseRoot snapshotId) :=
  aside_pinning.releaseRoot aside_paging.engine snapshotId

theorem aside_registerManifest (manifest : Manifest) (deduplicate ephemeral walk : Bool) :
    Aside (registerManifest manifest deduplicate ephemeral walk) :=
  aside_pinning.registerManifest aside_paging manifest deduplicate ephemeral walk

theorem loyal_discard (hp : Loyal p) : Loyal (discard p) := .bind hp fun _ => .pure _

theorem loyal_retainCommit (commitId : CommitId) : Loyal (retainCommit commitId) := by
  refine .bind (Aside.loyal keeps_checkWritable) fun _ => .bind loyal_flush fun _ =>
    .bind .handle fun db => ?_
  cases db.retainedSnapshotId commitId with
  | some snapshotId => exact .pure _
  | none =>
    cases db.manifestHistory.findCommit commitId with
    | none => exact .throw _
    | some manifest => exact Aside.loyal (aside_registerManifest _ _ _ _)

theorem loyal_retainCurrent (copied : Bool) : Loyal (retainCurrent copied) := by
  refine .bind (Aside.loyal keeps_checkWritable) fun _ => .bind loyal_flush fun _ =>
    .bind (.check _ _) fun _ =>
    .bind .handle fun db => ?_
  cases db.manifestHistory.latest with
  | none => exact .throw _
  | some manifest => exact Aside.loyal (aside_registerManifest _ _ _ _)

theorem loyal_beginBatchTransaction : Loyal beginBatchTransaction := by
  refine .bind (Aside.loyal keeps_checkWritable) fun _ => .bind loyal_flush fun _ =>
    .bind .handle fun db => ?_
  cases db.manifestHistory.latest with
  | none => exact .throw _
  | some manifest => exact .bind (Aside.loyal (aside_registerManifest _ _ _ _)) fun _ => .pure _

/-- **Every call keeps the layout.** -/
theorem DbCall.run_loyal (call : DbCall) : Loyal call.run := by
  cases call with
  | put key value => exact .bind (loyal_writeOne _ _) fun _ => .pure _
  | delete key => exact loyal_discard (.bind (loyal_writeOne _ _) fun _ => .pure _)
  | commitBatch mutations => exact .bind .handle fun _ => loyal_commitBatchAt _ _
  | commitBatchAt expected mutations => exact loyal_commitBatchAt _ _
  | admitBatch expected mutations => exact loyal_discard (loyal_admitBatch _ _)
  | publicationBarrier => exact loyal_discard loyal_publicationBarrier
  | flush => exact loyal_flush
  | close => exact loyal_close
  | compact limit => exact journal_maintaining.compactWithLimit _
  | gc => exact loyal_discard journal_maintaining.gc
  | vacuum =>
    exact .bind journal_maintaining.writable fun _ =>
      loyal_discard (journal_maintaining.advanceVacuum _)
  | vacuumStep maxEntries =>
    exact loyal_discard (.bind journal_maintaining.writable fun _ => .bind (.check _ _) fun _ =>
      journal_maintaining.advanceVacuum _)
  | cancelVacuum =>
    exact loyal_discard (.bind journal_maintaining.writable fun _ => .bind .handle fun _ =>
      .bind (journal_maintaining.setVacuum _) fun _ => .pure _)
  | pruneHistory => exact journal_maintaining.pruneHistory
  | retainCommit commitId => exact loyal_discard (loyal_retainCommit _)
  | retainCurrentCommit =>
    exact loyal_discard (.bind (Aside.loyal keeps_checkWritable) fun _ => .bind loyal_flush fun _ =>
      .bind .handle fun _ => .bind (.lift _) fun _ => Aside.loyal (aside_registerManifest _ _ _ _))
  | retainCurrent copied => exact loyal_discard (loyal_retainCurrent _)
  | releaseSnapshot snapshotId =>
    exact .bind (Aside.loyal keeps_checkWritable) fun _ => Aside.loyal (aside_releaseRoot _)
  | beginBatchTransaction => exact loyal_discard loyal_beginBatchTransaction
  | releaseRoot snapshotId => exact Aside.loyal (aside_releaseRoot _)

theorem aside_beginReadView : Aside beginReadView :=
  .bind .handle fun _ => .bind (.lift _) fun _ => .bind keeps_checkMaintenanceIdle fun _ =>
    .bind (.lift _) fun _ =>
    .bind (aside_pinning.insertEphemeral _ _) fun _ => .bind aside_paging.refreshProtection fun _ =>
    .bind (.modifyHandle fun _ => rfl) fun _ => .bind .disk fun _ =>
    .bind (.onError (.lift _) fun _ => .bind (aside_releaseRoot _) fun _ =>
      aside_pinning.dropTable aside_paging.engine _) fun _ => .pure _

/-! ## Opening -/

/-- The commit is at or below the authority. -/
def Behind (current : Option Manifest) (commit : CommitRecord) : Prop :=
  commit.commitId ≤ (current.map Manifest.commitId).getD 0 ∧
    commit.generationId ≤ (current.map Manifest.generationId).getD 0

/-- A run of mutations is only collected. -/
theorem analyzeWal_run {current : Option Manifest} {rest : List WalRecord}
    {analysis : WalAnalysis} :
    ∀ {ms : List WalRecord}, (∀ r ∈ ms, r.IsMutation) → ∀ (offset : Nat) (pending : List WalRecord),
      analyzeWal current (ms ++ rest) offset pending analysis =
        analyzeWal current rest (offset + LogFile.bytes WalRecord.size ms) (pending ++ ms) analysis
  | [], _, offset, pending => by simp
  | .commit c :: ms, h, _, _ => absurd (h _ (.head _)) id
  | .mutation t payload :: ms, h, offset, pending => by
    rw [cons_append, analyzeWal, analyzeWal_run (fun r hr => h r (.tail _ hr))]
    rw [LogFile.bytes_cons, Nat.add_assoc, append_assoc, singleton_append]

/-- What the analysis says of a journal: where its last group ends, and that without an unpublished
commit all of it is behind the authority. -/
theorem analyzeWal_journal {analysis : WalAnalysis} (hrun : ∀ r ∈ run, r.IsMutation) :
    ∀ {groups : List WalGroup}, (∀ g ∈ groups, g.Closed) → ∀ {offset : Nat} {unpublished : Bool},
      analyzeWal current (groups.flatMap WalGroup.records ++ run) offset [] ⟨offset, unpublished⟩ =
        .ok analysis →
      analysis.lastCommitEnd = offset + LogFile.bytes WalRecord.size
        (groups.flatMap WalGroup.records) ∧
      (analysis.hasUnpublishedCommit = false → unpublished = false ∧ ∀ g ∈ groups,
        Behind current g.commit) := by
  intro groups
  induction groups with
  | nil =>
    intro _ offset unpublished h
    have hrest := @analyzeWal_run current [] ⟨offset, unpublished⟩ run hrun offset []
    rw [append_nil] at hrest
    rw [flatMap_nil, nil_append, hrest, analyzeWal] at h
    cases h
    exact ⟨rfl, fun hu => ⟨hu, by simp⟩⟩
  | cons g groups ih =>
    intro hclosed offset unpublished h
    have hg := hclosed g (.head _)
    rw [flatMap_cons, append_assoc, WalGroup.records, append_assoc, analyzeWal_run hg.mutations,
      singleton_append] at h
    simp only [analyzeWal] at h
    split at h
    · cases h
    split at h
    · cases h
    rename_i ahead hahead
    obtain ⟨hend, hbehind⟩ := ih (fun a ha => hclosed a (.tail _ ha)) h
    refine ⟨?_, fun hu => ?_⟩
    · rw [hend, flatMap_cons, LogFile.bytes_append, WalGroup.records, LogFile.bytes_append]
      simp [Nat.add_assoc]
    · obtain ⟨hnone, hrest⟩ := hbehind hu
      obtain ⟨hu, rfl⟩ := Bool.or_eq_false_iff.mp hnone
      refine ⟨hu, forall_mem_cons.mpr ⟨?_, hrest⟩⟩
      cases current with
      | none =>
        simp only [Except.ok.injEq, Bool.or_eq_false_iff, decide_eq_false_iff_not, not_lt,
          Nat.le_zero] at hahead
        exact ⟨hahead.2.le, hahead.1.le⟩
      | some current => exact aheadOf_false hahead

theorem recoverFromWal_run {current : Option Manifest} {rest : List WalRecord}
    {last : Option (CommitRecord × Nat)}
    {c : Candidate} : ∀ {ms : List WalRecord}, (∀ r ∈ ms, r.IsMutation) →
      ∀ (offset : Nat) (pending : List WalRecord),
        recoverFromWal current (ms ++ rest) offset pending last c =
        recoverFromWal current rest (offset + LogFile.bytes WalRecord.size ms)
          (pending ++ ms) last c
  | [], _, offset, pending => by simp
  | .commit _ :: ms, h, _, _ => absurd (h _ (.head _)) id
  | .mutation t payload :: ms, h, offset, pending => by
    rw [cons_append, recoverFromWal, recoverFromWal_run (fun r hr => h r (.tail _ hr))]
    rw [LogFile.bytes_cons, Nat.add_assoc, append_assoc, singleton_append]

/-- Replay ends with the commit of the greatest identities, or all of the journal is behind the
authority. -/
theorem recoverFromWal_journal (hrun : ∀ r ∈ run, r.IsMutation)
    {last' : Option (CommitRecord × Nat)} {c' : Candidate} :
    ∀ {groups : List WalGroup}, (∀ g ∈ groups, g.Closed) →
      (groups.Pairwise fun a b => a.commit.Before b.commit) →
      ∀ {offset : Nat} {last : Option (CommitRecord × Nat)} {c : Candidate},
      recoverFromWal current (groups.flatMap WalGroup.records ++ run) offset [] last c =
        .ok (last', c') →
      (last' = last ∧ ∀ g ∈ groups, Behind current g.commit) ∨ ∃ top ∈ groups, ∃ end_,
        last' = some (top.commit, end_) ∧ ∀ g ∈ groups, g.commit.commitId ≤ top.commit.commitId ∧
          g.commit.generationId ≤ top.commit.generationId := by
  intro groups
  induction groups with
  | nil =>
    intro _ _ offset last c h
    have hrest := @recoverFromWal_run current [] last c run hrun offset []
    rw [append_nil] at hrest
    rw [flatMap_nil, nil_append, hrest, recoverFromWal] at h
    cases h
    exact .inl ⟨rfl, by simp⟩
  | cons g groups ih =>
    intro hclosed hinc offset last c h
    have hg := hclosed g (.head _)
    obtain ⟨hbefore, hinc⟩ := pairwise_cons.mp hinc
    have hclosed' : ∀ a ∈ groups, a.Closed := fun a ha => hclosed a (.tail _ ha)
    rw [flatMap_cons, append_assoc, WalGroup.records, append_assoc, recoverFromWal_run hg.mutations,
      singleton_append] at h
    simp only [recoverFromWal] at h
    have htop : (∃ top ∈ groups, ∃ end_, last' = some (top.commit, end_) ∧ ∀ a ∈ groups,
        a.commit.commitId ≤ top.commit.commitId ∧ a.commit.generationId ≤ top.commit.generationId) →
        ∃ top ∈ g :: groups, ∃ end_, last' = some (top.commit, end_) ∧ ∀ a ∈ g :: groups,
        a.commit.commitId ≤ top.commit.commitId ∧
          a.commit.generationId ≤ top.commit.generationId := by
      rintro ⟨top, hmem, end_, heq, hle⟩
      refine ⟨top, .tail _ hmem, end_, heq, forall_mem_cons.mpr ⟨?_, hle⟩⟩
      exact ⟨(hbefore top hmem).1.le, (hbefore top hmem).2.le⟩
    split at h
    · cases h
    split at h
    · cases h
    · rename_i hahead
      -- skipped: the group is behind the authority
      rcases ih hclosed' hinc h with ⟨heq, hbehind⟩ | hex
      · refine .inl ⟨heq, forall_mem_cons.mpr ⟨?_, hbehind⟩⟩
        cases current with
        | none => cases hahead
        | some current => exact aheadOf_false hahead
      · exact .inr (htop hex)
    · rename_i hahead
      split at h
      · cases h
      rcases ih hclosed' hinc h with ⟨heq, hbehind⟩ | hex
      · -- nothing after it is behind the authority, so nothing comes after it
        refine .inr ⟨g, .head _, _, heq, forall_mem_cons.mpr ⟨⟨le_rfl, le_rfl⟩, fun a ha => ?_⟩⟩
        have hlt : (current.map Manifest.commitId).getD 0 < a.commit.commitId := by
          cases current with
          | none => exact (Nat.zero_le _).trans_lt (hbefore a ha).1
          | some current => exact (aheadOf_true hahead).1.trans (hbefore a ha).1
        exact absurd (hbehind a ha).1 (not_le.mpr hlt)
      · exact .inr (htop hex)

/-- The WAL file is cut behind its last group. -/
def Disk.Cut (d : Disk) : Prop := ∃ groups, Journal d.walFile.records groups [] ∧ d.walFile.torn = 0

theorem Disk.Cut.journaled {d : Disk} (h : d.Cut) : d.Journaled := by
  obtain ⟨groups, h, -⟩ := h
  exact ⟨groups, [], h⟩

theorem reconcileWal_cut (h : w.disk.Journaled) (current : Option Manifest) :
    Runs Disk.Journaled (reconcileWal current) w (fun _ w' => w'.disk.Cut)
      (fun _ w' => w'.disk.Journaled) := by
  refine .disk ?_
  obtain ⟨groups, run, hj⟩ := h
  rcases hwal : w.disk.wal with _ | wal
  · refine .pure ⟨[], ?_, ?_⟩
    all_goals rw [Disk.walFile, hwal]
    · exact Journal.empty
    · rfl
  have hfile : w.disk.walFile = wal := by rw [Disk.walFile, hwal]; rfl
  rw [hfile] at hj
  refine .lift (fun _ _ => ⟨groups, run, hfile ▸ hj⟩) fun analysis ha => ?_
  rw [WalFile.analyze, hj.records_eq] at ha
  obtain ⟨hend, -⟩ := analyzeWal_journal hj.mutations hj.closed ha
  rw [Nat.zero_add] at hend
  have hgroups : Journal (groups.flatMap WalGroup.records) groups [] :=
    ⟨(append_nil _).symm, hj.closed, by simp, hj.increasing⟩
  refine .runIf (fun _ => ?_) fun hshort => ?_
  · have hcut := LogFile.truncate_bytes (l := wal) WalRecord.size_pos hj.records_eq
    rw [← hend] at hcut
    have hdisk : Disk.Cut { w.disk with
      wal := some (wal.truncate WalRecord.size analysis.lastCommitEnd).sync } := by
      refine ⟨groups, ?_, ?_⟩
      · rw [Disk.walFile_some, LogFile.sync_records, hcut]
        exact hgroups
      · rw [Disk.walFile_some, LogFile.sync_torn, hcut]
    exact .of_write hdisk.journaled hdisk
  · -- nothing follows the last group
    simp only [decide_eq_false_iff_not, not_lt, LogFile.length, hend] at hshort
    rw [hj.records_eq, LogFile.bytes_append] at hshort
    have hrun : run = [] := by
      cases run with
      | nil => rfl
      | cons r run =>
        have := WalRecord.size_pos r
        rw [LogFile.bytes_cons] at hshort
        omega
    refine ⟨groups, ?_, ?_⟩
    · rw [hfile, hj.records_eq, hrun, append_nil]
      exact hgroups
    · rw [hfile]
      omega

theorem Aside.journaled (hp : Aside p) (h : w.disk.Journaled) :
    RunsTo Disk.Journaled p w (fun w' => w'.disk.Journaled) :=
  hp.runs (fun _ hd => h.congr hd) fun _ hs => h.congr hs.2

theorem aside_loadRetention (current : Option Manifest) : Aside (loadRetention current) :=
  .bind .disk fun _ => .bind (.runIf (.write fun _ => rfl)) fun _ => .bind .disk fun _ =>
    .bind (.lift _) fun _ =>
    .pure _

theorem recoverWal_journal {d : Disk} {engine engine' : StorageEngine}
    {blobs blobs' : BlobManager} {recovery : Option RecoverySummary}
    (hj : Journal d.walFile.records groups [])
    (h : recoverWal d current engine blobs = .ok (engine', blobs', recovery)) :
    ((∀ g ∈ groups, Behind current g.commit) ∧ ∀ r, recovery = some r → r.lastCommit = none) ∨
      ∃ r top, recovery = some r ∧ r.lastCommit = some top ∧
        ∀ g ∈ groups, g.commit.commitId ≤ top.commitId ∧
          g.commit.generationId ≤ top.generationId := by
  rw [recoverWal] at h
  cases hwal : d.wal with
  | none =>
    rw [hwal] at h
    cases h
    rw [Disk.walFile, hwal] at hj
    have hnil : groups = [] := by
      cases groups with
      | nil => rfl
      | cons g groups => exact absurd hj.records_eq (by simp [WalGroup.records, LogFile.empty])
    exact .inl ⟨by simp [hnil], fun _ hr => by cases hr⟩
  | some wal =>
    have hfile : d.walFile = wal := by rw [Disk.walFile, hwal]; rfl
    rw [hfile] at hj
    simp only [hwal, WalFile.analyze, hj.records_eq] at h
    split at h
    · cases h
    rename_i analysis ha
    obtain ⟨-, hbehind⟩ := analyzeWal_journal hj.mutations hj.closed ha
    split at h
    · rename_i hnone
      cases h
      exact .inl ⟨(hbehind (by simpa using hnone)).2, fun _ hr => by cases hr⟩
    split at h
    · cases h
    split at h
    · cases h
    rename_i last c hrec
    cases h
    rcases recoverFromWal_journal hj.mutations hj.closed hj.increasing hrec with ⟨rfl,
      hall⟩ | ⟨top, -, end_, rfl, hle⟩
    · exact .inl ⟨hall, fun r hr => by cases hr; rfl⟩
    · exact .inr ⟨_, top.commit, rfl, rfl, hle⟩

/-- Recovery publishes the commit that closes the last group. -/
theorem publishGeneration_recovered {commit : CommitRecord} (h : Sealed groups w)
    (hids : ∀ g ∈ groups, g.commit.commitId ≤ commit.commitId ∧
      g.commit.generationId ≤ commit.generationId)
    (offset : Nat) : Runs Disk.Journaled (publishGeneration commit false offset) w
      (fun _ => LaysOut) (fun _ w' => w'.disk.Journaled) := by
  have sealed : ∀ {α : Type} {p : DbM α} {w : World DB Disk}, Aside p → Sealed groups w →
      Runs Disk.Journaled p w (fun _ => Sealed groups)
        (fun _ w' => w'.disk.Journaled) := fun hp h =>
    (Aside.sealed hp h).imp_error fun _ _ he => he.journaled
  refine .handle (.bind (sealed aside_paging.refreshIfNeeded h) fun _ w₁ h₁ => ?_)
  refine .bind (R := fun _ => Sealed groups) ?_ fun _ w₂ h₂ => ?_
  · have hj : Journal (w₁.disk.walFile.records ++ w₁.handle.walBuffer) groups [] := by
      rw [h₁.buffer, append_nil]
      exact h₁.journal
    refine (writeWalToDisk_runs h₁.whole ⟨groups, [], hj⟩ false).conseq ?_ fun _ _ he => he
    rintro _ w' ⟨hh, hrecords, hwhole⟩
    exact ⟨by rw [hrecords]; exact hj, hwhole, by rw [hh]⟩
  refine .bind (sealed (aside_checkCapacity _) h₂) fun _ w₃ h₃ => ?_
  refine .bind (sealed (aside_paging.modifyEngine _) h₃) fun _ w₄ h₄ => ?_
  refine .bind (sealed aside_flushPages h₄) fun _ w₅ h₅ => .handle ?_
  refine .bind (sealed (aside_writeBlobArtifacts _ _) h₅) fun _ w₆ h₆ => ?_
  exact (frame_laysOut h₆ hids offset _).imp_error fun _ _ he => he.1

/-- A new handle goes on from the authority. -/
theorem Sealed.logged (h : Sealed groups w)
    (hcount : w.handle.pendingMutations = 0) (hbytes : w.handle.pendingWalBytes = 0)
    (hdigest : w.handle.pendingDigest = 0)
    (hc : w.handle.nextCommitId = (current.map Manifest.commitId).getD 0 + 1)
    (hg : w.handle.nextGenerationId = (current.map Manifest.generationId).getD 0 + 1)
    (hbehind : ∀ g ∈ groups, Behind current g.commit) : Logged groups [] w where
  journal := by
    rw [h.buffer, append_nil]
    exact h.journal
  whole := h.whole
  count := hcount
  bytes := hbytes
  digest := hdigest
  next := fun g hmem => by
    rw [hc, hg]
    exact ⟨Nat.lt_succ_of_le (hbehind g hmem).1, Nat.lt_succ_of_le (hbehind g hmem).2⟩

/-- **A handle that opens has the layout**, and an open that fails leaves the file with it. -/
theorem openDb_laysOut (h : w.disk.Journaled) (options : Options) :
    Runs Disk.Journaled (openDb options) w (fun _ => LaysOut) (fun _ w' => w'.disk.Journaled) := by
  refine .lift (fun _ _ => h) fun _ _ => .disk (.lift (fun _ _ => h) fun catalog _ => ?_)
  refine .bind (Aside.journaled (aside_loadRetention _) h) fun retention w₁ h₁ => ?_
  refine .write h₁ ?_
  refine .bind (Aside.journaled (aside_storing.recoverBlobRewriteBackup _) h₁) fun _ w₂ h₂ => ?_
  refine .disk (.lift (fun _ _ => h₂) fun blobs _ => ?_)
  refine .bind (Aside.journaled (aside_recording.loadMetadata _) h₂)
    fun (pmt, allocator) w₃ h₃ => ?_
  refine .lift (fun _ _ => h₃) fun engine _ => ?_
  refine .bind (reconcileWal_cut h₃ _) fun _ w₄ h₄ => .disk (.lift (fun _ _ => h₄.journaled) ?_)
  rintro ⟨engine', blobs', recovery⟩ hrec
  obtain ⟨groups, hj, hwhole⟩ := h₄
  refine .modifyHandle ?_
  generalize hw₅ :
    ({ w₄ with handle := assemble options catalog retention engine' blobs' recovery } :
    World DB Disk) = w₅
  have h₅ : Sealed groups w₅ := by
    subst hw₅
    exact ⟨hj, hwhole, rfl⟩
  have hkeep : Aside (Prog.runIf (catalog.currentManifest.isNone && w₄.disk.wal.isNone)
    appendBootstrapFrame) :=
    .runIf aside_recording.appendBootstrapFrame
  refine .bind (R := fun _ => SameJournal w₅) ((hkeep w₅).mono (fun _ hd => h₅.journaled.congr hd)
    (fun _ _ hs => hs) fun _ _ hs => h₅.journaled.congr hs.2) fun _ w₆ hs => ?_
  have h₆ := h₅.congr hs
  rcases recoverWal_journal hj hrec with ⟨hbehind, hnone⟩ | ⟨r, top, rfl, htop, hids⟩
  · -- nothing to publish: the counters of the new handle describe the empty run
    have hlogged : Logged groups [] w₆ := by
      refine Logged.congr ?_ hs
      subst hw₅
      exact h₅.logged rfl rfl rfl rfl rfl hbehind
    cases recovery with
    | none => exact .pure ⟨groups, [], hlogged⟩
    | some r =>
      rw [publishRecovered, hnone r rfl]
      refine .of_write ⟨[], [], Journal.empty⟩ ⟨[], [], ?_⟩
      refine ⟨?_, rfl, hlogged.count, hlogged.bytes, hlogged.digest, by simp⟩
      rw [h₆.buffer]
      exact Journal.empty
  · rw [publishRecovered, htop]
    exact .onError (publishGeneration_recovered h₆ hids _) fun _ _ he => .of_modifyHandle he

/-! ## Every run -/

theorem Disk.Journaled.crash {d d' : Disk} (h : d.Journaled) (hc : Disk.Crash d d') :
    d'.Journaled := by
  have hw := hc.wal
  cases hwal : d.wal with
  | none =>
    rw [hwal] at hw
    cases hwal' : d'.wal with
    | none =>
      rw [Disk.Journaled, Disk.walFile, hwal']
      exact ⟨[], [], Journal.empty⟩
    | some wal' => rw [hwal'] at hw; exact hw.elim
  | some wal =>
    rw [hwal] at hw
    cases hwal' : d'.wal with
    | none => rw [hwal'] at hw; exact hw.elim
    | some wal' =>
      rw [hwal'] at hw
      obtain ⟨k, t, -, -, -, rfl⟩ := hw
      rw [Disk.Journaled, Disk.walFile, hwal] at h
      rw [Disk.Journaled, Disk.walFile, hwal']
      have hwhole : ∃ groups run, Journal (wal.records.take k ++ wal.records.drop k)
        groups run := by
        rw [take_append_drop]
        exact h
      exact Journal.of_append hwhole

namespace Client

open Lib.Prog (handle modifyHandle)

/-- The handle of the process keeps the layout. -/
def Logs (c : Client) (d : Disk) : Prop := WellLogged ⟨c.db, d, []⟩

variable {c : Client} {d : Disk}

theorem Logs.of_wellLogged {db : DB} {trace : List Disk} (hdb : c.db = db)
    (h : WellLogged ⟨db, d, trace⟩) :
    Logs c d := by
  subst hdb
  exact WellLogged.congr h ⟨rfl, rfl⟩

theorem Logs.of_noHandle (hdb : c.db = noHandle) (h : d.Journaled) : Logs c d := by
  refine ⟨h, fun hopen => ?_⟩
  rw [hdb] at hopen
  cases hopen

/-- A loyal call on the handle. -/
theorem onDb_logs (hp : Loyal p) {w : World Client Disk} (h : Logs w.handle w.disk) :
    RunsTo Disk.Journaled (onDb p) w (fun w' => Logs w'.handle w'.disk) :=
  onDb_runs ((hp ⟨w.handle.db, w.disk, w.trace⟩ (WellLogged.congr h ⟨rfl, rfl⟩)).conseq
    (fun _ _ hq => .of_wellLogged rfl hq) fun _ _ he => .of_wellLogged rfl he)

/-- One command. -/
theorem Logs.step (h : Logs c d) (i : Command) : RunsTo Disk.Journaled (Client.run i) ⟨c, d, []⟩
    (fun w => Logs w.handle w.disk) := by
  cases i with
  | call call => exact onDb_logs call.run_loyal h
  | beginReadView =>
    refine .bind (onDb_logs (Aside.loyal aside_beginReadView) h) fun v w₁ h₁ => .of_modifyHandle ?_
    exact .of_wellLogged rfl h₁
  | dropReadView index =>
    refine .handle ?_
    cases hv : c.views[index]? with
    | none => exact .pure h
    | some v =>
      exact .modifyHandle (onDb_logs (Aside.loyal
        (aside_pinning.dropReadView aside_paging.engine v)) (.of_wellLogged rfl h))
  | dropStaleView index =>
    refine .handle ?_
    cases hv : c.stale[index]? with
    | none => exact .pure h
    | some v =>
      exact .modifyHandle (onDb_logs (Aside.loyal (aside_pinning.dropSidecar _))
        (.of_wellLogged rfl h))
  | reopen options =>
    refine .modifyHandle (.onError (R := fun _ w => w.disk.Journaled)
      (onDb_runs ?_) fun e w₁ h₁ => ?_)
    · refine (openDb_laysOut (w := ⟨noHandle, d, []⟩) h.weak options).imp fun _ _ hq => ?_
      exact .of_wellLogged rfl hq.wellLogged
    · exact .of_modifyHandle (.of_noHandle rfl h₁)

theorem logs_of_reached {allowed : Command → Client → Disk → Prop}
    (h : (system allowed).Reached c d) : Logs c d := by
  refine System.From.invariant (D := Disk.Journaled) ?_ (fun i _ _ _ hi => hi.step i)
    (fun _ _ hi => hi.weak) (fun _ _ hd hc => .of_noHandle rfl (hd.crash hc)) h
  rintro _ _ ⟨rfl, space, rfl⟩
  exact .of_noHandle rfl ⟨[], [], Journal.empty⟩

/-- **The layout of the WAL.**  Whatever a process does, and whatever was refused or crashed
before: while its handle can be written through, the WAL file and the buffer behind it are
closed groups with increasing identities and one open run, and the three counters of the
handle measure that run. -/
theorem wal_layout (h : (system anyCommand).Reached c d) (hopen : c.db.isOpen = true)
    (hfence : c.db.writeFenced = false) : ∃ groups run,
      Journal (d.walFile.records ++ c.db.walBuffer) groups run ∧ d.walFile.torn = 0 ∧
      c.db.pendingMutations = run.length ∧ c.db.pendingWalBytes = LogFile.bytes WalRecord.size run ∧
      c.db.pendingDigest = digestRecords run := by
  obtain ⟨groups, run, hl⟩ := (logs_of_reached h).strong hopen hfence
  exact ⟨groups, run, hl.journal, hl.whole, hl.count, hl.bytes, hl.digest⟩

/-- A commit, a write behind it, a batch that is refused and one that is staged. -/
def mixedWrites : List Command :=
  [.reopen { Options.default with walFirstCommits := true }, .call (.put [1] [7]), .call .flush,
    .call (.put [2] [8]), .call (.admitBatch 0 [.delete [2]]),
      .call (.admitBatch 1 [.put [3] [9], .delete [1]])]

theorem wal_layout_mixedWrites :
    let s := (system anyCommand).runAll mixedWrites start (Disk.empty [])
    s.1.db.pendingMutations = 3 ∧ s.2.walFile.records.length = 3 ∧ ∃ groups run,
      Journal (s.2.walFile.records ++ s.1.db.walBuffer) groups run ∧ s.2.walFile.torn = 0 ∧
      s.1.db.pendingMutations = run.length ∧ s.1.db.pendingWalBytes =
        LogFile.bytes WalRecord.size run ∧
      s.1.db.pendingDigest = digestRecords run :=
  ⟨by decide +kernel, by decide +kernel,
    wal_layout (System.From.runAll (fun _ _ _ _ => trivial) (.base ⟨rfl, [], rfl⟩))
    (by decide +kernel) (by decide +kernel)⟩

end Client

end SeerDb
