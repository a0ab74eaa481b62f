/-
# `SeerDb.Db.Journal` — the layout of the WAL

Five paths append to the WAL: single writes, batches, staged batches, the commit record
of a publication and that of a WAL-first acknowledgement; a publication may remove the
file.  All of them keep one layout: closed groups with increasing identities, then the
run of mutations that the counters of the handle describe.

`Journal` is the layout, `Logged` relates it to a handle.  Whatever prefix of the file a
crash leaves has it too, and opening the database cuts it behind the last group.
-/
import SeerDb.Db.Guard

namespace SeerDb

open Lib List

/-! ## Groups -/

def WalRecord.IsMutation : WalRecord → Prop
  | .mutation _ _ => True
  | .commit _ => False

/-- A run of mutations and the commit record that closes it. -/
structure WalGroup where
  mutations : List WalRecord
  commit : CommitRecord
deriving DecidableEq, Repr

namespace WalGroup

def records (g : WalGroup) : List WalRecord := g.mutations ++ [.commit g.commit]

/-- The commit record counts and digests the run before it. -/
structure Closed (g : WalGroup) : Prop where
  mutations : ∀ r ∈ g.mutations, r.IsMutation
  count : g.commit.mutationCount = g.mutations.length
  digest : g.commit.digest = digestRecords g.mutations

end WalGroup

/-- Both identities of the first commit are smaller. -/
def CommitRecord.Before (a b : CommitRecord) : Prop :=
  a.commitId < b.commitId ∧ a.generationId < b.generationId

/-- Closed groups with increasing identities, followed by an open run. -/
structure Journal (records : List WalRecord) (groups : List WalGroup)
    (run : List WalRecord) : Prop where
  records_eq : records = groups.flatMap WalGroup.records ++ run
  closed : ∀ g ∈ groups, g.Closed
  mutations : ∀ r ∈ run, r.IsMutation
  increasing : groups.Pairwise fun a b => a.commit.Before b.commit

namespace Journal

variable {records : List WalRecord} {groups : List WalGroup} {run : List WalRecord}

theorem empty : Journal [] [] [] := ⟨rfl, by simp, by simp, List.Pairwise.nil⟩

variable {more : List WalRecord} {E : Error → World DB Disk → Prop}

theorem extend (h : Journal records groups run) (hm : ∀ r ∈ more, r.IsMutation) :
    Journal (records ++ more) groups (run ++ more) := by
  refine ⟨by rw [h.records_eq, append_assoc], h.closed, fun r hr => ?_, h.increasing⟩
  rcases mem_append.mp hr with hr | hr
  · exact h.mutations r hr
  · exact hm r hr

/-- A commit record closes the open run. -/
theorem close (h : Journal records groups run) {commit : CommitRecord}
    (hcount : commit.mutationCount = run.length) (hdigest : commit.digest = digestRecords run)
    (hids : ∀ g ∈ groups, g.commit.Before commit) :
    Journal (records ++ [.commit commit]) (groups ++ [⟨run, commit⟩]) [] := by
  refine ⟨?_, forall_mem_concat h.closed ⟨h.mutations, hcount, hdigest⟩, by simp,
    pairwise_concat h.increasing hids⟩
  simp [h.records_eq, WalGroup.records]

/-- Without its last record a journal is one still. -/
theorem dropLast {r : WalRecord} (h : Journal (records ++ [r]) groups run) :
    ∃ groups' run', Journal records groups' run' := by
  rcases eq_nil_or_concat run with rfl | ⟨run', x, rfl⟩
  · rcases eq_nil_or_concat groups with rfl | ⟨groups', g, rfl⟩
    · exact absurd h.records_eq (by simp)
    -- the record closes the last group, which is open without it
    have heq := h.records_eq
    simp only [concat_eq_append, flatMap_append, flatMap_singleton, WalGroup.records,
      append_nil, ← append_assoc] at heq
    obtain ⟨heq, -⟩ := append_inj' heq rfl
    simp only [concat_eq_append] at h
    have hclosed := h.closed g (mem_append_right _ (mem_singleton_self g))
    exact ⟨groups', g.mutations, heq, fun a ha => h.closed a (mem_append_left _ ha),
      hclosed.mutations, (pairwise_append.mp h.increasing).1⟩
  · have heq := h.records_eq
    rw [concat_eq_append, ← append_assoc] at heq
    obtain ⟨heq, -⟩ := append_inj' heq rfl
    refine ⟨groups, run', heq, h.closed, fun a ha => h.mutations a ?_, h.increasing⟩
    rw [concat_eq_append]
    exact mem_append_left _ ha

theorem of_append (h : ∃ groups run, Journal (records ++ more) groups run) :
    ∃ groups run, Journal records groups run := by
  induction more generalizing records with
  | nil => simpa using h
  | cons r more ih =>
    have hsplit : records ++ r :: more = records ++ [r] ++ more := by simp
    rw [hsplit] at h
    obtain ⟨groups, run, hj⟩ := ih h
    exact hj.dropLast

end Journal

@[simp] theorem Disk.walFile_some (d : Disk) (file : WalFile) :
    { d with wal := some file }.walFile = file := rfl

/-- The readable part of the WAL file has the layout. -/
def Disk.Journaled (d : Disk) : Prop := ∃ groups run, Journal d.walFile.records groups run

/-- A handle whose buffer and counters continue the file. -/
structure Logged (groups : List WalGroup) (run : List WalRecord) (w : World DB Disk) : Prop where
  journal : Journal (w.disk.walFile.records ++ w.handle.walBuffer) groups run
  whole : w.disk.walFile.torn = 0
  count : w.handle.pendingMutations = run.length
  bytes : w.handle.pendingWalBytes = LogFile.bytes WalRecord.size run
  digest : w.handle.pendingDigest = digestRecords run
  next : ∀ g ∈ groups, g.commit.commitId < w.handle.nextCommitId ∧
    g.commit.generationId < w.handle.nextGenerationId

/-- Everything is written and the last group is closed; the counters are of no account. -/
structure Sealed (groups : List WalGroup) (w : World DB Disk) : Prop where
  journal : Journal w.disk.walFile.records groups []
  whole : w.disk.walFile.torn = 0
  buffer : w.handle.walBuffer = []

/-- The invariant of a handle that is not fenced. -/
def LaysOut (w : World DB Disk) : Prop := ∃ groups run, Logged groups run w

variable {groups : List WalGroup} {run : List WalRecord} {w w' : World DB Disk}
  {commit : CommitRecord}

theorem Logged.journaled (h : Logged groups run w) : w.disk.Journaled :=
  Journal.of_append ⟨groups, run, h.journal⟩

theorem LaysOut.journaled (h : LaysOut w) : w.disk.Journaled := by
  obtain ⟨groups, run, h⟩ := h
  exact h.journaled

theorem Sealed.journaled (h : Sealed groups w) : w.disk.Journaled := ⟨groups, [], h.journal⟩

/-! ## What stays aside -/

/-- The parts of the handle that the layout depends on. -/
structure JournalPart where
  walBuffer : List WalRecord
  pendingMutations : Nat
  pendingWalBytes : Nat
  pendingDigest : Nat
  nextCommitId : CommitId
  nextGenerationId : GenerationId
  isOpen : Bool
  writeFenced : Bool

def DB.journal (db : DB) : JournalPart where
  walBuffer := db.walBuffer
  pendingMutations := db.pendingMutations
  pendingWalBytes := db.pendingWalBytes
  pendingDigest := db.pendingDigest
  nextCommitId := db.nextCommitId
  nextGenerationId := db.nextGenerationId
  isOpen := db.isOpen
  writeFenced := db.writeFenced

def Disk.journal (d : Disk) : List WalRecord × Nat := (d.walFile.records, d.walFile.torn)

abbrev SameJournal (w w' : World DB Disk) : Prop := SameParts DB.journal Disk.journal w w'

/-- Calls that stay clear of the journal. -/
abbrev Aside {α : Type} (p : DbM α) : Prop := Keeps DB.journal Disk.journal p

theorem aside_paging : Paging DB.journal Disk.journal := ⟨fun _ _ => rfl, fun _ _ => rfl⟩

theorem aside_pinning : Pinning DB.journal Disk.journal :=
  ⟨fun _ _ => rfl, fun _ _ => rfl, fun _ _ => rfl, fun _ _ => rfl⟩

theorem aside_storing : Storing DB.journal Disk.journal :=
  ⟨⟨fun _ _ => rfl, fun _ => rfl, fun _ => rfl, fun _ _ => rfl, fun _ _ => rfl,
    fun _ _ => rfl, fun _ _ => rfl⟩, fun _ _ => rfl⟩

theorem aside_recording : Recording DB.journal Disk.journal := ⟨fun _ _ => rfl, fun _ _ => rfl⟩

theorem aside_checkCapacity (refusal : Error) : Aside (DB.checkCapacity refusal) :=
  DB.keeps_checkCapacity (fun _ _ => rfl) refusal

theorem aside_flushPages : Aside DB.flushPages := aside_paging.flushPages fun _ _ => rfl

theorem aside_syncWal : Aside DB.syncWal := .write fun _ => rfl

theorem aside_ensureWalReservation : Aside DB.ensureWalReservation :=
  .bind .handle fun _ => .bind (.runIf (.bind (.write fun _ => rfl) fun _ => .bind .disk fun _ =>
    .runIf (.bind (aside_checkCapacity _) fun _ => aside_syncWal))) fun _ =>
    .modifyHandle fun _ => rfl

theorem aside_admitBlobImage : Aside DB.admitBlobImage :=
  .bind (aside_checkCapacity _) fun _ => .bind .handle fun _ => .runIf (aside_checkCapacity _)

theorem Disk.Journaled.congr {d d' : Disk} (h : d.Journaled) (hd : d'.journal = d.journal) :
    d'.Journaled := by
  obtain ⟨groups, run, h⟩ := h
  refine ⟨groups, run, ?_⟩
  rw [show d'.walFile.records = d.walFile.records from congrArg Prod.fst hd]
  exact h

theorem Logged.congr (h : Logged groups run w) (hs : SameJournal w w') : Logged groups run w' where
  journal := by
    rw [show w'.disk.walFile.records = w.disk.walFile.records from congrArg Prod.fst hs.2,
      show w'.handle.walBuffer = w.handle.walBuffer from congrArg JournalPart.walBuffer hs.1]
    exact h.journal
  whole := (congrArg Prod.snd hs.2).trans h.whole
  count := (congrArg JournalPart.pendingMutations hs.1).trans h.count
  bytes := (congrArg JournalPart.pendingWalBytes hs.1).trans h.bytes
  digest := (congrArg JournalPart.pendingDigest hs.1).trans h.digest
  next := by
    rw [show w'.handle.nextCommitId = w.handle.nextCommitId from congrArg
      JournalPart.nextCommitId hs.1, show w'.handle.nextGenerationId =
        w.handle.nextGenerationId from congrArg JournalPart.nextGenerationId hs.1]
    exact h.next

theorem Sealed.congr (h : Sealed groups w) (hs : SameJournal w w') : Sealed groups w' where
  journal := by
    rw [show w'.disk.walFile.records = w.disk.walFile.records from congrArg Prod.fst hs.2]
    exact h.journal
  whole := (congrArg Prod.snd hs.2).trans h.whole
  buffer := (congrArg JournalPart.walBuffer hs.1).trans h.buffer

section

variable {α : Type} {p : DbM α}

theorem Aside.logged (hp : Aside p) (h : Logged groups run w) :
    RunsTo Disk.Journaled p w (Logged groups run) :=
  hp.runs (fun _ hd => h.journaled.congr hd) fun _ hs => h.congr hs

theorem Aside.sealed (hp : Aside p) (h : Sealed groups w) :
    RunsTo Disk.Journaled p w (Sealed groups) :=
  hp.runs (fun _ hd => h.journaled.congr hd) fun _ hs => h.congr hs

theorem LaysOut.congr (h : LaysOut w) (hs : SameJournal w w') : LaysOut w' := by
  obtain ⟨groups, run, h⟩ := h
  exact ⟨groups, run, h.congr hs⟩

/-- A call that stays clear, some way into a longer one. -/
theorem Aside.since (hp : Aside p) {w₀ : World DB Disk} (h : LaysOut w₀) (hs : SameJournal w₀ w) :
    Runs Disk.Journaled p w (fun _ => SameJournal w₀) (fun _ => LaysOut) :=
  (hp w).mono (fun _ hd => h.journaled.congr (hd.trans hs.2)) (fun _ _ hs' => hs.trans hs')
    fun _ _ hs' => h.congr (hs.trans hs')

theorem Aside.laysOut (hp : Aside p) (h : LaysOut w) :
    RunsTo Disk.Journaled p w LaysOut := by
  obtain ⟨groups, run, h⟩ := h
  exact (hp.logged h).conseq (fun _ _ hq => ⟨_, _, hq⟩) fun _ _ he => ⟨_, _, he⟩

end

/-! ## Writing -/

open DB

/-- The buffer goes to the file. -/
theorem writeWalToDisk_runs (hwhole : w.disk.walFile.torn = 0)
    (hj : ∃ groups run, Journal (w.disk.walFile.records ++ w.handle.walBuffer) groups run)
    (sync : Bool) :
    Runs Disk.Journaled (writeWalToDisk sync) w (fun _ w' => w'.handle =
      { w.handle with walBuffer := [] } ∧
      w'.disk.walFile.records = w.disk.walFile.records ++ w.handle.walBuffer ∧
        w'.disk.walFile.torn = 0) E := by
  refine .bind (R := fun _ w' => w'.handle = { w.handle with walBuffer := [] } ∧
    w'.disk.walFile.records = w.disk.walFile.records ++ w.handle.walBuffer ∧
      w'.disk.walFile.torn = 0) ?_
    fun _ w₁ hw₁ => .handle (.runIf (fun _ => ?_) fun _ => hw₁)
  · refine .handle ?_
    have hfile := @LogFile.appendAll_of_clean _ WalRecord.size _ hwhole w.handle.walBuffer
    refine .runIf (fun _ => .modifyHandle (.of_write ?_ ⟨rfl, ?_, ?_⟩)) fun hempty => ?_
    · rw [Disk.Journaled, Disk.walFile_some, hfile]
      exact hj
    · rw [Disk.walFile_some, hfile]
    · rw [Disk.walFile_some, hfile]
      exact hwhole
    · have hnil : w.handle.walBuffer = [] := by simpa using hempty
      refine ⟨?_, by rw [hnil, append_nil], hwhole⟩
      rw [← hnil]
  · refine .of_write ?_ ⟨hw₁.1, hw₁.2.1, hw₁.2.2⟩
    rw [Disk.Journaled, Disk.walFile_some, LogFile.sync_records, hw₁.2.1]
    exact hj

theorem writeWalToDisk_logged (h : Logged groups run w) (sync : Bool) :
    Runs Disk.Journaled (writeWalToDisk sync) w (fun _ w' => Logged groups run w' ∧
      w'.handle.walBuffer = []) E := by
  refine (writeWalToDisk_runs h.whole ⟨groups, run, h.journal⟩ sync).conseq ?_ fun _ _ he => he
  rintro _ w' ⟨hh, hrecords, hwhole⟩
  refine ⟨⟨?_, hwhole, ?_, ?_, ?_, ?_⟩, by rw [hh]⟩
  · rw [hrecords, hh, append_nil]
    exact h.journal
  all_goals rw [hh]
  · exact h.count
  · exact h.bytes
  · exact h.digest
  · exact h.next

/-- The commit record closes the run and everything is written. -/
theorem closeGroup_runs (h : Logged groups run w)
    (hcount : commit.mutationCount = run.length) (hdigest : commit.digest = digestRecords run)
    (hids : ∀ g ∈ groups, g.commit.Before commit) (sync : Bool) :
    Runs Disk.Journaled (writeWalToDisk sync)
      { w with handle := { w.handle with walBuffer := w.handle.walBuffer ++ [.commit commit] } }
      (fun _ w' => Sealed (groups ++ [⟨run, commit⟩]) w' ∧
        w'.handle = { w.handle with walBuffer := [] }) E := by
  have hj : Journal (w.disk.walFile.records ++ (w.handle.walBuffer ++ [.commit commit]))
      (groups ++ [⟨run, commit⟩]) [] := by
    rw [← append_assoc]
    exact h.journal.close hcount hdigest hids
  refine (writeWalToDisk_runs (w := { w with handle := { w.handle with
    walBuffer := w.handle.walBuffer ++ [.commit commit] } }) h.whole ⟨_, _, hj⟩ sync).conseq ?_
      fun _ _ he => he
  rintro _ w' ⟨hh, hrecords, hwhole⟩
  refine ⟨⟨?_, hwhole, by rw [hh]⟩, hh⟩
  rw [hrecords]
  exact hj

/-! ## Publications -/

theorem reclaimWal_sealed (h : Sealed groups w) :
    Runs Disk.Journaled reclaimWal w
      (fun _ w' => ∃ groups', groups' ⊆ groups ∧ Sealed groups' w') E := by
  refine .disk (.runIf (fun _ => ?_) fun _ => ⟨groups, List.Subset.refl _, h⟩)
  refine .write ⟨[], [], Journal.empty⟩ (.of_modifyHandle ⟨[], nil_subset _, ?_⟩)
  exact ⟨Journal.empty, rfl, h.buffer⟩

/-- The counters start again behind the last group. -/
theorem finishGenerationPublication_laysOut (h : Sealed groups w)
    (hids : ∀ g ∈ groups, g.commit.commitId ≤ commit.commitId ∧
      g.commit.generationId ≤ commit.generationId) :
    Runs Disk.Journaled (finishGenerationPublication commit) w (fun _ => LaysOut) E := by
  refine Infallible.runs (finishGenerationPublication_infallible commit)
    (E := fun _ w => w.disk.Journaled) ?_
  refine .bind ((Aside.sealed aside_storing.finishSegmentedBlobPublicationCleanup h).imp_error
    fun _ _ he => he.journaled) fun _ w₁ h₁ => ?_
  refine .bind ((Aside.sealed aside_paging.completeGeneration h₁).imp_error
    fun _ _ he => he.journaled) fun _ w₂ h₂ => ?_
  refine .bind (reclaimWal_sealed h₂) fun _ w₃ ⟨groups', hsub, h₃⟩ =>
    .of_modifyHandle ⟨groups', [], ?_⟩
  refine ⟨?_, h₃.whole, rfl, rfl, rfl, fun g hg => ?_⟩
  · show Journal (w₃.disk.walFile.records ++ w₃.handle.walBuffer) groups' []
    rw [h₃.buffer, append_nil]
    exact h₃.journal
  · obtain ⟨hc, hg⟩ := hids g (hsub hg)
    exact ⟨(Nat.lt_succ_of_le hc).trans_le (le_max_right _ _),
      (Nat.lt_succ_of_le hg).trans_le (le_max_right _ _)⟩

/-- What a publication does once everything is written: the frame and what follows it. -/
theorem frame_laysOut (h : Sealed groups w)
    (hids : ∀ g ∈ groups, g.commit.commitId ≤ commit.commitId ∧
      g.commit.generationId ≤ commit.generationId)
    (walOffset : Nat) (parent : Manifest) :
    Runs Disk.Journaled (do
      appendEnvelopeFrame commit walOffset parent
      finishGenerationPublication commit) w (fun _ => LaysOut)
        (Refused LaysOut fun w => w.disk.Journaled) := by
  refine .bind ((Raises.runs (appendEnvelopeFrame_raises _ _ _)
    (Aside.sealed (aside_recording.appendEnvelopeFrame _ _ _) h)).imp_error fun e w' he => ?_)
    fun _ w₁ h₁ => finishGenerationPublication_laysOut h₁ hids
  obtain ⟨⟨message, rfl⟩, he⟩ := he
  exact ⟨he.journaled, fun hc => by cases hc⟩

/-- The commit that the counters describe closes the open run. -/
theorem Logged.nextCommit (h : Logged groups run w) :
    w.handle.nextCommit.mutationCount = run.length ∧
    w.handle.nextCommit.digest = digestRecords run ∧ ∀ g ∈ groups,
      g.commit.Before w.handle.nextCommit :=
  ⟨h.count, h.digest, h.next⟩

theorem ids_of_before (hids : ∀ g ∈ groups, g.commit.Before commit) :
    ∀ g ∈ groups ++ [⟨run, commit⟩], g.commit.commitId ≤ commit.commitId ∧
      g.commit.generationId ≤ commit.generationId :=
  forall_mem_concat (fun g hg => ⟨(hids g hg).1.le, (hids g hg).2.le⟩) ⟨le_rfl, le_rfl⟩

/-- What comes before the commit record stays clear of the journal or is refused. -/
theorem Aside.refused {α : Type} {p : DbM α} (hp : Aside p) (h : Logged groups run w) :
    Runs Disk.Journaled p w (fun _ => Logged groups run)
      (Refused LaysOut fun w => w.disk.Journaled) :=
  (Aside.logged hp h).imp_error fun _ _ he => ⟨he.journaled, fun _ => ⟨_, _, he⟩⟩

theorem aside_writeBlobArtifacts (generation : GenerationId) (c : Bool) :
    Aside (Prog.runIf c (writeBlobArtifacts generation)) :=
  .runIf (aside_storing.writeBlobArtifacts _)

theorem publishGeneration_laysOut (h : LaysOut w) :
    Runs Disk.Journaled (publishGeneration w.handle.nextCommit true 0) w
    (fun _ => LaysOut) (Refused LaysOut fun w => w.disk.Journaled) := by
  obtain ⟨groups, run, h⟩ := h
  obtain ⟨hcount, hdigest, hids⟩ := h.nextCommit
  generalize w.handle.nextCommit = commit at hcount hdigest hids ⊢
  refine .handle (.bind (Aside.refused aside_paging.refreshIfNeeded h) fun _ w₁ h₁ => ?_)
  refine .bind (writeWalToDisk_logged h₁ _) fun _ w₂ ⟨h₂, _⟩ => ?_
  refine .bind (Aside.refused (aside_checkCapacity _) h₂) fun _ w₃ h₃ => ?_
  refine .bind (Aside.refused (aside_paging.modifyEngine _) h₃) fun _ w₄ h₄ => ?_
  refine .bind (Aside.refused aside_flushPages h₄) fun _ w₅ h₅ => .handle ?_
  refine .bind (Aside.refused (aside_writeBlobArtifacts _ _) h₅) fun _ w₆ h₆ => ?_
  refine .bind (R := fun _ => Sealed (groups ++ [⟨run, commit⟩])) ?_ fun walOffset w₇ h₇ =>
    frame_laysOut h₇ (ids_of_before hids) _ _
  refine .disk (.modifyHandle (.bind (closeGroup_runs h₆ hcount hdigest hids _) fun _ w₇ h₇ => ?_))
  exact .pure h₇.1

/-- The next identities only grow. -/
theorem Logged.advance {db : DB} (h : Logged groups run w)
    (hj : db.journal = { w.handle.journal with
      nextCommitId := db.nextCommitId, nextGenerationId := db.nextGenerationId })
    (hc : w.handle.nextCommitId ≤ db.nextCommitId)
      (hg : w.handle.nextGenerationId ≤ db.nextGenerationId) :
    Logged groups run { w with handle := db } where
  journal := by
    show Journal (w.disk.walFile.records ++ db.walBuffer) groups run
    rw [show db.walBuffer = w.handle.walBuffer from congrArg JournalPart.walBuffer hj]
    exact h.journal
  whole := h.whole
  count := (congrArg JournalPart.pendingMutations hj).trans h.count
  bytes := (congrArg JournalPart.pendingWalBytes hj).trans h.bytes
  digest := (congrArg JournalPart.pendingDigest hj).trans h.digest
  next := fun g hmem => ⟨(h.next g hmem).1.trans_le hc, (h.next g hmem).2.trans_le hg⟩

theorem publishEnvelopeGroup_laysOut (h : LaysOut w) : Runs Disk.Journaled publishEnvelopeGroup w
    (fun _ => LaysOut) (Refused LaysOut fun w => w.disk.Journaled) := by
  obtain ⟨groups, run, h⟩ := h
  refine .handle (.bind (writeWalToDisk_logged h _) fun _ w₁ ⟨h₁, _⟩ => ?_)
  refine .bind (Aside.refused (aside_checkCapacity _) h₁) fun _ w₂ h₂ => ?_
  refine .bind (Aside.refused aside_paging.refreshIfNeeded h₂) fun _ w₃ h₃ => ?_
  refine .bind (Aside.refused (aside_paging.modifyEngine _) h₃) fun _ w₄ h₄ => ?_
  refine .bind (Aside.refused aside_flushPages h₄) fun _ w₅ h₅ => ?_
  refine .bind (Aside.refused (aside_storing.writeGroupBlobArtifacts _) h₅) fun _ w₆ h₆ =>
    .handle ?_
  obtain ⟨hcount, hdigest, hids⟩ := h₆.nextCommit
  have h₇ : Logged groups run { w₆ with handle := { w₆.handle with
      nextCommitId := w₆.handle.nextCommitId + 1
      nextGenerationId := w₆.handle.nextGenerationId + 1 } } :=
        h₆.advance rfl (Nat.le_succ _) (Nat.le_succ _)
  refine .modifyHandle (.bind (R := fun _ => Sealed (groups ++ [⟨run, w₆.handle.nextCommit⟩])) ?_
    fun walOffset w₈ h₈ => frame_laysOut h₈ (ids_of_before hids) _ _)
  refine .disk (.modifyHandle (.bind (closeGroup_runs h₇ hcount hdigest hids _) fun _ w₈ h₈ => ?_))
  exact .pure h₈.1

theorem acknowledgeGroup_laysOut (h : LaysOut w) : Runs Disk.Journaled acknowledgeGroup w
    (fun _ => LaysOut) (Refused LaysOut fun w => w.disk.Journaled) := by
  obtain ⟨groups, run, h⟩ := h
  refine .handle (.bind (Aside.refused (aside_storing.writeGroupBlobArtifacts _) h)
    fun _ w₁ h₁ => .handle ?_)
  obtain ⟨hcount, hdigest, hids⟩ := h₁.nextCommit
  have h₂ : Logged groups run { w₁ with handle := { w₁.handle with
      nextCommitId := w₁.handle.nextCommitId + 1
      nextGenerationId := w₁.handle.nextGenerationId + 1 } } :=
        h₁.advance rfl (Nat.le_succ _) (Nat.le_succ _)
  refine .modifyHandle (.modifyHandle (.bind (closeGroup_runs h₂ hcount hdigest hids _)
    fun _ w₃ ⟨h₃, hh⟩ => .of_modifyHandle ⟨groups ++ [⟨run, w₁.handle.nextCommit⟩], [], ?_⟩))
  refine ⟨?_, h₃.whole, rfl, rfl, rfl, fun g hg => ?_⟩
  · show Journal (w₃.disk.walFile.records ++ w₃.handle.walBuffer) _ []
    rw [h₃.buffer, append_nil]
    exact h₃.journal
  · obtain ⟨hc, hg⟩ := ids_of_before hids g hg
    simp only [DB.cleared, hh]
    exact ⟨Nat.lt_succ_of_le hc, Nat.lt_succ_of_le hg⟩

/-! ## Mutations -/

theorem isMutation_record (m : Mutation) : m.record.IsMutation := by
  cases m <;> exact trivial

theorem isMutation_records {ms : List Mutation} : ∀ r ∈ ms.map Mutation.record, r.IsMutation := by
  intro r hr
  obtain ⟨m, -, rfl⟩ := mem_map.mp hr
  exact isMutation_record m

/-- Records join the run once the counters know of them. -/
theorem Logged.extend {w' : World DB Disk} (h : Logged groups run w) (hm : ∀ r ∈ more, r.IsMutation)
    (hrecords : w'.disk.walFile.records ++ w'.handle.walBuffer =
      w.disk.walFile.records ++ w.handle.walBuffer ++ more)
    (hwhole : w'.disk.walFile.torn = 0)
    (hcount : w'.handle.pendingMutations = w.handle.pendingMutations + more.length)
    (hbytes : w'.handle.pendingWalBytes = w.handle.pendingWalBytes + LogFile.bytes
      WalRecord.size more)
    (hdigest : w'.handle.pendingDigest = more.foldl extendDigest w.handle.pendingDigest)
    (hc : w'.handle.nextCommitId = w.handle.nextCommitId)
    (hg : w'.handle.nextGenerationId = w.handle.nextGenerationId) :
    Logged groups (run ++ more) w' where
  journal := by
    rw [hrecords]
    exact h.journal.extend hm
  whole := hwhole
  count := by rw [hcount, h.count, length_append]
  bytes := by rw [hbytes, h.bytes, LogFile.bytes_append]
  digest := by rw [hdigest, h.digest, digestRecords, digestRecords, foldl_append]
  next := by
    rw [hc, hg]
    exact h.next

/-- Records are buffered and written before the counters know of them. -/
theorem appendRun_runs (h : Logged groups run w)
    (hm : ∀ r ∈ more, r.IsMutation) (sync : Bool) : Runs Disk.Journaled (writeWalToDisk sync)
      { w with handle := { w.handle with walBuffer := w.handle.walBuffer ++ more } }
      (fun _ w' => w'.handle = { w.handle with walBuffer := [] } ∧
        w'.disk.walFile.records = w.disk.walFile.records ++ w.handle.walBuffer ++ more ∧
        w'.disk.walFile.torn = 0) E := by
  have hj := h.journal.extend hm
  rw [append_assoc] at hj ⊢
  exact writeWalToDisk_runs (w := { w with handle := { w.handle with
    walBuffer := w.handle.walBuffer ++ more } }) h.whole ⟨_, _, hj⟩ sync

theorem journalMutation_laysOut (h : LaysOut w) (m : Mutation) :
    Runs Disk.Journaled (journalMutation m.record) w (fun _ => LaysOut) E := by
  obtain ⟨groups, run, h⟩ := h
  have hm : ∀ r ∈ [m.record], r.IsMutation := forall_mem_singleton.mpr (isMutation_record m)
  refine .modifyHandle (.handle (.bind (appendRun_runs h hm _)
    fun _ w₁ ⟨hh, hrecords, hwhole⟩ => .of_modifyHandle ⟨groups, run ++ [m.record], ?_⟩))
  refine h.extend hm ?_ hwhole ?_ ?_ ?_ ?_ ?_
  all_goals simp [hh, hrecords]

/-- A prepared batch continues the counters of the handle it was prepared for. -/
structure Continues (prepared : PreparedBatch) (w : World DB Disk) : Prop where
  mutations : ∀ r ∈ prepared.records, r.IsMutation
  count : prepared.nextPendingMutations = w.handle.pendingMutations + prepared.records.length
  bytes : prepared.nextPendingBytes = w.handle.pendingWalBytes + LogFile.bytes
    WalRecord.size prepared.records
  digest : prepared.nextDigest = prepared.records.foldl extendDigest w.handle.pendingDigest

theorem Continues.congr {prepared : PreparedBatch} (h : Continues prepared w)
    (hs : SameJournal w w') :
    Continues prepared w' where
  mutations := h.mutations
  count := h.count.trans (by rw [show w'.handle.pendingMutations = w.handle.pendingMutations from
    congrArg JournalPart.pendingMutations hs.1])
  bytes := h.bytes.trans (by rw [show w'.handle.pendingWalBytes = w.handle.pendingWalBytes from
    congrArg JournalPart.pendingWalBytes hs.1])
  digest := h.digest.trans (by rw [show w'.handle.pendingDigest = w.handle.pendingDigest from
    congrArg JournalPart.pendingDigest hs.1])

theorem prepareBatch_laysOut (h : LaysOut w) (mutations : List Mutation) :
    Runs Disk.Journaled (prepareBatch mutations) w
    (fun prepared w' => LaysOut w' ∧ Continues prepared w') (fun _ => LaysOut) := by
  refine .lift (fun _ _ => h) fun _ _ => ?_
  refine .bind (Aside.laysOut (keeps_admitWalBytes _) h) fun _ w₁ h₁ => ?_
  refine .bind (Aside.laysOut (.forEach (fun _ => aside_paging.prepareMutation _) _) h₁)
    fun _ w₂ h₂ => ?_
  refine .handle (.lift (fun _ _ => h₂) fun candidate _ => ?_)
  -- the counters are read here, and what follows keeps them
  refine .bind (Aside.since (.runIf (aside_checkCapacity _)) h₂ ⟨rfl, rfl⟩) fun _ w₃ hs₃ => ?_
  refine .bind (Aside.since aside_ensureWalReservation h₂ hs₃) fun _ w₄ hs₄ => ?_
  refine .bind (Aside.since (.runIf (aside_checkCapacity _)) h₂ hs₄) fun _ w₅ hs₅ => ?_
  refine .pure ⟨h₂.congr hs₅, Continues.congr (w := w₂) ?_ hs₅⟩
  constructor
  · exact isMutation_records
  · rw [length_map]
  · rfl
  · rfl

theorem install_laysOut {prepared : PreparedBatch} (sync : Bool) (h : LaysOut w)
    (hp : Continues prepared w) :
    Runs Disk.Journaled (writeWalToDisk sync)
      { w with handle := { w.handle with walBuffer := w.handle.walBuffer ++ prepared.records } }
      (fun _ w' => LaysOut { w' with handle := w'.handle.withBatch prepared false })
      (fun _ => LaysOut) := by
  obtain ⟨groups, run, h⟩ := h
  refine (appendRun_runs h hp.mutations sync).conseq ?_ fun _ _ he => he
  rintro _ w' ⟨hh, hrecords, hwhole⟩
  refine ⟨groups, run ++ prepared.records, h.extend hp.mutations ?_ hwhole ?_ ?_ ?_ ?_ ?_⟩
  · simp [withBatch, hh, hrecords]
  · exact hp.count
  · exact hp.bytes
  · exact hp.digest
  all_goals simp [withBatch, hh]

/-- **The layout under the calls that publish.** -/
theorem journal_guard : Guard Disk.Journaled LaysOut (fun w => w.disk.Journaled) Continues where
  weaken := fun h => h.journaled
  fence := fun h => h
  stage := fun _ ⟨groups, run, h⟩ => ⟨groups, run, h.congr ⟨rfl, rfl⟩⟩
  restage := fun _ h => h
  publishGeneration := publishGeneration_laysOut
  publishEnvelopeGroup := publishEnvelopeGroup_laysOut
  acknowledgeGroup := fun h _ => acknowledgeGroup_laysOut h
  prepareBatch := fun mutations h => prepareBatch_laysOut h mutations
  install := fun sync h hp => install_laysOut sync h hp

end SeerDb
