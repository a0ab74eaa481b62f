/-
# `SeerDb.Db.Anchor` — what keeps the slots of a database apart

`DiskInv` is what holds of the directory at every write: the metadata log is
well formed, and whatever part of it a crash leaves, the table of its last frame is
in the file and none of its slots has been written since the last sync.  `Steady` is what
a fenced handle has; `Sound` is what an open one has between two calls; `Resting` and
`Placing` are the states inside of a publication.

`Ctx` fixes what does not change during a call: the open views, the slots that must
keep the pages they have at its start, and what is promised of stamps and frames.
-/
import SeerDb.Db.Still
import SeerDb.Storage.MetaLogSpec
import SeerDb.Storage.Relocate

namespace SeerDb

open Lib List

/-! ## The directory -/

/-- How many frames are durable. -/
def Disk.durable (d : Disk) : Nat := (d.metaLog.map LogFile.synced).getD 0

/-- The mappings that the last frame selects; without a frame there are none. -/
def Newest (fs : List MetaLogFrame) (mappings : List (PageId × PageMapping)) : Prop :=
  (fs = [] ∧ mappings = []) ∨ ∃ f t a n, fs.getLast? = some f ∧ Resolves fs f.checkpointId t a n ∧
    t.mappings = mappings

/-- The table of the last frame is in the file as of the last sync. -/
def Anchored (dev : Device) (fs : List MetaLogFrame) : Prop :=
  ∃ t : PMT, Newest fs t.mappings ∧ t.WF ∧ ∀ o ∈ t.offsets, InFile dev.size o ∧ o ∉ dev.unsynced

/-- The page in slot `o` is stamped later than every frame. -/
def Later (d : Disk) (o : Nat) : Prop :=
  ∃ n, d.device.page o = some n ∧ 0 < n.writeGeneration ∧
    ∀ f ∈ d.frames, f.manifest.generationId < n.writeGeneration

/-- The page in slot `o` is one of the newest table, copied with the stamp it has. -/
def Copied (d : Disk) (o : Nat) : Prop :=
  ∃ (t : PMT) (p : PageId) (m : PageMapping), Newest d.frames t.mappings ∧ t.get p = some m ∧
    d.device.page o = d.device.page m.offset

/-- What a call promises of the stamps it writes. -/
inductive Stamping where
  | none
  /-- Later than every frame, apart from the copies that compaction makes. -/
  | copied
  | later
deriving DecidableEq

/-- The promise, for what was written since the last sync. -/
def Stamped (s : Stamping) (d : Disk) : Prop :=
  s ≠ .none → ∀ o ∈ d.device.unsynced, Later d o ∨ s = .copied ∧ Copied d o

variable {d d' : Disk} {stamping : Stamping} {mark : GenerationId}

theorem Stamped.of_synced {s : Stamping} (h : d.device.unsynced = []) : Stamped s d := by
  intro _ o ho
  rw [h] at ho
  cases ho

/-- Generation `g` or a later one has a durable frame, unless `g` is 0. -/
def Marked (g : GenerationId) (d : Disk) : Prop :=
  g = 0 ∨ ∃ f ∈ d.frames.take d.durable, g ≤ f.manifest.generationId

theorem Marked.mono {g : GenerationId} (h : Marked g d)
    (hsub : ∀ f ∈ d.frames.take d.durable, f ∈ d'.frames.take d'.durable) : Marked g d' := by
  rcases h with h0 | ⟨f, hf, hg⟩
  · exact .inl h0
  · exact .inr ⟨f, hsub f hf, hg⟩

structure DiskInv (stamping : Stamping) (mark : GenerationId) (d : Disk) : Prop where
  log : LogWF d.frames
  aligned : pageSize ∣ d.device.size
  durable_le : d.durable ≤ d.frames.length
  anchored : ∀ k, d.durable ≤ k → k ≤ d.frames.length → Anchored d.device (d.frames.take k)
  fresh : d.data = none → d.wal = none ∧ d.metaLog = none
  stamps : Stamped stamping d
  marked : Marked mark d

/-- The slots `kept` hold what they held in `start`. -/
def Kept (kept : List Nat) (start dev : Device) : Prop :=
  ∀ o ∈ kept, InFile dev.size o ∧ o ∉ dev.unsynced ∧ dev.page o = start.page o

section

variable {fs : List MetaLogFrame} {ms ms' : List (PageId × PageMapping)} {t : PMT}

theorem Newest.unique (h : Newest fs ms) (h' : Newest fs ms') : ms = ms' := by
  rcases h with ⟨rfl, rfl⟩ | ⟨f, t, a, n, hf, hr, rfl⟩
  · rcases h' with ⟨-, rfl⟩ | ⟨f, t, a, n, hf, -, -⟩
    · rfl
    · cases hf
  · rcases h' with ⟨rfl, -⟩ | ⟨f', t', a', n', hf', hr', rfl⟩
    · cases hf
    · rw [hf] at hf'
      cases hf'
      rw [(hr.unique hr').1]

theorem Newest.nil : Newest [] [] := .inl ⟨rfl, rfl⟩

theorem Newest.concat {g : MetaLogFrame} {a : PageAllocator} {n : Nat}
    (hr : Resolves (fs ++ [g]) g.checkpointId t a n) : Newest (fs ++ [g]) t.mappings :=
  .inr ⟨g, t, a, n, by simp, hr, rfl⟩

theorem PMT.WF.congr {t' : PMT} (h : t.WF) (hm : t'.mappings = t.mappings) : t'.WF := by
  have hget : ∀ p, t'.get p = t.get p := fun p => by rw [PMT.get, PMT.get, hm]
  refine ⟨hm ▸ h.sorted, fun hp hq => ?_, fun hp => ?_⟩
  · rw [hget] at hp hq
    exact h.inj hp hq
  · rw [hget] at hp
    exact h.file hp

theorem PMT.offsets_congr {t' : PMT} (hm : t'.mappings = t.mappings) : t'.offsets = t.offsets := by
  rw [PMT.offsets, PMT.offsets, hm]

end

theorem Disk.frames_of_some {log : MetaLog} (h : d.metaLog = some log) :
    d.frames = log.records := by
  rw [frames, h]
  rfl

theorem Disk.parsedMetaLog_frames {p : ParsedMetaLog} (h : d.parsedMetaLog = some p) :
    p.frames = d.frames := by
  rw [parsedMetaLog] at h
  obtain ⟨log, hlog, rfl⟩ := Option.map_eq_some_iff.mp h
  rw [frames, hlog]
  rfl

theorem Disk.frames_of_none (h : d.parsedMetaLog = none) : d.frames = [] := by
  rw [frames, Option.map_eq_none_iff.mp h]
  rfl

theorem DiskInv.empty (stamping : Stamping) (space : List Bool) :
    DiskInv stamping 0 (Disk.empty space) where
  log := LogWF.nil
  aligned := ⟨0, rfl⟩
  durable_le := le_rfl
  anchored k _ _ := by
    refine ⟨PMT.new, ?_, PMT.wf_new, by simp [PMT.new, PMT.offsets]⟩
    rw [show (Disk.empty space).frames = [] from rfl, take_nil]
    exact Newest.nil
  fresh _ := ⟨rfl, rfl⟩
  stamps := Stamped.of_synced rfl
  marked := .inl rfl

theorem DiskInv.weaken (h : DiskInv stamping mark d) :
    DiskInv .none mark d :=
  { h with stamps := fun hn => absurd rfl hn }

/-- Where nothing is to be synced, every promise about it is kept. -/
theorem DiskInv.restamp {stamping' : Stamping} {mark' : GenerationId}
    (h : DiskInv stamping mark d) (hs : d.device.unsynced = []) (hm : Marked mark' d) :
    DiskInv stamping' mark' d :=
  { h with stamps := Stamped.of_synced hs, marked := hm }

theorem Disk.core_eq {d d' : Disk} (h : d'.core = d.core) :
    d'.data = d.data ∧ d'.metaLog = d.metaLog ∧
    d'.device = d.device ∧ d'.frames = d.frames ∧ d'.durable = d.durable := by
  obtain ⟨hdata, hlog⟩ := Prod.mk.inj h
  simp only [Disk.device, Disk.frames, Disk.durable, hdata, hlog, and_self]

/-- Only the data file and the log matter, and for a directory without a data file the WAL. -/
theorem DiskInv.congr_fresh (h : DiskInv stamping mark d) (hcore : d'.core = d.core)
    (hwal : d.data = none → d'.wal = none) :
    DiskInv stamping mark d' := by
  obtain ⟨hdata, hlog, hdev, hframes, hdurable⟩ := Disk.core_eq hcore
  refine ⟨hframes ▸ h.log, hdev ▸ h.aligned, by rw [hdurable, hframes]; exact h.durable_le,
    fun k hk hk' => ?_, fun hn => ?_, ?_,
      h.marked.mono (by rw [hframes, hdurable]; exact fun _ hf => hf)⟩
  · rw [hdurable] at hk
    rw [hframes] at hk' ⊢
    rw [hdev]
    exact h.anchored k hk hk'
  · rw [hdata] at hn
    exact ⟨hwal hn, hlog.trans (h.fresh hn).2⟩
  · have := h.stamps
    simp only [Stamped, Later, Copied] at this ⊢
    rw [hdev, hframes]
    exact this

theorem DiskInv.congr
    (h : DiskInv stamping mark d) (hsome : d.data.isSome) (hcore : d'.core = d.core) :
    DiskInv stamping mark d' := by
  refine h.congr_fresh hcore fun hn => ?_
  rw [hn] at hsome
  cases hsome

/-- A crash leaves a durable part of the log, with all that was durable. -/
theorem Disk.Crash.frames (hc : Disk.Crash d d') : ∃ k, d.durable ≤ k ∧
    k ≤ d.frames.length ∧ d'.frames = d.frames.take k ∧ d'.durable = d'.frames.length := by
  have hm := hc.metaLog
  cases hl : d.metaLog with
  | none =>
    cases hl' : d'.metaLog with
    | none => exact ⟨0, by simp [Disk.durable, hl], Nat.zero_le _, by simp [Disk.frames, hl, hl'],
        by simp [Disk.durable, Disk.frames, hl']⟩
    | some log' =>
      rw [hl, hl'] at hm
      exact hm.elim
  | some log =>
    cases hl' : d'.metaLog with
    | none =>
      rw [hl, hl'] at hm
      exact hm.elim
    | some log' =>
      rw [hl, hl'] at hm
      obtain ⟨k, t, hk, hk', -, rfl⟩ := hm
      refine ⟨k, ?_, ?_, ?_, ?_⟩
      · simpa [Disk.durable, hl] using hk
      · simpa [Disk.frames, hl] using hk'
      · simp [Disk.frames, hl, hl']
      · simp [Disk.frames, Disk.durable, hl', hk']

/-- Of the data file a crash leaves what was synced. -/
theorem Disk.Crash.device (hc : Disk.Crash d d') : Device.Crash d.device d'.device := by
  have hd := hc.data
  rw [Disk.device, Disk.device]
  cases hdat : d.data with
  | none =>
    cases hdat' : d'.data with
    | none => exact ⟨le_rfl, ⟨0, rfl⟩, rfl, fun _ _ h => h, fun _ _ _ => rfl⟩
    | some dev' =>
      rw [hdat, hdat'] at hd
      exact hd.elim
  | some dev =>
    cases hdat' : d'.data with
    | none =>
      rw [hdat, hdat'] at hd
      exact hd.elim
    | some dev' =>
      rw [hdat, hdat'] at hd
      exact hd

theorem Disk.CrashFile.absent {α : Type} {crash : α → α → Prop} {f : Option α}
    (h : CrashFile crash none f) : f = none := by
  cases f with
  | none => rfl
  | some a => exact h.elim

/-- **A crash keeps what is anchored.** -/
theorem DiskInv.crash
    (h : DiskInv stamping mark d) (hc : Disk.Crash d d') : DiskInv stamping mark d' := by
  obtain ⟨k, hk, hk', hframes, hdurable⟩ := hc.frames
  have hdev := hc.device
  refine ⟨hframes ▸ (h.log.take k).1, hdev.aligned, hdurable.le, fun j hj hj' => ?_, fun hn => ?_,
    Stamped.of_synced hdev.unsynced, h.marked.mono fun f hf => ?_⟩
  · obtain rfl : j = d'.frames.length := le_antisymm hj' (hdurable ▸ hj)
    rw [take_length, hframes]
    obtain ⟨t, hnew, hwf, hin⟩ := h.anchored k hk hk'
    refine ⟨t, hnew, hwf, fun o ho =>
      ⟨⟨(hin o ho).1.1, hdev.extent o (hin o ho).2 (hin o ho).1.2⟩, ?_⟩⟩
    rw [hdev.unsynced]
    exact not_mem_nil
  · have hnone : d.data = none := by
      have hd := hc.data
      rw [hn] at hd
      cases hdat : d.data with
      | none => rfl
      | some dev =>
        rw [hdat] at hd
        exact hd.elim
    obtain ⟨hwal, hlog⟩ := h.fresh hnone
    have hw := hc.wal
    have hm := hc.metaLog
    rw [hwal] at hw
    rw [hlog] at hm
    exact ⟨Disk.CrashFile.absent hw, Disk.CrashFile.absent hm⟩
  · rw [hdurable, take_length, hframes]
    exact (take_sublist_take_left hk).subset hf

/-! ## The handle -/

/-- What does not change during a call. -/
structure Ctx where
  stamping : Stamping
  mark : GenerationId
  views : List ReadView
  kept : List Nat
  start : Device
  /-- Checkpoints of registered roots, with the tables they select. -/
  tables : List (Nat × PMT)

/-- The durable frames select the tables. -/
def Tabled (tables : List (Nat × PMT)) (d : Disk) : Prop :=
  ∀ e ∈ tables, ∃ a n, Resolves (d.frames.take d.durable) e.1 e.2 a n

/-- What is pinned is as it was. -/
def Held (ctx : Ctx) (d : Disk) : Prop := Kept ctx.kept ctx.start d.device ∧ Tabled ctx.tables d

/-- What holds at every write of a call. -/
def Lasting (ctx : Ctx) (d : Disk) : Prop := DiskInv ctx.stamping ctx.mark d ∧ Held ctx d

/-- The table of a registered root is protected, by the root itself or by the lease of its view. -/
def Rooted (views : List ReadView) (fs : List MetaLogFrame) (r : RetainedRoot) : Prop :=
  r.manifest.pmtCheckpointId = 0 ∨ ∃ t a n, Resolves fs r.manifest.pmtCheckpointId t a n ∧
    ((∀ o ∈ t.offsets, o ∈ r.offsets) ∨
      ∃ v ∈ views, v.leased ∧ v.snapshotId = r.snapshotId ∧ v.pmt.mappings = t.mappings)

/-- The tables of all registered roots are protected; a named root needs no view for it. -/
structure Pinned (ctx : Ctx) (fs : List MetaLogFrame) (r : RetentionState) : Prop where
  named : ∀ root ∈ r.namedRoots, Rooted [] fs root
  ephemeral : ∀ root ∈ r.ephemeralRoots, Rooted ctx.views fs root
  tables : ∀ e ∈ ctx.tables, e.1 ≠ 0 ∧ ∃ root ∈ r.allRoots, root.manifest.pmtCheckpointId = e.1

structure Base (ctx : Ctx) (w : World DB Disk) : Prop where
  disk : DiskInv ctx.stamping ctx.mark w.disk
  kept : Kept ctx.kept ctx.start w.disk.device
  data : w.disk.data.isSome
  synced : w.disk.device.unsynced = []
  protects : ∀ o ∈ ctx.kept, o ∈ w.handle.protectedOffsets
  roots : Pinned ctx w.disk.frames w.handle.retention
  tabled : Tabled ctx.tables w.disk
  /-- Every open view has its table leased. -/
  leased : w.handle.leases.Perm (ctx.views.map ReadView.pmt)

/-- A handle whose free slots are not protected. -/
structure Steady (ctx : Ctx) (w : World DB Disk) : Prop extends Base ctx w where
  slots : w.handle.engine.SlotInv w.disk.device.size [] w.handle.protectedOffsets
  durable : w.disk.durable = w.disk.frames.length

/-- The newest frame selects the table `old`, and its slots are not free either. -/
structure Resting (ctx : Ctx) (old : PMT) (w : World DB Disk) : Prop extends Base ctx w where
  whole : ∀ log, w.disk.metaLog = some log → log.synced = log.records.length ∧ log.torn = 0
  newest : Newest w.disk.frames old.mappings
  oldWF : old.WF
  held : w.handle.engine.SlotInv w.disk.device.size [] (w.handle.protectedOffsets ++ old.offsets)

/-- `parent` is the manifest of the last frame; a log without a frame is the one of the empty
database. -/
def ParentOf (fs : List MetaLogFrame) (mappings : List (PageId × PageMapping))
    (parent : Manifest) : Prop :=
  (fs = [] ∧ parent.pmtCheckpointId = 0 ∧ parent.generationId = 0 ∧ mappings = []) ∨
    ∃ f, fs.getLast? = some f ∧ f.manifest = parent

/-- The newest manifest of the history is the parent of the next frame. -/
def Latest (fs : List MetaLogFrame) (mappings : List (PageId × PageMapping))
    (h : ManifestHistory) : Prop :=
  ∃ m, h.latest = some m ∧ ParentOf fs mappings m

/-- Between two calls the newest frame selects the table of the handle. -/
structure Sound (ctx : Ctx) (w : World DB Disk) : Prop
    extends Resting ctx w.handle.engine.pmt w where
  pending : w.handle.engine.pendingReclaimedOffsets = []
  reserved : w.handle.engine.rebuildReservedOffsets = []
  next : ∀ f ∈ w.disk.frames, f.checkpointId < w.handle.nextGenerationId
  positive : 0 < w.handle.nextGenerationId
  latest : Latest w.disk.frames w.handle.engine.pmt.mappings w.handle.manifestHistory

theorem Rooted.mono {views views' : List ReadView} {fs fs' : List MetaLogFrame} {r : RetainedRoot}
    (h : Rooted views fs r) (hviews : ∀ v ∈ views, v.leased →
      v.snapshotId = r.snapshotId → v ∈ views')
    (hmono : ∀ {t a n}, Resolves fs r.manifest.pmtCheckpointId t a n →
      Resolves fs' r.manifest.pmtCheckpointId t a n) : Rooted views' fs' r := by
  rcases h with h | ⟨t, a, n, hr, hcover⟩
  · exact .inl h
  · refine .inr ⟨t, a, n, hmono hr, hcover.imp_right ?_⟩
    rintro ⟨v, hv, hl, hid, hms⟩
    exact ⟨v, hviews v hv hl hid, hl, hid, hms⟩

/-- A log that resolves what the old one did, for the roots at least. -/
theorem Pinned.mono {ctx : Ctx} {fs fs' : List MetaLogFrame} {r : RetentionState}
    (h : Pinned ctx fs r) (hmono : ∀ root ∈ r.allRoots,
      root.manifest.pmtCheckpointId ≠ 0 → ∀ {t a n},
      Resolves fs root.manifest.pmtCheckpointId t a n →
        Resolves fs' root.manifest.pmtCheckpointId t a n) : Pinned ctx fs' r := by
  have hroot : ∀ {vs root}, root ∈ r.allRoots → Rooted vs fs root → Rooted vs fs' root := by
    intro vs root hmem hr
    by_cases h0 : root.manifest.pmtCheckpointId = 0
    · exact .inl h0
    · exact hr.mono (fun _ hv _ _ => hv) (hmono root hmem h0)
  exact ⟨fun root hr => hroot (mem_append_left _ hr) (h.named root hr),
    fun root hr => hroot (mem_append_right _ hr) (h.ephemeral root hr), h.tables⟩

/-- The tables are still selected by a log that keeps what the roots need. -/
theorem Tabled.mono {ctx : Ctx} {fs : List MetaLogFrame} {r : RetentionState}
    (h : Tabled ctx.tables d) (hr : Pinned ctx fs r) (hmono : ∀ root ∈ r.allRoots,
      root.manifest.pmtCheckpointId ≠ 0 → ∀ {t a n},
        Resolves (d.frames.take d.durable) root.manifest.pmtCheckpointId t a n →
        Resolves (d'.frames.take d'.durable) root.manifest.pmtCheckpointId t a n) :
          Tabled ctx.tables d' := by
  intro e he
  obtain ⟨a, n, hres⟩ := h e he
  obtain ⟨h0, root, hroot, hid⟩ := hr.tables e he
  rw [← hid] at h0 hres ⊢
  exact ⟨a, n, hmono root hroot h0 hres⟩

theorem Tabled.congr {tables : List (Nat × PMT)} (h : Tabled tables d)
    (hlog : d'.metaLog = d.metaLog) :
    Tabled tables d' := by
  intro e he
  rw [Disk.frames, Disk.durable, hlog]
  exact h e he

section

variable {ctx : Ctx} {old : PMT} {w w' : World DB Disk} {α : Type} {p : DbM α}

/-- Of the handle only the pins matter. -/
theorem Base.of_pins (h : Base ctx w) (hd : w'.disk = w.disk)
    (hret : w'.handle.retention = w.handle.retention)
    (hlease : w'.handle.leases = w.handle.leases) :
    Base ctx w' where
  disk := hd ▸ h.disk
  kept := hd ▸ h.kept
  data := hd ▸ h.data
  synced := hd ▸ h.synced
  protects := by
    rw [DB.protectedOffsets, hret, hlease]
    exact h.protects
  roots := by
    rw [hret, hd]
    exact h.roots
  tabled := hd ▸ h.tabled
  leased := by
    rw [hlease]
    exact h.leased

theorem Base.lasting (h : Base ctx w) : Lasting ctx w.disk := ⟨h.disk, h.kept, h.tabled⟩

theorem durable_of_whole
    (h : ∀ log, d.metaLog = some log → log.synced = log.records.length ∧ log.torn = 0) :
    d.durable = d.frames.length := by
  rw [Disk.durable, Disk.frames]
  cases hl : d.metaLog with
  | none => rfl
  | some log => exact (h log hl).1

theorem Resting.steady (h : Resting ctx old w) : Steady ctx w :=
  ⟨h.toBase, h.held.mono fun _ => mem_append_left _, durable_of_whole h.whole⟩

theorem Sound.steady (h : Sound ctx w) : Steady ctx w := h.toResting.steady

/-! Calls that are still preserve all of it. -/

section

variable (hs : SameCore w w')

include hs

theorem SameCore.device : w'.disk.device = w.disk.device := by
  have hdata : w'.disk.data = w.disk.data := congrArg Prod.fst hs.2
  rw [Disk.device, Disk.device, hdata]

theorem SameCore.frames : w'.disk.frames = w.disk.frames := by
  have hlog : w'.disk.metaLog = w.disk.metaLog := congrArg Prod.snd hs.2
  rw [Disk.frames, Disk.frames, hlog]

theorem SameCore.durable : w'.disk.durable = w.disk.durable := by
  have hlog : w'.disk.metaLog = w.disk.metaLog := congrArg Prod.snd hs.2
  rw [Disk.durable, Disk.durable, hlog]

theorem SameCore.protectedOffsets : w'.handle.protectedOffsets = w.handle.protectedOffsets := by
  have hret : w'.handle.retention = w.handle.retention := congrArg Core.retention hs.1
  have hlease : w'.handle.leases = w.handle.leases := congrArg Core.leases hs.1
  rw [DB.protectedOffsets, DB.protectedOffsets, hret, hlease]

theorem SameCore.slots {size : Nat} {out held : List Nat}
    (h : w.handle.engine.SlotInv size out held) : w'.handle.engine.SlotInv size out held :=
  h.congr (congrArg Core.pmt hs.1) (congrArg Core.nextOffset hs.1) (congrArg Core.freeOffsets hs.1)
    (congrArg Core.pendingReclaimedOffsets hs.1) (congrArg Core.rebuildReservedOffsets hs.1)

theorem Base.congr (h : Base ctx w) : Base ctx w' where
  disk := h.disk.congr h.data hs.2
  kept := hs.device ▸ h.kept
  data := by
    have hdata : w'.disk.data = w.disk.data := congrArg Prod.fst hs.2
    rw [hdata]
    exact h.data
  synced := hs.device ▸ h.synced
  protects := hs.protectedOffsets ▸ h.protects
  roots := by
    have hret : w'.handle.retention = w.handle.retention := congrArg Core.retention hs.1
    rw [hret, hs.frames]
    exact h.roots
  tabled := h.tabled.congr (congrArg Prod.snd hs.2)
  leased := by
    have hlease : w'.handle.leases = w.handle.leases := congrArg Core.leases hs.1
    rw [hlease]
    exact h.leased

theorem Steady.congr (h : Steady ctx w) : Steady ctx w' where
  toBase := h.toBase.congr hs
  slots := by
    rw [hs.device, hs.protectedOffsets]
    exact hs.slots h.slots
  durable := by
    rw [hs.durable, hs.frames]
    exact h.durable

theorem Resting.congr (h : Resting ctx old w) : Resting ctx old w' where
  toBase := h.toBase.congr hs
  whole := by
    have hlog : w'.disk.metaLog = w.disk.metaLog := congrArg Prod.snd hs.2
    rw [hlog]
    exact h.whole
  newest := hs.frames ▸ h.newest
  oldWF := h.oldWF
  held := by
    rw [hs.device, hs.protectedOffsets]
    exact hs.slots h.held

theorem Sound.congr (h : Sound ctx w) : Sound ctx w' where
  toResting := by
    have hpmt : w'.handle.engine.pmt = w.handle.engine.pmt := congrArg Core.pmt hs.1
    rw [hpmt]
    exact h.toResting.congr hs
  pending := (congrArg Core.pendingReclaimedOffsets hs.1).trans h.pending
  reserved := (congrArg Core.rebuildReservedOffsets hs.1).trans h.reserved
  next := by
    have hnext : w'.handle.nextGenerationId = w.handle.nextGenerationId :=
      congrArg Core.nextGenerationId hs.1
    rw [hnext, hs.frames]
    exact h.next
  positive := by
    have hnext : w'.handle.nextGenerationId = w.handle.nextGenerationId :=
      congrArg Core.nextGenerationId hs.1
    rw [hnext]
    exact h.positive
  latest := by
    have hpmt : w'.handle.engine.pmt = w.handle.engine.pmt := congrArg Core.pmt hs.1
    have hhist : w'.handle.manifestHistory = w.handle.manifestHistory :=
      congrArg Core.manifestHistory hs.1
    rw [hhist, hpmt, hs.frames]
    exact h.latest

end

theorem Held.congr (h : Held ctx d) (hd : d'.core = d.core) : Held ctx d' := by
  obtain ⟨-, hlog, hdev, -⟩ := Disk.core_eq hd
  exact ⟨hdev ▸ h.1, h.2.congr hlog⟩

/-- A write that is none of the data file or the log. -/
theorem Base.lasting_congr (h : Base ctx w) (hd : d.core = w.disk.core) : Lasting ctx d :=
  ⟨h.disk.congr h.data hd, h.lasting.2.congr hd⟩

theorem Still.same (hp : Still p) (h : Base ctx w) :
    RunsTo (Lasting ctx) p w (fun w' => SameCore w w') :=
  Keeps.runs hp (fun _ hd => h.lasting_congr hd) fun _ hs => hs

theorem Still.sound (hp : Still p) (h : Sound ctx w) :
    RunsTo (Lasting ctx) p w (Sound ctx) :=
  Keeps.runs hp (fun _ hd => h.toBase.lasting_congr hd) fun _ hs => h.congr hs

end

end SeerDb
