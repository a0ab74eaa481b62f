/-
# `SeerDb.Db.RetainSpec` — pins are taken and given back

A root is registered with the slots of its table, or, for a read view, together with
a lease of the table itself; the free list is rebuilt from the file before the next
page is written.  Giving a pin back only shrinks what is protected, and works on a
fenced handle too.  None of this writes to the data file.
-/
import SeerDb.Db.PruneSpec

namespace SeerDb

open Lib List

variable {ctx : Ctx} {w w' : World DB Disk} {d : Disk} {m : Manifest} {db : DB} {id : SnapshotId}
  {offsets : List Nat} {i : Nat} {v : ReadView} {root : RetainedRoot}

/-! ## The table of a root -/

theorem DB.mem_protectedOffsets {o : Nat} : o ∈ db.protectedOffsets ↔
    (∃ r ∈ db.retention.allRoots, o ∈ r.offsets) ∨ ∃ t ∈ db.leases, o ∈ t.offsets := by
  rw [DB.protectedOffsets, mem_append, mem_flatMap, mem_flatMap]

/-- What a manifest selects is what the log resolves it to. -/
theorem manifestPmt_ok (hlog : LogWF d.frames) {t : PMT} (h : DB.manifestPmt d m = .ok t) :
    (m.pmtCheckpointId = 0 ∧ t = PMT.new) ∨ ∃ a n, Resolves d.frames m.pmtCheckpointId t a n := by
  rw [DB.manifestPmt] at h
  split at h
  · rename_i h0
    cases h
    exact .inl ⟨h0, rfl⟩
  rcases hp : d.parsedMetaLog with _ | parsed
  · rw [hp] at h
    cases h
  rw [hp] at h
  obtain ⟨frames, complete⟩ := parsed
  obtain rfl : frames = d.frames := Disk.parsedMetaLog_frames hp
  cases hr : (⟨d.frames, complete⟩ : ParsedMetaLog).resolve m.pmtCheckpointId with
  | error e =>
    simp only [hr] at h
    cases h
  | ok found =>
    obtain ⟨pmt, a, n⟩ := found
    simp only [hr] at h
    cases h
    exact .inr ⟨a, n, (hlog.resolves_of_ok hr).1⟩

theorem DB.mappedOffsets_ok : ∀ (ms : List PageMapping) {offsets : List Nat},
    DB.mappedOffsets d id ms = .ok offsets →
    offsets = ms.map PageMapping.offset ∧ ∀ o ∈ offsets, InFile d.device.size o
  | [], offsets, h => by
    cases h
    exact ⟨rfl, by simp⟩
  | mapping :: rest, offsets, h => by
    rw [DB.mappedOffsets] at h
    split at h
    · cases h
    rename_i halign
    split at h
    · cases h
    rename_i hsize
    cases hrest : DB.mappedOffsets d id rest with
    | error e =>
      rw [hrest] at h
      cases h
    | ok found =>
      rw [hrest] at h
      cases h
      obtain ⟨rfl, hin⟩ := DB.mappedOffsets_ok rest hrest
      refine ⟨rfl, fun o ho => ?_⟩
      rcases mem_cons.mp ho with rfl | ho
      · refine ⟨Nat.dvd_of_mod_eq_zero ?_, not_lt.mp hsize⟩
        exact not_not.mp fun hne => halign (.inr hne)
      · exact hin o ho

/-- The slots a root is registered with are those of its table. -/
theorem DB.loadManifestOffsets_ok (hlog : LogWF d.frames)
    (h : DB.loadManifestOffsets d m id = .ok offsets) (id' : SnapshotId) :
    Rooted [] d.frames ⟨id', m, offsets⟩ ∧ ∀ o ∈ offsets, InFile d.device.size o := by
  rw [DB.loadManifestOffsets] at h
  split at h
  · rename_i h0
    split at h
    · cases h
    · cases h
      exact ⟨.inl h0, by simp⟩
  rename_i h0
  rcases hp : DB.manifestPmt d m with e | t
  · rw [hp] at h
    cases h
  rw [hp] at h
  simp only at h
  split at h
  · cases h
  obtain ⟨rfl, hin⟩ := DB.mappedOffsets_ok _ h
  rcases manifestPmt_ok hlog hp with ⟨hz, -⟩ | ⟨a, n, hr⟩
  · exact absurd hz h0
  refine ⟨.inr ⟨t, a, n, hr, .inl fun o ho => ?_⟩, hin⟩
  rw [PMT.offsets] at ho
  rw [map_map]
  exact ho

theorem DB.validateRoot_ok {blobs : BlobManager} {walk : Bool}
    (h : db.validateRoot d m id blobs walk = .ok offsets) :
    DB.loadManifestOffsets d m id = .ok offsets := by
  rw [DB.validateRoot] at h
  split at h
  · exact h
  split at h
  · cases h
  split at h
  · cases h
  · split at h
    · cases h
    · exact h

/-! ## Registration -/

/-- More roots are registered and the free list is rebuilt. -/
theorem Sound.repinned (h : Sound ctx w) {ret : RetentionState}
    (hpin : Pinned ctx w.disk.frames ret)
    (hkeep : ∀ r ∈ w.handle.retention.allRoots, r ∈ ret.allRoots)
    (hin : ∀ r ∈ ret.allRoots, r ∈ w.handle.retention.allRoots ∨
      ∀ o ∈ r.offsets, InFile w.disk.device.size o) :
    Sound ctx { w with handle := { w.handle with
      retention := ret
      engine := w.handle.engine.refreshReclamation w.disk.device
        ({ w.handle with retention := ret } : DB).protectedOffsets } } := by
  have hgrow : ∀ o ∈ w.handle.protectedOffsets,
    o ∈ ({ w.handle with retention := ret } : DB).protectedOffsets := by
    intro o ho
    rcases DB.mem_protectedOffsets.mp ho with ⟨r, hr, hor⟩ | hl
    · exact DB.mem_protectedOffsets.mpr (.inl ⟨r, hkeep r hr, hor⟩)
    · exact DB.mem_protectedOffsets.mpr (.inr hl)
  have hfile : ∀ o ∈ ({ w.handle with retention := ret } : DB).protectedOffsets,
    InFile w.disk.device.size o := by
    intro o ho
    rcases DB.mem_protectedOffsets.mp ho with ⟨r, hr, hor⟩ | hl
    · rcases hin r hr with hold | hnew
      · exact h.held.held_in o (mem_append_left _
          (DB.mem_protectedOffsets.mpr (.inl ⟨r, hold, hor⟩)))
      · exact hnew o hor
    · exact h.held.held_in o (mem_append_left _ (DB.mem_protectedOffsets.mpr (.inr hl)))
  refine { h with protects := fun o ho => hgrow o (h.protects o ho), roots := hpin, held := ?_ }
  refine StorageEngine.SlotInv.refreshed h.held.pmt h.held.aligned h.held.mapped ?_ h.pending ?_ ?_
  · rw [h.reserved]
    simp
  · intro o ho
    rcases mem_append.mp ho with ho | ho
    · exact hfile o ho
    · exact h.held.mapped o ho
  · exact fun o ho => (mem_append.mp ho).imp_right .inl

/-- What a registration adds to the retention state. -/
structure Registered (ctx : Ctx) (d : Disk) (old new : RetentionState) : Prop where
  pinned : Pinned ctx d.frames new
  keeps : ∀ r ∈ old.allRoots, r ∈ new.allRoots
  inFile : ∀ r ∈ new.allRoots, r ∈ old.allRoots ∨ ∀ o ∈ r.offsets, InFile d.device.size o

theorem Registered.of_new {old new : RetentionState} (h : Pinned ctx d.frames old)
    (hnamed : ∀ r ∈ new.namedRoots, Rooted [] d.frames r)
    (hephemeral : ∀ r ∈ new.ephemeralRoots, Rooted ctx.views d.frames r)
    (hkeep : ∀ r, r ∈ new.allRoots ↔ r ∈ old.allRoots ∨ r = root)
    (hin : ∀ o ∈ root.offsets, InFile d.device.size o) : Registered ctx d old new := by
  refine ⟨⟨hnamed, hephemeral, fun e he => ?_⟩, fun r hr => (hkeep r).mpr (.inl hr), fun r hr => ?_⟩
  · obtain ⟨h0, r, hr, hid⟩ := h.tables e he
    exact ⟨h0, r, (hkeep r).mpr (.inl hr), hid⟩
  · rcases (hkeep r).mp hr with hr | rfl
    · exact .inl hr
    · exact .inr hin

theorem Registered.ephemeral {old : RetentionState}
    (h : Pinned ctx d.frames old) (hroot : Rooted ctx.views d.frames root)
    (hin : ∀ o ∈ root.offsets, InFile d.device.size o) (next : SnapshotId) :
    Registered ctx d old { old with
      ephemeralRoots := old.ephemeralRoots ++ [root], nextEphemeralSnapshotId := next } := by
  refine .of_new h h.named (fun r hr => ?_) (fun r => ?_) hin
  · rcases mem_append.mp hr with hr | hr
    · exact h.ephemeral r hr
    · exact mem_singleton.mp hr ▸ hroot
  · simp [RetentionState.allRoots, or_assoc]

theorem Registered.named {old : RetentionState}
    (h : Pinned ctx d.frames old) (hroot : Rooted [] d.frames root)
    (hin : ∀ o ∈ root.offsets, InFile d.device.size o) (next : SnapshotId) :
    Registered ctx d old { old with
      namedRoots := old.namedRoots ++ [root], nextSnapshotId := next } := by
  refine .of_new h (fun r hr => ?_) h.ephemeral (fun r => ?_) hin
  · rcases mem_append.mp hr with hr | hr
    · exact h.named r hr
    · exact mem_singleton.mp hr ▸ hroot
  · simp [RetentionState.allRoots, or_left_comm, or_comm]

namespace DB

/-- Only the retention state has changed, by a registration. -/
def Inserted (ctx : Ctx) (w w' : World DB Disk) : Prop := ∃ ret,
  Registered ctx w.disk w.handle.retention ret ∧ w'.handle = { w.handle with retention := ret } ∧
    w'.disk.core = w.disk.core

theorem refreshProtection_runs {w₀ : World DB Disk} (h : Sound ctx w₀) (hi : Inserted ctx w₀ w)
    {E : Error → World DB Disk → Prop} :
    Runs (Lasting ctx) refreshProtection w (fun _ => Sound ctx) E := by
  obtain ⟨ret, hreg, hhandle, hcore⟩ := hi
  obtain ⟨db, d, trace⟩ := w
  obtain rfl : db = { w₀.handle with retention := ret } := hhandle
  refine .disk (.of_modifyHandle ?_)
  obtain ⟨-, -, hdev, -⟩ := Disk.core_eq hcore
  show Sound ctx ⟨{ w₀.handle with
    retention := ret
    engine := w₀.handle.engine.refreshReclamation d.device
      ({ w₀.handle with retention := ret } : DB).protectedOffsets }, d, trace⟩
  rw [hdev]
  have hs := h.repinned hreg.pinned hreg.keeps hreg.inFile
  refine Sound.congr ?_ hs
  exact ⟨rfl, hcore⟩

theorem insertEphemeral_runs (h : Base ctx w)
    (hroot : ∀ id, Rooted ctx.views w.disk.frames ⟨id, m, offsets⟩)
    (hin : ∀ o ∈ offsets, InFile w.disk.device.size o) :
    Runs (Lasting ctx) (insertEphemeral m offsets) w (fun _ => Inserted ctx w)
      (fun _ w' => w' = w) := by
  refine .handle (.check (fun _ => rfl) fun _ => .of_modifyHandle ⟨_, ?_, rfl, rfl⟩)
  exact Registered.ephemeral h.roots (hroot _) hin _

theorem insertNamed_runs (h : Base ctx w) (hroot : ∀ id, Rooted [] w.disk.frames ⟨id, m, offsets⟩)
    (hin : ∀ o ∈ offsets, InFile w.disk.device.size o) {E : Error → World DB Disk → Prop} :
    Runs (Lasting ctx) (insertNamed m offsets) w (fun _ => Inserted ctx w) E := by
  refine .handle (.write (h.lasting_congr rfl) (.of_modifyHandle ⟨_, ?_, rfl, rfl⟩))
  exact Registered.named h.roots (hroot _) hin _

/-- **Registration of a root.** -/
theorem registerManifest_runs (h : Sound ctx w) (deduplicate ephemeral walk : Bool) :
    RunsTo (Lasting ctx) (registerManifest m deduplicate ephemeral walk) w (Sound ctx) := by
  refine .handle ?_
  cases (if deduplicate then w.handle.retainedSnapshotId m.commitId else none) with
  | some snapshotId => exact .pure h
  | none =>
    -- the blob image goes to its sidecar first
    refine .bind (R := fun _ => Sound ctx) (.of_write (h.lasting_congr rfl) ?_) fun _ w₁ h₁ =>
      .disk ?_
    · refine Sound.congr (w := w) ?_ h
      exact ⟨rfl, rfl⟩
    refine .bind (R := fun _ => Inserted ctx w₁) (.onError (R := fun _ => Sound ctx)
      (.lift (fun _ _ => h₁) fun offsets hoff => ?_) fun _ w' h' => ?_) fun _ w₂ hi => ?_
    · have hoff' := loadManifestOffsets_ok h₁.disk.log (validateRoot_ok hoff)
      refine .ite (fun _ => ?_) fun _ => insertNamed_runs h₁.toBase (fun id => (hoff' id).1)
        (hoff' 0).2
      refine (insertEphemeral_runs h₁.toBase (fun id => (hoff' id).1.mono (by simp) fun hr => hr)
        (hoff' 0).2).imp_error fun _ w' hw' => ?_
      rw [hw']
      exact h₁
    · exact (still_dropSidecar _).sound h'
    · exact .bind (refreshProtection_runs h₁ hi) fun _ _ h₃ => .pure h₃

theorem retainCommit_runs (h : Safe ctx w) (commitId : CommitId) :
    Settles ctx (retainCommit commitId) w := by
  refine .bind (admitted_runs h) fun _ w₁ h₁ => ?_
  refine .bind (flush_runs h₁.safe) fun _ w₂ h₂ => .handle ?_
  cases w₂.handle.retainedSnapshotId commitId with
  | some snapshotId => exact .pure h₂
  | none =>
    cases w₂.handle.manifestHistory.findCommit commitId with
    | none => exact .throw h₂.safe
    | some manifest =>
      exact (registerManifest_runs h₂ _ _ _).imp_error fun _ _ he => he.safe

theorem retainCurrentCommit_runs (h : Safe ctx w) : Settles ctx retainCurrentCommit w := by
  refine .bind (admitted_runs h) fun _ w₁ h₁ => ?_
  refine .bind (flush_runs h₁.safe) fun _ w₂ h₂ => .handle ?_
  refine .lift (fun _ _ => h₂.safe) fun manifest _ => ?_
  exact (registerManifest_runs h₂ _ _ _).imp_error fun _ _ he => he.safe

theorem retainCurrent_runs (h : Safe ctx w) (copied : Bool) :
    Settles ctx (retainCurrent copied) w := by
  refine .bind (admitted_runs h) fun _ w₁ h₁ => ?_
  refine .bind (flush_runs h₁.safe) fun _ w₂ h₂ => ?_
  refine .check (fun _ => h₂.safe) fun _ => .handle ?_
  cases w₂.handle.manifestHistory.latest with
  | none => exact .throw h₂.safe
  | some manifest =>
    exact (registerManifest_runs h₂ _ _ _).imp_error fun _ _ he => he.safe

theorem beginBatchTransaction_runs (h : Safe ctx w) : Settles ctx beginBatchTransaction w := by
  refine .bind (admitted_runs h) fun _ w₁ h₁ => ?_
  refine .bind (flush_runs h₁.safe) fun _ w₂ h₂ => .handle ?_
  cases w₂.handle.manifestHistory.latest with
  | none => exact .throw h₂.safe
  | some manifest =>
    refine .bind ((registerManifest_runs h₂ _ _ _).imp_error fun _ _ he => he.safe)
      fun _ _ h₃ => .pure h₃

end DB

/-! ## Release -/

/-- Between two calls nothing is promised but what the open views lease. -/
def Ctx.idle (mark : GenerationId) (views : List ReadView) : Ctx :=
  ⟨.none, mark, views, [], Device.empty, []⟩

/-- Pins are given back. -/
theorem Safe.unpinned (h : Safe ctx w) {ret : RetentionState} {leases : List PMT}
    {views : List ReadView} (hnamed : ∀ r ∈ ret.namedRoots, r ∈ w.handle.retention.namedRoots)
    (hephemeral : ∀ r ∈ ret.ephemeralRoots, r ∈ w.handle.retention.ephemeralRoots ∧
      Rooted views w.disk.frames r)
    (hleases : ∀ t ∈ leases, t ∈ w.handle.leases) (hperm : leases.Perm (views.map ReadView.pmt)) :
    Safe (Ctx.idle ctx.mark views) { w with
      handle := { w.handle with retention := ret, leases := leases } } := by
  have hroots : ∀ r ∈ ret.allRoots, r ∈ w.handle.retention.allRoots := by
    intro r hr
    rcases mem_append.mp hr with hr | hr
    · exact mem_append_left _ (hnamed r hr)
    · exact mem_append_right _ (hephemeral r hr).1
  have hshrink : ∀ o ∈ ({ w.handle with retention := ret, leases := leases } : DB).protectedOffsets,
      o ∈ w.handle.protectedOffsets := by
    intro o ho
    rcases DB.mem_protectedOffsets.mp ho with ⟨r, hr, hor⟩ | ⟨t, ht, hot⟩
    · exact DB.mem_protectedOffsets.mpr (.inl ⟨r, hroots r hr, hor⟩)
    · exact DB.mem_protectedOffsets.mpr (.inr ⟨t, hleases t ht, hot⟩)
  have hb := h.steady.toBase
  have hbase : Base (Ctx.idle ctx.mark views)
      { w with handle := { w.handle with retention := ret, leases := leases } } :=
    ⟨hb.disk.restamp hb.synced hb.disk.marked, forall_mem_nil _, hb.data, hb.synced,
      forall_mem_nil _,
      ⟨fun r hr => hb.roots.named r (hnamed r hr), fun r hr => (hephemeral r hr).2,
        forall_mem_nil _⟩, forall_mem_nil _, hperm⟩
  refine ⟨⟨hbase, h.steady.slots.mono hshrink, h.steady.durable⟩, fun hf => ?_⟩
  have hs := h.sound hf
  refine { hs with toBase := hbase, held := hs.held.mono fun o ho => ?_ }
  exact mem_append.mpr ((mem_append.mp ho).imp_left (hshrink o))

/-- Another promise for the same views. -/
theorem Safe.recast {ctx' : Ctx} (h : Safe ctx w) (hviews : ctx'.views = ctx.views)
    (hmark : Marked ctx'.mark w.disk) (hkept : Kept ctx'.kept ctx'.start w.disk.device)
    (hprot : ∀ o ∈ ctx'.kept, o ∈ w.handle.protectedOffsets)
    (htables : ∀ e ∈ ctx'.tables, (e.1 ≠ 0 ∧ ∃ root ∈ w.handle.retention.allRoots,
      root.manifest.pmtCheckpointId = e.1) ∧ ∃ a n, Resolves w.disk.frames e.1 e.2 a n) :
        Safe ctx' w := by
  have hb := h.steady.toBase
  have htabled : Tabled ctx'.tables w.disk := by
    intro e he
    rw [h.steady.durable, take_length]
    exact (htables e he).2
  have hbase : Base ctx' w := ⟨hb.disk.restamp hb.synced hmark, hkept, hb.data, hb.synced, hprot,
    ⟨hb.roots.named, hviews ▸ hb.roots.ephemeral, fun e he => (htables e he).1⟩,
      htabled, hviews ▸ hb.leased⟩
  refine ⟨⟨hbase, h.steady.slots, h.steady.durable⟩, fun hf => ?_⟩
  have hs := h.sound hf
  exact { hs with toBase := hbase }

theorem Safe.idle (h : Safe ctx w) : Safe (Ctx.idle ctx.mark ctx.views) w :=
  h.recast rfl h.steady.disk.marked (forall_mem_nil _) (forall_mem_nil _) (forall_mem_nil _)

/-- After a call: nothing has to be kept any more, and what had to is as it was. -/
structure Settled (ctx : Ctx) (views : List ReadView) (w : World DB Disk) : Prop where
  safe : Safe (Ctx.idle ctx.mark views) w
  held : Held ctx w.disk

theorem Safe.settled (h : Safe ctx w) : Settled ctx ctx.views w := ⟨h.idle, h.steady.lasting.2⟩

namespace DB

/-- No root was added, and the ephemeral ones in `gone` are none any more. -/
def Removed (gone : SnapshotId → Prop) (w w' : World DB Disk) : Prop := ∃ ret : RetentionState,
  w'.handle.core = DB.core { w.handle with retention := ret } ∧ w'.disk.core = w.disk.core ∧
    (∀ r ∈ ret.namedRoots, r ∈ w.handle.retention.namedRoots) ∧
    ∀ r ∈ ret.ephemeralRoots, r ∈ w.handle.retention.ephemeralRoots ∧ ¬ gone r.snapshotId

theorem Removed.refl {gone : SnapshotId → Prop}
    (h : ∀ r ∈ w.handle.retention.ephemeralRoots, ¬ gone r.snapshotId) : Removed gone w w :=
  ⟨w.handle.retention, rfl, rfl, fun _ hr => hr, fun r hr => ⟨hr, h r hr⟩⟩

theorem removeRoot_runs (h : Base ctx w) (id : SnapshotId) :
    Runs (Lasting ctx) (removeRoot id) w (fun _ => Removed (· = id) w)
      (fun _ w' => w' = w ∧ ∀ r ∈ w.handle.retention.ephemeralRoots, r.snapshotId ≠ id) := by
  refine .handle (.ite (fun _ => ?_) fun hnone => ?_)
  · refine .modifyHandle (.of_write (h.lasting_congr rfl) ⟨_, rfl, rfl,
      fun _ hr => hr, fun r hr => ?_⟩)
    obtain ⟨hmem, hne⟩ := mem_filter.mp hr
    exact ⟨hmem, by simpa using hne⟩
  · have hne : ∀ r ∈ w.handle.retention.ephemeralRoots, r.snapshotId ≠ id := by simpa using hnone
    refine .check (fun _ => ⟨rfl, hne⟩) fun _ => ?_
    refine .write (h.lasting_congr rfl) (.modifyHandle (.of_write (h.lasting_congr rfl)
      ⟨_, rfl, rfl, fun r hr => mem_of_mem_filter hr, fun r hr => ⟨hr, hne r hr⟩⟩))

theorem releaseRoot_removes (h : Base ctx w) (id : SnapshotId) :
    Runs (Lasting ctx) (releaseRoot id) w (fun _ => Removed (· = id) w)
      (fun _ w' => w' = w ∧ ∀ r ∈ w.handle.retention.ephemeralRoots, r.snapshotId ≠ id) := by
  refine .bind (removeRoot_runs h id) fun _ w₁ hw₁ => .of_modifyHandle ?_
  obtain ⟨ret, hcore, hrest⟩ := hw₁
  exact ⟨ret, hcore, hrest⟩

theorem releaseRoot_runs (h : Safe ctx w) (id : SnapshotId) :
    RunsTo (Lasting ctx) (releaseRoot id) w (Settled ctx ctx.views) := by
  refine (releaseRoot_removes h.steady.toBase id).conseq (fun _ w' hw' => ?_) fun _ w' hw' => ?_
  · obtain ⟨ret, hcore, hdisk, hnamed, hephemeral⟩ := hw'
    refine ⟨Safe.congr ?_ (h.unpinned hnamed (fun r hr => ?_) (fun _ ht => ht) h.steady.leased),
      h.steady.lasting.2.congr hdisk⟩
    · exact ⟨hcore, hdisk⟩
    · exact ⟨(hephemeral r hr).1, h.steady.roots.ephemeral r (hephemeral r hr).1⟩
  · rw [hw'.1]
    exact h.settled

theorem releaseSnapshot_runs (h : Safe ctx w) (id : SnapshotId) :
    RunsTo (Lasting ctx) (releaseSnapshot id) w (Settled ctx ctx.views) :=
  .bind ((admitted_runs h).imp_error fun _ _ he => he.settled) fun _ _ h₁ =>
    releaseRoot_runs h₁.safe id

end DB

/-! ## Views -/

theorem mem_eraseIdx {α : Type} {l : List α} {a b : α} (hi : l[i]? = some a) (hb : b ∈ l)
    (hne : b ≠ a) : b ∈ l.eraseIdx i := by
  obtain ⟨j, hj⟩ := mem_iff_getElem?.mp hb
  refine mem_eraseIdx_iff_getElem?.mpr ⟨j, fun he => hne ?_, hj⟩
  rw [he, hi] at hj
  cases hj
  rfl

/-- The leases follow when a view is dropped from the list. -/
theorem perm_eraseIdx {α β : Type} [DecidableEq β] {f : α → β} {l : List α} {ls : List β} {a : α}
    (h : ls.Perm (l.map f)) (hi : l[i]? = some a) :
    (ls.erase (f a)).Perm ((l.eraseIdx i).map f) := by
  obtain ⟨hlt, rfl⟩ := List.getElem?_eq_some_iff.mp hi
  have hcons : (l.map f).Perm (f l[i] :: (l.eraseIdx i).map f) :=
    ((getElem_cons_eraseIdx_perm hlt).map f).symm
  have herase := (h.trans hcons).erase (f l[i])
  rwa [erase_cons_head] at herase

namespace DB

theorem dropTable_runs (h : Safe ctx w) {w₁ : World DB Disk}
    (hv : ctx.views[i]? = some v) (hr : Removed (fun id => v.leased ∧ id = v.snapshotId) w w₁)
    {E : Error → World DB Disk → Prop} :
    Runs (Lasting ctx) (dropTable v.pmt) w₁ (fun _ => Settled ctx (ctx.views.eraseIdx i)) E := by
  obtain ⟨ret, hcore, hdisk, hnamed, hephemeral⟩ := hr
  have hleases : w₁.handle.leases = w.handle.leases := congrArg Core.leases hcore
  have hmem : v.pmt ∈ w₁.handle.leases := by
    rw [hleases]
    exact h.steady.leased.mem_iff.mpr (mem_map_of_mem (mem_of_getElem? hv))
  have hun : Safe (Ctx.idle ctx.mark (ctx.views.eraseIdx i)) { w with handle := { w.handle with
      retention := ret
      leases := w.handle.leases.erase v.pmt } } := by
    refine h.unpinned hnamed (fun r hr => ?_) (fun _ ht => mem_of_mem_erase ht)
      (perm_eraseIdx h.steady.leased hv)
    refine ⟨(hephemeral r hr).1, (h.steady.roots.ephemeral r (hephemeral r hr).1).mono ?_
      fun hr => hr⟩
    intro v' hv' hl hid
    refine mem_eraseIdx hv hv' fun he => ?_
    rw [he] at hl hid
    exact (hephemeral r hr).2 ⟨hl, hid.symm⟩
  refine .of_modifyHandle ⟨?_, h.steady.lasting.2.congr hdisk⟩
  rw [if_pos hmem]
  refine Safe.congr ?_ hun
  refine ⟨?_, hdisk⟩
  show ({ w₁.handle.core with leases := w₁.handle.leases.erase v.pmt } : Core) = _
  rw [hcore, hleases]
  rfl

/-- **A view is dropped.** -/
theorem dropReadView_runs (h : Safe ctx w) (hv : ctx.views[i]? = some v) :
    RunsTo (Lasting ctx) (dropReadView v) w (Settled ctx (ctx.views.eraseIdx i)) := by
  refine .bind (R := fun _ => Removed (fun id => v.leased ∧ id = v.snapshotId) w)
    (.onError (R := fun _ w' => w' = w ∧ ∀ r ∈ w.handle.retention.ephemeralRoots,
      r.snapshotId ≠ v.snapshotId) (.runIf (fun _ => ?_) fun hl => Removed.refl fun r _ hg =>
        ?_) fun _ w' hw' => ?_)
    fun _ w₁ hw₁ => dropTable_runs h hv hw₁
  · refine (releaseRoot_removes h.steady.toBase _).imp fun _ w' hw' => ?_
    obtain ⟨ret, hcore, hdisk, hnamed, hephemeral⟩ := hw'
    exact ⟨ret, hcore, hdisk, hnamed, fun r hr => ⟨(hephemeral r hr).1,
      fun hg => (hephemeral r hr).2 hg.2⟩⟩
  · rw [hl] at hg
    cases hg.1
  · rw [hw'.1]
    exact dropTable_runs h hv (Removed.refl fun r hr hg => hw'.2 r hr hg.2)

/-! Opening one. -/

theorem activeManifest_ok (h : db.activeManifest = .ok m) : db.manifestHistory.latest = some m := by
  rw [activeManifest] at h
  split at h
  · cases h
  split at h
  · cases h
  · cases h
    assumption

end DB

/-- The manifest of the newest frame selects the table of the handle. -/
theorem Sound.latest_rooted (h : Sound ctx w) (hm : w.handle.manifestHistory.latest = some m)
    (hl : v.leased) (hp : v.pmt = w.handle.engine.pmt) (offsets : List Nat) :
    Rooted (v :: ctx.views) w.disk.frames ⟨v.snapshotId, m, offsets⟩ := by
  obtain ⟨m', hm', hparent⟩ := h.latest
  rw [hm] at hm'
  cases hm'
  rcases hparent with ⟨-, h0, -⟩ | ⟨f, hf, rfl⟩
  · exact .inl h0
  rcases h.newest with ⟨hnil, -⟩ | ⟨f', t, a, n, hf', hr, hms⟩
  · rw [hnil] at hf
    cases hf
  rw [hf] at hf'
  cases hf'
  rw [← (h.disk.log.named f (mem_of_getLast? hf)).2] at hr
  exact .inr ⟨t, a, n, hr, .inr ⟨v, .head _, hl, rfl, by rw [hp, hms]⟩⟩

/-- The state of a handle with a new view. -/
def DB.withView (db : DB) (d : Disk) (v : ReadView) (manifest : Manifest) : DB :=
  let ret := { db.retention with
    ephemeralRoots := db.retention.ephemeralRoots ++ [⟨v.snapshotId, manifest, []⟩]
    nextEphemeralSnapshotId := v.snapshotId - 1 }
  { db with
    retention := ret
    leases := v.pmt :: db.leases
    engine := { db.engine.refreshReclamation d.device
      ({ db with retention := ret } : DB).protectedOffsets with reclamationDirty := true } }

/-- The view's root is registered and its table leased. -/
theorem Sound.viewed (h : Sound ctx w) (hm : w.handle.manifestHistory.latest = some m)
    (hl : v.leased) (hp : v.pmt = w.handle.engine.pmt) :
    Sound { ctx with views := v :: ctx.views }
      { w with handle := w.handle.withView w.disk v m } := by
  -- the root has no slots of its own, the lease has those of the table
  have hroots : (w.handle.withView w.disk v m).retention.allRoots.flatMap RetainedRoot.offsets =
      w.handle.retention.allRoots.flatMap RetainedRoot.offsets := by
    simp [DB.withView, RetentionState.allRoots]
  have hoffsets : ∀ o, o ∈ (w.handle.withView w.disk v m).protectedOffsets ↔
      o ∈ w.handle.protectedOffsets ∨ o ∈ w.handle.engine.pmt.offsets := by
    intro o
    rw [DB.protectedOffsets, hroots, ← hp]
    show o ∈ _ ++ (v.pmt.offsets ++ _) ↔ o ∈ _ ++ _ ∨ _
    rw [mem_append, mem_append, mem_append]
    tauto
  have hb : Base { ctx with views := v :: ctx.views }
    { w with handle := w.handle.withView w.disk v m } := by
    refine { h with
      protects := fun o ho => (hoffsets o).mpr (.inl (h.protects o ho))
      roots := (@Registered.ephemeral { ctx with views := v :: ctx.views } w.disk _ _
        { h.roots with ephemeral := fun r hr => ?_ } (h.latest_rooted hm hl hp [])
        (by simp) _).pinned
      leased := h.leased.cons v.pmt }
    exact (h.roots.ephemeral r hr).mono (fun _ hv _ _ => .tail _ hv) fun hr => hr
  refine { h with toBase := hb, held := ?_ }
  have hheld : ∀ o ∈ (w.handle.withView w.disk v m).protectedOffsets ++ w.handle.engine.pmt.offsets,
      o ∈ w.handle.protectedOffsets ∨ o ∈ w.handle.engine.pmt.offsets := by
    intro o ho
    rcases mem_append.mp ho with ho | ho
    · exact (hoffsets o).mp ho
    · exact .inr ho
  have hkeep : ({ w.handle with retention := (w.handle.withView w.disk v m).retention } :
      DB).protectedOffsets =
      w.handle.protectedOffsets := by
    rw [DB.protectedOffsets, hroots, DB.protectedOffsets]
  have hslots : StorageEngine.SlotInv (w.handle.engine.refreshReclamation w.disk.device
      ({ w.handle with retention := (w.handle.withView w.disk v m).retention } :
        DB).protectedOffsets)
      w.disk.device.size []
      ((w.handle.withView w.disk v m).protectedOffsets ++ w.handle.engine.pmt.offsets) := by
    rw [hkeep]
    refine StorageEngine.SlotInv.refreshed h.held.pmt h.held.aligned h.held.mapped
      (by simp [h.reserved]) h.pending (fun o ho => ?_) fun o ho => (hheld o ho).imp_right .inl
    rcases hheld o ho with ho | ho
    · exact h.held.held_in o (mem_append_left _ ho)
    · exact h.held.mapped o ho
  exact hslots.congr rfl rfl rfl rfl rfl

namespace DB

/-- **A view is opened.** -/
theorem beginReadView_runs (h : Safe ctx w) :
    Runs (Lasting ctx) beginReadView w (fun v => Safe { ctx with views := v :: ctx.views })
      (fun _ => Settled ctx ctx.views) := by
  refine .handle (.lift (fun _ _ => h.settled) fun _ hread => ?_)
  have hs := h.sound (checkFence_ok hread).2
  refine .bind ((checkMaintenanceIdle_runs w).imp_error fun _ w' hw' => ?_) fun _ w₁ hw₁ => ?_
  · rw [hw']
    exact h.settled
  rw [hw₁]
  refine .lift (fun _ _ => h.settled) fun manifest hm => ?_
  have hv : ∀ blobs, Sound { ctx with views := ⟨w.handle.engine.pmt, manifest.rootPageId, blobs,
        w.handle.retention.nextEphemeralSnapshotId, true⟩ :: ctx.views }
      { w with handle := w.handle.withView w.disk ⟨w.handle.engine.pmt, manifest.rootPageId, blobs,
        w.handle.retention.nextEphemeralSnapshotId, true⟩ manifest } := fun _ =>
    hs.viewed (activeManifest_ok hm) rfl rfl
  have hinsert : Runs (Lasting ctx) (insertEphemeral manifest []) w
      (fun _ w' => w' = { w with handle := { w.handle with retention := { w.handle.retention with
        ephemeralRoots := w.handle.retention.ephemeralRoots ++
          [⟨w.handle.retention.nextEphemeralSnapshotId, manifest, []⟩]
        nextEphemeralSnapshotId := w.handle.retention.nextEphemeralSnapshotId - 1 } } })
      (fun _ => Settled ctx ctx.views) :=
    .handle (.check (fun _ => h.settled) fun _ => .of_modifyHandle rfl)
  refine .bind hinsert fun _ w₂ hw₂ => ?_
  rw [hw₂]
  have hrefresh : ∀ u : World DB Disk, Runs (Lasting ctx) refreshProtection u
      (fun _ u' => u' = { u with handle := { u.handle with
        engine := u.handle.engine.refreshReclamation u.disk.device u.handle.protectedOffsets } })
      (fun _ => Settled ctx ctx.views) := fun u => .disk (.of_modifyHandle rfl)
  refine .bind (hrefresh _) fun _ w₃ hw₃ => ?_
  rw [hw₃]
  refine .modifyHandle (.disk (.bind (R := fun blobs w' => w' = { w with
    handle := w.handle.withView w.disk ⟨w.handle.engine.pmt, manifest.rootPageId, blobs,
      w.handle.retention.nextEphemeralSnapshotId, true⟩ manifest }) ?_ fun blobs w₄ hw₄ => ?_))
  · refine .onError (R := fun _ w' => w' = { w with
      handle := w.handle.withView w.disk ⟨w.handle.engine.pmt, manifest.rootPageId, .image [],
        w.handle.retention.nextEphemeralSnapshotId, true⟩ manifest })
          (.of_lift (fun _ _ => rfl) fun _ _ => rfl)
      fun _ w' hw' => ?_
    -- the root that was just inserted is there to be released
    rw [hw']
    have hsafe := (hv (.image [])).safe
    refine .mono (C := Lasting _) ?_ (fun _ hd => hd) (fun _ _ hq => hq) fun _ _ he => he
    refine .bind ((releaseRoot_removes hsafe.steady.toBase _).imp_error
      fun _ w₄ hw₄ => ?_) fun _ w₄ hw₄ => ?_
    · refine absurd rfl (hw₄.2 ⟨w.handle.retention.nextEphemeralSnapshotId, manifest, []⟩ ?_)
      exact mem_concat_self
    · obtain ⟨ret, hcore, hdisk, hnamed, hephemeral⟩ := hw₄
      refine (dropTable_runs (i := 0) hsafe rfl ⟨ret, hcore, hdisk, hnamed,
        fun r hr => ⟨(hephemeral r hr).1, fun hg => (hephemeral r hr).2 hg.2⟩⟩).imp
        fun _ _ hq => ⟨hq.safe, hq.held⟩
  · rw [hw₄]
    exact .pure (hv blobs).safe

end DB

end SeerDb
