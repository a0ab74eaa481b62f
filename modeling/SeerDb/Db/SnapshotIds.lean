/-
# `SeerDb.Db.SnapshotIds` — the ids of named roots over a whole run

A named root gets the next value of a counter that the registry file keeps beside the
roots.  An empty registry has no file, so releasing the last root removes the counter
with it, and the next handle counts from one again.

The ledger of a run holds the ids that registrations returned, with the commit each was
for, and the named ids that were released.  `Counted` relates it to a counter and its
roots; it is an invariant of every call, and of a reopen that finds the counter.
-/
import SeerDb.Db.Apart
import SeerDb.Db.Process

namespace SeerDb

open Lib List

structure Ledger where
  returned : List (SnapshotId × CommitId)
  released : List SnapshotId

def Ledger.returns (l : Ledger) (id : SnapshotId) (commit : CommitId) : Ledger :=
  { l with returned := (id, commit) :: l.returned }

def Ledger.releases (l : Ledger) (id : SnapshotId) : Ledger :=
  { l with released := id :: l.released }

/-- No id stands for two commits. -/
def OneCommitEach (l : List (SnapshotId × CommitId)) : Prop :=
  ∀ id commit commit', (id, commit) ∈ l → (id, commit') ∈ l → commit = commit'

/-! ## The counter -/

structure Counted (l : Ledger) (next : SnapshotId)
    (roots : List (SnapshotId × CommitId)) : Prop where
  below : ∀ e ∈ l.returned ++ roots, e.1 < next
  released_below : ∀ id ∈ l.released, id < next
  unique : OneCommitEach (l.returned ++ roots)
  gone : ∀ e ∈ roots, e.1 ∉ l.released
  nodup : (roots.map Prod.fst).Nodup

section

variable {l : Ledger} {next id : SnapshotId} {commit : CommitId}
  {roots : List (SnapshotId × CommitId)}

theorem Counted.blank : Counted ⟨[], []⟩ 1 [] where
  below := by simp
  released_below := by simp
  unique := fun _ _ _ he => absurd he not_mem_nil
  gone := by simp
  nodup := nodup_nil

theorem Counted.sublist {roots' : List (SnapshotId × CommitId)} (h : Counted l next roots)
    (hsub : roots'.Sublist roots) : Counted l next roots' := by
  have hmem : ∀ e ∈ l.returned ++ roots', e ∈ l.returned ++ roots := by
    intro e he
    exact mem_append.mpr ((mem_append.mp he).imp_right fun he => hsub.subset he)
  exact ⟨fun e he => h.below e (hmem e he), h.released_below,
    fun id k k' hk hk' => h.unique id k k' (hmem _ hk) (hmem _ hk'), fun e he =>
      h.gone e (hsub.subset he),
    h.nodup.sublist (hsub.map Prod.fst)⟩

/-- A new root takes the counter. -/
theorem Counted.insert (h : Counted l next roots) (commit : CommitId) :
    Counted l (next + 1) (roots ++ [(next, commit)]) := by
  have hcases : ∀ e ∈ l.returned ++ (roots ++ [(next, commit)]), e ∈ l.returned ++ roots ∨
    e = (next, commit) := by
    intro e he
    rw [← append_assoc] at he
    exact (mem_append.mp he).imp_right mem_singleton.mp
  refine ⟨fun e he => ?_, fun id hid => ?_, fun id k k' hk hk' => ?_, fun e he hgone => ?_, ?_⟩
  · rcases hcases e he with he | rfl
    · exact Nat.lt_succ_of_lt (h.below e he)
    · exact Nat.lt_succ_self next
  · exact Nat.lt_succ_of_lt (h.released_below id hid)
  · rcases hcases _ hk with hk | hk <;> rcases hcases _ hk' with hk' | hk'
    · exact h.unique id k k' hk hk'
    · cases hk'
      exact absurd (h.below _ hk) (Nat.lt_irrefl next)
    · cases hk
      exact absurd (h.below _ hk') (Nat.lt_irrefl next)
    · cases hk
      cases hk'
      rfl
  · rcases mem_append.mp he with he | he
    · exact h.gone e he hgone
    · rw [mem_singleton.mp he] at hgone
      exact absurd (h.released_below _ hgone) (Nat.lt_irrefl next)
  · rw [map_append, nodup_append]
    refine ⟨h.nodup, nodup_singleton _, fun id hid id' hid' heq => ?_⟩
    obtain ⟨e, he, rfl⟩ := mem_map.mp hid
    have hnext : e.1 = next := heq.trans (mem_singleton.mp hid')
    exact absurd (h.below e (mem_append_right _ he)) (hnext ▸ Nat.lt_irrefl e.1)

/-- The id of a root is returned. -/
theorem Counted.return (h : Counted l next roots) (hroot : (id, commit) ∈ roots) :
    Counted (l.returns id commit) next roots := by
  have hmem : ∀ e ∈ (id, commit) :: l.returned ++ roots, e ∈ l.returned ++ roots := by
    intro e he
    rcases mem_cons.mp he with rfl | he
    · exact mem_append_right _ hroot
    · exact he
  exact ⟨fun e he => h.below e (hmem e he), h.released_below,
    fun id k k' hk hk' => h.unique id k k' (hmem _ hk) (hmem _ hk'), h.gone, h.nodup⟩

/-- An id that no root has any more is written down as released. -/
theorem Counted.release (h : Counted l next roots) (hid : id < next)
    (hgone : ∀ e ∈ roots, e.1 ≠ id) :
    Counted (l.releases id) next roots := by
  refine ⟨h.below, fun id' hid' => ?_, h.unique, fun e he hr => ?_, h.nodup⟩
  · rcases mem_cons.mp hid' with rfl | hid'
    · exact hid
    · exact h.released_below id' hid'
  · rcases mem_cons.mp hr with hr | hr
    · exact hgone e he hr
    · exact h.gone e he hr

end

/-! ## Handle and file -/

/-- The ids of the named roots, and their commits. -/
def RetentionState.commits (r : RetentionState) : List (SnapshotId × CommitId) :=
  r.namedRoots.map fun root => (root.snapshotId, root.manifest.commitId)

theorem RetentionState.mem_commits {r : RetentionState} {root : RetainedRoot}
    (h : root ∈ r.namedRoots) :
    (root.snapshotId, root.manifest.commitId) ∈ r.commits :=
  mem_map_of_mem (f := fun root : RetainedRoot => (root.snapshotId, root.manifest.commitId)) h

def RetentionRegistry.commits (r : RetentionRegistry) : List (SnapshotId × CommitId) :=
  r.roots.map fun root => (root.1, root.2.commitId)

/-- The registry file has the counter. -/
def Disk.Filed (l : Ledger) (d : Disk) : Prop := OneCommitEach l.returned ∧
  ∀ registry, d.registry = some registry →
    registry.roots ≠ [] ∧ Counted l registry.nextSnapshotId registry.commits

/-- Handle and file agree, and the counter is right. -/
structure DB.Counts (l : Ledger) (w : World DB Disk) : Prop where
  file : w.disk.registry = w.handle.retention.registry
  counted : Counted l w.handle.retention.nextSnapshotId w.handle.retention.commits

section

variable {l : Ledger} {w w' : World DB Disk} {d d' : Disk} {r : RetentionState}

theorem RetentionState.registry_filed (h : Counted l r.nextSnapshotId r.commits)
    (hd : d.registry = r.registry) :
    d.Filed l := by
  refine ⟨fun id k k' hk hk' => h.unique id k k' (mem_append_left _ hk) (mem_append_left _ hk'), ?_⟩
  intro registry hreg
  rw [hd, RetentionState.registry] at hreg
  split at hreg
  · cases hreg
  rename_i hne
  cases hreg
  refine ⟨fun hnil => hne ?_, ?_⟩
  · rw [List.isEmpty_iff]
    exact map_eq_nil_iff.mp hnil
  · show Counted l r.nextSnapshotId (List.map _ (List.map _ _))
    rw [map_map]
    exact h

theorem DB.Counts.named_lt (h : DB.Counts l w) {root : RetainedRoot}
    (hroot : root ∈ w.handle.retention.namedRoots) :
    root.snapshotId < w.handle.retention.nextSnapshotId :=
  h.counted.below _ (mem_append_right _ (RetentionState.mem_commits hroot))

theorem DB.Counts.filed (h : DB.Counts l w) : w.disk.Filed l :=
  RetentionState.registry_filed h.counted h.file

theorem Disk.Filed.congr (h : d.Filed l) (hd : d'.registry = d.registry) : d'.Filed l :=
  ⟨h.1, fun registry hreg => h.2 registry (hd ▸ hreg)⟩

theorem DB.Counts.congr (h : DB.Counts l w) (hret : w'.handle.retention = w.handle.retention)
    (hreg : w'.disk.registry = w.disk.registry) : DB.Counts l w' := by
  refine ⟨?_, ?_⟩
  · rw [hreg, hret]
    exact h.file
  · rw [hret]
    exact h.counted

theorem Apart.counts {α : Type} {p : DbM α} (hp : Apart p) (h : DB.Counts l w) :
    RunsTo (Disk.Filed l) p w (DB.Counts l) := by
  refine Keeps.runs hp (fun d hd => h.filed.congr (congrArg Prod.fst hd)) fun w' hw' => ?_
  exact h.congr (congrArg Pins.retention hw'.1) (congrArg Prod.fst hw'.2)

end

/-! ## Registration and release -/

namespace DB

variable {l : Ledger} {w : World DB Disk} {m : Manifest} {id : SnapshotId} {commitId : CommitId}

theorem retainedSnapshotId_mem {db : DB} (h : db.retainedSnapshotId commitId = some id) :
    (id, commitId) ∈ db.retention.commits := by
  rw [retainedSnapshotId, Option.map_eq_some_iff] at h
  obtain ⟨root, hroot, rfl⟩ := h
  have hcommit : root.manifest.commitId = commitId := by simpa using List.find?_some hroot
  rw [← hcommit]
  exact RetentionState.mem_commits (mem_of_find?_eq_some hroot)

/-- The id of the root `m` was returned: a named root if `named` says so. -/
def Returned (l : Ledger) (w : World DB Disk) (m : Manifest) (named : Bool) (id : SnapshotId)
    (w' : World DB Disk) : Prop :=
  Counts l w' ∧ w'.handle.manifestHistory = w.handle.manifestHistory ∧
    (named = true → (id, m.commitId) ∈ w'.handle.retention.commits)

theorem insertNamed_counts (h : Counts l w) (m : Manifest) (offsets : List Nat) :
    Runs (Disk.Filed l) (insertNamed m offsets) w
      (fun _ w' => Returned l w m true w.handle.retention.nextSnapshotId w')
      (fun _ => Counts l) := by
  have hnew : Counted l (w.handle.retention.nextSnapshotId + 1)
    (RetentionState.commits { w.handle.retention with
      namedRoots := w.handle.retention.namedRoots ++
        [⟨w.handle.retention.nextSnapshotId, m, offsets⟩] }) := by
    rw [RetentionState.commits, map_append]
    exact h.counted.insert m.commitId
  refine .handle (.write ?_ (.of_modifyHandle ⟨⟨rfl, hnew⟩, rfl, fun _ => ?_⟩))
  · exact RetentionState.registry_filed (r := { w.handle.retention with
      namedRoots := w.handle.retention.namedRoots ++
        [⟨w.handle.retention.nextSnapshotId, m, offsets⟩]
      nextSnapshotId := w.handle.retention.nextSnapshotId + 1 }) hnew rfl
  · exact @RetentionState.mem_commits { w.handle.retention with
      namedRoots := w.handle.retention.namedRoots ++ _ } ⟨_, m, _⟩ mem_concat_self

theorem insertEphemeral_counts (h : Counts l w) (m : Manifest) (offsets : List Nat) :
    Runs (Disk.Filed l) (insertEphemeral m offsets) w
      (fun _ w' => Returned l w m false w.handle.retention.nextEphemeralSnapshotId w')
      (fun _ => Counts l) := by
  refine .handle (.check (fun _ => h) fun _ => .of_modifyHandle ⟨⟨?_, h.counted⟩, rfl, nofun⟩)
  exact h.file

theorem dropSidecar_counts (h : Counts l w) (id : SnapshotId) :
    RunsTo (Disk.Filed l) (dropSidecar id) w (Counts l) := by
  refine .of_write (h.filed.congr rfl) ⟨?_, h.counted⟩
  exact h.file

theorem registerManifest_counts (h : Counts l w) (m : Manifest) (deduplicate named walk : Bool) :
    Runs (Disk.Filed l) (registerManifest m deduplicate (!named) walk) w (Returned l w m named)
      (fun _ => Counts l) := by
  refine .handle ?_
  cases hdedup : (if deduplicate then w.handle.retainedSnapshotId m.commitId else none) with
  | some found =>
    refine .pure ⟨h, rfl, fun _ => ?_⟩
    split at hdedup
    · exact retainedSnapshotId_mem hdedup
    · cases hdedup
  | none =>
    refine .write (h.filed.congr rfl) (.disk ?_)
    have h₁ : ∀ retained trace, Counts l ⟨w.handle, { w.disk with retained := retained }, trace⟩ :=
      fun _ _ =>
      h.congr rfl rfl
    refine .bind (R := fun _ => Returned l w m named
      (if !named then w.handle.retention.nextEphemeralSnapshotId
      else w.handle.retention.nextSnapshotId)) (.onError (R := fun _ => Counts l)
      (.lift (fun _ _ => h₁ _ _) fun offsets _ => ?_) fun _ _ he => dropSidecar_counts he _)
        fun _ w₂ hw₂ => ?_
    · cases named with
      | true => exact insertNamed_counts (h₁ _ _) m offsets
      | false => exact insertEphemeral_counts (h₁ _ _) m offsets
    · obtain ⟨hc, hhist, hmem⟩ := hw₂
      refine .bind (R := fun _ => Returned l w m named _)
        (.disk (.of_modifyHandle ⟨?_, hhist, hmem⟩)) fun _ _ hq => .pure hq
      exact hc.congr rfl rfl

theorem Counts.returns (h : Counts l w) (hid : (id, commitId) ∈ w.handle.retention.commits) :
    Counts (l.returns id commitId) w := ⟨h.file, h.counted.return hid⟩

theorem retainCommit_counts (h : Counts l w) (commitId : CommitId) :
    Runs (Disk.Filed l) (retainCommit commitId) w (fun id => Counts (l.returns id commitId))
      (fun _ => Counts l) := by
  refine .bind (Apart.counts keeps_checkWritable h) fun _ w₁ h₁ => ?_
  refine .bind (Apart.counts apart_flush h₁) fun _ w₂ h₂ => .handle ?_
  cases hfound : w₂.handle.retainedSnapshotId commitId with
  | some id => exact .pure (h₂.returns (retainedSnapshotId_mem hfound))
  | none =>
    cases hm : w₂.handle.manifestHistory.findCommit commitId with
    | none => exact .throw h₂
    | some m =>
      have hcommit : m.commitId = commitId := by simpa using List.find?_some hm
      refine (registerManifest_counts h₂ m true true true).imp fun id w' hq => ?_
      rw [← hcommit]
      exact hq.1.returns (hq.2.2 rfl)

/-- The registered commit is that of the newest manifest. -/
theorem retainCurrent_counts (h : Counts l w) (copied : Bool) :
    Runs (Disk.Filed l) (retainCurrent copied) w (fun id w' => ∃ m,
      w'.handle.manifestHistory.latest = some m ∧
      Counts (l.returns id m.commitId) w') (fun _ => Counts l) := by
  refine .bind (Apart.counts keeps_checkWritable h) fun _ w₁ h₁ => ?_
  refine .bind (Apart.counts apart_flush h₁) fun _ w₂ h₂ => .check (fun _ => h₂) fun _ => .handle ?_
  cases hm : w₂.handle.manifestHistory.latest with
  | none => exact .throw h₂
  | some m =>
    refine (registerManifest_counts h₂ m false true true).imp fun id w' hq => ?_
    exact ⟨m, by rw [hq.2.1, hm], hq.1.returns (hq.2.2 rfl)⟩

theorem retainCurrentCommit_counts (h : Counts l w) :
    RunsTo (Disk.Filed l) retainCurrentCommit w (Counts l) := by
  refine .bind (Apart.counts keeps_checkWritable h) fun _ w₁ h₁ => ?_
  refine .bind (Apart.counts apart_flush h₁) fun _ w₂ h₂ =>
    .handle (.lift (fun _ _ => h₂) fun m _ => ?_)
  exact (registerManifest_counts h₂ m false false false).imp fun _ _ hq => hq.1

theorem beginBatchTransaction_counts (h : Counts l w) :
    RunsTo (Disk.Filed l) beginBatchTransaction w (Counts l) := by
  refine .bind (Apart.counts keeps_checkWritable h) fun _ w₁ h₁ => ?_
  refine .bind (Apart.counts apart_flush h₁) fun _ w₂ h₂ => .handle ?_
  cases w₂.handle.manifestHistory.latest with
  | none => exact .throw h₂
  | some m =>
    refine .bind (R := fun _ => Counts l) ?_ fun _ _ hq => .pure hq
    exact (registerManifest_counts h₂ m false false true).imp fun _ _ hq => hq.1

/-- A release leaves the counter where it is. -/
def Released (l : Ledger) (w w' : World DB Disk) : Prop :=
  Counts l w' ∧ w'.handle.retention.nextSnapshotId = w.handle.retention.nextSnapshotId

theorem removeRoot_counts (h : Counts l w) (id : SnapshotId) :
    RunsTo (Disk.Filed l) (removeRoot id) w (Released l w) := by
  refine .handle (.ite (fun _ => ?_) fun _ => ?_)
  · have h₁ : ∀ roots, Counts l { w with
      handle := { w.handle with retention := { w.handle.retention with
        ephemeralRoots := roots } } } := fun _ => ⟨h.file, h.counted⟩
    exact .modifyHandle (.of_write ((h₁ _).filed.congr rfl) ⟨(h₁ _).congr rfl rfl, rfl⟩)
  · refine .check (fun _ => ⟨h, rfl⟩) fun _ => ?_
    have hless : Counted l w.handle.retention.nextSnapshotId
      (RetentionState.commits { w.handle.retention with
        namedRoots := w.handle.retention.namedRoots.filter fun root => root.snapshotId ≠ id }) := by
      exact h.counted.sublist (filter_sublist.map _)
    refine .write (RetentionState.registry_filed hless rfl) (.modifyHandle ?_)
    exact .of_write (RetentionState.registry_filed hless rfl) ⟨⟨rfl, hless⟩, rfl⟩

theorem releaseRoot_counts (h : Counts l w) (id : SnapshotId) :
    RunsTo (Disk.Filed l) (releaseRoot id) w (Released l w) :=
  .bind (removeRoot_counts h id) fun _ _ hq => .of_modifyHandle ⟨hq.1.congr rfl rfl, hq.2⟩

theorem releaseSnapshot_counts (h : Counts l w) (id : SnapshotId) :
    RunsTo (Disk.Filed l) (releaseSnapshot id) w (Released l w) := by
  have hcheck : RunsTo (Disk.Filed l) checkWritable w (fun w' => w' = w) :=
    .handle (.of_lift (fun _ _ => rfl) fun _ _ => rfl)
  refine .bind (hcheck.imp_error fun _ w' he => ?_) fun _ w' hw' => ?_
  · rw [he]
    exact ⟨h, rfl⟩
  · rw [hw']
    exact releaseRoot_counts h id

theorem dropTable_counts (h : Counts l w) (pmt : PMT) :
    RunsTo (Disk.Filed l) (dropTable pmt) w (Counts l) := by
  refine .of_modifyHandle ?_
  split
  · exact h.congr rfl rfl
  · exact h

theorem dropReadView_counts (h : Counts l w) (v : ReadView) :
    RunsTo (Disk.Filed l) (dropReadView v) w (Counts l) := by
  refine .bind (.onError (R := fun _ => Counts l) (.runIf (fun _ => ?_) fun _ => h)
    fun _ _ he => dropTable_counts he _) fun _ _ hq => dropTable_counts hq _
  exact (releaseRoot_counts h _).both (fun _ hd => hd) fun _ hq => hq.1

theorem beginReadView_counts (h : Counts l w) :
    RunsTo (Disk.Filed l) beginReadView w (Counts l) := by
  refine .handle (.lift (fun _ _ => h) fun _ _ => ?_)
  refine .bind (Apart.counts keeps_checkMaintenanceIdle h) fun _ w₁ h₁ =>
    .lift (fun _ _ => h₁) fun m _ => ?_
  refine .bind ((insertEphemeral_counts h₁ m []).imp fun _ _ hq => hq.1) fun _ w₂ h₂ => ?_
  refine .bind (R := fun _ => Counts l) (.disk (.of_modifyHandle (h₂.congr rfl rfl)))
    fun _ w₃ h₃ => ?_
  refine .modifyHandle (.disk (.bind (R := fun _ => Counts l) ?_ fun _ _ hq => .pure hq))
  have h₄ : Counts l { w₃ with handle := { w₃.handle with
      leases := w.handle.engine.pmt :: w₃.handle.leases
      engine := { w₃.handle.engine with reclamationDirty := true } } } := h₃.congr rfl rfl
  refine .onError (R := fun _ => Counts l) (.of_lift (fun _ _ => h₄) fun _ _ => h₄) fun _ _ he => ?_
  refine .bind ((releaseRoot_counts he _).both (fun _ hd => hd) fun _ hq => hq.1) fun _ _ hq => ?_
  exact dropTable_counts hq _

end DB

/-! ## Opening -/

/-- The retention state of a handle that was opened over `registry`. -/
structure RetentionState.LoadedFrom (r : RetentionState)
    (registry : Option RetentionRegistry) : Prop where
  next : r.nextSnapshotId = (registry.getD .new).nextSnapshotId
  roots : r.namedRoots.map (fun root => (root.snapshotId, root.manifest)) =
    (registry.getD .new).roots
  ephemeral : r.ephemeralRoots = []
  nextEphemeral : r.nextEphemeralSnapshotId = u64Max

/-- The registry file is as it was, and so are the images of its roots. -/
structure Disk.SameRoots (d d' : Disk) : Prop where
  registry : d'.registry = d.registry
  images : ∀ root ∈ (d.registry.getD .new).roots, d'.retained.lookup root.1 =
    d.retained.lookup root.1

theorem Disk.SameRoots.refl (d : Disk) : d.SameRoots d := ⟨rfl, fun _ _ => rfl⟩

theorem Disk.SameRoots.congr {d d₁ d₂ : Disk} (h : d.SameRoots d₁) (hpins : d₂.pins = d₁.pins) :
    d.SameRoots d₂ := by
  have hreg : d₂.registry = d₁.registry := congrArg Prod.fst hpins
  have himg : d₂.retained = d₁.retained := congrArg Prod.snd hpins
  refine ⟨hreg.trans h.registry, ?_⟩
  rw [himg]
  exact h.images

theorem lookup_filter_mem {α β : Type} [DecidableEq α] {k : α} {ks : List α} (hk : k ∈ ks)
    (l : List (α × β)) :
    (l.filter fun e => e.1 ∈ ks).lookup k = l.lookup k := by
  induction l with
  | nil => rfl
  | cons e l ih =>
    obtain ⟨a, b⟩ := e
    by_cases ha : a ∈ ks
    · rw [filter_cons_of_pos (by simpa using ha), lookup_cons, lookup_cons, ih]
    · have hne : (k == a) = false := beq_eq_false_iff_ne.mpr fun heq => ha (heq ▸ hk)
      rw [filter_cons_of_neg (by simpa using ha), lookup_cons, hne]
      exact ih

namespace DB

variable {l : Ledger} {w : World DB Disk}

theorem loadRetention_loads (w : World DB Disk) (current : Option Manifest) :
    Runs w.disk.SameRoots (loadRetention current) w
      (fun r w' => w.disk.SameRoots w'.disk ∧ r.LoadedFrom w.disk.registry)
      (fun _ w' => w.disk.SameRoots w'.disk) := by
  refine .disk (.bind (R := fun _ w₁ => w.disk.SameRoots w₁.disk) ?_ fun _ w₁ hw₁ =>
    .disk (.lift (fun _ _ => hw₁) fun found hfound => ?_))
  · have hcleaned : w.disk.SameRoots { w.disk with retained := w.disk.retained.filter fun entry =>
        entry.1 ∈ (w.disk.registry.getD .new).roots.map Prod.fst } :=
      ⟨rfl, fun root hroot => lookup_filter_mem (mem_map_of_mem hroot) _⟩
    exact .runIf (fun _ => .of_write hcleaned hcleaned) fun _ => .refl _
  · exact .pure ⟨hw₁, rfl, loadRetainedRoots_map _ hfound, rfl, rfl⟩

/-- What happens before the handle is assembled leaves registry and images alone. -/
abbrev KeepsRegistry {α : Type} (p : DbM α) : Prop := Keeps (fun _ : DB => ()) Disk.pins p

theorem keepsRegistry_filing : Filing (fun _ : DB => ()) Disk.pins :=
  ⟨fun _ _ => rfl, fun _ => rfl, fun _ => rfl, fun _ _ => rfl, fun _ _ => rfl,
    fun _ _ => rfl, fun _ _ => rfl⟩

theorem keepsRegistry_recording : Recording (fun _ : DB => ()) Disk.pins :=
  ⟨fun _ _ => rfl, fun _ _ => rfl⟩

theorem reconcileWal_keepsRegistry (current : Option Manifest) :
    KeepsRegistry (reconcileWal current) := by
  refine .bind .disk fun d => ?_
  cases d.wal with
  | none => exact .pure _
  | some wal => exact .bind (.lift _) fun _ => .runIf (.write fun _ => rfl)

theorem apart_publishRecovered (recovery : Option RecoverySummary) :
    Apart (publishRecovered recovery) := by
  cases recovery with
  | none => exact .pure _
  | some recovery =>
    rw [publishRecovered]
    cases recovery.lastCommit with
    | none => exact .write fun _ => rfl
    | some commit => exact .onError (apart_publishGeneration _ _ _) fun _ => apart_fence

/-- **An open takes counter and roots from the registry file**, and leaves the file alone. -/
theorem openDb_loads (w : World DB Disk) (options : Options) :
    Runs w.disk.SameRoots (openDb options) w
      (fun _ w' => w.disk.SameRoots w'.disk ∧ w'.handle.retention.LoadedFrom w.disk.registry)
      (fun _ w' => w.disk.SameRoots w'.disk) := by
  have hkeep : ∀ {α : Type} {p : DbM α} {u : World DB Disk}, KeepsRegistry p →
      w.disk.SameRoots u.disk → RunsTo w.disk.SameRoots p u (fun u' => w.disk.SameRoots u'.disk) :=
    fun hp hu => Keeps.runs hp (fun _ hd => hu.congr hd) fun _ hu' => hu.congr hu'.2
  refine .lift (fun _ _ => .refl _) fun _ _ =>
    .disk (.lift (fun _ _ => .refl _) fun catalog _ => ?_)
  refine .bind (loadRetention_loads w _) fun r w₁ hw₁ => ?_
  obtain ⟨hsame₁, hloaded⟩ := hw₁
  refine .write (hsame₁.congr rfl) (.bind (hkeep (keepsRegistry_filing.recoverBlobRewriteBackup _)
    (hsame₁.congr rfl)) fun _ w₂ h₂ => ?_)
  refine .disk (.lift (fun _ _ => h₂) fun blobs _ => ?_)
  refine .bind (hkeep (keepsRegistry_recording.loadMetadata _) h₂) fun found w₃ h₃ =>
    .lift (fun _ _ => h₃) fun engine _ => ?_
  refine .bind (hkeep (reconcileWal_keepsRegistry _) h₃) fun _ w₄ h₄ => ?_
  refine .disk (.lift (fun _ _ => h₄) fun recovered _ => .modifyHandle ?_)
  -- from here on there is a handle, and nothing touches its roots
  have hrest : Apart (do
      Prog.runIf (catalog.currentManifest.isNone && w₄.disk.wal.isNone) appendBootstrapFrame
      publishRecovered recovered.2.2) :=
    .bind (.runIf apart_recording.appendBootstrapFrame) fun _ => apart_publishRecovered _
  refine (hrest _).mono (fun d hd => h₄.congr hd) (fun _ w' hw' => ?_) fun _ w' hw' =>
    h₄.congr hw'.2
  have hr : w'.handle.retention = r := congrArg Pins.retention hw'.1
  rw [hr]
  exact ⟨h₄.congr hw'.2, hloaded⟩

end DB

/-! ## Runs -/

namespace Client

variable {l : Ledger} {c : Client} {d : Disk}

/-- A release is written down if it took the id out of the named roots. -/
def noteRelease (l : Ledger) (id : SnapshotId) (before after : DB) : Ledger :=
  if id ∈ before.retention.namedRoots.map RetainedRoot.snapshotId ∧
      id ∉ after.retention.namedRoots.map RetainedRoot.snapshotId then l.releases id else l

/-- The ledger after a command. -/
def note (l : Ledger) (i : Command) (c : Client) (d : Disk) : Ledger := match i with
  | .call (.retainCommit commitId) => match DB.retainCommit commitId ⟨c.db, d, []⟩ with
    | .ok id _ => l.returns id commitId
    | .error _ _ => l
  | .call (.retainCurrent copied) => match DB.retainCurrent copied ⟨c.db, d, []⟩ with
    | .ok id w => (w.handle.manifestHistory.latest.map fun m => l.returns id m.commitId).getD l
    | .error _ _ => l
  | .call (.releaseSnapshot id) => noteRelease l id c.db
      ((DB.releaseSnapshot id).final ⟨c.db, d, []⟩).handle
  | .call (.releaseRoot id) => noteRelease l id c.db
      ((DB.releaseRoot id).final ⟨c.db, d, []⟩).handle
  | _ => l

/-- A ledger, and the ids of the snapshot handles that the handle of the database gave out. -/
structure Books extends Ledger where
  handles : List SnapshotId

def Books.note (l : Books) (i : Command) (c : Client) (d : Disk) : Books where
  toLedger := Client.note l.toLedger i c d
  handles := match i with
    | .call (.retainCurrent copied) => match DB.retainCurrent copied ⟨c.db, d, []⟩ with
      | .ok id _ => id :: l.handles
      | .error _ _ => l.handles
    | .reopen _ => []
    | _ => l.handles

/-- The books of a run; a call that does not return tells the client nothing, and the snapshot
handles end with the process. -/
def bookkeeping : Recorder Client Disk Command Books :=
  ⟨⟨⟨[], []⟩, []⟩, Books.note, fun l _ _ _ => { l with handles := [] }⟩

/-- A database is opened again while the counter is on file, or before any id was given out, and
the root of no snapshot handle is registered still: dropped later, such a handle would write the
registry of the old handle over that of the new one. -/
def counterOnFile (l : Books) (i : Command) (c : Client) (d : Disk) : Prop := match i with
  | .reopen _ => (d.registry.isSome ∨ l.toLedger = ⟨[], []⟩) ∧
      ∀ id ∈ l.handles, id ∉ c.db.retention.namedRoots.map RetainedRoot.snapshotId
  | _ => True

/-- The counter of the handle is right, or that on file. -/
def Numbered (l : Ledger) (c : Client) (d : Disk) : Prop :=
  DB.Counts l ⟨c.db, d, []⟩ ∨ (c.db = noHandle ∧ c.views = [] ∧ d.Filed l)

theorem Numbered.filed (h : Numbered l c d) : d.Filed l := by
  rcases h with h | h
  · exact h.filed
  · exact h.2.2

theorem Numbered.of_counts {w : World DB Disk} {views stale : List ReadView} (h : DB.Counts l w) :
    Numbered l ⟨w.handle, views, stale⟩ w.disk := .inl (h.congr rfl rfl)

/-- A ledger may be forgotten. -/
theorem Numbered.forget (h : Numbered l c d) : Numbered ⟨[], []⟩ c d := by
  have hcounted : ∀ {next roots}, Counted l next roots → Counted ⟨[], []⟩ next roots := fun hc =>
    ⟨fun e he => hc.below e (mem_append_right _ he), by simp,
      fun id k k' hk hk' => hc.unique id k k' (mem_append_right _ hk) (mem_append_right _ hk'),
      fun _ _ => not_mem_nil, hc.nodup⟩
  refine h.imp (fun hc => ⟨hc.file, hcounted hc.counted⟩) fun ⟨hno, hviews, hf⟩ => ⟨hno, hviews, ?_⟩
  exact ⟨fun _ _ _ he => absurd he not_mem_nil, fun registry hreg =>
    ⟨(hf.2 registry hreg).1, hcounted (hf.2 registry hreg).2⟩⟩

theorem noteRelease_counts {w w' : World DB Disk} {id : SnapshotId} (h : DB.Counts l w)
    (hr : DB.Released l w w') : DB.Counts (noteRelease l id w.handle w'.handle) w' := by
  rw [noteRelease]
  split
  · rename_i hgone
    obtain ⟨root, hroot, rfl⟩ := mem_map.mp hgone.1
    refine ⟨hr.1.file, hr.1.counted.release ?_ fun e he heq => hgone.2 ?_⟩
    · rw [hr.2]
      exact h.named_lt hroot
    · obtain ⟨root', hroot', rfl⟩ := mem_map.mp he
      rw [← heq]
      exact mem_map_of_mem hroot'
  · exact hr.1

theorem noteRelease_runs {p : DbM Unit} {id : SnapshotId} {w : World DB Disk} (h : DB.Counts l w)
    (hp : RunsTo (Disk.Filed l) p w (DB.Released l w)) :
    RunsTo (Disk.Filed l) p w (DB.Counts (noteRelease l id w.handle (p.final w).handle)) := by
  refine hp.result.conseq (fun _ w' hq => ?_) fun _ w' hq => ?_
  all_goals
    simp only [Prog.final, hq.1]
    exact noteRelease_counts h hq.2

/-- **Every call keeps the counter right.** -/
theorem call_counts (call : DbCall) (h : DB.Counts l ⟨c.db, d, []⟩) :
    RunsTo (Disk.Filed l) call.run ⟨c.db, d, []⟩ (DB.Counts (note l (.call call) c d)) := by
  cases call with
  | retainCommit commitId =>
    refine .bind ((DB.retainCommit_counts h commitId).result.imp_error fun e w' he => ?_)
      fun id w' hq => .pure ?_
    · simp only [note, he.1]
      exact he.2
    · simp only [note, hq.1]
      exact hq.2
  | retainCurrent copied =>
    refine .bind ((DB.retainCurrent_counts h copied).result.imp_error fun e w' he => ?_)
      fun id w' hq => .pure ?_
    · simp only [note, he.1]
      exact he.2
    · obtain ⟨hrun, m, hm, hc⟩ := hq
      simp only [note, hrun, hm]
      exact hc
  | retainCurrentCommit => exact discard_runs (DB.retainCurrentCommit_counts h)
  | beginBatchTransaction => exact discard_runs (DB.beginBatchTransaction_counts h)
  | releaseSnapshot id => exact noteRelease_runs h (DB.releaseSnapshot_counts h id)
  | releaseRoot id => exact noteRelease_runs h (DB.releaseRoot_counts h id)
  | _ => exact Apart.counts (DbCall.apart _ rfl) h

/-- Without a handle no call is written down. -/
theorem note_noHandle (hno : c.db = noHandle) (call : DbCall) : note l (.call call) c d = l := by
  have hrelease : ∀ id after, noteRelease l id c.db after = l := by
    intro id after
    rw [noteRelease, hno, if_neg]
    exact fun h => absurd h.1 not_mem_nil
  cases call with
  | retainCommit commitId =>
    obtain ⟨e, w', he⟩ := noHandle_error (w := ⟨c.db, d, []⟩) hno
    rw [note, DB.retainCommit, he]
  | retainCurrent copied =>
    obtain ⟨e, w', he⟩ := noHandle_error (w := ⟨c.db, d, []⟩) hno
    rw [note, DB.retainCurrent, he]
  | releaseSnapshot id => exact hrelease id _
  | releaseRoot id => exact hrelease id _
  | _ => rfl

/-- An open finds the counter. -/
theorem counts_of_loaded {w : World DB Disk} (hfiled : d.Filed l)
    (hfile : d.registry.isSome ∨ l = ⟨[], []⟩)
    (hreg : w.disk.registry = d.registry) (hr : w.handle.retention.LoadedFrom d.registry) :
    DB.Counts l w := by
  obtain ⟨hnext, hroots, -, -⟩ := hr
  have hcommits : w.handle.retention.commits = (d.registry.getD .new).commits := by
    rw [RetentionRegistry.commits, ← hroots, map_map]
    rfl
  cases hd : d.registry with
  | none =>
    rw [hd] at hnext hroots hfile hcommits hreg
    obtain rfl : l = ⟨[], []⟩ := hfile.resolve_left Bool.false_ne_true
    refine ⟨?_, ?_⟩
    · have hnil : w.handle.retention.namedRoots = [] := map_eq_nil_iff.mp hroots
      rw [hreg, RetentionState.registry, hnil]
      rfl
    · rw [hnext, hcommits]
      exact Counted.blank
  | some registry =>
    rw [hd] at hnext hroots hcommits hreg
    obtain ⟨hne, hcounted⟩ := hfiled.2 registry hd
    refine ⟨?_, ?_⟩
    · have hempty : w.handle.retention.namedRoots.isEmpty = false := by
        rw [isEmpty_eq_false_iff]
        intro hnil
        rw [hnil] at hroots
        exact hne hroots.symm
      rw [hreg, RetentionState.registry, hempty, hnext, hroots]
      rfl
    · rw [hnext, hcommits]
      exact hcounted

/-- **Every command keeps the counter right**, if an open finds it. -/
theorem run_numbered (i : Command) (hi : ∀ options, i = .reopen options →
    d.registry.isSome ∨ l = ⟨[], []⟩) (h : Numbered l c d) :
    RunsTo (Disk.Filed l) (run i) ⟨c, d, []⟩
      (fun w => Numbered (note l i c d) w.handle w.disk) := by
  cases i with
  | call call =>
    refine onDb_runs ?_
    rcases h with hc | ⟨hno, hviews, hf⟩
    · exact (call_counts call hc).both (fun _ hd => hd) fun _ hq => .of_counts hq
    rw [note_noHandle hno]
    refine (run_noHandle call hno).both (fun _ hd => hd) fun w' hw' => ?_
    rw [hw']
    exact .inr ⟨hno, hviews, hf⟩
  | beginReadView =>
    rcases h with hc | ⟨hno, hviews, hf⟩
    · refine .bind (R := fun _ w => DB.Counts l ⟨w.handle.db, w.disk, []⟩)
        (onDb_runs ?_) fun v w₁ hw₁ =>
        .of_modifyHandle (.inl hw₁)
      exact (DB.beginReadView_counts hc).conseq (fun _ _ hq => hq.congr rfl rfl) fun _ _ he =>
        .of_counts he
    · exact beginReadView_refused (stopped_noHandle hno) fun _ => .inr ⟨hno, hviews, hf⟩
  | dropReadView index =>
    refine .handle ?_
    cases hv : c.views[index]? with
    | none => exact .pure h
    | some v =>
      refine .modifyHandle (onDb_runs ?_)
      rcases h with hc | ⟨-, hviews, -⟩
      · exact (DB.dropReadView_counts hc v).both (fun _ hd => hd) fun _ hq => .of_counts hq
      · rw [hviews] at hv
        cases hv
  | dropStaleView index =>
    refine .handle ?_
    cases c.stale[index]? with
    | none => exact .pure h
    | some v =>
      refine .modifyHandle (onDb_runs ?_)
      rcases h with hc | ⟨hno, hviews, hf⟩
      · exact (DB.dropSidecar_counts hc _).both (fun _ hd => hd) fun _ hq => .of_counts hq
      · exact .of_write (hf.congr rfl) (.inr ⟨hno, hviews, hf.congr rfl⟩)
  | reopen options =>
    have hf := h.filed
    refine .modifyHandle (.onError (R := fun _ w => w.handle.views = [] ∧ w.disk.Filed l)
      (onDb_runs ?_) fun _ w' hw' => ?_)
    · exact (DB.openDb_loads _ options).mono (fun d' hd' => hf.congr hd'.registry)
        (fun _ w' hq => .of_counts (counts_of_loaded hf (hi options rfl) hq.1.registry hq.2))
        fun _ w' he =>
        ⟨rfl, hf.congr he.registry⟩
    · exact .of_modifyHandle (.inr ⟨rfl, hw'⟩)

theorem Numbered.of_initial (space : List Bool) : Numbered ⟨[], []⟩ start (Disk.empty space) :=
  .inr ⟨rfl, rfl, fun _ _ _ he => absurd he not_mem_nil, fun _ hreg => nomatch hreg⟩

/-- **No snapshot id stands for two commits**, and a released id names no root again, in every run
that opens the database only while the registry file has the counter and no snapshot handle is
out. -/
theorem snapshotIds_unique {l : Books}
    (h : (system anyCommand).Recorded bookkeeping counterOnFile l c d) :
    OneCommitEach l.returned ∧ ∀ root ∈ c.db.retention.namedRoots,
      root.snapshotId ∉ l.released := by
  have hinv : Numbered l.toLedger c d := by
    refine h.invariant (D := fun l => Disk.Filed l.toLedger) ?_
      (fun l i c d hi => run_numbered i ?_) (fun l i c d _ hn => hn.filed) ?_
    · rintro _ ⟨space, rfl⟩
      exact Numbered.of_initial space
    · rintro _ rfl
      exact hi.1
    · exact fun l d d' hf hc => .inr ⟨rfl, rfl, hf.congr hc.registry⟩
  refine ⟨hinv.filed.1, fun root hroot => ?_⟩
  rcases hinv with hc | ⟨hno, -, -⟩
  · exact hc.counted.gone _ (RetentionState.mem_commits hroot)
  · rw [hno] at hroot
    cases hroot

/-- Two commits are retained, the first is released, and the database is opened again. -/
def retainTwice : List Command := [.reopen Options.default, .call (.put [1] [1]), .call .flush,
  .call (.retainCommit 1), .call (.put [1] [2]), .call .flush, .call (.retainCommit 2),
  .call (.releaseSnapshot 1), .call .close, .reopen Options.default]

theorem snapshotIds_unique_retainTwice :
    let s := (system anyCommand).recordAll bookkeeping retainTwice ⟨⟨[], []⟩,
      []⟩ start (Disk.empty [])
    s.1.returned = [(2, 2), (1, 1)] ∧ OneCommitEach s.1.returned ∧
      ∀ root ∈ s.2.1.db.retention.namedRoots, root.snapshotId ∉ s.1.released := by
  refine ⟨by decide +kernel, snapshotIds_unique (.recordAll retainTwice (.initial ⟨[], rfl⟩) ?_)⟩
  refine ⟨⟨.inr rfl, by simp⟩, trivial, trivial, trivial, trivial, trivial,
    trivial, trivial, trivial, ⟨.inl ?_, ?_⟩, trivial⟩
  all_goals decide +kernel

/-- The only retained root is released before the database is closed; after the next open another
commit is retained. -/
def releaseAll : List Command := [.reopen Options.default, .call (.put [1] [1]), .call .flush,
  .call (.retainCommit 1), .call (.releaseSnapshot 1), .call .close, .reopen Options.default,
  .call (.put [1] [2]), .call .flush, .call (.retainCommit 2)]

/-- The id of the first commit comes back for the second. -/
theorem snapshotId_reused : ∃ l c d, (system anyCommand).Recorded bookkeeping
    (fun _ _ _ _ => True) l c d ∧ (1, 1) ∈ l.returned ∧ (1, 2) ∈ l.returned ∧ 1 ∈ l.released := by
  refine ⟨_, _, _, .recordAll releaseAll (.initial ⟨[], rfl⟩)
    (System.allowedAll_of_forall (fun _ _ _ _ => trivial) _ _ _ _), ?_⟩
  decide +kernel

end Client

end SeerDb
