/-
# `SeerDb.Db.PruneSpec` — history pruning

`prune_history` rewrites the metadata log with the frames that the retained roots and
the two newest generations are resolved from.  The newest frame is among them, but
for one case: the frame of a new database names checkpoint 0, which the walk
over the ancestors does not count, so the rewritten log has no frame at all.
-/
import SeerDb.Db.MaintainSpec

namespace SeerDb

open Lib List

variable {ctx : Ctx} {w : World DB Disk} {fs : List MetaLogFrame}
  {ms : List (PageId × PageMapping)} {m : Manifest} {ids : List Nat}

/-- The log without the frames that are not in `ids`. -/
def keepFrames (fs : List MetaLogFrame) (ids : List Nat) : List MetaLogFrame :=
  fs.filter fun f => f.checkpointId ∈ ids

/-- Only the frame of a new database can be the last one and be dropped. -/
theorem getLast_keepFrames (hlog : LogWF fs) {f : MetaLogFrame} (hf : fs.getLast? = some f)
    (hid : f.checkpointId ≠ 0 → f.checkpointId ∈ ids) :
    (keepFrames fs ids).getLast? = some f ∨
    (f.checkpointId = 0 ∧ fs = [f] ∧ keepFrames fs ids = []) := by
  obtain ⟨init, rfl⟩ := List.getLast?_eq_some_iff.mp hf
  by_cases hmem : f.checkpointId ∈ ids
  · refine .inl ?_
    rw [keepFrames, filter_append, filter_cons_of_pos (by simpa using hmem)]
    simp
  have h0 : f.checkpointId = 0 := by
    by_contra hne
    exact hmem (hid hne)
  have hinit : init = [] := by
    refine eq_nil_iff_forall_not_mem.mpr fun x hx => ?_
    have hlt := (pairwise_append.mp hlog.increasing).2.2 x hx f (.head _)
    rw [h0] at hlt
    exact Nat.not_lt_zero _ hlt
  refine .inr ⟨h0, by rw [hinit]; rfl, ?_⟩
  rw [hinit, keepFrames, nil_append, filter_cons_of_neg (by simpa using hmem)]
  rfl

/-- The table of a new database is empty. -/
theorem Newest.of_bootstrap {f : MetaLogFrame} (hlog : LogWF fs) (hf : fs.getLast? = some f)
    (h0 : f.checkpointId = 0) (hnew : Newest fs ms) : ms = [] := by
  rcases hnew with ⟨rfl, rfl⟩ | ⟨f', t, a, n, hf', hr, rfl⟩
  · rfl
  rw [hf] at hf'
  cases hf'
  obtain ⟨allocator, hentry⟩ := hlog.bootstrap f (mem_of_getLast? hf) h0
  have hat := entryAt_of_mem hlog.increasing (mem_of_getLast? hf)
  rw [hentry] at hat
  have hr' := Resolves.checkpoint hat
  rw [(hr'.unique hr).1]
  rfl

/-- A mark below the newest frame needs only that frame. -/
theorem ParentOf.marked {fs' : List MetaLogFrame} {ms' : List (PageId × PageMapping)}
    {g : GenerationId} (hlog : LogWF fs) (hp : ParentOf fs ms m) (hp' : ParentOf fs' ms' m)
    (hg : g = 0 ∨ ∃ f ∈ fs, g ≤ f.manifest.generationId) :
    g = 0 ∨ ∃ f ∈ fs', g ≤ f.manifest.generationId := by
  rcases hg with h0 | ⟨f, hf, hle⟩
  · exact .inl h0
  have hnewest : f.manifest.generationId ≤ m.generationId := by
    rcases hp with ⟨rfl, -⟩ | ⟨last, hlast, rfl⟩
    · cases hf
    · rw [(hlog.named f hf).1, (hlog.named last (mem_of_getLast? hlast)).1]
      exact hlog.le_last hlast hf
  rcases hp' with ⟨-, -, h0, -⟩ | ⟨last, hlast, rfl⟩
  · rw [h0] at hnewest
    exact .inl (Nat.le_zero.mp (hle.trans hnewest))
  · exact .inr ⟨last, mem_of_getLast? hlast, hle.trans hnewest⟩

/-- What the newest frame selects is not changed by the rewrite. -/
theorem ParentOf.keepFrames (hlog : LogWF fs) (hc : Closed fs ids) (hnew : Newest fs ms)
    (hp : ParentOf fs ms m) (hm : m.pmtCheckpointId ≠ 0 → m.pmtCheckpointId ∈ ids) :
    Newest (keepFrames fs ids) ms ∧ ParentOf (SeerDb.keepFrames fs ids) ms m := by
  rcases hp with ⟨rfl, h0⟩ | ⟨f, hf, rfl⟩
  · exact ⟨hnew, .inl ⟨rfl, h0⟩⟩
  obtain ⟨hgen, hckpt⟩ := hlog.named f (mem_of_getLast? hf)
  rw [hckpt] at hm
  rcases getLast_keepFrames hlog hf hm with hlast | ⟨h0, hsingle, hnil⟩
  · refine ⟨?_, .inr ⟨f, hlast, rfl⟩⟩
    rcases hnew with ⟨rfl, -⟩ | ⟨f', t, a, n, hf', hr, rfl⟩
    · cases hf
    rw [hf] at hf'
    cases hf'
    have hkept : f.checkpointId ∈ ids := by
      simpa using (mem_filter.mp (mem_of_getLast? hlast)).2
    exact .inr ⟨f, t, a, n, hlast, (hlog.filter hc).2 hkept hr, rfl⟩
  · have hms := hnew.of_bootstrap hlog hf h0
    rw [hnil, hms]
    exact ⟨Newest.nil, .inl ⟨rfl, hckpt.trans h0, hgen.trans h0, rfl⟩⟩

namespace DB

/-- The walks read the log that is on the disk. -/
theorem retainedCheckpoints_eq {d : Disk} {p : ParsedMetaLog} (hp : d.parsedMetaLog = some p) :
    ∀ manifests, retainedCheckpoints d manifests = p.retainedCheckpoints manifests
  | [] => rfl
  | m :: manifests => by
    rw [retainedCheckpoints, retainedCheckpoints_eq hp manifests, hp]
    rfl

/-- Without a log there is nothing to walk over. -/
theorem retainedCheckpoints_none {d : Disk} (hp : d.parsedMetaLog = none) :
    ∀ (manifests : List Manifest) {ids : List Nat}, retainedCheckpoints d manifests = .ok ids →
      ids = [] ∧ ∀ m ∈ manifests, m.pmtCheckpointId = 0
  | [], ids, h => by
    cases h
    exact ⟨rfl, by simp⟩
  | m :: manifests, ids, h => by
    rw [retainedCheckpoints] at h
    cases hrest : retainedCheckpoints d manifests with
    | error e =>
      rw [hrest] at h
      cases h
    | ok found =>
      obtain ⟨rfl, hall⟩ := retainedCheckpoints_none hp manifests hrest
      rw [hrest, hp] at h
      simp only at h
      split at h
      · rename_i h0
        cases h
        exact ⟨rfl, forall_mem_cons.mpr ⟨h0, hall⟩⟩
      · cases h

/-- What the walks over the ancestors collect is closed and has the manifests they began at. -/
theorem retainedCheckpoints_spec {d : Disk} (manifests : List Manifest) {ids : List Nat}
    (h : retainedCheckpoints d manifests = .ok ids) : Closed d.frames ids ∧
      ∀ m ∈ manifests, m.pmtCheckpointId ≠ 0 → m.pmtCheckpointId ∈ ids := by
  cases hlog : d.parsedMetaLog with
  | none =>
    obtain ⟨rfl, hall⟩ := retainedCheckpoints_none hlog manifests h
    exact ⟨forall_mem_nil _, fun m hm hne => absurd (hall m hm) hne⟩
  | some parsed =>
    rw [retainedCheckpoints_eq hlog] at h
    obtain ⟨frames, complete⟩ := parsed
    obtain rfl : frames = d.frames := Disk.parsedMetaLog_frames hlog
    exact retainedCheckpoints_closed manifests h

/-- The log is replaced at once, by one that selects the same table. -/
theorem compactMetadataLog_runs (h : Sound ctx w) (hc : Closed w.disk.frames ids)
    (hlatest : ∀ m, w.handle.manifestHistory.latest = some m → m.pmtCheckpointId ≠ 0 →
      m.pmtCheckpointId ∈ ids)
    (hroots : ∀ r ∈ w.handle.retention.allRoots, r.manifest.pmtCheckpointId ≠ 0 →
      r.manifest.pmtCheckpointId ∈ ids) {E : Error → World DB Disk → Prop} :
    Runs (Lasting ctx) (compactMetadataLog ids) w (fun _ => Sound ctx) E := by
  refine .disk ?_
  rcases hlog : w.disk.metaLog with _ | log
  · exact .pure h
  refine .runIf (fun _ => ?_) fun _ => h
  have hframes : log.records = w.disk.frames := (Disk.frames_of_some hlog).symm
  obtain ⟨m, hm, hparent⟩ := h.latest
  obtain ⟨hnew, hparent'⟩ := hparent.keepFrames h.disk.log hc h.newest (hlatest m hm)
  have hmono := h.disk.log.filter hc
  have hunsynced : ∀ o, o ∉ w.disk.device.unsynced := fun o ho => by
    rw [h.synced] at ho
    cases ho
  have hplacing : ∀ trace, Placing ctx w.handle.engine.pmt [] ⟨w.handle, { w.disk with
      metaLog := some (LogFile.sync ⟨log.records.filter (fun frame => frame.checkpointId ∈ ids),
        0, 0⟩) },
      trace⟩ := by
    intro trace
    rw [hframes]
    exact {
      data := h.data
      log := hmono.1
      whole := fun log' hlog' => by
        cases hlog'
        exact ⟨rfl, rfl⟩
      newest := hnew
      oldWF := h.oldWF
      slots := h.held
      unheld := fun o ho => absurd ho (hunsynced o)
      pages := fun o ho => (h.kept o ho).2.2
      protects := h.protects
      roots := h.roots.mono fun r hr h0 => hmono.2 (hroots r hr h0)
      tabled := h.tabled.mono h.roots fun r hr h0 _ _ _ hres => by
        rw [durable_of_whole h.whole, take_length] at hres
        show Resolves ((keepFrames w.disk.frames ids).take
          (keepFrames w.disk.frames ids).length) _ _ _ _
        rw [take_length]
        exact hmono.2 (hroots r hr h0) hres
      leased := h.leased
      stamps := Stamped.of_synced h.synced
      marked := by
        have hm' := hparent.marked h.disk.log hparent' (h.disk.marked.imp_right
          fun ⟨f, hf, hg⟩ => ⟨f, mem_of_mem_take hf, hg⟩)
        refine hm'.imp_right fun ⟨f, hf, hg⟩ => ⟨f, ?_, hg⟩
        show f ∈ (keepFrames w.disk.frames ids).take (keepFrames w.disk.frames ids).length
        rwa [take_length] }
  refine .of_write (hplacing []).lasting ⟨(hplacing _).resting h.synced, h.pending, h.reserved, ?_,
    h.positive, m, hm, ?_⟩
  · intro f hf
    exact h.next f (hframes ▸ mem_of_mem_filter hf)
  · show ParentOf (log.records.filter fun frame => frame.checkpointId ∈ ids) _ m
    rw [hframes]
    exact hparent'

/-- The newest manifest stays in the pruned history. -/
theorem latest_pruned {history : ManifestHistory} {retained : List GenerationId}
    (hm : history.latest = some m) (hr : m.generationId ∈ retained) :
    (history.pruneToGenerations retained).latest = some m := by
  obtain ⟨init, hinit⟩ := List.getLast?_eq_some_iff.mp hm
  rw [ManifestHistory.latest, ManifestHistory.pruneToGenerations, hinit, filter_append,
    filter_cons_of_pos (by simpa using hr)]
  simp

theorem pruneHistory_runs (h : Safe ctx w) : Settles ctx pruneHistory w := by
  refine .bind (admitted_runs h) fun _ w₁ h₁ => ?_
  refine .bind (flush_runs h₁.safe) fun _ w₂ h₂ => ?_
  refine .handle (.disk (.check (fun _ => h₂.safe) fun _ => ?_))
  refine .lift (fun _ _ => h₂.safe) fun ids hids => .modifyHandle ?_
  obtain ⟨hclosed, hmem⟩ := retainedCheckpoints_spec _ hids
  obtain ⟨m, hm, hparent⟩ := h₂.latest
  -- the newest manifest is the first of the two that are kept for recovery
  have hrecovery : m ∈ w₂.handle.manifestHistory.manifests.reverse.take 2 := by
    obtain ⟨init, hinit⟩ := List.getLast?_eq_some_iff.mp hm
    rw [hinit]
    simp
  have hlatest := latest_pruned (m := m) hm (mem_map_of_mem (f := Manifest.generationId)
    (mem_append_left (w₂.handle.retention.allRoots.map RetainedRoot.manifest) hrecovery))
  have h₃ : Sound ctx { w₂ with handle := { w₂.handle with
      manifestHistory := w₂.handle.manifestHistory.pruneToGenerations
        ((w₂.handle.manifestHistory.manifests.reverse.take 2 ++
          w₂.handle.retention.allRoots.map RetainedRoot.manifest).map Manifest.generationId) } } :=
    ⟨⟨h₂.toBase.of_pins rfl rfl rfl, h₂.whole, h₂.newest, h₂.oldWF, h₂.held⟩,
      h₂.pending, h₂.reserved, h₂.next, h₂.positive, m, hlatest, hparent⟩
  refine compactMetadataLog_runs h₃ hclosed ?_ ?_
  · intro m' hm' hne
    have hsame : some m' = some m := hm'.symm.trans hlatest
    cases hsame
    exact hmem m (mem_append_left _ (mem_append_left _ hrecovery)) hne
  · intro r hr hne
    exact hmem r.manifest (mem_append_left _ (mem_append_right _ (mem_map_of_mem hr))) hne

end DB

end SeerDb
