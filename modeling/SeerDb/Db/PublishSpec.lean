/-
# `SeerDb.Db.PublishSpec` — publications touch only free slots

A publication writes pages into slots that neither the newest frame nor a pin uses
(`Placing`), syncs them, and appends the frame that selects the new table; only then
are the slots of the old table given up.  Every function of the pipeline gets one
`Runs` lemma: it leads from `Sound` to `Sound`, a refused capacity check leaves
`Sound` as it was, and any other error leaves at least `Steady`.
-/
import SeerDb.Db.Anchor

namespace SeerDb

open Lib List

variable {ctx : Ctx} {old : PMT} {out : List Nat} {w : World DB Disk} {g : GenerationId}
  {E : Error → World DB Disk → Prop}

/-! ## Writing pages -/

/-- Pages are being written: the slots written since the last sync are in nobody's use. -/
structure Placing (ctx : Ctx) (old : PMT) (out : List Nat) (w : World DB Disk) : Prop where
  data : w.disk.data.isSome
  log : LogWF w.disk.frames
  whole : ∀ log, w.disk.metaLog = some log → log.synced = log.records.length ∧ log.torn = 0
  newest : Newest w.disk.frames old.mappings
  oldWF : old.WF
  slots : w.handle.engine.SlotInv w.disk.device.size out (w.handle.protectedOffsets ++ old.offsets)
  unheld : ∀ o ∈ w.disk.device.unsynced, o ∉ w.handle.protectedOffsets ++ old.offsets
  pages : ∀ o ∈ ctx.kept, w.disk.device.page o = ctx.start.page o
  protects : ∀ o ∈ ctx.kept, o ∈ w.handle.protectedOffsets
  roots : Pinned ctx w.disk.frames w.handle.retention
  tabled : Tabled ctx.tables w.disk
  leased : w.handle.leases.Perm (ctx.views.map ReadView.pmt)
  stamps : Stamped ctx.stamping w.disk
  marked : Marked ctx.mark w.disk

theorem Resting.placing (h : Resting ctx old w) : Placing ctx old [] w := { h with
  log := h.disk.log
  slots := h.held
  unheld o ho := by
    rw [h.synced] at ho
    cases ho
  pages o ho := (h.kept o ho).2.2
  stamps := h.disk.stamps
  marked := h.disk.marked }

theorem Placing.lasting (h : Placing ctx old out w) : Lasting ctx w.disk := by
  have hdurable := durable_of_whole h.whole
  refine ⟨⟨h.log, h.slots.aligned, hdurable.le, fun k hk hk' => ?_, fun hn => ?_,
    h.stamps, h.marked⟩, fun o ho => ?_, h.tabled⟩
  · obtain rfl : k = w.disk.frames.length := le_antisymm hk' (hdurable ▸ hk)
    rw [take_length]
    refine ⟨old, h.newest, h.oldWF, fun o ho => ⟨h.slots.held_in o (mem_append_right _ ho), ?_⟩⟩
    exact fun hu => h.unheld o hu (mem_append_right _ ho)
  · have hsome := h.data
    rw [hn] at hsome
    cases hsome
  · have hheld : o ∈ w.handle.protectedOffsets ++ old.offsets := mem_append_left _ (h.protects o ho)
    exact ⟨h.slots.held_in o hheld, fun hu => h.unheld o hu hheld, h.pages o ho⟩

theorem Placing.resting (h : Placing ctx old [] w) (hsync : w.disk.device.unsynced = []) :
    Resting ctx old w := { h with
  disk := h.lasting.1
  kept := h.lasting.2.1
  synced := hsync
  held := h.slots }

/-- **One page write.** -/
theorem Placing.wrote (h : Placing ctx old out w) {x : Nat} {n : Node} {e' : StorageEngine}
    {out' : List Nat} (trace : List Disk) (hx : x ∉ w.handle.protectedOffsets ++ old.offsets)
    (hslots : e'.SlotInv (max w.disk.device.size (x + pageSize)) out'
      (w.handle.protectedOffsets ++ old.offsets))
    (hst : ctx.stamping ≠ .none →
      (0 < n.writeGeneration ∧ ∀ f ∈ w.disk.frames, f.manifest.generationId < n.writeGeneration) ∨
      ctx.stamping = .copied ∧ ∃ p m, old.get p = some m ∧ w.disk.device.page m.offset = some n) :
    Placing ctx old out' ⟨{ w.handle with engine := e' },
      { w.disk with data := some (w.disk.device.writePage x n) }, trace⟩ := { h with
  data := rfl
  slots := hslots
  unheld o ho := by
    rcases mem_cons.mp ho with rfl | ho
    · exact hx
    · exact h.unheld o ho
  pages o ho := by
    have hne : o ≠ x := fun he => hx (he ▸ mem_append_left _ (h.protects o ho))
    show (if o = x then some n else w.disk.device.page o) = _
    rw [if_neg hne]
    exact h.pages o ho
  stamps hs o ho := by
    show (∃ n', (if o = x then some n else w.disk.device.page o) = some n' ∧ _) ∨
      ctx.stamping = .copied ∧ ∃ (t : PMT) (p : PageId) (m : PageMapping),
        Newest w.disk.frames t.mappings ∧ t.get p = some m ∧
        (if o = x then some n else w.disk.device.page o) =
          (if m.offset = x then some n else w.disk.device.page m.offset)
    -- a slot of the newest table is not the one written
    have hmapped : ∀ {t : PMT} {p : PageId} {m : PageMapping}, Newest w.disk.frames t.mappings →
        t.get p = some m → m.offset ≠ x := by
      intro t p m hnew hget he
      have hms := hnew.unique h.newest
      have hget' : old.get p = some m := by rw [PMT.get, ← hms]; exact hget
      exact hx (he ▸ mem_append_right _ (h.oldWF.mem_offsets.mpr ⟨p, m, hget', rfl⟩))
    by_cases hox : o = x
    · rw [if_pos hox]
      rcases hst hs with hlater | ⟨hcopy, p, m, hget, hpage⟩
      · exact .inl ⟨n, rfl, hlater⟩
      · refine .inr ⟨hcopy, old, p, m, h.newest, hget, ?_⟩
        rw [if_neg (hmapped h.newest hget), hpage]
    rw [if_neg hox]
    have hmem : o ∈ w.disk.device.unsynced := (mem_cons.mp ho).resolve_left hox
    rcases h.stamps hs o hmem with hlater | ⟨hcopy, t, p, m, hnew, hget, hpage⟩
    · exact .inl hlater
    · refine .inr ⟨hcopy, t, p, m, hnew, hget, ?_⟩
      rw [if_neg (hmapped hnew hget), hpage] }

/-- The stamp of the next flush is later than every frame. -/
def Ahead (ctx : Ctx) (w : World DB Disk) : Prop :=
  ctx.stamping ≠ .none → 0 < w.handle.engine.writeGeneration ∧
    ∀ f ∈ w.disk.frames, f.manifest.generationId < w.handle.engine.writeGeneration

namespace DB

theorem writeDirtyPage_runs (h : Placing ctx old out w) (ha : Ahead ctx w) (pageId : PageId) :
    Runs (Lasting ctx) (writeDirtyPage pageId) w
      (fun retired w' => Placing ctx old (retired ++ out) w' ∧ Ahead ctx w') E := by
  refine .handle ?_
  cases w.handle.engine.btree.node pageId with
  | none => exact .pure ⟨h, ha⟩
  | some node =>
    obtain ⟨-, hmapped, hheld, -, -, -⟩ := h.slots.nextSlot
    have hwrote := fun trace => h.wrote trace hheld (h.slots.placed pageId)
      (n := { node with writeGeneration := w.handle.engine.writeGeneration }) fun hs => .inl (ha hs)
    refine .write (hwrote []).lasting (.modifyHandle (.pure ⟨hwrote _, ha⟩))

theorem writeDirtyPages_runs (pageIds : List PageId) :
    ∀ {out : List Nat} {w : World DB Disk}, Placing ctx old out w → Ahead ctx w →
    Runs (Lasting ctx) (writeDirtyPages pageIds) w
      (fun retired w' => ∃ out', Placing ctx old out' w' ∧ (∀ o ∈ retired, o ∈ out') ∧
        ∀ o ∈ out, o ∈ out') E := by
  induction pageIds with
  | nil =>
    intro out w h _
    exact .pure ⟨out, h, by simp, fun _ ho => ho⟩
  | cons pageId rest ih =>
    intro out w h ha
    refine .bind (writeDirtyPage_runs h ha pageId) fun retired w' hw' => ?_
    refine .bind (ih hw'.1 hw'.2) fun others w'' hw'' => ?_
    obtain ⟨out', hplacing, hothers, hout⟩ := hw''
    refine .pure ⟨out', hplacing, fun o ho => ?_, fun o ho => hout o (mem_append_right _ ho)⟩
    rcases mem_append.mp ho with ho | ho
    · exact hout o (mem_append_left _ ho)
    · exact hothers o ho

/-- The part of the handle that writing pages leaves alone, with the log. -/
def counters (db : DB) : GenerationId × ManifestHistory := (db.nextGenerationId, db.manifestHistory)

theorem flushPages_keeps : Keeps counters Disk.metaLog flushPages :=
  Paging.flushPages ⟨fun _ _ => rfl, fun _ _ => rfl⟩ fun _ _ => rfl

end DB

/-- The pages are durable and the frame of generation `g` is next. -/
structure Flushed (ctx : Ctx) (old : PMT) (g : GenerationId) (w : World DB Disk) : Prop
    extends Resting ctx old w where
  bound : ∀ f ∈ w.disk.frames, f.checkpointId < g

theorem Flushed.congr {w' : World DB Disk} (h : Flushed ctx old g w)
    (hs : SameCore w w') : Flushed ctx old g w' :=
  ⟨h.toResting.congr hs, by rw [hs.frames]; exact h.bound⟩

/-- The sync after the last page; what went out of use is listed. -/
theorem Placing.synced (h : Placing ctx old out w) {retired : List Nat} (trace : List Disk)
    (hr : ∀ o ∈ retired, o ∈ out) :
    Placing ctx old [] ⟨{ w.handle with
      engine := { w.handle.engine with pendingReclaimedOffsets := retired } },
      { w.disk with data := some w.disk.device.sync }, trace⟩ := { h with
  data := rfl
  slots := h.slots.retire hr
  unheld := forall_mem_nil _
  stamps := Stamped.of_synced rfl }

namespace DB

/-- **The flush**: pages go to free slots and are synced; a refused check changes nothing. -/
theorem flushPages_runs (h : Flushed ctx old g w) (ha : Ahead ctx w) :
    Runs (Lasting ctx) flushPages w
      (fun _ w' => Flushed ctx old g w' ∧ counters w'.handle = counters w.handle)
      (fun e w' => e = .capacityPreflight ∧ SameCore w w') := by
  have hmain : Runs (Lasting ctx) flushPages w (fun _ w' => Resting ctx old w')
      (fun e w' => e = .capacityPreflight ∧ SameCore w w') := by
    refine .bind ((checkCapacity_runs _ w).imp_error fun _ _ h => ⟨h.1, h.2.2⟩)
      fun _ w₁ hw₁ => .handle ?_
    have ha₁ : Ahead ctx w₁ := by
      intro hs
      rw [hw₁.1, hw₁.2.frames]
      exact ha hs
    refine .bind (writeDirtyPages_runs _ (h.toResting.congr hw₁.2).placing ha₁)
      fun retired w₂ hw₂ => ?_
    obtain ⟨out', hplacing, hretired, -⟩ := hw₂
    have hsynced := fun trace => hplacing.synced trace hretired
    exact .write (hsynced []).lasting (.of_modifyHandle ((hsynced _).resting rfl))
  refine (hmain.and (flushPages_keeps w)).mono (fun d hd => hd.1)
    (fun _ w' hw' => ?_) fun _ _ hw' => hw'.1
  obtain ⟨hrest, hcount, hlog⟩ := hw'
  refine ⟨⟨hrest, ?_⟩, hcount⟩
  rw [Disk.frames, hlog]
  exact h.bound

end DB

/-! ## The frame -/

/-- The frame of `m` is durable and selects the table of the handle. -/
structure Framed (ctx : Ctx) (m : Manifest) (w : World DB Disk) : Prop
    extends Resting ctx w.handle.engine.pmt w where
  last : ∃ f, w.disk.frames.getLast? = some f ∧ f.manifest = m
  bound : ∀ f ∈ w.disk.frames, f.checkpointId ≤ m.generationId

theorem Framed.congr {m : Manifest} {w' : World DB Disk} (h : Framed ctx m w) (hs : SameCore w w') :
    Framed ctx m w' where
  toResting := by
    have hpmt : w'.handle.engine.pmt = w.handle.engine.pmt := congrArg Core.pmt hs.1
    rw [hpmt]
    exact h.toResting.congr hs
  last := by rw [hs.frames]; exact h.last
  bound := by rw [hs.frames]; exact h.bound

namespace DB

/-- A log that is whole has no tail to cut. -/
theorem cutMetaLog_runs {C : Disk → Prop}
    (h : ∀ log, w.disk.metaLog = some log → log.synced = log.records.length ∧ log.torn = 0) :
    Runs C cutMetaLog w (fun _ w' => w' = w) E := by
  refine .disk (.runIf (fun hany => ?_) fun _ => rfl)
  obtain ⟨log, hlog, htorn⟩ := (Option.any_eq_true _ _).mp hany
  exact absurd (h log hlog).2 (by simpa using htorn)

/-- The log with one more frame, `synced` of its frames durable. -/
def withFrame (d : Disk) (frame : MetaLogFrame) (synced : Nat) : Disk :=
  { d with metaLog := some ⟨d.frames ++ [frame], 0, synced⟩ }

/-- The frame is written behind the last one. -/
theorem append_whole {d : Disk}
    (h : ∀ log, d.metaLog = some log → log.synced = log.records.length ∧ log.torn = 0)
    (frame : MetaLogFrame) :
    ({ d with metaLog := some ((d.metaLog.getD LogFile.empty).append MetaLogFrame.size frame) } :
      Disk) = withFrame d frame d.frames.length := by
  rw [withFrame, Disk.frames]
  cases hl : d.metaLog with
  | none => rfl
  | some log =>
    obtain ⟨hsynced, htorn⟩ := h log hl
    obtain ⟨records, torn, synced⟩ := log
    obtain rfl : synced = records.length := hsynced
    obtain rfl : torn = 0 := htorn
    rfl

end DB

/-- While the frame is not durable one of the two tables is the one to come back to. -/
theorem Flushed.withFrame {frame : MetaLogFrame}
    (h : Flushed ctx old g w) (hwf : LogWF (w.disk.frames ++ [frame]))
    (hnew : Newest (w.disk.frames ++ [frame]) w.handle.engine.pmt.mappings)
    (hmono : ∀ {id t a n}, Resolves w.disk.frames id t a n →
      Resolves (w.disk.frames ++ [frame]) id t a n)
    (synced : Nat) (hlo : w.disk.frames.length ≤ synced) (hhi : synced ≤ w.disk.frames.length + 1) :
    Lasting ctx (DB.withFrame w.disk frame synced) := by
  have hunsynced : ∀ o, o ∉ w.disk.device.unsynced := fun o ho => by
    rw [h.synced] at ho
    cases ho
  have hold : Anchored w.disk.device w.disk.frames :=
    ⟨old, h.newest, h.oldWF, fun o ho => ⟨h.held.held_in o (mem_append_right _ ho), hunsynced o⟩⟩
  have hcur : Anchored w.disk.device (w.disk.frames ++ [frame]) :=
    ⟨_, hnew, h.held.pmt, fun o ho => ⟨h.held.mapped o ho, hunsynced o⟩⟩
  refine ⟨⟨hwf, h.disk.aligned, ?_, fun k hk hk' => ?_, fun hn => ?_, Stamped.of_synced h.synced,
    h.disk.marked.mono fun f hf => ?_⟩, h.kept, fun e he => ?_⟩
  · show synced ≤ (w.disk.frames ++ [frame]).length
    simpa using hhi
  · show Anchored w.disk.device ((w.disk.frames ++ [frame]).take k)
    have hk1 : w.disk.frames.length ≤ k := hlo.trans hk
    rcases Nat.lt_or_ge k (w.disk.frames.length + 1) with hlt | hge
    · rw [show k = w.disk.frames.length by omega, take_left]
      exact hold
    · rw [take_of_length_le (by simpa using hge)]
      exact hcur
  · have hdata := h.data
    have hn' : w.disk.data = none := hn
    rw [hn'] at hdata
    cases hdata
  · show f ∈ (w.disk.frames ++ [frame]).take synced
    rw [take_append, take_of_length_le hlo]
    exact mem_append_left _ (mem_of_mem_take hf)
  · obtain ⟨a, n, hres⟩ := h.tabled e he
    rw [durable_of_whole h.whole, take_length] at hres
    refine ⟨a, n, ?_⟩
    show Resolves ((w.disk.frames ++ [frame]).take synced) e.1 e.2 a n
    rcases Nat.lt_or_ge synced (w.disk.frames.length + 1) with hlt | hge
    · rw [show synced = w.disk.frames.length by omega, take_left]
      exact hres
    · rw [take_of_length_le (by simpa using hge)]
      exact hmono hres

namespace DB

/-- **The next frame.** -/
theorem appendGenerationMeta_runs {m : Manifest} (h : Flushed ctx old g w)
    (hm : m.generationId = g ∧ m.pmtCheckpointId = g) {parent : Nat}
    (hparent : parent = 0 ∨ ∃ f ∈ w.disk.frames, f.checkpointId = parent)
    (hboot : g = 0 → parent = 0 ∧ w.handle.engine.pmt.mappings = []) :
    Runs (Lasting ctx) (appendGenerationMeta g parent m) w
      (fun _ w' => Framed ctx m w' ∧ w'.handle = w.handle) E := by
  refine .bind (cutMetaLog_runs h.whole) fun _ w' hw' => ?_
  rw [hw']
  obtain ⟨entry₀, hentry₀⟩ := generationEntry_ok h.disk.log
    (fun p hp => Disk.parsedMetaLog_frames hp)
    (fun hn => Disk.frames_of_none hn) hparent w.handle.engine.pmt
    w.handle.engine.btree.pageAllocator
  refine .handle (.disk (.lift (fun e he => ?_) fun entry hentry => ?_))
  · rw [hentry₀] at he
    cases he
  obtain ⟨t, n, hres, ht⟩ := generationEntry_resolves (m := m) h.disk.log h.held.pmt.sorted h.bound
    (fun p hp => Disk.parsedMetaLog_frames hp) hentry
  have hzero : g = 0 → ∃ allocator, entry = .checkpoint [] allocator := by
    intro h0
    unfold generationEntry at hentry
    rw [if_pos (hboot h0).1, (hboot h0).2] at hentry
    cases hentry
    exact ⟨_, rfl⟩
  obtain ⟨hwf, hmono⟩ := h.disk.log.append (g := ⟨g, m, entry⟩) h.bound hm hzero
    ⟨t, _, n, hres, ht ▸ h.held.pmt.sorted⟩
  have hnew : Newest (w.disk.frames ++ [⟨g, m, entry⟩]) w.handle.engine.pmt.mappings :=
    ht ▸ Newest.concat hres
  have hlasting := h.withFrame hwf hnew hmono
  have happ := append_whole h.whole ⟨g, m, entry⟩
  refine .bind (R := fun _ w₁ => w₁.handle = w.handle ∧
    w₁.disk = withFrame w.disk ⟨g, m, entry⟩ w.disk.frames.length)
    (.of_write (happ ▸ hlasting _ le_rfl (Nat.le_succ _)) ⟨rfl, happ⟩) fun _ w₁ hw₁ => ?_
  -- the sync makes the new frame the one to come back to
  have hsync : ({ w₁.disk with metaLog := some (w₁.disk.metaLog.getD LogFile.empty).sync } : Disk) =
      withFrame w.disk ⟨g, m, entry⟩ (w.disk.frames.length + 1) := by
    rw [hw₁.2, withFrame, withFrame]
    simp [LogFile.sync]
  refine .of_write (hsync ▸ hlasting _ (Nat.le_succ _) le_rfl) ⟨?_, hw₁.1⟩
  have hslots : w.handle.engine.SlotInv w.disk.device.size [] w.handle.protectedOffsets :=
    h.held.mono fun _ => mem_append_left _
  rw [hsync, hw₁.1]
  refine ⟨⟨⟨(hlasting _ (Nat.le_succ _) le_rfl).1, h.kept, h.data, h.synced, h.protects,
    h.roots.mono fun _ _ _ => hmono, (hlasting _ (Nat.le_succ _) le_rfl).2.2, h.leased⟩,
    ?_, hnew, h.held.pmt,
    hslots.hold fun o ho => mem_append.mp ho⟩, ⟨⟨g, m, entry⟩, ?_, rfl⟩, fun f hf => ?_⟩
  · rintro log ⟨⟩
    exact ⟨by simp, rfl⟩
  · show (w.disk.frames ++ [_]).getLast? = _
    simp
  · rw [hm.1]
    rcases mem_append.mp hf with hf' | hf'
    · exact (h.bound f hf').le
    · rw [mem_singleton.mp hf']

end DB

end SeerDb
