/-
# `SeerDb.Db.Process` — the invariant of a process

Every command of a client keeps the database safe: the handle is `Safe`, or there is
none and the directory is `Shut`.  At every write of a command `Lasting` holds, for
the slots that were pinned when the command began.
-/
import SeerDb.Db.OpenSpec

namespace SeerDb

open Lib List

variable {ctx : Ctx} {mark : GenerationId} {w : World DB Disk} {c : Client} {d : Disk}

/-! ## Calls on a handle -/

/-- Vacuum and the rewrite of blob files flush without setting the stamp; compaction copies
pages. -/
def DbCall.stamping : DbCall → Stamping
  | .gc => .none
  | .vacuum => .none
  | .vacuumStep _ => .none
  | .compact _ => .copied
  | _ => .later

def Command.stamping : Command → Stamping
  | .call c => c.stamping
  | _ => .later

section

variable {α : Type} {p : DbM α}

/-- What a call promises once nothing has to be kept any more. -/
theorem Runs.settled (h : Settles ctx p w) :
    RunsTo (Lasting ctx) p w (Settled ctx ctx.views) :=
  h.conseq (fun _ _ hq => hq.safe.settled) fun _ _ he => he.settled

theorem discard_runs {C : Disk → Prop} {P : World DB Disk → Prop}
    (h : RunsTo C p w P) : RunsTo C (discard p) w P :=
  .bind h fun _ _ hq => .pure hq

end

/-- **Every call keeps the handle safe.** -/
theorem DbCall.run_safe (call : DbCall) (h : Safe ctx w) (hst : ctx.stamping = call.stamping) :
    RunsTo (Lasting ctx) call.run w (Settled ctx ctx.views) := by
  have hstill : ∀ {α : Type} {p : DbM α}, Still p →
      RunsTo (Lasting ctx) p w (Settled ctx ctx.views) := fun hp =>
    (hp.safe h).both (fun _ hd => hd) fun _ hq => hq.settled
  cases call with
  | put key value => exact .bind (hstill (DB.still_writeOne _ _)) fun _ _ hq => .pure hq
  | delete key =>
    exact discard_runs (.bind (hstill (DB.still_writeOne _ _)) fun _ _ hq => .pure hq)
  | commitBatch mutations => exact Runs.settled (DB.commitBatch_runs h mutations)
  | commitBatchAt expected mutations =>
    exact Runs.settled (DB.commitBatchAt_runs h expected mutations)
  | admitBatch expected mutations => exact discard_runs (hstill (DB.still_admitBatch _ _))
  | publicationBarrier => exact discard_runs (Runs.settled (DB.publicationBarrier_runs h))
  | flush => exact Runs.settled (DB.flush_runs h)
  | close => exact (DB.close_runs h).both (fun _ hd => hd) fun _ hq => hq.settled
  | compact limit => exact Runs.settled (DB.compactWithLimit_runs h (fun _ => hst) limit)
  | gc =>
    exact discard_runs (Runs.settled (DB.gc_runs h hst))
  | vacuum => exact Runs.settled (DB.vacuum_runs h hst)
  | vacuumStep maxEntries =>
    exact discard_runs (Runs.settled (DB.vacuumStep_runs h hst maxEntries))
  | cancelVacuum => exact discard_runs (Runs.settled (DB.cancelVacuum_runs h))
  | pruneHistory => exact Runs.settled (DB.pruneHistory_runs h)
  | retainCommit commitId => exact discard_runs (Runs.settled (DB.retainCommit_runs h commitId))
  | retainCurrentCommit => exact discard_runs (Runs.settled (DB.retainCurrentCommit_runs h))
  | retainCurrent copied => exact discard_runs (Runs.settled (DB.retainCurrent_runs h copied))
  | releaseSnapshot snapshotId => exact DB.releaseSnapshot_runs h snapshotId
  | beginBatchTransaction => exact discard_runs (Runs.settled (DB.beginBatchTransaction_runs h))
  | releaseRoot snapshotId => exact DB.releaseRoot_runs h snapshotId

/-! ## Calls without a handle -/

namespace Client

/-- A handle that is closed or fenced. -/
def Stopped (db : DB) : Prop := db.isOpen = true → db.writeFenced = true

theorem stopped_noHandle {db : DB} (h : db = noHandle) : Stopped db := by
  intro hopen
  rw [h] at hopen
  cases hopen

theorem checked_refused {α : Type} {k : DbM α} {C : Disk → Prop} {Q : α → World DB Disk → Prop}
    (hw : Stopped w.handle) : Runs C (do DB.checkWritable; k) w Q (fun _ w' => w' = w) := by
  refine .bind ((DB.checkWritable_runs w).imp fun _ w' hw' => ?_) fun _ _ hf => (hf : False).elim
  obtain ⟨-, hopen, hfence⟩ := hw'
  rw [hw hopen] at hfence
  cases hfence

theorem noHandle_error {α : Type} {k : DbM α} (hw : w.handle = noHandle) :
    ∃ e w', (do DB.checkWritable; k : DbM α) w = .error e w' := by
  have hrun := @checked_refused w α k (fun _ => True) (fun _ _ => False) (stopped_noHandle hw)
  rw [Runs] at hrun
  split at hrun
  · exact hrun.1.elim
  · exact ⟨_, _, by assumption⟩

theorem beginReadView_refused {c : Client} {C : Disk → Prop} {Q : Unit → World Client Disk → Prop}
    {E : Error → World Client Disk → Prop} (hc : Stopped c.db) (hE : ∀ e, E e ⟨c, d, []⟩) :
    Runs C (run .beginReadView) ⟨c, d, []⟩ Q E := by
  refine .bind (R := fun _ _ => False)
    (onDb_runs (.handle (.lift (fun e _ => hE e) fun _ hread => ?_))) fun _ _ hf => hf.elim
  obtain ⟨hopen, hfence⟩ := DB.checkFence_ok hread
  rw [hc hopen] at hfence
  cases hfence

/-- A stopped handle does nothing but drop roots. -/
theorem run_refused (call : DbCall) (hw : Stopped w.handle) (hroot : ∀ id, call ≠ .releaseRoot id)
    {C : Disk → Prop} :
    RunsTo C call.run w (fun w' => w' = w) := by
  cases call with
  | close =>
    exact .handle (.runIf (fun _ => .bind (checked_refused hw) fun _ _ hq => hq) fun _ => rfl)
  | commitBatch mutations => exact .handle (checked_refused hw)
  | put key value => exact .bind (checked_refused hw) fun _ _ hq => hq
  | delete key => exact discard_runs (.bind (checked_refused hw) fun _ _ hq => hq)
  | releaseRoot id => exact absurd rfl (hroot id)
  | _ =>
    -- all the others begin with the check
    first
    | exact checked_refused hw
    | exact discard_runs (checked_refused hw)

/-- Without a handle no call does anything. -/
theorem run_noHandle (call : DbCall) (hw : w.handle = noHandle) {C : Disk → Prop} :
    RunsTo C call.run w (fun w' => w' = w) := by
  by_cases hroot : ∃ id, call = .releaseRoot id
  · obtain ⟨id, rfl⟩ := hroot
    refine .bind (R := fun _ _ => False) (.handle ?_) fun _ _ hf => hf.elim
    rw [hw]
    exact ⟨rfl, Passed.refl _ _⟩
  · exact run_refused call (stopped_noHandle hw) fun id he => hroot ⟨id, he⟩

end Client

/-! ## Commands -/

/-- The checkpoint of a manifest and the table it selects. -/
def tableOf (d : Disk) (m : Manifest) : Option (Nat × PMT) :=
  if m.pmtCheckpointId = 0 then none
  else match DB.manifestPmt d m with
    | .ok t => some (m.pmtCheckpointId, t)
    | .error _ => none

theorem mem_tables {ms : List Manifest} {e : Nat × PMT} (he : e ∈ ms.filterMap (tableOf d)) :
    e.1 ≠ 0 ∧ ∃ m ∈ ms, m.pmtCheckpointId = e.1 ∧ DB.manifestPmt d m = .ok e.2 := by
  obtain ⟨m, hm, ht⟩ := mem_filterMap.mp he
  rw [tableOf] at ht
  split at ht
  · cases ht
  rename_i h0
  split at ht
  · rename_i t hpmt
    cases ht
    exact ⟨h0, m, hm, rfl, hpmt⟩
  · cases ht

/-- A call begins: what is pinned has to be kept. -/
theorem Safe.pinned (h : Safe ctx w) (stamping : Stamping) :
    Safe ⟨stamping, ctx.mark, ctx.views, w.handle.protectedOffsets, w.disk.device,
      (w.handle.retention.allRoots.map RetainedRoot.manifest).filterMap (tableOf w.disk)⟩ w := by
  refine h.recast rfl h.steady.disk.marked (fun o ho => ⟨h.steady.slots.held_in o ho, ?_, rfl⟩)
    (fun _ ho => ho) fun e he => ?_
  · rw [h.steady.synced]
    exact not_mem_nil
  · obtain ⟨h0, m, hm, hid, hpmt⟩ := mem_tables he
    obtain ⟨root, hroot, rfl⟩ := mem_map.mp hm
    refine ⟨⟨h0, root, hroot, hid⟩, ?_⟩
    have hres := (manifestPmt_ok h.steady.disk.log hpmt).resolve_left fun hz => h0 (hid ▸ hz.1)
    rwa [hid] at hres

namespace Client

/-- The handle is safe, or there is none; generation `mark` is durable. -/
def Inv (mark : GenerationId) (c : Client) (d : Disk) : Prop :=
  Safe (Ctx.idle mark c.views) ⟨c.db, d, []⟩ ∨
    (c.db = noHandle ∧ c.views = [] ∧ Shut (Ctx.idle mark []) d)

/-- The slots that a command must not touch. -/
def pins (c : Client) (d : Disk) : Command → List Nat
  | .reopen _ => ((d.registry.getD .new).roots.flatMap fun root =>
      match DB.manifestPmt d root.2 with
    | .ok t => t.offsets
    | .error _ => []).filter fun o => pageSize ∣ o ∧ o + pageSize ≤ d.device.size
  | _ => c.db.protectedOffsets

/-- The registered roots: those of the handle, and for an open those of the registry. -/
def registered (c : Client) (d : Disk) : Command → List Manifest
  | .reopen _ => (d.registry.getD .new).roots.map Prod.snd
  | _ => c.db.retention.allRoots.map RetainedRoot.manifest

/-- What a command has to keep. -/
def keeping (mark : GenerationId) (c : Client) (d : Disk) (i : Command) : Ctx :=
  ⟨i.stamping, mark, [], pins c d i, d.device, (registered c d i).filterMap (tableOf d)⟩

/-- The trace of a run is no part of the state. -/
theorem Inv.of_safe {db : DB} {trace : List Disk} {views stale : List ReadView}
    (h : Safe (Ctx.idle mark views) ⟨db, d, trace⟩) : Inv mark ⟨db, views, stale⟩ d := by
  refine .inl (Safe.congr ?_ h)
  exact ⟨rfl, rfl⟩

theorem Inv.shut (h : Inv mark c d) : ∃ ctx, ctx.mark = mark ∧ Shut ctx d := by
  rcases h with hs | ⟨-, -, hs⟩
  · exact ⟨_, rfl, hs.steady.shut⟩
  · exact ⟨_, rfl, hs⟩

theorem Shut.idle (h : Shut ctx d) : Shut (Ctx.idle ctx.mark []) d :=
  ⟨h.disk.restamp h.synced h.disk.marked, forall_mem_nil _, h.synced, h.durable, forall_mem_nil _⟩

theorem Inv.remark {mark' : GenerationId} (h : Inv mark c d) (hm : Marked mark' d) :
    Inv mark' c d := by
  rcases h with hs | ⟨hno, hviews, hs⟩
  · exact Or.inl (hs.recast rfl hm hs.steady.kept hs.steady.protects (forall_mem_nil _))
  · exact .inr ⟨hno, hviews, { hs with disk := hs.disk.restamp hs.synced hm }⟩

/-- The registry names what an open keeps. -/
theorem Inv.reopens (h : Inv mark c d) (options : Options) :
    Shut (keeping mark c d (.reopen options)) d ∧
      Listed (keeping mark c d (.reopen options)) d := by
  obtain ⟨ctx, rfl, hs⟩ := h.shut
  refine ⟨⟨hs.disk.restamp hs.synced hs.disk.marked, fun o ho => ⟨?_, ?_, rfl⟩, hs.synced,
    hs.durable, fun e he => ?_⟩, fun o ho => ?_, fun e he => ?_⟩
  · simpa only [InFile, decide_eq_true_eq] using (mem_filter.mp ho).2
  · rw [hs.synced]
    exact not_mem_nil
  · obtain ⟨h0, m, hm, hid, hpmt⟩ := mem_tables he
    have hres := (manifestPmt_ok hs.disk.log hpmt).resolve_left fun hz => h0 (hid ▸ hz.1)
    rw [hs.durable, take_length]
    rwa [hid] at hres
  · obtain ⟨root, hroot, hor⟩ := mem_flatMap.mp (mem_filter.mp ho).1
    refine ⟨root, hroot, ?_⟩
    cases ht : DB.manifestPmt d root.2 with
    | error e =>
      rw [ht] at hor
      cases hor
    | ok t =>
      rw [ht] at hor
      exact ⟨t, rfl, hor⟩
  · obtain ⟨h0, m, hm, hid, -⟩ := mem_tables he
    obtain ⟨root, hroot, rfl⟩ := mem_map.mp hm
    exact ⟨h0, root, hroot, hid⟩

/-- The views of earlier handles that a command leaves open. -/
def staleAfter (c : Client) : Command → List ReadView
  | .reopen _ => c.views ++ c.stale
  | .dropStaleView index => c.stale.eraseIdx index
  | _ => c.stale

/-- When a command begins, what it has to keep is there. -/
theorem Inv.lasting (h : Inv mark c d) (i : Command) : Lasting (keeping mark c d i) d := by
  cases i with
  | reopen options => exact (h.reopens options).1.lasting
  | _ =>
    rcases h with hs | ⟨hno, -, hs⟩
    · exact (hs.pinned _).steady.lasting
    refine ⟨hs.disk.restamp hs.synced hs.disk.marked, fun o ho => ?_, fun e he => ?_⟩
    · simp only [keeping, pins, hno] at ho
      cases ho
    · simp only [keeping, registered, hno] at he
      cases he

/-- What a command leaves. -/
structure Left (mark : GenerationId) (c : Client) (d : Disk) (i : Command)
    (w : World Client Disk) : Prop where
  inv : Inv mark w.handle w.disk
  stale : w.handle.stale = c.staleAfter i
  held : Held (keeping mark c d i) w.disk

/-- **Every command keeps the invariant**, and at every write of it what is pinned is as it was. -/
theorem run_inv (i : Command) (h : Inv mark c d) :
    RunsTo (Lasting (keeping mark c d i)) (run i) ⟨c, d, []⟩ (Left mark c d i) := by
  have hheld := (h.lasting i).2
  cases i with
  | call call =>
    refine onDb_runs ?_
    rcases h with hs | ⟨hno, hviews, hs⟩
    · exact (call.run_safe (hs.pinned call.stamping) rfl).both (fun _ hd => hd)
        fun _ hq => ⟨Inv.of_safe hq.safe, rfl, hq.held⟩
    refine (run_noHandle call hno).both (fun _ hd => hd) fun w' hw' => ?_
    rw [hw']
    exact ⟨.inr ⟨hno, hviews, hs⟩, rfl, hheld⟩
  | beginReadView =>
    rcases h with hs | ⟨hno, hviews, hs⟩
    · refine .bind (R := fun v w => Left mark c d .beginReadView
        { w with handle := { w.handle with views := v :: w.handle.views } })
          (onDb_runs ?_) fun v w₁ hw₁ =>
        .of_modifyHandle hw₁
      exact (DB.beginReadView_runs (hs.pinned .later)).mono (fun _ hd => hd)
        (fun _ _ hq => ⟨Inv.of_safe hq.idle, rfl, hq.settled.held⟩)
        fun _ _ he => ⟨Inv.of_safe he.safe, rfl, he.held⟩
    · exact beginReadView_refused (stopped_noHandle hno) fun _ =>
        ⟨.inr ⟨hno, hviews, hs⟩, rfl, hheld⟩
  | dropReadView index =>
    refine .handle ?_
    cases hv : c.views[index]? with
    | none =>
      exact .pure ⟨h, rfl, hheld⟩
    | some v =>
      rcases h with hs | ⟨hno, hviews, hs⟩
      · refine .modifyHandle (onDb_runs ?_)
        exact (DB.dropReadView_runs (hs.pinned .later) hv).both (fun _ hd => hd)
          fun _ hq => ⟨Inv.of_safe hq.safe, rfl, hq.held⟩
      · rw [hviews] at hv
        cases hv
  | dropStaleView index =>
    refine .handle ?_
    cases hv : c.stale[index]? with
    | none =>
      exact .pure ⟨h, (eraseIdx_of_length_le (List.getElem?_eq_none_iff.mp hv)).symm, hheld⟩
    | some v =>
      refine .modifyHandle (onDb_runs ?_)
      rcases h with hs | ⟨hno, hviews, hs⟩
      · exact ((DB.still_dropSidecar _).safe (hs.pinned .later)).both (fun _ hd => hd)
          fun _ hq => ⟨Inv.of_safe hq.idle, rfl, hq.settled.held⟩
      · have hs' : ∀ retained, Shut (Ctx.idle mark []) { d with retained := retained } := fun _ =>
          hs.congr rfl fun hn => (hs.disk.fresh hn).1
        exact .of_write ⟨(hs' _).disk.restamp hs.synced hs.disk.marked, hheld.congr rfl⟩
          ⟨.inr ⟨hno, hviews, hs' _⟩, rfl, hheld.congr rfl⟩
  | reopen options =>
    obtain ⟨hs, hlisted⟩ := h.reopens options
    refine .modifyHandle (.onError (R := fun _ w => w.handle.views = [] ∧
      Shut (keeping mark c d (.reopen options)) w.disk ∧ w.handle.stale = c.views ++ c.stale)
      (onDb_runs ?_) fun _ w' hw' => ?_)
    · exact (DB.openDb_runs hs rfl hlisted options).conseq
        (fun _ _ hq => ⟨Inv.of_safe hq.safe.idle, rfl, hq.safe.settled.held⟩) fun _ _ he =>
        ⟨rfl, he, rfl⟩
    · exact .of_modifyHandle ⟨.inr ⟨rfl, hw'.1, Shut.idle hw'.2.1⟩, hw'.2.2, hw'.2.1.lasting.2⟩

theorem Inv.of_initial (space : List Bool) : Inv 0 start (Disk.empty space) :=
  Or.inr ⟨rfl, rfl, DiskInv.empty _ _, forall_mem_nil _, rfl, rfl, forall_mem_nil _⟩

theorem Inv.of_crash {stamping : Stamping} {d' : Disk} (h : DiskInv stamping mark d)
    (hc : Disk.Crash d d') :
    Inv mark start d' := by
  obtain ⟨k, -, -, -, hdurable⟩ := hc.frames
  exact Or.inr ⟨rfl, rfl, (h.crash hc).weaken, forall_mem_nil _,
    hc.device.unsynced, hdurable, forall_mem_nil _⟩

theorem Inv.diskInv (h : Inv mark c d) : DiskInv .none mark d := by
  obtain ⟨ctx, rfl, hs⟩ := h.shut
  exact hs.disk.weaken

theorem Inv.step (i : Command) (h : Inv mark c d) : RunsTo (DiskInv .none mark) (run i) ⟨c, d, []⟩
    (fun w => Inv mark w.handle w.disk) :=
  (run_inv i h).mono (fun _ hd => hd.1.weaken) (fun _ _ hq => hq.inv) fun _ _ he => he.inv

variable {allowed : Command → Client → Disk → Prop}

theorem inv_of_from {base : Client → Disk → Prop} (hbase : ∀ c d, base c d → Inv mark c d)
    (h : (system allowed).From base c d) : Inv mark c d :=
  h.invariant (D := DiskInv .none mark) hbase (fun i _ _ _ hi => hi.step i)
    (fun _ _ hi => hi.diskInv) fun _ _ hd hc => Inv.of_crash hd hc

/-- **The invariant of every run**, with crashes. -/
theorem inv_of_reached (h : (system allowed).Reached c d) : Inv 0 c d := by
  refine inv_of_from ?_ h
  rintro _ _ ⟨rfl, space, rfl⟩
  exact Inv.of_initial space

end Client

end SeerDb
