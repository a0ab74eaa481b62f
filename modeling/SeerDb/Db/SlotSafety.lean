/-
# `SeerDb.Db.SlotSafety` — what a write to the data file may touch

At every write of every command the slots of the newest durable frame, of the registered
roots and of the leased tables are left alone.  The stamps of the pages that are written
date them behind every frame.

Neither holds without a condition.  A read view outlives its handle and a handle
opened later does not know its lease; vacuum and the rewrite of blob files flush with
the stamp that the last flush has left.
-/
import SeerDb.Db.Process

namespace SeerDb

open Lib List

variable {ctx : Ctx} {w : World DB Disk} {c : Client} {d d' : Disk} {t : PMT}

/-! ## The slots of a root and of a view -/

theorem Safe.view_pinned (h : Safe ctx w) {v : ReadView} (hv : v ∈ ctx.views) :
    ∀ o ∈ v.pmt.offsets, o ∈ w.handle.protectedOffsets := by
  intro o ho
  have hlease : v.pmt ∈ w.handle.leases := h.steady.leased.mem_iff.mpr (mem_map_of_mem hv)
  exact DB.mem_protectedOffsets.mpr (.inr ⟨v.pmt, hlease, ho⟩)

theorem Safe.root_pinned (h : Safe ctx w) {r : RetainedRoot} (hr : r ∈ w.handle.retention.allRoots)
    (ht : DB.manifestPmt w.disk r.manifest = .ok t) :
    ∀ o ∈ t.offsets, o ∈ w.handle.protectedOffsets := by
  intro o ho
  have hrooted : ∃ views, (∀ v ∈ views, v ∈ ctx.views) ∧ Rooted views w.disk.frames r := by
    rcases mem_append.mp hr with hr | hr
    · exact ⟨[], by simp, h.steady.roots.named r hr⟩
    · exact ⟨ctx.views, fun _ hv => hv, h.steady.roots.ephemeral r hr⟩
  obtain ⟨views, hviews, hrooted⟩ := hrooted
  by_cases h0 : r.manifest.pmtCheckpointId = 0
  · rw [DB.manifestPmt, if_pos h0] at ht
    cases ht
    cases ho
  obtain ⟨t', a, n, hres, hcover⟩ := hrooted.resolve_left h0
  obtain ⟨a', n', hres'⟩ := (manifestPmt_ok h.steady.disk.log ht).resolve_left fun h => h0 h.1
  obtain ⟨rfl, -, -⟩ := hres'.unique hres
  rcases hcover with hin | ⟨v, hv, -, -, hms⟩
  · exact DB.mem_protectedOffsets.mpr (.inl ⟨r, hr, hin o ho⟩)
  · refine h.view_pinned (hviews v hv) o ?_
    rw [PMT.offsets_congr hms]
    exact ho

/-! ## An open that is refused -/

/-- A registered root with a slot behind the end of the file stops the open before it writes
pages. -/
theorem DB.openDb_refused {s : DB} {trace : List Disk} (hlog : LogWF d.frames) (options : Options)
    {root : SnapshotId × Manifest} (hroot : root ∈ (d.registry.getD .new).roots)
    (ht : DB.manifestPmt d root.2 = .ok t) {o : Nat} (ho : o ∈ t.offsets)
    (hout : ¬ InFile d.device.size o) :
    Runs (fun d' => d'.core = d.core) (openDb options) ⟨s, d, trace⟩ (fun _ _ => False)
      (fun _ w' => w'.disk.core = d.core) := by
  refine .lift (fun _ _ => rfl) fun _ _ => .disk (.lift (fun _ _ => rfl) fun catalog _ => ?_)
  refine .bind (R := fun _ _ => False) ?_ fun _ _ hf => hf.elim
  refine .disk (.bind (R := fun _ w₁ => w₁.disk.core = d.core) (.runIf (fun _ => ?_) fun _ => rfl)
    fun _ w₁ hcore => ?_)
  · exact .of_write rfl rfl
  · obtain ⟨-, hml, hdev, hframes, -⟩ := Disk.core_eq hcore
    have ht₁ : DB.manifestPmt w₁.disk root.2 = .ok t := by
      rw [DB.manifestPmt, Disk.parsedMetaLog, hml]
      exact ht
    refine .disk (.lift (fun _ _ => hcore) fun roots hroots => ?_)
    obtain ⟨hnamed, hcover⟩ := DB.loadRetainedRoots_ok (hframes ▸ hlog) _ hroots
    obtain ⟨r, hr, hor⟩ := hcover root hroot t ht₁ o ho
    exact absurd (hdev ▸ (hnamed r hr).2 o hor) hout

namespace Client

variable {mark : GenerationId} {i : Command}

/-! ## What has to be left alone -/

/-- No write and no truncation has touched the slot. -/
structure Untouched (dev dev' : Device) (o : Nat) : Prop where
  unwritten : o ∉ dev'.unsynced
  inFile : InFile dev.size o → InFile dev'.size o
  page : dev'.page o = dev.page o

/-- At the moment `d'` of the command `i`, begun in `c` and `d`. -/
structure SlotsKept (i : Command) (c : Client) (d d' : Disk) : Prop where
  /-- The table of the newest durable frame is whole. -/
  durable : Anchored d'.device (d'.frames.take d'.durable)
  roots : ∀ m ∈ registered c d i, ∀ t, DB.manifestPmt d m = .ok t → ∀ o ∈ t.offsets,
    Untouched d.device d'.device o
  /-- Every view that is still open holds the lease of its table. -/
  leases : ∀ v ∈ c.views ++ c.stale, ∀ o ∈ v.pmt.offsets, Untouched d.device d'.device o

/-- The sets of slots of an engine. -/
structure SlotsApart (e : StorageEngine) : Prop where
  injective : ∀ {p q : PageId} {m m' : PageMapping}, e.pmt.get p = some m → e.pmt.get q = some m' →
    m.offset = m'.offset → p = q
  apart : ∀ o ∈ e.freeOffsets ++ e.pendingReclaimedOffsets ++ e.rebuildReservedOffsets,
    o ∉ e.pmt.offsets
  placed :
    ∀ o ∈ e.pmt.offsets ++ e.freeOffsets ++ e.pendingReclaimedOffsets ++ e.rebuildReservedOffsets,
    pageSize ∣ o ∧ o < e.nextOffset

theorem SlotsApart.of_inv {e : StorageEngine} {size : Nat} {held : List Nat}
    (h : e.SlotInv size [] held) :
    SlotsApart e where
  injective hp hq he := h.pmt.inj hp hq he
  apart o ho := by
    rcases mem_append.mp ho with ho | ho
    · rcases mem_append.mp ho with ho | ho
      · exact (h.free o ho).1
      · exact h.retired o (.inl ho)
    · exact h.retired o (.inr (.inl ho))
  placed o ho := by
    have hin : InFile size o := by
      rcases mem_append.mp ho with ho | ho
      · rcases mem_append.mp ho with ho | ho
        · rcases mem_append.mp ho with ho | ho
          · exact h.mapped o ho
          · exact h.free_in o ho
        · exact h.retired_in o (.inl ho)
      · exact h.retired_in o (.inr (.inl ho))
    refine ⟨hin.1, ?_⟩
    rw [h.frontier]
    exact lt_of_lt_of_le (Nat.lt_add_of_pos_right (by decide)) hin.2

theorem Inv.slotsApart (h : Inv mark c d) : SlotsApart c.db.engine := by
  rcases h with hs | ⟨hno, -, -⟩
  · exact SlotsApart.of_inv hs.steady.slots
  · rw [hno]
    exact ⟨fun hp => (by cases hp), forall_mem_nil _, forall_mem_nil _⟩

/-! ## The moments of a command -/

theorem Inv.during (h : Inv mark c d) (i : Command) :
    ∀ d' ∈ (run i).during c d, Lasting (keeping mark c d i) d' :=
  (run_inv i h).during (h.lasting i)

theorem Untouched.of_kept {kept : List Nat} {dev dev' : Device} {o : Nat} (h : Kept kept dev dev')
    (ho : o ∈ kept) : Untouched dev dev' o := ⟨(h o ho).2.1, fun _ => (h o ho).1, (h o ho).2.2⟩

/-! ## Slot safety -/

/-- Every view of an earlier handle is dropped before the database is opened again. -/
def noStaleView : Command → Client → Disk → Prop
  | .reopen _, c, _ => c.views = [] ∧ c.stale = []
  | _, _, _ => True

theorem stale_of_reached (h : (system noStaleView).Reached c d) : c.stale = [] := by
  refine (h.invariant (I := fun c d => Inv 0 c d ∧ c.stale = []) (D := DiskInv .none 0) ?_ ?_
    (fun _ _ hi => hi.1.diskInv) fun _ _ hd hc => ⟨Inv.of_crash hd hc, rfl⟩).2
  · rintro _ _ ⟨rfl, space, rfl⟩
    exact ⟨Inv.of_initial space, rfl⟩
  · intro i c d hi h
    have hstale : c.staleAfter i = [] := by
      cases i with
      | reopen options =>
        obtain ⟨hviews, hst⟩ := hi
        rw [staleAfter, hviews, hst]
        rfl
      | dropStaleView index =>
        rw [staleAfter, h.2]
        rfl
      | _ => exact h.2
    exact (run_inv i h.1).mono (fun _ hd => hd.1.weaken)
      (fun _ _ hq => ⟨hq.inv, hq.stale.trans hstale⟩) fun _ _ he => ⟨he.inv, he.stale.trans hstale⟩

/-- The slots of the registered roots are left alone, by an open too. -/
theorem Inv.roots_kept (h : Inv mark c d) (hd' : d' ∈ (run i).during c d) {m : Manifest}
    (hm : m ∈ registered c d i) (ht : DB.manifestPmt d m = .ok t) :
    ∀ o ∈ t.offsets, Untouched d.device d'.device o := by
  intro o ho
  have hkept := (h.during i d' hd').2.1
  cases i with
  | reopen options =>
    obtain ⟨root, hroot, rfl⟩ := mem_map.mp hm
    by_cases hin : InFile d.device.size o
    · refine Untouched.of_kept hkept (mem_filter.mpr ⟨mem_flatMap.mpr ⟨root, hroot, ?_⟩, ?_⟩)
      · rw [ht]
        exact ho
      · simpa only [InFile, decide_eq_true_eq] using hin
    -- the open is refused, and has written no page
    have hruns : Runs (fun d' => d'.core = d.core) (run (.reopen options)) ⟨c, d, []⟩
        (fun _ _ => True) fun _ _ => True := by
      refine .modifyHandle (.onError (R := fun _ _ => True) (onDb_runs ?_) fun _ _ _ =>
        .of_modifyHandle trivial)
      exact (DB.openDb_refused h.diskInv.log options hroot ht ho hin).conseq (fun _ _ hf => hf.elim)
        fun _ _ _ => trivial
    obtain ⟨-, -, hdev, -⟩ := Disk.core_eq (hruns.during rfl d' hd')
    obtain ⟨ctx, -, hs⟩ := h.shut
    rw [hdev]
    exact ⟨by rw [hs.synced]; exact not_mem_nil, fun hin => hin, rfl⟩
  | _ =>
    obtain ⟨r, hr, rfl⟩ := mem_map.mp hm
    refine Untouched.of_kept hkept ?_
    rcases h with hs | ⟨hno, -, -⟩
    · exact hs.root_pinned hr ht o ho
    · simp only [hno] at hr
      cases hr

theorem Inv.views_kept (h : Inv mark c d) (hi : noStaleView i c d)
    (hd' : d' ∈ (run i).during c d) {v : ReadView} (hv : v ∈ c.views) :
    ∀ o ∈ v.pmt.offsets, Untouched d.device d'.device o := by
  intro o ho
  have hkept := (h.during i d' hd').2.1
  rcases h with hs | ⟨-, hviews, -⟩
  · cases i with
    | reopen options =>
      rw [hi.1] at hv
      cases hv
    | _ => exact Untouched.of_kept hkept (hs.view_pinned hv o ho)
  · rw [hviews] at hv
    cases hv

/-- **Slot safety.** -/
theorem slot_safety (h : (system noStaleView).Reached c d) (i : Command) (hi : noStaleView i c d) :
    (∀ d' ∈ (run i).during c d, SlotsKept i c d d') ∧
      SlotsApart ((run i).final ⟨c, d, []⟩).handle.db.engine := by
  have hinv := inv_of_reached h
  refine ⟨fun d' hd' => ⟨?_, ?_, ?_⟩, ?_⟩
  · have hdisk := (hinv.during i d' hd').1
    exact hdisk.anchored _ le_rfl hdisk.durable_le
  · intro m hm t ht
    exact hinv.roots_kept hd' hm ht
  · intro v hv
    rw [stale_of_reached h, append_nil] at hv
    exact hinv.views_kept hi hd' hv
  · exact (hinv.step i).final (Q := fun w => Inv 0 w.handle w.disk) |>.slotsApart

/-- A commit is retained, a view of it is open, and its key is written twice more. -/
def retainAndView : List Command :=
  [.call (.put [1] [1]), .call .flush, .call (.retainCommit 1), .beginReadView,
    .call (.put [1] [2]), .call .flush, .call (.put [1] [3])]

def shared : Client × Disk :=
  (system noStaleView).runAll (.reopen Options.default :: retainAndView) start (Disk.empty [])

theorem shared_reached : (system noStaleView).Reached shared.1 shared.2 := by
  have hopen : (system noStaleView).Reached _ _ :=
    .call (Command.reopen Options.default) (.base ⟨rfl, [], rfl⟩) ⟨rfl, rfl⟩
  have hrest : ∀ i ∈ retainAndView, ∀ c d, noStaleView i c d := by simp [retainAndView, noStaleView]
  have hrun := System.From.runAll hrest hopen
  exact hrun

/-- Two commits are published, a root and a view keep the first, and the next flush writes pages. -/
theorem shared_facts : (shared.2.frames.length = 3 ∧ shared.1.db.engine.pmt.mappings ≠ []) ∧
    (∃ f ∈ shared.2.frames.take shared.2.durable, f.manifest.generationId = 2) ∧
    (shared.1.views.map fun v => v.pmt.offsets) = [[0]] ∧
    (registered shared.1 shared.2 (.call .flush)).length = 2 ∧
    ∃ d' ∈ (run (.call .flush)).during shared.1 shared.2, d'.device.unsynced ≠ [] := by
  decide +kernel

theorem slot_safety_shared : (shared.1.views.map fun v => v.pmt.offsets) = [[0]] ∧
    (registered shared.1 shared.2 (.call .flush)).length = 2 ∧
    (∃ d' ∈ (run (.call .flush)).during shared.1 shared.2, d'.device.unsynced ≠ []) ∧
    (∀ d' ∈ (run (.call .flush)).during shared.1 shared.2,
      SlotsKept (.call .flush) shared.1 shared.2 d') ∧
      SlotsApart ((run (.call .flush)).final ⟨shared.1, shared.2, []⟩).handle.db.engine := by
  obtain ⟨-, -, hviews, hroots, hwrites⟩ := shared_facts
  exact ⟨hviews, hroots, hwrites, slot_safety shared_reached (.call .flush) trivial⟩

/-- A view is taken, the database is opened again, and the key of the view is written twice. -/
def overwriteView : List Command :=
  [.reopen Options.default, .call (.put [1] [1]), .call .flush, .beginReadView, .call .close,
    .reopen Options.default, .call (.put [1] [2]), .call .flush, .call (.put [1] [3])]

/-- The second flush writes into the slot of the page that the view reads. -/
theorem stale_view_overwritten : ∃ c d d', (system anyCommand).Reached c d ∧
    d' ∈ (run (.call .flush)).during c d ∧ ¬ SlotsKept (.call .flush) c d d' := by
  let s := (system anyCommand).runAll overwriteView start (Disk.empty [])
  have hreach : (system anyCommand).Reached s.1 s.2 :=
    System.From.runAll (fun _ _ _ _ => trivial) (.base ⟨rfl, [], rfl⟩)
  have hfound : ((run (.call .flush)).during s.1 s.2).any (fun d' => s.1.stale.any fun v =>
      v.pmt.offsets.any fun o => decide (o ∈ d'.device.unsynced)) = true := by decide +kernel
  obtain ⟨d', hd', hany⟩ := any_eq_true.mp hfound
  obtain ⟨v, hv, hany⟩ := any_eq_true.mp hany
  obtain ⟨o, ho, hmem⟩ := any_eq_true.mp hany
  refine ⟨s.1, s.2, d', hreach, hd', fun hkept => ?_⟩
  exact (hkept.leases v (mem_append_right _ hv) o ho).unwritten (of_decide_eq_true hmem)

/-! ## Stamps -/

/-- The frame of generation `g` is durable. -/
def Published (g : GenerationId) (d : Disk) : Prop :=
  ∃ f ∈ d.frames.take d.durable, f.manifest.generationId = g

/-- The call does not flush behind a rewrite of the tree. -/
def setsStamp : Command → Prop
  | .call .gc => False
  | .call .vacuum => False
  | .call (.vacuumStep _) => False
  | _ => True

theorem stamping_of_setsStamp (h : setsStamp i) : i.stamping ≠ .none := by
  intro hn
  cases i with
  | call call =>
    cases call with
    | gc => exact h
    | vacuum => exact h
    | vacuumStep n => exact h
    | _ => cases hn
  | _ => cases hn

/-- **Stamps date the writes**: once the frame of `g` has been durable, every page that a command
writes is stamped later, apart from the pages of the newest table that compaction copies. -/
theorem writes_stamped_later {allowed : Command → Client → Disk → Prop} {g : GenerationId}
    (h : (system allowed).Since (fun _ d => Published g d) c d) {i : Command} (hi : setsStamp i) :
    ∀ d' ∈ (run i).during c d, ∀ o ∈ d'.device.unsynced,
      (∃ n, d'.device.page o = some n ∧ g < n.writeGeneration ∧
        ∀ g', Published g' d' → g' < n.writeGeneration) ∨
      ((∃ limit, i = .call (.compact limit)) ∧ Copied d' o) := by
  intro d' hd' o ho
  have hinv : Inv g c d := by
    refine inv_of_from ?_ h
    rintro c d ⟨hr, f, hf, hg⟩
    exact (inv_of_reached hr).remark (.inr ⟨f, hf, hg.ge⟩)
  have hdisk := (hinv.during i d' hd').1
  rcases hdisk.stamps (stamping_of_setsStamp hi) o ho with ⟨n, hpage, hpos,
    hlater⟩ | ⟨hcopy, hcopied⟩
  · refine .inl ⟨n, hpage, ?_, ?_⟩
    · rcases hdisk.marked with h0 | ⟨f, hf, hg⟩
      · have h0' : g = 0 := h0
        rw [h0']
        exact hpos
      · exact lt_of_le_of_lt hg (hlater f (mem_of_mem_take hf))
    · rintro g' ⟨f, hf, rfl⟩
      exact hlater f (mem_of_mem_take hf)
  · refine .inr ⟨?_, hcopied⟩
    cases i with
    | call call =>
      cases call with
      | compact limit => exact ⟨limit, rfl⟩
      | _ => cases hcopy
    | _ => cases hcopy

instance (g : GenerationId) (d : Disk) : Decidable (Published g d) := by
  unfold Published
  infer_instance

theorem writes_stamped_shared : Published 2 shared.2 ∧
    (∃ d' ∈ (run (.call .flush)).during shared.1 shared.2, d'.device.unsynced ≠ []) ∧
    ∀ d' ∈ (run (.call .flush)).during shared.1 shared.2, ∀ o ∈ d'.device.unsynced,
      (∃ n, d'.device.page o = some n ∧ 2 < n.writeGeneration ∧
        ∀ g', Published g' d' → g' < n.writeGeneration) ∨
      ((∃ limit, Command.call .flush = .call (.compact limit)) ∧ Copied d' o) := by
  obtain ⟨-, hpublished, -, -, hwrites⟩ := shared_facts
  exact ⟨hpublished, hwrites, writes_stamped_later (.base ⟨shared_reached, hpublished⟩) trivial⟩

/-- Two keys, one of them deleted again, and a flush. -/
def twoKeys : List Command := [.reopen Options.default, .call (.put [1] [1]), .call (.put [2] [1]),
  .call (.delete [1]), .call .flush]

def twoKeysState : Client × Disk := (system anyCommand).runAll twoKeys start (Disk.empty [])

theorem since_twoKeys {g : GenerationId} (h : Published g twoKeysState.2) :
    (system anyCommand).Since (fun _ d => Published g d) twoKeysState.1 twoKeysState.2 :=
  .base ⟨System.From.runAll (fun _ _ _ _ => trivial) (.base ⟨rfl, [], rfl⟩), h⟩


/-- Vacuum writes a page with the stamp of the generation before. -/
theorem vacuum_reuses_stamp : ∃ d' ∈ (run (.call .vacuum)).during twoKeysState.1 twoKeysState.2,
    ∃ o ∈ d'.device.unsynced, ∃ n, d'.device.page o = some n ∧ ¬ 1 < n.writeGeneration ∧
      (system anyCommand).Since (fun _ d => Published 1 d) twoKeysState.1 twoKeysState.2 := by
  have hfound : ((run (.call .vacuum)).during twoKeysState.1 twoKeysState.2).any (fun d' =>
      d'.device.unsynced.any fun o => (d'.device.page o).any fun n =>
        decide (¬ 1 < n.writeGeneration)) = true := by
    decide +kernel
  obtain ⟨d', hd', hany⟩ := any_eq_true.mp hfound
  obtain ⟨o, ho, hany⟩ := any_eq_true.mp hany
  obtain ⟨n, hn, hstamp⟩ := (Option.any_eq_true _ _).mp hany
  exact ⟨d', hd', o, ho, n, hn, of_decide_eq_true hstamp, since_twoKeys (by decide +kernel)⟩

/-! ## The end of the file -/

/-- The file is cut down to `after`, and the engine forgets the slots behind. -/
structure Trimmed (after : Nat) (w w' : World DB Disk) : Prop where
  handle : w'.handle = { w.handle with engine := { w.handle.engine with
    freeOffsets := w.handle.engine.freeOffsets.filter fun o => o + pageSize ≤ after
    nextOffset := after } }
  size : w'.disk.device.size = after
  pages : ∀ o, InFile after o → w'.disk.device.page o = w.disk.device.page o

/-- **Tail trimming.** -/
theorem tail_trimmed (h : (system anyCommand).Reached c d) (hopen : c.db ≠ noHandle)
    {before after : Nat} (hr : c.db.engine.reclaimableTailRange d.device = (before, after)) :
    before = d.device.size ∧
    IsLeast {n | ∀ o, InFile d.device.size o → ¬ InFile n o → o ∈ c.db.engine.freeOffsets} after ∧
    (∀ t, t = c.db.engine.pmt ∨ (∃ r ∈ c.db.retention.allRoots,
      DB.manifestPmt d r.manifest = .ok t) ∨ t ∈ c.db.leases → ∀ o ∈ t.offsets, InFile after o) ∧
    Runs (fun _ => True) DB.truncateReclaimableTail ⟨c.db, d, []⟩
      (fun _ => Trimmed after ⟨c.db, d, []⟩)
      (fun _ w' => c.db.engine.pendingReclaimedOffsets ≠ [] ∧ w' = ⟨c.db, d, []⟩) := by
  have hsafe := (inv_of_reached h).resolve_right fun hno => hopen hno.1
  obtain ⟨hslots, hbefore, htake, hleast⟩ := hsafe.steady.slots.truncate hr
  refine ⟨hbefore, hleast, ?_, ?_⟩
  · rintro t (rfl | ⟨r, hroot, ht⟩ | ht) o ho
    · exact hslots.mapped o ho
    · exact hslots.held_in o (hsafe.root_pinned hroot ht o ho)
    · exact hslots.held_in o (DB.mem_protectedOffsets.mpr (.inr ⟨t, ht, ho⟩))
  · refine .handle (.disk (.check (fun hp => ⟨of_decide_eq_false hp, rfl⟩) fun _ => ?_))
    dsimp only
    rw [hr]
    refine .runIf (fun _ => ?_) fun heq => ?_
    · refine .write trivial (.of_modifyHandle ⟨?_, rfl, fun o ho => if_pos ho.2⟩)
      rw [← htake]
    · obtain rfl : after = before := not_not.mp (of_decide_eq_false heq)
      rw [Nat.sub_self, Nat.zero_div, Nat.sub_zero, take_length] at htake
      refine ⟨?_, hbefore.symm, fun o _ => rfl⟩
      rw [← htake, hbefore, ← hsafe.steady.slots.frontier]

/-- One key is written three times; the last flush leaves the second of two slots free. -/
def rewrites : List Command := [.reopen Options.default, .call (.put [1] [1]), .call .flush,
  .call (.put [1] [2]), .call .flush, .call (.put [1] [3]), .call .flush]

def rewritten : Client × Disk := (system anyCommand).runAll rewrites start (Disk.empty [])

theorem tail_trimmed_rewritten : IsLeast {n | ∀ o, InFile (2 * pageSize) o → ¬ InFile n o →
    o ∈ rewritten.1.db.engine.freeOffsets} pageSize := by
  have hr : rewritten.1.db.engine.reclaimableTailRange rewritten.2.device =
    (2 * pageSize, pageSize) := by
    decide +kernel
  have hopen : rewritten.1.db.isOpen = true := by decide +kernel
  have hreach : (system anyCommand).Reached rewritten.1 rewritten.2 :=
    System.From.runAll (fun _ _ _ _ => trivial) (.base ⟨rfl, [], rfl⟩)
  obtain ⟨hsize, hleast, -⟩ := tail_trimmed hreach (fun hno => by rw [hno] at hopen; cases hopen) hr
  rwa [← hsize] at hleast

end Client

end SeerDb
