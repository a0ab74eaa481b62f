/-
# `SeerDb.Db.EveryRun` — what a crash leaves, and what views and transactions read

A crash at any write leaves a log whose last frame is the authority of the next open, with
its table and all pages of it.  What a view of a whole blob image reads does not change
while it is open; segment files are extended in place, and nothing is said of views of them.
-/
import Mathlib.Data.List.Induction
import SeerDb.Db.Leases
import SeerDb.Db.WalCheck

namespace SeerDb

open Lib List

variable {d d' d'' : Disk}

/-- What a crash owes the next open. -/
structure Restored (d d' : Disk) : Prop where
  frames : ∃ k, d.durable ≤ k ∧ d'.frames = d.frames.take k
  selected : ∀ parsed, d'.parsedMetaLog = some parsed →
    parsed.selectAuthorityManifest = .ok (d'.frames.getLast?.map MetaLogFrame.manifest)
  pages : ∀ f, d'.frames.getLast? = some f → ∃ t, DB.manifestPmt d' f.manifest = .ok t ∧
    ∀ o ∈ t.offsets, InFile d'.device.size o ∧ d'.device.page o = d.device.page o

/-- The manifest of the last frame selects the newest table. -/
theorem Newest.manifestPmt {ms : List (PageId × PageMapping)} {f : MetaLogFrame}
    (h : Newest d.frames ms) (hlog : LogWF d.frames) (hdurable : d.durable = d.frames.length)
    (hf : d.frames.getLast? = some f) :
    ∃ t, DB.manifestPmt d f.manifest = .ok t ∧ t.mappings = ms := by
  have hid := (hlog.named f (mem_of_getLast? hf)).2
  by_cases h0 : f.checkpointId = 0
  · exact ⟨PMT.new, Selects.manifestPmt (.inl ⟨hid.trans h0, rfl⟩) hlog,
      (h.of_bootstrap hlog hf h0).symm⟩
  rcases h with ⟨hnil, -⟩ | ⟨f', t, a, n, hf', hr, hms⟩
  · rw [hnil] at hf
    cases hf
  · rw [hf] at hf'
    cases hf'
    refine ⟨t, Selects.manifestPmt (.inr ⟨hid ▸ h0, a, n, ?_⟩) hlog, hms⟩
    rw [hdurable, take_length, hid]
    exact hr

/-- A view of a whole image reads the pages of its table and nothing else that changes. -/
theorem ReadView.reads_congr {v : ReadView} {files : List BlobFile} (hb : v.blobs = .image files)
    (hn : readNodeFromPmt d'.device v.pmt = readNodeFromPmt d.device v.pmt) :
    v.get d' = v.get d ∧ v.range d' = v.range d := by
  have hvalue : v.value d' = v.value d := by
    funext result
    cases result with
    | blob pointer => simp only [ReadView.value, BlobReadView.read, BlobReadView.records, hb]
    | _ => rfl
  refine ⟨?_, ?_⟩
  · funext key
    rw [ReadView.get, ReadView.get, lookupAt_congr hn, hvalue]
  · funext start end_
    simp only [ReadView.range, rangeAt_congr hn, v.values_congr hvalue]

namespace Client

variable {c c₀ : Client} {d₀ : Disk} {v : ReadView} {i : Command} {mark : GenerationId}

/-! ## After a crash -/

/-- **A crash leaves a complete tree**, whatever ran before and at whatever write it comes. -/
theorem crash_restored (h : (system anyCommand).Reached c d) (i : Command)
    (hd' : d' ∈ (run i).during c d) (hc : Disk.Crash d' d'') : Restored d' d'' := by
  have hdisk := ((inv_of_reached h).during i d' hd').1
  have hlog := (hdisk.crash hc).log
  obtain ⟨k, hk, hk', hframes, hdurable⟩ := hc.frames
  refine ⟨⟨k, hk, hframes⟩, fun ⟨frames, complete⟩ hp => ?_, fun f hf => ?_⟩
  · obtain rfl : frames = d''.frames := Disk.parsedMetaLog_frames hp
    exact hlog.selectAuthorityManifest complete
  · -- the table of the last frame is anchored, wherever the log is cut
    obtain ⟨t, hnew, -, hin⟩ := hdisk.anchored k hk hk'
    rw [← hframes] at hnew
    obtain ⟨t', ht', hms⟩ := hnew.manifestPmt hlog hdurable hf
    refine ⟨t', ht', fun o ho => ?_⟩
    rw [PMT.offsets_congr hms] at ho
    obtain ⟨⟨haligned, hsize⟩, hsynced⟩ := hin o ho
    exact ⟨⟨haligned, hc.device.extent o hsynced hsize⟩, hc.device.kept o hsynced hsize⟩

/-- The crash cuts the WAL behind the seventh byte of its fifth record. -/
theorem crash_restored_torn : ∃ d', Disk.Crash shared.2 d' ∧
    (shared.2.frames.length = 3 ∧ shared.1.db.engine.pmt.mappings ≠ []) ∧ Restored shared.2 d' := by
  have hcut : shared.2.wal.any fun wal => wal.synced ≤ 4 ∧ 4 ≤ wal.records.length ∧
      7 ≤ LogFile.bytes WalRecord.size (wal.records.drop 4) + wal.torn := by decide +kernel
  obtain ⟨wal, hwal, hcut⟩ := (Option.any_eq_true _ _).mp hcut
  obtain ⟨hsynced, hlen, hsize⟩ := of_decide_eq_true hcut
  have hcrash := Disk.Crash.of_wal hwal ⟨4, 7, hsynced, hlen, hsize, rfl⟩ (by decide +kernel)
    (by decide +kernel) (by decide +kernel) (by decide +kernel)
  refine ⟨_, hcrash, (shared_facts).1, ?_⟩
  exact crash_restored (reached_any shared_reached) (.call .flush) (.head _) hcrash

/-! ## Between calls -/

/-- What a handle has in common with its disk. -/
structure InStep (db : DB) (d : Disk) : Prop where
  durable : d.durable = d.frames.length
  latest : ∀ f, d.frames.getLast? = some f → db.manifestHistory.latest = some f.manifest ∧
    ∃ t, DB.manifestPmt d f.manifest = .ok t ∧ t.mappings = db.engine.pmt.mappings
  next : ∀ f ∈ d.frames, f.checkpointId < db.nextGenerationId
  settled : db.engine.pendingReclaimedOffsets = [] ∧ db.engine.rebuildReservedOffsets = []

/-- **The newest frame has the table of the handle**, as long as the handle may be written
through. -/
theorem handle_inStep (h : (system anyCommand).Reached c d) (hopen : c.db.isOpen = true)
    (hfence : c.db.writeFenced = false) : InStep c.db d := by
  rcases inv_of_reached h with hs | ⟨hno, -, -⟩
  · have hsound := hs.sound hfence
    obtain ⟨m, hm, hparent⟩ := hsound.latest
    refine ⟨hs.steady.durable, fun f hf => ?_, hsound.next, hsound.pending, hsound.reserved⟩
    rcases hparent with ⟨hnil, -⟩ | ⟨f', hf', rfl⟩
    · rw [show d.frames = [] from hnil] at hf
      cases hf
    · obtain rfl : f' = f := Option.some.inj (hf'.symm.trans hf)
      exact ⟨hm, hsound.newest.manifestPmt hsound.disk.log hs.steady.durable hf⟩
  · rw [hno] at hopen
    cases hopen

theorem handle_inStep_shared : (shared.2.frames.length = 3 ∧ shared.1.db.engine.pmt.mappings ≠ []) ∧
    InStep shared.1.db shared.2 :=
  ⟨(shared_facts).1, handle_inStep (reached_any shared_reached) (by decide +kernel)
    (by decide +kernel)⟩

/-! ## A fenced handle -/

/-- The files that hold the database. -/
def files (d : Disk) := (d.data, d.metaLog, d.wal, d.blob, d.blobBackup, d.blobDelta, d.segments)

theorem run_fenced (hi : ∀ options, i ≠ .reopen options) (hf : c.db.writeFenced = true) :
    RunsTo (fun d' => files d' = files d) (run i) ⟨c, d, []⟩
      (fun w => w.handle.db.writeFenced = true ∧ files w.disk = files d) := by
  by_cases hdrops : i.drops = true
  · have hpins : Pinning DB.writeFenced files :=
      ⟨fun _ _ => rfl, fun _ _ => rfl, fun _ _ => rfl, fun _ _ => rfl⟩
    refine (run_drops_keeps hpins (fun _ _ => rfl) hdrops).both (fun _ hd => hd) fun w hw => ?_
    exact ⟨hw.1.trans hf, hw.2⟩
  cases i with
  | call call =>
    refine onDb_runs ((run_refused call (fun _ => hf) fun id he => ?_).both
      (fun _ hd => hd) fun w hw => ?_)
    · rw [he] at hdrops
      exact hdrops rfl
    · rw [hw]
      exact ⟨hf, rfl⟩
  | beginReadView => exact beginReadView_refused (fun _ => hf) fun _ => ⟨hf, rfl⟩
  | reopen options => exact absurd rfl (hi options)
  | _ => exact absurd rfl hdrops

/-- **A fenced handle stays fenced and writes nothing** until the database is opened again. -/
theorem fenced_frozen (is : List Command) (i : Command) (hf : c.db.writeFenced = true)
    (his : ∀ j ∈ i :: is, ∀ options, j ≠ .reopen options) :
    let s := (system anyCommand).runAll is c d
    s.1.db.writeFenced = true ∧ ∀ d' ∈ (run i).during s.1 s.2, files d' = files d := by
  induction is generalizing c d with
  | nil => exact ⟨hf, (run_fenced (his i (.head _)) hf).during rfl⟩
  | cons j is ih =>
    obtain ⟨hf', hd'⟩ := (run_fenced (d := d) (his j (by simp)) hf).final
    obtain ⟨hlast, hduring⟩ := ih hf' fun k hk => his k (by grind)
    exact ⟨hlast, fun d' hmem => (hduring d' hmem).trans hd'⟩

/-- The file system refuses the last bytes of a vacuum. -/
def fenced : Client × Disk :=
  (system anyCommand).runAll [.reopen Options.default, .call (.commitBatch [.put [1] [1]]),
    .call .vacuum] start (Disk.empty (List.replicate 7 true ++ [false]))

theorem fenced_frozen_close : fenced.1.db.writeFenced = true ∧
    ∀ d' ∈ (run (.call .close)).during fenced.1 fenced.2, files d' = files fenced.2 := by
  have hclose : ∀ c d, c.db.writeFenced = true → c.db.writeFenced = true ∧
      ∀ d' ∈ (run (.call .close)).during c d, files d' = files d := by
    intro c d hf
    refine fenced_frozen [] (.call .close) hf fun j hj _ he => ?_
    rw [mem_singleton.mp hj] at he
    cases he
  exact hclose _ _ (by decide +kernel)

/-! ## While a view is open -/

/-- The command is run while the view is open, and leaves the handle of the view. -/
def holdsView (v : ReadView) (i : Command) (c : Client) (_ : Disk) : Prop :=
  v ∈ c.views ∧ ∀ options, i ≠ .reopen options

theorem Inv.view_placed (h : Inv mark c d) (hv : v ∈ c.views) :
    Kept v.pmt.offsets d.device d.device ∧
    ∀ i, holdsView v i c d → ∀ o ∈ v.pmt.offsets, o ∈ pins c d i := by
  rcases h with hs | ⟨-, hviews, -⟩
  · refine ⟨fun o ho => ⟨hs.steady.slots.held_in o (hs.view_pinned hv o ho), ?_, rfl⟩,
      fun i hi o ho => ?_⟩
    · rw [hs.steady.synced]
      exact not_mem_nil
    · cases i with
      | reopen options => exact absurd rfl (hi.2 options)
      | _ => exact hs.view_pinned hv o ho
  · rw [hviews] at hv
    cases hv

/-- **An open view reads what it read at first**, at every write of every command. -/
theorem view_stable {files : List BlobFile} (h₀ : (system anyCommand).Reached c₀ d₀)
    (hv : v ∈ c₀.views) (hb : v.blobs = .image files)
    (h : (system (holdsView v)).From (fun c d => c = c₀ ∧ d = d₀) c d)
    (hi : holdsView v i c d) (hd' : d' ∈ (run i).during c d) :
    v.get d' = v.get d₀ ∧ v.range d' = v.range d₀ := by
  have hinv : ∀ {c d}, (system (holdsView v)).From (fun c d => c = c₀ ∧ d = d₀) c d →
    Inv 0 c d := by
    refine inv_of_from ?_
    rintro _ _ ⟨rfl, rfl⟩
    exact inv_of_reached h₀
  have hstep : ∀ {c d d' i}, Inv 0 c d → holdsView v i c d → Kept v.pmt.offsets d₀.device d.device →
      Held (keeping 0 c d i) d' → Kept v.pmt.offsets d₀.device d'.device := by
    intro c d d' i h hi hk hheld o ho
    obtain ⟨hin, hsynced, hpage⟩ := hheld.1 o ((h.view_placed hi.1).2 i hi o ho)
    exact ⟨hin, hsynced, hpage.trans (hk o ho).2.2⟩
  have hfirst := ((inv_of_reached h₀).view_placed hv).1
  have hkept : v ∈ c.views → Kept v.pmt.offsets d₀.device d.device := by
    clear hi hd'
    induction h with
    | base hbase =>
      obtain ⟨rfl, rfl⟩ := hbase
      exact fun _ => hfirst
    | call i hfrom hi ih =>
      exact fun _ => hstep (hinv hfrom) hi (ih hi.1) (run_inv i (hinv hfrom)).final.held
    | crash =>
      intro hv
      cases hv
  have hlast := hstep (hinv h) hi (hkept hi.1) ((hinv h).during i d' hd').2
  refine ReadView.reads_congr hb (readNodeFromPmt_congr fun o ho => ?_)
  exact ⟨(hfirst o ho).1, (hlast o ho).1, (hlast o ho).2.2⟩

/-- A view is open, and the key that it reads has been written again. -/
def viewed : Client × Disk := (system anyCommand).runAll
  [.reopen Options.default, .call (.put [1] [1]), .call .flush, .beginReadView,
    .call (.put [1] [2])] start (Disk.empty [])

theorem view_stable_viewed : ∃ v ∈ viewed.1.views,
    ∀ d' ∈ (run (.call .flush)).during viewed.1 viewed.2,
    v.get d' = v.get viewed.2 ∧ v.range d' = v.range viewed.2 := by
  have hblobs : viewed.1.views.map ReadView.blobs = [.image []] := by decide +kernel
  obtain ⟨v, hv, hb⟩ : ∃ v ∈ viewed.1.views, v.blobs = .image [] := by
    refine mem_map.mp ?_
    rw [hblobs]
    exact .head _
  have hreach : (system anyCommand).Reached viewed.1 viewed.2 :=
    System.From.runAll (fun _ _ _ _ => trivial) (.base ⟨rfl, [], rfl⟩)
  exact ⟨v, hv, fun d' => view_stable hreach hv hb (.base ⟨rfl, rfl⟩) ⟨hv, fun _ h => by cases h⟩⟩

end Client

/-! ## Transactions -/

namespace Transaction

variable {t : Transaction} {db : DB} {start end_ : Bytes} {base values : List (Bytes × Bytes)}

theorem staged_concat (ms : List Mutation) (m : Mutation) (key : Bytes) :
    staged (ms ++ [m]) key = if m.key = key then some m else staged ms key := by
  rw [staged, reverse_append]
  by_cases h : m.key = key <;> simp [h, staged]

theorem overlay_step (hs : Sorted values) (m : Mutation) : Sorted (overlay start end_ values m) ∧
    ∀ key, m.key ≠ key → Lib.get key (overlay start end_ values m) = Lib.get key values := by
  cases m <;> rw [overlay] <;> split
  · exact ⟨sorted_upsert hs, fun _ hne => (get_upsert hs _ _ _).trans (if_neg hne.symm)⟩
  · exact ⟨hs, fun _ _ => rfl⟩
  · exact ⟨sorted_erase hs, fun _ hne => (get_erase _ _ _).trans (if_neg hne.symm)⟩
  · exact ⟨hs, fun _ _ => rfl⟩

/-- **A transaction reads its own writes**: the search for the newest mutation of a key and the
replay of all mutations over a scan give one answer. -/
theorem range_agrees (hbase : db.rangeAt d t.snapshotId start end_ = .ok base)
    (hr : t.range db d start end_ = .ok values) : Sorted values ∧ ∀ key, start ≤ key → key < end_ →
      db.getAt d t.snapshotId key = .ok (Lib.get key (collect base)) →
        t.get db d key = .ok (Lib.get key values) := by
  rw [range, hbase] at hr
  rcases hactive : t.checkActive with e | _ <;> rw [hactive] at hr <;> cases hr
  simp only [get, hactive]
  induction t.mutations using List.reverseRecOn with
  | nil => exact ⟨sorted_collect base, fun _ _ _ hkey => hkey⟩
  | append_singleton ms m ih =>
    obtain ⟨hsorted, hget⟩ := ih
    obtain ⟨hstep, hother⟩ := @overlay_step start end_ _ hsorted m
    rw [foldl_concat]
    refine ⟨hstep, fun key hlo hhi hkey => ?_⟩
    rw [staged_concat]
    -- the last mutation decides its own key and no other
    by_cases h : m.key = key
    · subst h
      cases m <;> simp only [Mutation.key] at hlo hhi <;>
        simp [overlay, Mutation.key, hlo, hhi, get_upsert hsorted, get_erase]
    · rw [if_neg h, hother key h]
      exact hget key hlo hhi hkey

/-- A transaction that has staged two mutations of each key, and a process that has its root. -/
def staging : Transaction :=
  ⟨1, u64Max, true, [.delete [1], .put [2] [5], .put [1] [9], .put [2] [6]], .active⟩

def pinned : Client × Disk := (Client.system Client.anyCommand).runAll
  [.reopen Options.default, .call (.put [1] [1]), .call .beginBatchTransaction] Client.start
  (Disk.empty [])

theorem range_agrees_staging : staging.get pinned.1.db pinned.2 [1] = .ok (some [9]) := by
  have hbase : pinned.1.db.rangeAt pinned.2 u64Max [0] [9] = .ok [([1], [1])] := by decide +kernel
  have hrange : staging.range pinned.1.db pinned.2 [0] [9] = .ok [([1], [9]), ([2], [6])] := by
    decide +kernel
  exact (range_agrees hbase hrange).2 [1] (by decide) (by decide) (by decide +kernel)

end Transaction

end SeerDb
