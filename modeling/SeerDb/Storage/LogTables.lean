/-
# `SeerDb.Storage.LogTables` — the mapping tables that frames are written for

A table that the engine changes by writing pages (`PMT::insert`) and by rebuilding from
nothing (`PMT::clear`) has the version frontier that a reader rebuilds from its mappings.
So a checkpoint gives back the table itself and not only its mappings, and so does a delta
over an earlier table of the same engine.
-/
import SeerDb.Storage.LogCodecSpec
import SeerDb.Storage.LogWriter

namespace SeerDb

open Lib List

/-! ## Version frontiers -/

section

variable {α : Type*} {f : α → Nat}

theorem foldl_max_le {b : Nat} : ∀ {l : List α} {a : Nat},
    l.foldl (fun n x => max n (f x)) a ≤ b ↔ a ≤ b ∧ ∀ x ∈ l, f x ≤ b := by
  intro l
  induction l with
  | nil => simp
  | cons x l ih =>
    intro a
    rw [foldl_cons, ih, Nat.max_le, forall_mem_cons, and_assoc]

theorem le_foldl_max (f : α → Nat) (a : Nat) {l : List α} {x : α} (hx : x ∈ l) :
    f x ≤ l.foldl (fun n x => max n (f x)) a :=
  (foldl_max_le.mp (Nat.le_refl _)).2 x hx

theorem foldl_max_attained : ∀ {l : List α} {a : Nat}, l.foldl (fun n x => max n (f x)) a = a ∨
    ∃ x ∈ l, f x = l.foldl (fun n x => max n (f x)) a := by
  intro l
  induction l with
  | nil => simp
  | cons x l ih =>
    intro a
    rw [foldl_cons]
    rcases ih (a := max a (f x)) with h | ⟨y, hy, h⟩
    · rcases Nat.le_total (f x) a with hm | hm
      · exact .inl (h.trans (Nat.max_eq_left hm))
      · exact .inr ⟨x, .head _, (h.trans (Nat.max_eq_right hm)).symm⟩
    · exact .inr ⟨y, .tail _ hy, h⟩

end

/-- What holds of every table of an engine. -/
structure PMT.Sound (t : PMT) : Prop where
  sorted : Sorted t.mappings
  frontier : (PMT.ofMappings t.mappings).nextVersion = t.nextVersion
  fits : ∀ e ∈ t.mappings, e.1 < 256 ^ 8 ∧ e.2.fileId < 256 ^ 4 ∧ e.2.offset < 256 ^ 8
  bound : t.nextVersion ≤ u64Max

/-- The ids and mappings of a table fit the format. -/
structure PMT.Fits (t : PMT) : Prop where
  sorted : Sorted t.mappings
  mappings : ∀ e ∈ t.mappings, e.1 < 256 ^ 8 ∧ e.2.Fits

namespace PMT

variable {t parent pmt : PMT} {pageId fileId offset : Nat}

theorem Sound.version_lt (h : t.Sound) {e : PageId × PageMapping} (he : e ∈ t.mappings) :
    e.2.version < t.nextVersion :=
  (foldl_max_le.mp h.frontier.le).2 e he

theorem Sound.attained (h : t.Sound) : t.nextVersion = 1 ∨
    ∃ e ∈ t.mappings, e.2.version + 1 = t.nextVersion := by
  rw [← h.frontier]
  exact foldl_max_attained

theorem Sound.one_le (h : t.Sound) : 1 ≤ t.nextVersion := (foldl_max_le.mp h.frontier.le).1

theorem Sound.mappingFits (h : t.Sound) : ∀ e ∈ t.mappings, e.1 < 256 ^ 8 ∧ e.2.Fits := by
  intro e he
  obtain ⟨hid, hfile, hoffset⟩ := h.fits e he
  exact ⟨hid, hfile, hoffset, (h.version_lt he).trans_le h.bound⟩

theorem Sound.tableFits (h : t.Sound) : t.Fits := ⟨h.sorted, h.mappingFits⟩

theorem Sound.ofMappings_eq (h : t.Sound) : PMT.ofMappings t.mappings = t := by
  have hfrontier := h.frontier
  obtain ⟨mappings, nextVersion⟩ := t
  simp only [PMT.ofMappings, PMT.mk.injEq, true_and] at hfrontier ⊢
  exact hfrontier

theorem sound_new : PMT.new.Sound := ⟨List.Pairwise.nil, rfl, forall_mem_nil _, by decide⟩

/-- A page is mapped in a table whose versions are below its frontier. -/
theorem sound_insert (hs : Sorted t.mappings) (hlt : ∀ e ∈ t.mappings, e.2.version < t.nextVersion)
    (hfits : ∀ e ∈ t.mappings, e.1 < 256 ^ 8 ∧ e.2.fileId < 256 ^ 4 ∧ e.2.offset < 256 ^ 8)
    (hp : pageId < 256 ^ 8) (hf : fileId < 256 ^ 4) (ho : offset < 256 ^ 8)
    (hn : t.nextVersion < u64Max) :
    (t.insert pageId fileId offset).Sound := by
  have hmem := fun x => mem_upsert (k := pageId)
    (v := (⟨fileId, offset, t.nextVersion⟩ : PageMapping)) hs (x := x)
  refine ⟨sorted_upsert hs, ?_, ?_, hn⟩
  · apply le_antisymm
    · refine foldl_max_le.mpr ⟨Nat.le_add_left _ _, fun e he => ?_⟩
      rcases (hmem e).mp he with rfl | ⟨he, -⟩
      · exact le_rfl
      · exact Nat.succ_le_succ (hlt e he).le
    · exact le_foldl_max (fun e : PageId × PageMapping => e.2.version + 1) 1
        (self_mem_upsert pageId ⟨fileId, offset, t.nextVersion⟩ t.mappings)
  · intro e he
    rcases (hmem e).mp he with rfl | ⟨he, -⟩
    · exact ⟨hp, hf, ho⟩
    · exact hfits e he

theorem Sound.insert (h : t.Sound) (hp : pageId < 256 ^ 8) (hf : fileId < 256 ^ 4)
    (ho : offset < 256 ^ 8) (hn : t.nextVersion < u64Max) : (t.insert pageId fileId offset).Sound :=
  sound_insert h.sorted (fun _ he => h.version_lt he) h.fits hp hf ho hn

theorem sound_clear_insert (hp : pageId < 256 ^ 8) (hf : fileId < 256 ^ 4) (ho : offset < 256 ^ 8)
    (hn : t.nextVersion < u64Max) : (t.clear.insert pageId fileId offset).Sound :=
  sound_insert List.Pairwise.nil (forall_mem_nil _) (forall_mem_nil _) hp hf ho hn

/-! ## Deltas -/

theorem removeAll_nextVersion : ∀ {ids : List PageId} {t t' : PMT}, removeAll ids t = .ok t' →
    t'.nextVersion = t.nextVersion := by
  intro ids
  induction ids with
  | nil =>
    rintro t t' ⟨⟩
    rfl
  | cons id ids ih =>
    intro t t' h
    rw [removeAll] at h
    split at h
    · exact ih (t := t.remove id) h
    · cases h

theorem foldl_insertPersisted_nextVersion : ∀ (us : List (PageId × PageMapping)) (t : PMT),
    (us.foldl (fun t u => t.insertPersisted u.1 u.2) t).nextVersion =
      us.foldl (fun n u => max n (u.2.version + 1)) t.nextVersion := by
  intro us
  induction us with
  | nil => exact fun t => rfl
  | cons u us ih => exact fun t => ih _

/-- **A delta gives back the table it was written for.** -/
theorem Sound.apply_encodeDelta (hparent : parent.Sound) (hpmt : pmt.Sound)
    (hle : parent.nextVersion ≤ pmt.nextVersion) (id : Nat) (a : PageAllocator) :
    (encodeDelta id parent pmt a).apply parent = .ok pmt := by
  obtain ⟨t, happ, hmappings⟩ := SeerDb.apply_encodeDelta hparent.sorted hpmt.sorted id a
  have hversion : t.nextVersion =
      (encodeDelta id parent pmt a).updates.foldl (fun n u => max n (u.2.version + 1))
      parent.nextVersion := by
    rw [MetaDelta.apply] at happ
    cases hr : removeAll (encodeDelta id parent pmt a).removals parent with
    | error e =>
      rw [hr] at happ
      cases happ
    | ok t₀ =>
      rw [hr] at happ
      cases happ
      rw [foldl_insertPersisted_nextVersion, removeAll_nextVersion hr]
  have hnext : t.nextVersion = pmt.nextVersion := by
    rw [hversion]
    apply le_antisymm
    · exact foldl_max_le.mpr ⟨hle, fun u hu => hpmt.version_lt (mem_filter.mp hu).1⟩
    · rcases hle.eq_or_lt with heq | hlt
      · rw [← heq]
        exact (foldl_max_le.mp le_rfl).1
      -- the newest mapping is newer than every mapping of the parent, so it is an update
      rcases hpmt.attained with h1 | ⟨e, he, hv⟩
      · have := hparent.one_le
        omega
      have hnew : parent.get e.1 ≠ some e.2 := by
        intro hget
        have hold : e.2.version < parent.nextVersion := hparent.version_lt (mem_of_get hget)
        omega
      have hupdate : e ∈ (encodeDelta id parent pmt a).updates :=
        mem_filter.mpr ⟨he, by simpa using hnew⟩
      rw [← hv]
      exact le_foldl_max (fun u : PageId × PageMapping => u.2.version + 1)
        parent.nextVersion hupdate
  rw [happ]
  cases t
  cases pmt
  cases hmappings
  cases hnext
  rfl

theorem Fits.encodeDelta (hparent : parent.Fits) (hpmt : pmt.Fits) {id : Nat} (hid : id < 256 ^ 8)
    {a : PageAllocator} (ha : a.Fits) : (encodeDelta id parent pmt a).Fits := by
  refine ⟨hid, ⟨hpmt.sorted.sublist filter_sublist, fun u hu => ?_⟩, ⟨?_, fun i hi => ?_⟩, ?_, ha⟩
  · exact hpmt.mappings u (mem_filter.mp hu).1
  · exact pairwise_map.mpr (hparent.sorted.sublist filter_sublist)
  · obtain ⟨e, he, rfl⟩ := mem_map.mp hi
    exact (hparent.mappings e (mem_filter.mp he).1).1
  · intro u hu hr
    obtain ⟨e, he, heq⟩ := mem_map.mp hr
    have hnone : pmt.contains e.1 = false := by simpa using (mem_filter.mp he).2
    have hsome : pmt.get u.1 = some u.2 := (get_eq_some_iff hpmt.sorted).mpr (mem_filter.mp hu).1
    rw [heq, PMT.contains, hsome] at hnone
    cases hnone

end PMT

/-! ## Allocators -/

namespace PageAllocator

variable {a : PageAllocator}

theorem fits_new : PageAllocator.new.Fits := ⟨by decide, by decide, by simp [new], by simp [new]⟩

theorem Fits.alloc (h : a.Fits) : a.alloc.2.Fits := by
  rw [PageAllocator.alloc]
  split
  · exact ⟨h.pos, h.nextId, fun id hid => h.free id (dropLast_subset _ hid),
      h.nodup.sublist (dropLast_sublist _)⟩
  rename_i hnone
  have hnil : a.freeList = [] := List.getLast?_eq_none_iff.mp hnone
  have hpos : u64Max ≠ 0 := by decide
  have hmin : min (a.nextId + 1) u64Max < 256 ^ 8 := lt_of_le_of_lt (min_le_right _ _) (by decide)
  refine ⟨?_, hmin, by simp [hnil], by simp [hnil]⟩
  show min (a.nextId + 1) u64Max ≠ 0
  omega

theorem Fits.advanceNextId (h : a.Fits) {minimum : Nat} (hm : minimum < 256 ^ 8) :
    (a.advanceNextId minimum).Fits := by
  have hle : a.nextId ≤ max a.nextId minimum := le_max_left _ _
  have hpos := h.pos
  refine ⟨?_, max_lt h.nextId hm, fun id hid => ⟨(h.free id hid).1, (h.free id hid).2.trans_le hle⟩,
    h.nodup⟩
  show max a.nextId minimum ≠ 0
  omega

/-- `with_next_id`. -/
def withNextId (nextId : Nat) : PageAllocator := ⟨nextId, []⟩

end PageAllocator

/-! ## What is read back -/

theorem MetaLogEntry.encode_eq_ok {e : MetaLogEntry} {bytes : Bytes} :
    e.encode = .ok bytes ↔ e.checkLengths = .ok () ∧ bytes = e.bytes := by
  rw [encode]
  cases e.checkLengths with
  | error err => simp [Except.map]
  | ok u => simp [Except.map, eq_comm]

/-- Table and allocator come back from an encoded delta over any parent, and from an encoded
checkpoint, exactly for the allocators that the decoder admits. -/
theorem entries_invert {parent child : PMT} {id : Nat} (hparent : parent.Fits) (hchild : child.Fits)
    (hid : id < 256 ^ 8) (a : PageAllocator) :
    (∀ bytes, (MetaLogEntry.delta (encodeDelta id parent child a)).encode = .ok bytes →
      ((∃ d pmt, decodeDelta bytes = .ok (.delta d) ∧ d.apply parent = .ok pmt ∧
        pmt.mappings = child.mappings ∧ d.allocator = a) ↔ a.Fits)) ∧
    ∀ bytes, (MetaLogEntry.checkpoint child.mappings a).encode = .ok bytes →
      (decodeCheckpoint bytes = .ok (.checkpoint child.mappings a) ↔ a.Fits) := by
  constructor
  · intro bytes hbytes
    obtain ⟨hlengths, rfl⟩ := MetaLogEntry.encode_eq_ok.mp hbytes
    constructor
    · rintro ⟨d, pmt, hdecode, -, -, rfl⟩
      exact decodeDelta_fits hdecode
    · intro ha
      obtain ⟨pmt, happly, hmappings⟩ := apply_encodeDelta hparent.sorted hchild.sorted id a
      obtain ⟨hu, hr, hla⟩ := MetaLogEntry.checkLengths_delta.mp hlengths
      exact ⟨_, pmt, decodeDelta_deltaBytes (hparent.encodeDelta hchild hid ha) hu hr hla,
        happly, hmappings, rfl⟩
  · intro bytes hbytes
    obtain ⟨hlengths, rfl⟩ := MetaLogEntry.encode_eq_ok.mp hbytes
    constructor
    · exact decodeCheckpoint_fits
    · intro ha
      obtain ⟨hlt, hla⟩ := MetaLogEntry.checkLengths_checkpoint.mp hlengths
      exact decodeCheckpoint_checkpointBytes hchild.sorted hchild.mappings ha hlt hla

/-- One page moved, one removed, one new; the allocator of a new database. -/
theorem entries_invert_three :
    let parent : PMT := ⟨[(0, ⟨0, 0, 1⟩), (1, ⟨0, 4096, 2⟩)], 3⟩
    let child : PMT := ⟨[(0, ⟨0, 8192, 3⟩), (2, ⟨0, 4096, 4⟩)], 5⟩
    parent.Fits ∧ child.Fits ∧ ∃ d pmt, decodeDelta (deltaBytes (encodeDelta 1 parent child .new)) =
      .ok (.delta d) ∧ d.apply parent = .ok pmt ∧ pmt.mappings = child.mappings ∧
        d.allocator = .new := by
  intro parent child
  have hfits : ∀ t : PMT, Sorted t.mappings → (t.mappings.all fun e =>
      e.1 < 256 ^ 8 ∧ e.2.fileId < 256 ^ 4 ∧ e.2.offset < 256 ^ 8 ∧ e.2.version < u64Max) =
        true → t.Fits := by
    intro t hs hall
    refine ⟨hs, fun e he => ?_⟩
    obtain ⟨hid, hfile, hoffset, hversion⟩ := of_decide_eq_true (all_eq_true.mp hall e he)
    exact ⟨hid, hfile, hoffset, hversion⟩
  have hparent : parent.Fits := hfits parent (by simp [parent, Sorted]) (by decide)
  have hchild : child.Fits := hfits child (by simp [child, Sorted]) (by decide)
  have hinvert := (entries_invert hparent hchild (show 1 < 256 ^ 8 by decide) .new).1
    (deltaBytes (encodeDelta 1 parent child .new)) (by decide +kernel)
  exact ⟨hparent, hchild, hinvert.mpr PageAllocator.fits_new⟩

/-- An allocator whose frontier is page 0 is written, and its entry is refused. -/
theorem entries_refused :
    let a := PageAllocator.withNextId 0
    (MetaLogEntry.delta (encodeDelta 1 .new .new a)).encode =
      .ok (deltaBytes (encodeDelta 1 .new .new a)) ∧
      decodeDelta (deltaBytes (encodeDelta 1 .new .new a)) =
        .error (.corruption "metadata delta allocator is invalid") ∧
      (MetaLogEntry.checkpoint [] a).encode = .ok (checkpointBytes [] a) ∧
      decodeCheckpoint (checkpointBytes [] a) = .error (.corruption "invalid allocator data") := by
  decide +kernel

end SeerDb
