/-
# `SeerDb.Storage.Relocate` — moving pages down and cutting the file

`storage/reclamation.rs`, the part that compaction runs.  A plan pairs pages with
free slots below them; each page is copied to its target and the table follows.
What the table leads to stays the same, and the slots that are cut off are those at
the end of the file that are all free.
-/
import Mathlib.Order.Bounds.Defs
import SeerDb.Storage.Stored

namespace SeerDb

open Lib List

namespace StorageEngine

variable {e : StorageEngine} {dev : Device} {held out : List Nat}

/-! ## Plans -/

/-- The moves take pages from where they are to different free slots. -/
structure Plan (e : StorageEngine) (moves : List PageMove) : Prop where
  pages : (moves.map PageMove.pageId).Nodup
  mapped : ∀ m ∈ moves, e.pmt.get m.pageId = some m.mapping
  targets : (moves.map PageMove.target).Nodup
  free : ∀ m ∈ moves, m.target ∈ e.freeOffsets

theorem planMoves_sublists : ∀ (pages : List (PageId × PageMapping)) (free : List Nat),
    ((planMoves pages free).map fun m => (m.pageId, m.mapping)).Sublist pages ∧
      ((planMoves pages free).map PageMove.target).Sublist free
  | [], free => ⟨List.Sublist.refl _, nil_sublist _⟩
  | (pageId, mapping) :: pages, free => by
    have hdrop := dropWhile_sublist (fun o => decide (o ≥ mapping.offset)) (l := free)
    rw [planMoves]
    split
    · exact ⟨nil_sublist _, nil_sublist _⟩
    rename_i target rest heq
    rw [heq] at hdrop
    obtain ⟨h1, h2⟩ := planMoves_sublists pages rest
    exact ⟨h1.cons_cons _, (h2.cons_cons target).trans hdrop⟩

/-- What compaction plans is a plan, however much of it is carried out. -/
theorem SlotInv.plan {size : Nat} (h : SlotInv e size out held) (keep : List Nat) (n : Nat) :
    Plan e ((e.plannedMoves keep).take n) := by
  obtain ⟨h1, h2⟩ := planMoves_sublists (e.movablePages keep) (e.freeOffsets.insertionSort (· ≤ ·))
  have htake := take_sublist n (e.plannedMoves keep)
  have hpages := (htake.map fun m => (m.pageId, m.mapping)).trans h1
  have htargets := (htake.map PageMove.target).trans h2
  have hperm : (e.movablePages keep).Perm
      (e.pmt.mappings.filter fun entry => entry.2.offset ∉ keep) := perm_insertionSort _ _
  have hkeys : ((e.movablePages keep).map Prod.fst).Nodup := by
    refine (hperm.map Prod.fst).nodup_iff.mpr (List.Nodup.sublist ((filter_sublist).map _) ?_)
    exact pairwise_map.mpr (List.Pairwise.imp (fun hlt => hlt.ne) h.pmt.sorted)
  refine ⟨?_, ?_, ?_, ?_⟩
  · refine List.Nodup.sublist ?_ hkeys
    have := hpages.map Prod.fst
    rwa [map_map] at this
  · intro m hm
    have hmem := hpages.subset (mem_map_of_mem hm)
    have hin := mem_of_mem_filter (hperm.mem_iff.mp hmem)
    exact (get_eq_some_iff h.pmt.sorted).mpr hin
  · exact htargets.nodup ((perm_insertionSort _ _).nodup_iff.mpr h.nodup)
  · intro m hm
    exact (perm_insertionSort _ _).mem_iff.mp (htargets.subset (mem_map_of_mem hm))

/-! ## Copying -/

/-- One move, on the engine. -/
def moved (e : StorageEngine) (m : PageMove) : StorageEngine :=
  { e with
    pmt := e.pmt.insert m.pageId m.mapping.fileId m.target
    freeOffsets := e.freeOffsets.filter fun o => o ≠ m.target }

/-- The pages of the moves copied to their targets. -/
def copyPages (dev : Device) (copies : List (Nat × Node)) : Device :=
  copies.foldl (fun dev copy => dev.writePage copy.1 copy.2) dev

/-- From `e₀` and `dev₀`, some pages have been copied. -/
structure Moving (held : List Nat) (e₀ : StorageEngine) (dev₀ : Device) (e : StorageEngine)
    (dev : Device) (out : List Nat) : Prop where
  slots : SlotInv e dev.size out held
  stored_eq : ∀ q, stored dev e.pmt q = stored dev₀ e₀.pmt q
  domain : ∀ q, (e.pmt.get q).isSome ↔ (e₀.pmt.get q).isSome
  kept : ∀ o ∈ held, dev.page o = dev₀.page o
  size_eq : dev.size = dev₀.size

/-- **One page.** -/
theorem SlotInv.moved (h : SlotInv e dev.size out held) {m : PageMove} {n : Node}
    (hm : e.pmt.get m.pageId = some m.mapping) (hfree : m.target ∈ e.freeOffsets)
    (hn : stored dev e.pmt m.pageId = some n) :
    Moving held e dev (e.moved m) (dev.writePage m.target n) (m.mapping.offset :: out) := by
  obtain ⟨hmapped, hheld⟩ := h.free _ hfree
  have hin := h.free_in _ hfree
  have hfile : m.mapping.fileId = 0 := h.pmt.file hm
  have hsize : (dev.writePage m.target n).size = dev.size := max_eq_left hin.2
  have hplace := h.place (p := m.pageId) hin le_rfl h.aligned hmapped
    (fun o ho he => h.free_retired o ho (he ▸ hfree))
    (fun o ho => ⟨mem_of_mem_filter ho, by simpa using (mem_filter.mp ho).2⟩)
    (h.sorted.filter fun o => o ≠ m.target)
  rw [hm] at hplace
  have hpmt : (e.moved m).pmt = e.pmt.insert m.pageId 0 m.target := by
    rw [StorageEngine.moved, hfile]
  refine ⟨?_, fun q => ?_, fun q => ?_, fun o ho => ?_, hsize⟩
  · rw [hsize]
    exact hplace.congr hpmt h.frontier rfl rfl rfl
  · rw [hpmt, stored_placed h.pmt h.mapped hmapped hin.1]
    split
    · rename_i hq
      rw [hq, hn]
    · rfl
  · rw [hpmt, h.pmt.get_insert]
    split
    · rename_i hq
      rw [hq, hm]
      simp
    · rfl
  · have hne : o ≠ m.target := fun he => hheld (he ▸ ho)
    simp [Device.writePage, hne]

/-- The table and the free list after a list of moves. -/
def afterMoves (e : StorageEngine) (moves : List PageMove) : StorageEngine := moves.foldl moved e

theorem afterMoves_eq : ∀ (moves : List PageMove) (e : StorageEngine), e.afterMoves moves = { e with
    pmt := moves.foldl (fun pmt move => pmt.insert move.pageId move.mapping.fileId move.target)
      e.pmt
    freeOffsets := e.freeOffsets.filter fun o => o ∉ moves.map PageMove.target }
  | [], e => by simp [afterMoves]
  | m :: moves, e => by
    have ih := afterMoves_eq moves (e.moved m)
    rw [afterMoves] at ih ⊢
    rw [foldl_cons, ih]
    simp only [moved, filter_filter, foldl_cons, map_cons, mem_cons, not_or]
    congr 2
    funext o
    rw [Bool.and_comm]
    simp

/-- **All moves of a plan.** -/
theorem Plan.moving : ∀ (moves : List PageMove) {e : StorageEngine} {dev : Device} {out : List Nat}
    {nodes : List Node}, Plan e moves → SlotInv e dev.size out held →
    List.Forall₂ (fun m n => stored dev e.pmt m.pageId = some n) moves nodes →
    ∃ out', Moving held e dev (e.afterMoves moves)
      (copyPages dev ((moves.map PageMove.target).zip nodes)) out' ∧
      (∀ m ∈ moves, m.mapping.offset ∈ out') ∧ ∀ o ∈ out, o ∈ out'
  | [], e, dev, out, _, _, h, .nil =>
    ⟨out, ⟨h, fun _ => rfl, fun _ => Iff.rfl, fun _ _ => rfl, rfl⟩, by simp, fun _ ho => ho⟩
  | m :: moves, e, dev, out, n :: nodes, hp, h, .cons hn hns => by
    obtain ⟨hpage, hpages⟩ := nodup_cons.mp hp.pages
    obtain ⟨htarget, htargets⟩ := nodup_cons.mp hp.targets
    have hm := hp.mapped m (.head _)
    have hstep := h.moved hm (hp.free m (.head _)) hn
    have hget : ∀ m' ∈ moves, (e.moved m).pmt.get m'.pageId = some m'.mapping := by
      intro m' hm'
      have hne : m'.pageId ≠ m.pageId := fun he => hpage (he ▸ mem_map_of_mem hm')
      show (e.pmt.insert m.pageId m.mapping.fileId m.target).get m'.pageId = _
      rw [h.pmt.file hm, h.pmt.get_insert, if_neg hne, hp.mapped m' (.tail _ hm')]
    have hplan : Plan (e.moved m) moves := by
      refine ⟨hpages, hget, htargets, fun m' hm' => mem_filter.mpr ⟨hp.free m' (.tail _ hm'), ?_⟩⟩
      have hne : m'.target ≠ m.target := fun he => htarget (he ▸ mem_map_of_mem hm')
      simpa using hne
    obtain ⟨out', hmv, hmem, hout⟩ := Plan.moving moves hplan hstep.slots
      (hns.imp fun m' n' hn' => (hstep.stored_eq m'.pageId).trans hn')
    refine ⟨out', ⟨hmv.slots, fun q => (hmv.stored_eq q).trans (hstep.stored_eq q),
      fun q => (hmv.domain q).trans (hstep.domain q),
      fun o ho => (hmv.kept o ho).trans (hstep.kept o ho), hmv.size_eq.trans hstep.size_eq⟩, ?_,
      fun o ho => hout o (.tail _ ho)⟩
    intro m' hm'
    rcases mem_cons.mp hm' with rfl | hm'
    · exact hout _ (.head _)
    · exact hmem m' hm'

/-- The engine and the file once every page of the plan is durable at its target. -/
theorem Plan.relocated {moves : List PageMove} {nodes : List Node} (hp : Plan e moves)
    (h : SlotInv e dev.size [] held)
    (hn : List.Forall₂ (fun m n => stored dev e.pmt m.pageId = some n) moves nodes) :
    Moving held e dev (e.relocated moves)
      (copyPages dev ((moves.map PageMove.target).zip nodes)).sync [] := by
  obtain ⟨out, hmv, hmem, -⟩ := hp.moving moves h hn
  have heq : e.relocated moves = { e.afterMoves moves with
      pendingReclaimedOffsets := moves.map fun move => move.mapping.offset } := by
    rw [afterMoves_eq, StorageEngine.relocated]
  have hout : ∀ o ∈ moves.map (fun move => move.mapping.offset), o ∈ out := by simpa using hmem
  have hslots := hmv.slots.retire hout
  rw [heq]
  exact ⟨hslots, hmv.stored_eq, hmv.domain, hmv.kept, hmv.size_eq⟩

/-! ## Cutting the tail -/

/-- What is trimmed off the end of the list are exactly the slots between the two ends, and the
slot before them is not free. -/
theorem trimTail_spec : ∀ {free : List Nat} {size : Nat}, pageSize ∣ size → free.Pairwise (· > ·) →
    (∀ o ∈ free, InFile size o) →
    ∃ tail rest, free = tail ++ rest ∧ trimTail free size + tail.length * pageSize = size ∧
      (∀ o, o ∈ tail ↔ InFile size o ∧ ¬ InFile (trimTail free size) o) ∧
      ∀ o ∈ free, o + pageSize ≠ trimTail free size
  | [], size, _, _, _ => ⟨[], [], rfl, by simp [trimTail], by simp [trimTail], by simp⟩
  | x :: free, size, ha, hs, hin => by
    obtain ⟨hgt, hs⟩ := pairwise_cons.mp hs
    have hx := (hin x (.head _)).2
    rw [trimTail]
    split
    · rename_i hlast
      obtain ⟨hsize, hlast⟩ := hlast
      have hbelow : ∀ o ∈ free, InFile (size - pageSize) o := fun o ho => not_not.mp fun hn =>
        (hgt o ho).ne' (hlast.trans ((hin o (.tail _ ho)).eq_last ha hn).symm)
      obtain ⟨tail, rest, rfl, hlen, hmem, hstop⟩ :=
        trimTail_spec (Nat.dvd_sub ha (Nat.dvd_refl _)) hs hbelow
      have hpos := pageSize_pos
      have hxout : ¬ x + pageSize ≤ trimTail (tail ++ rest) (size - pageSize) := by omega
      refine ⟨x :: tail, rest, rfl, ?_, fun o => ⟨fun ho => ?_, fun ho => ?_⟩, fun o ho => ?_⟩
      · rw [length_cons, Nat.succ_mul]
        omega
      · rcases mem_cons.mp ho with rfl | ho
        · exact ⟨hin o (.head _), fun hm => hxout hm.2⟩
        · exact ⟨((hmem o).mp ho).1.mono (Nat.sub_le _ _), ((hmem o).mp ho).2⟩
      · by_cases hlow : InFile (size - pageSize) o
        · exact .tail _ ((hmem o).mpr ⟨hlow, ho.2⟩)
        · exact mem_cons.mpr (.inl ((ho.1.eq_last ha hlow).trans hlast.symm))
      · rcases mem_cons.mp ho with rfl | ho
        · exact fun he => hxout he.le
        · exact hstop o ho
    · rename_i hlast
      refine ⟨[], x :: free, rfl, by simp, by simp, fun o ho he => hlast ?_⟩
      rcases mem_cons.mp ho with rfl | ho
      · omega
      · have := hgt o ho
        omega

/-- **Truncation**: what is cut off are free slots, as many as there are at the end. -/
theorem SlotInv.truncate (h : SlotInv e dev.size [] held) {before after : Nat}
    (hr : e.reclaimableTailRange dev = (before, after)) :
    SlotInv { e with
      freeOffsets := e.freeOffsets.take (e.freeOffsets.length - (before - after) / pageSize)
      nextOffset := after } after [] held ∧ before = dev.size ∧
      e.freeOffsets.take (e.freeOffsets.length - (before - after) / pageSize) =
        e.freeOffsets.filter (fun o => o + pageSize ≤ after) ∧
      IsLeast {n | ∀ o, InFile dev.size o → ¬ InFile n o → o ∈ e.freeOffsets} after := by
  rw [reclaimableTailRange] at hr
  cases hr
  obtain ⟨tail, rest, hsplit, hlen, hmem, hstop⟩ := trimTail_spec h.aligned
    (pairwise_reverse.mpr h.sorted) fun o ho => h.free_in o (mem_reverse.mp ho)
  generalize trimTail e.freeOffsets.reverse dev.size = after at hlen hmem hstop ⊢
  have hcount : (dev.size - after) / pageSize = tail.length := by
    rw [← hlen, Nat.add_sub_cancel_left, Nat.mul_div_cancel _ pageSize_pos]
  have halign : pageSize ∣ after := by
    have : after = dev.size - tail.length * pageSize := by omega
    rw [this]
    exact Nat.dvd_sub h.aligned (Nat.dvd_mul_left _ _)
  have hfree : e.freeOffsets = rest.reverse ++ tail.reverse := by
    rw [← reverse_append, ← hsplit, reverse_reverse]
  have hrev : tail.length = tail.reverse.length := length_reverse.symm
  have htake : e.freeOffsets.take (e.freeOffsets.length - (dev.size - after) / pageSize) =
    rest.reverse := by
    rw [hcount, hrev, hfree, length_append, Nat.add_sub_cancel]
    exact take_left
  have hin : ∀ o, InFile dev.size o → o ∉ tail → InFile after o := fun o ho hn =>
    not_not.mp fun hc => hn ((hmem o).mpr ⟨ho, hc⟩)
  have htail : ∀ {o}, o ∈ tail → o ∈ e.freeOffsets := fun ho => by simp [hfree, ho]
  have hrest : ∀ {o}, o ∈ rest.reverse → o ∈ e.freeOffsets := fun ho => by
    rw [hfree]
    exact mem_append_left _ ho
  have hnd := h.nodup
  rw [hfree, nodup_append] at hnd
  have hkept : ∀ o ∈ rest.reverse, InFile after o := fun o ho =>
    hin o (h.free_in o (hrest ho)) fun ht => hnd.2.2 o ho o (mem_reverse.mpr ht) rfl
  rw [htake]
  refine ⟨⟨h.pmt, rfl, halign, ?_, hkept, ?_, ?_, ?_, fun o ho => h.free o (hrest ho),
    ?_, h.retired⟩, rfl, ?_, fun o ho hn => htail ((hmem o).mpr ⟨ho, hn⟩), fun n hn => ?_⟩
  · exact fun o ho => hin o (h.mapped o ho) fun ht => (h.free o (htail ht)).1 ho
  · exact fun o ho => hin o (h.retired_in o ho) fun ht => h.free_retired o ho (htail ht)
  · exact fun o ho => hin o (h.held_in o ho) fun ht => (h.free o (htail ht)).2 ho
  · exact h.sorted.sublist (hfree ▸ sublist_append_left _ _)
  · exact fun o ho hm => h.free_retired o ho (hrest hm)
  · rw [hfree, filter_append, filter_eq_self.mpr fun o ho => by simpa using (hkept o ho).2,
      filter_eq_nil_iff.mpr, append_nil]
    intro o ho
    have hout := (hmem o).mp (mem_reverse.mp ho)
    simpa using fun hle => hout.2 ⟨hout.1.1, hle⟩
  -- were it shorter, the slot before the cut would be free
  · by_contra hlt
    have hle := Nat.le_of_dvd (by omega) halign
    have hlast : InFile dev.size (after - pageSize) :=
      ⟨Nat.dvd_sub halign (Nat.dvd_refl _), by omega⟩
    refine hstop (after - pageSize) (mem_reverse.mpr (hn _ hlast fun hm => ?_)) (by omega)
    have := hm.2
    omega

end StorageEngine

end SeerDb
