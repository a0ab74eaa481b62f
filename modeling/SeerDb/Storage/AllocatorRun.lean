/-
# `SeerDb.Storage.AllocatorRun` — page ids over whole runs of the allocator

`allocator.rs` with its set of allocated ids, which `free` consults and a reload forgets.
An id that was handed out stands below the frontier and outside the free list until it is
freed, so both survive a reload.  The frontier stays at `u64::MAX` once it is there: from
then on the last id is handed out again and again.
-/
import SeerDb.Storage.LogTables
import Mathlib.Data.Finset.Basic

namespace SeerDb

open List

/-! ## The allocator with its allocated set -/

structure TrackedAllocator extends PageAllocator where
  allocated : Finset Nat
deriving DecidableEq

namespace TrackedAllocator

def new : TrackedAllocator := ⟨.new, ∅⟩

def alloc (a : TrackedAllocator) : Nat × TrackedAllocator :=
  (a.toPageAllocator.alloc.1, ⟨a.toPageAllocator.alloc.2,
    insert a.toPageAllocator.alloc.1 a.allocated⟩)

def free (a : TrackedAllocator) (pageId : Nat) : Bool × TrackedAllocator :=
  if pageId ∈ a.allocated then
    (true, ⟨{ a.toPageAllocator with freeList := a.freeList ++ [pageId] },
      a.allocated.erase pageId⟩)
  else (false, a)

def advanceNextId (a : TrackedAllocator) (minimum : Nat) : TrackedAllocator :=
  ⟨a.toPageAllocator.advanceNextId minimum, a.allocated⟩

/-- `to_bytes` and then `from_bytes`. -/
def reload (a : TrackedAllocator) : Option TrackedAllocator :=
  (PageAllocator.fromBytes a.toBytes).map (⟨·, ∅⟩)

end TrackedAllocator

/-! ## Runs -/

inductive AllocatorOp where
  | alloc
  | free (pageId : Nat)
  | advanceNextId (minimum : UInt64)
  | reload
deriving DecidableEq

/-- An allocator and the ids it returned that were not freed since. -/
structure AllocatorRun where
  allocator : TrackedAllocator
  live : Finset Nat

namespace AllocatorRun

variable {r : AllocatorRun}

/-- A reload that is refused leaves the allocator in use. -/
def step (r : AllocatorRun) : AllocatorOp → AllocatorRun
  | .alloc => ⟨r.allocator.alloc.2, insert r.allocator.alloc.1 r.live⟩
  | .free pageId => ⟨(r.allocator.free pageId).2,
      if (r.allocator.free pageId).1 then r.live.erase pageId else r.live⟩
  | .advanceNextId minimum => ⟨r.allocator.advanceNextId minimum.toNat, r.live⟩
  | .reload => ⟨r.allocator.reload.getD r.allocator, r.live⟩

def run (ops : List AllocatorOp) : AllocatorRun := ops.foldl step ⟨.new, ∅⟩

/-- Below the frontier, or the last id of all behind an exhausted frontier. -/
def Below (id nextId : Nat) : Prop := id < nextId ∨ id = u64Max ∧ nextId = u64Max

theorem Below.mono {id nextId nextId' : Nat} (h : Below id nextId) (hle : nextId ≤ nextId')
    (hmax : nextId' ≤ u64Max) :
    Below id nextId' := by
  rw [Below] at *
  omega

structure Inv (r : AllocatorRun) : Prop where
  nextId : r.allocator.nextId ≤ u64Max
  live : ∀ id ∈ r.live, Below id r.allocator.nextId
  free : ∀ id ∈ r.allocator.freeList, Below id r.allocator.nextId ∧ id ∉ r.live
  nodup : r.allocator.freeList.Nodup
  allocated : r.allocator.allocated ⊆ r.live

/-- What an allocation takes: the last free id, or the frontier. -/
theorem alloc_cases (a : PageAllocator) :
    (∃ free, a.freeList = free ++ [a.alloc.1] ∧ a.alloc.2 = ⟨a.nextId, free⟩) ∨
    a.freeList = [] ∧ a.alloc.1 = a.nextId ∧ a.alloc.2 = ⟨min (a.nextId + 1) u64Max, []⟩ := by
  obtain hnil | ⟨free, id, hfree⟩ := eq_nil_or_concat a.freeList
  · simp [PageAllocator.alloc, hnil]
  · exact .inl ⟨free, by simp [PageAllocator.alloc, hfree]⟩

/-- While an id is left, the id that is taken is not live. -/
theorem Inv.fresh (h : r.Inv) (hleft : r.allocator.freeList ≠ [] ∨ r.allocator.nextId < u64Max) :
    r.allocator.alloc.1 ∉ r.live := by
  obtain ⟨free, hfree, -⟩ | ⟨hnil, hid, -⟩ := alloc_cases r.allocator.toPageAllocator
  · exact (h.free _ (hfree ▸ mem_concat_self)).2
  · intro hlive
    have hbelow := h.live _ hlive
    rw [TrackedAllocator.alloc, hid, Below] at hbelow
    have := hleft.resolve_left (not_not.mpr hnil)
    omega

theorem Inv.alloc (h : r.Inv) : (r.step .alloc).Inv := by
  have hmax := h.nextId
  rw [step, TrackedAllocator.alloc]
  obtain ⟨free, hfree, hrest⟩ | ⟨-, hid, hrest⟩ := alloc_cases r.allocator.toPageAllocator
  · have hnodup := h.nodup
    have hold := h.free
    rw [hfree] at hnodup hold
    obtain ⟨hlist, hone⟩ := nodup_append.mp hnodup |>.imp_right And.right
    rw [hrest]
    refine ⟨hmax, fun id hid => ?_, fun id hid => ⟨(hold id (by simp [hid])).1, ?_⟩, hlist,
      Finset.insert_subset_insert _ h.allocated⟩
    · rcases Finset.mem_insert.mp hid with rfl | hid
      · exact (hold _ (by simp)).1
      · exact h.live id hid
    · exact fun hmem => (Finset.mem_insert.mp hmem).elim (fun heq => hone id hid _ (by simp) heq)
        (hold id (by simp [hid])).2
  · rw [hrest, hid]
    refine ⟨min_le_right _ _, fun id hlive => ?_, by simp, nodup_nil,
      Finset.insert_subset_insert _ h.allocated⟩
    rcases Finset.mem_insert.mp hlive with rfl | hlive
    · simp only [Below]
      omega
    · exact (h.live id hlive).mono (show r.allocator.nextId ≤ min (r.allocator.nextId + 1)
        u64Max by omega) (min_le_right _ _)

theorem Inv.freed (h : r.Inv) (pageId : Nat) : (r.step (.free pageId)).Inv := by
  rw [step, TrackedAllocator.free]
  split
  · rename_i hmem
    have hlive := h.allocated hmem
    refine ⟨h.nextId, fun id hid => h.live id (Finset.mem_of_mem_erase hid), ?_, ?_,
      Finset.erase_subset_erase _ h.allocated⟩
    · exact Lib.forall_mem_concat (fun id hid => ⟨(h.free id hid).1,
        fun hm => (h.free id hid).2 (Finset.mem_of_mem_erase hm)⟩)
        ⟨h.live _ hlive, Finset.notMem_erase _ _⟩
    · exact nodup_append.mpr ⟨h.nodup, nodup_singleton _, fun id hid x hx heq =>
        (h.free id hid).2 (by rwa [heq, mem_singleton.mp hx])⟩
  · exact h

/-- What is read back is what was written. -/
theorem Inv.reloaded (h : r.Inv) : (r.step .reload).Inv := by
  rw [step]
  cases hload : r.allocator.reload with
  | none => exact h
  | some a =>
    obtain ⟨base, hbase, rfl⟩ := Option.map_eq_some_iff.mp hload
    have hsmall : ∀ {id}, id ≤ u64Max → id < 256 ^ 8 := fun hid => lt_of_le_of_lt hid (by decide)
    obtain rfl := PageAllocator.fromBytes_toBytes_eq (hsmall h.nextId) (fun id hid => hsmall
        (by have := (h.free id hid).1; have := h.nextId; rw [Below] at *; omega)) hbase
    exact { h with allocated := Finset.empty_subset _ }

theorem Inv.step (h : r.Inv) (op : AllocatorOp) : (r.step op).Inv := by
  cases op with
  | alloc => exact h.alloc
  | free pageId => exact h.freed pageId
  | advanceNextId minimum =>
    have hle : r.allocator.nextId ≤ max r.allocator.nextId minimum.toNat := le_max_left _ _
    have hmax : max r.allocator.nextId minimum.toNat ≤ u64Max :=
      max_le h.nextId (Nat.le_of_lt_succ minimum.toNat_lt)
    exact ⟨hmax, fun id hid => (h.live id hid).mono hle hmax,
      fun id hid => ⟨(h.free id hid).1.mono hle hmax, (h.free id hid).2⟩, h.nodup, h.allocated⟩
  | reload => exact h.reloaded

theorem run_inv (ops : List AllocatorOp) : (run ops).Inv := by
  rw [run]
  refine List.foldlRecOn ops AllocatorRun.step ?_ fun r h op _ => h.step op
  exact ⟨by decide, by simp, forall_mem_nil _, nodup_nil, Finset.empty_subset _⟩

/-- **Live ids are not handed out again** while an id is left, and the free list holds
distinct ids below the frontier, or the last id of all once the frontier is exhausted. -/
theorem run_alloc_fresh (ops : List AllocatorOp) :
    ((run ops).allocator.freeList ≠ [] ∨ (run ops).allocator.nextId < u64Max →
      (run ops).allocator.alloc.1 ∉ (run ops).live) ∧
    (run ops).allocator.freeList.Nodup ∧
    ∀ id ∈ (run ops).allocator.freeList, id < (run ops).allocator.nextId ∨
      id = u64Max ∧ (run ops).allocator.nextId = u64Max :=
  ⟨(run_inv ops).fresh, (run_inv ops).nodup, fun id hid => ((run_inv ops).free id hid).1⟩

/-- An exhausted frontier hands its id out twice, and takes it into the free list. -/
theorem exhausted_frontier_reissues :
    (run [.advanceNextId 18446744073709551615, .alloc]).allocator.alloc.1
      ∈ (run [.advanceNextId 18446744073709551615, .alloc]).live ∧
    18446744073709551615 ∈ (run [.advanceNextId 18446744073709551615, .alloc,
      .free 18446744073709551615]).allocator.freeList ∧
    (run [.advanceNextId 18446744073709551615, .alloc, .free 18446744073709551615]).allocator.nextId
      = 18446744073709551615 := by
  decide

end AllocatorRun

end SeerDb
