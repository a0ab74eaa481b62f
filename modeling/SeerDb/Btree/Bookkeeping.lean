/-
# `SeerDb.Btree.Bookkeeping` — which page ids a tree uses

A split takes page ids from the allocator before the insertion into the parent is
known to succeed, and its failure paths put back saved copies of different parts
of the tree.  Whatever happened, no page is lost and none is shared: the loaded
pages, the pages the root reaches and the ids the allocator has handed out are the
same, each page but the root hangs in exactly one slot of one parent, and the
leaves are all equally deep.
-/
import SeerDb.Btree.OrderedMap

namespace SeerDb

open Lib

namespace BTree

/-- Page `p` has page `q` for a child. -/
def Parent (t : BTree) (p q : PageId) : Prop := ∃ m, t.node p = some m ∧ q ∈ m.children

/-- Page `p` is `d` edges below the root. -/
inductive Reaches (t : BTree) : Nat → PageId → Prop where
  | root : Reaches t 0 t.root
  | child {d : Nat} {p q : PageId} : Reaches t d p → t.Parent p q → Reaches t (d + 1) q

structure Bookkept (t : BTree) : Prop where
  loaded : ∀ p, t.node p ≠ none ↔ p < t.pageAllocator.nextId
  reached : ∀ p, (∃ d, t.Reaches d p) ↔ p < t.pageAllocator.nextId
  free : t.pageAllocator.freeList = []
  orphan : ∀ p, ¬ t.Parent p t.root
  parent : ∀ q < t.pageAllocator.nextId, q ≠ t.root → ∃! p, t.Parent p q
  slot : ∀ p m, t.node p = some m → m.children.Nodup
  level : ∃ h, ∀ d p m, t.Reaches d p → t.node p = some m → m.isLeaf → d = h

section

variable {t : BTree} {T : Lib.Tree Bytes Value} {m : OrderedMap}

theorem parent_iff (ht : Tracks (fun _ => none) True t T.store T.next T.root) {p q : Nat} :
    t.Parent p q ↔ q ∈ T.store.refs p := by
  constructor
  · rintro ⟨m, hm, hq⟩
    rwa [ht.sim.refs hm]
  · intro hq
    cases hp : T.store p with
    | none => simp [Store.refs, hp] at hq
    | some b =>
      obtain ⟨m, hm, -⟩ := ht.sim.node_of_full (ht.full_of trivial) hp
      exact ⟨m, hm, by rwa [← ht.sim.refs hm]⟩

theorem reaches_iff (ht : Tracks (fun _ => none) True t T.store T.next T.root) {d p : Nat} :
    t.Reaches d p ↔ AtDepth T.store T.root d p := by
  constructor
  · intro h
    induction h with
    | root => rw [ht.root_eq]; exact .root
    | child _ hc ih => exact ih.child ((parent_iff ht).mp hc)
  · intro h
    induction h with
    | root => rw [← ht.root_eq]; exact .root
    | child _ hc ih => exact ih.child ((parent_iff ht).mpr hc)

/-- A fully loaded tree that stands for a page tree is bookkept. -/
theorem bookkept_of_tracks (hT : T.Holds Node.layout m)
    (ht : Tracks (fun _ => none) True t T.store T.next T.root) : Bookkept t := by
  obtain ⟨ps, hrep, hn, hmem, -⟩ := hT.pages
  obtain ⟨q, hq, hrefs⟩ := hrep.refs_perm
  have hnode : ∀ p, t.node p ≠ none ↔ p < T.next := by
    intro p
    constructor
    · intro h
      obtain ⟨x, hx⟩ := Option.ne_none_iff_exists'.mp h
      exact ht.sim.lt hx
    · intro h
      exact ht.full_of trivial p (hT.live h)
  -- a page with children is one of the tree's
  have hparent : ∀ {p c}, t.Parent p c → p ∈ ps := by
    rintro p c ⟨x, hx, -⟩
    exact hmem.mpr (ht.sim.lt hx)
  constructor
  case loaded => rw [ht.sim.next]; exact hnode
  case free => exact ht.sim.free
  case reached =>
    intro p
    rw [ht.sim.next, ← hmem]
    constructor
    · rintro ⟨d, hd⟩
      obtain ⟨_, _, _, _, ps', -, hr, hsub⟩ := ((reaches_iff ht).mp hd).rep hrep
      exact hsub hr.root_mem
    · intro hp
      rw [hrep.pages_eq] at hp
      obtain ⟨d, hd⟩ := (AtDepth.root (S := T.store)).of_pagesOf hp
      exact ⟨d, (reaches_iff ht).mpr hd⟩
  case orphan =>
    intro p hp
    rw [ht.root_eq] at hp
    exact (hrep.ref_mem hn (hparent hp) ((parent_iff ht).mp hp)).2 rfl
  case parent =>
    intro c hc hne
    rw [ht.sim.next, ← hmem, hq] at hc
    rw [ht.root_eq] at hne
    obtain ⟨p, hp, hcp⟩ := List.mem_flatMap.mp
      (hrefs.mem_iff.mpr ((List.mem_cons.mp hc).resolve_left hne))
    refine ⟨p, (parent_iff ht).mpr hcp, ?_⟩
    intro p' hp'
    exact hrep.parent_unique hn (hparent hp') hp ((parent_iff ht).mp hp') hcp
  case slot =>
    intro p x hx
    rw [← ht.sim.refs hx]
    exact refs_nodup_of_perm hq hrefs hn (hmem.mpr (ht.sim.lt hx))
  case level =>
    refine ⟨T.height, ?_⟩
    intro d p x hd hx hleaf
    obtain ⟨j, _, _, _, _, hj, hr, -⟩ := ((reaches_iff ht).mp hd).rep hrep
    cases j with
    | zero => omega
    | succ j =>
      obtain ⟨l, cs, _, hinner, -⟩ := hr
      rw [ht.sim.body hx, Option.some.injEq] at hinner
      simp [Node.isLeaf, hinner] at hleaf

end

/-- **No page is lost or shared.** After any sequence of calls, failed ones included, a
tree is bookkept. -/
theorem session_bookkept (calls : List Call) : Bookkept (session calls).1 := by
  obtain ⟨T, hT, ht⟩ := session_state calls
  exact bookkept_of_tracks hT ht

end BTree

end SeerDb
