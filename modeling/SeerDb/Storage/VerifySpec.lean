/-
# `SeerDb.Storage.VerifySpec` — a verified tree reads correctly

The verifier visits every page of the mapping table once, under the bounds its
parent routes by.  So what it accepts is a tree (`Lib.LooseTree`): no page has two
parents, every key lies where a search for it looks.  It accepts leaves at
different depths, equal separators and, inside one leaf, equal keys; reads over such a
tree are right (`Storage.LazySpec`).
-/
import SeerDb.Storage.Verify
import SeerDb.Storage.LazySpec

namespace SeerDb

open Lib List

/-- The pages a mapping table leads to. -/
def pageStore (dev : Device) (pmt : PMT) : Store Bytes Value := fun p =>
  match readNodeFromPmt dev pmt p with
  | .ok n => some n.body
  | .error _ => none

/-- The entries of the leaves under `root`, in order.  No path is longer than the table. -/
def storedEntries (dev : Device) (pmt : PMT) (root : PageId) : List (Bytes × Value) :=
  entriesUnder (pageStore dev pmt) pmt.mappings.length root

section Store

variable {dev : Device} {pmt : PMT}

theorem pageStore_ok {p : PageId} {n : Node} (h : readNodeFromPmt dev pmt p = .ok n) :
    pageStore dev pmt p = some n.body := by
  rw [pageStore, h]

theorem reads_pageStore : Reads (readNodeFromPmt dev pmt) (pageStore dev pmt) where
  sound p m hm := pageStore_ok hm
  complete p b hb := by
    rw [pageStore] at hb
    split at hb
    · rename_i n hn
      exact ⟨n, hn, Option.some.inj hb⟩
    · cases hb

/-- Only mapped pages can be read. -/
theorem mapped_of_pageStore {p : PageId} (h : pageStore dev pmt p ≠ none) :
    p ∈ pmt.mappings.map Prod.fst := by
  by_contra hno
  apply h
  have hget : pmt.get p = none := lookup_eq_none_iff.mpr fun e he => by
    have hne : p ≠ e.1 := fun hpe => hno (hpe ▸ mem_map_of_mem he)
    simpa using hne
  simp [pageStore, readNodeFromPmt, hget]

end Store

namespace Verify

variable {pageId : PageId}

/-! ## What the verifier accepts -/

/-- A missing bound is the edge of the tree. -/
def lowerEdge : Option Bytes → WithBot Bytes
  | none => ⊥
  | some bound => bound

def upperEdge : Option Bytes → WithTop Bytes
  | none => ⊤
  | some bound => bound

variable {lower upper : Option Bytes}

theorem inRange_edges {key : Bytes}
    (h : ¬ (lower.any (fun bound => key < bound) || upper.any (fun bound => bound ≤ key)) = true) :
    InRange (lowerEdge lower) (upperEdge upper) key := by
  simp only [Bool.or_eq_true, not_or] at h
  constructor
  · cases lower with
    | none => exact bot_le
    | some bound => exact WithBot.coe_le_coe.mpr (by simpa using h.1)
  · cases upper with
    | none => exact WithTop.coe_lt_top key
    | some bound => exact WithTop.coe_lt_coe.mpr (by simpa using h.2)

theorem verifyKeys_ok {lower upper : Option Bytes} : ∀ {keys : List Bytes}
    {previous : Option Bytes}, verifyKeys pageId lower upper previous keys = .ok () →
    keys.Pairwise (· ≤ ·) ∧ (∀ key ∈ keys, InRange (lowerEdge lower) (upperEdge upper) key) ∧
      ∀ key ∈ keys, ∀ p, previous = some p → p ≤ key
  | [], _, _ => by simp
  | key :: rest, previous, h => by
    rw [verifyKeys] at h
    split at h
    · cases h
    rename_i hbounds
    split at h
    · cases h
    rename_i hprev
    obtain ⟨hpw, hin, hge⟩ := verifyKeys_ok h
    have hkey : ∀ p, previous = some p → p ≤ key := by
      intro p hp
      simpa [hp] using hprev
    refine ⟨pairwise_cons.mpr ⟨fun x hx => hge x hx key rfl, hpw⟩,
      forall_mem_cons.mpr ⟨inRange_edges hbounds, hin⟩,
      forall_mem_cons.mpr ⟨hkey, ?_⟩⟩
    intro x hx p hp
    exact (hkey p hp).trans (hge x hx key rfl)

/-- The children of an index page with their bounds, from left to right. -/
def edgesOf (lower upper : Option Bytes) :
    PageId → List (Bytes × PageId) → List (PageId × Option Bytes × Option Bytes)
  | l, [] => [(l, lower, upper)]
  | l, (s, c) :: cs => (l, lower, some s) :: edgesOf (some s) upper c cs

theorem boundedChildren_eq {n : Node} {l : Nat} {cs : List (Bytes × Nat)}
    (hb : n.body = .inner l cs) (lower upper : Option Bytes) :
    boundedChildren n lower upper = edgesOf lower upper l cs := by
  have hkeys : n.keys = cs.map Prod.fst := by simp [Node.keys, hb]
  rw [boundedChildren, Scan.children_eq hb, hkeys]
  clear hkeys hb
  induction cs generalizing lower l with
  | nil => rfl
  | cons e cs ih =>
    obtain ⟨s, c⟩ := e
    rw [edgesOf, ← ih]
    rfl

/-- What one visit establishes of the pages it passes. -/
structure Visits (P : WithBot Bytes → WithTop Bytes → Nat → Prop) (pages : Nat → List Nat)
    (visit : PageId → Option Bytes → Option Bytes → Progress → Except Error Progress) : Prop where
  holds : ∀ {c lower upper p p'}, visit c lower upper p = .ok p' →
    P (lowerEdge lower) (upperEdge upper) c
  visited : ∀ {c lower upper p p'}, visit c lower upper p = .ok p' →
    p'.visited = (pages c).reverse ++ p.visited
  nodup : ∀ {c lower upper p p'}, visit c lower upper p = .ok p' →
    p.visited.Nodup → p'.visited.Nodup

theorem verifyChildren_step {pmt : PMT} {pageId c : PageId}
    {visit : PageId → Option Bytes → Option Bytes → Progress → Except Error Progress}
    {rest : List (PageId × Option Bytes × Option Bytes)} {p p' : Progress}
    (h : verifyChildren pmt pageId visit ((c, lower, upper) :: rest) p = .ok p') :
    ∃ mid, visit c lower upper p = .ok mid ∧ verifyChildren pmt pageId visit rest mid = .ok p' := by
  rw [verifyChildren] at h
  split at h
  · cases h
  split at h
  · cases h
  split at h
  · cases h
  · rename_i mid hmid
    exact ⟨mid, hmid, h⟩

theorem verifyChildren_ok {P : WithBot Bytes → WithTop Bytes → Nat → Prop} {pages : Nat → List Nat}
    {visit : PageId → Option Bytes → Option Bytes → Progress → Except Error Progress}
    (hvisit : Visits P pages visit) {pmt : PMT} {upper : Option Bytes} :
    ∀ {cs : List (Bytes × Nat)} {lower : Option Bytes} {l : Nat} {p p' : Progress},
      verifyChildren pmt pageId visit (edgesOf lower upper l cs) p = .ok p' →
      cs.Pairwise (fun a b => a.1 ≤ b.1) →
      (∀ x ∈ cs, InRange (lowerEdge lower) (upperEdge upper) x.1) →
      Spread P (lowerEdge lower) (upperEdge upper) l cs ∧
        p'.visited = ((l :: cs.map Prod.snd).flatMap pages).reverse ++ p.visited ∧
        (p.visited.Nodup → p'.visited.Nodup)
  | [], lower, l, p, p', h, _, _ => by
    obtain ⟨mid, hmid, hrest⟩ := verifyChildren_step h
    cases hrest
    exact ⟨hvisit.holds hmid, by simpa using hvisit.visited hmid, hvisit.nodup hmid⟩
  | (s, c) :: cs, lower, l, p, p', h, hpw, hin => by
    obtain ⟨mid, hmid, hrest⟩ := verifyChildren_step h
    obtain ⟨hle, hpw⟩ := pairwise_cons.mp hpw
    have hs := hin (s, c) (.head _)
    -- to the right of `s` the range starts at `s`
    have hin' : ∀ x ∈ cs, InRange (lowerEdge (some s)) (upperEdge upper) x.1 := fun x hx =>
      ⟨WithBot.coe_le_coe.mpr (hle x hx), (hin x (.tail _ hx)).2⟩
    obtain ⟨hspread, hvis, hnd⟩ := verifyChildren_ok hvisit hrest hpw hin'
    refine ⟨⟨hs.1, hs.2.le, hvisit.holds hmid, hspread⟩, ?_, fun hn => hnd (hvisit.nodup hmid hn)⟩
    rw [hvis, hvisit.visited hmid]
    simp

section Node

variable {dev : Device} {pmt : PMT}

/-- One visit: the page is new, its keys are in order and in bounds, and it is a leaf
or its children are visited. -/
theorem verifyTreeNode_step {fuel : Nat}
    {p p' : Progress} (h : verifyTreeNode dev pmt (fuel + 1) pageId lower upper p = .ok p') :
    pageId ∉ p.visited ∧
      ((∃ es, pageStore dev pmt pageId = some (.leaf es) ∧ es.Pairwise (fun a b => a.1 ≤ b.1) ∧
          (∀ x ∈ es, InRange (lowerEdge lower) (upperEdge upper) x.1) ∧
          p'.visited = pageId :: p.visited) ∨
        ∃ l cs, pageStore dev pmt pageId = some (.inner l cs) ∧ cs.Pairwise (fun a b => a.1 ≤ b.1) ∧
          (∀ x ∈ cs, InRange (lowerEdge lower) (upperEdge upper) x.1) ∧
          verifyChildren pmt pageId (verifyTreeNode dev pmt fuel) (edgesOf lower upper l cs)
            { p with visited := pageId :: p.visited } = .ok p') := by
  rw [verifyTreeNode] at h
  split at h
  · cases h
  rename_i hnew
  refine ⟨hnew, ?_⟩
  split at h
  · cases h
  rename_i n hn
  split at h
  · cases h
  rename_i hkeys
  obtain ⟨hpw, hin, -⟩ := verifyKeys_ok hkeys
  have hstore := pageStore_ok hn
  cases hb : n.body with
  | leaf es =>
    rw [Node.keys_leaf hb] at hpw hin
    rw [Node.isLeaf_leaf hb, if_pos rfl] at h
    cases h
    refine .inl ⟨es, hb ▸ hstore, pairwise_map.mp hpw, ?_, rfl⟩
    exact fun x hx => hin x.1 (mem_map_of_mem hx)
  | inner l cs =>
    have hkeys : n.keys = cs.map Prod.fst := by simp [Node.keys, hb]
    rw [hkeys] at hpw hin
    rw [Node.isLeaf_inner hb, boundedChildren_eq hb] at h
    refine .inr ⟨l, cs, hb ▸ hstore, pairwise_map.mp hpw, ?_, by simpa using h⟩
    exact fun x hx => hin x.1 (mem_map_of_mem hx)

/-- A visit of a whole subtree. -/
theorem verifyTreeNode_visits : ∀ h, Visits (Bounded (pageStore dev pmt) h)
    (pagesOf (pageStore dev pmt) h) (verifyTreeNode dev pmt (h + 1))
  | 0 => by
    have hleaf : ∀ {c lower upper p p'}, verifyTreeNode dev pmt 1 c lower upper p = .ok p' →
        c ∉ p.visited ∧ ∃ es, pageStore dev pmt c = some (.leaf es) ∧
          es.Pairwise (fun a b => a.1 ≤ b.1) ∧
          (∀ x ∈ es, InRange (lowerEdge lower) (upperEdge upper) x.1) ∧
          p'.visited = c :: p.visited := by
      intro c lower upper p p' h
      obtain ⟨hnew, hleaf | ⟨l, cs, -, -, -, hch⟩⟩ := verifyTreeNode_step h
      · exact ⟨hnew, hleaf⟩
      -- no fuel is left for a child
      cases cs with
      | nil => cases (verifyChildren_step hch).choose_spec.1
      | cons e cs => cases (verifyChildren_step hch).choose_spec.1
    refine ⟨fun h => ?_, fun h => ?_, fun h hn => ?_⟩
    · obtain ⟨-, es, hp, hpw, hin, -⟩ := hleaf h
      exact ⟨es, hp, hpw, hin⟩
    · obtain ⟨-, es, -, -, -, hvis⟩ := hleaf h
      exact hvis
    · obtain ⟨hnew, es, -, -, -, hvis⟩ := hleaf h
      rw [hvis]
      exact nodup_cons.mpr ⟨hnew, hn⟩
  | h + 1 => by
    have ih := verifyTreeNode_visits h
    refine ⟨fun hv => ?_, fun hv => ?_, fun hv hn => ?_⟩
    · obtain ⟨-, ⟨es, hp, hpw, hin, -⟩ | ⟨l, cs, hp, hpw, hin, hch⟩⟩ := verifyTreeNode_step hv
      · exact .inl ⟨es, hp, hpw, hin⟩
      · exact .inr ⟨l, cs, hp, (verifyChildren_ok ih hch hpw hin).1⟩
    · obtain ⟨-, ⟨es, hp, -, -, hvis⟩ | ⟨l, cs, hp, hpw, hin, hch⟩⟩ := verifyTreeNode_step hv
      · rw [hvis, pagesOf, Store.refs, hp]
        rfl
      · rw [(verifyChildren_ok ih hch hpw hin).2.1, pagesOf, Store.refs, hp]
        simp [Page.refs]
    · obtain ⟨hnew, ⟨es, -, -, -, hvis⟩ | ⟨l, cs, hp, hpw, hin, hch⟩⟩ := verifyTreeNode_step hv
      · rw [hvis]
        exact nodup_cons.mpr ⟨hnew, hn⟩
      · exact (verifyChildren_ok ih hch hpw hin).2.2 (nodup_cons.mpr ⟨hnew, hn⟩)

end Node

end Verify

/-- What an accepted table holds: a tree of all its pages, with every key in bounds. -/
structure Verified (dev : Device) (pmt : PMT) (root : PageId) : Prop where
  nonempty : pmt.isEmpty = false
  contains : pmt.contains root = true
  narrow : ¬ root > u32Max
  legible : Legible (readNodeFromPmt dev pmt) (pageStore dev pmt) pmt.mappings.length root
    pmt.searchFuel

section Accepted

variable {dev : Device} {pmt : PMT} {root : PageId}

/-- The checks around the traversal, for a table that is not empty. -/
theorem verifyTreeAt_visited {pointers : List BlobPointer}
    (h : verifyTreeAt dev root pmt = .ok pointers) (hne : pmt.isEmpty = false) :
    ¬ root > u32Max ∧ pmt.contains root = true ∧ (∀ e ∈ pmt.mappings, e.1 ≤ u32Max) ∧
      ∃ p, Verify.verifyTreeNode dev pmt pmt.searchFuel root none none ⟨[], []⟩ = .ok p ∧
        p.visited.length = pmt.mappings.length := by
  rw [verifyTreeAt] at h
  split at h
  · cases h
  rename_i hroot
  rw [if_neg (by simp [hne])] at h
  split at h
  · cases h
  rename_i hcontains
  split at h
  · cases h
  rename_i hwide
  split at h
  · cases h
  rename_i p hp
  split at h
  · cases h
  · rename_i hcount
    exact ⟨hroot, by simpa using hcontains, by simpa using hwide, p, hp, by simpa using hcount⟩

theorem verified_of_ok {pointers : List BlobPointer} (h : verifyTreeAt dev root pmt = .ok pointers)
    (hne : pmt.isEmpty = false) : Verified dev pmt root := by
  obtain ⟨hroot, hcontains, hwide, p, hp, hcount⟩ := verifyTreeAt_visited h hne
  have hv := @Verify.verifyTreeNode_visits dev pmt pmt.mappings.length
  have hbounded : Bounded (pageStore dev pmt) pmt.mappings.length ⊥ ⊤ root := hv.holds hp
  have hvis := hv.visited hp
  have hnd := hv.nodup hp nodup_nil
  rw [append_nil] at hvis
  rw [hvis, nodup_reverse] at hnd
  rw [hvis, length_reverse] at hcount
  have hmapped : ∀ q ∈ pagesOf (pageStore dev pmt) pmt.mappings.length root,
      q ∈ pmt.mappings.map Prod.fst := fun q hq =>
    mapped_of_pageStore (hbounded.isTree.page_ne_none q hq)
  have hleaves := (leavesUnder_sublist_pagesOf (S := pageStore dev pmt)
    pmt.mappings.length root).length_le
  refine ⟨hne, hcontains, hroot, hbounded, ?_, (hleaves.trans hcount.le).trans (Nat.le_succ _)⟩
  refine ⟨reads_pageStore, hbounded.isTree, hnd, ?_, ?_, Nat.lt_succ_self _⟩
  · intro q hq
    obtain ⟨e, he, rfl⟩ := mem_map.mp (hmapped q hq)
    exact hwide e he
  · -- as many pages were visited as are mapped
    intro q hq
    have hperm := (subperm_of_subset hnd hmapped).perm_of_length_le (by simp [hcount])
    exact hperm.mem_iff.mpr (mapped_of_pageStore hq)

end Accepted

theorem storedEntries_ordered {dev : Device} {pmt : PMT} {root : PageId}
    (h : Verified dev pmt root) : (storedEntries dev pmt root).Pairwise fun a b => a.1 ≤ b.1 :=
  h.legible.bounded.entries.1

theorem sorted_of_nodup_keys {es : List (Bytes × Value)} (hpw : es.Pairwise fun a b => a.1 ≤ b.1)
    (hn : (es.map Prod.fst).Nodup) : Sorted es :=
  (hpw.and (pairwise_map.mp hn)).imp fun h => lt_of_le_of_ne h.1 h.2

/-- **A verified tree reads correctly.**  A lookup finds the first entry of its key in the
leaves, a scan shows in increasing key order the first entry of every key of its range,
unless that is a tombstone: all live entries, when no key is stored twice. -/
theorem verified_reads (dev : Device) (root : PageId) (pmt : PMT) (pointers : List BlobPointer)
    (h : verifyTreeAt dev root pmt = .ok pointers) :
    (∀ key, lookupAt dev root pmt key =
      .ok (BTree.reported (Lib.get key (storedEntries dev pmt root)))) ∧
    ∀ start end_, ∃ items, rangeAt dev root pmt start end_ = .ok items ∧ Sorted items ∧
      (∀ k r, (k, r) ∈ items ↔
        start ≤ k ∧ k < end_ ∧ Lazy.firstLive (storedEntries dev pmt root) k r) ∧
      (((storedEntries dev pmt root).map Prod.fst).Nodup →
        items = visible start end_ (storedEntries dev pmt root)) := by
  cases hne : pmt.isEmpty with
  | true =>
    -- an empty table is read without a page
    have hroot : root = 0 := by
      rw [verifyTreeAt] at h
      by_contra hroot
      simp only [hne, if_true, ne_eq, hroot, not_false_eq_true] at h
      split at h <;> cases h
    have hnil : storedEntries dev pmt root = [] := by
      have hm : pmt.mappings = [] := isEmpty_iff.mp hne
      have hnone : pageStore dev pmt root = none := by
        by_contra hsome
        simpa [hm] using mapped_of_pageStore hsome
      simp [storedEntries, hm, entriesUnder, leavesUnder, Store.entries, hnone]
    refine ⟨fun key => ?_, fun start end_ => ⟨[], ?_, sorted_nil, ?_, ?_⟩⟩
    · simp [lookupAt, historicalRoot, hne, hroot, hroot ▸ hnil, Lib.get, BTree.reported]
    · simp [rangeAt, historicalRoot, hne, hroot]
    · simp [hnil, Lazy.firstLive, Lib.get]
    · intro _
      rw [hnil]
      rfl
  | false =>
    have hv := verified_of_ok h hne
    have hord := storedEntries_ordered hv
    refine ⟨fun key => ?_, fun start end_ =>
      ⟨Lazy.scanned start end_ none (storedEntries dev pmt root), ?_,
        Lazy.scanned_sorted hord (by simp), ?_, ?_⟩⟩
    · rw [lookupAt, historicalRoot, if_neg (by simp [hne]), if_neg hv.narrow, if_pos hv.contains]
      exact hv.legible.lookup_eq key
    · rw [rangeAt, historicalRoot, if_neg (by simp [hne]), if_neg hv.narrow, if_pos hv.contains]
      exact hv.legible.range_eq start end_
    · intro k r
      rw [Lazy.mem_scanned hord (by simp)]
      simp
    · intro hn
      exact Lazy.scanned_eq_visible (sorted_of_nodup_keys hord hn) (by simp)

/-- Three pages in three slots, with parents recorded that are not theirs. -/
def unevenDevice : Device where
  page offset := if offset = 0 then some ⟨.inner 1 [([5], 2)], 2, 0⟩
    else if offset = pageSize then some ⟨.leaf [([1], .inline [7])], 2, 0⟩
    else some ⟨.leaf [([5], .tombstone), ([9], .inline [8])], 1, 0⟩
  size := 3 * pageSize
  unsynced := []

def unevenPmt : PMT :=
  ⟨[(0, ⟨0, 0, 1⟩), (1, ⟨0, pageSize, 2⟩), (2, ⟨0, 2 * pageSize, 3⟩)], 4⟩

theorem verified_reads_uneven : verifyTreeAt unevenDevice 0 unevenPmt = .ok [] ∧
    lookupAt unevenDevice 0 unevenPmt [9] = .ok (.found [8]) ∧
    ∃ items, rangeAt unevenDevice 0 unevenPmt [0] [9, 9] = .ok items ∧ Sorted items :=
  have hok : verifyTreeAt unevenDevice 0 unevenPmt = .ok [] := rfl
  have hreads := verified_reads unevenDevice 0 unevenPmt [] hok
  ⟨hok, hreads.1 [9], (hreads.2 [0] [9, 9]).choose, (hreads.2 [0] [9, 9]).choose_spec.1,
    (hreads.2 [0] [9, 9]).choose_spec.2.1⟩

/-- One leaf that stores a key twice, first as a tombstone. -/
def repeatedDevice : Device where
  page _ := some ⟨.leaf [([1], .tombstone), ([1], .inline [7])], 0, 0⟩
  size := pageSize
  unsynced := []

/-- The verifier accepts a leaf with a repeated key; a scan does not show its later,
live entry. -/
theorem repeated_key_hidden :
    verifyTreeAt repeatedDevice 0 ⟨[(0, ⟨0, 0, 1⟩)], 2⟩ = .ok [] ∧
    visible [1] [2] (storedEntries repeatedDevice ⟨[(0, ⟨0, 0, 1⟩)], 2⟩ 0) = [([1], .found [7])] ∧
    rangeAt repeatedDevice 0 ⟨[(0, ⟨0, 0, 1⟩)], 2⟩ [1] [2] = .ok [] := by
  refine ⟨rfl, by decide, rfl⟩

end SeerDb
