/-
# `SeerDb.Btree.Refine` — the loaded pages as a page tree

A tree in memory may have only some of its pages loaded.  `view t bg` is the logical
page map: a loaded page, else the one behind it in storage.  `Sim bg t S n` relates it
to a page store of `SeerDb.Lib.BPlusTree`: the page bodies agree, ids are handed out
from `n` on, a recorded parent is an internal page, and a page that is not dirty is the
page behind.  Parent hints may be stale and are not part of the store.
-/
import SeerDb.Btree.NodeSpec
import SeerDb.Btree.Tree
import SeerDb.Lib.TreePath

namespace SeerDb

open Lib List

namespace BTree

variable {bg : Nat → Option Node} {t t' : BTree} {S : Store Bytes Value} {n : Nat} {p id : Nat}
  {m old : Node} {b : Page Bytes Value}

/-! ## The node vector -/

theorem node_lt (h : t.node p = some m) : p < t.nodes.length := by
  by_contra hge
  rw [node, List.getElem?_eq_none (not_lt.mp hge)] at h
  cases h

theorem node_of_ge (h : t.nodes.length ≤ p) : t.node p = none := by
  simp [node, h]

theorem node_setNode_self (h : id < t.nodes.length) :
    (t.setNode id m).node id = some m := by
  simp [node, setNode, h]

theorem node_setNode_ne (h : p ≠ id) :
    (t.setNode id m).node p = t.node p := by
  simp [node, setNode, List.getElem?_set_ne (Ne.symm h)]

/-- Replacing a loaded page loads nothing. -/
theorem node_setNode_none (h : t.node id = some old) :
    (t.setNode id m).node p = none ↔ t.node p = none := by
  by_cases hp : p = id
  · subst hp
    simp [node_setNode_self (node_lt h), h]
  · rw [node_setNode_ne hp]

@[simp] theorem length_setNode (id : Nat) (m : Node) :
    (t.setNode id m).nodes.length = t.nodes.length := by simp [setNode]

theorem node_growTo (p len : Nat) : (t.growTo len).node p = t.node p := by
  simp only [node, growTo]
  by_cases h : p < t.nodes.length
  · rw [List.getElem?_append_left h]
  · rw [List.getElem?_append_right (not_lt.mp h), List.getElem?_eq_none (not_lt.mp h),
      List.getElem?_replicate]
    split <;> rfl

theorem length_growTo (len : Nat) : (t.growTo len).nodes.length = max t.nodes.length len := by
  simp only [growTo, length_append, length_replicate]
  omega

/-! ## The logical page map -/

/-- A loaded page, else the page behind it. -/
def view (t : BTree) (bg : Nat → Option Node) (p : Nat) : Option Node := (t.node p).or (bg p)

theorem view_of_node (h : t.node p = some m) : t.view bg p = some m := by
  simp [view, h]

/-- Which pages are inner pages. -/
def IsInner (S : Store Bytes Value) (p : Nat) : Prop := ∃ l cs, S p = some (.inner l cs)

structure Sim (bg : Nat → Option Node) (t : BTree) (S : Store Bytes Value) (n : Nat) : Prop where
  shape : ∀ p, (t.view bg p).map Node.body = S p
  next : t.pageAllocator.nextId = n
  free : t.pageAllocator.freeList = []
  len : t.nodes.length = n
  limit : n ≤ u32Max + 1
  unused : ∀ q, n ≤ q → S q = none
  hints : ∀ p m, t.view bg p = some m → m.parentId ≠ 0 → IsInner S m.parentId
  clean : ∀ p m, t.node p = some m → p ∉ t.dirtyPages →
    (bg p).map (fun b => (b.body, b.parentId)) = some (m.body, m.parentId)
  loaded : ∀ p ∈ t.dirtyPages, t.node p ≠ none

/-- Every page of the store is loaded. -/
def Full (t : BTree) (S : Store Bytes Value) : Prop := ∀ p, S p ≠ none → t.node p ≠ none

theorem Sim.body (h : Sim bg t S n) (hm : t.node p = some m) :
    S p = some m.body := by
  rw [← h.shape p, view_of_node hm]
  rfl

theorem Sim.lt (h : Sim bg t S n) (hm : t.node p = some m) : p < n := (node_lt hm).trans_eq h.len

/-- A loaded page has the body the store has. -/
theorem Sim.node_of_loaded (h : Sim bg t S n)
    (hl : t.node p ≠ none) (hp : S p = some b) : ∃ m, t.node p = some m ∧ m.body = b := by
  obtain ⟨m, hm⟩ := Option.ne_none_iff_exists'.mp hl
  have := h.body hm
  rw [hp] at this
  exact ⟨m, hm, (Option.some.inj this).symm⟩

theorem Sim.node_of_full (h : Sim bg t S n) (hf : Full t S)
    (hp : S p = some b) : ∃ m, t.node p = some m ∧ m.body = b :=
  h.node_of_loaded (hf p (by simp [hp])) hp

/-- A page that is not dirty is the page behind. -/
theorem Sim.clean_shape (h : Sim bg t S n) (hp : p ∉ t.dirtyPages) :
    (bg p).map Node.body = S p := by
  have hshape := h.shape p
  rw [view] at hshape
  cases hm : t.node p with
  | none => rwa [hm, Option.none_or] at hshape
  | some m =>
    obtain ⟨b, hb, heq⟩ := Option.map_eq_some_iff.mp (h.clean p m hm hp)
    rw [hm, Option.some_or, Option.map_some] at hshape
    rw [hb, Option.map_some, ← hshape, (Prod.mk.inj heq).1]

theorem Sim.touch (h : Sim bg t S n) (hid : t.node id ≠ none) :
    Sim bg (t.touch id) S n := { h with
  clean p m hm hp := h.clean p m hm fun hd => hp (mem_insert_of_mem hd)
  loaded p hp := by
    rcases mem_insert_iff.mp hp with rfl | hp
    · exact hid
    · exact h.loaded p hp }

/-- Replacing a loaded page; an inner page stays one. -/
theorem Sim.setNode (h : Sim bg t S n) {new : Node} (hid : t.node id = some old)
    (hkind : ∀ l cs, old.body = .inner l cs → ∃ l' cs', new.body = .inner l' cs')
    (hhint : new.parentId = 0 ∨ new.parentId = old.parentId ∨ IsInner S new.parentId) :
    Sim bg (t.setNode id new) (S.set id new.body) n := by
  have hlt := node_lt hid
  have hinner : ∀ q, IsInner S q → IsInner (S.set id new.body) q := by
    rintro q ⟨l, cs, hq⟩
    by_cases hqi : q = id
    · subst hqi
      rw [h.body hid] at hq
      obtain ⟨l', cs', hb⟩ := hkind l cs (Option.some.inj hq)
      exact ⟨l', cs', by rw [Store.set_self, hb]⟩
    · exact ⟨l, cs, by rw [Store.set_ne _ _ hqi, hq]⟩
  refine ⟨?_, h.next, h.free, by simpa using h.len, h.limit, ?_, ?_, ?_, ?_⟩
  · intro p
    by_cases hp : p = id
    · subst hp
      rw [view_of_node (node_setNode_self hlt), Store.set_self]
      rfl
    · rw [Store.set_ne _ _ hp, ← h.shape p, view, view, node_setNode_ne hp]
  · intro q hq
    have hlt' := h.lt hid
    have hne : q ≠ id := by omega
    rw [Store.set_ne _ _ hne]
    exact h.unused q hq
  · intro p m hm hz
    by_cases hp : p = id
    · subst hp
      rw [view_of_node (node_setNode_self hlt)] at hm
      cases hm
      rcases hhint with h0 | h1 | h2
      · exact absurd h0 hz
      · exact hinner _ (h1 ▸ h.hints p old (view_of_node hid) (h1 ▸ hz))
      · exact hinner _ h2
    · rw [view, node_setNode_ne hp] at hm
      exact hinner _ (h.hints p m hm hz)
  · intro p m hm hp
    have hne : p ≠ id := fun he => hp (he ▸ mem_insert_self)
    rw [node_setNode_ne hne] at hm
    exact h.clean p m hm fun hd => hp (mem_insert_of_mem hd)
  · intro p hp
    by_cases hpi : p = id
    · subst hpi
      simp [node_setNode_self hlt]
    · rw [node_setNode_ne hpi]
      exact h.loaded p ((mem_insert_iff.mp hp).resolve_left hpi)

theorem Store.set_same {S : Store Bytes Value} (h : S p = some b) : S.set p b = S := by
  funext q
  by_cases hq : q = p
  · subst hq; rw [Store.set_self, h]
  · rw [Store.set_ne _ _ hq]

/-- Rewriting a hint leaves the store alone. -/
theorem Sim.setHint (h : Sim bg t S n) {parent : Nat} (hid : t.node id = some old)
    (hp : IsInner S parent) : Sim bg (t.setNode id (old.setParentId parent)) S n := by
  have hset : Sim bg (t.setNode id (old.setParentId parent)) (S.set id old.body) n :=
    h.setNode hid (fun l cs hb => ⟨l, cs, hb⟩) (.inr (.inr hp))
  rwa [Store.set_same (h.body hid)] at hset

theorem Full.setNode (hf : Full t S) {new : Node} (hid : t.node id = some old)
    : Full (t.setNode id new) (S.set id b) := by
  intro p hp
  by_cases hpi : p = id
  · subst hpi
    simp [node_setNode_self (node_lt hid)]
  · rw [node_setNode_ne hpi]
    exact hf p (by rwa [Store.set_ne _ _ hpi] at hp)

/-! ## Allocation -/

/-- What `alloc_node` does to a tree whose ids are handed out in order. -/
theorem Sim.allocNode (h : Sim bg t S n) (hm : m.parentId = 0) :
    if u32Max < n then t.allocNode m = .error .pageIdExhausted
    else ∃ t', t.allocNode m = .ok (n, t') ∧ Sim bg t' (S.set n m.body) (n + 1) ∧
      t'.root = t.root ∧ t'.node n = some m ∧ (∀ p, p ≠ n → t'.node p = t.node p) := by
  have halloc : t.pageAllocator.alloc = (n, ⟨min (n + 1) u64Max, []⟩) := by
    simp [PageAllocator.alloc, h.free, h.next]
  split
  · rename_i hlim
    simp [BTree.allocNode, halloc, hlim]
  rename_i hlim
  have hmin : min (n + 1) u64Max = n + 1 := by
    have : u32Max < u64Max := by decide
    omega
  set t₁ : BTree := { t with pageAllocator := ⟨n + 1, []⟩ } with ht₁
  set t₂ : BTree := t₁.growTo (n + 1) with ht₂
  have hlen₂ : t₂.nodes.length = n + 1 := by
    have hl := h.len
    rw [ht₂, length_growTo]
    show max t.nodes.length (n + 1) = n + 1
    omega
  have hself : (t₂.setNode n m).node n = some m := node_setNode_self (by omega)
  have hother : ∀ p, p ≠ n → (t₂.setNode n m).node p = t.node p := by
    intro p hp
    rw [node_setNode_ne hp, ht₂, node_growTo]
    rfl
  have hnone : t.view bg n = none := by
    have := h.shape n
    rw [h.unused n le_rfl] at this
    simpa using this
  have hinner : ∀ q, IsInner S q → IsInner (S.set n m.body) q := by
    rintro q ⟨l, cs, hq⟩
    have hqn : q ≠ n := by
      rintro rfl
      rw [h.unused q le_rfl] at hq
      cases hq
    exact ⟨l, cs, by rw [Store.set_ne _ _ hqn, hq]⟩
  refine ⟨t₂.setNode n m, ?_, ?_, rfl, hself, hother⟩
  · simp only [BTree.allocNode, halloc, if_neg hlim, hmin]
    rfl
  · refine ⟨?_, rfl, rfl, by simp [hlen₂], by omega, ?_, ?_, ?_, ?_⟩
    · intro p
      by_cases hp : p = n
      · subst hp
        rw [view_of_node hself, Store.set_self]
        rfl
      · rw [Store.set_ne _ _ hp, ← h.shape p, view, view, hother p hp]
    · intro q hq
      rw [Store.set_ne _ _ (show q ≠ n by omega)]
      exact h.unused q (by omega)
    · intro p x hx hz
      by_cases hp : p = n
      · subst hp
        rw [view_of_node hself] at hx
        cases hx
        exact absurd hm hz
      · rw [view, hother p hp] at hx
        exact hinner _ (h.hints p x hx hz)
    · intro p x hx hp
      have hne : p ≠ n := fun he => hp (he ▸ mem_insert_self)
      rw [hother p hne] at hx
      exact h.clean p x hx fun hd => hp (mem_insert_of_mem hd)
    · intro p hp
      by_cases hpn : p = n
      · subst hpn
        simp [hself]
      · rw [hother p hpn]
        exact h.loaded p ((mem_insert_iff.mp hp).resolve_left hpn)

theorem Full.alloc (hf : Full t S)
    (hself : t'.node n = some m) (hother : ∀ p, p ≠ n → t'.node p = t.node p) :
    Full t' (S.set n b) := by
  intro p hp
  by_cases hpn : p = n
  · subst hpn
    simp [hself]
  · rw [hother p hpn]
    exact hf p (by rwa [Store.set_ne _ _ hpn] at hp)

/-! ## Hints of moved children -/

theorem Sim.setChildrenParent {parent : Nat} : ∀ {cs : List Nat} {t : BTree},
    Sim bg t S n → IsInner S parent → (∀ c ∈ cs, c ≤ u32Max) →
    ∃ t', t.setChildrenParent parent cs = .ok t' ∧ Sim bg t' S n ∧ t'.root = t.root ∧
      (∀ p, (t'.node p).map Node.body = (t.node p).map Node.body)
  | [], t, h, _, _ => ⟨t, rfl, h, rfl, fun _ => rfl⟩
  | c :: cs, t, h, hp, hc => by
    have hc' : ∀ x ∈ cs, x ≤ u32Max := fun x hx => hc x (.tail _ hx)
    rw [BTree.setChildrenParent, if_neg (not_lt.mpr (hc c (.head _)))]
    cases hm : t.node c with
    | none => exact Sim.setChildrenParent h hp hc'
    | some m =>
      obtain ⟨t', h1, h2, h3, h4⟩ := Sim.setChildrenParent (h.setHint hm hp) hp hc'
      refine ⟨t', h1, h2, h3, fun p => ?_⟩
      rw [h4 p]
      by_cases hpc : p = c
      · subst hpc
        rw [node_setNode_self (node_lt hm), hm]
        rfl
      · rw [node_setNode_ne hpc]

/-- Other pages keep their hints. -/
theorem setChildrenParent_node {parent : Nat} : ∀ {cs : List Nat} {t t' : BTree},
    t.setChildrenParent parent cs = .ok t' → ∀ p, p ∉ cs → t'.node p = t.node p
  | [], t, t', h, p, _ => by
    cases h
    rfl
  | c :: cs, t, t', h, p, hp => by
    rw [mem_cons, not_or] at hp
    obtain ⟨hpc, hpcs⟩ := hp
    rw [BTree.setChildrenParent] at h
    split at h
    · cases h
    · split at h
      · exact setChildrenParent_node h p hpcs
      · rw [setChildrenParent_node h p hpcs, node_setNode_ne hpc]

end BTree

end SeerDb
