/-
# `SeerDb.Btree.Resident` — a mutation unloads nothing

A tree of which only some pages are loaded answers from the pages behind it where
it has none of its own.  That is only sound as long as a page that was loaded, and
may have been changed, stays loaded.  One lemma for each function that changes the
node vector, up to the mutation entry points.
-/
import SeerDb.Btree.OrderedMap

namespace SeerDb

namespace BTree

/-- Every page loaded in `t` is loaded in `t'`. -/
def Retains (t t' : BTree) : Prop := ∀ p, t.node p ≠ none → t'.node p ≠ none

variable {t t' : BTree} {id parent : PageId} {n : Node} {key : Bytes}

theorem Retains.refl (t : BTree) : Retains t t := fun _ hp => hp

theorem Retains.trans {t'' : BTree} (h : Retains t t') (h' : Retains t' t'') : Retains t t'' :=
  fun p hp => h' p (h p hp)

theorem retains_touch (t : BTree) (id : PageId) : Retains t (t.touch id) := fun _ hp => hp

theorem retains_setNode (t : BTree) (id : PageId) (n : Node) : Retains t (t.setNode id n) := by
  intro p hp
  by_cases hid : p = id
  · subst hid
    obtain ⟨m, hm⟩ := Option.ne_none_iff_exists'.mp hp
    simp [node_setNode_self (node_lt hm)]
  · rwa [node_setNode_ne hid]

theorem retains_allocNode {x : PageId × BTree} (h : t.allocNode n = .ok x) : Retains t x.2 := by
  rw [allocNode] at h
  simp only at h
  split at h
  · cases h
  cases h
  refine Retains.trans (fun p hp => ?_) (retains_setNode _ _ n)
  rw [node_growTo]
  exact hp

theorem retains_setParent (h : t.setParent id parent = .ok t') : Retains t t' := by
  rw [setParent] at h
  split at h
  · cases h
  · cases h
    exact retains_setNode _ _ _

theorem retains_createNewRoot {left right : PageId}
    (h : t.createNewRoot left key right = .ok t') : Retains t t' := by
  rw [createNewRoot] at h
  split at h
  · cases h
  split at h
  · cases h
  rename_i halloc
  split at h
  · cases h
  rename_i hleft
  split at h
  · cases h
  rename_i hright
  cases h
  have h₃ := ((retains_allocNode halloc).trans (retains_setParent hleft)).trans
    (retains_setParent hright)
  exact fun p hp => h₃ p hp

theorem retains_setChildrenParent : ∀ {children : List Nat} {t : BTree},
    t.setChildrenParent parent children = .ok t' → Retains t t'
  | [], _, h => by
    cases h
    exact .refl _
  | child :: rest, t, h => by
    rw [setChildrenParent] at h
    split at h
    · cases h
    · split at h
      · exact retains_setChildrenParent h
      · exact (retains_setNode _ _ _).trans (retains_setChildrenParent h)

theorem retains_setDirectChildrenParent (h : t.setDirectChildrenParent id parent = .ok t') :
    Retains t t' := by
  rw [setDirectChildrenParent] at h
  split at h
  · cases h
  · exact retains_setChildrenParent h

theorem retains_linkRight {insertInto : BTree → PageId → Bytes → PageId → Except BTreeError BTree}
    (hinto : ∀ {t t' id key right}, insertInto t id key right = .ok t' → Retains t t')
    {unreachable : String} {medianKey : Bytes} {rightId : PageId}
    (h : linkRight insertInto t unreachable id medianKey rightId = .ok t') : Retains t t' := by
  rw [linkRight] at h
  split at h
  · exact retains_createNewRoot h
  split at h
  · cases h
  · cases h
  split at h
  · cases h
  · rename_i hset
    exact (retains_setParent hset).trans (hinto h)

theorem retains_splitInternal {insertInto : BTree → PageId → Bytes → PageId →
    Except BTreeError BTree} (hinto : ∀ {t t' id key right}, insertInto t id key right =
      .ok t' → Retains t t')
    {rightChildId : PageId}
    (h : splitInternal insertInto t id key rightChildId = .ok t') : Retains t t' := by
  rw [splitInternal] at h
  split at h
  · cases h
  split at h
  · cases h
  split at h
  · cases h
  rename_i halloc
  split at h
  · cases h
  rename_i hchildren
  simp only at h
  split at h
  · cases h
  split at h
  · cases h
  split at h
  · cases h
  rename_i hset
  have h₁ := (retains_setNode t id _).trans (retains_allocNode halloc)
  have h₂ := h₁.trans (retains_setDirectChildrenParent hchildren)
  have h₃ := (h₂.trans (retains_setNode _ _ _)).trans (retains_setParent hset)
  exact h₃.trans (retains_linkRight hinto h)

theorem retains_insertIntoInternal : ∀ {fuel : Nat} {t t' : BTree} {id : PageId} {key : Bytes}
    {right : PageId}, insertIntoInternal fuel t id key right = .ok t' → Retains t t'
  | 0, _, _, _, _, _, h => by cases h
  | fuel + 1, t, t', id, key, right, h => by
    rw [insertIntoInternal] at h
    split at h
    · cases h
    split at h
    · cases h
      exact retains_setNode _ _ _
    · exact (retains_touch t id).trans (retains_splitInternal retains_insertIntoInternal h)
    · cases h

theorem retains_splitAndInsertValue {value : Value}
    (h : t.splitAndInsertValue id key value = .ok t') : Retains t t' := by
  rw [splitAndInsertValue] at h
  split at h
  · cases h
  split at h
  · cases h
  split at h
  · cases h
  rename_i halloc
  simp only at h
  split at h
  · cases h
  split at h
  · cases h
  · have h₁ := (retains_setNode t id _).trans (retains_allocNode halloc)
    exact (h₁.trans (retains_setNode _ _ _)).trans (retains_linkRight retains_insertIntoInternal h)

theorem retains_replaceFullEntryWithSplit {index : Nat} {value : Bytes}
    (h : t.replaceFullEntryWithSplit id index key value = .ok t') : Retains t t' := by
  rw [replaceFullEntryWithSplit] at h
  split at h
  · cases h
  split at h
  · cases h
  split at h
  · cases h
  split at h
  · cases h
    exact retains_setNode _ _ _
  · exact (retains_setNode _ _ _).trans (retains_splitAndInsertValue h)
  · cases h

/-! ## Mutation entry points -/

theorem retains_restoreOnError {result : Except BTreeError BTree} (h : Retains t t')
    (hok : ∀ u, result = .ok u → Retains t u) : Retains t (restoreOnError t' result).2 := by
  cases result with
  | ok u => exact hok u rfl
  | error e => exact h

theorem retains_insert (t : BTree) (key value : Bytes) : Retains t (t.insert key value).2 := by
  rw [BTree.insert]
  repeat' split
  · exact .refl t
  · exact .refl t
  · exact retains_setNode _ _ _
  · exact retains_restoreOnError (retains_touch t _) fun u hu =>
      (retains_touch t _).trans (retains_splitAndInsertValue hu)
  · exact retains_touch t _
  · exact retains_touch t _

theorem retains_insertBlobAt (t : BTree) (id : PageId) (key : Bytes) (ptr : BlobPointer) :
    Retains t (t.insertBlobAt id key ptr).2 := by
  rw [insertBlobAt]
  repeat' split
  · exact .refl t
  · exact retains_setNode _ _ _
  · exact retains_restoreOnError (retains_touch t _) fun u hu =>
      (retains_touch t _).trans (retains_splitAndInsertValue hu)
  · exact retains_touch t _

theorem retains_insertBlob (t : BTree) (key : Bytes) (ptr : BlobPointer) :
    Retains t (t.insertBlob key ptr).2 := by
  rw [insertBlob]
  split
  · exact .refl t
  · exact retains_insertBlobAt t _ key ptr

theorem retains_upsert (t : BTree) (key value : Bytes) : Retains t (t.upsert key value).2 := by
  rw [upsert]
  split
  · exact .refl t
  split
  · exact retains_insert t key value
  split
  · exact .refl t
  split
  · split
    · exact retains_setNode _ _ _
    · exact retains_touch t _
  refine retains_restoreOnError (.refl t) fun u hu => ?_
  split at hu
  · cases hu
    exact retains_setNode _ _ _
  · exact (retains_touch t _).trans (retains_replaceFullEntryWithSplit hu)
  · cases hu

theorem retains_delete (t : BTree) (key : Bytes) : Retains t (t.delete key).2 := by
  rw [delete]
  repeat' split
  · exact .refl t
  · exact .refl t
  · exact retains_touch t _
  · exact retains_touch t _
  · exact retains_setNode _ _ _
  · exact retains_setNode _ _ _

theorem retains_upsertBlob (t : BTree) (key : Bytes) (ptr : BlobPointer) :
    Retains t (t.upsertBlob key ptr).2 := by
  rw [upsertBlob]
  split
  · exact .refl t
  split
  · exact retains_insertBlobAt t _ key ptr
  refine retains_restoreOnError (.refl t) fun u hu => ?_
  repeat' split at hu
  all_goals try cases hu
  · exact retains_setNode _ _ _
  · exact (retains_setNode _ _ _).trans (retains_splitAndInsertValue hu)

/-- **No mutation unloads a page.** -/
theorem retains_call (t : BTree) (c : Call) : Retains t (t.call c).2 := by
  cases c with
  | insert k v => exact retains_insert t k v
  | upsert k v => exact retains_upsert t k v
  | delete k => exact retains_delete t k
  | insertBlob k p => exact retains_insertBlob t k p
  | upsertBlob k p => exact retains_upsertBlob t k p

end BTree

end SeerDb
