/-
# `SeerDb.Btree.Depth` — the height of the tree and the routing depth

`find_leaf` takes its 128th page for a cycle.  While every key has at most 1332
bytes, three separators fit on an internal page, so no internal page is left
without a separator and the 32-bit page ids run out at height 32.

One byte more and they do not fit.  Inserting such keys in descending order then
halves pages of two separators, and the tree gains a level with every second key
(`Spine`).  After 257 keys it is higher than `find_leaf` will go.
-/
import SeerDb.Btree.OrderedMap
import SeerDb.Lib.TreeWidth

namespace SeerDb

open Lib

namespace BTree

/-- The error `find_leaf` reports at its depth bound. -/
def routingDepthError : BTreeError := .corruption "cycle detected during B-tree descent"

/-- The trees that successful upserts and deletes with keys of at most `limit` bytes
build from a new one. -/
inductive Built (limit : Nat) : BTree → Prop where
  | new : Built limit BTree.new
  | upsert {t t' : BTree} {k v : Bytes} : Built limit t → k.length ≤ limit →
      t.upsert k v = (.ok (), t') → Built limit t'
  | delete {t t' : BTree} {k : Bytes} {existed : Bool} : Built limit t → k.length ≤ limit →
      t.delete k = (.ok existed, t') → Built limit t'

/-! ## Short keys -/

/-- The longest keys of which three separators fit on a page. -/
def shortKeyLimit : Nat := 1332

def Short (k : Bytes) : Prop := k.length ≤ shortKeyLimit

theorem innerFits_of_short (cs : List (Bytes × Nat)) (hlen : cs.length ≤ 3)
    (hcs : ∀ x ∈ cs, Short x.1) : Node.layout.innerFits cs := by
  have hsize : ∀ y ∈ cs.map Node.internalEntrySize, y ≤ 12 + shortKeyLimit := by
    intro y hy
    obtain ⟨x, hx, rfl⟩ := List.mem_map.mp hy
    have := hcs x hx
    simp only [Short] at this
    simp only [Node.internalEntrySize]
    omega
  have hsum : (cs.map Node.internalEntrySize).sum ≤ cs.length * (12 + shortKeyLimit) := by
    simpa using List.sum_le_card_nsmul _ _ hsize
  have hmul := Nat.mul_le_mul_right (12 + shortKeyLimit) hlen
  show decide _ = true
  rw [decide_eq_true_eq]
  simp only [shortKeyLimit, slotSize, headerSize, pageSize] at *
  omega

/-- The tree stands for a map, and its pages are wide. -/
def WideTree (t : BTree) : Prop :=
  ∃ (T : Lib.Tree Bytes Value) (m : OrderedMap), T.Holds Node.layout m ∧
    Tracks (fun _ => none) True t T.store T.next T.root ∧ Wide Short T.store

theorem wideTree_new : WideTree new := by
  refine ⟨emptyTree, [], holds_new, tracks_new, ?_, ?_⟩
  · intro p es hp
    by_cases h0 : p = 0
    · subst h0
      cases hp
      simp
    · rw [show emptyTree.store p = none from emptyStore_of_ne h0] at hp
      cases hp
  · intro p l cs hp
    by_cases h0 : p = 0
    · subst h0
      cases hp
    · rw [show emptyTree.store p = none from emptyStore_of_ne h0] at hp
      cases hp

theorem built_wide {limit : Nat} (hlimit : limit ≤ shortKeyLimit) {t : BTree}
    (h : Built limit t) : WideTree t := by
  induction h with
  | new => exact wideTree_new
  | upsert _ hk hup ih =>
    obtain ⟨T, m, hT, ht, hw⟩ := ih
    rename_i t t' k v _
    have hwrote := upsert_wrote (k := k) hT ht v
    rw [hup] at hwrote
    obtain ⟨-, -, T', hput, ht'⟩ := hwrote
    exact ⟨T', _, Tree.put_holds hT hput, ht', Tree.put_wide innerFits_of_short hw
      (hk.trans hlimit) hput⟩
  | delete _ hk hdel ih =>
    obtain ⟨T, m, hT, ht, hw⟩ := ih
    rename_i t t' k existed _
    have hd := delete_deleted (k := k) hT ht
    rw [hdel] at hd
    cases existed with
    | false => exact ⟨T, m, hT, hd.2.2, hw⟩
    | true =>
      obtain ⟨-, -, T', hput, ht'⟩ := hd
      exact ⟨T', _, Tree.put_holds hT hput, ht',
        Tree.put_wide innerFits_of_short hw (hk.trans hlimit) hput⟩

/-- A wide tree is at most 32 high: beyond that its page ids would not fit in 32 bits. -/
theorem WideTree.findLeaf_ok {t : BTree} (h : WideTree t) (k : Bytes) :
    ∃ leaf, t.findLeaf k = .ok leaf := by
  obtain ⟨T, m, hT, ht, hw⟩ := h
  obtain ⟨ps, hr, -, -, hlen⟩ := hT.pages
  have hpow : 2 ^ T.height ≤ T.next := hlen ▸ hr.two_pow_le hw
  have hlt : T.height < maxRoutingDepth := by
    by_contra hge
    have h1 : 2 ^ maxRoutingDepth ≤ 2 ^ T.height := Nat.pow_le_pow_right (by decide) (not_lt.mp hge)
    have h2 := ht.sim.limit
    have h3 : u32Max + 1 < 2 ^ maxRoutingDepth := by decide
    omega
  have := findLeaf_full hT ht trivial k
  rwa [if_pos hlt] at this

/-! ## Only the descent reports the routing depth -/

theorem append_ne_of_head {a b c : String} {x y : Char} {s t : List Char} (ha : a.toList = x :: s)
    (hc : c.toList = y :: t) (h : x ≠ y) : a ++ b ≠ c := by
  intro he
  have := congrArg String.toList he
  rw [String.toList_append, ha, hc, List.cons_append] at this
  exact h (List.cons.inj this).1

section Clean

variable {t : BTree} {k : Bytes} {leaf : Nat}

theorem scanForParent_clean {descend : Nat → Except BTreeError (Option Nat)} {current target : Nat}
    (hd : ∀ c, descend c ≠ .error routingDepthError) : ∀ cs : List Nat,
    scanForParent descend current target cs ≠ .error routingDepthError
  | [] => by simp [scanForParent]
  | c :: cs => by
    have ih : scanForParent descend current target cs ≠ .error routingDepthError :=
      scanForParent_clean hd cs
    have hc := hd c
    rw [scanForParent]
    repeat' split
    all_goals simp_all [routingDepthError]

theorem findParent_clean {target : Nat} : ∀ (fuel current : Nat) (active : List Nat),
    t.findParent target fuel current active ≠ .error routingDepthError
  | 0, _, _ => by simp [findParent, routingDepthError]
  | fuel + 1, current, active => by
    rw [findParent]
    repeat' split
    all_goals first
      | exact scanForParent_clean (fun c => findParent_clean fuel c (current :: active)) _
      | simp [routingDepthError]

theorem parentOf_clean (id : Nat) : t.parentOf id ≠ .error routingDepthError := by
  rw [parentOf]
  repeat' split
  all_goals first | exact findParent_clean _ _ _ | simp [routingDepthError]

theorem setParent_clean (id parent : Nat) : t.setParent id parent ≠ .error routingDepthError := by
  rw [setParent]
  split <;> simp [routingDepthError]

theorem allocNode_clean (m : Node) : t.allocNode m ≠ .error routingDepthError := by
  simp only [allocNode]
  split <;> simp [routingDepthError]

theorem setChildrenParent_clean {parent : Nat} : ∀ (cs : List Nat) (t : BTree),
    t.setChildrenParent parent cs ≠ .error routingDepthError
  | [], _ => by simp [setChildrenParent]
  | c :: cs, t => by
    rw [setChildrenParent]
    repeat' split
    all_goals first | exact setChildrenParent_clean cs _ | simp [routingDepthError]

theorem setDirectChildrenParent_clean (id parent : Nat) :
    t.setDirectChildrenParent id parent ≠ .error routingDepthError := by
  rw [setDirectChildrenParent]
  split
  · simp [routingDepthError]
  · exact setChildrenParent_clean _ _

theorem createNewRoot_clean (left right : Nat) (key : Bytes) :
    t.createNewRoot left key right ≠ .error routingDepthError := by
  rw [createNewRoot]
  split
  · simp [routingDepthError]
  split
  · rename_i e he
    rintro ⟨⟩
    exact allocNode_clean _ he
  split
  · rename_i e he
    rintro ⟨⟩
    exact setParent_clean _ _ he
  · split
    · rename_i e he
      rintro ⟨⟩
      exact setParent_clean _ _ he
    · simp

theorem linkRight_clean {insertInto : BTree → PageId → Bytes → PageId → Except BTreeError BTree}
    (hins : ∀ t p k r, insertInto t p k r ≠ .error routingDepthError) {message : String}
    (hmsg : message ≠ "cycle detected during B-tree descent") (id right : Nat) (key : Bytes) :
    t.linkRight insertInto message id key right ≠ .error routingDepthError := by
  rw [linkRight]
  split
  · exact createNewRoot_clean _ _ _
  split
  · rename_i e he
    rintro ⟨⟩
    exact parentOf_clean _ he
  · simpa [routingDepthError] using hmsg
  · split
    · rename_i e he
      rintro ⟨⟩
      exact setParent_clean _ _ he
    · exact hins _ _ _ _

theorem splitInternal_clean {insertInto : BTree → PageId → Bytes → PageId → Except BTreeError BTree}
    (hins : ∀ t p k r, insertInto t p k r ≠ .error routingDepthError)
    (id right : Nat) (key : Bytes) :
    t.splitInternal insertInto id key right ≠ .error routingDepthError := by
  rw [splitInternal]
  split
  · simp [routingDepthError]
  split
  · simp [routingDepthError]
  split
  · rename_i e he
    rintro ⟨⟩
    exact allocNode_clean _ he
  split
  · rename_i e he
    rintro ⟨⟩
    exact setDirectChildrenParent_clean _ _ he
  simp only
  split
  · simp [routingDepthError]
  split
  · simp [routingDepthError]
  split
  · rename_i e he
    rintro ⟨⟩
    exact setParent_clean _ _ he
  · refine linkRight_clean hins ?_ _ _ _
    rw [String.append_assoc]
    exact append_ne_of_head (x := 's') (y := 'c') rfl rfl (by decide)

theorem insertIntoInternal_clean :
    ∀ (fuel : Nat) (t : BTree) (parent : Nat) (key : Bytes) (right : Nat),
    insertIntoInternal fuel t parent key right ≠ .error routingDepthError
  | 0, _, _, _, _ => by simp [insertIntoInternal, routingDepthError]
  | fuel + 1, t, parent, key, right => by
    rw [insertIntoInternal]
    repeat' split
    all_goals first
      | exact splitInternal_clean (insertIntoInternal_clean fuel) _ _ _
      | simp [routingDepthError]

theorem splitAndInsertValue_clean (leaf : Nat) (key : Bytes) (value : Value) :
    t.splitAndInsertValue leaf key value ≠ .error routingDepthError := by
  rw [splitAndInsertValue]
  split
  · simp [routingDepthError]
  split
  · simp [routingDepthError]
  split
  · rename_i e he
    rintro ⟨⟩
    exact allocNode_clean _ he
  simp only
  split
  · simp [routingDepthError]
  split
  · simp [routingDepthError]
  · refine linkRight_clean (insertIntoInternal_clean _) ?_ _ _ _
    rw [String.append_assoc]
    exact append_ne_of_head (x := 's') (y := 'c') rfl rfl (by decide)

theorem replaceFullEntryWithSplit_clean (leaf index : Nat) (key value : Bytes) :
    t.replaceFullEntryWithSplit leaf index key value ≠ .error routingDepthError := by
  rw [replaceFullEntryWithSplit]
  repeat' split
  all_goals first | exact splitAndInsertValue_clean _ _ _ | simp [routingDepthError]

theorem restoreOnError_clean {r : Except BTreeError BTree} (h : r ≠ .error routingDepthError) :
    (restoreOnError t r).1 ≠ .error routingDepthError := by
  cases r with
  | ok t' => simp [restoreOnError]
  | error e => simpa [restoreOnError] using h

theorem insert_clean (v : Bytes) (hl : t.findLeaf k = .ok leaf) :
    (t.insert k v).1 ≠ .error routingDepthError := by
  rw [insert, hl]
  simp only
  repeat' split
  all_goals first
    | exact restoreOnError_clean (splitAndInsertValue_clean _ _ _)
    | simp [routingDepthError]

theorem upsert_clean (v : Bytes) (hl : t.findLeaf k = .ok leaf) :
    (t.upsert k v).1 ≠ .error routingDepthError := by
  rw [upsert, hl]
  simp only
  split
  · exact insert_clean v hl
  split
  · simp [routingDepthError]
  split
  · split <;> simp [routingDepthError]
  refine restoreOnError_clean ?_
  split
  · simp
  · exact replaceFullEntryWithSplit_clean _ _ _ _
  · simp [routingDepthError]

theorem lookup_clean (hl : t.findLeaf k = .ok leaf) :
    t.lookup k ≠ .error routingDepthError := by
  rw [lookup, hl]
  simp only
  repeat' split
  all_goals simp [routingDepthError]

end Clean

end BTree

end SeerDb
