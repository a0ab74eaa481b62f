/-
# `SeerDb.Btree.Room` — which entries a tree can store

A full page is split once, by entry count.  Whether that makes room depends on
the sizes around it, so an entry that would fit an empty page can be refused:
`upsert_ok_iff` says exactly when it is not.
-/
import SeerDb.Btree.OrderedMap
import SeerDb.Lib.TreeRoom

namespace SeerDb

open Lib

namespace BTree

/-- The bodies of the loaded pages. -/
def pages (t : BTree) : Store Bytes Value := fun p => (t.node p).map Node.body

/-- The leaf of the key lies within the routing depth, and every page on the way to it
can take what it is handed. -/
def HasRoom (t : BTree) (k : Bytes) (v : Value) : Prop :=
  ∃ h < maxRoutingDepth, Tree.Room Node.layout ⟨t.pages, t.root, h, t.pageAllocator.nextId⟩ k v

variable {t : BTree} {T : Lib.Tree Bytes Value} {m : OrderedMap} {k : Bytes} {v : Value}

/-- `Room` follows the path to the leaf, so it fixes the height. -/
theorem room_height {L : Layout Bytes Value} {S : Store Bytes Value} {n h p n' : Nat}
    {up : Option (Bytes × Nat)} (hr : Room L S k v n h p n' up) :
    ∀ {h' lo hi es ps},
    Rep L S h' lo hi p es ps → InRange lo hi k → h = h' := by
  have hleaf : ∀ {p : Nat} {es : List (Bytes × Value)}, S p = some (.leaf es) → ∀ {h' lo hi es' ps},
      Rep L S h' lo hi p es' ps → 0 = h' := by
    intro p es hp h' lo hi es' ps hrep
    cases h' with
    | zero => rfl
    | succ h' =>
      obtain ⟨l, cs, q, hq, -⟩ := hrep
      rw [hp] at hq
      cases hq
  have hinner : ∀ {h p l : Nat} {cs : List (Bytes × Nat)}, S p = some (.inner l cs) →
      (∀ {h' lo hi es ps}, Rep L S h' lo hi (route k l cs) es ps → InRange lo hi k → h = h') →
      ∀ {h' lo hi es ps},
      Rep L S h' lo hi p es ps → InRange lo hi k → h + 1 = h' := by
    intro h p l cs hp ih h' lo hi es ps hrep hk
    cases h' with
    | zero =>
      rw [hrep.1] at hp
      cases hp
    | succ h' =>
      obtain ⟨l', cs', q, hq, -, hc, -⟩ := hrep
      rw [hp] at hq
      cases hq
      obtain ⟨lo', hi', left, mid, right, pleft, pmid, pright, -, -, hc', H⟩ :=
        hc.route_spec (fun _ _ _ _ _ hp => Rep.bindings hp) hk
      rw [ih hc' H.range]
  induction hr with
  | leaf hp _ => exact fun hrep _ => hleaf hp hrep
  | halves hp _ _ _ _ => exact fun hrep _ => hleaf hp hrep
  | inside hp _ ih => exact hinner hp ih
  | takes hp _ _ ih => exact hinner hp ih
  | parts hp _ _ _ _ _ ih => exact hinner hp ih

/-- On a fully loaded tree, `HasRoom` is room in its page tree. -/
theorem hasRoom_iff (hT : T.Holds Node.layout m)
    (ht : Tracks (fun _ => none) True t T.store T.next T.root) :
    t.HasRoom k v ↔ T.height < maxRoutingDepth ∧ T.put Node.layout k v ≠ none := by
  have hpages : t.pages = T.store := by
    funext p
    rw [← ht.sim.shape p, view, Option.or_none]
    rfl
  rw [← Tree.room_iff, HasRoom, hpages, ht.root_eq, ht.sim.next]
  constructor
  · rintro ⟨h, hlt, hroom⟩
    obtain ⟨ps, hrep, -⟩ := hT.rep
    obtain ⟨n', up, hr, -⟩ := id hroom
    obtain rfl := room_height hr hrep (inRange_full k)
    exact ⟨hlt, hroom⟩
  · rintro ⟨hlt, hroom⟩
    exact ⟨T.height, hlt, hroom⟩

/-- A write that is never refused answers `Ok` exactly when there is room. -/
theorem Wrote.ok_iff {x : Except BTreeError Unit × BTree}
    (hT : T.Holds Node.layout m) (ht : Tracks (fun _ => none) True t T.store T.next T.root)
    (hw : Wrote (fun _ => none) True (Climbs t T k v) False T k v x) :
    x.1 = .ok () ↔ t.HasRoom k v := by
  rw [hasRoom_iff hT ht]
  obtain ⟨r, t'⟩ := x
  cases r with
  | ok u =>
    obtain ⟨-, hclimbs, T', hput, -⟩ := hw
    exact iff_of_true rfl ⟨hclimbs.1.1, by simp [hput]⟩
  | error e =>
    refine iff_of_false (by simp) ?_
    rintro ⟨hlt, hput⟩
    rcases hw.2 (ht.climbs hT trivial hlt) with h | h
    · exact h
    · exact hput h

/-- **What can be stored.** After any sequence of calls, an upsert of an inline value or
of a blob pointer answers `Ok` exactly when the pages on the path have room for it. -/
theorem upsert_ok_iff (calls : List Call) (k value : Bytes) (ptr : BlobPointer) :
    (((session calls).1.upsert k value).1 = .ok () ↔ (session calls).1.HasRoom k (.inline value)) ∧
    (((session calls).1.upsertBlob k ptr).1 = .ok () ↔
      (session calls).1.HasRoom k (.blob ptr)) := by
  obtain ⟨T, hT, ht⟩ := session_state calls
  exact ⟨(upsert_wrote hT ht value).ok_iff hT ht, (upsertBlob_wrote hT ht ptr).ok_iff hT ht⟩

/-- One entry of 4040 bytes fills a page that cannot be split, so the smallest further
entry is refused; and a blob entry under the longest admitted key fits no page. -/
theorem small_entry_refused :
    (new.upsert [] (List.replicate 4035 0)).1 = .ok () ∧
    Node.layout.leafFits [([0], .inline [])] = true ∧
    ((new.upsert [] (List.replicate 4035 0)).2.upsert [0] []).1
      = .error (.splitFailed .tooFewKeys) ∧
    (new.upsertBlob (List.replicate maxKeySize 0) ⟨1, 0, 0⟩).1 ≠ .ok () := by
  decide +kernel

end BTree

end SeerDb
