/-
# `SeerDb.Btree.OrderedMap` — the tree refines an ordered map

The reference is a sorted list of bindings whose values are inline bytes, blob
pointers or tombstones.  `session` runs a sequence of calls on a new tree and on
the reference side by side; the reference moves only when the tree answers `Ok`.
-/
import SeerDb.Btree.ScanSpec

namespace SeerDb

open Lib

/-- A mutation of the tree. -/
inductive Call where
  | insert (key value : Bytes)
  | upsert (key value : Bytes)
  | delete (key : Bytes)
  | insertBlob (key : Bytes) (pointer : BlobPointer)
  | upsertBlob (key : Bytes) (pointer : BlobPointer)
deriving DecidableEq, Repr

/-- What a mutation answers: only `delete` reports something. -/
inductive Reply where
  | done
  | deleted (existed : Bool)
deriving DecidableEq, Repr

def BTree.call (t : BTree) : Call → Except BTreeError Reply × BTree
  | .insert k v => ((t.insert k v).1.map fun _ => .done, (t.insert k v).2)
  | .upsert k v => ((t.upsert k v).1.map fun _ => .done, (t.upsert k v).2)
  | .delete k => ((t.delete k).1.map .deleted, (t.delete k).2)
  | .insertBlob k p => ((t.insertBlob k p).1.map fun _ => .done, (t.insertBlob k p).2)
  | .upsertBlob k p => ((t.upsertBlob k p).1.map fun _ => .done, (t.upsertBlob k p).2)

/-- The reference map: bindings in strictly increasing key order. -/
abbrev OrderedMap := List (Bytes × Value)

namespace OrderedMap

/-- Bind a key that has no entry, not even a tombstone. -/
def insertNew (m : OrderedMap) (k : Bytes) (v : Value) : Option (Reply × OrderedMap) :=
  if get k m = none then some (.done, upsert k v m) else none

/-- What a call answers and leaves behind; `none` is a refusal. -/
def call (m : OrderedMap) : Call → Option (Reply × OrderedMap)
  | .insert k v => m.insertNew k (.inline v)
  | .upsert k v => some (.done, upsert k (.inline v) m)
  | .delete k => match get k m with
    | none => some (.deleted false, m)
    | some .tombstone => some (.deleted false, m)
    | some _ => some (.deleted true, upsert k .tombstone m)
  | .insertBlob k p => m.insertNew k (.blob p)
  | .upsertBlob k p => some (.done, upsert k (.blob p) m)

end OrderedMap

/-- One call on both sides; a call the tree refuses leaves the reference alone. -/
def sessionStep (s : BTree × OrderedMap) (c : Call) : BTree × OrderedMap :=
  ((s.1.call c).2, match (s.1.call c).1 with
    | .error _ => s.2
    | .ok _ => ((s.2.call c).map Prod.snd).getD s.2)

def session (calls : List Call) : BTree × OrderedMap := calls.foldl sessionStep (BTree.new, [])

namespace BTree

/-- The tree stands for the map, with every page loaded. -/
def Refines (t : BTree) (m : OrderedMap) : Prop :=
  ∃ T : Lib.Tree Bytes Value, T.Holds Node.layout m ∧
    Tracks (fun _ => none) True t T.store T.next T.root

/-- The page store of a new tree: one empty leaf. -/
def emptyStore : Store Bytes Value := fun p => if p = 0 then some (.leaf []) else none

theorem node_new (p : Nat) : new.node p = if p = 0 then some Node.newLeaf else none := by
  cases p with
  | zero => rfl
  | succ p => simp [node, new]

/-- The page tree of a new tree. -/
def emptyTree : Lib.Tree Bytes Value := ⟨emptyStore, 0, 0, 1⟩

theorem emptyStore_of_ne {q : Nat} (h : q ≠ 0) : emptyStore q = none := by simp [emptyStore, h]

theorem holds_new : emptyTree.Holds Node.layout [] := by
  refine ⟨⟨[0], ⟨rfl, sorted_nil, by simp, by decide, rfl⟩, by decide⟩, ?_⟩
  intro q hq
  have hq' : 1 ≤ q := hq
  exact emptyStore_of_ne (by omega)

theorem tracks_new : Tracks (fun _ => none) True new emptyStore 1 0 := by
  refine ⟨⟨?_, rfl, rfl, by simp [new], by decide, ?_, ?_, ?_, ?_⟩, rfl, ?_⟩
  · intro p
    rw [view, node_new]
    by_cases hp : p = 0
    · simp [hp, emptyStore, Node.newLeaf]
    · simp [hp, emptyStore]
  · intro q hq
    exact emptyStore_of_ne (by omega)
  · intro p m hm hz
    rw [view, node_new] at hm
    by_cases hp : p = 0
    · simp only [hp, if_true, Option.some_or, Option.some.injEq] at hm
      exact absurd (hm ▸ rfl) hz
    · simp [hp] at hm
  · intro p m hm hd
    rw [node_new] at hm
    by_cases hp : p = 0
    · exact absurd (by simp [hp, new]) hd
    · simp [hp] at hm
  · intro p hp
    have : p = 0 := by simpa [new] using hp
    simp [node_new, this]
  · intro _ p hp
    rw [node_new]
    by_cases h0 : p = 0
    · simp [h0]
    · exact absurd (emptyStore_of_ne h0) hp

theorem refines_new : Refines new [] := ⟨emptyTree, holds_new, tracks_new⟩

/-! ## One call -/

variable {m : OrderedMap} {k : Bytes}

theorem Refines.sorted {t : BTree} (h : Refines t m) : Sorted m := by
  obtain ⟨T, hT, -⟩ := h
  exact hT.sorted

/-- What one call owes the reference. -/
def Answers (m : OrderedMap) (c : Call) : Except BTreeError Reply × BTree → Prop
  | (.ok r, t) => ∃ m', m.call c = some (r, m') ∧ Refines t m'
  | (.error _, t) => Refines t m

/-- A write on both sides. -/
theorem Wrote.answers {T : Lib.Tree Bytes Value} {v : Value} {c : Call}
    {way refused : Prop} {x : Except BTreeError Unit × BTree}
    (h : Wrote (fun _ => none) True way refused T k v x) (hT : T.Holds Node.layout m)
    (hc : ¬ refused → m.call c = some (.done, Lib.upsert k v m)) :
    Answers m c (x.1.map fun _ => .done, x.2) := by
  obtain ⟨r, t⟩ := x
  cases r with
  | error e => exact ⟨T, hT, h.1⟩
  | ok u =>
    obtain ⟨hr, -, T', hput, ht⟩ := h
    exact ⟨_, hc hr, T', Tree.put_holds hT hput, ht⟩

theorem insertNew_of_absent (v : Value) (h : ¬ get k m ≠ none) :
    m.insertNew k v = some (.done, Lib.upsert k v m) := by
  rw [OrderedMap.insertNew, if_pos (not_not.mp h)]

theorem call_answers {t : BTree} (h : Refines t m) (c : Call) :
    Answers m c (t.call c) := by
  obtain ⟨T, hT, ht⟩ := h
  cases c with
  | insert k v => exact (insert_wrote hT ht v).answers hT (insertNew_of_absent _)
  | upsert k v => exact (upsert_wrote hT ht v).answers hT fun _ => rfl
  | insertBlob k p => exact (insertBlob_wrote hT ht p).answers hT (insertNew_of_absent _)
  | upsertBlob k p => exact (upsertBlob_wrote hT ht p).answers hT fun _ => rfl
  | delete k =>
    have hd := delete_deleted (k := k) hT ht
    rw [call]
    cases hx : t.delete k with
    | mk r t' =>
      rw [hx] at hd
      match r, hd with
      | .ok true, ⟨_, ⟨w, hw, hne⟩, T', hput, ht'⟩ =>
        refine ⟨_, ?_, T', Tree.put_holds hT hput, ht'⟩
        rw [OrderedMap.call, hw]
        cases w with
        | inline d => rfl
        | blob p => rfl
        | tombstone => exact absurd rfl hne
      | .ok false, ⟨_, hnone, ht'⟩ =>
        refine ⟨m, ?_, T, hT, ht'⟩
        rw [OrderedMap.call]
        rcases hnone with hn | hn
        · rw [hn]
        · rw [hn]
      | .error e, hd => exact ⟨T, hT, hd.2⟩

theorem sessionStep_refines {s : BTree × OrderedMap} (h : Refines s.1 s.2) (c : Call) :
    Refines (sessionStep s c).1 (sessionStep s c).2 := by
  have ha := call_answers h c
  rw [sessionStep]
  cases hx : s.1.call c with
  | mk r t' =>
    rw [hx] at ha
    cases r with
    | error e => exact ha
    | ok r =>
      obtain ⟨m', hm, hr⟩ := ha
      simp only [hm, Option.map_some, Option.getD_some]
      exact hr

theorem sessionRun_refines (calls : List Call) : ∀ {s : BTree × OrderedMap}, Refines s.1 s.2 →
    Refines (calls.foldl sessionStep s).1 (calls.foldl sessionStep s).2 := by
  induction calls with
  | nil => exact fun h => h
  | cons c calls ih => exact fun h => ih (sessionStep_refines h c)

theorem session_state (calls : List Call) : Refines (session calls).1 (session calls).2 :=
  sessionRun_refines calls refines_new

/-! ## What a scan shows -/

theorem shown_eq_some {b : Bytes × Value} {x : Bytes × LookupResult} :
    shown b = some x ↔ b.2 ≠ .tombstone ∧ x = (b.1, b.2.toLookup) := by
  obtain ⟨k, v⟩ := b
  cases v <;> simp [shown, eq_comm]

theorem mem_visible (hs : Sorted m) {start end_ : Bytes} {r : LookupResult} :
    (k, r) ∈ visible start end_ m ↔
      start ≤ k ∧ k < end_ ∧ ∃ v, get k m = some v ∧ v ≠ .tombstone ∧ r = v.toLookup := by
  simp only [visible, between, List.mem_filterMap, List.mem_filter,
    decide_eq_true_eq, shown_eq_some]
  constructor
  · rintro ⟨⟨k', v⟩, ⟨hmem, h1, h2⟩, hne, hx⟩
    cases hx
    exact ⟨h1, h2, v, (get_eq_some_iff hs).mpr hmem, hne, rfl⟩
  · rintro ⟨h1, h2, v, hv, hne, rfl⟩
    exact ⟨(k, v), ⟨(get_eq_some_iff hs).mp hv, h1, h2⟩, hne, rfl⟩

theorem visible_increasing (hs : Sorted m) (start end_ : Bytes) :
    (visible start end_ m).Pairwise (fun a b => a.1 < b.1) := by
  refine List.Pairwise.filterMap shown ?_ (Sorted.sublist List.filter_sublist hs)
  intro a b hab x hx y hy
  rw [(shown_eq_some.mp hx).2, (shown_eq_some.mp hy).2]
  exact hab

/-! ## Whole sessions -/

/-- **The tree refines an ordered map.**  After any sequence of calls, the next call
answers `Ok` only as the map does, a lookup reports the map's entry, and a range
scan, which succeeds whenever its descent does, yields exactly the entries of its
interval that are not tombstones, in increasing key order. -/
theorem session_refines (calls : List Call) :
    (∀ c r, ((session calls).1.call c).1 = .ok r → ∃ m', (session calls).2.call c = some (r, m')) ∧
    (∀ k r, (session calls).1.lookup k = .ok r → r = reported (get k (session calls).2)) ∧
    (∀ start end_ items, (session calls).1.rangeScan start end_ = .ok items →
      items.Pairwise (fun a b => a.1 < b.1) ∧ ∀ k r, (k, r) ∈ items ↔ start ≤ k ∧ k < end_ ∧
        ∃ v, get k (session calls).2 = some v ∧ v ≠ .tombstone ∧ r = v.toLookup) ∧
    (∀ start end_ leaf, (session calls).1.findLeaf start = .ok leaf →
      ∃ items, (session calls).1.rangeScan start end_ = .ok items) := by
  have h := session_state calls
  have hs := h.sorted
  obtain ⟨T, hT, ht⟩ := h
  refine ⟨?_, fun k r hr => lookup_reported hT ht hr, ?_, ?_⟩
  · intro c r hr
    have ha := call_answers (session_state calls) c
    cases hx : (session calls).1.call c with
    | mk r' t' =>
      rw [hx] at ha hr
      subst hr
      obtain ⟨m', hm, -⟩ := ha
      exact ⟨m', hm⟩
  · intro start end_ items hitems
    rw [rangeScan_eq hT ht trivial] at hitems
    split at hitems
    · cases hitems
    · cases hitems
      exact ⟨visible_increasing hs start end_, fun k r => mem_visible hs⟩
  · intro start end_ leaf hl
    exact ⟨_, by rw [rangeScan_eq hT ht trivial, hl]⟩

end BTree

end SeerDb
