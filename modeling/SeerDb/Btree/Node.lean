/-
# `SeerDb.Btree.Node` — the slotted page

A node is a 4 KiB page: a 48-byte header, a slot array growing up from it, and
entries growing down from the end of the page.  The model keeps the entries in
slot order and accounts for their bytes: entries stand back to back and every removal
rebuilds the page, so an insertion is refused exactly when the slot array would run
into the entries.

New entries are never prefix-compressed (`prefix_len` is written as 0), so the
decoder branches for compressed pages of an older format are not modelled.
-/
import SeerDb.Lib.BinarySearch
import SeerDb.Lib.BPlusTree
import Mathlib.Data.List.Lex

namespace SeerDb

instance byteOrder : LinearOrder UInt8 where
  le_refl a := UInt8.le_refl a
  le_trans _ _ _ := UInt8.le_trans
  le_antisymm _ _ := UInt8.le_antisymm
  le_total a b := UInt8.le_total a b
  lt_iff_le_not_ge a b := by simp [UInt8.le_iff_toNat_le, UInt8.lt_iff_toNat_lt]; omega
  toDecidableLE := inferInstance
  toDecidableEq := inferInstance
  toDecidableLT := inferInstance
  compare_eq_compareOfLessAndEq _ _ := rfl

abbrev Bytes := List UInt8

/-- Logical page ids; the source's are `u32`, with the width checked where it checks it. -/
abbrev PageId := Nat

def u32Max : Nat := 4294967295

def pageSize : Nat := 4096
def headerSize : Nat := 48
def slotSize : Nat := 4
def blobPointerSize : Nat := 16
def maxKeySize : Nat := pageSize - headerSize - 4 - 4 - 8

structure BlobPointer where
  fileId : Nat
  offset : Nat
  length : Nat
deriving DecidableEq, Repr

/-- A leaf entry's value: `ValueRef` when read, `ValueType` and payload when written. -/
inductive Value where
  | inline (data : Bytes)
  | blob (pointer : BlobPointer)
  | tombstone
deriving DecidableEq, Repr

/-- Payload bytes of a value. -/
def Value.len : Value → Nat
  | .inline data => data.length
  | .blob _ => blobPointerSize
  | .tombstone => 0

inductive InsertError where
  | pageFull
  | entryTooLarge
  | wrongNodeType
  | invalidIndex (index : Nat)
  | valueSizeMismatch (expected actual : Nat)
  | duplicateKey (index : Nat)
deriving DecidableEq, Repr

inductive SplitError where
  | tooFewKeys
  | corruption
  | insertFailed
deriving DecidableEq, Repr

/-- A page: its entries in slot order, and the header fields that are not
functions of them. -/
structure Node where
  body : Lib.Page Bytes Value
  parentId : Nat
  writeGeneration : Nat
deriving DecidableEq, Repr

namespace Node

def newLeaf : Node := ⟨.leaf [], 0, 0⟩
def newInternal : Node := ⟨.inner 0 [], 0, 0⟩

/-! ## Access -/

def isLeaf (n : Node) : Bool := match n.body with
  | .leaf _ => true
  | .inner _ _ => false

def isInternal (n : Node) : Bool := match n.body with
  | .leaf _ => false
  | .inner _ _ => true

def keys (n : Node) : List Bytes := match n.body with
  | .leaf es => es.map Prod.fst
  | .inner _ cs => cs.map Prod.fst

def count (n : Node) : Nat := n.keys.length

def key (n : Node) (index : Nat) : Option Bytes := n.keys[index]?

def value (n : Node) (index : Nat) : Option Value := match n.body with
  | .leaf es => es[index]?.map Prod.snd
  | .inner _ _ => none

/-- The header's `leftmost_child`, which a leaf page leaves at 0. -/
def leftmostChild (n : Node) : Nat := match n.body with
  | .leaf _ => 0
  | .inner l _ => l

def childId (n : Node) (index : Nat) : Option Nat := match n.body with
  | .leaf _ => none
  | .inner _ cs => cs[index]?.map Prod.snd

/-- `compare_key`; the loops below only ask for indices below `count`. -/
def compareKey (n : Node) (index : Nat) (key : Bytes) : Ordering :=
  match n.key index with
  | some stored => Lib.order stored key
  | none => .gt

/-- The comparison `child_for_key` branches on: an equal separator counts as smaller. -/
def compareSeparator (n : Node) (key : Bytes) (index : Nat) : Ordering :=
  match n.compareKey index key with
  | .lt => .lt
  | .eq => .lt
  | .gt => .gt

/-- Upper-bound search over the separators: an equal one routes right. -/
def childForKey (n : Node) (key : Bytes) : Option Nat :=
  if n.isInternal then
    let lo := (Lib.bisect (n.compareSeparator key) n.count 0 n.count none).1
    if lo = 0 then some n.leftmostChild else n.childId (lo - 1)
  else none

/-- Binary search: `ok` is the index of the key, `error` where it would go. -/
def search (n : Node) (key : Bytes) : Except Nat Nat :=
  if n.count = 0 then .error 0
  else match Lib.bisect (fun i => n.compareKey i key) n.count 0 n.count none with
    | (_, some index) => .ok index
    | (lo, none) => .error lo

/-! ## Byte accounting -/

def leafEntrySize (e : Bytes × Value) : Nat := 4 + e.1.length + 1 + e.2.len
def internalEntrySize (e : Bytes × Nat) : Nat := 4 + e.1.length + 8

/-- Bytes taken by the page's entries. -/
def entryBytes (n : Node) : Nat := match n.body with
  | .leaf es => (es.map leafEntrySize).sum
  | .inner _ cs => (cs.map internalEntrySize).sum

/-- Where an entry of this size would start: right below the lowest one. -/
def newEntryOffset (n : Node) (entrySize : Nat) : Option Nat :=
  if n.count = 0 then some (pageSize - entrySize)
  else if pageSize - n.entryBytes < entrySize then none
  else some (pageSize - n.entryBytes - entrySize)

/-- The admission check both raw insertions make. -/
def admitEntry (n : Node) (entrySize : Nat) : Except InsertError Unit :=
  if entrySize > pageSize - headerSize - slotSize then .error .entryTooLarge
  else match n.newEntryOffset entrySize with
    | none => .error .pageFull
    | some entryOffset =>
      if headerSize + (n.count + 1) * slotSize + slotSize > entryOffset then .error .pageFull
      else .ok ()

/-! ## Leaf mutation -/

def insertLeafValue (n : Node) (key : Bytes) (value : Value) (insertionPoint : Nat) :
    Except InsertError Node :=
  match n.body with
  | .inner _ _ => .error .wrongNodeType
  | .leaf es =>
    if insertionPoint > es.length then .error .wrongNodeType
    else match n.admitEntry (leafEntrySize (key, value)) with
      | .error e => .error e
      | .ok () => .ok { n with body := .leaf (es.insertIdx insertionPoint (key, value)) }

/-- What `insert` and `insert_blob` share: refuse a present key, else insert. -/
def insertNew (n : Node) (key : Bytes) (value : Value) : Except InsertError Node :=
  if n.isLeaf then
    match n.search key with
    | .ok index => .error (.duplicateKey index)
    | .error insertionPoint => n.insertLeafValue key value insertionPoint
  else .error .wrongNodeType

def insert (n : Node) (key value : Bytes) : Except InsertError Node :=
  n.insertNew key (.inline value)

def insertBlob (n : Node) (key : Bytes) (pointer : BlobPointer) : Except InsertError Node :=
  n.insertNew key (.blob pointer)

/-- The end of the run of entries equal to `key`. -/
def upperBound (n : Node) (key : Bytes) : Nat :=
  let index := match n.search key with
    | .ok i => i
    | .error i => i
  index + ((n.keys.drop index).takeWhile (fun k => k = key)).length

/-- Overwrite an inline value in place; the sizes must agree. -/
def replaceValue (n : Node) (index : Nat) (newValue : Bytes) : Except InsertError Node :=
  match n.body with
  | .inner _ _ => .error .wrongNodeType
  | .leaf es => match es[index]? with
    | none => .error (.invalidIndex index)
    | some (key, .inline old) =>
      if newValue.length ≠ old.length then
        .error (.valueSizeMismatch old.length newValue.length)
      else .ok { n with body := .leaf (es.set index (key, .inline newValue)) }
    | some _ => .error .wrongNodeType

/-- Write entries one after another, each behind the entries equal to it. -/
def rebuildLeaf (n : Node) : List (Bytes × Value) → Except InsertError Node
  | [] => .ok n
  | e :: es => match n.insertLeafValue e.1 e.2 (n.upperBound e.1) with
    | .error err => .error err
    | .ok n' => n'.rebuildLeaf es

def removeEntry (n : Node) (index : Nat) : Except InsertError Node :=
  match n.body with
  | .inner _ _ => .error .wrongNodeType
  | .leaf es =>
    if index ≥ es.length then .error .wrongNodeType
    else { newLeaf with parentId := n.parentId }.rebuildLeaf (es.eraseIdx index)

/-- `while let Ok(i) = search(key) { remove_entry(i)? }`; a page of `fuel` entries
has no more than that many to remove. -/
def removeDuplicates (key : Bytes) : Nat → Node → Except InsertError Node
  | 0, n => .ok n
  | fuel + 1, n => match n.search key with
    | .error _ => .ok n
    | .ok index => match n.removeEntry index with
      | .error e => .error e
      | .ok n' => removeDuplicates key fuel n'

/-- Replace a value by one of another size.  On an error the page is the original. -/
def replaceValueResized (n : Node) (index : Nat) (newValue : Bytes) : Except InsertError Node :=
  if !n.isLeaf || index ≥ n.count then .error .wrongNodeType
  else match n.key index with
    | none => .error .wrongNodeType
    | some key => match n.removeEntry index with
      | .error e => .error e
      | .ok n₁ => match removeDuplicates key n₁.count n₁ with
        | .error e => .error e
        | .ok n₂ => n₂.insert key newValue

/-- Replace the entry of `key`, if any, by a tombstone.  The page is also returned
on an error: the removal of the old entry is not undone. -/
def insertTombstone (n : Node) (key : Bytes) : Except InsertError Unit × Node :=
  if n.isLeaf then
    match n.search key with
    | .error insertionPoint => finish n insertionPoint
    | .ok index => match n.removeEntry index with
      | .error e => (.error e, n)
      | .ok n' => finish n' (match n'.search key with
        | .ok i => i
        | .error i => i)
  else (.error .wrongNodeType, n)
where
  finish (n : Node) (insertionPoint : Nat) : Except InsertError Unit × Node :=
    match n.insertLeafValue key .tombstone insertionPoint with
    | .error e => (.error e, n)
    | .ok n' => (.ok (), n')

/-! ## Internal mutation -/

def insertChild (n : Node) (key : Bytes) (child : Nat) : Except InsertError Node :=
  match n.body with
  | .leaf _ => .error .wrongNodeType
  | .inner l cs =>
    let insertionPoint := match n.search key with
      | .ok i => i
      | .error i => i
    match n.admitEntry (internalEntrySize (key, child)) with
    | .error e => .error e
    | .ok () => .ok { n with body := .inner l (cs.insertIdx insertionPoint (key, child)) }

def rebuildInternal (n : Node) : List (Bytes × Nat) → Except InsertError Node
  | [] => .ok n
  | e :: cs => match n.insertChild e.1 e.2 with
    | .error err => .error err
    | .ok n' => n'.rebuildInternal cs

/-! ## Split -/

/-- Split at the middle entry: the median key, what the page keeps, the new right
page.  The median of a leaf stays in the right page; the median of an internal
page moves up and its child becomes the right page's leftmost. -/
def split (n : Node) : Except SplitError (Bytes × Node × Node) :=
  let mid := n.count / 2
  if n.count < 2 then .error .tooFewKeys
  else match n.key mid with
    | none => .error .corruption
    | some medianKey => match n.body with
      | .leaf es =>
        match newLeaf.rebuildLeaf (es.drop mid),
          { newLeaf with parentId := n.parentId }.rebuildLeaf (es.take mid) with
        | .ok right, .ok left => .ok (medianKey, left, right)
        | _, _ => .error .insertFailed
      | .inner l cs => match n.childId mid with
        | none => .error .corruption
        | some rightLeftmost =>
          match { newInternal with body := .inner rightLeftmost [] }.rebuildInternal
              (cs.drop (mid + 1)),
            { body := .inner l [], parentId := n.parentId, writeGeneration := 0 : Node
              }.rebuildInternal (cs.take mid) with
          | .ok right, .ok left => .ok (medianKey, left, right)
          | _, _ => .error .insertFailed

def setParentId (n : Node) (parentId : Nat) : Node := { n with parentId }

/-- The child edges in slot order, leftmost first. -/
def children (n : Node) : List Nat := match n.body with
  | .leaf _ => []
  | .inner l cs => l :: cs.map Prod.snd

end Node

end SeerDb
