/-
# `SeerDb.Btree.RawMutation` — the page operations on bytes

`btree/node/mutation.rs` on the buffer itself: where an entry's bytes go, how the slots
behind it move up, which header fields change.  An error leaves the page as it was, except
where the source returns after it has already changed it; those functions return the page
with the error.

What stands behind the key (a type byte and a value) is one range of bytes here, although
the source writes it in two steps.
-/
import SeerDb.Btree.RawNode

namespace SeerDb

open Lib

theorem NodeHeader.length_toBytes (h : NodeHeader) : h.toBytes.length = headerSize := by
  simp [toBytes, headerSize]

/-- What stands behind the key of a leaf entry. -/
def Value.payload : Value → Bytes
  | .inline data => ValueType.inline.code :: data
  | .blob pointer => ValueType.blobPointer.code :: pointer.toBytes
  | .tombstone => [ValueType.tombstone.code]

namespace RawNode

/-! ## Writes -/

/-- `data[start..start + bytes.len()].copy_from_slice(bytes)`. -/
def write (n : RawNode) (start : Nat) (bytes : Bytes) : Except Panic RawNode :=
  if h : start + bytes.length ≤ pageSize then
    .ok ⟨splice n.data start bytes, (length_splice (n.size ▸ h)).trans n.size⟩
  else .error .outOfBounds

def setHeader (n : RawNode) (h : NodeHeader) : RawNode where
  data := splice n.data 0 h.toBytes
  size := by
    rw [length_splice, n.size]
    rw [h.length_toBytes, n.size]
    decide

def setSlotOffset (n : RawNode) (index offset : Nat) : Except Panic RawNode :=
  n.write (slotArrayStart + index * slotSize) (toLe 2 offset)

def setSlotKeyLen (n : RawNode) (index keyLen : Nat) : Except Panic RawNode :=
  n.write (slotArrayStart + index * slotSize + 2) (toLe 2 keyLen)

def setParentId (n : RawNode) (parentId : Nat) : RawNode := n.setHeader { n.header with parentId }

def new (pageType : PageType) : RawNode :=
  setHeader ⟨List.replicate pageSize 0, List.length_replicate⟩ (.new pageType)

def newLeaf : RawNode := new .leaf

/-! ## Inserting an entry -/

/-- The lowest entry offset. -/
def minOffset (n : RawNode) (count : Nat) : Except Panic Nat := do
  return (← (List.range count).mapM n.slotOffset).min?.getD pageSize

def newEntryOffset (n : RawNode) (entrySize : Nat) : Except Panic (Option Nat) :=
  if n.count = 0 then do return some (← checkedSub pageSize entrySize)
  else do
    let min ← n.minOffset n.count
    if min < entrySize then return none else return some (min - entrySize)

/-- `for index in (insertion_point..insertion_point + remaining).rev()`: move each slot up
by one. -/
def shiftSlots (insertionPoint : Nat) : Nat → RawNode → Except Panic RawNode
  | 0, n => return n
  | remaining + 1, n => do
    let index := insertionPoint + remaining
    let oldOffset ← n.slotOffset index
    let oldKeyLen ← n.slotKeyLen index
    let n ← n.setSlotOffset (index + 1) oldOffset
    let n ← n.setSlotKeyLen (index + 1) oldKeyLen
    shiftSlots insertionPoint remaining n

/-- `insert_leaf_value_raw` behind its type check; the key is stored whole. -/
def insertEntryRaw (n : RawNode) (key payload : Bytes) (insertionPoint : Nat) :
    Except Panic (Except InsertError RawNode) :=
  let entrySize := 4 + key.length + payload.length
  if entrySize > pageSize - headerSize - slotSize then return .error .entryTooLarge
  else do
    let count := n.count
    let slotArrayEnd := slotArrayStart + (count + 1) * slotSize
    match ← n.newEntryOffset entrySize with
    | none => return .error .pageFull
    | some entryOffset =>
      if slotArrayEnd + slotSize > entryOffset then return .error .pageFull
      else
        let n ← n.write entryOffset (toLe 2 0)
        let n ← n.write (entryOffset + 2) (toLe 2 key.length)
        let n ← n.write (entryOffset + 4) key
        let n ← n.write (entryOffset + 4 + key.length) payload
        let n ← shiftSlots insertionPoint (count - insertionPoint) n
        let n ← n.setSlotOffset insertionPoint entryOffset
        let n ← n.setSlotKeyLen insertionPoint key.length
        let newCount := n.header.count + 1
        let minEntry ← n.minOffset newCount
        let freeSpace ← checkedSub minEntry (slotArrayStart + newCount * slotSize)
        return .ok (n.setHeader { n.header with count := newCount, freeSpace })

def insertLeafValueRaw (n : RawNode) (key : Bytes) (value : Value) (insertionPoint : Nat) :
    Except Panic (Except InsertError RawNode) :=
  if !n.isLeaf then return .error .wrongNodeType
  else n.insertEntryRaw key value.payload insertionPoint

/-! ## Rebuilding a compressed page -/

/-- The entry at a slot as `key` and `value` return it. -/
def entryAt (n : RawNode) (index : Nat) : Except Panic (Except InsertError (Bytes × Value)) := do
  match ← n.key index with
  | none => return .error .wrongNodeType
  | some key => match ← n.value index with
    | none => return .error .wrongNodeType
    | some value => return .ok (key, value)

def readEntries (n : RawNode) : List Nat → Except Panic (Except InsertError (List (Bytes × Value)))
  | [] => return .ok []
  | index :: indices => do
    match ← n.entryAt index with
    | .error e => return .error e
    | .ok entry => match ← n.readEntries indices with
      | .error e => return .error e
      | .ok entries => return .ok (entry :: entries)

/-- Write entries one behind the other. -/
def appendEntries (n : RawNode) : List (Bytes × Value) → Except Panic (Except InsertError RawNode)
  | [] => return .ok n
  | entry :: entries => do
    match ← n.insertLeafValueRaw entry.1 entry.2 n.count with
    | .error e => return .error e
    | .ok n => n.appendEntries entries

def insertLeafValue (n : RawNode) (key : Bytes) (value : Value) (insertionPoint : Nat) :
    Except Panic (Except InsertError RawNode) :=
  if !n.isLeaf || insertionPoint > n.count then return .error .wrongNodeType
  else do
    -- a compressed page is written anew: the key after the insertion point loses its prefix
    if ← (if insertionPoint < n.count then n.hasPrefixCompression else return false) then
      match ← n.readEntries (List.range n.count) with
      | .error e => return .error e
      | .ok entries =>
        (newLeaf.setParentId n.parentId).appendEntries
          (entries.insertIdx insertionPoint (key, value))
    else n.insertLeafValueRaw key value insertionPoint

/-! ## Leaf operations -/

/-- What `insert` and `insert_blob` share. -/
def insertNew (n : RawNode) (key : Bytes) (value : Value) :
    Except Panic (Except InsertError RawNode) :=
  if !n.isLeaf then return .error .wrongNodeType
  else do
    match ← n.search key with
    | .ok index => return .error (.duplicateKey index)
    | .error insertionPoint => n.insertLeafValue key value insertionPoint

def insert (n : RawNode) (key value : Bytes) : Except Panic (Except InsertError RawNode) :=
  n.insertNew key (.inline value)

def insertBlob (n : RawNode) (key : Bytes) (pointer : BlobPointer) :
    Except Panic (Except InsertError RawNode) := n.insertNew key (.blob pointer)

/-- `while index < count && key(index) == key`, for at most `fuel` turns. -/
def skipEqual (n : RawNode) (key : Bytes) : Nat → Nat → Except Panic Nat
  | 0, index => return index
  | fuel + 1, index =>
    if index < n.count then do
      if (← n.key index) = some key then n.skipEqual key fuel (index + 1) else return index
    else return index

def upperBound (n : RawNode) (key : Bytes) : Except Panic Nat := do
  match ← n.search key with
  | .ok index => n.skipEqual key n.count index
  | .error index => n.skipEqual key n.count index

def replaceValue (n : RawNode) (index : Nat) (newValue : Bytes) :
    Except Panic (Except InsertError RawNode) :=
  if !n.isLeaf then return .error .wrongNodeType
  else if index ≥ n.count then return .error (.invalidIndex index)
  else do
    let entryOff ← n.slotOffset index
    let suffixLen ← n.entrySuffixLen index
    let vtOff := entryOff + 4 + suffixLen
    let valStart := vtOff + 1
    if (← readAt n.data vtOff) ≠ ValueType.inline.code then return .error .wrongNodeType
    else
      let valEnd ← n.valueEnd index entryOff
      if valEnd < valStart then return .error .wrongNodeType
      else if newValue.length ≠ valEnd - valStart then
        return .error (.valueSizeMismatch (valEnd - valStart) newValue.length)
      else
        let n ← n.write valStart newValue
        return .ok (← n.write vtOff [ValueType.inline.code])

/-- Write entries one after another, each behind the entries equal to it. -/
def rebuildLeaf (n : RawNode) : List (Bytes × Value) → Except Panic (Except InsertError RawNode)
  | [] => return .ok n
  | entry :: entries => do
    match ← n.insertLeafValue entry.1 entry.2 (← n.upperBound entry.1) with
    | .error e => return .error e
    | .ok n => n.rebuildLeaf entries

def removeEntry (n : RawNode) (index : Nat) : Except Panic (Except InsertError RawNode) :=
  if !n.isLeaf || index ≥ n.count then return .error .wrongNodeType
  else do
    match ← n.readEntries ((List.range n.count).filter (· ≠ index)) with
    | .error e => return .error e
    | .ok entries => (newLeaf.setParentId n.parentId).rebuildLeaf entries

/-- `while let Ok(i) = search(key) { remove_entry(i)? }`; every turn removes an entry. -/
def removeDuplicates (key : Bytes) : Nat → RawNode →
    Except Panic (Except InsertError Unit × RawNode)
  | 0, n => return (.ok (), n)
  | fuel + 1, n => do
    match ← n.search key with
    | .error _ => return (.ok (), n)
    | .ok index => match ← n.removeEntry index with
      | .error e => return (.error e, n)
      | .ok n => removeDuplicates key fuel n

def replaceValueResized (n : RawNode) (index : Nat) (newValue : Bytes) :
    Except Panic (Except InsertError Unit × RawNode) :=
  if !n.isLeaf || index ≥ n.count then return (.error .wrongNodeType, n)
  else do
    match ← n.key index with
    | none => return (.error .wrongNodeType, n)
    | some key => match ← n.removeEntry index with
      | .error e => return (.error e, n)
      | .ok removed => match ← removeDuplicates key removed.count removed with
        | (.error e, left) => return (.error e, left)
        | (.ok (), left) => match ← left.insert key newValue with
          | .error e => return (.error e, n)
          | .ok n' => return (.ok (), n')

def insertTombstone (n : RawNode) (key : Bytes) :
    Except Panic (Except InsertError Unit × RawNode) :=
  if !n.isLeaf then return (.error .wrongNodeType, n)
  else do
    match ← n.search key with
    | .error insertionPoint => finish n insertionPoint
    | .ok index => match ← n.removeEntry index with
      | .error e => return (.error e, n)
      | .ok n' => match ← n'.search key with
        | .ok i => finish n' i
        | .error i => finish n' i
where
  finish (n : RawNode) (insertionPoint : Nat) :
    Except Panic (Except InsertError Unit × RawNode) := do
    match ← n.insertLeafValue key .tombstone insertionPoint with
    | .error e => return (.error e, n)
    | .ok n' => return (.ok (), n')

end RawNode

end SeerDb
