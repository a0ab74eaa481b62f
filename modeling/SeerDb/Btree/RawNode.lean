/-
# `SeerDb.Btree.RawNode` — a page as its 4096 bytes

`btree/node/page_format.rs` and `btree/node/access.rs`: the header, the slot array, the
reads that decode an entry, the two searches, and the check a page read from disk has to
pass.  An entry is

    prefix_len:2 | suffix_len:2 | suffix | value_type:1 | value      (leaf page)
    prefix_len:2 | suffix_len:2 | suffix | child:8                   (internal page)

and its key is the first `prefix_len` bytes of the key before it, then the suffix.
The length of an inline value is not stored: it ends where the next entry in the page
begins.

Every index into the page that the code computes from page contents is a checked read
here.  `SeerDb.Btree.Node` is the same page as a list of entries.
-/
import SeerDb.Encoding
import Mathlib.Data.List.Sort

namespace SeerDb

open Lib

/-! ## Header -/

/-- `SEER`. -/
def pageMagic : Nat := 0x53454552
def pageVersion : Nat := 3

inductive PageType where
  | internal
  | leaf
deriving DecidableEq, Repr

def PageType.code : PageType → Nat
  | .internal => 1
  | .leaf => 2

inductive ValueType where
  | inline
  | blobPointer
  | tombstone
deriving DecidableEq, Repr

def ValueType.code : ValueType → UInt8
  | .inline => 0
  | .blobPointer => 1
  | .tombstone => 2

def BlobPointer.toBytes (p : BlobPointer) : Bytes :=
  toLe 4 p.fileId ++ (toLe 8 p.offset ++ toLe 4 p.length)

def BlobPointer.fromBytes (buf : Bytes) : BlobPointer := ⟨leAt buf 0 4, leAt buf 4 8, leAt buf 12 4⟩

structure NodeHeader where
  magic : Nat
  version : Nat
  pageType : PageType
  count : Nat
  freeSpace : Nat
  checksum : Nat
  parentId : Nat
  leftmostChild : Nat
  writeGeneration : Nat
deriving DecidableEq, Repr

namespace NodeHeader

def toBytes (h : NodeHeader) : Bytes :=
  toLe 4 h.magic ++ (toLe 4 h.version ++ (toLe 4 h.pageType.code ++ (toLe 4 h.count ++
    (toLe 4 h.freeSpace ++ (toLe 8 h.checksum ++ (toLe 4 h.parentId ++ (toLe 8 h.leftmostChild ++
      toLe 8 h.writeGeneration)))))))

/-- An unknown page type reads as a leaf. -/
def fromBytes (buf : Bytes) : NodeHeader where
  magic := leAt buf 0 4
  version := leAt buf 4 4
  pageType := if leAt buf 8 4 = 1 then .internal else .leaf
  count := leAt buf 12 4
  freeSpace := leAt buf 16 4
  checksum := leAt buf 20 8
  parentId := leAt buf 28 4
  leftmostChild := leAt buf 32 8
  writeGeneration := leAt buf 40 8

def isValid (h : NodeHeader) : Bool := h.magic = pageMagic && h.version = pageVersion

/-- `from_bytes`, refusing unknown page types. -/
def tryFromBytes (buf : Bytes) : Option NodeHeader :=
  if leAt buf 8 4 = 1 ∨ leAt buf 8 4 = 2 then
    if (fromBytes buf).isValid then some (fromBytes buf) else none
  else none

def new (pageType : PageType) : NodeHeader :=
  ⟨pageMagic, pageVersion, pageType, 0, pageSize - headerSize, 0, 0, 0, 0⟩

end NodeHeader

/-! ## The page -/

/-- The buffer of a page; `size` is the array length in its type. -/
structure RawNode where
  data : Bytes
  size : data.length = pageSize
deriving DecidableEq

namespace RawNode

def header (n : RawNode) : NodeHeader := .fromBytes (slice n.data 0 headerSize)

def count (n : RawNode) : Nat := n.header.count

def isLeaf (n : RawNode) : Bool := n.header.pageType = .leaf

def isInternal (n : RawNode) : Bool := n.header.pageType = .internal

def leftmostChild (n : RawNode) : Nat := n.header.leftmostChild

def parentId (n : RawNode) : Nat := n.header.parentId

/-- `u16::from_le_bytes([data[start], data[start + 1]])`. -/
def readU16 (n : RawNode) (start : Nat) : Except Panic Nat := do
  let low ← readAt n.data start
  let high ← readAt n.data (start + 1)
  return ofLe [low, high]

/-! ## Slots and entries -/

def slotArrayStart : Nat := headerSize

def slotOffset (n : RawNode) (index : Nat) : Except Panic Nat :=
  n.readU16 (slotArrayStart + index * slotSize)

def slotKeyLen (n : RawNode) (index : Nat) : Except Panic Nat :=
  n.readU16 (slotArrayStart + index * slotSize + 2)

def entryPrefixLen (n : RawNode) (index : Nat) : Except Panic Nat := do
  n.readU16 (← n.slotOffset index)

def entrySuffixLen (n : RawNode) (index : Nat) : Except Panic Nat := do
  n.readU16 ((← n.slotOffset index) + 2)

def hasPrefixCompression (n : RawNode) : Except Panic Bool :=
  (List.range n.count).anyM fun index => do return (← n.entryPrefixLen index) != 0

/-- The part of the key that the entry holds itself. -/
def entrySuffix (n : RawNode) (index : Nat) : Except Panic Bytes := do
  let suffixLen ← n.entrySuffixLen index
  let suffixStart := (← n.slotOffset index) + 4
  readRange n.data suffixStart (suffixStart + suffixLen)

/-- The key at a slot: a prefix of the key before it, then the entry's suffix. -/
def key (n : RawNode) : Nat → Except Panic (Option Bytes)
  | 0 =>
    if 0 ≥ n.count then return none
    else do
      let _ ← n.entryPrefixLen 0
      return some (← n.entrySuffix 0)
  | index + 1 =>
    if index + 1 ≥ n.count then return none
    else do
      let prefixLen ← n.entryPrefixLen (index + 1)
      let suffix ← n.entrySuffix (index + 1)
      if prefixLen = 0 then return some suffix
      else match ← n.key index with
        | none => return none
        | some prevKey =>
          if prefixLen > prevKey.length then return none
          else return some (prevKey.take prefixLen ++ suffix)

/-- Where the entry at `thisOffset` ends: at the next higher of the other offsets. -/
def valueEnd (n : RawNode) (index thisOffset : Nat) : Except Panic Nat := do
  let offsets ← ((List.range n.count).filter (· ≠ index)).mapM n.slotOffset
  return (offsets.filter (thisOffset < ·)).min?.getD pageSize

def value (n : RawNode) (index : Nat) : Except Panic (Option Value) :=
  if index ≥ n.count || !n.isLeaf then return none
  else do
    let entryOff ← n.slotOffset index
    let suffixLen ← n.entrySuffixLen index
    let vtOff := entryOff + 4 + suffixLen
    let valueType ← readAt n.data vtOff
    if valueType = ValueType.inline.code then
      return some (.inline (← readRange n.data (vtOff + 1) (← n.valueEnd index entryOff)))
    else if valueType = ValueType.blobPointer.code then
      return some (.blob (.fromBytes (← readRange n.data (vtOff + 1)
        (vtOff + 1 + blobPointerSize))))
    else if valueType = ValueType.tombstone.code then return some .tombstone
    else return none

def childId (n : RawNode) (index : Nat) : Except Panic (Option Nat) :=
  if index ≥ n.count || !n.isInternal then return none
  else do
    let entryOff ← n.slotOffset index
    let suffixLen ← n.entrySuffixLen index
    let childOff := entryOff + 4 + suffixLen
    if childOff + 8 > pageSize then return none
    else return some (ofLe (← readRange n.data childOff (childOff + 8)))

/-! ## Searching -/

/-- A key stored as a whole is compared in place; `data.get` does not panic. -/
def compareKey (n : RawNode) (key : Bytes) (index : Nat) : Except Panic (Option Ordering) :=
  if index ≥ n.count then return none
  else do
    let prefixLen ← n.entryPrefixLen index
    let suffixLen ← n.entrySuffixLen index
    if prefixLen = 0 then
      let start := (← n.slotOffset index) + 4
      if start + suffixLen ≤ n.data.length then
        return some (order (slice n.data start suffixLen) key)
      else return none
    else return (← n.key index).map fun stored => order stored key

/-- The comparison of `child_for_key`: an equal separator counts as smaller. -/
def compareSeparator (n : RawNode) (key : Bytes) (index : Nat) :
    Except Panic (Option Ordering) := do
  return (← n.compareKey key index).map fun
    | .lt => .lt
    | .eq => .lt
    | .gt => .gt

def childForKey (n : RawNode) (key : Bytes) : Except Panic (Option Nat) :=
  if !n.isInternal then return none
  else do
    match ← bisectM (n.compareSeparator key) n.count 0 n.count none with
    | .error _ => return none
    | .ok (lo, _) => if lo = 0 then return some n.leftmostChild else n.childId (lo - 1)

/-- `ok` is the first index of the key, `error` where it would go. -/
def search (n : RawNode) (key : Bytes) : Except Panic (Except Nat Nat) :=
  if n.count = 0 then return .error 0
  else do
    match ← bisectM (n.compareKey key) n.count 0 n.count none with
    | .error mid => return .error mid
    | .ok (_, some index) => return .ok index
    | .ok (lo, none) => return .error lo

def keys (n : RawNode) : Except Panic (List Bytes) := do
  return (← (List.range n.count).mapM n.key).filterMap id

/-! ## The check of a page read from disk -/

/-- The payload behind the key: a child id, or a value type with room for its value. -/
def validatePayload (n : RawNode) (suffixEnd entryEnd : Nat) : Except Panic Bool :=
  if n.isInternal then return decide (suffixEnd + 8 ≤ entryEnd)
  else if suffixEnd ≥ entryEnd then return false
  else do
    let valueType ← readAt n.data suffixEnd
    if valueType = ValueType.inline.code ∨ valueType = ValueType.tombstone.code then return true
    else if valueType = ValueType.blobPointer.code then
      return decide (suffixEnd + 1 + blobPointerSize ≤ entryEnd)
    else return false

/-- The loop over the entries, from slot `index` on; `previousKey` is the key before it. -/
def validateEntries (n : RawNode) (sortedOffsets : List Nat) :
    Nat → List Nat → Bytes → Except Panic Bool
  | _, [], _ => return true
  | index, offset :: offsets, previousKey =>
    match sortedOffsets.idxOf? offset with
    | none => return false
    | some sortedIndex => do
      let entryEnd := sortedOffsets[sortedIndex + 1]?.getD pageSize
      if entryEnd ≤ offset ∨ entryEnd > pageSize ∨ offset + 4 > entryEnd then return false
      else
        let prefixLen ← n.entryPrefixLen index
        let suffixLen ← n.entrySuffixLen index
        let suffixEnd := offset + (4 + suffixLen)
        if suffixEnd > entryEnd then return false
        else if (← n.slotKeyLen index) ≠ prefixLen + suffixLen then return false
        else if prefixLen > previousKey.length then return false
        else
          let keySuffix ← readRange n.data (offset + 4) suffixEnd
          let key := previousKey.take prefixLen ++ keySuffix
          if previousKey > key then return false
          else if !(← n.validatePayload suffixEnd entryEnd) then return false
          else n.validateEntries sortedOffsets (index + 1) offsets key

def validateLayout (n : RawNode) : Except Panic Bool :=
  let slotEnd := headerSize + n.count * slotSize
  if n.count > (pageSize - headerSize) / slotSize ∨ slotEnd > pageSize then return false
  else do
    let offsets ← (List.range n.count).mapM n.slotOffset
    if offsets.any fun offset => offset < slotEnd || offset ≥ pageSize then return false
    else
      let sortedOffsets := offsets.insertionSort (· ≤ ·)
      if (sortedOffsets.zip sortedOffsets.tail).any fun window =>
        window.1 = window.2 then return false
      else if n.header.freeSpace ≠ offsets.min?.getD pageSize - slotEnd then return false
      else n.validateEntries sortedOffsets 0 offsets []

/-- The page, if its header and its layout are valid. -/
def fromBytes (data : RawNode) : Except Panic (Option RawNode) :=
  match NodeHeader.tryFromBytes (slice data.data 0 headerSize) with
  | none => return none
  | some _ => do if ← data.validateLayout then return some data else return none

end RawNode

end SeerDb
