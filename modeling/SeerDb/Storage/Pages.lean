/-
# `SeerDb.Storage.Pages` — the data file, the page mapping table and reads through it

`mvcc/pmt.rs`, `space/device.rs`, `storage/read_path.rs` and the traversals of
`storage/lazy_read.rs`.  A slot of the data file holds a page or bytes that no
page check accepts.  The parsed-page cache and the buffer pool are transparent
(their keys carry the mapping's version), so a read goes to the file.

A crash keeps every slot that was not written since the last sync; the others
hold an arbitrary page, and slots past the synced end may be gone.
-/
import SeerDb.Format
import SeerDb.Btree.Scan

namespace SeerDb

/-! ## The mapping table -/

structure PageMapping where
  fileId : Nat
  offset : Nat
  version : Nat
deriving DecidableEq, Repr

/-- Mappings in increasing page order. -/
structure PMT where
  mappings : List (PageId × PageMapping)
  nextVersion : Nat
deriving DecidableEq, Repr

namespace PMT

def new : PMT := ⟨[], 1⟩

def get (t : PMT) (pageId : PageId) : Option PageMapping := Lib.get pageId t.mappings

def insert (t : PMT) (pageId fileId offset : Nat) : PMT :=
  ⟨Lib.upsert pageId ⟨fileId, offset, t.nextVersion⟩ t.mappings, t.nextVersion + 1⟩

/-- Install a mapping of a checkpoint or delta under its own version. -/
def insertPersisted (t : PMT) (pageId : PageId) (mapping : PageMapping) : PMT :=
  ⟨Lib.upsert pageId mapping t.mappings, max t.nextVersion (mapping.version + 1)⟩

def remove (t : PMT) (pageId : PageId) : PMT := { t with mappings := Lib.erase pageId t.mappings }

def contains (t : PMT) (pageId : PageId) : Bool := (t.get pageId).isSome

def isEmpty (t : PMT) : Bool := t.mappings.isEmpty

/-- Drop the mappings, keep the version frontier. -/
def clear (t : PMT) : PMT := { t with mappings := [] }

def offsets (t : PMT) : List Nat := t.mappings.map (fun entry => entry.2.offset)

/-- The largest mapped page. -/
def maxPageId (t : PMT) : Option PageId := t.mappings.getLast?.map Prod.fst

/-- `from_bytes`: the version frontier is rebuilt from the stored mappings. -/
def ofMappings (mappings : List (PageId × PageMapping)) : PMT :=
  ⟨mappings, mappings.foldl (fun next entry => max next (entry.2.version + 1)) 1⟩

end PMT

/-! ## The data file -/

structure Device where
  page : Nat → Option Node
  size : Nat
  unsynced : List Nat

namespace Device

def empty : Device := ⟨fun _ => none, 0, []⟩

def writePage (d : Device) (offset : Nat) (n : Node) : Device where
  page o := if o = offset then some n else d.page o
  size := max d.size (offset + pageSize)
  unsynced := offset :: d.unsynced

def sync (d : Device) : Device := { d with unsynced := [] }

/-- `set_len` to a smaller size, synced. -/
def truncate (d : Device) (length : Nat) : Device where
  page o := if o + pageSize ≤ length then d.page o else none
  size := length
  unsynced := []

/-- `(0..size).step_by(PAGE_SIZE)`. -/
def slots (d : Device) : List Nat :=
  (List.range ((d.size + pageSize - 1) / pageSize)).map (· * pageSize)

structure Crash (d d' : Device) : Prop where
  size_le : d'.size ≤ d.size
  aligned : pageSize ∣ d'.size
  unsynced : d'.unsynced = []
  extent : ∀ o, o ∉ d.unsynced → o + pageSize ≤ d.size → o + pageSize ≤ d'.size
  kept : ∀ o, o ∉ d.unsynced → o + pageSize ≤ d.size → d'.page o = d.page o

end Device

/-- Read one logical page through a mapping table. -/
def readNodeFromPmt (dev : Device) (pmt : PMT) (pageId : PageId) : Except Error Node :=
  match pmt.get pageId with
  | none => .error (.corruption ("PMT missing page " ++ toString pageId))
  | some mapping =>
    if mapping.fileId ≠ 0 then .error (.corruption
      ("page " ++ toString pageId ++ " references unsupported file " ++ toString mapping.fileId))
    else if mapping.offset % pageSize ≠ 0 then .error (.corruption
      ("page " ++ toString pageId ++ " has unaligned offset " ++ toString mapping.offset))
    else if mapping.offset + pageSize > dev.size then .error (.corruption
      ("page " ++ toString pageId ++ " at offset " ++ toString mapping.offset ++
        " exceeds data file size " ++ toString dev.size))
    else match dev.page mapping.offset with
      | none => .error (.corruption ("invalid page " ++ toString pageId))
      | some n => .ok n

/-! ## Lookups and scans over stored pages -/

namespace Lazy

variable (page : PageId → Except Error Node)

def scanErrors : ScanErrors Error where
  pathCycle := .corruption "cycle detected during lazy range traversal"
  leafCycle := .corruption "cycle detected during lazy next-leaf traversal"
  childWidth := .corruption "lazy internal child ID exceeds logical width"
  childMalformed := .corruption "lazy internal child is malformed"
  unreachable := .corruption "lazy range leaf is not reachable from root"

def findLeafPage (key : Bytes) : Nat → PageId → List PageId → Except Error PageId
  | 0, _, _ => .error (.corruption "cycle detected during lazy B-tree descent")
  | fuel + 1, current, visited =>
    if current ∈ visited then .error (.corruption "cycle detected during lazy B-tree descent")
    else match page current with
      | .error e => .error e
      | .ok n =>
        if n.isLeaf then .ok current
        else match n.childForKey key with
          | none => .error (.corruption "lazy internal routing is malformed")
          | some child =>
            if child > u32Max then
              .error (.corruption "lazy internal child ID exceeds logical width")
            else findLeafPage key fuel child (current :: visited)

def lookup (fuel : Nat) (root : PageId) (key : Bytes) : Except Error LookupResult :=
  match findLeafPage page key fuel root [] with
  | .error e => .error e
  | .ok leafId => match page leafId with
    | .error e => .error e
    | .ok n => match n.search key with
      | .error _ => .ok .notFound
      | .ok index => match n.value index with
        | none => .error (.corruption "lazy leaf value payload is malformed")
        | some v => .ok v.toLookup

/-- What the scan of one leaf hands on: the entries so far, the last key seen, and
whether the end of the range was reached. -/
structure LeafScan where
  results : List (Bytes × LookupResult)
  previousKey : Option Bytes
  finished : Bool
deriving DecidableEq, Repr

/-- The inner loop of `range_lazy_with_pmt`, over the entries from `index` on. -/
def scanLeaf (n : Node) (start end_ : Bytes) : Nat → Nat → LeafScan → Except Error LeafScan
  | 0, _, s => .ok s
  | fuel + 1, index, s =>
    if index ≥ n.count then .ok s
    else match n.key index with
      | none => .error (.corruption "lazy range key is malformed")
      | some key =>
        if key ≥ end_ then .ok { s with finished := true }
        else if key < start then scanLeaf n start end_ fuel (index + 1) s
        else if s.previousKey = some key then scanLeaf n start end_ fuel (index + 1) s
        else match n.value index with
          | none => .error (.corruption "lazy range value payload is malformed")
          | some .tombstone =>
            scanLeaf n start end_ fuel (index + 1) { s with previousKey := some key }
          | some v => scanLeaf n start end_ fuel (index + 1)
              ⟨s.results ++ [(key, v.toLookup)], some key, false⟩

def scanLeaves (pages : Nat) (root : PageId) (start end_ : Bytes) :
    Nat → PageId → Nat → LeafScan → Except Error (List (Bytes × LookupResult))
  | 0, _, _, s => .ok s.results
  | fuel + 1, current, index, s => match page current with
    | .error e => .error e
    | .ok n => match scanLeaf n start end_ n.count index s with
      | .error e => .error e
      | .ok s =>
        if s.finished then .ok s.results
        else match Scan.nextLeaf page scanErrors page pages root current n.parentId with
          | .error e => .error e
          | .ok none => .ok s.results
          | .ok (some next) => scanLeaves pages root start end_ fuel next 0 s

/-- `range_lazy_with_pmt`; `fuel` bounds the pages a traversal can pass. -/
def range (fuel : Nat) (root : PageId) (start end_ : Bytes) :
    Except Error (List (Bytes × LookupResult)) :=
  match findLeafPage page start fuel root [] with
  | .error e => .error e
  | .ok leafId => match page leafId with
    | .error e => .error e
    | .ok n =>
      scanLeaves page fuel root start end_ fuel leafId (BTree.startIndex n start) ⟨[], none, false⟩

end Lazy

/-- A traversal repeats no page. -/
def PMT.searchFuel (t : PMT) : Nat := t.mappings.length + 1

/-- The preamble of `lookup_at` and `range_at`: what an empty table answers, or the root to read
from. -/
def historicalRoot {α : Type} (pmt : PMT) (rootPageId : PageId) (empty : α)
    (read : PageId → Except Error α) : Except Error α :=
  if pmt.isEmpty then
    if rootPageId = 0 then .ok empty
    else .error (.corruption "empty historical PMT names a non-zero root page")
  else if rootPageId > u32Max then
    .error (.corruption "historical root exceeds logical ID width")
  else if pmt.contains rootPageId then read rootPageId
  else .error (.corruption "historical root is missing from its PMT checkpoint")

def lookupAt (dev : Device) (rootPageId : PageId) (pmt : PMT) (key : Bytes) :
    Except Error LookupResult :=
  historicalRoot pmt rootPageId .notFound fun root =>
    Lazy.lookup (readNodeFromPmt dev pmt) pmt.searchFuel root key

def rangeAt (dev : Device) (rootPageId : PageId) (pmt : PMT) (start end_ : Bytes) :
    Except Error (List (Bytes × LookupResult)) :=
  historicalRoot pmt rootPageId [] fun root =>
    Lazy.range (readNodeFromPmt dev pmt) pmt.searchFuel root start end_

end SeerDb
