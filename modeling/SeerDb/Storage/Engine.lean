/-
# `SeerDb.Storage.Engine` — the storage engine

`storage/mod.rs`, `materialization.rs`, `lazy_read.rs` and `reclamation.rs`: the
resident tree, the mapping table of the active generation and the bookkeeping of
free slots.  Functions that write pages are with the publication protocol, which owns
the order of writes.

`protectedOffsets` is the set of slots that retained generations use.  The source
shares it with the retention state behind a lock; here it is an argument.
-/
import SeerDb.Storage.Pages

namespace SeerDb

structure StorageEngine where
  btree : BTree
  pmt : PMT
  nextOffset : Nat
  freeOffsets : List Nat
  writeGeneration : Nat
  pendingReclaimedOffsets : List Nat
  rebuildReservedOffsets : List Nat
  lazyRoot : Option PageId
  reclamationDirty : Bool
deriving DecidableEq, Repr

/-- A sparse tree: `len` pages, none of them loaded. -/
def BTree.fromSparse (len : Nat) (root : PageId) (allocator : PageAllocator) : BTree :=
  ⟨List.replicate len none, root, [], allocator⟩

/-- All pages loaded, none dirty. -/
def BTree.fromNodes (nodes : List Node) (root : PageId) (allocator : PageAllocator) : BTree :=
  ⟨nodes.map some, root, [], allocator⟩

def BTree.clearDirty (t : BTree) : BTree := { t with dirtyPages := [] }

namespace StorageEngine

/-- A new engine over an empty tree that allocates from `allocator`. -/
def new (pmt : PMT) (allocator : PageAllocator) : StorageEngine where
  btree := { BTree.new with pageAllocator := allocator }
  pmt := pmt
  nextOffset := 0
  freeOffsets := []
  writeGeneration := 0
  pendingReclaimedOffsets := []
  rebuildReservedOffsets := []
  lazyRoot := none
  reclamationDirty := false

def readNode (e : StorageEngine) (dev : Device) : PageId → Except Error Node :=
  readNodeFromPmt dev e.pmt

/-! ## Loading -/

def loadFromManifest (e : StorageEngine) (dev : Device) (protectedOffsets : List Nat)
    (root : PageId) :
    Except Error StorageEngine :=
  match e.pmt.maxPageId with
  | none =>
    if root ≠ 0 then .error (.corruption "empty manifest PMT names a non-zero root page")
    else .ok { e with
      nextOffset := dev.size
      freeOffsets := []
      pendingReclaimedOffsets := []
      reclamationDirty := false }
  | some maxPageId =>
    if root > u32Max ∨ root > maxPageId ∨ ¬ e.pmt.contains root then
      .error (.corruption ("manifest root page " ++ toString root ++ " is outside PMT"))
    else .ok { e with
      btree := .fromSparse (maxPageId + 1) root e.btree.pageAllocator
      nextOffset := dev.size
      freeOffsets := dev.slots.filter fun o => o ∉ e.pmt.offsets ∧ o ∉ protectedOffsets
      pendingReclaimedOffsets := []
      lazyRoot := some root
      reclamationDirty := false }

/-- Read the pages `pages` in order. -/
def readNodes (page : PageId → Except Error Node) : List PageId → Except Error (List Node)
  | [] => .ok []
  | id :: rest => match page id with
    | .error e => .error e
    | .ok n => match readNodes page rest with
      | .error e => .error e
      | .ok ns => .ok (n :: ns)

def ensureMaterialized (e : StorageEngine) (dev : Device) : Except Error StorageEngine :=
  match e.lazyRoot with
  | none => .ok e
  | some root => match e.pmt.maxPageId with
    | none => .error (.corruption "lazy manifest PMT is unexpectedly empty")
    | some maxPageId => match readNodes (e.readNode dev) (List.range (maxPageId + 1)) with
      | .error err => .error err
      | .ok nodes => .ok { e with
        btree := .fromNodes nodes root e.btree.pageAllocator
        lazyRoot := none }

/-- A page of the tree, read from its slot first if it is not loaded. -/
def loadPage (dev : Device) (pmt : PMT) (t : BTree) (id : PageId) : Except Error (Node × BTree) :=
  match t.node id with
  | some n => .ok (n, t)
  | none => match readNodeFromPmt dev pmt id with
    | .error e => .error e
    | .ok n => .ok (n, t.addNode n id)

/-- Load the pages from `current` down to the leaf of `key` that are not loaded yet. -/
def loadPath (dev : Device) (pmt : PMT) (key : Bytes) :
    Nat → PageId → List PageId → BTree → Except Error BTree
  | 0, _, _, _ => .error (.corruption "cycle detected while preparing mutation path")
  | fuel + 1, current, visited, t =>
    if current ∈ visited then
      .error (.corruption "cycle detected while preparing mutation path")
    else match loadPage dev pmt t current with
      | .error e => .error e
      | .ok (n, t) =>
        if n.isLeaf then .ok t
        else match n.childForKey key with
          | none => .error (.corruption "internal mutation routing is malformed")
          | some child =>
            if child > u32Max then
              .error (.corruption "internal mutation child exceeds logical ID width")
            else loadPath dev pmt key fuel child (current :: visited) t

/-- Load the path of `key`.  Pages read before an error are clean copies; they are not kept. -/
def prepareMutation (e : StorageEngine) (dev : Device) (key : Bytes) :
    Except Error StorageEngine :=
  match e.lazyRoot with
  | none => .ok e
  | some _ =>
    match loadPath dev e.pmt key (e.btree.nodes.length + e.pmt.searchFuel) e.btree.root
      [] e.btree with
    | .error err => .error err
    | .ok t => .ok { e with btree := t }

/-! ## Reading -/

def lookup (e : StorageEngine) (dev : Device) (key : Bytes) : Except Error LookupResult :=
  match e.lazyRoot with
  | none => liftBTree (e.btree.lookup key)
  | some root =>
    if e.btree.dirtyPageIds.isEmpty then
      Lazy.lookup (e.readNode dev) e.pmt.searchFuel root key
    else match e.btree.lookup key with
      | .ok result => .ok result
      | .error (.missingPage _) => Lazy.lookup (e.readNode dev) e.pmt.searchFuel root key
      | .error err => .error (.ofBTreeError err)

/-- One entry of a dirty leaf over the published ones: a live value replaces, a deleted one
removes. -/
def overlayEntry (merged : List (Bytes × LookupResult)) (entry : Bytes × LookupResult) :
    List (Bytes × LookupResult) := match entry.2 with
  | .found _ | .blob _ => Lib.upsert entry.1 entry.2 merged
  | .deleted | .notFound => Lib.erase entry.1 merged

def range (e : StorageEngine) (dev : Device) (start end_ : Bytes) :
    Except Error (List (Bytes × LookupResult)) :=
  match e.lazyRoot with
  | none => liftBTree (e.btree.rangeScan start end_)
  | some root => match Lazy.range (e.readNode dev) e.pmt.searchFuel root start end_ with
    | .error err => .error err
    | .ok base =>
      if e.btree.dirtyPageIds.isEmpty then .ok base
      else match e.btree.dirtyLeafEntries start end_ with
        | .error err => .error (.ofBTreeError err)
        | .ok entries => .ok (entries.foldl overlayEntry base)

/-! ## Reclamation -/

def refreshReclamation (e : StorageEngine) (dev : Device)
    (protectedOffsets : List Nat) : StorageEngine :=
  { e with
    freeOffsets := dev.slots.filter fun o =>
      o ∉ e.pmt.offsets ∧ o ∉ protectedOffsets ∧ o ∉ e.rebuildReservedOffsets
    nextOffset := dev.size
    reclamationDirty := false }

def refreshIfNeeded (e : StorageEngine) (dev : Device)
    (protectedOffsets : List Nat) : StorageEngine :=
  if e.reclamationDirty then e.refreshReclamation dev protectedOffsets else e

/-- Make the slots of the previous generation reusable; its successor is durable. -/
def completeGeneration (e : StorageEngine) (protectedOffsets : List Nat) : StorageEngine :=
  { e with
    freeOffsets := ((e.freeOffsets ++
      e.pendingReclaimedOffsets.filter (fun o => o ∉ protectedOffsets) ++
      e.rebuildReservedOffsets.filter (fun o => o ∉ protectedOffsets)).insertionSort (· ≤ ·)).dedup
    pendingReclaimedOffsets := []
    rebuildReservedOffsets := []
    lazyRoot := if e.pmt.isEmpty then none else some e.btree.root
    btree := e.btree.clearDirty }

/-- Where the next page goes: the last free slot, else the end of the file. -/
def nextSlot (e : StorageEngine) : Nat := e.freeOffsets.getLast?.getD e.nextOffset

/-- The engine after `pageId` was written to its next slot. -/
def placed (e : StorageEngine) (pageId : PageId) : StorageEngine :=
  { e with
    pmt := e.pmt.insert pageId 0 e.nextSlot
    freeOffsets := e.freeOffsets.dropLast
    nextOffset := if e.freeOffsets.isEmpty then e.nextOffset + pageSize else e.nextOffset }

/-- Swap in a rebuilt tree; the slots of the old one are held until it is durable. -/
def prepareLogicalRebuild (e : StorageEngine) (dev : Device) (btree : BTree) :
    Except Error StorageEngine :=
  if e.pendingReclaimedOffsets ≠ [] then
    .error (.needsRecovery "logical rebuild has an unpublished retired-page set")
  else .ok { e with
    rebuildReservedOffsets := e.pmt.offsets
    pmt := e.pmt.clear
    btree := btree
    lazyRoot := none
    nextOffset := dev.size }

/-- How many of the free slots, highest first, end at `after`. -/
def trimTail : List Nat → Nat → Nat
  | [], after => after
  | o :: rest, after =>
    if after ≥ pageSize ∧ o = after - pageSize then trimTail rest (after - pageSize) else after

def reclaimableTailRange (e : StorageEngine) (dev : Device) : Nat × Nat :=
  (dev.size, trimTail e.freeOffsets.reverse dev.size)

/-- One relocation: the page, where it is, and the lower free slot it moves to. -/
structure PageMove where
  pageId : PageId
  mapping : PageMapping
  target : Nat
deriving DecidableEq, Repr

/-- Pair the active pages, highest slot first, with the free slots below them, lowest first. -/
def planMoves : List (PageId × PageMapping) → List Nat → List PageMove
  | [], _ => []
  | (pageId, mapping) :: pages, free => match free.dropWhile (fun o => o ≥ mapping.offset) with
    | [] => []
    | target :: free => ⟨pageId, mapping, target⟩ :: planMoves pages free

/-- The active pages that may move, highest slot first. -/
def movablePages (e : StorageEngine) (protectedOffsets : List Nat) : List (PageId × PageMapping) :=
  (e.pmt.mappings.filter fun entry => entry.2.offset ∉ protectedOffsets).insertionSort
    fun a b => a.2.offset ≥ b.2.offset

def plannedMoves (e : StorageEngine) (protectedOffsets : List Nat) : List PageMove :=
  planMoves (e.movablePages protectedOffsets) (e.freeOffsets.insertionSort (· ≤ ·))

/-- The engine once every moved page is durable at its target. -/
def relocated (e : StorageEngine) (moves : List PageMove) : StorageEngine :=
  { e with
    pmt := moves.foldl (fun pmt move => pmt.insert move.pageId move.mapping.fileId move.target)
      e.pmt
    freeOffsets := e.freeOffsets.filter fun o => o ∉ moves.map PageMove.target
    pendingReclaimedOffsets := moves.map fun move => move.mapping.offset }

/-! ## The check of a handle -/

/-- Checked before every public call.  The source also compares the number of retired slots
with that of their cache keys, which are not kept here. -/
def validateHandleState (e : StorageEngine) : Except Error Unit :=
  if e.nextOffset % pageSize ≠ 0 then .error (.corruption
    ("storage allocation frontier " ++ toString e.nextOffset ++ " is not page aligned"))
  else .ok ()

theorem validateHandleState_eq_ok {e : StorageEngine} :
    e.validateHandleState = .ok () ↔ pageSize ∣ e.nextOffset := by
  rw [validateHandleState, Nat.dvd_iff_mod_eq_zero]
  split <;> simp_all

end StorageEngine

end SeerDb
