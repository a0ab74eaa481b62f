/-
# `SeerDb.Btree.Tree` — the B-tree over a sparse page store

State, routing, split propagation, mutation entry points and the range cursor
of the source's `btree/tree*`.  A mutation that fails restores the snapshot it
took, so the helpers below a snapshot return either the new tree or an error;
the entry points return the tree in both cases.

Loops that climb or descend page edges carry fuel: the number of pages for the
recursive searches, `MAX_ROUTING_DEPTH` where the source itself counts.
-/
import SeerDb.Btree.Node
import Mathlib.Data.List.Sort

namespace SeerDb

/-- `PageAllocator`; the set of allocated ids only serves `free`, which nothing calls. -/
structure PageAllocator where
  nextId : Nat
  freeList : List Nat
deriving DecidableEq, Repr

def u64Max : Nat := 18446744073709551615

/-- Page 0 is taken by the first root. -/
def PageAllocator.new : PageAllocator := ⟨1, []⟩

def PageAllocator.alloc (a : PageAllocator) : Nat × PageAllocator :=
  match a.freeList.getLast? with
  | some freed => (freed, { a with freeList := a.freeList.dropLast })
  | none => (a.nextId, { a with nextId := min (a.nextId + 1) u64Max })

def PageAllocator.advanceNextId (a : PageAllocator) (minimum : Nat) : PageAllocator :=
  { a with nextId := max a.nextId minimum }

inductive BTreeError where
  | duplicateKey
  | insertFailed (error : InsertError)
  | splitFailed (error : SplitError)
  | pageIdExhausted
  | missingPage (page : PageId)
  | corruption (message : String)
deriving DecidableEq, Repr

inductive LookupResult where
  | found (data : Bytes)
  | blob (pointer : BlobPointer)
  | deleted
  | notFound
deriving DecidableEq, Repr

/-- What a lookup reports for the value it finds. -/
def Value.toLookup : Value → LookupResult
  | .inline data => .found data
  | .blob pointer => .blob pointer
  | .tombstone => .deleted

/-- `matches!(node.value(index), Some(Inline(old)) if old.len() == value.len())`. -/
def Node.sameSizeInline (n : Node) (index : Nat) (value : Bytes) : Bool :=
  match n.value index with
  | some (.inline old) => old.length = value.length
  | _ => false

structure BTree where
  nodes : List (Option Node)
  root : PageId
  dirtyPages : List PageId
  pageAllocator : PageAllocator
deriving DecidableEq, Repr

def maxRoutingDepth : Nat := 128

namespace BTree

def new : BTree := ⟨[some Node.newLeaf], 0, [0], PageAllocator.new⟩

def node (t : BTree) (id : PageId) : Option Node := (t.nodes[id]?).join

/-- `dirty_pages.insert`. -/
def touch (t : BTree) (id : PageId) : BTree := { t with dirtyPages := t.dirtyPages.insert id }

/-- Store a page under an id the node vector already covers, and mark it dirty. -/
def setNode (t : BTree) (id : PageId) (n : Node) : BTree :=
  { t with nodes := t.nodes.set id (some n), dirtyPages := t.dirtyPages.insert id }

/-- `nodes.resize_with(len, || None)`, which never shrinks here. -/
def growTo (t : BTree) (len : Nat) : BTree :=
  { t with nodes := t.nodes ++ List.replicate (len - t.nodes.length) none }

/-- `add_node`: a page loaded from storage is clean. -/
def addNode (t : BTree) (n : Node) (id : PageId) : BTree :=
  let t := t.growTo (id + 1)
  { t with nodes := t.nodes.set id (some n), dirtyPages := t.dirtyPages.erase id }

def dirtyPageIds (t : BTree) : List PageId := t.dirtyPages.insertionSort (· ≤ ·)

/-! ## Routing -/

def findLeafLoop (t : BTree) (key : Bytes) : Nat → PageId → Except BTreeError PageId
  | 0, _ => .error (.corruption "cycle detected during B-tree descent")
  | fuel + 1, current => match t.node current with
    | none => .error (.missingPage current)
    | some n =>
      if n.isLeaf then .ok current
      else match n.childForKey key with
        | none => .error (.corruption "internal routing is malformed")
        | some child =>
          if child > u32Max then
            .error (.corruption "internal child page ID exceeds the logical ID width")
          else findLeafLoop t key fuel child

def findLeaf (t : BTree) (key : Bytes) : Except BTreeError PageId :=
  t.findLeafLoop key maxRoutingDepth t.root

def lookup (t : BTree) (key : Bytes) : Except BTreeError LookupResult :=
  match t.findLeaf key with
  | .error e => .error e
  | .ok leafId => match t.node leafId with
    | none => .error (.corruption "leaf page is missing")
    | some n => match n.search key with
      | .error _ => .ok .notFound
      | .ok index => match n.value index with
        | none => .error (.corruption "leaf value payload is malformed")
        | some v => .ok v.toLookup

/-- The entries of a leaf page in `[start, end_)`; an internal page is skipped. -/
def leafEntriesIn (n : Node) (start end_ : Bytes) : List (Bytes × LookupResult) := match n.body with
  | .leaf es => (Lib.between start end_ es).map fun e => (e.1, e.2.toLookup)
  | .inner _ _ => []

/-- The loop of `dirty_leaf_entries` over the page ids. -/
def dirtyLeafLoop (t : BTree) (start end_ : Bytes) :
    List PageId → Except BTreeError (List (Bytes × LookupResult))
  | [] => .ok []
  | pageId :: rest => match t.node pageId with
    | none => .error (.missingPage pageId)
    | some n => match t.dirtyLeafLoop start end_ rest with
      | .error e => .error e
      | .ok entries => .ok (leafEntriesIn n start end_ ++ entries)

def dirtyLeafEntries (t : BTree) (start end_ : Bytes) :
    Except BTreeError (List (Bytes × LookupResult)) :=
  t.dirtyLeafLoop start end_ t.dirtyPageIds

/-! ## Split propagation -/

def allocNode (t : BTree) (n : Node) : Except BTreeError (PageId × BTree) :=
  let (id, allocator) := t.pageAllocator.alloc
  if id > u32Max then .error .pageIdExhausted
  else .ok (id, ({ t with pageAllocator := allocator }.growTo (id + 1)).setNode id n)

/-- The loop over a page's children in `find_parent`. -/
def scanForParent (descend : PageId → Except BTreeError (Option PageId)) (current target : PageId) :
    List Nat → Except BTreeError (Option PageId)
  | [] => .ok none
  | child :: rest =>
    if child > u32Max then .error (.corruption "internal child page ID exceeds width")
    else if child = target then .ok (some current)
    else match descend child with
      | .error e => .error e
      | .ok (some parent) => .ok (some parent)
      | .ok none => scanForParent descend current target rest

/-- Depth-first search for the page that references `target`. -/
def findParent (t : BTree) (target : PageId) :
    Nat → PageId → List PageId → Except BTreeError (Option PageId)
  | 0, _, _ => .error (.corruption "cycle detected while locating split parent")
  | fuel + 1, current, active =>
    if current = target then .ok none
    else if current ∈ active then
      .error (.corruption "cycle detected while locating split parent")
    else match t.node current with
      | none => .error (.missingPage current)
      | some n =>
        if n.isLeaf then .ok none
        else scanForParent (fun child => findParent t target fuel child (current :: active))
          current target n.children

/-- An active path repeats no page, so it is no longer than the node vector. -/
def searchFuel (t : BTree) : Nat := t.nodes.length + 1

def referencesChild (parent : Node) (child : PageId) : Bool :=
  parent.leftmostChild = child ||
    (List.range parent.count).any (fun index => parent.childId index = some child)

/-- The hint names a loaded page that references `id`. -/
def hintChecks (t : BTree) (hint id : PageId) : Bool :=
  hint ≠ 0 && match t.node hint with
    | some parent => referencesChild parent id
    | none => false

/-- The recorded parent if it checks out, else a search from the root. -/
def parentOf (t : BTree) (id : PageId) : Except BTreeError (Option PageId) :=
  if id = t.root then .ok none
  else match t.node id with
    | none => t.findParent id t.searchFuel t.root []
    | some n =>
      if t.hintChecks n.parentId id then .ok (some n.parentId)
      else t.findParent id t.searchFuel t.root []

/-- `node_mut(id).set_parent_id(parent)`, an error when the page is not loaded. -/
def setParent (t : BTree) (id parent : PageId) : Except BTreeError BTree :=
  match t.node id with
  | none => .error (.missingPage id)
  | some n => .ok (t.setNode id (n.setParentId parent))

def createNewRoot (t : BTree) (leftId : PageId) (key : Bytes) (rightId : PageId) :
    Except BTreeError BTree :=
  match ({ Node.newInternal with body := .inner leftId [] } : Node).insertChild key rightId with
  | .error e => .error (.insertFailed e)
  | .ok newRoot => match t.allocNode newRoot with
    | .error e => .error e
    | .ok (newRootId, t₁) => match t₁.setParent leftId newRootId with
      | .error e => .error e
      | .ok t₂ => match t₂.setParent rightId newRootId with
        | .error e => .error e
        | .ok t₃ => .ok { t₃ with root := newRootId }

/-- Repair the hints of the loaded children; the others keep theirs. -/
def setChildrenParent (t : BTree) (parent : PageId) : List Nat → Except BTreeError BTree
  | [] => .ok t
  | child :: rest =>
    if child > u32Max then .error (.corruption "internal child page ID exceeds width")
    else match t.node child with
      | none => t.setChildrenParent parent rest
      | some n => (t.setNode child (n.setParentId parent)).setChildrenParent parent rest

def setDirectChildrenParent (t : BTree) (id parent : PageId) : Except BTreeError BTree :=
  match t.node id with
  | none => .error (.missingPage id)
  | some n => t.setChildrenParent parent n.children

/-- Hand the new right half `rightId` of page `id` to the parent of `id`: what
leaf and internal splits end with.  `insertInto` is `insert_into_internal`. -/
def linkRight (insertInto : BTree → PageId → Bytes → PageId → Except BTreeError BTree) (t : BTree)
    (unreachable : String) (id : PageId) (medianKey : Bytes) (rightId : PageId) :
    Except BTreeError BTree :=
  if id = t.root then t.createNewRoot id medianKey rightId
  else match t.parentOf id with
    | .error e => .error e
    | .ok none => .error (.corruption unreachable)
    | .ok (some parentId) => match t.setParent rightId parentId with
      | .error e => .error e
      | .ok t₁ => insertInto t₁ parentId medianKey rightId

def splitInternal (insertInto : BTree → PageId → Bytes → PageId → Except BTreeError BTree)
    (t : BTree) (id : PageId) (key : Bytes) (rightChildId : PageId) : Except BTreeError BTree :=
  match t.node id with
  | none => .error (.missingPage id)
  | some n => match n.split with
    | .error e => .error (.splitFailed e)
    | .ok (medianKey, left, right) => match (t.setNode id left).allocNode right with
      | .error e => .error e
      | .ok (rightId, t₁) => match t₁.setDirectChildrenParent rightId rightId with
        | .error e => .error e
        | .ok t₂ =>
          let targetId := if key ≥ medianKey then rightId else id
          match t₂.node targetId with
          | none => .error (.missingPage targetId)
          | some target => match target.insertChild key rightChildId with
            | .error e => .error (.insertFailed e)
            | .ok target' =>
              match (t₂.setNode targetId target').setParent rightChildId targetId with
              | .error e => .error e
              | .ok t₃ => linkRight insertInto t₃
                  ("split internal page " ++ toString id ++ " is not reachable from a parent")
                  id medianKey rightId

/-- Insert a separator into an internal page, splitting upwards as needed.  Each
turn climbs one edge, so the fuel is the number of pages. -/
def insertIntoInternal : Nat → BTree → PageId → Bytes → PageId → Except BTreeError BTree
  | 0, _, _, _, _ => .error (.corruption "cycle detected while locating split parent")
  | fuel + 1, t, parentId, key, rightChildId => match t.node parentId with
    | none => .error (.missingPage parentId)
    | some n => match n.insertChild key rightChildId with
      | .ok n' => .ok (t.setNode parentId n')
      | .error .pageFull =>
        splitInternal (insertIntoInternal fuel) (t.touch parentId) parentId key rightChildId
      | .error e => .error (.insertFailed e)

/-- What `split_and_insert_leaf` and `split_and_insert_blob_leaf` share. -/
def splitAndInsertValue (t : BTree) (leafId : PageId) (key : Bytes) (value : Value) :
    Except BTreeError BTree :=
  match t.node leafId with
  | none => .error (.missingPage leafId)
  | some leaf => match leaf.split with
    | .error e => .error (.splitFailed e)
    | .ok (medianKey, left, right) => match (t.setNode leafId left).allocNode right with
      | .error e => .error e
      | .ok (rightId, t₁) =>
        let targetId := if key ≥ medianKey then rightId else leafId
        match t₁.node targetId with
        | none => .error (.missingPage targetId)
        | some target => match target.insertNew key value with
          | .error e => .error (.insertFailed e)
          | .ok target' =>
            let t₂ := t₁.setNode targetId target'
            linkRight (insertIntoInternal t₂.searchFuel) t₂
              ("split leaf " ++ toString leafId ++ " is not reachable from a parent")
              leafId medianKey rightId

def splitAndInsertLeaf (t : BTree) (leafId : PageId)
    (key value : Bytes) : Except BTreeError BTree :=
  t.splitAndInsertValue leafId key (.inline value)

def splitAndInsertBlobLeaf (t : BTree) (leafId : PageId) (key : Bytes) (ptr : BlobPointer) :
    Except BTreeError BTree :=
  t.splitAndInsertValue leafId key (.blob ptr)

def replaceFullEntryWithSplit (t : BTree) (leafId : PageId) (index : Nat) (key value : Bytes) :
    Except BTreeError BTree :=
  match t.node leafId with
  | none => .error (.missingPage leafId)
  | some n => match n.removeEntry index with
    | .error e => .error (.insertFailed e)
    | .ok n₁ => match Node.removeDuplicates key n₁.count n₁ with
      | .error e => .error (.insertFailed e)
      | .ok n₂ => match n₂.insert key value with
        | .ok n₃ => .ok (t.setNode leafId n₃)
        | .error .pageFull => (t.setNode leafId n₂).splitAndInsertLeaf leafId key value
        | .error e => .error (.insertFailed e)

/-! ## Mutation entry points -/

/-- Keep the tree of the snapshot when the guarded step failed. -/
def restoreOnError (snapshot : BTree) (result : Except BTreeError BTree) :
    Except BTreeError Unit × BTree :=
  match result with
  | .ok t => (.ok (), t)
  | .error e => (.error e, snapshot)

def insert (t : BTree) (key value : Bytes) : Except BTreeError Unit × BTree :=
  match t.findLeaf key with
  | .error e => (.error e, t)
  | .ok leafId => match t.node leafId with
    | none => (.error (.missingPage leafId), t)
    | some n => match n.insert key value with
      | .ok n' => (.ok (), t.setNode leafId n')
      | .error .pageFull =>
        restoreOnError (t.touch leafId) ((t.touch leafId).splitAndInsertLeaf leafId key value)
      | .error (.duplicateKey _) => (.error .duplicateKey, t.touch leafId)
      | .error e => (.error (.insertFailed e), t.touch leafId)

/-- The insertion of an absent blob entry, shared by `insert_blob` and `upsert_blob`. -/
def insertBlobAt (t : BTree) (leafId : PageId) (key : Bytes) (ptr : BlobPointer) :
    Except BTreeError Unit × BTree :=
  match t.node leafId with
  | none => (.error (.missingPage leafId), t)
  | some n => match n.insertBlob key ptr with
    | .ok n' => (.ok (), t.setNode leafId n')
    | .error .pageFull =>
      restoreOnError (t.touch leafId) ((t.touch leafId).splitAndInsertBlobLeaf leafId key ptr)
    | .error e => (.error (.insertFailed e), t.touch leafId)

def insertBlob (t : BTree) (key : Bytes) (ptr : BlobPointer) : Except BTreeError Unit × BTree :=
  match t.findLeaf key with
  | .error e => (.error e, t)
  | .ok leafId => t.insertBlobAt leafId key ptr

/-- Index of a present key in a leaf: `node(leaf_id).and_then(|n| n.search(key).ok())`. -/
def existingIndex (t : BTree) (leafId : PageId) (key : Bytes) : Option Nat :=
  (t.node leafId).bind fun n => (n.search key).toOption

def upsert (t : BTree) (key value : Bytes) : Except BTreeError Unit × BTree :=
  match t.findLeaf key with
  | .error e => (.error e, t)
  | .ok leafId => match t.existingIndex leafId key with
    | none => t.insert key value
    | some index => match t.node leafId with
      | none => (.error (.missingPage leafId), t)
      | some n =>
        if n.sameSizeInline index value then
          match n.replaceValue index value with
          | .ok n' => (.ok (), t.setNode leafId n')
          | .error e => (.error (.insertFailed e), t.touch leafId)
        else restoreOnError t (match n.replaceValueResized index value with
          | .ok n' => .ok (t.setNode leafId n')
          | .error .pageFull =>
            (t.touch leafId).replaceFullEntryWithSplit leafId index key value
          | .error e => .error (.insertFailed e))

def delete (t : BTree) (key : Bytes) : Except BTreeError Bool × BTree :=
  match t.findLeaf key with
  | .error e => (.error e, t)
  | .ok leafId => match t.node leafId with
    | none => (.error (.missingPage leafId), t)
    | some n => match n.search key with
      | .error _ => (.ok false, t.touch leafId)
      | .ok index =>
        if n.value index = some .tombstone then (.ok false, t.touch leafId)
        else match n.insertTombstone key with
          | (.ok (), n') => (.ok true, t.setNode leafId n')
          | (.error e, n') => (.error (.insertFailed e), t.setNode leafId n')

def upsertBlob (t : BTree) (key : Bytes) (ptr : BlobPointer) : Except BTreeError Unit × BTree :=
  match t.findLeaf key with
  | .error e => (.error e, t)
  | .ok leafId => match t.existingIndex leafId key with
    | none => t.insertBlobAt leafId key ptr
    | some index => restoreOnError t (match t.node leafId with
      | none => .error (.missingPage leafId)
      | some n => match n.removeEntry index with
        | .error e => .error (.insertFailed e)
        | .ok n₁ => match n₁.insertBlob key ptr with
          | .ok n₂ => .ok (t.setNode leafId n₂)
          | .error .pageFull =>
            (t.setNode leafId n₁).splitAndInsertBlobLeaf leafId key ptr
          | .error e => .error (.insertFailed e))

end BTree

end SeerDb
