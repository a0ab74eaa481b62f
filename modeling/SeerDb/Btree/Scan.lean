/-
# `SeerDb.Btree.Scan` — leaf navigation and the range cursor

The step from a leaf to the next one is written once, over any way to read a
page: the loaded pages of a tree, or the pages of a generation in storage.  It
first climbs recorded parents, checking each against the page it names, and falls
back to a search from the root when a recorded parent does not check out.
-/
import SeerDb.Btree.Tree

namespace SeerDb

/-- The errors of leaf navigation, which differ between its users in their texts. -/
structure ScanErrors (ε : Type) where
  pathCycle : ε
  leafCycle : ε
  childWidth : ε
  childMalformed : ε
  unreachable : ε

namespace Scan

variable {ε : Type} (page : PageId → Except ε Node) (errors : ScanErrors ε)

/-- The loop over a page's children in `find_path_to_leaf`. -/
def scanPath (descend : PageId → Except ε (Option (List (PageId × Nat)))) (current : PageId) :
    Nat → List Nat → Except ε (Option (List (PageId × Nat)))
  | _, [] => .ok none
  | position, child :: rest => match descend child with
    | .error e => .error e
    | .ok (some path) => .ok (some ((current, position) :: path))
    | .ok none => scanPath descend current (position + 1) rest

/-- Depth-first search for a leaf; the path lists the pages passed and the child
position taken at each. -/
def findPathToLeaf (target : PageId) :
    Nat → PageId → List PageId → Except ε (Option (List (PageId × Nat)))
  | 0, _, _ => .error errors.pathCycle
  | fuel + 1, current, active =>
    if current ∈ active then .error errors.pathCycle
    else match page current with
      | .error e => .error e
      | .ok n =>
        if n.isLeaf then .ok (if current = target then some [] else none)
        else if n.children.any (fun child => child > u32Max) then .error errors.childWidth
        else scanPath (fun child => findPathToLeaf target fuel child (current :: active))
          current 0 n.children

def leftmostLeaf : Nat → PageId → List PageId → Except ε PageId
  | 0, _, _ => .error errors.leafCycle
  | fuel + 1, current, visited =>
    if current ∈ visited then .error errors.leafCycle
    else match page current with
      | .error e => .error e
      | .ok n =>
        if n.isLeaf then .ok current
        else if n.leftmostChild > u32Max then .error errors.childWidth
        else leftmostLeaf fuel n.leftmostChild (current :: visited)

/-- Where an internal page references a child. -/
def childPosition (parent : Node) (child : PageId) : Option Nat :=
  if parent.leftmostChild = child then some 0
  else ((List.range parent.count).find? (fun index => parent.childId index = some child)).map
    (· + 1)

/-- Climb recorded parents to the first one with a child further right.  `none`
when a recorded parent does not check out; `hint` is the one recorded for `current`. -/
def nextLeafFromParentHint (depth : Nat) (root : PageId) :
    Nat → PageId → List PageId → PageId → Option (Option PageId)
  | 0, _, _, _ => none
  | fuel + 1, current, visited, hint =>
    if current ∈ visited then none
    else if hint = 0 then (if current = root then some none else none)
    else match page hint with
      | .error _ => none
      | .ok parent =>
        if parent.isLeaf then none
        else match childPosition parent current with
          | none => none
          | some position =>
            if position < parent.count then
              match parent.childId position with
              | none => none
              | some next =>
                if next > u32Max then none
                else match leftmostLeaf page errors depth next [] with
                  | .error _ => none
                  | .ok leaf => some (some leaf)
            else nextLeafFromParentHint depth root fuel hint (current :: visited) parent.parentId

/-- The lowest page of a path, read from the leaf upwards, with a child further right. -/
def nextInPath (parentPage : PageId → Except ε Node) (depth : Nat) :
    List (PageId × Nat) → Except ε (Option PageId)
  | [] => .ok none
  | (parentId, position) :: rest => match parentPage parentId with
    | .error e => .error e
    | .ok parent =>
      if position < parent.count then
        match parent.childId position with
        | none => .error errors.childMalformed
        | some next =>
          if next > u32Max then .error errors.childWidth
          else match leftmostLeaf page errors depth next [] with
            | .error e => .error e
            | .ok leaf => .ok (some leaf)
      else nextInPath parentPage depth rest

/-- The leaf to the right of `target`. -/
def nextLeaf (parentPage : PageId → Except ε Node) (depth : Nat) (root target hint : PageId) :
    Except ε (Option PageId) :=
  match nextLeafFromParentHint page errors depth root depth target [] hint with
  | some next => .ok next
  | none => match findPathToLeaf page errors target depth root [] with
    | .error e => .error e
    | .ok none => .error errors.unreachable
    | .ok (some path) => nextInPath page errors parentPage depth path.reverse

end Scan

/-! ## The cursor -/

structure RangeCursor where
  start : Bytes
  end_ : Bytes
  currentNode : PageId
  currentIndex : Nat
  done : Bool
deriving DecidableEq, Repr

namespace BTree

def scanErrors : ScanErrors BTreeError where
  pathCycle := .corruption "cycle detected while locating range leaf"
  leafCycle := .corruption "cycle detected while locating next range leaf"
  childWidth := .corruption "internal child page ID exceeds the logical ID width"
  childMalformed := .corruption "internal child is malformed"
  unreachable := .corruption "range leaf is not reachable from the root"

/-- A loaded page, with the error of a missing one. -/
def pageOr (t : BTree) (missing : String) (id : PageId) : Except BTreeError Node :=
  match t.node id with
  | none => .error (.corruption missing)
  | some n => .ok n

def nextLeafChecked (t : BTree) (target hint : PageId) : Except BTreeError (Option PageId) :=
  Scan.nextLeaf (t.pageOr "range page is missing") scanErrors
    (t.pageOr "range parent page is missing") t.searchFuel t.root target hint

/-- Where a scan starts in its first leaf. -/
def startIndex (n : Node) (start : Bytes) : Nat := match n.search start with
  | .ok index => index
  | .error index => index

def rangeCursor (t : BTree) (start end_ : Bytes) : Except BTreeError RangeCursor :=
  match t.findLeaf start with
  | .error e => .error e
  | .ok leafId => match t.pageOr "range leaf page is missing" leafId with
    | .error e => .error e
    | .ok n =>
      .ok ⟨start, end_, leafId, startIndex n start, false⟩

end BTree

/-- One turn of the cursor's loop. -/
inductive CursorTurn where
  | emit (item : Bytes × LookupResult) (cursor : RangeCursor)
  | again (cursor : RangeCursor)
  | over
  | fail (error : BTreeError)
deriving DecidableEq, Repr

namespace RangeCursor

/-- The entry under the cursor, once the cursor has moved past it. -/
def readEntry (n : Node) (key : Bytes) (c : RangeCursor) : CursorTurn :=
  -- `c.currentIndex` is one past the entry; an equal key before it is suppressed
  if c.currentIndex > 1 ∧ n.key (c.currentIndex - 2) = some key then .again c
  else match n.value (c.currentIndex - 1) with
    | some (.inline value) => if key ≥ c.start then .emit (key, .found value) c else .again c
    | some (.blob pointer) => if key ≥ c.start then .emit (key, .blob pointer) c else .again c
    | some .tombstone => .again c
    | none => .fail (.corruption "range value payload is malformed")

def turn (t : BTree) (c : RangeCursor) : CursorTurn :=
  match t.node c.currentNode with
  | none => .fail (.corruption "range page is missing")
  | some n =>
    if c.currentIndex < n.count then
      match n.key c.currentIndex with
      | none => .fail (.corruption "range key is malformed")
      | some key =>
        if key ≥ c.end_ then .over
        else readEntry n key { c with currentIndex := c.currentIndex + 1 }
    else match t.nextLeafChecked c.currentNode n.parentId with
      | .error e => .fail e
      | .ok none => .over
      | .ok (some nextLeaf) => .again { c with currentNode := nextLeaf, currentIndex := 0 }

def loop (t : BTree) : Nat → RangeCursor →
    Option (Except BTreeError (Bytes × LookupResult)) × RangeCursor
  | 0, c => (none, c)
  | fuel + 1, c => match c.turn t with
    | .emit item c => (some (.ok item), c)
    | .again c => loop t fuel c
    | .over => (none, { c with done := true })
    | .fail e => (some (.error e), { c with done := true })

/-- Turns a scan can take: one per entry and one per leaf. -/
def loopFuel (t : BTree) : Nat := t.nodes.length * (pageSize + 1) + 1

def next (t : BTree) (c : RangeCursor) :
    Option (Except BTreeError (Bytes × LookupResult)) × RangeCursor :=
  if c.done then (none, c) else c.loop t (loopFuel t)

/-- The iterator run to its end, or to its first error. -/
def collect (t : BTree) : Nat → RangeCursor → Except BTreeError (List (Bytes × LookupResult))
  | 0, _ => .ok []
  | fuel + 1, c => match c.next t with
    | (none, _) => .ok []
    | (some (.error e), _) => .error e
    | (some (.ok item), c) => match collect t fuel c with
      | .error e => .error e
      | .ok items => .ok (item :: items)

end RangeCursor

/-- `range_scan`, with the iterator it returns collected. -/
def BTree.rangeScan (t : BTree) (start end_ : Bytes) :
    Except BTreeError (List (Bytes × LookupResult)) :=
  match t.rangeCursor start end_ with
  | .error e => .error e
  | .ok cursor => cursor.collect t (RangeCursor.loopFuel t)

end SeerDb
