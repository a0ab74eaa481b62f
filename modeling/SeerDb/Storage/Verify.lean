/-
# `SeerDb.Storage.Verify` — verification of a stored tree

`storage/verification.rs`: every page reachable from a root is read once, its
keys are checked against the bounds its parent routes by, and the pages reached
must be all the pages of the mapping table.  The blob pointers met are returned.
-/
import SeerDb.Storage.Pages

namespace SeerDb

namespace Verify

/-- `TreeVerification`: the pages visited and the pointers met so far. -/
structure Progress where
  visited : List PageId
  blobPointers : List BlobPointer
deriving DecidableEq, Repr

def verifyKeys (pageId : PageId) (lower upper : Option Bytes) :
    Option Bytes → List Bytes → Except Error Unit
  | _, [] => .ok ()
  | previous, key :: rest =>
    if lower.any (fun bound => key < bound) || upper.any (fun bound => bound ≤ key) then
      .error (.corruption ("page " ++ toString pageId ++ " key violates routing bounds"))
    else if previous.any (fun previous => key < previous) then
      .error (.corruption ("page " ++ toString pageId ++ " keys are not ordered"))
    else verifyKeys pageId lower upper (some key) rest

def pointersOf (n : Node) : List BlobPointer := match n.body with
  | .leaf entries => entries.filterMap fun e => match e.2 with
    | .blob pointer => some pointer
    | _ => none
  | .inner _ _ => []

/-- The children of a page with the bounds they are routed by. -/
def boundedChildren (n : Node) (lower upper : Option Bytes) :
    List (PageId × Option Bytes × Option Bytes) :=
  n.children.zip ((lower :: n.keys.map some).zip (n.keys.map some ++ [upper]))

/-- Visit the children of `pageId` in order. -/
def verifyChildren (pmt : PMT) (pageId : PageId)
    (visit : PageId → Option Bytes → Option Bytes → Progress → Except Error Progress) :
    List (PageId × Option Bytes × Option Bytes) → Progress → Except Error Progress
  | [], p => .ok p
  | (child, lower, upper) :: rest, p =>
    if child > u32Max then .error (.corruption
      ("internal page " ++ toString pageId ++ " child exceeds ID width"))
    else if ¬ pmt.contains child then .error (.corruption
      ("internal page " ++ toString pageId ++ " references missing child " ++ toString child))
    else match visit child lower upper p with
      | .error e => .error e
      | .ok p => verifyChildren pmt pageId visit rest p

/-- `verify_tree_node`; no path is longer than the table, so `fuel` only makes this structural. -/
def verifyTreeNode (dev : Device) (pmt : PMT) :
    Nat → PageId → Option Bytes → Option Bytes → Progress → Except Error Progress
  | 0, pageId, _, _, _ => .error (.corruption ("B-tree cycle reaches page " ++ toString pageId))
  | fuel + 1, pageId, lower, upper, p =>
    if pageId ∈ p.visited then
      .error (.corruption ("B-tree cycle reaches page " ++ toString pageId))
    else match readNodeFromPmt dev pmt pageId with
      | .error e => .error e
      | .ok n => match verifyKeys pageId lower upper none n.keys with
        | .error e => .error e
        | .ok () =>
          let p := { p with visited := pageId :: p.visited }
          if n.isLeaf then .ok { p with blobPointers := p.blobPointers ++ pointersOf n }
          else verifyChildren pmt pageId (verifyTreeNode dev pmt fuel)
            (boundedChildren n lower upper) p

end Verify

def verifyTreeAt (dev : Device) (rootPageId : PageId) (pmt : PMT) :
    Except Error (List BlobPointer) :=
  if rootPageId > u32Max then .error (.corruption "root page exceeds logical ID width")
  else if pmt.isEmpty then
    if rootPageId ≠ 0 then .error (.corruption
      ("empty PMT names non-zero root page " ++ toString rootPageId))
    else .ok []
  else if ¬ pmt.contains rootPageId then .error (.corruption
    ("root page " ++ toString rootPageId ++ " is absent from PMT"))
  else if pmt.mappings.any (fun entry => entry.1 > u32Max) then
    .error (.corruption "PMT contains a page ID outside the logical width")
  else match Verify.verifyTreeNode dev pmt pmt.searchFuel rootPageId none none ⟨[], []⟩ with
    | .error e => .error e
    | .ok p =>
      if p.visited.length ≠ pmt.mappings.length then .error (.corruption
        ("PMT contains unreachable page " ++ toString
          (((pmt.mappings.map Prod.fst).find? fun pageId => pageId ∉ p.visited).getD 0)))
      else .ok p.blobPointers

/-- Whether a slot was written by a generation newer than `generation`. -/
def pageRewrittenAfter (dev : Device) (offset generation : Nat) : Except Error Bool :=
  match dev.page offset with
  | none => .error (.corruption ("invalid page at offset " ++ toString offset))
  | some n => .ok (n.writeGeneration > generation)

end SeerDb
