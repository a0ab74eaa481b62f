/-
# `SeerDb.Storage.Traversals` — walks over loaded and stored pages

The same walks run over the loaded pages of a tree and over the pages a mapping table
leads to.  Over a well-formed store the step from a leaf to the next one follows the
order of the leaves, whatever parents the pages record.

Over any store at all the walks end.  The model runs them with fuel; here each is
given once more as the source has it, as a procedure with unbounded calls
(`Lib.Calls`), and its run ends with the answer of the model.
-/
import SeerDb.Lib.Calls
import SeerDb.Storage.VerifySpec

namespace SeerDb

open Lib List

namespace BTree

/-- The loaded pages of a tree. -/
def resident (t : BTree) : Store Bytes Value := fun p => (t.node p).map Node.body

theorem reads_resident (t : BTree) (missing : String) : Reads (t.pageOr missing) t.resident where
  sound p m hm := by
    rw [pageOr] at hm
    split at hm
    · cases hm
    rename_i n hn
    cases hm
    rw [resident, hn]
    rfl
  complete p b hb := by
    obtain ⟨n, hn, rfl⟩ := Option.map_eq_some_iff.mp hb
    exact ⟨n, by rw [pageOr, hn], rfl⟩

/-- Only the slots of the node vector hold pages. -/
theorem resident_lt {t : BTree} {p : PageId} (h : t.resident p ≠ none) : p < t.nodes.length := by
  by_contra hge
  apply h
  rw [resident, node, List.getElem?_eq_none (not_lt.mp hge)]
  rfl

end BTree

/-- `next_leaf_page`: the step from a leaf to the next one on the lazy path. -/
def nextLeafPage (dev : Device) (pmt : PMT) (root target hint : PageId) :
    Except Error (Option PageId) :=
  Scan.nextLeaf (readNodeFromPmt dev pmt) Lazy.scanErrors (readNodeFromPmt dev pmt) pmt.searchFuel
    root target hint

/-! ## The next leaf -/

/-- **The next leaf does not depend on recorded parents.**  Over a well-formed store, in memory
and on the lazy path, and for any parent hints, the step from a leaf leads to the next leaf in
order and from the last one nowhere; so the leaves from any leaf on are passed once each. -/
theorem nextLeaf_successive (hint : PageId → PageId) :
    (∀ (t : BTree) (height : Nat), Scan.WellFormed t.resident height t.root →
      Scan.Successive (fun leaf => t.nextLeafChecked leaf (hint leaf))
        (leavesUnder t.resident height t.root)) ∧
    ∀ (dev : Device) (pmt : PMT) (root : PageId) (height : Nat),
      Scan.WellFormed (pageStore dev pmt) height root →
      Scan.Successive (fun leaf => nextLeafPage dev pmt root leaf (hint leaf))
        (leavesUnder (pageStore dev pmt) height root) := by
  constructor
  · intro t height hwf
    refine hwf.successive (t.reads_resident _) (t.reads_resident _) (List.range t.nodes.length)
      (fun q hq => mem_range.mpr (BTree.resident_lt hq)) ?_ hint
    simp [BTree.searchFuel]
  · intro dev pmt root height hwf
    refine hwf.successive reads_pageStore reads_pageStore (pmt.mappings.map Prod.fst)
      (fun q hq => mapped_of_pageStore hq) ?_ hint
    simp [PMT.searchFuel]

/-- A root with two leaves, each recording the other as its parent. -/
def crossedTree : BTree :=
  ⟨[some ⟨.inner 1 [([5], 2)], 2, 0⟩, some ⟨.leaf [([1], .inline [7])], 2, 0⟩,
    some ⟨.leaf [([9], .inline [8])], 1, 0⟩], 0, [], ⟨3, []⟩⟩

theorem crossedTree_wellFormed : Scan.WellFormed crossedTree.resident 1 crossedTree.root where
  tree := .inr ⟨1, [([5], 2)], rfl, by
    intro c hc
    simp only [map_cons, map_nil, mem_cons, not_mem_nil, or_false] at hc
    rcases hc with rfl | rfl <;> exact ⟨_, rfl⟩⟩
  nodup := by decide
  only q hq := by
    have hlt : q < 3 := BTree.resident_lt hq
    have hpages : pagesOf crossedTree.resident 1 crossedTree.root = [0, 1, 2] := rfl
    rw [hpages]
    simp only [mem_cons, not_mem_nil]
    omega
  limit := by decide

theorem unevenPmt_wellFormed : Scan.WellFormed (pageStore unevenDevice unevenPmt) 3 0 :=
  have hok : verifyTreeAt unevenDevice 0 unevenPmt = .ok [] := rfl
  have hwalk := (verified_of_ok hok rfl).legible.walk
  { hwalk with }

theorem nextLeaf_successive_crossed :
    Scan.Successive (fun leaf => crossedTree.nextLeafChecked leaf 2) [1, 2] ∧
      Scan.Successive (fun leaf => nextLeafPage unevenDevice unevenPmt 0 leaf 2) [1, 2] :=
  ⟨(nextLeaf_successive fun _ => 2).1 crossedTree 1 crossedTree_wellFormed,
    (nextLeaf_successive fun _ => 2).2 unevenDevice unevenPmt 0 3 unevenPmt_wellFormed⟩

/-! ## Runs over any pages -/

namespace BTree

/-- The loop of `find_leaf`, from a depth and a page. -/
def findLeafBody (t : BTree) (key : Bytes) :
    Nat × PageId → Calls (Nat × PageId) (fun _ => Except BTreeError PageId)
      (Except BTreeError PageId)
  | (depth, current) =>
    if depth ≥ maxRoutingDepth then
      .ret (.error (.corruption "cycle detected during B-tree descent"))
    else match t.node current with
      | none => .ret (.error (.missingPage current))
      | some n =>
        if n.isLeaf then .ret (.ok current)
        else match n.childForKey key with
          | none => .ret (.error (.corruption "internal routing is malformed"))
          | some child =>
            if child > u32Max then .ret (.error
              (.corruption "internal child page ID exceeds the logical ID width"))
            else .call (depth + 1, child) .ret

theorem findLeafLoop_returns (t : BTree) (key : Bytes) : ∀ (fuel depth : Nat) (current : PageId),
    depth + fuel = maxRoutingDepth →
    Returns (t.findLeafBody key) (t.findLeafBody key (depth, current))
      (t.findLeafLoop key fuel current)
  | 0, depth, current, hd => by
    rw [findLeafBody, if_pos (by omega)]
    exact .ret _
  | fuel + 1, depth, current, hd => by
    rw [findLeafBody, if_neg (by omega), findLeafLoop]
    cases t.node current with
    | none => exact .ret _
    | some n =>
      simp only
      split
      · exact .ret _
      cases n.childForKey key with
      | none => exact .ret _
      | some child =>
        simp only
        split
        · exact .ret _
        · exact .call (findLeafLoop_returns t key fuel (depth + 1) child (by omega)) (.ret _)

/-- The children in `find_parent`, searched one after the other. -/
def scanForParentCalls (current target : PageId) (active : List PageId) :
    List Nat → Calls (PageId × List PageId) (fun _ => Except BTreeError (Option PageId))
      (Except BTreeError (Option PageId))
  | [] => .ret (.ok none)
  | child :: rest =>
    if child > u32Max then .ret (.error (.corruption "internal child page ID exceeds width"))
    else if child = target then .ret (.ok (some current))
    else .call (child, active) fun
      | .error e => .ret (.error e)
      | .ok (some parent) => .ret (.ok (some parent))
      | .ok none => scanForParentCalls current target active rest

/-- `find_parent`, from a page and the pages of the active path. -/
def findParentBody (t : BTree) (target : PageId) :
    PageId × List PageId → Calls (PageId × List PageId) (fun _ => Except BTreeError (Option PageId))
      (Except BTreeError (Option PageId))
  | (current, active) =>
    if current = target then .ret (.ok none)
    else if current ∈ active then
      .ret (.error (.corruption "cycle detected while locating split parent"))
    else match t.node current with
      | none => .ret (.error (.missingPage current))
      | some n =>
        if n.isLeaf then .ret (.ok none)
        else scanForParentCalls current target (current :: active) n.children

theorem scanForParent_returns {t : BTree} {current target : PageId} {active : List PageId}
    {descend : PageId → Except BTreeError (Option PageId)}
    (h : ∀ child, Returns (t.findParentBody target) (t.findParentBody target (child, active))
      (descend child)) :
    ∀ children, Returns (t.findParentBody target)
      (scanForParentCalls current target active children)
      (scanForParent descend current target children)
  | [] => .ret _
  | child :: rest => by
    rw [scanForParentCalls, scanForParent]
    split
    · exact .ret _
    split
    · exact .ret _
    refine .call (h child) ?_
    rcases descend child with e | _ | parent
    · exact .ret _
    · exact scanForParent_returns h rest
    · exact .ret _

theorem findParent_returns (t : BTree) (target : PageId) :
    ∀ (fuel : Nat) (current : PageId) (active : List PageId),
      fresh (List.range t.nodes.length) active < fuel →
      Returns (t.findParentBody target) (t.findParentBody target (current, active))
        (t.findParent target fuel current active)
  | 0, _, _, hlt => absurd hlt (Nat.not_lt_zero _)
  | fuel + 1, current, active, hlt => by
    rw [findParentBody, findParent]
    split
    · exact .ret _
    split
    · exact .ret _
    rename_i hnew
    cases hn : t.node current with
    | none => exact .ret _
    | some n =>
      simp only
      split
      · exact .ret _
      have hmem : current ∈ List.range t.nodes.length :=
        mem_range.mpr (resident_lt (by simp [resident, hn]))
      have hless := fresh_lt hmem hnew
      exact scanForParent_returns
        (fun child => findParent_returns t target fuel child _ (by omega)) _

/-- `parent_of`: the recorded parent, or a search from the root. -/
def parentOfCalls (t : BTree) (id : PageId) :
    Calls (PageId × List PageId) (fun _ => Except BTreeError (Option PageId))
      (Except BTreeError (Option PageId)) :=
  if id = t.root then .ret (.ok none)
  else match t.node id with
    | none => .call (t.root, []) .ret
    | some n => if t.hintChecks n.parentId id then .ret (.ok (some n.parentId))
        else .call (t.root, []) .ret

theorem parentOf_returns (t : BTree) (id : PageId) :
    Returns (t.findParentBody id) (t.parentOfCalls id) (t.parentOf id) := by
  have hfuel : fresh (List.range t.nodes.length) [] < t.searchFuel :=
    Nat.lt_succ_of_le (fresh_le_length.trans_eq length_range)
  have hsearch := t.findParent_returns id t.searchFuel t.root [] hfuel
  rw [parentOfCalls, parentOf]
  split
  · exact .ret _
  cases t.node id with
  | none => exact .call hsearch (.ret _)
  | some n =>
    simp only
    split
    · exact .ret _
    · exact .call hsearch (.ret _)

end BTree

/-- The calls of leaf navigation. -/
inductive NavCall where
  | leftmost (current : PageId) (visited : List PageId)
  | climb (current : PageId) (visited : List PageId) (hint : PageId)
  | path (current : PageId) (active : List PageId)

/-- What the calls answer: a leaf, the outcome of a climb, a path to the leaf sought. -/
@[reducible] def NavCall.Answer (ε : Type) : NavCall → Type
  | .leftmost _ _ => Except ε PageId
  | .climb _ _ _ => Option (Option PageId)
  | .path _ _ => Except ε (Option (List (PageId × Nat)))

namespace Scan

section Nav

variable {ε : Type} (page : PageId → Except ε Node) (errors : ScanErrors ε) (root target : PageId)

/-- The children in `find_path_to_leaf`, searched one after the other. -/
def scanPathCalls (current : PageId) (active : List PageId) :
    Nat → List Nat → Calls NavCall (NavCall.Answer ε) (Except ε (Option (List (PageId × Nat))))
  | _, [] => .ret (.ok none)
  | position, child :: rest => .call (.path child active) fun
      | .error e => .ret (.error e)
      | .ok (some path) => .ret (.ok (some ((current, position) :: path)))
      | .ok none => scanPathCalls current active (position + 1) rest

/-- The procedures of leaf navigation. -/
def navBody : ∀ s : NavCall, Calls NavCall (NavCall.Answer ε) (s.Answer ε)
  | .leftmost current visited =>
    if current ∈ visited then .ret (.error errors.leafCycle)
    else match page current with
      | .error e => .ret (.error e)
      | .ok n =>
        if n.isLeaf then .ret (.ok current)
        else if n.leftmostChild > u32Max then .ret (.error errors.childWidth)
        else .call (.leftmost n.leftmostChild (current :: visited)) .ret
  | .climb current visited hint =>
    if current ∈ visited then .ret none
    else if hint = 0 then .ret (if current = root then some none else none)
    else match page hint with
      | .error _ => .ret none
      | .ok parent =>
        if parent.isLeaf then .ret none
        else match childPosition parent current with
          | none => .ret none
          | some position =>
            if position < parent.count then
              match parent.childId position with
              | none => .ret none
              | some next =>
                if next > u32Max then .ret none
                else .call (.leftmost next []) fun
                  | .error _ => .ret none
                  | .ok leaf => .ret (some (some leaf))
            else .call (.climb hint (current :: visited) parent.parentId) .ret
  | .path current active =>
    if current ∈ active then .ret (.error errors.pathCycle)
    else match page current with
      | .error e => .ret (.error e)
      | .ok n =>
        if n.isLeaf then .ret (.ok (if current = target then some [] else none))
        else if n.children.any (fun child => child > u32Max) then .ret (.error errors.childWidth)
        else scanPathCalls current (current :: active) 0 n.children

/-- The pages of a path, tried from the leaf upwards. -/
def nextInPathCalls (parentPage : PageId → Except ε Node) :
    List (PageId × Nat) → Calls NavCall (NavCall.Answer ε) (Except ε (Option PageId))
  | [] => .ret (.ok none)
  | (parentId, position) :: rest => match parentPage parentId with
    | .error e => .ret (.error e)
    | .ok parent =>
      if position < parent.count then
        match parent.childId position with
        | none => .ret (.error errors.childMalformed)
        | some next =>
          if next > u32Max then .ret (.error errors.childWidth)
          else .call (.leftmost next []) fun
            | .error e => .ret (.error e)
            | .ok leaf => .ret (.ok (some leaf))
      else nextInPathCalls parentPage rest

/-- `next_leaf`: climb the hints, else search from the root. -/
def nextLeafCalls (parentPage : PageId → Except ε Node) (hint : PageId) :
    Calls NavCall (NavCall.Answer ε) (Except ε (Option PageId)) :=
  .call (.climb target [] hint) fun
    | some next => .ret (.ok next)
    | none => .call (.path root []) fun
        | .error e => .ret (.error e)
        | .ok none => .ret (.error errors.unreachable)
        | .ok (some path) => nextInPathCalls errors parentPage path.reverse

end Nav

section NavReturns

variable {ε : Type} {page parentPage : PageId → Except ε Node} {errors : ScanErrors ε}
  {root target : PageId} {ids : List PageId}

theorem leftmostLeaf_returns (hids : ∀ p n, page p = .ok n → p ∈ ids) :
    ∀ (fuel : Nat) (current : PageId) (visited : List PageId), fresh ids visited < fuel →
      Returns (navBody page errors root target)
        (navBody page errors root target (.leftmost current visited))
        (leftmostLeaf page errors fuel current visited)
  | 0, _, _, hlt => absurd hlt (Nat.not_lt_zero _)
  | fuel + 1, current, visited, hlt => by
    rw [navBody, leftmostLeaf]
    split
    · exact .ret _
    rename_i hnew
    cases hpage : page current with
    | error e => exact .ret _
    | ok n =>
      simp only
      split
      · exact .ret _
      split
      · exact .ret _
      · have hless := fresh_lt (hids current n hpage) hnew
        exact .call (leftmostLeaf_returns hids fuel _ _ (by omega)) (.ret _)

/-- A climb marks the page it starts from, which need not be readable, and then pages it read. -/
theorem climb_returns (hids : ∀ p n, page p = .ok n → p ∈ ids) {depth : Nat}
    (hdepth : ids.length < depth) :
    ∀ (fuel : Nat) (current : PageId) (visited : List PageId) (hint : PageId),
      fresh ids visited < fuel ∨ current ∈ ids ∧ fresh ids visited ≤ fuel →
      Returns (navBody page errors root target)
        (navBody page errors root target (.climb current visited hint))
        (nextLeafFromParentHint page errors depth root fuel current visited hint)
  | 0, current, visited, hint, hlt => by
    have hmarked : current ∈ visited := by
      by_contra hnew
      rcases hlt with hlt | ⟨hmem, hle⟩
      · omega
      · have hless := fresh_lt hmem hnew
        omega
    rw [navBody, if_pos hmarked, nextLeafFromParentHint]
    exact .ret _
  | fuel + 1, current, visited, hint, hlt => by
    rw [navBody, nextLeafFromParentHint]
    split
    · exact .ret _
    rename_i hnew
    split
    · exact .ret _
    rcases hpage : page hint with e | parent
    · exact .ret _
    simp only
    split
    · exact .ret _
    cases childPosition parent current with
    | none => exact .ret _
    | some position =>
      simp only
      split
      · cases parent.childId position with
        | none => exact .ret _
        | some next =>
          simp only
          split
          · exact .ret _
          refine .call (leftmostLeaf_returns hids depth next []
            (fresh_le_length.trans_lt hdepth)) ?_
          cases leftmostLeaf page errors depth next [] with
          | error e => exact .ret _
          | ok leaf => exact .ret _
      · refine .call (climb_returns hids hdepth fuel hint (current :: visited) _
          (.inr ⟨hids hint parent hpage, ?_⟩)) (.ret _)
        rcases hlt with hlt | ⟨hmem, hle⟩
        · have hle : fresh ids (current :: visited) ≤ fresh ids visited :=
            fresh_anti (subset_cons_self _ _)
          omega
        · have hless := fresh_lt hmem hnew
          omega

theorem scanPath_returns {current : PageId} {active : List PageId}
    {descend : PageId → Except ε (Option (List (PageId × Nat)))}
    (h : ∀ child, Returns (navBody page errors root target)
      (navBody page errors root target (.path child active)) (descend child)) :
    ∀ (position : Nat) (children : List Nat), Returns (navBody page errors root target)
      (scanPathCalls current active position children) (scanPath descend current position children)
  | _, [] => .ret _
  | position, child :: rest => by
    rw [scanPathCalls, scanPath]
    refine .call (h child) ?_
    rcases descend child with e | _ | path
    · exact .ret _
    · exact scanPath_returns h (position + 1) rest
    · exact .ret _

theorem findPathToLeaf_returns (hids : ∀ p n, page p = .ok n → p ∈ ids) :
    ∀ (fuel : Nat) (current : PageId) (active : List PageId), fresh ids active < fuel →
      Returns (navBody page errors root target)
        (navBody page errors root target (.path current active))
        (findPathToLeaf page errors target fuel current active)
  | 0, _, _, hlt => absurd hlt (Nat.not_lt_zero _)
  | fuel + 1, current, active, hlt => by
    rw [navBody, findPathToLeaf]
    split
    · exact .ret _
    rename_i hnew
    cases hpage : page current with
    | error e => exact .ret _
    | ok n =>
      simp only
      split
      · exact .ret _
      split
      · exact .ret _
      · have hless := fresh_lt (hids current n hpage) hnew
        exact scanPath_returns (fun child =>
          findPathToLeaf_returns hids fuel child (current :: active) (by omega)) 0 _

theorem nextInPath_returns (hids : ∀ p n, page p = .ok n → p ∈ ids) {depth : Nat}
    (hdepth : ids.length < depth) : ∀ path : List (PageId × Nat),
      Returns (navBody page errors root target) (nextInPathCalls errors parentPage path)
        (nextInPath page errors parentPage depth path)
  | [] => .ret _
  | (parentId, position) :: rest => by
    rw [nextInPathCalls, nextInPath]
    cases parentPage parentId with
    | error e => exact .ret _
    | ok parent =>
      simp only
      split
      · cases parent.childId position with
        | none => exact .ret _
        | some next =>
          simp only
          split
          · exact .ret _
          refine .call (leftmostLeaf_returns hids depth next []
            (fresh_le_length.trans_lt hdepth)) ?_
          cases leftmostLeaf page errors depth next [] with
          | error e => exact .ret _
          | ok leaf => exact .ret _
      · exact nextInPath_returns hids hdepth rest

theorem nextLeaf_returns (hids : ∀ p n, page p = .ok n → p ∈ ids) {depth : Nat}
    (hdepth : ids.length < depth) (hint : PageId) :
    Returns (navBody page errors root target) (nextLeafCalls errors root target parentPage hint)
      (nextLeaf page errors parentPage depth root target hint) := by
  have hfresh : fresh ids [] < depth := fresh_le_length.trans_lt hdepth
  rw [nextLeafCalls, nextLeaf]
  refine .call (climb_returns hids hdepth depth target [] hint (.inl hfresh)) ?_
  cases nextLeafFromParentHint page errors depth root depth target [] hint with
  | some next => exact .ret _
  | none =>
    refine .call (findPathToLeaf_returns hids depth root [] hfresh) ?_
    rcases findPathToLeaf page errors target depth root [] with e | _ | path
    · exact .ret _
    · exact .ret _
    · exact nextInPath_returns hids hdepth path.reverse

end NavReturns

end Scan

namespace Lazy

/-- `find_leaf_page`, from a page and the pages visited. -/
def findLeafPageBody (page : PageId → Except Error Node) (key : Bytes) :
    PageId × List PageId → Calls (PageId × List PageId) (fun _ => Except Error PageId)
      (Except Error PageId)
  | (current, visited) =>
    if current ∈ visited then
      .ret (.error (.corruption "cycle detected during lazy B-tree descent"))
    else match page current with
      | .error e => .ret (.error e)
      | .ok n =>
        if n.isLeaf then .ret (.ok current)
        else match n.childForKey key with
          | none => .ret (.error (.corruption "lazy internal routing is malformed"))
          | some child =>
            if child > u32Max then
              .ret (.error (.corruption "lazy internal child ID exceeds logical width"))
            else .call (child, current :: visited) .ret

theorem findLeafPage_returns {page : PageId → Except Error Node} {ids : List PageId} (key : Bytes)
    (hids : ∀ p n, page p = .ok n → p ∈ ids) :
    ∀ (fuel : Nat) (current : PageId) (visited : List PageId), fresh ids visited < fuel →
      Returns (findLeafPageBody page key) (findLeafPageBody page key (current, visited))
        (findLeafPage page key fuel current visited)
  | 0, _, _, hlt => absurd hlt (Nat.not_lt_zero _)
  | fuel + 1, current, visited, hlt => by
    rw [findLeafPageBody, findLeafPage]
    split
    · exact .ret _
    rename_i hnew
    cases hpage : page current with
    | error e => exact .ret _
    | ok n =>
      simp only
      split
      · exact .ret _
      cases n.childForKey key with
      | none => exact .ret _
      | some child =>
        simp only
        split
        · exact .ret _
        · have hless := fresh_lt (hids current n hpage) hnew
          exact .call (findLeafPage_returns key hids fuel _ _ (by omega)) (.ret _)

end Lazy

namespace Verify

/-- A call of `verify_tree_node`: the page, its bounds and the progress so far. -/
structure VisitCall where
  pageId : PageId
  lower : Option Bytes
  upper : Option Bytes
  progress : Progress

/-- The children of a page, visited one after the other. -/
def verifyChildrenCalls (pmt : PMT) (pageId : PageId) :
    List (PageId × Option Bytes × Option Bytes) → Progress →
      Calls VisitCall (fun _ => Except Error Progress) (Except Error Progress)
  | [], p => .ret (.ok p)
  | (child, lower, upper) :: rest, p =>
    if child > u32Max then .ret (.error (.corruption
      ("internal page " ++ toString pageId ++ " child exceeds ID width")))
    else if ¬ pmt.contains child then .ret (.error (.corruption
      ("internal page " ++ toString pageId ++ " references missing child " ++ toString child)))
    else .call ⟨child, lower, upper, p⟩ fun
      | .error e => .ret (.error e)
      | .ok p => verifyChildrenCalls pmt pageId rest p

/-- `verify_tree_node`. -/
def verifyTreeNodeBody (dev : Device) (pmt : PMT) :
    VisitCall → Calls VisitCall (fun _ => Except Error Progress) (Except Error Progress)
  | ⟨pageId, lower, upper, p⟩ =>
    if pageId ∈ p.visited then
      .ret (.error (.corruption ("B-tree cycle reaches page " ++ toString pageId)))
    else match readNodeFromPmt dev pmt pageId with
      | .error e => .ret (.error e)
      | .ok n => match verifyKeys pageId lower upper none n.keys with
        | .error e => .ret (.error e)
        | .ok () =>
          let p := { p with visited := pageId :: p.visited }
          if n.isLeaf then .ret (.ok { p with blobPointers := p.blobPointers ++ pointersOf n })
          else verifyChildrenCalls pmt pageId (boundedChildren n lower upper) p

variable {dev : Device} {pmt : PMT} {ids : List PageId}

/-- A visit takes no mark away, so the next child is visited with no more pages left. -/
theorem verifyChildren_returns {pageId : PageId} {fuel : Nat}
    (h : ∀ child lower upper p, fresh ids p.visited < fuel →
      Returns (verifyTreeNodeBody dev pmt) (verifyTreeNodeBody dev pmt ⟨child, lower, upper, p⟩)
        (verifyTreeNode dev pmt fuel child lower upper p)) :
    ∀ children p, fresh ids p.visited < fuel →
      Returns (verifyTreeNodeBody dev pmt) (verifyChildrenCalls pmt pageId children p)
        (verifyChildren pmt pageId (verifyTreeNode dev pmt fuel) children p)
  | [], p, _ => .ret _
  | (child, lower, upper) :: rest, p, hlt => by
    rw [verifyChildrenCalls, verifyChildren]
    split
    · exact .ret _
    split
    · exact .ret _
    refine .call (h child lower upper p hlt) ?_
    cases hvisit : verifyTreeNode dev pmt fuel child lower upper p with
    | error e => exact .ret _
    | ok p' =>
      refine verifyChildren_returns h rest p' ((fresh_anti ?_).trans_lt hlt)
      obtain ⟨fuel, rfl⟩ := Nat.exists_eq_add_one.mpr ((Nat.zero_le _).trans_lt hlt)
      rw [(verifyTreeNode_visits fuel).visited hvisit]
      exact subset_append_right _ _

theorem verifyTreeNode_returns (hids : ∀ p n, readNodeFromPmt dev pmt p = .ok n → p ∈ ids) :
    ∀ (fuel : Nat) (pageId : PageId) (lower upper : Option Bytes) (p : Progress),
      fresh ids p.visited < fuel →
      Returns (verifyTreeNodeBody dev pmt) (verifyTreeNodeBody dev pmt ⟨pageId, lower, upper, p⟩)
        (verifyTreeNode dev pmt fuel pageId lower upper p)
  | 0, _, _, _, _, hlt => absurd hlt (Nat.not_lt_zero _)
  | fuel + 1, pageId, lower, upper, p, hlt => by
    rw [verifyTreeNodeBody, verifyTreeNode]
    split
    · exact .ret _
    rename_i hnew
    cases hread : readNodeFromPmt dev pmt pageId with
    | error e => exact .ret _
    | ok n =>
      simp only
      cases verifyKeys pageId lower upper none n.keys with
      | error e => exact .ret _
      | ok _ =>
        simp only
        split
        · exact .ret _
        · have hless := fresh_lt (hids pageId n hread) hnew
          exact verifyChildren_returns (verifyTreeNode_returns hids fuel) _
            { p with visited := pageId :: p.visited } (hless.trans_le (Nat.le_of_lt_succ hlt))

/-- `verify_tree_with_pmt`: the checks around the visit of the root. -/
def verifyTreeCalls (rootPageId : PageId) (pmt : PMT) :
    Calls VisitCall (fun _ => Except Error Progress) (Except Error (List BlobPointer)) :=
  if rootPageId > u32Max then .ret (.error (.corruption "root page exceeds logical ID width"))
  else if pmt.isEmpty then
    if rootPageId ≠ 0 then .ret (.error (.corruption
      ("empty PMT names non-zero root page " ++ toString rootPageId)))
    else .ret (.ok [])
  else if ¬ pmt.contains rootPageId then .ret (.error (.corruption
    ("root page " ++ toString rootPageId ++ " is absent from PMT")))
  else if pmt.mappings.any (fun entry => entry.1 > u32Max) then
    .ret (.error (.corruption "PMT contains a page ID outside the logical width"))
  else .call ⟨rootPageId, none, none, ⟨[], []⟩⟩ fun
    | .error e => .ret (.error e)
    | .ok p =>
      if p.visited.length ≠ pmt.mappings.length then .ret (.error (.corruption
        ("PMT contains unreachable page " ++ toString
          (((pmt.mappings.map Prod.fst).find? fun pageId => pageId ∉ p.visited).getD 0))))
      else .ret (.ok p.blobPointers)

theorem verifyTreeAt_returns (hids : ∀ p n, readNodeFromPmt dev pmt p = .ok n → p ∈ ids)
    (hcount : ids.length < pmt.searchFuel) (rootPageId : PageId) :
    Returns (verifyTreeNodeBody dev pmt) (verifyTreeCalls rootPageId pmt)
      (verifyTreeAt dev rootPageId pmt) := by
  rw [verifyTreeCalls, verifyTreeAt]
  split
  · exact .ret _
  split
  · split
    · exact .ret _
    · exact .ret _
  split
  · exact .ret _
  split
  · exact .ret _
  refine .call (verifyTreeNode_returns hids _ rootPageId none none ⟨[], []⟩
    (fresh_le_length.trans_lt hcount)) ?_
  cases verifyTreeNode dev pmt pmt.searchFuel rootPageId none none ⟨[], []⟩ with
  | error e => exact .ret _
  | ok p =>
    simp only
    split
    · exact .ret _
    · exact .ret _

end Verify

/-- **Every walk ends**, whatever the pages hold: in memory `find_leaf`, `find_parent` from any
page, `parent_of` and `next_leaf`, on the lazy path `find_leaf_page`, `next_leaf_page` and the
verification of a tree.  The answer is the one the model gives, a result or an error. -/
theorem traversals_end :
    (∀ (t : BTree) (key : Bytes),
      Ends (t.findLeafBody key) (t.findLeafBody key (0, t.root)) (t.findLeaf key)) ∧
    (∀ (t : BTree) (target current : PageId),
      Ends (t.findParentBody target) (t.findParentBody target (current, []))
        (t.findParent target t.searchFuel current [])) ∧
    (∀ (t : BTree) (id : PageId), Ends (t.findParentBody id) (t.parentOfCalls id) (t.parentOf id)) ∧
    (∀ (t : BTree) (target hint : PageId),
      Ends (Scan.navBody (t.pageOr "range page is missing") BTree.scanErrors t.root target)
        (Scan.nextLeafCalls BTree.scanErrors t.root target
          (t.pageOr "range parent page is missing") hint) (t.nextLeafChecked target hint)) ∧
    (∀ (dev : Device) (pmt : PMT) (root : PageId) (key : Bytes),
      Ends (Lazy.findLeafPageBody (readNodeFromPmt dev pmt) key)
        (Lazy.findLeafPageBody (readNodeFromPmt dev pmt) key (root, []))
        (Lazy.findLeafPage (readNodeFromPmt dev pmt) key pmt.searchFuel root [])) ∧
    (∀ (dev : Device) (pmt : PMT) (root target hint : PageId),
      Ends (Scan.navBody (readNodeFromPmt dev pmt) Lazy.scanErrors root target)
        (Scan.nextLeafCalls Lazy.scanErrors root target (readNodeFromPmt dev pmt) hint)
        (nextLeafPage dev pmt root target hint)) ∧
    ∀ (dev : Device) (pmt : PMT) (root : PageId),
      Ends (Verify.verifyTreeNodeBody dev pmt) (Verify.verifyTreeCalls root pmt)
        (verifyTreeAt dev root pmt) := by
  have hloaded : ∀ (t : BTree), (List.range t.nodes.length).length < t.searchFuel := by
    intro t
    rw [length_range]
    exact Nat.lt_succ_self _
  have hmapped : ∀ pmt : PMT, (pmt.mappings.map Prod.fst).length < pmt.searchFuel := by
    intro pmt
    rw [length_map]
    exact Nat.lt_succ_self _
  have hpages : ∀ (t : BTree) (p : PageId) (n : Node),
      t.pageOr "range page is missing" p = .ok n → p ∈ List.range t.nodes.length := by
    intro t p n hp
    refine mem_range.mpr (BTree.resident_lt ?_)
    rw [(t.reads_resident _).sound p n hp]
    exact Option.some_ne_none _
  have hreads : ∀ (dev : Device) (pmt : PMT) (p : PageId) (n : Node),
      readNodeFromPmt dev pmt p = .ok n → p ∈ pmt.mappings.map Prod.fst := by
    intro dev pmt p n hp
    refine @mapped_of_pageStore dev pmt p ?_
    rw [pageStore_ok hp]
    exact Option.some_ne_none _
  refine ⟨fun t key => ?_, fun t target current => ?_, fun t id => (t.parentOf_returns id).ends,
    fun t target hint => ?_, fun dev pmt root key => ?_, fun dev pmt root target hint => ?_,
    fun dev pmt root => ?_⟩
  · exact (t.findLeafLoop_returns key maxRoutingDepth 0 t.root (Nat.zero_add _)).ends
  · exact (t.findParent_returns target _ current [] (fresh_le_length.trans_lt (hloaded t))).ends
  · exact (Scan.nextLeaf_returns (hpages t) (hloaded t) hint).ends
  · exact (Lazy.findLeafPage_returns key (hreads dev pmt) _ root []
      (fresh_le_length.trans_lt (hmapped pmt))).ends
  · exact (Scan.nextLeaf_returns (hreads dev pmt) (hmapped pmt) hint).ends
  · exact (Verify.verifyTreeAt_returns (hreads dev pmt) (hmapped pmt) root).ends

end SeerDb
