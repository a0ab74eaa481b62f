/-
# `SeerDb.Btree.LeafNav` — from a leaf to the next one

Leaf navigation finds the next leaf in order, whichever of its two ways it takes:
a recorded parent that references the page is its parent, because only one page
does, and the search from the root cannot miss a leaf of the tree.

Nothing here depends on keys or on even height, so it holds of every tree whose
pages are reached once: those the engine builds and those it only verifies.
-/
import SeerDb.Btree.Mutate
import SeerDb.Btree.Scan

namespace SeerDb

open Lib List

/-- Reading a page gives the page of the store. -/
structure Reads {ε : Type} (page : Nat → Except ε Node) (S : Store Bytes Value) : Prop where
  sound : ∀ p m, page p = .ok m → S p = some m.body
  complete : ∀ p b, S p = some b → ∃ m, page p = .ok m ∧ m.body = b

namespace Scan

variable {ε : Type} {page parentPage : Nat → Except ε Node} {errors : ScanErrors ε}
  {S : Store Bytes Value} {cs : List (Bytes × Nat)} {m : Node} {l : Nat}

theorem any_wide_eq_false {cs : List Nat} (h : ∀ c ∈ cs, c ≤ u32Max) :
    cs.any (fun child => decide (child > u32Max)) = false := by
  rw [any_eq_false]
  intro c hc
  simpa using h c hc

theorem children_eq (hb : m.body = .inner l cs) :
    m.children = l :: cs.map Prod.snd := by simp [Node.children, hb]

theorem childId_eq (hb : m.body = .inner l cs)
    (i : Nat) : m.childId i = (l :: cs.map Prod.snd)[i + 1]? := by
  simp [Node.childId, hb]

theorem leftmostLeaf_eq (hR : Reads page S) : ∀ {h fuel p : Nat} {visited : List Nat},
    IsTree S h p → (pagesOf S h p).Nodup → (∀ a ∈ visited, a ∉ pagesOf S h p) →
    (∀ q ∈ pagesOf S h p, q ≤ u32Max) → h < fuel →
    ∃ leaf rest, leavesUnder S h p = leaf :: rest ∧
      leftmostLeaf page errors fuel p visited = .ok leaf
  | _, 0, _, _, _, _, _, _, hlt => absurd hlt (Nat.not_lt_zero _)
  | h, fuel + 1, p, visited, ht, hn, hv, hlim, hlt => by
    have hpv : p ∉ visited := fun hm => hv p hm (self_mem_pagesOf S h p)
    rw [leftmostLeaf, if_neg hpv]
    rcases ht.cases with ⟨es, hp⟩ | ⟨h, l, cs, rfl, hp, hcs⟩
    · obtain ⟨m, hm, hb⟩ := hR.complete p _ hp
      exact ⟨p, [], leavesUnder_leaf hp h, by simp [hm, Node.isLeaf_leaf hb]⟩
    obtain ⟨m, hm, hb⟩ := hR.complete p _ hp
    have hchild : l ∈ l :: cs.map Prod.snd := .head _
    have hmem : ∀ y ∈ pagesOf S h l, y ∈ pagesOf S (h + 1) p := pagesOf_child hp hchild
    obtain ⟨hpq, hnq⟩ := nodup_child hp hn hchild
    have hv' : ∀ a ∈ p :: visited, a ∉ pagesOf S h l := by
      intro a ha hal
      rcases mem_cons.mp ha with rfl | ha
      · exact hpq hal
      · exact hv a ha (hmem a hal)
    obtain ⟨leaf, rest, h5, h6⟩ := leftmostLeaf_eq hR (hcs l hchild) hnq hv'
      (fun y hy => hlim y (hmem y hy)) (Nat.lt_of_succ_lt_succ hlt)
    have hwide : ¬ l > u32Max := not_lt.mpr (hlim l (hmem l (self_mem_pagesOf S h l)))
    refine ⟨leaf, rest ++ (cs.map Prod.snd).flatMap (leavesUnder S h), ?_, ?_⟩
    · rw [leavesUnder_inner hp]
      simp [h5]
    · simp [hm, Node.isLeaf_inner hb, Node.leftmostChild, hb, hwide, h6]

theorem scanPath_none {descend : Nat → Except ε (Option (List (Nat × Nat)))} {current : Nat} :
    ∀ {cs : List Nat}, (∀ c ∈ cs, descend c = .ok none) → ∀ (position : Nat) (rest : List Nat),
      scanPath descend current position (cs ++ rest)
        = scanPath descend current (position + cs.length) rest
  | [], _, _, _ => rfl
  | c :: cs, h, position, rest => by
    rw [cons_append, scanPath, h c (.head _)]
    simp only
    rw [scanPath_none (fun x hx => h x (.tail _ hx)), length_cons]
    congr 1
    omega

/-- The search comes back empty from a subtree without the leaf. -/
theorem findPathToLeaf_avoid (hR : Reads page S) {target : Nat} : ∀ {h fuel x : Nat}
    {active : List Nat}, IsTree S h x → (pagesOf S h x).Nodup → target ∉ leavesUnder S h x →
    (∀ a ∈ active, a ∉ pagesOf S h x) → (∀ q ∈ pagesOf S h x, q ≤ u32Max) → h < fuel →
    findPathToLeaf page errors target fuel x active = .ok none
  | _, 0, _, _, _, _, _, _, _, hlt => absurd hlt (Nat.not_lt_zero _)
  | h, fuel + 1, x, active, ht, hn, hno, ha, hlim, hlt => by
    have hxa : x ∉ active := fun hm => ha x hm (self_mem_pagesOf S h x)
    rw [findPathToLeaf, if_neg hxa]
    rcases ht.cases with ⟨es, hx⟩ | ⟨h, l, cs, rfl, hx, hcs⟩
    · obtain ⟨m, hm, hb⟩ := hR.complete x _ hx
      have hne : x ≠ target := fun he => hno (by rw [leavesUnder_leaf hx, he]; simp)
      simp [hm, Node.isLeaf_leaf hb, hne]
    obtain ⟨m, hm, hb⟩ := hR.complete x _ hx
    have hall : ∀ c ∈ l :: cs.map Prod.snd, c ≤ u32Max ∧
        findPathToLeaf page errors target fuel c (x :: active) = .ok none := by
      intro c hc
      have hmem : ∀ y ∈ pagesOf S h c, y ∈ pagesOf S (h + 1) x := pagesOf_child hx hc
      obtain ⟨hxq, hnq⟩ := nodup_child hx hn hc
      refine ⟨hlim c (hmem c (self_mem_pagesOf S h c)), ?_⟩
      refine findPathToLeaf_avoid hR (hcs c hc) hnq (fun hm => hno ?_) ?_
        (fun y hy => hlim y (hmem y hy)) (Nat.lt_of_succ_lt_succ hlt)
      · rw [leavesUnder_inner hx]
        exact mem_flatMap.mpr ⟨c, hc, hm⟩
      · intro a ha' haq
        rcases mem_cons.mp ha' with rfl | ha'
        · exact hxq haq
        · exact ha a ha' (hmem a haq)
    have hscan := @scanPath_none _ _ x _ (fun c hc => (hall c hc).2) 0 []
    rw [append_nil] at hscan
    rw [hm]
    simp only [Node.isLeaf_inner hb, Bool.false_eq_true, if_false]
    rw [children_eq hb, any_wide_eq_false fun c hc => (hall c hc).1]
    simp only [Bool.false_eq_true, if_false]
    rw [hscan]
    rfl

/-! ## The next leaf -/

/-- A tree read through `page`, with fuel `depth` for its paths: all pages there are,
each reached once. -/
structure Walk (page : Nat → Except ε Node) (S : Store Bytes Value) (height root depth : Nat) :
    Prop where
  reads : Reads page S
  tree : IsTree S height root
  nodup : (pagesOf S height root).Nodup
  limit : ∀ q ∈ pagesOf S height root, q ≤ u32Max
  only : ∀ q, S q ≠ none → q ∈ pagesOf S height root
  deep : height < depth

section Walk

variable {height root depth j x : Nat} {up : List (Nat × Nat)} {after : List Nat} {c : Nat}

/-- The leftmost leaf under the first sibling to the right. -/
theorem leftmost_sibling (errors : ScanErrors ε) (hW : Walk page S height root depth) {p c' : Nat}
    {A B : List Nat} (h : PathTo S height root (j + 1) p up after)
    (hp : S p = some (.inner l cs)) (hcut : l :: cs.map Prod.snd = A ++ c :: c' :: B) :
    ¬ c' > u32Max ∧ ∃ leaf, leftmostLeaf page errors depth c' [] = .ok leaf ∧
      ((c' :: B).flatMap (leavesUnder S j) ++ after).head? = some leaf := by
  have hr : PathTo S height root j c' ((p, (A ++ [c]).length) :: up)
      (B.flatMap (leavesUnder S j) ++ after) := h.child hp (by simp [hcut])
  obtain ⟨ht, hsub⟩ := hr.isTree hW.tree
  have hlim : ∀ q ∈ pagesOf S j c', q ≤ u32Max := fun q hq => hW.limit q (hsub.subset hq)
  have hdepth : j < depth := hr.le.trans_lt hW.deep
  have hleft : ∃ leaf rest, leavesUnder S j c' = leaf :: rest ∧
      leftmostLeaf page errors depth c' [] = .ok leaf :=
    leftmostLeaf_eq hW.reads ht (hW.nodup.sublist hsub) (by simp) hlim hdepth
  obtain ⟨leaf, rest, h1, h2⟩ := hleft
  exact ⟨not_lt.mpr (hlim c' (self_mem_pagesOf S j c')), leaf, h2, by simp [h1]⟩

theorem nextInPath_eq (hW : Walk page S height root depth)
    (hP : Reads parentPage S) (h : PathTo S height root j x up after) :
    nextInPath page errors parentPage depth up = .ok after.head? := by
  induction h with
  | root => rfl
  | child h hp hcut ih =>
    rename_i j p l c cs A B up after
    obtain ⟨m, hm, hb⟩ := hP.complete p _ hp
    have hcount : m.count = A.length + B.length := by
      have := congrArg List.length hcut
      simp only [length_cons, length_map, length_append] at this
      rw [Node.count_inner hb]
      omega
    rw [nextInPath, hm]
    simp only [hcount]
    cases B with
    | nil =>
      rw [if_neg (by simp), ih]
      simp
    | cons c' B =>
      obtain ⟨hwide, leaf, hl, hhead⟩ := leftmost_sibling errors hW h hp hcut
      rw [if_pos (by simp), childId_eq hb, hcut, List.getElem?_append_right (by omega)]
      simp only [Nat.add_sub_cancel_left, List.getElem?_cons_succ, List.getElem?_cons_zero,
        if_neg hwide, hl]
      rw [hhead]

/-- One level of a successful search: the children before `c` come back empty. -/
theorem findPathToLeaf_step (hW : Walk page S height root depth) {target p : Nat}
    {A B : List Nat} {down : List (Nat × Nat)}
    (h : PathTo S height root (j + 1) p up after) (hp : S p = some (.inner l cs))
    (hcut : l :: cs.map Prod.snd = A ++ c :: B) (ht : target ∈ leavesUnder S j c)
    (hfound : ∀ fuel active, j < fuel → (∀ a ∈ active, a ∉ pagesOf S j c) →
      findPathToLeaf page errors target fuel c active = .ok (some down)) :
    ∀ fuel active, j + 1 < fuel → (∀ a ∈ active, a ∉ pagesOf S (j + 1) p) →
      findPathToLeaf page errors target fuel p active = .ok (some ((p, A.length) :: down)) := by
  intro fuel active hlt ha
  obtain ⟨fuel, rfl⟩ : ∃ f, fuel = f + 1 := ⟨fuel - 1, by omega⟩
  obtain ⟨-, hsub⟩ := h.isTree hW.tree
  have hnp := hW.nodup.sublist hsub
  obtain ⟨m, hm, hb⟩ := hW.reads.complete p _ hp
  have hpa : p ∉ active := fun hm => ha p hm (self_mem_pagesOf S (j + 1) p)
  have hrefs : S.refs p = A ++ c :: B := by rw [Store.refs, hp, ← hcut]; rfl
  rw [pagesOf, hrefs, nodup_cons, nodup_flatMap] at hnp
  obtain ⟨hpq, hnd, hpw⟩ := hnp
  have hmem : ∀ y ∈ A ++ c :: B, ∀ z ∈ pagesOf S j y, z ∈ pagesOf S (j + 1) p := fun y hy =>
    pagesOf_child hp (hcut ▸ hy)
  have hact : ∀ y ∈ A ++ c :: B, ∀ a ∈ p :: active, a ∉ pagesOf S j y := by
    intro y hy a ha' hay
    rcases mem_cons.mp ha' with rfl | ha'
    · exact hpq (mem_flatMap.mpr ⟨y, hy, hay⟩)
    · exact ha a ha' (hmem y hy a hay)
  have hlim : ∀ z ∈ pagesOf S (j + 1) p, z ≤ u32Max := fun z hz => hW.limit z (hsub.subset hz)
  have hcM : c ∈ A ++ c :: B := by simp
  have hleft : ∀ y ∈ A, findPathToLeaf page errors target fuel y (p :: active) = .ok none := by
    intro y hy
    have hyM : y ∈ A ++ c :: B := mem_append_left _ hy
    obtain ⟨A', B', hcut'⟩ := append_of_mem hyM
    obtain ⟨ht', -⟩ := (h.child hp (hcut.trans hcut')).isTree hW.tree
    have hdis : List.Disjoint (pagesOf S j y) (pagesOf S j c) :=
      (pairwise_append.mp hpw).2.2 y hy c (.head _)
    refine findPathToLeaf_avoid hW.reads ht' (hnd y hyM) (fun hty => ?_) (hact y hyM)
      (fun z hz => hlim z (hmem y hyM z hz)) (by omega)
    exact hdis ((leavesUnder_sublist_pagesOf j y).subset hty)
      ((leavesUnder_sublist_pagesOf j c).subset ht)
  rw [findPathToLeaf, if_neg hpa, hm]
  simp only [Node.isLeaf_inner hb, Bool.false_eq_true, if_false]
  rw [children_eq hb, hcut, any_wide_eq_false fun y hy =>
    hlim y (hmem y hy y (self_mem_pagesOf S j y)),
    scanPath_none hleft, scanPath, hfound fuel _ (by omega) (hact c hcM)]
  simp

theorem findPathToLeaf_up (hW : Walk page S height root depth) {target : Nat}
    (h : PathTo S height root j x up after) : ∀ {down : List (Nat × Nat)},
    target ∈ leavesUnder S j x → (∀ fuel active, j < fuel → (∀ a ∈ active, a ∉ pagesOf S j x) →
      findPathToLeaf page errors target fuel x active = .ok (some down)) →
    findPathToLeaf page errors target depth root [] = .ok (some (up.reverse ++ down)) := by
  induction h with
  | root =>
    intro down _ hfound
    exact hfound depth [] hW.deep (by simp)
  | child h hp hcut ih =>
    rename_i j p l c cs A B up after
    intro down ht hfound
    have htp : target ∈ leavesUnder S (j + 1) p := by
      rw [leavesUnder_inner hp]
      exact mem_flatMap.mpr ⟨c, by simp [hcut], ht⟩
    rw [ih htp (findPathToLeaf_step hW h hp hcut ht hfound)]
    simp

theorem findPathToLeaf_eq (hW : Walk page S height root depth) {leaf : Nat}
    {es : List (Bytes × Value)} (hleaf : S leaf = some (.leaf es))
    (h : PathTo S height root j leaf up after) :
    findPathToLeaf page errors leaf depth root [] = .ok (some up.reverse) := by
  have hfound : ∀ fuel active, j < fuel → (∀ a ∈ active, a ∉ pagesOf S j leaf) →
      findPathToLeaf page errors leaf fuel leaf active = .ok (some []) := by
    intro fuel active hlt ha
    obtain ⟨fuel, rfl⟩ : ∃ f, fuel = f + 1 := ⟨fuel - 1, by omega⟩
    obtain ⟨m, hm, hb⟩ := hW.reads.complete leaf _ hleaf
    have hla : leaf ∉ active := fun hm => ha leaf hm (self_mem_pagesOf S j leaf)
    rw [findPathToLeaf, if_neg hla, hm]
    simp [Node.isLeaf_leaf hb]
  have := findPathToLeaf_up hW h (by simp [leavesUnder_leaf hleaf]) hfound
  simpa using this

theorem childPosition_sound {position : Nat}
    (hb : m.body = .inner l cs) (h : childPosition m c = some position) :
    (l :: cs.map Prod.snd)[position]? = some c := by
  rw [childPosition] at h
  split at h
  · rename_i hl
    cases h
    simpa [Node.leftmostChild, hb] using hl
  · obtain ⟨i, hi, rfl⟩ := Option.map_eq_some_iff.mp h
    have := List.find?_some hi
    rw [childId_eq hb] at this
    simpa using this

/-- A recorded parent that is an internal page referencing `c` is the parent of `c`. -/
theorem hint_references (hW : Walk page S height root depth) {hint position : Nat}
    {parent : Node} (hm : page hint = .ok parent) (hl : ¬ parent.isLeaf = true)
    (hpos : childPosition parent c = some position) :
    ∃ l cs, S hint = some (.inner l cs) ∧ parent.body = .inner l cs ∧
      (l :: cs.map Prod.snd)[position]? = some c ∧ hint ∈ pagesOf S height root ∧
        c ∈ S.refs hint := by
  have hS := hW.reads.sound hint parent hm
  cases hb : parent.body with
  | leaf es => exact absurd (Node.isLeaf_leaf hb) hl
  | inner l cs =>
    have hget := childPosition_sound hb hpos
    rw [hb] at hS
    refine ⟨l, cs, hS, rfl, hget, hW.only hint (by simp [hS]), ?_⟩
    rw [Store.refs, hS]
    exact mem_of_getElem? hget

/-- One turn of the climb over recorded parents. -/
theorem nextLeafFromParentHint_turn {fuel hint : Nat} {visited : List Nat} {r : Option Nat}
    (hr : nextLeafFromParentHint page errors depth root (fuel + 1) x visited hint = some r) :
    (x = root ∧ r = none) ∨ ∃ parent position, page hint = .ok parent ∧ ¬ parent.isLeaf = true ∧
      childPosition parent x = some position ∧
      ((position < parent.count ∧ ∃ next leaf, parent.childId position = some next ∧
          leftmostLeaf page errors depth next [] = .ok leaf ∧ r = some leaf) ∨
        (¬ position < parent.count ∧ nextLeafFromParentHint page errors depth root fuel hint
          (x :: visited) parent.parentId = some r)) := by
  rw [nextLeafFromParentHint] at hr
  split at hr
  · cases hr
  split at hr
  · split at hr
    · rename_i hx
      exact .inl ⟨hx, (Option.some.inj hr).symm⟩
    · cases hr
  split at hr
  · cases hr
  rename_i parent hm
  split at hr
  · cases hr
  rename_i hl
  split at hr
  · cases hr
  rename_i position hpos
  refine .inr ⟨parent, position, hm, hl, hpos, ?_⟩
  split at hr
  · rename_i hlt
    split at hr
    · cases hr
    rename_i next hnext
    split at hr
    · cases hr
    split at hr
    · cases hr
    · rename_i leaf hleaf
      exact .inl ⟨hlt, next, leaf, hnext, hleaf, (Option.some.inj hr).symm⟩
  · rename_i hge
    exact .inr ⟨hge, hr⟩

/-- What the climb over recorded parents returns is the next leaf. -/
theorem nextLeafFromParentHint_sound (hW : Walk page S height root depth)
    (h : PathTo S height root j x up after) : ∀ {fuel : Nat} {visited : List Nat} {hint : Nat}
    {r : Option Nat}, nextLeafFromParentHint page errors depth root fuel x visited hint = some r →
    r = after.head? := by
  induction h with
  | root =>
    intro fuel visited hint r hr
    cases fuel with
    | zero => cases hr
    | succ fuel =>
      rcases nextLeafFromParentHint_turn hr with ⟨-, rfl⟩ | ⟨parent, position, hm, hl, hpos, -⟩
      · rfl
      · -- no page references the root
        obtain ⟨l, cs, -, -, -, hin, href⟩ := hint_references hW hm hl hpos
        exact absurd rfl (hW.tree.ref_ne_root hW.nodup hin href)
  | child h hp hcut ih =>
    rename_i j p l c cs A B up after
    intro fuel visited hint r hr
    obtain ⟨-, hsub⟩ := h.isTree hW.tree
    have hpps : p ∈ pagesOf S height root := hsub.subset (self_mem_pagesOf S (j + 1) p)
    have hrefs : S.refs p = A ++ c :: B := by rw [Store.refs, hp, ← hcut]; rfl
    have hcref : c ∈ S.refs p := by simp [hrefs]
    cases fuel with
    | zero => cases hr
    | succ fuel =>
      rcases nextLeafFromParentHint_turn hr with ⟨hroot, -⟩ | ⟨parent, position, hm, hl, hpos, hr⟩
      · exact absurd hroot (hW.tree.ref_ne_root hW.nodup hpps hcref)
      obtain ⟨l', cs', hS, hb, hget, hin, href⟩ := hint_references hW hm hl hpos
      cases hW.tree.parent_unique hW.nodup hin hpps href hcref
      rw [hp] at hS
      cases hS
      have hnd : (A ++ c :: B).Nodup := hrefs ▸ hW.tree.refs_nodup hW.nodup hpps
      have hposA : position = A.length := by
        rw [hcut] at hget
        have hself : (A ++ c :: B)[A.length]? = some c := by simp
        have hlt : A.length < (A ++ c :: B).length := by simp
        exact ((List.getElem?_inj hlt hnd).mp (hself.trans hget.symm)).symm
      subst hposA
      have hcount : parent.count = A.length + B.length := by
        have := congrArg List.length hcut
        simp only [length_cons, length_map, length_append] at this
        rw [Node.count_inner hb]
        omega
      cases B with
      | nil =>
        rcases hr with ⟨hlt, -⟩ | ⟨-, hr⟩
        · simp [hcount] at hlt
        · simpa using ih hr
      | cons c' B =>
        rcases hr with ⟨-, next, leaf, hnext, hleaf, rfl⟩ | ⟨hge, -⟩
        · obtain ⟨-, leaf', hl', hhead⟩ := leftmost_sibling errors hW h hp hcut
          rw [childId_eq hb, hcut, List.getElem?_append_right (by omega)] at hnext
          simp only [Nat.add_sub_cancel_left, List.getElem?_cons_succ,
            List.getElem?_cons_zero, Option.some.injEq] at hnext
          subst hnext
          rw [hleaf] at hl'
          cases hl'
          exact hhead.symm
        · simp [hcount] at hge

/-- **Leaf navigation** finds the first leaf to the right, whatever the recorded parents say. -/
theorem Walk.nextLeaf_eq (hW : Walk page S height root depth) (hP : Reads parentPage S) {leaf : Nat}
    {es : List (Bytes × Value)} (hleaf : S leaf = some (.leaf es))
    (h : PathTo S height root j leaf up after) (hint : Nat) :
    nextLeaf page errors parentPage depth root leaf hint = .ok after.head? := by
  rw [nextLeaf]
  split
  · rename_i next hnext
    rw [nextLeafFromParentHint_sound hW h hnext]
  · rw [findPathToLeaf_eq hW hleaf h]
    simp only [reverse_reverse]
    exact nextInPath_eq hW hP h

end Walk

/-! ## Scans over a well-formed store -/

/-- All pages of the store are reached from `root`, each by one edge.  Page ids fit their type. -/
structure WellFormed (S : Store Bytes Value) (height root : Nat) : Prop where
  tree : IsTree S height root
  nodup : (pagesOf S height root).Nodup
  only : ∀ q, S q ≠ none → q ∈ pagesOf S height root
  limit : ∀ q ∈ pagesOf S height root, q ≤ u32Max

/-- The pages passed from `leaf` on, each found from the one before. -/
def followLeaves (next : Nat → Except ε (Option Nat)) : Nat → Nat → List Nat
  | 0, _ => []
  | fuel + 1, leaf => leaf :: match next leaf with
    | .ok (some after) => followLeaves next fuel after
    | _ => []

/-- `next` leads through `leaves` in order and ends after the last one. -/
structure Successive (next : Nat → Except ε (Option Nat)) (leaves : List Nat) : Prop where
  once : leaves.Nodup
  successor : ∀ before leaf after, leaves = before ++ leaf :: after → next leaf = .ok after.head?
  scan : ∀ before leaf after, leaves = before ++ leaf :: after →
    ∀ fuel > after.length, followLeaves next fuel leaf = leaf :: after

theorem followLeaves_eq {next : Nat → Except ε (Option Nat)} {leaves : List Nat}
    (h : ∀ before leaf after, leaves = before ++ leaf :: after → next leaf = .ok after.head?)
    {after : List Nat} : ∀ {before : List Nat} {leaf fuel : Nat}, leaves = before ++ leaf :: after →
      after.length < fuel → followLeaves next fuel leaf = leaf :: after := by
  induction after with
  | nil =>
    intro before leaf fuel hcut hfuel
    obtain ⟨fuel, rfl⟩ := Nat.exists_eq_add_one.mpr hfuel
    rw [followLeaves, h before leaf [] hcut]
    rfl
  | cons x after ih =>
    intro before leaf fuel hcut hfuel
    obtain ⟨fuel, rfl⟩ := Nat.exists_eq_add_one.mpr ((Nat.zero_le _).trans_lt hfuel)
    rw [followLeaves, h before leaf (x :: after) hcut]
    have hcut' : leaves = (before ++ [leaf]) ++ x :: after := by rw [hcut]; simp
    exact congrArg _ (ih hcut' (Nat.lt_of_succ_lt_succ hfuel))

/-- With fuel for every page there is, leaf navigation passes the leaves in order. -/
theorem WellFormed.successive {height root depth : Nat} (h : WellFormed S height root)
    (hR : Reads page S) (hP : Reads parentPage S) (ids : List Nat)
    (hids : ∀ q, S q ≠ none → q ∈ ids)
    (hdepth : ids.length < depth) (hint : Nat → Nat) :
    Successive (fun leaf => nextLeaf page errors parentPage depth root leaf (hint leaf))
      (leavesUnder S height root) := by
  have honce : (leavesUnder S height root).Nodup :=
    h.nodup.sublist (leavesUnder_sublist_pagesOf _ _)
  have hcount : (pagesOf S height root).length ≤ ids.length :=
    (subperm_of_subset h.nodup fun q hq => hids q (h.tree.page_ne_none q hq)).length_le
  have hpos : 0 < (pagesOf S height root).length :=
    length_pos_of_mem (self_mem_pagesOf S height root)
  -- the same tree, with no more levels than pages
  have hsame : ∃ k, k < depth ∧ IsTree S k root ∧ pagesOf S k root = pagesOf S height root ∧
      leavesUnder S k root = leavesUnder S height root := by
    refine ⟨(pagesOf S height root).length - 1, by omega, h.tree.shallow, ?_⟩
    rcases le_total height ((pagesOf S height root).length - 1) with hle | hle
    · exact (h.tree.mono hle).2
    · exact ⟨(h.tree.shallow.mono hle).2.1.symm, (h.tree.shallow.mono hle).2.2.symm⟩
  obtain ⟨k, hk, htree, hpages, hleaves⟩ := hsame
  have hW : Walk page S k root depth :=
    ⟨hR, htree, hpages ▸ h.nodup, hpages ▸ h.limit, hpages ▸ h.only, hk⟩
  have hnext : ∀ before leaf after, leavesUnder S height root = before ++ leaf :: after →
      nextLeaf page errors parentPage depth root leaf (hint leaf) = .ok after.head? := by
    intro before leaf after hcut
    have hmem : leaf ∈ leavesUnder S k root := by simp [hleaves, hcut]
    obtain ⟨j, up, after', es, hpath, hleaf⟩ := PathTo.root.of_leaf htree hmem
    obtain ⟨before', hcut'⟩ := hpath.leaves
    rw [hleaves, leavesUnder_leaf hleaf, append_assoc, singleton_append] at hcut'
    rw [hW.nextLeaf_eq hP hleaf hpath (hint leaf)]
    have heq : before ++ leaf :: after = before' ++ leaf :: after' := hcut.symm.trans hcut'
    rw [hcut] at honce
    rw [after_unique honce heq]
  exact ⟨honce, hnext, fun before leaf after hcut fuel hfuel => followLeaves_eq hnext hcut hfuel⟩

end Scan

end SeerDb
