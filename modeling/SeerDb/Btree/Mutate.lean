/-
# `SeerDb.Btree.Mutate` — the mutation entry points write one binding

Each entry point descends to a leaf, edits it in place if it can and splits it
otherwise.  Whatever the route, an `Ok` is one `Tree.put` (or nothing, where the
entry point says so), and an `Err` leaves the page store as it was.
-/
import SeerDb.Btree.Climb

namespace SeerDb

open Lib List

variable {n : Node}

/-- A new leaf entry, as an update of the bindings. -/
theorem Node.insertNew_upsert {es : List (Bytes × Value)} {k : Bytes} {v : Value}
    (hb : n.body = .leaf es) (hs : Sorted es) (hf : Node.leafFits es) (hk : ∀ x ∈ es, x.1 ≠ k) :
    n.insertNew k v
      = ifFits leafEntrySize (k, v) (upsert k v es) { n with body := .leaf (upsert k v es) } := by
  obtain ⟨A, B, hA, hB, rfl | ⟨w, rfl⟩⟩ := exists_cut hs k
  · rw [upsert_of_not_mem_append hA hB]
    exact insertNew_absent hb hf hA hB
  · exact absurd rfl (hk (k, w) (by simp))

namespace BTree

variable {bg : Nat → Option Node} {full way : Prop} {t : BTree} {T : Lib.Tree Bytes Value}
  {es : List (Bytes × Value)} {k : Bytes} {v : Value} {mid : List (Bytes × Value)}

/-! ## The leaf a key belongs to -/

/-- The leaf of `k`: its entries are the bindings of the tree around `k`. -/
structure LeafOf (T : Lib.Tree Bytes Value) (es : List (Bytes × Value)) (k : Bytes) (leaf : Nat)
    (mid : List (Bytes × Value)) : Prop where
  path : OnPath T.store k T.height T.root 0 leaf
  page : T.store leaf = some (.leaf mid)
  sorted : Sorted mid
  fits : Node.leafFits mid
  around : ∃ left right, es = left ++ mid ++ right ∧ (∀ e ∈ left, e.1 < k) ∧ ∀ e ∈ right, k < e.1

variable {leaf : Nat}

theorem leafOf (hT : T.Holds Node.layout es)
    (hp : OnPath T.store k T.height T.root 0 leaf) : ∃ mid, LeafOf T es k leaf mid := by
  obtain ⟨ps, hr, -⟩ := hT.rep
  obtain ⟨lo, hi, mid, ps', left, right, hr', -, -, hes, hl, hg⟩ := hp.cut hr (inRange_full k)
  exact ⟨mid, hp, hr'.1, hr'.2.1, hr'.2.2.2.1, left, right, hes, hl, hg⟩

theorem LeafOf.get_eq (h : LeafOf T es k leaf mid) :
    get k es = get k mid := by
  obtain ⟨left, right, rfl, hl, hg⟩ := h.around
  rw [get_append_of_ne_right fun e he => (hg e he).ne',
    get_append_of_ne_left fun e he => (hl e he).ne]

theorem LeafOf.put (h : LeafOf T es k leaf mid) :
    Lib.put Node.layout T.store T.next k v 0 leaf =
      putLeaf Node.layout T.store T.next k v leaf mid := by
  rw [Lib.put, h.page]

theorem LeafOf.body (hl : LeafOf T es k leaf mid)
    (h : Tracks bg full t T.store T.next T.root) {m : Node} (hm : t.node leaf = some m) :
    m.body = .leaf mid := by
  have := h.sim.body hm
  rw [hl.page] at this
  exact (Option.some.inj this).symm

/-- Where an entry is present, the page is cut there. -/
theorem LeafOf.present (hl : LeafOf T es k leaf mid) {w : Value} (hget : get k mid = some w) :
    ∃ A B, mid = A ++ (k, w) :: B ∧ (∀ e ∈ A, e.1 < k) ∧ ∀ e ∈ B, k < e.1 := by
  have hmem := (get_eq_some_iff hl.sorted).mp hget
  obtain ⟨A, B, hA, hB, hcut | ⟨w', hcut⟩⟩ := exists_cut hl.sorted k
  · rw [hcut] at hmem
    rcases mem_append.mp hmem with h | h
    · exact absurd (hA _ h) (lt_irrefl _)
    · exact absurd (hB _ h) (lt_irrefl _)
  · have hw : get k mid = some w' := (get_eq_some_iff hl.sorted).mpr (by simp [hcut])
    rw [hget] at hw
    cases hw
    exact ⟨A, B, hcut, hA, hB⟩

/-! ## A full leaf -/

/-- The half of a leaf that takes the new entry. -/
theorem insertLeafHalf {S : Store Bytes Value} {n root id : Nat} (h : Tracks bg full t S n root)
    {half : List (Bytes × Value)} {m : Node} (hm : t.node id = some m) (hb : m.body = .leaf half)
    (hs : Sorted half) (hf : Node.leafFits half) (hne : ∀ x ∈ half, x.1 ≠ k)
    (hfit : Node.leafFits (Lib.upsert k v half)) :
    ∃ m', m.insertNew k v = .ok m' ∧ m'.parentId = m.parentId ∧
      Tracks bg full (t.setNode id m') (S.set id (.leaf (Lib.upsert k v half))) n root := by
  have hins := Node.insertNew_upsert (v := v) hb hs hf hne
  rw [Node.ifFits_of_fits (self_mem_upsert k v half) hfit] at hins
  refine ⟨_, hins, rfl, h.setNode hm ?_ (.inr rfl)⟩
  intro l cs hi
  rw [hb] at hi
  cases hi

/-- A leaf without `k` that has no room for `k`: split it, write the half `k`
belongs to, and hand the right half upwards. -/
theorem splitAndInsertValue_agrees (hT : T.Holds Node.layout es) (hl : LeafOf T es k leaf mid)
    (h : Tracks bg full t (T.store.set leaf (.leaf (erase k mid))) T.next T.root)
    (hload : Loaded t T k) (hno : ¬ Node.leafFits (Lib.upsert k v mid)) :
    Agrees bg full (Guided t T k v 0) (T.put Node.layout k v) (t.splitAndInsertValue leaf k v) := by
  obtain ⟨m, hm⟩ := Option.ne_none_iff_exists'.mp (hload _ _ hl.path)
  have hb : m.body = .leaf (erase k mid) := by
    have := h.sim.body hm
    rw [Store.set_self] at this
    exact (Option.some.inj this).symm
  have hsE : Sorted (erase k mid) := sorted_erase hl.sorted
  have hfE : Node.leafFits (erase k mid) := Node.slotsFit_sublist filter_sublist hl.fits
  have hneE : ∀ x ∈ erase k mid, x.1 ≠ k := fun x hx => (mem_erase.mp hx).2
  have hno' : ¬ Node.layout.leafFits (Lib.upsert k v mid) = true := hno
  have hput := hl.put (v := v)
  rw [putLeaf, if_neg hno'] at hput
  have hsplit := Node.split_leaf hb hsE hfE
  have hln : leaf ≠ T.next := (h.sim.lt hm).ne
  rw [splitAndInsertValue, hm]
  simp only
  rcases hh : halve (erase k mid) with _ | ⟨left, mm, right⟩
  · rw [hh] at hsplit hput
    rw [hsplit]
    exact fun _ => Tree.put_eq_none hl.path hput
  obtain ⟨hcut, -, -⟩ := halve_eq hh
  rw [hh] at hsplit hput
  rw [hsplit]
  simp only at hput ⊢
  rw [hcut] at hsE hfE hneE
  obtain ⟨hsL, hsR, -⟩ := sorted_append.mp hsE
  have hfL : Node.leafFits left := Node.slotsFit_sublist (sublist_append_left _ _) hfE
  have hfR : Node.leafFits (mm :: right) := Node.slotsFit_sublist (sublist_append_right _ _) hfE
  have hneL : ∀ x ∈ left, x.1 ≠ k := fun x hx => hneE x (mem_append_left _ hx)
  have hneR : ∀ x ∈ mm :: right, x.1 ≠ k := fun x hx => hneE x (mem_append_right _ hx)
  have h1 : Tracks bg full (t.setNode leaf ⟨.leaf left, m.parentId, 0⟩)
      (T.store.set leaf (.leaf left)) T.next T.root := by
    have hset : Tracks bg full (t.setNode leaf ⟨.leaf left, m.parentId, 0⟩) _ T.next T.root :=
      h.setNode hm (fun l cs hi => by rw [hb] at hi; cases hi) (.inr rfl)
    rwa [set_set] at hset
  by_cases hlim : u32Max < T.next
  · have halloc := h1.sim.allocNode (m := ⟨.leaf (mm :: right), 0, 0⟩) rfl
    have hid : Node.layout.idLimit < T.next := hlim
    rw [if_pos hlim] at halloc
    rw [if_pos hid] at hput
    rw [halloc]
    exact fun _ => Tree.put_eq_none hl.path hput
  obtain ⟨t₁, ha, h2, hself, hother⟩ := h1.allocNode (m := ⟨.leaf (mm :: right), 0, 0⟩) rfl hlim
  have hid : ¬ Node.layout.idLimit < T.next := hlim
  rw [if_neg hid] at hput
  rw [ha]
  simp only
  have hleaf₁ : t₁.node leaf = some ⟨.leaf left, m.parentId, 0⟩ := by
    rw [hother leaf hln, node_setNode_self (node_lt hm)]
  -- the new entry goes to one of the two halves
  have hleft : Keeps t (t.setNode leaf ⟨.leaf left, m.parentId, 0⟩) T k 0 := .setNode hm rfl
  have hkeeps : ∀ {id old x}, t₁.node id = some old → x.parentId = old.parentId →
      Keeps t (t₁.setNode id x) T k 0 := fun hid hx =>
    (hleft.trans (.of_fresh hT le_rfl hother)).trans (.setNode hid hx)
  have hright : ∀ {id x}, (t₁.setNode id x).node T.next ≠ none := by
    intro id x
    by_cases hid : T.next = id
    · rw [← hid, node_setNode_self (node_lt hself)]
      simp
    · rw [node_setNode_ne hid, hself]
      simp
  -- the climb has a turn for every level of the tree
  have hfuel : ∀ {id x}, T.height < (t₁.setNode id x).searchFuel + 0 := by
    intro id x
    have := hT.height_lt
    have := node_lt hself
    simp only [searchFuel, length_setNode]
    omega
  have hhalf : ∀ {id half m₁ S}, t₁.node id = some m₁ → m₁.body = .leaf half → Sorted half →
      Node.leafFits half → (∀ x ∈ half, x.1 ≠ k) →
      ((T.store.set leaf (.leaf left)).set T.next (.leaf (mm :: right))).set id
      (.leaf (Lib.upsert k v half)) = S →
      Lib.put Node.layout T.store T.next k v 0 leaf =
        (if Node.layout.leafFits (Lib.upsert k v half) then
        some (.split S (T.next + 1) mm.1 T.next) else none) →
      ∀ out, (∀ e, m₁.insertNew k v = .error e → out = .error (.insertFailed e)) →
      (∀ m', m₁.insertNew k v = .ok m' → out =
        linkRight (insertIntoInternal (t₁.setNode id m').searchFuel)
        (t₁.setNode id m') ("split leaf " ++ toString leaf ++ " is not reachable from a parent")
        leaf mm.1 T.next) →
      Agrees bg full (Guided t T k v 0) (T.put Node.layout k v) out := by
    intro id half m₁ S hid hb hs hf hne hS hput out herr hok
    by_cases hfit : Node.layout.leafFits (Lib.upsert k v half) = true
    · obtain ⟨m', hins, hhint, htracks⟩ := insertLeafHalf h2 hid hb hs hf hne hfit
      have hk := hkeeps hid hhint
      rw [if_pos hfit] at hput
      rw [hS] at htracks
      rw [hok m' hins]
      exact (linkRight_agrees hT hl.path hput htracks hright (hk.path hT hload) hfuel).congr
        (hk.guided hT).symm
    · obtain ⟨e, he⟩ := Node.ifFits_refused (Node.insertNew_upsert hb hs hf hne) hfit
      rw [if_neg hfit] at hput
      rw [herr e he]
      exact fun _ => Tree.put_eq_none hl.path hput
  by_cases hlt : k < mm.1
  · simp only [ge_iff_le, if_neg (not_le.mpr hlt), hleaf₁]
    rw [if_pos hlt] at hput
    exact hhalf hleaf₁ rfl hsL hfL hneL (by rw [← set_comm _ _ _ hln, set_set]) hput _
      (fun _ he => by rw [he]) fun _ hm' => by rw [hm']
  · simp only [ge_iff_le, if_pos (not_lt.mp hlt), hself]
    rw [if_neg hlt] at hput
    exact hhalf hself rfl hsR hfR hneR (set_set _ _ _ _) hput _ (fun _ he => by rw [he])
      fun _ hm' => by rw [hm']

theorem putLeaf_tooLarge {S : Store Bytes Value} {n : Nat}
    (h : Node.leafEntrySize (k, v) > pageSize - headerSize - slotSize) :
    putLeaf Node.layout S n k v leaf mid = none := by
  have hno : ∀ xs, ¬ Node.layout.leafFits (Lib.upsert k v xs) := fun xs hf =>
    Node.not_tooLarge_of_fits (self_mem_upsert k v xs) hf h
  rw [putLeaf, if_neg (hno _)]
  cases halve (erase k mid) with
  | none => rfl
  | some x =>
    obtain ⟨left, m, right⟩ := x
    simp only [if_neg (hno _), ite_self]

/-! ## What an entry point may do -/

/-- A descent for `k` comes to its leaf: the path is loaded and within the routing depth. -/
def Routes (t : BTree) (T : Lib.Tree Bytes Value) (k : Bytes) : Prop :=
  T.height < maxRoutingDepth ∧ Loaded t T k

/-- A write of `(k, v)` has its way, down to the leaf and back up. -/
def Climbs (t : BTree) (T : Lib.Tree Bytes Value) (k : Bytes) (v : Value) : Prop :=
  Routes t T k ∧ Guided t T k v 0

/-- A write of `(k, v)`: an `Ok` is one `Tree.put`, says that the climb had its `way`, and
never comes when the call is to be `refused`; an `Err` keeps the page store, and where the
climb has its way it has another reason. -/
def Wrote (bg : Nat → Option Node) (full way refused : Prop) (T : Lib.Tree Bytes Value) (k : Bytes)
    (v : Value) : Except BTreeError Unit × BTree → Prop
  | (.ok _, t) => ¬ refused ∧ way ∧
      ∃ T', T.put Node.layout k v = some T' ∧ Tracks bg full t T'.store T'.next T'.root
  | (.error _, t) => Tracks bg full t T.store T.next T.root ∧
      (way → refused ∨ T.put Node.layout k v = none)

variable {refused : Prop}

theorem restoreOnError_wrote {r : Except BTreeError BTree} {t₀ : BTree}
    (h : Tracks bg full t T.store T.next T.root) (hroutes : Routes t₀ T k) (href : ¬ refused)
    (hr : Agrees bg full (Guided t₀ T k v 0) (T.put Node.layout k v) r) :
    Wrote bg full (Climbs t₀ T k v) refused T k v (restoreOnError t r) := by
  cases r with
  | error e => exact ⟨h, fun hc => .inr (hr hc.2)⟩
  | ok t' => exact ⟨href, ⟨hroutes, hr.1⟩, hr.2⟩

/-- A write that was answered by the leaf it belongs to. -/
theorem Wrote.of_ok {t' : BTree} (hroutes : Routes t T k) (href : ¬ refused)
    (hr : Agrees bg full (Guided t T k v 0) (T.put Node.layout k v) (.ok t')) :
    Wrote bg full (Climbs t T k v) refused T k v (.ok (), t') :=
  ⟨href, ⟨hroutes, hr.1⟩, hr.2⟩

theorem Wrote.of_absent {x : Except BTreeError Unit × BTree}
    (h : Wrote bg full way refused T k v x) (hr : ¬ refused) : Wrote bg full way False T k v x := by
  obtain ⟨r, t'⟩ := x
  cases r with
  | error e => exact ⟨h.1, fun hw => .inr ((h.2 hw).resolve_left hr)⟩
  | ok u => exact ⟨not_false, h.2⟩

/-- Writing a leaf in place. -/
theorem setLeaf_agrees {m m' : Node}
    (h : Tracks bg full t T.store T.next T.root) (hl : LeafOf T es k leaf mid)
    (hm : t.node leaf = some m) (hfit : Node.leafFits (Lib.upsert k v mid))
    (hb : m'.body = .leaf (Lib.upsert k v mid)) (hhint : m'.parentId = m.parentId) :
    Agrees bg full (Guided t T k v 0) (T.put Node.layout k v) (.ok (t.setNode leaf m')) := by
  have hfit' : Node.layout.leafFits (Lib.upsert k v mid) = true := hfit
  have hput := hl.put (v := v)
  rw [putLeaf, if_pos hfit'] at hput
  refine ⟨guided_of_done hl.path hput, _, Tree.put_eq_done hl.path hput, ?_⟩
  rw [← hb]
  refine h.setNode hm (fun l cs hi => ?_) (.inr hhint)
  have := h.sim.body hm
  rw [hl.page, hi] at this
  cases this

/-! ## Finding the leaf -/

section Tracked

variable (hT : T.Holds Node.layout es) (h : Tracks bg full t T.store T.next T.root)

include hT h

theorem Tracks.routes (hf : full) (hlt : T.height < maxRoutingDepth) : Routes t T k :=
  ⟨hlt, Full.loaded hT (h.full_of hf)⟩

theorem Tracks.climbs (hf : full) (hlt : T.height < maxRoutingDepth) : Climbs t T k v :=
  ⟨h.routes hT hf hlt, Full.guided hT (h.full_of hf)⟩

theorem findLeaf_cases :
    (∃ leaf, t.findLeaf k = .ok leaf ∧ T.height < maxRoutingDepth ∧
      OnPath T.store k T.height T.root 0 leaf ∧
      Loaded t T k) ∨ (∃ j q, OnPath T.store k T.height T.root j q ∧ t.node q = none ∧
        t.findLeaf k = .error (.missingPage q)) ∨
    (maxRoutingDepth ≤ T.height ∧ t.findLeaf k =
      .error (.corruption "cycle detected during B-tree descent")) := by
  obtain ⟨ps, hr, -, hmem, -⟩ := hT.pages
  rw [findLeaf, h.root_eq]
  refine findLeafLoop_cases h.sim hr (inRange_full k) fun q hq => ?_
  have := hmem.mp hq
  have := h.sim.limit
  omega

/-- An answer of `find_leaf` is the leaf of the path. -/
theorem findLeaf_ok (hl : t.findLeaf k = .ok leaf) : T.height < maxRoutingDepth ∧
      OnPath T.store k T.height T.root 0 leaf ∧ Loaded t T k := by
  rcases findLeaf_cases hT h with ⟨leaf', hleaf, hpath⟩ | ⟨_, q, -, -, herr⟩ | ⟨-, herr⟩
  · obtain rfl := Except.ok.inj (hl.symm.trans hleaf)
    exact hpath
  all_goals exact absurd (hl.symm.trans herr) nofun

/-- `find_leaf` on a tree that stands for `T`. -/
theorem findLeaf_leafOf (hl : t.findLeaf k = .ok leaf) :
    ∃ mid m, LeafOf T es k leaf mid ∧ Routes t T k ∧ t.node leaf = some m := by
  obtain ⟨hheight, hp, hload⟩ := findLeaf_ok hT h hl
  obtain ⟨mid, hleaf⟩ := leafOf hT hp
  obtain ⟨m, hm⟩ := Option.ne_none_iff_exists'.mp (hload _ _ hp)
  exact ⟨mid, m, hleaf, ⟨hheight, hload⟩, hm⟩

/-- With every page loaded the routing depth decides. -/
theorem findLeaf_full (hf : full) (k : Bytes) :
    if T.height < maxRoutingDepth then ∃ leaf, t.findLeaf k = .ok leaf
    else t.findLeaf k = .error (.corruption "cycle detected during B-tree descent") := by
  rcases findLeaf_cases hT h with ⟨leaf, hleaf, hlt, -⟩ | ⟨j, q, hq, hnone, -⟩ | ⟨hle, herr⟩
  · rw [if_pos hlt]
    exact ⟨leaf, hleaf⟩
  · exact absurd hnone (Full.loaded hT (h.full_of hf) j q hq)
  · rwa [if_neg (not_lt.mpr hle)]

theorem findLeaf_error {e : BTreeError} (he : t.findLeaf k = .error e) : ¬ Routes t T k := by
  rintro ⟨hlt, hload⟩
  rcases findLeaf_cases hT h with ⟨leaf, hleaf, -⟩ | ⟨j, q, hq, hnone, -⟩ | ⟨hle, -⟩
  · exact absurd (he.symm.trans hleaf) nofun
  · exact hload j q hq hnone
  · exact absurd hlt (not_lt.mpr hle)

/-! ## `insert` and `insert_blob` -/

omit hT h in
theorem erase_absent (h : get k mid = none) : erase k mid = mid :=
  erase_of_not_mem (get_eq_none_iff.mp h)

/-- A new entry at its leaf: written in place, by a split, or refused. -/
theorem insertNew_wrote (hl : LeafOf T es k leaf mid) (hroutes : Routes t T k) {m : Node}
    (hm : t.node leaf = some m) {x : Except BTreeError Unit × BTree}
    (hok : ∀ m', m.insertNew k v = .ok m' → x = (.ok (), t.setNode leaf m'))
    (hfull : m.insertNew k v = .error .pageFull →
      x = restoreOnError (t.touch leaf) ((t.touch leaf).splitAndInsertValue leaf k v))
    (helse : ∀ e, m.insertNew k v = .error e → e ≠ .pageFull →
      ∃ e', x = (.error e', t.touch leaf)) :
    Wrote bg full (Climbs t T k v) (get k es ≠ none) T k v x := by
  have htouch : Tracks bg full (t.touch leaf) T.store T.next T.root := h.touch (by simp [hm])
  have hb := hl.body h hm
  cases hget : get k mid with
  | some w =>
    obtain ⟨A, B, rfl, hA, hB⟩ := hl.present hget
    obtain ⟨e, rfl⟩ := helse _ (Node.insertNew_present hb hA hB) nofun
    exact ⟨htouch, fun _ => .inl (by simp [hl.get_eq, hget])⟩
  | none =>
    have href : ¬ get k es ≠ none := by simp [hl.get_eq, hget]
    have hins := Node.insertNew_upsert (v := v) hb hl.sorted hl.fits (get_eq_none_iff.mp hget)
    rcases Node.ifFits_cases .. with ⟨hbig, he⟩ | ⟨hfit, he⟩ | ⟨hfit, he⟩ <;> rw [he] at hins
    · obtain ⟨e, rfl⟩ := helse _ hins nofun
      exact ⟨htouch, fun _ => .inr (Tree.put_eq_none hl.path
        (hl.put.trans (putLeaf_tooLarge hbig)))⟩
    · rw [hok _ hins]
      exact .of_ok hroutes href (setLeaf_agrees h hl hm hfit rfl rfl)
    · rw [hfull hins]
      refine restoreOnError_wrote htouch hroutes href
        (splitAndInsertValue_agrees hT hl ?_ hroutes.2 hfit)
      rwa [erase_absent hget, Store.set_same hl.page]

theorem insert_wrote (value : Bytes) :
    Wrote bg full (Climbs t T k (.inline value)) (get k es ≠ none) T k (.inline value)
      (t.insert k value) := by
  rw [insert]
  cases hfl : t.findLeaf k with
  | error e => exact ⟨h, fun hc => absurd hc.1 (findLeaf_error hT h hfl)⟩
  | ok leaf =>
    obtain ⟨mid, m, hl, hroutes, hm⟩ := findLeaf_leafOf hT h hfl
    simp only [hm, Node.insert]
    refine insertNew_wrote hT h hl hroutes hm (fun m' hins => ?_)
      (fun hins => ?_) fun e hins hne => ?_
    · rw [hins]
    · rw [hins]
      rfl
    · rw [hins]
      cases e <;> first | exact absurd rfl hne | exact ⟨_, rfl⟩

/-- The insertion of a blob entry at its leaf. -/
theorem insertBlobAt_wrote (hroutes : Routes t T k) (hl : LeafOf T es k leaf mid)
    (ptr : BlobPointer) :
    Wrote bg full (Climbs t T k (.blob ptr)) (get k es ≠ none) T k (.blob ptr)
      (t.insertBlobAt leaf k ptr) := by
  obtain ⟨m, hm⟩ := Option.ne_none_iff_exists'.mp (hroutes.2 _ _ hl.path)
  simp only [insertBlobAt, hm, Node.insertBlob]
  refine insertNew_wrote hT h hl hroutes hm (fun m' hins => ?_)
    (fun hins => ?_) fun e hins hne => ?_
  · rw [hins]
  · rw [hins]
    rfl
  · rw [hins]
    cases e <;> first | exact absurd rfl hne | exact ⟨_, rfl⟩

theorem insertBlob_wrote (ptr : BlobPointer) :
    Wrote bg full (Climbs t T k (.blob ptr)) (get k es ≠ none) T k (.blob ptr)
      (t.insertBlob k ptr) := by
  rw [insertBlob]
  cases hfl : t.findLeaf k with
  | error e => exact ⟨h, fun hc => absurd hc.1 (findLeaf_error hT h hfl)⟩
  | ok leaf =>
    obtain ⟨mid, m, hl, hroutes, -⟩ := findLeaf_leafOf hT h hfl
    exact insertBlobAt_wrote hT h hroutes hl ptr

end Tracked

/-! ## `upsert` and `upsert_blob` -/

section Present

variable {A B : List (Bytes × Value)} {w : Value} {m : Node}

theorem value_present (hb : m.body = .leaf (A ++ (k, w) :: B)) : m.value A.length = some w := by
  simp [Node.value, hb]

/-- The page without its entry for `k`, and what it then does with a new one. -/
theorem removeEntry_insertNew (hl : LeafOf T es k leaf (A ++ (k, w) :: B))
    (hb : m.body = .leaf (A ++ (k, w) :: B)) (hA : ∀ e ∈ A, e.1 < k) (hB : ∀ e ∈ B, k < e.1)
    (v : Value) :
    m.removeEntry A.length = .ok ⟨.leaf (A ++ B), m.parentId, 0⟩ ∧
    (⟨.leaf (A ++ B), m.parentId, 0⟩ : Node).insertNew k v = Node.ifFits Node.leafEntrySize (k, v)
      (Lib.upsert k v (A ++ (k, w) :: B)) ⟨.leaf (Lib.upsert k v (A ++ (k, w) :: B)),
        m.parentId, 0⟩ := by
  have hf : Node.leafFits (A ++ B) :=
    Node.slotsFit_sublist ((List.Sublist.refl A).append (sublist_cons_self _ _)) hl.fits
  refine ⟨Node.removeEntry_eq hb hl.sorted hl.fits, ?_⟩
  rw [upsert_of_mem_append hA]
  exact Node.insertNew_absent rfl hf hA hB

variable (h : Tracks bg full t T.store T.next T.root) (hl : LeafOf T es k leaf (A ++ (k, w) :: B))
  (hm : t.node leaf = some m) (hA : ∀ e ∈ A, e.1 < k) (hB : ∀ e ∈ B, k < e.1)

include h hl hm hA hB

theorem existingIndex_present : t.existingIndex leaf k = some A.length := by
  simp [existingIndex, hm, Node.search_present (Node.keys_leaf (hl.body h hm)) hA hB,
    Except.toOption]

/-- Splitting the page an entry was just removed from. -/
theorem splitWithout_agrees (hT : T.Holds Node.layout es) (hload : Loaded t T k)
    (hno : ¬ Node.leafFits (Lib.upsert k v (A ++ (k, w) :: B))) :
    Agrees bg full (Guided t T k v 0) (T.put Node.layout k v)
      ((t.setNode leaf ⟨.leaf (A ++ B), m.parentId, 0⟩).splitAndInsertValue leaf k v) := by
  have hk : Keeps t (t.setNode leaf ⟨.leaf (A ++ B), m.parentId, 0⟩) T k 0 := .setNode hm rfl
  refine (splitAndInsertValue_agrees hT hl ?_ (hk.path hT hload) hno).congr (hk.guided hT).symm
  rw [erase_append_cons hA hB]
  refine h.setNode hm (fun l cs hi => ?_) (.inr rfl)
  rw [hl.body h hm] at hi
  cases hi

theorem replaceFullEntryWithSplit_agrees (hT : T.Holds Node.layout es)
    (hload : Loaded t T k) {value : Bytes}
    (hno : ¬ Node.leafFits (Lib.upsert k (.inline value) (A ++ (k, w) :: B)))
    (hfull : (⟨.leaf (A ++ B), m.parentId, 0⟩ : Node).insertNew k (.inline value) =
      .error .pageFull) :
    Agrees bg full (Guided t T k (.inline value) 0) (T.put Node.layout k (.inline value))
      (t.replaceFullEntryWithSplit leaf A.length k value) := by
  rw [replaceFullEntryWithSplit, hm]
  simp only [(removeEntry_insertNew hl (hl.body h hm) hA hB (.inline value)).1]
  rw [Node.removeDuplicates_eq rfl hA hB]
  simp only [Node.insert, hfull]
  exact splitWithout_agrees h hl hm hA hB hT hload hno

end Present

theorem existingIndex_absent (hl : LeafOf T es k leaf mid)
    (h : Tracks bg full t T.store T.next T.root)
    (hget : get k mid = none) : t.existingIndex leaf k = none := by
  cases hm : t.node leaf with
  | none => simp [existingIndex, hm]
  | some m =>
    obtain ⟨A, B, hA, hB, rfl | ⟨w, rfl⟩⟩ := exists_cut hl.sorted k
    · simp [existingIndex, hm, Node.search_absent (Node.keys_leaf (hl.body h hm)) hA hB,
        Except.toOption]
    · have := (get_eq_some_iff hl.sorted).mpr (show (k, w) ∈ A ++ (k, w) :: B by simp)
      rw [hget] at this
      cases this

section Tracked

variable (hT : T.Holds Node.layout es) (h : Tracks bg full t T.store T.next T.root)

include hT h

theorem upsert_wrote (value : Bytes) :
    Wrote bg full (Climbs t T k (.inline value)) False T k (.inline value) (t.upsert k value) := by
  rw [upsert]
  rcases hfl : t.findLeaf k with e | leaf
  · exact ⟨h, fun hc => absurd hc.1 (findLeaf_error hT h hfl)⟩
  obtain ⟨mid, m, hl, hroutes, hm⟩ := findLeaf_leafOf hT h hfl
  simp only
  rcases hget : get k mid with _ | w
  · rw [existingIndex_absent hl h hget]
    exact (insert_wrote hT h value).of_absent (by simp [hl.get_eq, hget])
  obtain ⟨A, B, rfl, hA, hB⟩ := hl.present hget
  have hb := hl.body h hm
  rw [existingIndex_present h hl hm hA hB]
  simp only [hm]
  split
  · -- same size: the bytes are overwritten in place
    rename_i hsame
    rw [Node.sameSizeInline, value_present hb] at hsame
    split at hsame
    · rename_i old hw
      cases hw
      have hlen : old.length = value.length := by simpa using hsame
      rw [Node.replaceValue_eq hb hlen]
      have hup : Lib.upsert k (.inline value) (A ++ (k, .inline old) :: B)
          = A ++ (k, .inline value) :: B := upsert_of_mem_append hA
      refine .of_ok hroutes not_false (setLeaf_agrees h hl hm ?_ (congrArg Page.leaf hup.symm) rfl)
      rw [hup]
      exact Node.leafFits_replace (by simp [Node.leafEntrySize, Value.len, hlen]) hl.fits
    · cases hsame
  · refine restoreOnError_wrote h hroutes not_false ?_
    have hres := @Node.replaceValueResized_eq m k A B w value hb hl.sorted hl.fits hA hB
    have hins := (removeEntry_insertNew hl hb hA hB (.inline value)).2
    rw [← upsert_of_mem_append hA] at hres
    rcases Node.ifFits_cases Node.leafEntrySize (k, .inline value)
      (Lib.upsert k (.inline value) (A ++ (k, w) :: B))
      ⟨.leaf (Lib.upsert k (.inline value) (A ++ (k, w) :: B)), m.parentId, 0⟩ with
      ⟨hbig, he⟩ | ⟨hfit, he⟩ | ⟨hfit, he⟩ <;> rw [hres, he]
    · exact fun _ => Tree.put_eq_none hl.path (hl.put.trans (putLeaf_tooLarge hbig))
    · exact setLeaf_agrees h hl hm hfit rfl rfl
    · have hmt : (t.touch leaf).node leaf = some m := hm
      exact replaceFullEntryWithSplit_agrees (h.touch (by simp [hm])) hl hmt hA hB hT hroutes.2 hfit
        (hins.trans he)

theorem upsertBlob_wrote (ptr : BlobPointer) :
    Wrote bg full (Climbs t T k (.blob ptr)) False T k (.blob ptr) (t.upsertBlob k ptr) := by
  rw [upsertBlob]
  rcases hfl : t.findLeaf k with e | leaf
  · exact ⟨h, fun hc => absurd hc.1 (findLeaf_error hT h hfl)⟩
  obtain ⟨mid, m, hl, hroutes, hm⟩ := findLeaf_leafOf hT h hfl
  simp only
  cases hget : get k mid with
  | none =>
    rw [existingIndex_absent hl h hget]
    exact (insertBlobAt_wrote hT h hroutes hl ptr).of_absent (by simp [hl.get_eq, hget])
  | some w =>
    obtain ⟨A, B, rfl, hA, hB⟩ := hl.present hget
    rw [existingIndex_present h hl hm hA hB]
    refine restoreOnError_wrote h hroutes not_false ?_
    obtain ⟨h1, h2⟩ := removeEntry_insertNew hl (hl.body h hm) hA hB (.blob ptr)
    simp only [hm, h1, Node.insertBlob]
    rw [h2]
    rcases Node.ifFits_cases .. with ⟨hbig, he⟩ | ⟨hfit, he⟩ | ⟨hfit, he⟩ <;> rw [he]
    · exact fun _ => Tree.put_eq_none hl.path (hl.put.trans (putLeaf_tooLarge hbig))
    · exact setLeaf_agrees h hl hm hfit rfl rfl
    · exact splitWithout_agrees h hl hm hA hB hT hroutes.2 hfit

end Tracked

/-! ## `delete` and `lookup` -/

/-- A delete: it reports whether there was something to delete, and if so leaves a
tombstone there. -/
def Deleted (bg : Nat → Option Node) (full way : Prop) (T : Lib.Tree Bytes Value)
    (es : List (Bytes × Value)) (k : Bytes) : Except BTreeError Bool × BTree → Prop
  | (.ok true, t) => way ∧ (∃ w, get k es = some w ∧ w ≠ .tombstone) ∧
      ∃ T', T.put Node.layout k .tombstone = some T' ∧ Tracks bg full t T'.store T'.next T'.root
  | (.ok false, t) => way ∧ (get k es = none ∨ get k es = some .tombstone) ∧
      Tracks bg full t T.store T.next T.root
  | (.error _, t) => ¬ way ∧ Tracks bg full t T.store T.next T.root

/-- What a lookup reports for a binding, or for none. -/
def reported : Option Value → LookupResult
  | none => .notFound
  | some v => v.toLookup

/-- Searching a leaf page finds the binding, or that there is none. -/
theorem leaf_search {m : Node} (hb : m.body = .leaf mid) (hs : Sorted mid) (k : Bytes) :
    (get k mid = none ∧ ∃ i, m.search k = .error i) ∨
      ∃ i w, get k mid = some w ∧ m.search k = .ok i ∧ m.value i = some w := by
  obtain ⟨A, B, hA, hB, rfl | ⟨w, rfl⟩⟩ := exists_cut hs k
  · refine .inl ⟨?_, A.length, Node.search_absent (Node.keys_leaf hb) hA hB⟩
    refine get_eq_none_iff.mpr fun e he => ?_
    rcases mem_append.mp he with he | he
    · exact (hA e he).ne
    · exact (hB e he).ne'
  · exact .inr ⟨A.length, w, (get_eq_some_iff hs).mpr (by simp),
      Node.search_present (Node.keys_leaf hb) hA hB, value_present hb⟩

section Tracked

variable (hT : T.Holds Node.layout es) (h : Tracks bg full t T.store T.next T.root)

include hT h

theorem delete_deleted :
    Deleted bg full (Routes t T k) T es k (t.delete k) := by
  rw [delete]
  rcases hfl : t.findLeaf k with e | leaf
  · exact ⟨findLeaf_error hT h hfl, h⟩
  obtain ⟨mid, m, hl, hroutes, hm⟩ := findLeaf_leafOf hT h hfl
  simp only [hm]
  have htouch : Tracks bg full (t.touch leaf) T.store T.next T.root := h.touch (by simp [hm])
  have hb := hl.body h hm
  rcases hget : get k mid with _ | w
  · obtain ⟨A, B, hA, hB, rfl | ⟨w, rfl⟩⟩ := exists_cut hl.sorted k
    · rw [Node.search_absent (Node.keys_leaf hb) hA hB]
      exact ⟨hroutes, .inl (hl.get_eq.trans hget), htouch⟩
    · exact absurd rfl (get_eq_none_iff.mp hget (k, w) (by simp))
  obtain ⟨A, B, rfl, hA, hB⟩ := hl.present hget
  rw [Node.search_present (Node.keys_leaf hb) hA hB]
  simp only [value_present hb]
  by_cases hw : w = .tombstone
  · subst hw
    rw [if_pos rfl]
    exact ⟨hroutes, .inr (hl.get_eq.trans hget), htouch⟩
  have hw' : ¬ (some w = some Value.tombstone) := fun he => hw (Option.some.inj he)
  rw [if_neg hw', Node.insertTombstone_eq hb hl.sorted hl.fits hA hB]
  have hup : Lib.upsert k .tombstone (A ++ (k, w) :: B) = A ++ (k, .tombstone) :: B :=
    upsert_of_mem_append hA
  have hfit : Node.leafFits (Lib.upsert k .tombstone (A ++ (k, w) :: B)) := by
    rw [hup]
    exact Node.leafFits_replace (by simp [Node.leafEntrySize, Value.len]) hl.fits
  have hset : Agrees bg full _ _
      (.ok (t.setNode leaf ⟨.leaf (A ++ (k, .tombstone) :: B), m.parentId, 0⟩)) :=
    setLeaf_agrees h hl hm hfit (congrArg Page.leaf hup.symm) rfl
  exact ⟨hroutes, ⟨w, hl.get_eq.trans hget, hw⟩, hset.2⟩

theorem lookup_ok (hfl : t.findLeaf k = .ok leaf) : t.lookup k = .ok (reported (get k es)) := by
  obtain ⟨mid, m, hl, -, hm⟩ := findLeaf_leafOf hT h hfl
  rw [lookup, hfl]
  simp only [hm, hl.get_eq]
  rcases leaf_search (hl.body h hm) hl.sorted k with ⟨hg, i, hi⟩ | ⟨i, w, hg, hi, hv⟩
  · simp only [hi, hg]
    rfl
  · simp only [hi, hv, hg]
    rfl

theorem lookup_reported {r : LookupResult} (hr : t.lookup k = .ok r) : r = reported (get k es) := by
  cases hfl : t.findLeaf k with
  | error e =>
    rw [lookup, hfl] at hr
    cases hr
  | ok leaf => exact Except.ok.inj (hr.symm.trans (lookup_ok hT h hfl))

/-- With every page loaded a lookup fails only on a tree that is too deep. -/
theorem lookup_full (hf : full) (hlt : T.height < maxRoutingDepth) (k : Bytes) :
    ∃ r, t.lookup k = .ok r := by
  have hfl := findLeaf_full hT h hf k
  rw [if_pos hlt] at hfl
  obtain ⟨leaf, hleaf⟩ := hfl
  exact ⟨_, lookup_ok hT h hleaf⟩

end Tracked

end BTree

end SeerDb
