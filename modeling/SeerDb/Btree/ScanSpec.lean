/-
# `SeerDb.Btree.ScanSpec` — a range scan yields the bindings of its interval

Leaf navigation goes from leaf to leaf in key order (`Btree.LeafNav`); the cursor
reads the entries of the leaves from its start to its end.
-/
import SeerDb.Btree.LeafNav

namespace SeerDb

open Lib List

namespace Scan

variable {ε : Type} {page parentPage : Nat → Except ε Node} {errors : ScanErrors ε}
  {S : Store Bytes Value}

/-- A tree read through `page`, with fuel `depth` for its paths. -/
structure Nav (page : Nat → Except ε Node) (S : Store Bytes Value) (height root depth : Nat)
    (es : List (Bytes × Value)) (ps : List Nat) : Prop where
  reads : Reads page S
  rep : Rep Node.layout S height ⊥ ⊤ root es ps
  nodup : ps.Nodup
  limit : ∀ q ∈ ps, q ≤ u32Max
  only : ∀ q, S q ≠ none → q ∈ ps
  deep : height < depth

section Nav

variable {height root depth : Nat} {es : List (Bytes × Value)} {ps : List Nat}
  {up : List (Nat × Nat)} {after : List Nat}

theorem Nav.walk (hN : Nav page S height root depth es ps) : Walk page S height root depth := by
  obtain ⟨hreads, hrep, hn, hlim, honly, hdeep⟩ := hN
  have := hrep.pages_eq
  subst this
  exact ⟨hreads, hrep.isTree.1, hn, hlim, honly, hdeep⟩

/-- **Leaf navigation** finds the first leaf to the right, whatever the recorded parents say. -/
theorem nextLeaf_eq (hN : Nav page S height root depth es ps) (hP : Reads parentPage S) {leaf : Nat}
    (h : RightOf S height root 0 leaf up after) (hint : Nat) :
    nextLeaf page errors parentPage depth root leaf hint = .ok after.head? := by
  obtain ⟨lo, hi, e, hleaf, -⟩ := h.rep hN.rep
  exact hN.walk.nextLeaf_eq hP hleaf.1 (h.pathTo hN.rep) hint

end Nav

end Scan

/-! ## The cursor -/

/-- What a scan shows of one binding. -/
def shown (b : Bytes × Value) : Option (Bytes × LookupResult) := match b.2 with
  | .tombstone => none
  | v => some (b.1, v.toLookup)

/-- The bindings of `[start, end_)` that are not tombstones. -/
def visible (start end_ : Bytes) (es : List (Bytes × Value)) : List (Bytes × LookupResult) :=
  (between start end_ es).filterMap shown

theorem visible_cons (start end_ : Bytes) (b : Bytes × Value) (es : List (Bytes × Value)) :
    visible start end_ (b :: es) =
      if start ≤ b.1 ∧ b.1 < end_ then (shown b).toList ++ visible start end_ es
      else visible start end_ es := by
  simp only [visible, between, filter_cons]
  by_cases h : start ≤ b.1 ∧ b.1 < end_
  · simp only [h, and_self, decide_true, if_true, filterMap_cons]
    cases shown b <;> simp
  · simp [h]

variable {start end_ : Bytes}

theorem visible_eq_nil {es : List (Bytes × Value)}
    (h : ∀ b ∈ es, end_ ≤ b.1) : visible start end_ es = [] := by
  have : between start end_ es = [] := by
    rw [between, filter_eq_nil_iff]
    intro b hb
    have := h b hb
    simp [not_lt.mpr this]
  rw [visible, this]
  rfl

namespace BTree

theorem reads_pageOr {bg : Nat → Option Node} {t : BTree} {S : Store Bytes Value} {n : Nat}
    (h : Sim bg t S n) (hf : Full t S) (missing : String) : Reads (t.pageOr missing) S where
  sound p m hm := by
    rw [pageOr] at hm
    split at hm
    · cases hm
    · rename_i m' hm'
      cases hm
      exact h.body hm'
  complete p b hb := by
    obtain ⟨m, hm, hmb⟩ := h.node_of_full hf hb
    exact ⟨m, by rw [pageOr, hm], hmb⟩

/-- A cursor in the tree: the entries of its page from it on, and the leaves after it. -/
structure CursorAt (S : Store Bytes Value) (height root : Nat) (c : RangeCursor)
    (left : List (Bytes × Value)) (after : List Nat) : Prop where
  path : ∃ up, RightOf S height root 0 c.currentNode up after
  page : ∃ es, S c.currentNode = some (.leaf es) ∧ es.drop c.currentIndex = left ∧ Sorted es
  ahead : Sorted (left ++ after.flatMap S.entries)
  active : c.done = false

/-- Turns left: one per entry, one per page end. -/
def turnsLeft (S : Store Bytes Value) (left : List (Bytes × Value)) (after : List Nat) : Nat :=
  left.length + (after.map (fun p => (S.entries p).length + 1)).sum + 1

section Cursor

variable {bg : Nat → Option Node} {full : Prop} {t : BTree} {T : Lib.Tree Bytes Value}
  {es left : List (Bytes × Value)} {after : List Nat} {c : RangeCursor}

/-- The turn of a cursor that stands on an entry. -/
theorem turn_entry (h : Tracks bg full t T.store T.next T.root) (hf : full) {k : Bytes} {v : Value}
    (hc : CursorAt T.store T.height T.root c ((k, v) :: left) after) :
    CursorAt T.store T.height T.root { c with currentIndex := c.currentIndex + 1 } left after ∧
    c.turn t = if c.end_ ≤ k then .over else match shown (k, v) with
      | some item => if c.start ≤ k then .emit item { c with currentIndex := c.currentIndex + 1 }
          else .again { c with currentIndex := c.currentIndex + 1 }
      | none => .again { c with currentIndex := c.currentIndex + 1 } := by
  obtain ⟨page, hpage, hdrop, hsorted⟩ := hc.page
  obtain ⟨m, hm, hb⟩ := h.sim.node_of_full (h.full_of hf) hpage
  have hget : page[c.currentIndex]? = some (k, v) := by
    have := congrArg List.head? hdrop
    rwa [List.head?_drop, List.head?_cons] at this
  obtain ⟨hlt, hget'⟩ := List.getElem?_eq_some_iff.mp hget
  have hkey : ∀ i, m.key i = page[i]?.map Prod.fst := fun i => by
    simp [Node.key, Node.keys_leaf hb]
  have hvalue : m.value c.currentIndex = some v := by simp [Node.value, hb, hget]
  constructor
  · refine ⟨hc.path, ⟨page, hpage, ?_, hsorted⟩, (sorted_cons.mp hc.ahead).2, hc.active⟩
    rw [← tail_drop, hdrop]
    rfl
  · -- no equal key stands before the entry
    have hdup : ¬ (c.currentIndex + 1 > 1 ∧ m.key (c.currentIndex + 1 - 2) = some k) := by
      rintro ⟨h1, h2⟩
      rw [hkey] at h2
      obtain ⟨⟨k', v'⟩, hprev, rfl⟩ := Option.map_eq_some_iff.mp h2
      obtain ⟨hlt', hprev'⟩ := List.getElem?_eq_some_iff.mp hprev
      have := pairwise_iff_getElem.mp hsorted _ _ hlt' hlt (by omega)
      rw [hget', hprev'] at this
      exact lt_irrefl _ this
    have hkeyc : m.key c.currentIndex = some k := by rw [hkey, hget]; rfl
    rw [RangeCursor.turn, hm]
    simp only [Node.count_leaf hb, if_pos hlt, hkeyc, ge_iff_le]
    by_cases hend : c.end_ ≤ k
    · rw [if_pos hend, if_pos hend]
    · rw [if_neg hend, if_neg hend, RangeCursor.readEntry, if_neg hdup]
      simp only [Nat.add_sub_cancel, hvalue]
      cases v <;> rfl

theorem leavesOf_nodup (hT : T.Holds Node.layout es) :
    (leavesOf T.store T.height T.root).Nodup := by
  obtain ⟨ps, hr, hn, -⟩ := hT.pages
  rw [hr.pages_eq] at hn
  exact hn.sublist (leavesOf_sublist_pagesOf _ _)

/-- The leaf after the cursor's, as a position of the tree. -/
theorem next_position (hT : T.Holds Node.layout es) {up : List (Nat × Nat)} {x leaf : Nat}
    (hx : RightOf T.store T.height T.root 0 x up (leaf :: after)) :
    ∃ up', RightOf T.store T.height T.root 0 leaf up' after := by
  obtain ⟨before, hb⟩ := hx.leaves
  have hmem : leaf ∈ leavesOf T.store T.height T.root := by simp [hb]
  obtain ⟨up', after', hl⟩ := RightOf.root.of_leaf hmem
  obtain ⟨before', hb'⟩ := hl.leaves
  have hnd := leavesOf_nodup hT
  have heq : (before ++ [x]) ++ leaf :: after = before' ++ leaf :: after' := by
    rw [hb] at hb'
    simpa [leavesOf] using hb'
  rw [hb] at hnd
  have hnd' : ((before ++ [x]) ++ leaf :: after).Nodup := by simpa [leavesOf] using hnd
  obtain ⟨-, h2, h3⟩ := nodup_append.mp hnd'
  have hcut := (append_cons_inj_of_notMem (fun hm => h3 leaf hm leaf (.head _) rfl)
    (nodup_cons.mp h2).1).mp heq
  obtain ⟨-, -, rfl⟩ := hcut
  exact ⟨up', hl⟩

/-- The answer `r` of a cursor with the bindings `ahead` in front of it: the first
visible one, leaving the rest, or the end.  `bound` bounds the turns left after it. -/
def Yields (T : Lib.Tree Bytes Value) (start end_ : Bytes) (ahead : List (Bytes × Value))
    (bound : Nat) (r : Option (Except BTreeError (Bytes × LookupResult)) × RangeCursor) : Prop :=
  match visible start end_ ahead with
  | [] => r.1 = none
  | item :: items => ∃ c left after, r = (some (.ok item), c) ∧
      CursorAt T.store T.height T.root c left after ∧ c.start = start ∧ c.end_ = end_ ∧
      visible start end_ (left ++ after.flatMap T.store.entries) = items ∧
      turnsLeft T.store left after < bound

theorem Yields.mono {ahead ahead' : List (Bytes × Value)} {bound bound' : Nat}
    {r : Option (Except BTreeError (Bytes × LookupResult)) × RangeCursor}
    (h : Yields T start end_ ahead bound r)
    (ha : visible start end_ ahead' = visible start end_ ahead)
    (hb : bound ≤ bound') : Yields T start end_ ahead' bound' r := by
  rw [Yields] at h ⊢
  rw [ha]
  split
  · rename_i hv
    rwa [hv] at h
  rename_i item items hv
  rw [hv] at h
  obtain ⟨c, left, after, h1, h2, h3, h4, h5, h6⟩ := h
  exact ⟨c, left, after, h1, h2, h3, h4, h5, h6.trans_le hb⟩

theorem entries_length_le (hT : T.Holds Node.layout es) {x : Nat} {up : List (Nat × Nat)}
    (hx : RightOf T.store T.height T.root 0 x up after) :
    (T.store.entries x).length ≤ pageSize := by
  obtain ⟨ps, hr, -⟩ := hT.rep
  obtain ⟨lo, hi, e, hrep, -⟩ := hx.rep hr
  have hfits : Node.leafFits e := hrep.2.2.2.1
  rw [Store.entries, hrep.1]
  simp only [Node.slotsFit, decide_eq_true_eq] at hfits
  have : 1 * e.length ≤ slotSize * e.length := Nat.mul_le_mul_right _ (by decide)
  show e.length ≤ pageSize
  omega

theorem startIndex_eq {m : Node} {page : List (Bytes × Value)} {k : Bytes}
    (hb : m.body = .leaf page) (hs : Sorted page) : ∃ A B, page = A ++ B ∧ (∀ e ∈ A, e.1 < k) ∧
      startIndex m k = A.length := by
  rw [startIndex]
  obtain ⟨A, B, hA, hB, rfl | ⟨v, rfl⟩⟩ := exists_cut hs k
  · rw [Node.search_absent (Node.keys_leaf hb) hA hB]
    exact ⟨A, B, rfl, hA, rfl⟩
  · rw [Node.search_present (Node.keys_leaf hb) hA hB]
    exact ⟨A, (k, v) :: B, rfl, hA, rfl⟩

theorem visible_append_of_lt {A B : List (Bytes × Value)}
    (h : ∀ e ∈ A, e.1 < start) : visible start end_ (A ++ B) = visible start end_ B := by
  have : between start end_ A = [] := by
    rw [between, filter_eq_nil_iff]
    intro b hb
    simp [not_le.mpr (h b hb)]
  simp only [visible, between, filter_append] at this ⊢
  rw [this, nil_append]

variable (hT : T.Holds Node.layout es) (h : Tracks bg full t T.store T.next T.root) (hf : full)

include hT h hf

theorem nav (missing : String) :
    ∃ ps, Scan.Nav (t.pageOr missing) T.store T.height T.root t.searchFuel es ps := by
  obtain ⟨ps, hr, hn, hmem, -⟩ := hT.pages
  have hheight := hT.height_lt
  refine ⟨ps, reads_pageOr h.sim (h.full_of hf) missing, hr, hn, ?_, ?_, ?_⟩
  · intro q hq
    have := hmem.mp hq
    have := h.sim.limit
    omega
  · intro q hq
    by_contra hno
    exact hq (hT.unused q (not_lt.mp fun hlt => hno (hmem.mpr hlt)))
  · have hlast : T.store (T.next - 1) ≠ none := hr.page_ne_none _ (hmem.mpr (by omega))
    obtain ⟨m, hm⟩ := Option.ne_none_iff_exists'.mp (h.full_of hf _ hlast)
    have := node_lt hm
    rw [searchFuel]
    omega

/-- The turn of a cursor at the end of its page. -/
theorem turn_pageEnd (hc : CursorAt T.store T.height T.root c [] after) :
    match after with
    | [] => c.turn t = .over
    | leaf :: after => CursorAt T.store T.height T.root
        { c with currentNode := leaf, currentIndex := 0 } (T.store.entries leaf) after ∧
        c.turn t = .again { c with currentNode := leaf, currentIndex := 0 } := by
  obtain ⟨page, hpage, hdrop, -⟩ := hc.page
  obtain ⟨m, hm, hb⟩ := h.sim.node_of_full (h.full_of hf) hpage
  obtain ⟨up, hup⟩ := hc.path
  obtain ⟨ps, hN⟩ := nav hT h hf "range page is missing"
  have hnext : t.nextLeafChecked c.currentNode m.parentId = .ok after.head? := by
    rw [nextLeafChecked, h.root_eq]
    exact Scan.nextLeaf_eq hN (reads_pageOr h.sim (h.full_of hf) _) hup m.parentId
  have hge : ¬ c.currentIndex < m.count := by
    rw [Node.count_leaf hb]
    exact not_lt.mpr (drop_eq_nil_iff.mp hdrop)
  rw [RangeCursor.turn, hm]
  simp only [if_neg hge, hnext]
  cases after with
  | nil => rfl
  | cons leaf after =>
    refine ⟨?_, rfl⟩
    obtain ⟨up', hup'⟩ := next_position hT hup
    obtain ⟨lo, hi, e, hrep, -⟩ := hup'.rep hN.rep
    have hent : T.store.entries leaf = e := by rw [Store.entries, hrep.1]
    refine ⟨⟨up', hup'⟩, ⟨e, hrep.1, by rw [hent]; rfl, hrep.2.1⟩, ?_, hc.active⟩
    simpa using hc.ahead

/-- A run of the cursor's loop: to the next visible entry, or to the end. -/
theorem loop_yields : ∀ {fuel c left after},
    CursorAt T.store T.height T.root c left after → turnsLeft T.store left after ≤ fuel →
    Yields T c.start c.end_ (left ++ after.flatMap T.store.entries) (turnsLeft T.store left after)
      (c.loop t fuel)
  | 0, _, left, after, _, hle => by simp [turnsLeft] at hle
  | fuel + 1, c, [], [], hc, _ => by
    have hturn : c.turn t = .over := turn_pageEnd hT h hf hc
    rw [RangeCursor.loop, hturn]
    rfl
  | fuel + 1, c, [], leaf :: after, hc, hle => by
    obtain ⟨hc', hturn⟩ := turn_pageEnd hT h hf hc
    have hlt : turnsLeft T.store (T.store.entries leaf) after < turnsLeft T.store []
      (leaf :: after) := by
      simp only [turnsLeft, length_nil, map_cons, sum_cons]
      omega
    rw [RangeCursor.loop, hturn]
    exact (loop_yields hc' (by omega)).mono (by simp) hlt.le
  | fuel + 1, c, (k, v) :: left, after, hc, hle => by
    obtain ⟨hc', hturn⟩ := turn_entry h hf hc
    have hlt : turnsLeft T.store left after < turnsLeft T.store ((k, v) :: left) after := by
      simp only [turnsLeft, length_cons]
      omega
    have ih : Yields T c.start c.end_ (left ++ after.flatMap T.store.entries)
        (turnsLeft T.store left after)
        (({ c with currentIndex := c.currentIndex + 1 } : RangeCursor).loop t fuel) :=
      loop_yields hc' (by omega)
    have hvis := visible_cons c.start c.end_ (k, v) (left ++ after.flatMap T.store.entries)
    rw [RangeCursor.loop, hturn, cons_append]
    by_cases hend : c.end_ ≤ k
    · -- everything from here on is past the end
      have hnil : visible c.start c.end_ ((k, v) :: (left ++ after.flatMap T.store.entries)) =
        [] := by
        refine visible_eq_nil fun b hb => ?_
        rcases mem_cons.mp hb with rfl | hb
        · exact hend
        · exact hend.trans ((sorted_cons.mp hc.ahead).1 b hb).le
      rw [if_pos hend, Yields, hnil]
    rw [if_neg hend]
    have hk : k < c.end_ := not_le.mp hend
    cases hs : shown (k, v) with
    | none =>
      refine ih.mono ?_ hlt.le
      rw [hvis, hs]
      simp
    | some item =>
      by_cases hstart : c.start ≤ k
      · rw [if_pos ⟨hstart, hk⟩, hs] at hvis
        simp only [if_pos hstart]
        rw [Yields, hvis]
        exact ⟨_, left, after, rfl, hc', rfl, rfl, rfl, hlt⟩
      · rw [if_neg fun hn => hstart hn.1] at hvis
        simp only [if_neg hstart]
        exact ih.mono hvis hlt.le

theorem collect_eq : ∀ {fuel c left after},
    CursorAt T.store T.height T.root c left after → turnsLeft T.store left after ≤ fuel →
    turnsLeft T.store left after ≤ RangeCursor.loopFuel t →
    c.collect t fuel = .ok (visible c.start c.end_ (left ++ after.flatMap T.store.entries))
  | 0, _, left, after, _, hle, _ => by simp [turnsLeft] at hle
  | fuel + 1, c, left, after, hc, hle, hbound => by
    have hy := loop_yields hT h hf hc hbound
    have hnext : c.next t = c.loop t (RangeCursor.loopFuel t) := by
      rw [RangeCursor.next, hc.active]
      rfl
    rw [← hnext, Yields] at hy
    rw [RangeCursor.collect]
    split at hy
    · rename_i hv
      cases hr : c.next t with
      | mk r c' =>
        rw [hr] at hy
        cases hy
        rw [hv]
    · rename_i item items hv
      obtain ⟨c', left', after', hr, hc', hs, he, hrest, hlt⟩ := hy
      rw [hr, hv]
      simp only
      rw [collect_eq hc' (by omega) (by omega), hs, he, hrest]

/-- The loop's fuel covers every scan. -/
theorem turnsLeft_le (hc : CursorAt T.store T.height T.root c left after) :
    turnsLeft T.store left after ≤ RangeCursor.loopFuel t := by
  obtain ⟨ps, hr, -⟩ := hT.rep
  obtain ⟨up, hup⟩ := hc.path
  obtain ⟨page, hpage, hdrop, -⟩ := hc.page
  obtain ⟨before, hb⟩ := hup.leaves
  have hnd := leavesOf_nodup hT
  have hleaf : ∀ x ∈ leavesOf T.store T.height T.root,
      x < t.nodes.length ∧ (T.store.entries x).length ≤ pageSize := by
    intro x hx
    obtain ⟨up', after', hx'⟩ := RightOf.root.of_leaf hx
    obtain ⟨lo, hi, e, hrep, -⟩ := hx'.rep hr
    obtain ⟨m, hm, -⟩ := h.sim.node_of_full (h.full_of hf) hrep.1
    exact ⟨node_lt hm, entries_length_le hT hx'⟩
  -- the leaves are distinct loaded pages
  have hcount : after.length + 1 ≤ t.nodes.length := by
    have hsub : (c.currentNode :: after).Sublist (leavesOf T.store T.height T.root) := by
      rw [hb, append_assoc]
      exact (sublist_append_right _ _)
    have hperm : (c.currentNode :: after).Subperm (List.range t.nodes.length) :=
      subperm_of_subset (hnd.sublist hsub) fun x hx =>
        mem_range.mpr (hleaf x (hsub.subset hx)).1
    simpa using hperm.length_le
  have hleft : left.length ≤ pageSize := by
    have h1 := entries_length_le hT hup
    rw [Store.entries, hpage] at h1
    rw [← hdrop, length_drop]
    exact (Nat.sub_le _ _).trans h1
  have hsum : (after.map (fun p => (T.store.entries p).length + 1)).sum
      ≤ after.length * (pageSize + 1) := by
    have hmem : ∀ x ∈ after, (T.store.entries x).length + 1 ≤ pageSize + 1 := by
      intro x hx
      exact Nat.succ_le_succ (hleaf x (by simp [hb, hx])).2
    have := sum_le_card_nsmul (after.map fun p => (T.store.entries p).length + 1) (pageSize + 1)
      (by simpa using hmem)
    simpa using this
  have hmul := Nat.mul_le_mul_right (pageSize + 1) hcount
  rw [Nat.add_mul, Nat.one_mul] at hmul
  rw [turnsLeft, RangeCursor.loopFuel]
  omega

/-- **`range_scan`** yields the visible bindings of its interval, whenever the
descent to its first leaf succeeds. -/
theorem rangeScan_eq (start end_ : Bytes) :
    t.rangeScan start end_ = match t.findLeaf start with
      | .error e => .error e
      | .ok _ => .ok (visible start end_ es) := by
  rw [rangeScan, rangeCursor]
  rcases hfl : t.findLeaf start with e | leaf
  · rfl
  obtain ⟨mid, -, hl, -, -⟩ := findLeaf_leafOf hT h hfl
  obtain ⟨m, hm, hb⟩ := h.sim.node_of_full (h.full_of hf) hl.page
  obtain ⟨ps, hr, -⟩ := hT.rep
  obtain ⟨up, before, after, hR, hleaves, hbefore, -⟩ := hl.path.rightOf hr
  obtain ⟨A, B, hcut, hA, hindex⟩ := startIndex_eq (k := start) hb hl.sorted
  have hes : es = before.flatMap T.store.entries ++ A ++ (B ++ after.flatMap T.store.entries) := by
    have := hr.bindings_eq
    rw [hleaves] at this
    rw [this]
    simp [leavesOf, Store.entries, hl.page, hcut]
  have hsorted := hT.sorted
  rw [hes] at hsorted
  have hc : CursorAt T.store T.height T.root ⟨start, end_, leaf, A.length, false⟩ B after :=
    ⟨⟨up, hR⟩, ⟨mid, hl.page, by simp [hcut], hl.sorted⟩, (sorted_append.mp hsorted).2.1, rfl⟩
  simp only [pageOr, hm]
  rw [hindex]
  have hle := turnsLeft_le hT h hf hc
  have hvis : visible start end_ es = visible start end_ (B ++ after.flatMap T.store.entries) := by
    rw [hes]
    exact visible_append_of_lt fun e he => (mem_append.mp he).elim (hbefore e) (hA e)
  rw [collect_eq hT h hf hc hle hle, hvis]

end Cursor

end BTree

end SeerDb
