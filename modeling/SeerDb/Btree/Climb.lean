/-
# `SeerDb.Btree.Climb` — split propagation refines the recursive write

The source splits bottom-up: it halves a page, looks for the parent of that page (by
the recorded hint, or by a search from the root) and hands the new right half to it,
which may split in turn.  `linkRight_agrees` says that the climb ends in the tree that
`Lib.put` describes, a recursion from the root.

`Tracks` is what a tree in the middle of a climb keeps; `full` is a switch for the
statements that need every page loaded: without it a climb may stop at a page
that is not, and says so with an error.
-/
import SeerDb.Btree.Routing

namespace SeerDb

open Lib List

/-- Taking a separator that is not on the page yet, as an update of the child map. -/
theorem Node.insertChild_upsert {n : Node} {l c : Nat} {cs : List (Bytes × Nat)} {k : Bytes}
    (hb : n.body = .inner l cs) (hs : Sorted cs) (hf : Node.innerFits cs) (hk : ∀ x ∈ cs, x.1 ≠ k) :
    n.insertChild k c = ifFits internalEntrySize (k, c) (upsert k c cs)
        { n with body := .inner l (upsert k c cs) } := by
  obtain ⟨A, B, hA, hB, rfl | ⟨v, rfl⟩⟩ := exists_cut hs k
  · rw [upsert_of_not_mem_append hA hB]
    exact insertChild_eq hb hf hA hB
  · exact absurd rfl (hk (k, v) (by simp))

namespace BTree

variable {bg : Nat → Option Node} {full : Prop} {t : BTree} {S : Store Bytes Value} {n root : Nat}

variable {j l q p r : Nat} {cs : List (Bytes × Nat)} {sep : Bytes} {m : Node} {t' : BTree}
  {S' : Store Bytes Value}

/-- A tree in memory that stands for the page store `S` with root page `root`. -/
structure Tracks (bg : Nat → Option Node) (full : Prop) (t : BTree) (S : Store Bytes Value)
    (n root : Nat) : Prop where
  sim : Sim bg t S n
  root_eq : t.root = root
  full_of : full → Full t S

theorem Tracks.touch (h : Tracks bg full t S n root) {id : Nat} (hid : t.node id ≠ none) :
    Tracks bg full (t.touch id) S n root :=
  ⟨h.sim.touch hid, h.root_eq, h.full_of⟩

theorem Tracks.setNode (h : Tracks bg full t S n root) {id : Nat} {old new : Node}
    (hid : t.node id = some old)
    (hkind : ∀ l cs, old.body = .inner l cs → ∃ l' cs', new.body = .inner l' cs')
    (hhint : new.parentId = 0 ∨ new.parentId = old.parentId) :
    Tracks bg full (t.setNode id new) (S.set id new.body) n root :=
  ⟨h.sim.setNode hid hkind (hhint.imp_right .inl), h.root_eq, fun hf => (h.full_of hf).setNode hid⟩

theorem Tracks.setHint (h : Tracks bg full t S n root) {id parent : Nat} {old : Node}
    (hid : t.node id = some old) (hp : IsInner S parent) :
    Tracks bg full (t.setNode id (old.setParentId parent)) S n root := by
  refine ⟨h.sim.setHint hid hp, h.root_eq, fun hf => ?_⟩
  have : Full (t.setNode id (old.setParentId parent)) (S.set id old.body) :=
    (h.full_of hf).setNode hid
  rwa [Store.set_same (h.sim.body hid)] at this

theorem Tracks.allocNode (h : Tracks bg full t S n root) (hm : m.parentId = 0)
    (hlim : ¬ u32Max < n) :
    ∃ t', t.allocNode m = .ok (n, t') ∧ Tracks bg full t' (S.set n m.body) (n + 1) root ∧
      t'.node n = some m ∧ (∀ p, p ≠ n → t'.node p = t.node p) := by
  have halloc := h.sim.allocNode hm
  rw [if_neg hlim] at halloc
  obtain ⟨t', h1, h2, h3, h4, h5⟩ := halloc
  exact ⟨t', h1, ⟨h2, h3.trans h.root_eq, fun hf => (h.full_of hf).alloc h4 h5⟩, h4, h5⟩

theorem Tracks.setChildrenParent (h : Tracks bg full t S n root) {parent : Nat} {cs : List Nat}
    (hp : IsInner S parent) (hc : ∀ c ∈ cs, c ≤ u32Max) :
    ∃ t', t.setChildrenParent parent cs = .ok t' ∧ Tracks bg full t' S n root ∧
      (∀ p, (t'.node p).map Node.body = (t.node p).map Node.body) := by
  obtain ⟨t', h1, h2, h3, h4⟩ := Sim.setChildrenParent h.sim hp hc
  refine ⟨t', h1, ⟨h2, h3.trans h.root_eq, fun hf p hp => ?_⟩, h4⟩
  have := h4 p
  intro hnone
  rw [hnone] at this
  exact h.full_of hf p hp (by simpa using this.symm)

/-! ## One internal split -/

theorem set_set (S : Store Bytes Value) (p : Nat) (a b : Page Bytes Value) :
    (S.set p a).set p b = S.set p b := Function.update_idem _ _ _

theorem set_comm (S : Store Bytes Value) (a b : Page Bytes Value) (h : p ≠ q) :
    (S.set p a).set q b = (S.set q b).set p a := Function.update_comm h _ _ _

/-- A separator too long for any page is refused by every page. -/
theorem absorb_tooLarge (h : Node.internalEntrySize (sep, r) > pageSize - headerSize - slotSize) :
    absorb Node.layout S n q l cs sep r = none := by
  have hno : ∀ xs, ¬ Node.layout.innerFits (Lib.upsert sep r xs) := fun xs hf =>
    Node.not_tooLarge_of_fits (self_mem_upsert sep r xs) hf h
  rw [absorb, if_neg (hno _)]
  cases halve cs with
  | none => rfl
  | some x =>
    obtain ⟨left, m, right⟩ := x
    simp only [if_neg (hno _), ite_self]

/-- A page, or its fresh right half, takes the separator: the insertion into one of
the two halves, and the hint of the child that came with it. -/
theorem insertHalf (h : Tracks bg full t S n root) {id c : Nat} {child : Node}
    (hm : t.node id = some m) (hb : m.body = .inner l cs)
    (hs : Sorted cs) (hf : Node.innerFits cs) (hne : ∀ x ∈ cs, x.1 ≠ sep)
    (hfit : Node.innerFits (Lib.upsert sep c cs)) (hc : t.node c = some child) :
    ∃ m' t', m.insertChild sep c = .ok m' ∧ (t.setNode id m').setParent c id = .ok t' ∧
      Tracks bg full t' (S.set id (.inner l (Lib.upsert sep c cs))) n root ∧
      (∀ p, t'.node p = none ↔ t.node p = none) ∧
      ∀ p, p ≠ c → (t'.node p).map Node.parentId = (t.node p).map Node.parentId := by
  refine ⟨{ m with body := .inner l (Lib.upsert sep c cs) }, ?_⟩
  have hins : m.insertChild sep c = .ok { m with body := .inner l (Lib.upsert sep c cs) } := by
    rw [Node.insertChild_upsert hb hs hf hne, Node.ifFits_of_fits (self_mem_upsert sep c cs) hfit]
  have h1 : Tracks bg full (t.setNode id { m with body := .inner l (Lib.upsert sep c cs) })
      (S.set id (.inner l (Lib.upsert sep c cs))) n root :=
    h.setNode hm (fun _ _ _ => ⟨_, _, rfl⟩) (.inr rfl)
  have hin : IsInner (S.set id (.inner l (Lib.upsert sep c cs))) id := ⟨_, _, Store.set_self _ _ _⟩
  obtain ⟨child', hc'⟩ : ∃ child',
      (t.setNode id { m with body := .inner l (Lib.upsert sep c cs) }).node c = some child' := by
    by_cases hci : c = id
    · subst hci
      exact ⟨_, node_setNode_self (node_lt hm)⟩
    · exact ⟨child, by rw [node_setNode_ne hci, hc]⟩
  refine ⟨_, hins, by rw [setParent, hc'], h1.setHint hc' hin, fun p => ?_, fun p hpc => ?_⟩
  · rw [node_setNode_none hc', node_setNode_none hm]
  · rw [node_setNode_ne hpc]
    by_cases hpi : p = id
    · subst hpi
      rw [node_setNode_self (node_lt hm), hm]
      rfl
    · rw [node_setNode_ne hpi]

/-- `split_internal` on a page that has no room for the separator: it fails where
`absorb` does, and otherwise hands the right half of the page to the next level.  Only
the hints of the page's children and of the two new pages change. -/
theorem splitInternal_eq (insertInto : BTree → PageId → Bytes → PageId → Except BTreeError BTree)
    (h : Tracks bg full t S n root) {child : Node} (hm : t.node q = some m)
    (hb : m.body = .inner l cs) (hs : Sorted cs)
    (hf : Node.innerFits cs) (hne : ∀ x ∈ cs, x.1 ≠ sep)
    (hlim : ∀ c ∈ l :: cs.map Prod.snd, c ≤ u32Max) (hr : t.node r = some child)
    (hno : ¬ Node.innerFits (Lib.upsert sep r cs)) :
    ((∃ e, t.splitInternal insertInto q sep r = .error e) ∧
      absorb Node.layout S n q l cs sep r = none) ∨
    ∃ S' n' sep' r' t' msg, absorb Node.layout S n q l cs sep r = some (.split S' n' sep' r') ∧
      Tracks bg full t' S' n' root ∧
      t.splitInternal insertInto q sep r = linkRight insertInto t' msg q sep' r' ∧
      t'.node r' ≠ none ∧ (∀ p, p ≠ n → (t'.node p = none ↔ t.node p = none)) ∧
      ∀ p, p ≠ n → p ≠ r → p ∉ l :: cs.map Prod.snd →
        (t'.node p).map Node.parentId = (t.node p).map Node.parentId := by
  have hqn : q ≠ n := (h.sim.lt hm).ne
  have hrn : r ≠ n := (h.sim.lt hr).ne
  have hno' : ¬ Node.layout.innerFits (Lib.upsert sep r cs) = true := hno
  have hsplit := Node.split_inner hb hs hf
  obtain ⟨o, ho⟩ : ∃ o, absorb Node.layout S n q l cs sep r = o := ⟨_, rfl⟩
  rw [splitInternal, hm, ho]
  rw [absorb, if_neg hno'] at ho
  rcases hh : halve cs with _ | ⟨left, mid, right⟩
  · rw [hh] at hsplit ho
    simp [hsplit, ← ho]
  obtain ⟨hcs, -, -⟩ := halve_eq hh
  rw [hh] at hsplit ho
  simp only [hsplit] at ho ⊢
  subst hcs
  obtain ⟨hsL, hsR, -⟩ := sorted_append.mp hs
  have hfL : Node.innerFits left := Node.slotsFit_sublist (sublist_append_left _ _) hf
  have hfR : Node.innerFits right :=
    Node.slotsFit_sublist ((sublist_cons_self _ _).trans (sublist_append_right _ _)) hf
  have h1 : Tracks bg full (t.setNode q ⟨.inner l left, m.parentId, 0⟩)
      (S.set q (.inner l left)) n root :=
    h.setNode hm (fun _ _ _ => ⟨_, _, rfl⟩) (.inr rfl)
  by_cases hlimn : u32Max < n
  · have halloc := h1.sim.allocNode (m := ⟨.inner mid.2 right, 0, 0⟩) rfl
    rw [if_pos hlimn] at halloc
    have hid : Node.layout.idLimit < n := hlimn
    simp [halloc, ← ho, hid]
  obtain ⟨t₁, ha, h2, hself, hother⟩ := h1.allocNode (m := ⟨.inner mid.2 right, 0, 0⟩) rfl hlimn
  have hid : ¬ Node.layout.idLimit < n := hlimn
  rw [if_neg hid] at ho
  simp only [ha]
  set S₁ := (S.set q (.inner l left)).set n (.inner mid.2 right) with hS₁
  have hq₁ : S₁ q = some (.inner l left) := by rw [hS₁, Store.set_ne _ _ hqn, Store.set_self]
  have hn₁ : S₁ n = some (.inner mid.2 right) := Store.set_self _ _ _
  have hch : ∀ c ∈ (⟨.inner mid.2 right, 0, 0⟩ : Node).children, c ≤ u32Max := by
    intro c hc
    refine hlim c ?_
    simp only [Node.children, mem_cons, mem_map] at hc
    simp only [map_append, map_cons, mem_cons, mem_append, mem_map]
    rcases hc with rfl | hc
    · exact .inr (.inr (.inl rfl))
    · exact .inr (.inr (.inr hc))
  obtain ⟨t₂, hset, h3, hbody⟩ := h2.setChildrenParent ⟨_, _, hn₁⟩ hch
  have hdirect : t₁.setDirectChildrenParent n n = .ok t₂ := by
    rw [setDirectChildrenParent, hself]
    exact hset
  simp only [hdirect]
  have hkept : ∀ p, p ≠ n → p ∉ l :: (left ++ mid :: right).map Prod.snd →
      (t₂.node p).map Node.parentId = (t.node p).map Node.parentId := by
    intro p hpn hpc
    have hpr : p ∉ (⟨.inner mid.2 right, 0, 0⟩ : Node).children := by
      intro hmem
      refine hpc (.tail _ ?_)
      rw [map_append, map_cons]
      exact mem_append_right _ hmem
    rw [setChildrenParent_node hset p hpr, hother p hpn]
    by_cases hpq : p = q
    · subst hpq
      rw [node_setNode_self (node_lt hm), hm]
      rfl
    · rw [node_setNode_ne hpq]
  have hsame : ∀ p, p ≠ n → (t₂.node p = none ↔ t.node p = none) := by
    intro p hpn
    have := hbody p
    rw [hother p hpn] at this
    rw [← node_setNode_none hm (p := p), ← Option.map_eq_none_iff, this, Option.map_eq_none_iff]
  -- loaded pages keep their bodies while hints are rewritten
  have hloaded : ∀ {p b}, S₁ p = some b → t₁.node p ≠ none → ∃ x, t₂.node p = some x ∧
    x.body = b := by
    intro p b hp hl
    obtain ⟨y, hy⟩ := Option.ne_none_iff_exists'.mp hl
    have := hbody p
    rw [hy] at this
    obtain ⟨x, hx, hxb⟩ := Option.map_eq_some_iff.mp this
    have hyb := h2.sim.body hy
    rw [hp] at hyb
    exact ⟨x, hx, hxb.trans (Option.some.inj hyb).symm⟩
  obtain ⟨mL, hmL, hbL⟩ := hloaded hq₁ (by
    rw [hother q hqn, node_setNode_self (node_lt hm)]; simp)
  obtain ⟨mR, hmR, hbR⟩ := hloaded hn₁ (by rw [hself]; simp)
  obtain ⟨child', hr'⟩ : ∃ c, t₂.node r = some c := by
    have h4 : t₁.node r ≠ none := by
      rw [hother r hrn]
      by_cases hrq : r = q
      · subst hrq
        simp [node_setNode_self (node_lt hm)]
      · rw [node_setNode_ne hrq, hr]
        simp
    obtain ⟨y, hy⟩ := Option.ne_none_iff_exists'.mp h4
    obtain ⟨x, hx, -⟩ := hloaded (h2.sim.body hy) h4
    exact ⟨x, hx⟩
  -- the separator goes to one of the two halves
  obtain ⟨id, l', half, m₁, hm₁, hb₁, hs₁, hf₁, hne₁, htarget, ho⟩ :
      ∃ id l' half m₁, t₂.node id = some m₁ ∧
      m₁.body = .inner l' half ∧ Sorted half ∧ Node.innerFits half ∧ (∀ x ∈ half, x.1 ≠ sep) ∧
      (if mid.1 ≤ sep then n else q) = id ∧ (if Node.layout.innerFits (Lib.upsert sep r half) then
        some (.split (S₁.set id (.inner l' (Lib.upsert sep r half))) (n + 1) mid.1 n) else none) =
          o := by
    by_cases hlt : sep < mid.1
    · rw [if_pos hlt] at ho
      refine ⟨q, l, left, mL, hmL, hbL, hsL, hfL, fun x hx => hne x (mem_append_left _ hx),
        if_neg (not_le.mpr hlt), ?_⟩
      rwa [hS₁, ← set_comm _ _ _ hqn, set_set]
    · rw [if_neg hlt] at ho
      refine ⟨n, mid.2, right, mR, hmR, hbR, (sorted_cons.mp hsR).2, hfR, fun x hx =>
        hne x (mem_append_right _ (.tail _ hx)), if_pos (not_lt.mp hlt), ?_⟩
      rwa [hS₁, set_set]
  simp only [ge_iff_le, htarget, hm₁]
  by_cases hfit : Node.layout.innerFits (Lib.upsert sep r half) = true
  · obtain ⟨m', t', h5, h6, h7, h9, h8⟩ := insertHalf h3 hm₁ hb₁ hs₁ hf₁ hne₁ hfit hr'
    rw [if_pos hfit] at ho
    simp only [h5, h6]
    refine .inr ⟨_, _, _, _, t', _, ho.symm, h7, rfl, ?_, fun p hpn => ?_, fun p hpn hpr hpc => ?_⟩
    · rw [Ne, h9, hmR]
      simp
    · rw [h9, hsame p hpn]
    · rw [h8 p hpr, hkept p hpn hpc]
  · obtain ⟨e, he⟩ := Node.ifFits_refused (Node.insertChild_upsert hb₁ hs₁ hf₁ hne₁) hfit
    rw [if_neg hfit] at ho
    simp only [he]
    exact .inl ⟨⟨_, rfl⟩, ho.symm⟩

/-! ## The climb -/

/-- A mutation ended where the recursive write ends.  That it ended there says the climb
found its `way`; where it did, an error has the reason of the recursive write. -/
def Agrees (bg : Nat → Option Node) (full way : Prop) (T : Option (Lib.Tree Bytes Value)) :
    Except BTreeError BTree → Prop
  | .ok t => way ∧ ∃ T', T = some T' ∧ Tracks bg full t T'.store T'.next T'.root
  | .error _ => way → T = none

theorem Agrees.congr {way way' : Prop} {T : Option (Lib.Tree Bytes Value)}
    {r : Except BTreeError BTree} (h : Agrees bg full way T r) (hw : way ↔ way') :
    Agrees bg full way' T r := by
  cases r with
  | error e => exact fun hw' => h (hw.mpr hw')
  | ok t => exact ⟨hw.mp h.1, h.2⟩

section Climb

variable {way : Prop} {T : Lib.Tree Bytes Value} {es : List (Bytes × Value)} {k : Bytes} {v : Value}

/-- Every page on the path of `k` is loaded. -/
def Loaded (t : BTree) (T : Lib.Tree Bytes Value) (k : Bytes) : Prop :=
  ∀ j q, OnPath T.store k T.height T.root j q → t.node q ≠ none

/-- A write of `(k, v)` splits page `p` at height `j`. -/
def Splits (T : Lib.Tree Bytes Value) (k : Bytes) (v : Value) (j p : Nat) : Prop :=
  ∃ S n sep r, put Node.layout T.store T.next k v j p = some (.split S n sep r)

/-- How page `q` is found above page `p` at height `j`: `p` records it, or every page a
search from the root reads first is loaded. -/
def FindsUp (t : BTree) (T : Lib.Tree Bytes Value) (k : Bytes) (j q p : Nat) : Prop :=
  (q ≠ 0 ∧ (t.node p).map Node.parentId = some q) ∨
    ∀ y, LeftOf T.store k T.height T.root j y → t.node y ≠ none

/-- From height `j` up, the parent of every page is found that a write of `(k, v)` splits. -/
def Guided (t : BTree) (T : Lib.Tree Bytes Value) (k : Bytes) (v : Value) (j : Nat) : Prop :=
  ∀ i q l cs, j ≤ i → OnPath T.store k T.height T.root (i + 1) q → T.store q = some (.inner l cs) →
    Splits T k v i (route k l cs) → FindsUp t T k i q (route k l cs)

/-- One step of the way, and the rest. -/
theorem guided_iff (hp : OnPath T.store k T.height T.root (j + 1) q)
    (hq : T.store q = some (.inner l cs)) (hs : Splits T k v j (route k l cs)) :
    Guided t T k v j ↔ FindsUp t T k j q (route k l cs) ∧ Guided t T k v (j + 1) := by
  constructor
  · intro h
    exact ⟨h j q l cs le_rfl hp hq hs, fun i q' l' cs' hi => h i q' l' cs' (by omega)⟩
  · rintro ⟨hfind, h⟩ i q' l' cs' hi hp' hq' hs'
    rcases Nat.eq_or_lt_of_le hi with rfl | hlt
    · obtain rfl := hp.unique hp'
      rw [hq] at hq'
      cases hq'
      exact hfind
    · exact h i q' l' cs' hlt hp' hq' hs'

/-- Above a page that takes the binding without splitting nothing splits. -/
theorem guided_of_done {n' : Nat} (hp : OnPath T.store k T.height T.root j q)
    (ho : put Node.layout T.store T.next k v j q = some (.done S' n')) : Guided t T k v j := by
  rintro i q' l cs hi hp' hq' ⟨S, n, sep, r, hs⟩
  rw [put_done_up ((OnPath.child hp' hq').onward hp hi) ho] at hs
  cases hs

theorem leftOf_lt (hT : T.Holds Node.layout es) {y : Nat}
    (hy : LeftOf T.store k T.height T.root j y) : y < T.next := by
  obtain ⟨ps, hrep, -, hmem, -⟩ := hT.pages
  cases hy with
  | intro hi hq hS hAB hc hm =>
    obtain ⟨_, _, _, _, hr, -, hsub⟩ := hq.rep hrep (inRange_full k)
    refine hmem.mp (hsub.subset (hr.pages_eq ▸ ?_))
    exact pagesOf_child hS (hAB ▸ mem_append_left _ hc) _ hm

/-- With every page loaded the way is clear. -/
theorem Full.guided (hT : T.Holds Node.layout es) (hf : Full t T.store) :
    Guided t T k v j := by
  intro i q l cs _ _ _ _
  exact .inr fun y hy => hf y (hT.live (leftOf_lt hT hy))

theorem Full.loaded (hT : T.Holds Node.layout es) (hf : Full t T.store) : Loaded t T k := by
  intro j q hq
  exact hf q (hT.live (hT.onPath_lt hq))

/-- A step keeps what the climb from height `j` up still reads: which pages of the tree
are loaded, and the hints on the path. -/
structure Keeps (t t' : BTree) (T : Lib.Tree Bytes Value) (k : Bytes) (j : Nat) : Prop where
  loaded : ∀ p, p < T.next → (t'.node p = none ↔ t.node p = none)
  hints : ∀ i p, j ≤ i → OnPath T.store k T.height T.root i p →
    (t'.node p).map Node.parentId = (t.node p).map Node.parentId

theorem Keeps.setNode {id : Nat} {old new : Node} (hid : t.node id = some old)
    (hnew : new.parentId = old.parentId) : Keeps t (t.setNode id new) T k j := by
  refine ⟨fun p _ => node_setNode_none hid, fun i p _ _ => ?_⟩
  by_cases hp : p = id
  · subst hp
    rw [node_setNode_self (node_lt hid), hid]
    exact congrArg some hnew
  · rw [node_setNode_ne hp]

theorem Keeps.trans {t'' : BTree} (h : Keeps t t' T k j) (h' : Keeps t' t'' T k j) :
    Keeps t t'' T k j :=
  ⟨fun p hp => (h'.loaded p hp).trans (h.loaded p hp),
    fun i p hi hp => (h'.hints i p hi hp).trans (h.hints i p hi hp)⟩

/-- A page that is not of the tree does not matter. -/
theorem Keeps.of_fresh (hT : T.Holds Node.layout es) (hr : T.next ≤ r)
    (h : ∀ p, p ≠ r → t'.node p = t.node p) : Keeps t t' T k j :=
  ⟨fun p hp => by rw [h p (by omega)], fun i p _ hp => by rw [h p]; have := hT.onPath_lt hp; omega⟩

theorem Keeps.path (hT : T.Holds Node.layout es) (h : Keeps t t' T k j)
    (hl : Loaded t T k) : Loaded t' T k :=
  fun i q hq hnone => hl i q hq ((h.loaded q (hT.onPath_lt hq)).mp hnone)

theorem Keeps.guided (hT : T.Holds Node.layout es) (h : Keeps t t' T k j) :
    Guided t T k v j ↔ Guided t' T k v j := by
  have hfind : ∀ {i q l cs}, j ≤ i → OnPath T.store k T.height T.root (i + 1) q →
      T.store q = some (.inner l cs) →
      (FindsUp t T k i q (route k l cs) ↔ FindsUp t' T k i q (route k l cs)) := by
    intro i q l cs hi hp hq
    rw [FindsUp, FindsUp, h.hints i _ hi (.child hp hq)]
    refine or_congr_right (forall₂_congr fun y hy => ?_)
    rw [Ne, Ne, h.loaded y (leftOf_lt hT hy)]
  exact forall₄_congr fun i q l cs => forall₄_congr fun hi hp hq _ => hfind hi hp hq

theorem Tracks.setRoot (h : Tracks bg full t S n root) (r : Nat) :
    Tracks bg full { t with root := r } S n r :=
  ⟨⟨h.sim.shape, h.sim.next, h.sim.free, h.sim.len, h.sim.limit, h.sim.unused, h.sim.hints,
    h.sim.clean, h.sim.loaded⟩, rfl, h.full_of⟩

/-- `set_parent_id` on a loaded page. -/
theorem Tracks.setParent (h : Tracks bg full t S n root) {id parent : Nat} (hid : t.node id ≠ none)
    (hp : IsInner S parent) :
    ∃ t', t.setParent id parent = .ok t' ∧ Tracks bg full t' S n root ∧ t'.node id ≠ none ∧
      ∀ p, p ≠ id → t'.node p = t.node p := by
  obtain ⟨m, hm⟩ := Option.ne_none_iff_exists'.mp hid
  rw [BTree.setParent, hm]
  refine ⟨_, rfl, h.setHint hm hp, ?_, fun p hpi => node_setNode_ne hpi⟩
  simp [node_setNode_self (node_lt hm)]

theorem createNewRoot_agrees (h : Tracks bg full t S n T.root) (hr : t.node r ≠ none)
    (hload : t.node T.root ≠ none) (hway : way)
    (ho : put Node.layout T.store T.next k v T.height T.root = some (.split S n sep r)) :
    Agrees bg full way (T.put Node.layout k v) (t.createNewRoot T.root sep r) := by
  have hins := @Node.insertChild_upsert { Node.newInternal with
    body := .inner T.root [] } T.root r [] sep rfl sorted_nil (by decide) (by simp)
  have hput : T.put Node.layout k v = if Node.innerFits [(sep, r)] then
      if u32Max < n then none
      else some ⟨S.set n (.inner T.root [(sep, r)]), n, T.height + 1, n + 1⟩
      else none := by
    rw [Tree.put, ho]
    rfl
  rw [createNewRoot, hput]
  by_cases hfit : Node.innerFits [(sep, r)]
  · have hfit' : Node.innerFits (Lib.upsert sep r []) := hfit
    rw [Node.ifFits_of_fits (self_mem_upsert sep r []) hfit'] at hins
    simp only [hins, if_pos hfit]
    by_cases hlim : u32Max < n
    · have halloc := h.sim.allocNode
        (m := { Node.newInternal with body := .inner T.root (Lib.upsert sep r []) }) rfl
      rw [if_pos hlim] at halloc
      simp only [halloc, if_pos hlim]
      exact fun _ => rfl
    obtain ⟨t₁, ha, h1, -, hother⟩ := h.allocNode
      (m := { Node.newInternal with body := .inner T.root (Lib.upsert sep r []) }) rfl hlim
    simp only [ha, if_neg hlim]
    have hin : IsInner (S.set n (.inner T.root (Lib.upsert sep r []))) n :=
      ⟨_, _, Store.set_self _ _ _⟩
    have hlt : ∀ {p}, t.node p ≠ none → p ≠ n := by
      rintro p hp rfl
      exact hp (node_of_ge h.sim.len.le)
    have hroot₁ : t₁.node T.root ≠ none := by rwa [hother _ (hlt hload)]
    obtain ⟨t₂, he, h2, hl₂, hother₂⟩ := h1.setParent hroot₁ hin
    simp only [he]
    have hr₂ : t₂.node r ≠ none := by
      by_cases hrr : r = T.root
      · rw [hrr]
        exact hl₂
      · rwa [hother₂ r hrr, hother r (hlt hr)]
    obtain ⟨t₃, he, h3, -, -⟩ := h2.setParent hr₂ hin
    simp only [he]
    exact ⟨hway, _, rfl, h3.setRoot n⟩
  · obtain ⟨e, he⟩ := Node.ifFits_refused hins hfit
    simp only [he, if_neg hfit]
    exact fun _ => rfl

/-- What `parent_of` answers for a freshly split page of the path. -/
theorem parentOf_eq (hT : T.Holds Node.layout es) (h : Sim bg t S n) (hroot : t.root = T.root)
    (hload : Loaded t T k) (hp : OnPath T.store k T.height T.root (j + 1) q)
    (hq : T.store q = some (.inner l cs))
    (hb : SplitBelow T k j q l cs S sep r) (hle : T.next ≤ n) :
    (FindsUp t T k j q (route k l cs) → t.parentOf (route k l cs) = .ok (some q)) ∧
      (¬ FindsUp t T k j q (route k l cs) → ∃ e, t.parentOf (route k l cs) = .error e) := by
  obtain ⟨ps, hrep, hn, hmem, -⟩ := hT.pages
  have hheight := hT.height_lt
  have hlimit := h.limit
  obtain rfl := hrep.pages_eq
  obtain ⟨hfound, hstuck⟩ := findParent_below h hrep.isTree.1 hn
    (fun y hy => by have := hmem.mp hy; omega)
    (.child hp hq) hp.le (fun y hy => hb.frame y (hmem.mp hy)) hload
    (forall_mem_nil _) (show T.height < t.searchFuel by rw [searchFuel, h.len]; omega)
  obtain ⟨m, hm⟩ := Option.ne_none_iff_exists'.mp (hload j _ (.child hp hq))
  obtain ⟨mq, hmq, hbody⟩ := h.node_of_loaded (hload _ _ hp) hb.same
  rw [parentOf, if_neg (hroot ▸ hT.child_ne_root hp hq), hm, hroot]
  simp only
  by_cases hc : t.hintChecks m.parentId (route k l cs) = true
  · -- a hint that checks out is the parent
    have hpar := hb.parent _ (hintChecks_refs h (h.hints _ m (view_of_node hm)) hc)
    rw [if_pos hc, hpar]
    refine ⟨fun _ => rfl, fun hno => absurd (.inl ⟨?_, ?_⟩) hno⟩
    · rw [hintChecks, Bool.and_eq_true, decide_eq_true_eq] at hc
      exact hpar ▸ hc.1
    · rw [hm]
      exact congrArg some hpar
  rw [if_neg hc]
  refine ⟨fun hfind => ?_, fun hno => hstuck ?_⟩
  · have hleft := hfind.resolve_left ?_
    · obtain ⟨q', hq', hans⟩ := hfound hleft
      rw [hans, hp.unique hq']
    · rintro ⟨h0, hhint⟩
      rw [hm] at hhint
      have hpar : m.parentId = q := Option.some.inj hhint
      refine hc ?_
      rw [hintChecks, hpar, hmq, Bool.and_eq_true, decide_eq_true_eq]
      exact ⟨h0, (referencesChild_inner hbody).mpr
        (by rw [Node.children, hbody]; exact route_mem k l cs)⟩
  · rw [FindsUp, not_or] at hno
    have := hno.2
    push Not at this
    exact this

/-- A page of the path at or above `q` is no child of `q`. -/
theorem not_child_of_above (hT : T.Holds Node.layout es) {i : Nat}
    (hp : OnPath T.store k T.height T.root (j + 1) q) (hq : T.store q = some (.inner l cs))
    (hi : j + 1 ≤ i) (hup : OnPath T.store k T.height T.root i p) : p ∉ l :: cs.map Prod.snd := by
  intro hmem
  obtain ⟨ps, hrep, hn, -⟩ := hT.pages
  obtain ⟨lo, hi', es', ps', hr', hk', hsub⟩ := hup.rep hrep (inRange_full k)
  obtain ⟨_, _, _, ps'', hr'', -, hsub''⟩ := (hup.onward hp hi).rep hr' hk'
  refine (hr'.ref_mem (hn.sublist hsub) (hsub''.subset hr''.root_mem) (c := p) ?_).2 rfl
  rw [Store.refs, hq]
  exact hmem

/-- The turn of the climb at page `q`, given the turns above it. -/
theorem insertIntoInternal_agrees (hT : T.Holds Node.layout es) {j q l r : Nat}
    {cs : List (Bytes × Nat)} {sep : Bytes} {fuel : Nat}
    (hp : OnPath T.store k T.height T.root (j + 1) q) (hq : T.store q = some (.inner l cs))
    (ho : put Node.layout T.store T.next k v j (route k l cs) = some (.split S n sep r))
    (h : Tracks bg full t S n T.root) (hr : t.node r ≠ none) (hload : Loaded t T k)
    (hfuel : T.height < fuel + j)
    (above : ∀ {t : BTree} {S : Store Bytes Value} {n fuel r : Nat} {sep : Bytes} {msg : String},
      put Node.layout T.store T.next k v (j + 1) q = some (.split S n sep r) →
      Tracks bg full t S n T.root → t.node r ≠ none → Loaded t T k → T.height < fuel + (j + 1) →
      Agrees bg full (Guided t T k v (j + 1)) (T.put Node.layout k v)
        (linkRight (insertIntoInternal fuel) t msg q sep r)) :
    Agrees bg full (Guided t T k v (j + 1)) (T.put Node.layout k v)
      (insertIntoInternal fuel t q sep r) := by
  have hb := hT.splitBelow hp hq ho
  have hstep := put_split_up (q := q) hq ho
  obtain ⟨fuel, rfl⟩ : ∃ f, fuel = f + 1 := ⟨fuel - 1, by have := hp.le; omega⟩
  obtain ⟨m, hm, hbody⟩ := h.sim.node_of_loaded (hload _ _ hp) hb.same
  rw [insertIntoInternal, hm]
  obtain ⟨ps, hrep, hn, hmem, -⟩ := hT.pages
  obtain ⟨lo, hi, es', ps', hr', -, hsub⟩ := hp.rep hrep (inRange_full k)
  obtain ⟨l', cs', q', h1, hf, h3, rfl⟩ := hr'
  rw [hq] at h1
  cases h1
  have hs : Sorted cs := h3.seps.1
  have hlim : ∀ c ∈ l :: cs.map Prod.snd, c ≤ u32Max := by
    intro c hc
    have h1 := hmem.mp (hrep.ref_mem hn (hsub.subset (.head _))
      (by rw [Store.refs, hq]; exact hc)).1
    have h2 : c < n := by
      by_contra hge
      exact hb.live c h1 (h.sim.unused c (not_lt.mp hge))
    have := h.sim.limit
    omega
  simp only
  rw [Node.insertChild_upsert (c := r) hbody hs hf hb.fresh]
  rcases Node.ifFits_cases Node.internalEntrySize (sep, r) (Lib.upsert sep r cs)
    { m with body := .inner l (Lib.upsert sep r cs) } with ⟨hbig, he⟩ | ⟨hfit,
      he⟩ | ⟨hfit, he⟩ <;> rw [he]
  · exact fun _ => Tree.put_eq_none hp (hstep.trans (absorb_tooLarge hbig))
  · have hfit' : Node.layout.innerFits (Lib.upsert sep r cs) = true := hfit
    rw [absorb, if_pos hfit'] at hstep
    refine ⟨guided_of_done hp hstep, _, Tree.put_eq_done hp hstep, ?_⟩
    exact h.setNode hm (fun _ _ _ => ⟨_, _, rfl⟩) (.inr rfl)
  obtain ⟨child, hr⟩ := Option.ne_none_iff_exists'.mp hr
  have hmq : t.node q ≠ none := by simp [hm]
  rcases splitInternal_eq (insertIntoInternal fuel) (h.touch hmq) hm hbody hs hf hb.fresh
    hlim hr hfit with
    ⟨⟨e, he⟩, habs⟩ | ⟨S', n', sep', r', t', msg, habs, h', he, hr', hsame, hkept⟩
  · simp only [he]
    exact fun _ => Tree.put_eq_none hp (hstep.trans habs)
  simp only [he]
  obtain ⟨hnr, rfl⟩ := put_fresh ho
  have hkeeps : Keeps t t' T k (j + 1) := by
    refine ⟨fun p hpn => hsame p (by omega), fun i p hi hup => ?_⟩
    -- a page of the path is neither new nor a child of `q`
    have hpn := hT.onPath_lt hup
    exact hkept p (by omega) (by omega) (not_child_of_above hT hp hq hi hup)
  refine (above (hstep.trans habs) h' hr' (hkeeps.path hT hload) (by omega)).congr ?_
  exact (hkeeps.guided hT).symm

/-- **The climb.** Handing the right half of a freshly split page of the path to its
parent, and on upwards, ends in the tree the recursive write describes exactly if the
climb finds its way. -/
theorem linkRight_agrees (hT : T.Holds Node.layout es) (hp : OnPath T.store k T.height T.root j p) :
    ∀ {t : BTree} {S : Store Bytes Value} {n fuel r : Nat} {sep : Bytes} {msg : String},
      put Node.layout T.store T.next k v j p = some (.split S n sep r) →
      Tracks bg full t S n T.root → t.node r ≠ none → Loaded t T k → T.height < fuel + j →
      Agrees bg full (Guided t T k v j) (T.put Node.layout k v)
        (linkRight (insertIntoInternal fuel) t msg p sep r) := by
  induction hp with
  | root =>
    intro t S n fuel r sep msg ho h hr hload _
    rw [linkRight, if_pos h.root_eq.symm]
    refine createNewRoot_agrees h hr (hload _ _ .root) ?_ ho
    intro i q l cs hi hp
    exact absurd hp.le (by omega)
  | child hp hq ih =>
    rename_i j q l cs
    intro t S n fuel r sep msg ho h hr hload hfuel
    have hb := hT.splitBelow hp hq ho
    have hle : T.next ≤ n := by
      by_contra hgt
      exact hb.live n (by omega) (h.sim.unused n le_rfl)
    rw [linkRight, if_neg (h.root_eq ▸ hT.child_ne_root hp hq)]
    obtain ⟨hfound, hstuck⟩ := parentOf_eq hT h.sim h.root_eq hload hp hq hb hle
    have hway := guided_iff (t := t) hp hq ⟨_, _, _, _, ho⟩
    by_cases hfind : FindsUp t T k j q (route k l cs)
    · obtain ⟨t', hset, h', hr', hother⟩ := h.setParent hr ⟨l, cs, hb.same⟩
      obtain ⟨hnr, -⟩ := put_fresh ho
      have hkeeps : Keeps t t' T k (j + 1) := .of_fresh hT hnr hother
      simp only [hfound hfind, hset]
      refine (insertIntoInternal_agrees hT hp hq ho h' hr' (hkeeps.path hT hload) hfuel ih).congr ?_
      rw [← hkeeps.guided hT, hway]
      exact ⟨fun hg => ⟨hfind, hg⟩, And.right⟩
    · obtain ⟨e, he⟩ := hstuck hfind
      simp only [he]
      exact fun hg => absurd (hway.mp hg).1 hfind

end Climb

end BTree

end SeerDb
