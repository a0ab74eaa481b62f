/-
# `SeerDb.Lib.TreeFrame` — what a write leaves alone

A write of one binding changes the pages on the path of its key and pages with new
ids, nothing else.  So the pages below a page that is not on the path stay what
they were, and stay where they were (`Tree.put_below`).

The second half says what a leaf page of a tree contributes to its bindings.
-/
import SeerDb.Lib.LooseTree
import Mathlib.Logic.Relation

namespace SeerDb.Lib

variable {K V : Type} [LinearOrder K] {L : Layout K V}

/-- The pages after a write. -/
def Outcome.store : Outcome K V → Store K V
  | .done S _ => S
  | .split S _ _ _ => S

section Frame

variable {S : Store K V} {n p q : Nat} {k : K} {v : V} {o : Outcome K V}

theorem putLeaf_frame {es : List (K × V)} (h : putLeaf L S n k v p es = some o) (hqp : q ≠ p)
    (hqn : q < n) : o.store q = S q := by
  rw [putLeaf] at h
  repeat' split at h
  all_goals cases h
  · exact Store.set_ne _ _ hqp
  · exact (Store.set_ne _ _ hqn.ne).trans (Store.set_ne _ _ hqp)
  · exact (Store.set_ne _ _ hqn.ne).trans (Store.set_ne _ _ hqp)

theorem absorb_frame {l r : Nat} {cs : List (K × Nat)} {sep : K}
    (h : absorb L S n p l cs sep r = some o) (hqp : q ≠ p) (hqn : q < n) : o.store q = S q := by
  rw [absorb] at h
  repeat' split at h
  all_goals cases h
  · exact Store.set_ne _ _ hqp
  · exact (Store.set_ne _ _ hqn.ne).trans (Store.set_ne _ _ hqp)
  · exact (Store.set_ne _ _ hqn.ne).trans (Store.set_ne _ _ hqp)

/-- A page that the path does not pass keeps its content. -/
theorem put_frame (hqn : q < n) : ∀ {h p : Nat} {o : Outcome K V}, put L S n k v h p = some o →
    (∀ j, ¬ OnPath S k h p j q) → o.store q = S q
  | 0, p, o, ho, hq => by
    have hqp : q ≠ p := fun he => hq 0 (he ▸ .root)
    rw [put] at ho
    split at ho
    · exact putLeaf_frame ho hqp hqn
    · cases ho
  | h + 1, p, o, ho, hq => by
    have hqp : q ≠ p := fun he => hq (h + 1) (he ▸ .root)
    rw [put] at ho
    split at ho
    · rename_i l cs hp
      have hchild : ∀ j, ¬ OnPath S k h (route k l cs) j q := fun j hj =>
        hq j ((OnPath.child .root hp).trans hj)
      split at ho
      · rename_i S' n' sep r hput
        obtain ⟨hle, rfl⟩ := put_fresh hput
        have hsub := put_frame hqn hput hchild
        rw [absorb_frame ho hqp (hqn.trans_le (hle.trans (Nat.le_succ _)))]
        exact hsub
      · exact put_frame hqn ho hchild
    · cases ho

theorem Tree.put_frame {t t' : Tree K V} (h : t.put L k v = some t') (hqn : q < t.next)
    (hq : ∀ j, ¬ OnPath t.store k t.height t.root j q) : t'.store q = t.store q := by
  rw [Tree.put] at h
  split at h
  · cases h
  · rename_i S' n' hput
    cases h
    exact Lib.put_frame hqn hput hq
  rename_i S' n' sep r hput
  obtain ⟨hle, rfl⟩ := put_fresh hput
  have hsub : S' q = t.store q := Lib.put_frame hqn hput hq
  repeat' split at h
  all_goals cases h
  exact (Store.set_ne _ _ (by omega)).trans hsub

end Frame

/-! ## The pages below a page -/

/-- Page `p` is `q` or a page under it. -/
def Below (S : Store K V) : Nat → Nat → Prop := Relation.ReflTransGen fun q c => c ∈ S.refs q

section Below

variable {t t' : Tree K V} {es : List (K × V)} {k : K} {v : V} {q p : Nat}

theorem below_of_onPath {S : Store K V} {h j : Nat} (hp : OnPath S k h q j p) : Below S q p := by
  induction hp with
  | root => exact .refl
  | child _ hS ih =>
    refine ih.tail ?_
    rw [Store.refs, hS]
    exact route_mem k _ _

theorem Tree.Holds.lt_next (h : t.Holds L es) {x : Nat} (hx : t.store x ≠ none) : x < t.next := by
  by_contra hge
  exact hx (h.unused x (not_lt.mp hge))

/-- A page of the path that is not the root has its parent on the path. -/
theorem Tree.Holds.parent_onPath (h : t.Holds L es) {j y c : Nat}
    (hc : OnPath t.store k t.height t.root j c) (hy : c ∈ t.store.refs y) :
    OnPath t.store k t.height t.root (j + 1) y := by
  obtain ⟨ps, hrep, hn, hmem, -⟩ := h.pages
  have hyps : y ∈ ps := by
    refine hmem.mpr (h.lt_next fun hnone => ?_)
    rw [Store.refs, hnone] at hy
    cases hy
  cases hc with
  | root => exact absurd rfl (hrep.ref_mem hn hyps hy).2
  | child hp hS =>
    rename_i q l cs
    have hqps : q ∈ ps := hmem.mpr (h.lt_next (by simp [hS]))
    have href : route k l cs ∈ t.store.refs q := by
      rw [Store.refs, hS]
      exact route_mem k l cs
    exact hrep.parent_unique hn hyps hqps hy href ▸ hp

/-- **Below a page off the path nothing changes.** -/
theorem Tree.put_below (h : t.Holds L es) (hput : t.put L k v = some t') (hqn : q < t.next)
    (hq : ∀ j, ¬ OnPath t.store k t.height t.root j q) (hp : Below t'.store q p) :
    Below t.store q p ∧ t'.store p = t.store p := by
  have hall : Below t.store q p ∧ p < t.next ∧ ∀ j, ¬ OnPath t.store k t.height t.root j p := by
    induction hp with
    | refl => exact ⟨.refl, hqn, hq⟩
    | tail _ hc ih =>
      rename_i y c _
      obtain ⟨hbelow, hyn, hy⟩ := ih
      have hcy : c ∈ t.store.refs y := by
        rw [Store.refs, Tree.put_frame hput hyn hy] at hc
        exact hc
      refine ⟨hbelow.tail hcy, ?_, fun j hj => hy (j + 1) (h.parent_onPath hj hcy)⟩
      obtain ⟨ps, hrep, hn, hmem, -⟩ := h.pages
      exact hmem.mp (hrep.ref_mem hn (hmem.mpr hyn) hcy).1
  exact ⟨hall.1, Tree.put_frame hput hall.2.1 hall.2.2⟩

end Below

/-! ## Leaf pages -/

omit [LinearOrder K] in
/-- A leaf page of a tree is one of its leaves. -/
theorem IsTree.mem_leavesUnder {S : Store K V} : ∀ {h p x : Nat} {es : List (K × V)}, IsTree S h p →
    x ∈ pagesOf S h p → S x = some (.leaf es) → x ∈ leavesUnder S h p
  | 0, p, x, es, _, hx, _ => by simpa [pagesOf, leavesUnder] using hx
  | h + 1, p, x, es, ht, hx, hS => by
    rcases ht with ⟨es', hp⟩ | ⟨l, cs, hp, hcs⟩
    · rw [leavesUnder_leaf hp]
      simpa [pagesOf, Store.refs, hp, Page.refs] using hx
    rw [leavesUnder_inner hp]
    rw [pagesOf, Store.refs, hp] at hx
    rcases List.mem_cons.mp hx with rfl | hx
    · rw [hp] at hS
      cases hS
    · obtain ⟨c, hc, hx⟩ := List.mem_flatMap.mp hx
      exact List.mem_flatMap.mpr ⟨c, hc, (hcs c hc).mem_leavesUnder hx hS⟩

/-- The entries of a leaf page are bindings of the tree. -/
theorem Tree.Holds.leaf_bindings {t : Tree K V} {es mid : List (K × V)} (h : t.Holds L es) {x : Nat}
    (hx : t.store x = some (.leaf mid)) : ∀ e ∈ mid, e ∈ es := by
  intro e he
  obtain ⟨ps, hrep, -, hmem, -⟩ := h.pages
  have hleaf := hrep.isTree.1.mem_leavesUnder
    (hrep.pages_eq ▸ hmem.mpr (h.lt_next (by simp [hx]))) hx
  rw [hrep.isTree.2] at hleaf
  rw [hrep.bindings_eq]
  exact List.mem_flatMap.mpr ⟨x, hleaf, by rwa [Store.entries, hx]⟩

end SeerDb.Lib
