/-
# `SeerDb.Lib.LooseTree` — page trees of uneven height

A tree that was only checked, not built: its leaves may lie at different depths,
separators and keys may repeat, a page may be empty.  `IsTree S h p` says that the
pages under `p` form a tree at most `h` levels deep, `pagesOf` lists them, `leavesUnder`
lists the leaves in order, and `PathTo` says by which path a page is reached and which
leaves lie to the right of it.

`Bounded` adds what routing needs: every page keeps its keys inside the range its
parent's separators leave it, so only the leaf a key is routed to can hold it.
-/
import SeerDb.Lib.TreeScan

namespace SeerDb.Lib

open List

variable {K V : Type}

/-- The leaves under page `p`, at most `h` levels below it. -/
def leavesUnder (S : Store K V) : Nat → Nat → List Nat
  | 0, p => [p]
  | h + 1, p => match S p with
    | some (.inner l cs) => (l :: cs.map Prod.snd).flatMap (leavesUnder S h)
    | _ => [p]

/-- Page `p` is the root of a tree at most `h` levels deep. -/
def IsTree (S : Store K V) : Nat → Nat → Prop
  | 0, p => ∃ es, S p = some (.leaf es)
  | h + 1, p => (∃ es, S p = some (.leaf es)) ∨
      ∃ l cs, S p = some (.inner l cs) ∧ ∀ c ∈ l :: cs.map Prod.snd, IsTree S h c

/-- A page `j` levels above the deepest ones of the tree under `root`: `up` is the
path to it, lowest page first, with the child position taken at each page; `after`
are the leaves to the right of it. -/
inductive PathTo (S : Store K V) (height root : Nat) :
    Nat → Nat → List (Nat × Nat) → List Nat → Prop where
  | root : PathTo S height root height root [] []
  | child {j p l c : Nat} {cs : List (K × Nat)} {A B : List Nat} {up : List (Nat × Nat)}
      {after : List Nat} : PathTo S height root (j + 1) p up after → S p = some (.inner l cs) →
      l :: cs.map Prod.snd = A ++ c :: B →
      PathTo S height root j c ((p, A.length) :: up) (B.flatMap (leavesUnder S j) ++ after)

variable {S : Store K V} {height root : Nat} {p h l c : Nat}

variable {lo : WithBot K} {hi : WithTop K} {p h : Nat} {es : List (K × V)}
  {cs : List (K × Nat)} {ps : List Nat}

theorem leavesUnder_leaf (hp : S p = some (.leaf es)) :
    ∀ h, leavesUnder S h p = [p]
  | 0 => rfl
  | h + 1 => by rw [leavesUnder, hp]

theorem leavesUnder_inner (hp : S p = some (.inner l cs)) :
    leavesUnder S (h + 1) p = (l :: cs.map Prod.snd).flatMap (leavesUnder S h) := by
  rw [leavesUnder, hp]

theorem pagesOf_leaf (hp : S p = some (.leaf es)) : ∀ h, pagesOf S h p = [p]
  | 0 => rfl
  | h + 1 => by simp [pagesOf, Store.refs, hp, Page.refs]

theorem self_mem_pagesOf (S : Store K V) (h p : Nat) : p ∈ pagesOf S h p := by
  cases h <;> simp [pagesOf]

theorem leavesUnder_sublist_pagesOf : ∀ (h p : Nat), (leavesUnder S h p).Sublist (pagesOf S h p)
  | 0, p => List.Sublist.refl _
  | h + 1, p => by
    rw [leavesUnder, pagesOf]
    split
    · rename_i l cs hp
      refine List.Sublist.cons _ ?_
      rw [Store.refs, hp]
      exact flatMap_sublist fun c _ => leavesUnder_sublist_pagesOf h c
    · exact List.Sublist.cons_cons _ (nil_sublist _)

/-! ## Pages of a tree -/

/-- A page of a tree is a leaf, or an index page over smaller trees. -/
theorem IsTree.cases (hg : IsTree S h p) :
    (∃ es, S p = some (.leaf es)) ∨
      ∃ j l cs, h = j + 1 ∧ S p = some (.inner l cs) ∧ ∀ c ∈ l :: cs.map Prod.snd,
        IsTree S j c := by
  cases h with
  | zero => exact .inl hg
  | succ h =>
    rcases hg with hleaf | ⟨l, cs, hp, hcs⟩
    · exact .inl hleaf
    · exact .inr ⟨h, l, cs, rfl, hp, hcs⟩

theorem IsTree.page_ne_none : ∀ {h p : Nat}, IsTree S h p → ∀ q ∈ pagesOf S h p, S q ≠ none
  | 0, p, ⟨es, hp⟩, q, hq => by
    rw [mem_singleton.mp hq, hp]
    simp
  | h + 1, p, ht, q, hq => by
    rcases ht with ⟨es, hp⟩ | ⟨l, cs, hp, hcs⟩
    · rw [pagesOf_leaf hp, mem_singleton] at hq
      rw [hq, hp]
      simp
    rw [pagesOf, Store.refs, hp] at hq
    rcases mem_cons.mp hq with rfl | hq
    · rw [hp]
      simp
    · obtain ⟨c, hc, hq⟩ := mem_flatMap.mp hq
      exact (hcs c hc).page_ne_none q hq

theorem IsTree.child (hg : IsTree S (h + 1) p) (hp : S p = some (.inner l cs)) :
    ∀ c ∈ l :: cs.map Prod.snd, IsTree S h c := by
  rcases hg with ⟨es, hp'⟩ | ⟨l', cs', hp', hcs⟩
  · rw [hp] at hp'
    cases hp'
  · rw [hp] at hp'
    cases hp'
    exact hcs

/-- Levels that no path uses change nothing. -/
theorem IsTree.mono : ∀ {h k p : Nat}, IsTree S h p → h ≤ k →
    IsTree S k p ∧ pagesOf S k p = pagesOf S h p ∧ leavesUnder S k p = leavesUnder S h p
  | h, 0, p, ht, hk => by
    obtain rfl : h = 0 := by omega
    exact ⟨ht, rfl, rfl⟩
  | h, k + 1, p, ht, hk => by
    rcases ht.cases with ⟨es, hp⟩ | ⟨h, l, cs, rfl, hp, hcs⟩
    · exact ⟨.inl ⟨es, hp⟩, by simp only [pagesOf_leaf hp], by simp only [leavesUnder_leaf hp]⟩
    have ih := fun c (hc : c ∈ l :: cs.map Prod.snd) =>
      (hcs c hc).mono (Nat.le_of_succ_le_succ hk)
    have hrefs : S.refs p = l :: cs.map Prod.snd := by rw [Store.refs, hp]; rfl
    refine ⟨.inr ⟨l, cs, hp, fun c hc => (ih c hc).1⟩, ?_, ?_⟩
    · rw [pagesOf, pagesOf, hrefs, flatMap_congr fun c hc => (ih c hc).2.1]
    · rw [leavesUnder_inner hp, leavesUnder_inner hp, flatMap_congr fun c hc => (ih c hc).2.2]

/-- A tree has more pages than levels. -/
theorem IsTree.shallow : ∀ {h p : Nat}, IsTree S h p → IsTree S ((pagesOf S h p).length - 1) p
  | 0, p, ht => ht
  | h + 1, p, ht => by
    rcases ht with hleaf | ⟨l, cs, hp, hcs⟩
    · cases (pagesOf S (h + 1) p).length - 1 with
      | zero => exact hleaf
      | succ n => exact .inl hleaf
    have hrefs : S.refs p = l :: cs.map Prod.snd := by rw [Store.refs, hp]; rfl
    have hle : ∀ c ∈ l :: cs.map Prod.snd, (pagesOf S h c).length
        ≤ ((l :: cs.map Prod.snd).flatMap (pagesOf S h)).length := fun c hc =>
      (flatMap_def ▸ sublist_flatten_of_mem (mem_map_of_mem hc)).length_le
    have hpos : ∀ c, 0 < (pagesOf S h c).length := fun c =>
      length_pos_of_mem (self_mem_pagesOf S h c)
    obtain ⟨n, hn⟩ : ∃ n, ((l :: cs.map Prod.snd).flatMap (pagesOf S h)).length = n + 1 :=
      Nat.exists_eq_add_one.mpr ((hpos l).trans_le (hle l (.head _)))
    rw [pagesOf, hrefs, length_cons, Nat.add_sub_cancel, hn]
    refine .inr ⟨l, cs, hp, fun c hc => ((hcs c hc).shallow.mono ?_).1⟩
    have := hle c hc
    omega

/-- The pages under a child do not meet its parent and do not repeat. -/
theorem nodup_child (hp : S p = some (.inner l cs))
    (hn : (pagesOf S (h + 1) p).Nodup) (hc : c ∈ l :: cs.map Prod.snd) :
    p ∉ pagesOf S h c ∧ (pagesOf S h c).Nodup := by
  have hrefs : S.refs p = l :: cs.map Prod.snd := by rw [Store.refs, hp]; rfl
  rw [pagesOf, hrefs, nodup_cons, nodup_flatMap] at hn
  obtain ⟨hpq, hnd, -⟩ := hn
  exact ⟨fun hm => hpq (mem_flatMap.mpr ⟨c, hc, hm⟩), hnd c hc⟩

/-- Every page of a tree but its root is referenced exactly once from inside it. -/
theorem IsTree.refs_perm : ∀ {h p : Nat}, IsTree S h p →
    ∃ q, pagesOf S h p = p :: q ∧ ((pagesOf S h p).flatMap S.refs).Perm q
  | 0, p, ⟨es, hp⟩ => ⟨[], rfl, by simp [pagesOf, Store.refs, hp, Page.refs]⟩
  | h + 1, p, hg => by
    rcases hg with ⟨es, hp⟩ | ⟨l, cs, hp, hcs⟩
    · exact ⟨[], by simp [pagesOf, Store.refs, hp, Page.refs]⟩
    have hrefs : S.refs p = l :: cs.map Prod.snd := by rw [Store.refs, hp]; rfl
    refine ⟨_, rfl, ?_⟩
    have hf : List.Forall₂ (fun c q => ∃ r, q = c :: r ∧ (q.flatMap S.refs).Perm r)
        (S.refs p) ((S.refs p).map (pagesOf S h)) := by
      rw [forall₂_map_right_iff, forall₂_same]
      intro c hc
      exact (hcs c (hrefs ▸ hc)).refs_perm
    have := forall₂_refs_perm hf
    rwa [← flatMap_def] at this

/-- No two pages of a tree reference the same page. -/
theorem IsTree.parent_unique (hg : IsTree S height root) (hn : (pagesOf S height root).Nodup)
    {x y : Nat} (hx : x ∈ pagesOf S height root) (hy : y ∈ pagesOf S height root)
    (hcx : c ∈ S.refs x) (hcy : c ∈ S.refs y) : x = y := by
  obtain ⟨q, hq, hperm⟩ := hg.refs_perm
  exact refs_parent_unique hq hperm hn hx hy hcx hcy

theorem IsTree.refs_nodup (hg : IsTree S height root) (hn : (pagesOf S height root).Nodup)
    {x : Nat} (hx : x ∈ pagesOf S height root) : (S.refs x).Nodup := by
  obtain ⟨q, hq, hperm⟩ := hg.refs_perm
  exact refs_nodup_of_perm hq hperm hn hx

/-- The root of a tree is referenced by no page of it. -/
theorem IsTree.ref_ne_root (hg : IsTree S height root) (hn : (pagesOf S height root).Nodup)
    {x : Nat} (hx : x ∈ pagesOf S height root) (hcx : c ∈ S.refs x) : c ≠ root := by
  obtain ⟨q, hq, hperm⟩ := hg.refs_perm
  exact (refs_mem_of_perm hq hperm hn hx hcx).2

/-! ## Places in a tree -/

section PathTo

variable {j x : Nat} {up : List (Nat × Nat)} {after : List Nat}

theorem PathTo.leaves (h : PathTo S height root j x up after) :
    ∃ before, leavesUnder S height root = before ++ leavesUnder S j x ++ after := by
  induction h with
  | root => exact ⟨[], by simp⟩
  | child _ hp hcut ih =>
    obtain ⟨before, hb⟩ := ih
    rename_i j p l c cs A B up after _
    refine ⟨before ++ A.flatMap (leavesUnder S j), ?_⟩
    rw [hb, leavesUnder_inner hp, hcut]
    simp

theorem PathTo.le (h : PathTo S height root j x up after) : j ≤ height := by
  induction h with
  | root => exact le_rfl
  | child _ _ _ ih => exact (Nat.le_succ _).trans ih

/-- The subtree at a page of a tree. -/
theorem PathTo.isTree (hg : IsTree S height root) (h : PathTo S height root j x up after) :
    IsTree S j x ∧ (pagesOf S j x).Sublist (pagesOf S height root) := by
  induction h with
  | root => exact ⟨hg, List.Sublist.refl _⟩
  | child _ hp hcut ih =>
    obtain ⟨hg', hsub⟩ := ih
    rename_i j p l c cs A B up after _
    refine ⟨hg'.child hp c (by simp [hcut]), ?_⟩
    have hrefs : S.refs p = A ++ c :: B := by rw [Store.refs, hp, ← hcut]; rfl
    rw [pagesOf, hrefs] at hsub
    have hmem : pagesOf S j c ∈ (A ++ c :: B).map (pagesOf S j) := mem_map_of_mem (by simp)
    have hflat : (pagesOf S j c).Sublist ((A ++ c :: B).flatMap (pagesOf S j)) :=
      flatMap_def ▸ sublist_flatten_of_mem hmem
    exact (hflat.trans (sublist_cons_self _ _)).trans hsub

/-- Every leaf is somewhere in the tree. -/
theorem PathTo.of_leaf {leaf : Nat} (hg : IsTree S j x) (h : PathTo S height root j x up after)
    (hl : leaf ∈ leavesUnder S j x) :
    ∃ j' up' after' es, PathTo S height root j' leaf up' after' ∧ S leaf = some (.leaf es) := by
  induction j generalizing x up after with
  | zero =>
    obtain ⟨es, hp⟩ := hg
    rw [mem_singleton.mp hl]
    exact ⟨0, up, after, es, h, hp⟩
  | succ j ih =>
    rcases hg with ⟨es, hp⟩ | ⟨l, cs, hp, hcs⟩
    · rw [leavesUnder_leaf hp, mem_singleton] at hl
      subst hl
      exact ⟨j + 1, up, after, es, h, hp⟩
    · rw [leavesUnder_inner hp] at hl
      obtain ⟨c, hc, hl⟩ := mem_flatMap.mp hl
      obtain ⟨A, B, hcut⟩ := append_of_mem hc
      exact ih (hcs c hc) (h.child hp hcut) hl

/-- A list is cut in one way only where it holds its element once. -/
theorem after_unique {x : Nat} {before before' after after' : List Nat}
    (hn : (before ++ x :: after).Nodup) (h : before ++ x :: after = before' ++ x :: after') :
    after = after' := by
  obtain ⟨-, htail, hapart⟩ := nodup_append.mp hn
  have hbefore : x ∉ before := fun hm => hapart x hm x (.head _) rfl
  exact ((append_cons_inj_of_notMem hbefore (nodup_cons.mp htail).1).mp h).2.2

/-- The next leaf of a leaf, as a place in the tree. -/
theorem PathTo.next (hg : IsTree S height root) (hn : (pagesOf S height root).Nodup) {leaf : Nat}
    (hx : S x = some (.leaf es))
    (h : PathTo S height root j x up (leaf :: after)) :
    ∃ j' up' es', PathTo S height root j' leaf up' after ∧ S leaf = some (.leaf es') := by
  obtain ⟨before, hb⟩ := h.leaves
  have hmem : leaf ∈ leavesUnder S height root := by simp [hb]
  obtain ⟨j', up', after', es', hl, hleaf⟩ := PathTo.root.of_leaf hg hmem
  obtain ⟨before', hb'⟩ := hl.leaves
  have hnd : (leavesUnder S height root).Nodup := hn.sublist (leavesUnder_sublist_pagesOf _ _)
  rw [leavesUnder_leaf hx] at hb
  rw [leavesUnder_leaf hleaf] at hb'
  have heq : (before ++ [x]) ++ leaf :: after = before' ++ leaf :: after' := by
    rw [hb] at hb'
    simpa using hb'
  rw [hb] at hnd
  obtain rfl : after = after' := after_unique (by simpa using hnd) heq
  exact ⟨j', up', es', hl, hleaf⟩

end PathTo

/-! ## Trees of even height -/

section Even

variable [LinearOrder K] {L : Layout K V}

theorem Rep.isTree : ∀ {h lo hi p es ps}, Rep L S h lo hi p es ps → IsTree S h p ∧
    leavesUnder S h p = leavesOf S h p
  | 0, _, _, _, es, _, hr => ⟨⟨es, hr.1⟩, rfl⟩
  | h + 1, _, _, p, _, _, hr => by
    obtain ⟨l, cs, q, hp, -, hchain, -⟩ := hr
    obtain ⟨qs, -, hf⟩ := hchain.forall₂
    have hcs : ∀ c ∈ l :: cs.map Prod.snd, IsTree S h c ∧ leavesUnder S h c = leavesOf S h c := by
      intro c hc
      obtain ⟨r, -, a, b, e, hrep⟩ := forall₂_mem hf hc
      exact hrep.isTree
    refine ⟨.inr ⟨l, cs, hp, fun c hc => (hcs c hc).1⟩, ?_⟩
    rw [leavesUnder_inner hp, leavesOf, Store.refs, hp]
    exact flatMap_congr fun c hc => (hcs c hc).2

theorem RightOf.pathTo (hr : Rep L S height lo hi root es ps) {j x : Nat} {up : List (Nat × Nat)}
    {after : List Nat} (h : RightOf S height root j x up after) :
    PathTo S height root j x up after := by
  induction h with
  | root => exact .root
  | child h hp hcut ih =>
    rename_i j p l c cs A B up after
    have hB : B.flatMap (leavesUnder S j) = B.flatMap (leavesOf S j) := by
      refine flatMap_congr fun b hb => ?_
      obtain ⟨A', B', hb'⟩ := append_of_mem hb
      have hcut' : l :: cs.map Prod.snd = (A ++ c :: A') ++ b :: B' := by simp [hcut, hb']
      obtain ⟨lo', hi', es', hrep, -⟩ := (h.child hp hcut').rep hr
      exact hrep.isTree.2
    exact hB ▸ ih.child hp hcut

end Even

/-! ## Routing -/

/-- The entries of the leaves under a page, in order. -/
def entriesUnder (S : Store K V) (h p : Nat) : List (K × V) := (leavesUnder S h p).flatMap S.entries

theorem entriesUnder_leaf (hp : S p = some (.leaf es)) (h : Nat) :
    entriesUnder S h p = es := by
  simp [entriesUnder, leavesUnder_leaf hp, Store.entries, hp]

theorem entriesUnder_inner (hp : S p = some (.inner l cs)) :
    entriesUnder S (h + 1) p = (l :: cs.map Prod.snd).flatMap (entriesUnder S h) := by
  rw [entriesUnder, leavesUnder_inner hp, flatMap_assoc]
  rfl

section Bounded

variable [LinearOrder K]

/-- Page `p` is the root of a tree at most `h` levels deep over the range `[lo, hi)`. -/
def Bounded (S : Store K V) : Nat → WithBot K → WithTop K → Nat → Prop
  | 0, lo, hi, p => ∃ es, S p = some (.leaf es) ∧ es.Pairwise (fun a b => a.1 ≤ b.1) ∧
      ∀ x ∈ es, InRange lo hi x.1
  | h + 1, lo, hi, p =>
    (∃ es, S p = some (.leaf es) ∧ es.Pairwise (fun a b => a.1 ≤ b.1) ∧
      ∀ x ∈ es, InRange lo hi x.1) ∨
    ∃ l cs, S p = some (.inner l cs) ∧ Spread (Bounded S h) lo hi l cs

/-- The leaf that `k` is routed to. -/
def routeLeaf (S : Store K V) (k : K) : Nat → Nat → Nat
  | 0, p => p
  | h + 1, p => match S p with
    | some (.inner l cs) => routeLeaf S k h (route k l cs)
    | _ => p

theorem Bounded.cases (hb : Bounded S h lo hi p) :
    (∃ es, S p = some (.leaf es) ∧ es.Pairwise (fun a b => a.1 ≤ b.1) ∧
        ∀ x ∈ es, InRange lo hi x.1) ∨
      ∃ j l cs, h = j + 1 ∧ S p = some (.inner l cs) ∧ Spread (Bounded S j) lo hi l cs := by
  cases h with
  | zero => exact .inl hb
  | succ h =>
    rcases hb with hleaf | ⟨l, cs, hp, hcs⟩
    · exact .inl hleaf
    · exact .inr ⟨h, l, cs, rfl, hp, hcs⟩

theorem Bounded.isTree : ∀ {h p lo hi}, Bounded S h lo hi p → IsTree S h p
  | 0, _, _, _, ⟨es, hp, _⟩ => ⟨es, hp⟩
  | h + 1, _, _, _, hb => by
    rcases hb with ⟨es, hp, -⟩ | ⟨l, cs, hp, hcs⟩
    · exact .inl ⟨es, hp⟩
    · refine .inr ⟨l, cs, hp, fun c hc => ?_⟩
      obtain ⟨a, b, hc⟩ := hcs.child c hc
      exact hc.isTree

theorem Bounded.entries : ∀ {h p lo hi}, Bounded S h lo hi p →
    (entriesUnder S h p).Pairwise (fun a b => a.1 ≤ b.1) ∧
      ∀ x ∈ entriesUnder S h p, InRange lo hi x.1
  | 0, _, _, _, ⟨es, hp, hes⟩ => by rwa [entriesUnder_leaf hp]
  | h + 1, _, _, _, hb => by
    rcases hb with ⟨es, hp, hes⟩ | ⟨l, cs, hp, hcs⟩
    · rwa [entriesUnder_leaf hp]
    · rw [entriesUnder_inner hp]
      exact hcs.entries fun a b c hc => hc.entries

/-- The leaf `k` is routed to, with the entries of the leaves around it. -/
theorem Bounded.routed (k : K) : ∀ {j p lo hi up before after}, Bounded S j lo hi p →
    PathTo S height root j p up after →
    leavesUnder S height root = before ++ leavesUnder S j p ++ after →
    (∀ x ∈ before.flatMap S.entries, x.1 < k) → (∀ x ∈ after.flatMap S.entries, k < x.1) →
    ∃ i up' before' after' es, PathTo S height root i (routeLeaf S k j p) up' after' ∧
      S (routeLeaf S k j p) = some (.leaf es) ∧ es.Pairwise (fun a b => a.1 ≤ b.1) ∧
      leavesUnder S height root = before' ++ routeLeaf S k j p :: after' ∧
      (∀ x ∈ before'.flatMap S.entries, x.1 < k) ∧ ∀ x ∈ after'.flatMap S.entries, k < x.1
  | 0, p, _, _, up, before, after, ⟨es, hp, hes, _⟩, hpath, hleaves, hb, ha =>
    ⟨0, up, before, after, es, hpath, hp,
      hes, by simpa [leavesUnder, routeLeaf] using hleaves, hb, ha⟩
  | j + 1, p, lo, hi, up, before, after, hbd, hpath, hleaves, hb, ha => by
    rcases hbd with ⟨es, hp, hes, -⟩ | ⟨l, cs, hp, hcs⟩
    · have hr : routeLeaf S k (j + 1) p = p := by rw [routeLeaf, hp]
      rw [hr]
      rw [leavesUnder_leaf hp] at hleaves
      exact ⟨j + 1, up, before, after, es, hpath, hp, hes, by simpa using hleaves, hb, ha⟩
    have hr : routeLeaf S k (j + 1) p = routeLeaf S k j (route k l cs) := by
      rw [routeLeaf, hp]
    rw [hr]
    obtain ⟨A, B, hcut, hA, hB⟩ := hcs.route_cut (f := entriesUnder S j) (k := k)
      fun a b c hc => hc.entries
    obtain ⟨a, b, hc⟩ := hcs.child (route k l cs) (by rw [hcut]; simp)
    have hleaves' : leavesUnder S height root = (before ++ A.flatMap (leavesUnder S j)) ++
        leavesUnder S j (route k l cs) ++ (B.flatMap (leavesUnder S j) ++ after) := by
      rw [hleaves, leavesUnder_inner hp, hcut]
      simp
    refine Bounded.routed k hc (hpath.child hp hcut) hleaves' ?_ ?_
    · intro x hx
      rw [flatMap_append, mem_append, flatMap_assoc] at hx
      exact hx.elim (hb x) (hA x)
    · intro x hx
      rw [flatMap_append, mem_append, flatMap_assoc] at hx
      exact hx.elim (hB x) (ha x)

/-! ## Trees of even height are bounded -/

variable {L : Layout K V}

theorem Rep.bounded : ∀ {h lo hi p es ps}, Rep L S h lo hi p es ps → Bounded S h lo hi p
  | 0, _, _, _, es, _, hr => ⟨es, hr.1, hr.2.1.imp le_of_lt, hr.2.2.1⟩
  | h + 1, _, _, _, _, _, hr => by
    obtain ⟨l, cs, q, hp, -, hchain, -⟩ := hr
    exact .inr ⟨l, cs, hp, hchain.spread fun _ _ _ _ _ hc => hc.bounded⟩

/-- Every key is routed to a leaf. -/
theorem Rep.exists_leaf (k : K) : ∀ {h lo hi p es ps}, Rep L S h lo hi p es ps →
    ∃ leaf, OnPath S k h p 0 leaf
  | 0, _, _, p, _, _, _ => ⟨p, .root⟩
  | h + 1, _, _, p, _, _, hr => by
    obtain ⟨l, cs, q, hp, -, hchain, -⟩ := hr
    obtain ⟨qs, -, hf⟩ := hchain.forall₂
    obtain ⟨r, -, a, b, e, hrep⟩ := forall₂_mem hf (route_mem k l cs)
    obtain ⟨leaf, hleaf⟩ := hrep.exists_leaf k
    exact ⟨leaf, (OnPath.child .root hp).trans hleaf⟩

end Bounded

end SeerDb.Lib
