/-
# `SeerDb.Lib.TreeScan` — the leaves of a page tree, left to right

`leavesOf` lists the leaf pages under a page in key order, and the bindings of a
tree are the entries of its leaves in that order.  `RightOf` says, for a page
somewhere in the tree, by which path it is reached and which leaves lie to the
right of it.
-/
import SeerDb.Lib.TreePath

namespace SeerDb.Lib

open List

variable {K V : Type} {f : Nat → List (K × V)}

/-- The leaf pages under page `p` of height `h`. -/
def leavesOf (S : Store K V) : Nat → Nat → List Nat
  | 0, p => [p]
  | h + 1, p => (S.refs p).flatMap (leavesOf S h)

/-- The entries of a leaf page. -/
def Store.entries (S : Store K V) (p : Nat) : List (K × V) := match S p with
  | some (.leaf es) => es
  | _ => []

/-- A page at height `j` of the tree under `root`: `up` is the path to it, lowest
page first, with the child position taken at each page; `after` are the leaves to
the right of it. -/
inductive RightOf (S : Store K V) (height root : Nat) :
    Nat → Nat → List (Nat × Nat) → List Nat → Prop where
  | root : RightOf S height root height root [] []
  | child {j p l c : Nat} {cs : List (K × Nat)} {A B : List Nat} {up : List (Nat × Nat)}
      {after : List Nat} : RightOf S height root (j + 1) p up after → S p = some (.inner l cs) →
      l :: cs.map Prod.snd = A ++ c :: B →
      RightOf S height root j c ((p, A.length) :: up) (B.flatMap (leavesOf S j) ++ after)

variable {S : Store K V} {height root : Nat} {j x : Nat} {up : List (Nat × Nat)} {after : List Nat}

theorem RightOf.leaves (h : RightOf S height root j x up after) :
    ∃ before, leavesOf S height root = before ++ leavesOf S j x ++ after := by
  induction h with
  | root => exact ⟨[], by simp⟩
  | child _ hp hcut ih =>
    obtain ⟨before, hb⟩ := ih
    rename_i j p l c cs A B up after _
    refine ⟨before ++ A.flatMap (leavesOf S j), ?_⟩
    rw [hb, leavesOf, Store.refs, hp]
    simp [Page.refs, hcut]

/-- Every leaf is somewhere in the tree. -/
theorem RightOf.of_leaf {leaf : Nat}
    (h : RightOf S height root j x up after) (hl : leaf ∈ leavesOf S j x) :
    ∃ up' after', RightOf S height root 0 leaf up' after' := by
  induction j generalizing x up after with
  | zero =>
    rw [mem_singleton.mp hl]
    exact ⟨up, after, h⟩
  | succ j ih =>
    obtain ⟨c, hc, hl⟩ := mem_flatMap.mp hl
    rw [Store.refs] at hc
    cases hS : S x with
    | none => rw [hS] at hc; cases hc
    | some b =>
      rw [hS] at hc
      cases b with
      | leaf es => cases hc
      | inner l cs =>
        obtain ⟨A, B, hcut⟩ := append_of_mem hc
        exact ih (h.child hS hcut) hl

theorem flatMap_sublist {α β : Type} {f g : α → List β} {cs : List α}
    (h : ∀ c ∈ cs, (f c).Sublist (g c)) : (cs.flatMap f).Sublist (cs.flatMap g) := by
  induction cs with
  | nil => exact List.Sublist.refl _
  | cons c cs ih =>
    rw [flatMap_cons, flatMap_cons]
    exact (h c (.head _)).append (ih fun x hx => h x (.tail _ hx))

theorem leavesOf_sublist_pagesOf : ∀ (h p : Nat), (leavesOf S h p).Sublist (pagesOf S h p)
  | 0, p => List.Sublist.refl _
  | h + 1, p => by
    rw [leavesOf, pagesOf]
    exact List.Sublist.cons _ (flatMap_sublist fun c _ => leavesOf_sublist_pagesOf h c)

variable [LinearOrder K] {L : Layout K V}

theorem Chain.flatMap_bindings {P : PagePred K V Nat}
    (hP : ∀ a b c e q, P a b c e q → e = f c) : ∀ {cs lo hi l es ps}, Chain P lo hi l cs es ps →
    es = (l :: cs.map Prod.snd).flatMap f
  | [], _, _, _, _, _, h => by simpa using hP _ _ _ _ _ h
  | (s, c) :: cs, lo, hi, l, es, ps, h => by
    obtain ⟨-, -, e₁, e₂, p₁, p₂, h3, h4, rfl, -⟩ := h
    rw [hP _ _ _ _ _ h3, Chain.flatMap_bindings hP h4]
    simp

/-- The bindings of a subtree are the entries of its leaves. -/
theorem Rep.bindings_eq : ∀ {h lo hi p es ps}, Rep L S h lo hi p es ps →
    es = (leavesOf S h p).flatMap S.entries
  | 0, _, _, _, _, _, hr => by simp [leavesOf, Store.entries, hr.1]
  | h + 1, _, _, _, _, _, hr => by
    obtain ⟨l, cs, q, h1, -, h3, -⟩ := hr
    rw [Chain.flatMap_bindings (f := fun c => (leavesOf S h c).flatMap S.entries)
      (fun _ _ _ _ _ hp => hp.bindings_eq) h3, leavesOf, flatMap_assoc, Store.refs, h1]
    rfl

/-- The subtree at a page somewhere in the tree. -/
theorem RightOf.rep {lo : WithBot K} {hi : WithTop K} {es : List (K × V)} {ps : List Nat}
    (hr : Rep L S height lo hi root es ps) (h : RightOf S height root j x up after) :
    ∃ lo' hi' es', Rep L S j lo' hi' x es' (pagesOf S j x) ∧ (pagesOf S j x).Sublist ps := by
  induction h with
  | root =>
    have := hr.pages_eq
    subst this
    exact ⟨lo, hi, es, hr, List.Sublist.refl _⟩
  | child _ hp hcut ih =>
    obtain ⟨lo', hi', es', hr', hsub⟩ := ih
    obtain ⟨l', cs', q, h1, -, h3, hq⟩ := hr'
    rw [hp] at h1
    cases h1
    obtain ⟨qs, rfl, hf⟩ := h3.forall₂
    rename_i l c cs A B up after _
    have hc : c ∈ l :: cs.map Prod.snd := by simp [hcut]
    obtain ⟨r, hmem, a, b, e, hrep⟩ := forall₂_mem hf hc
    have := hrep.pages_eq
    subst this
    refine ⟨a, b, e, hrep, ?_⟩
    rw [hq] at hsub
    exact ((sublist_flatten_of_mem hmem).trans (sublist_cons_self _ _)).trans hsub

/-! ## Children over a range -/

/-- The children of an index page over `[lo, hi)`: separators that do not decrease,
and `P` for every child over the part of the range its separators leave it. -/
def Spread (P : WithBot K → WithTop K → Nat → Prop) :
    WithBot K → WithTop K → Nat → List (K × Nat) → Prop
  | lo, hi, l, [] => P lo hi l
  | lo, hi, l, (s, c) :: cs =>
    lo ≤ (s : WithBot K) ∧ (s : WithTop K) ≤ hi ∧ P lo s l ∧ Spread P s hi c cs

section Spread

variable {P : WithBot K → WithTop K → Nat → Prop}

theorem Spread.child : ∀ {cs lo hi l},
    Spread P lo hi l cs → ∀ c ∈ l :: cs.map Prod.snd, ∃ a b, P a b c
  | [], lo, hi, l, h, c, hc => ⟨lo, hi, mem_singleton.mp hc ▸ h⟩
  | (s, d) :: cs, lo, hi, l, ⟨_, _, hl, hcs⟩, c, hc => by
    rcases mem_cons.mp hc with rfl | hc
    · exact ⟨lo, s, hl⟩
    · exact hcs.child c hc

/-- The separators lie inside the range and do not decrease. -/
theorem Spread.separators : ∀ {cs lo hi l},
    Spread P lo hi l cs → cs.Pairwise (fun a b => a.1 ≤ b.1) ∧ ∀ x ∈ cs, lo ≤ (x.1 : WithBot K)
  | [], _, _, _, _ => by simp
  | (s, d) :: cs, lo, hi, l, ⟨hlo, _, _, hcs⟩ => by
    obtain ⟨hpw, hge⟩ := hcs.separators
    refine ⟨pairwise_cons.mpr ⟨fun x hx => WithBot.coe_le_coe.mp (hge x hx), hpw⟩, ?_⟩
    intro x hx
    rcases mem_cons.mp hx with rfl | hx
    · exact hlo
    · exact hlo.trans (hge x hx)

/-- What holds of the entries of every child, for its own range, holds of all of them. -/
theorem Spread.entries (hP : ∀ a b c, P a b c →
      (f c).Pairwise (fun x y => x.1 ≤ y.1) ∧ ∀ x ∈ f c, InRange a b x.1) :
    ∀ {cs lo hi l}, Spread P lo hi l cs →
      ((l :: cs.map Prod.snd).flatMap f).Pairwise (fun x y => x.1 ≤ y.1) ∧
      ∀ x ∈ (l :: cs.map Prod.snd).flatMap f, InRange lo hi x.1
  | [], lo, hi, l, h => by simpa using hP lo hi l h
  | (s, d) :: cs, lo, hi, l, ⟨hlo, hhi, hl, hcs⟩ => by
    obtain ⟨h1, h2⟩ := hP lo s l hl
    obtain ⟨h3, h4⟩ := hcs.entries hP
    rw [map_cons, flatMap_cons]
    constructor
    · refine pairwise_append.mpr ⟨h1, h3, fun x hx y hy => ?_⟩
      have hlt : x.1 < s := WithTop.coe_lt_coe.mp (h2 x hx).2
      exact hlt.le.trans (WithBot.coe_le_coe.mp (h4 y hy).1)
    · intro x hx
      rcases mem_append.mp hx with hx | hx
      · exact ⟨(h2 x hx).1, (h2 x hx).2.trans_le hhi⟩
      · exact ⟨hlo.trans (h4 x hx).1, (h4 x hx).2⟩

/-- Around the child a key is routed to: smaller keys to the left, larger ones to the right. -/
theorem Spread.route_cut {k : K} (hP : ∀ a b c, P a b c →
      (f c).Pairwise (fun x y => x.1 ≤ y.1) ∧ ∀ x ∈ f c, InRange a b x.1) :
    ∀ {cs lo hi l}, Spread P lo hi l cs →
      ∃ A B, l :: cs.map Prod.snd = A ++ route k l cs :: B ∧ (∀ x ∈ A.flatMap f, x.1 < k) ∧
        ∀ x ∈ B.flatMap f, k < x.1
  | [], _, _, l, _ => ⟨[], [], by simp [route], by simp, by simp⟩
  | (s, d) :: cs, lo, hi, l, ⟨_, _, hl, hcs⟩ => by
    by_cases hs : s ≤ k
    · obtain ⟨A, B, hcut, hA, hB⟩ := hcs.route_cut (k := k) hP
      refine ⟨l :: A, B, by simp [route, hs, ← hcut], ?_, hB⟩
      intro x hx
      rcases mem_append.mp (flatMap_cons ▸ hx) with hx | hx
      · exact (WithTop.coe_lt_coe.mp ((hP lo s l hl).2 x hx).2).trans_le hs
      · exact hA x hx
    · refine ⟨[], d :: cs.map Prod.snd, by simp [route, hs], by simp, ?_⟩
      intro x hx
      exact (not_le.mp hs).trans_le (WithBot.coe_le_coe.mp ((hcs.entries hP).2 x hx).1)

theorem Chain.spread {Q : PagePred K V Nat} (hP : ∀ a b c e q, Q a b c e q → P a b c) :
    ∀ {cs lo hi l es ps}, Chain Q lo hi l cs es ps → Spread P lo hi l cs
  | [], _, _, _, _, _, h => hP _ _ _ _ _ h
  | (s, c) :: cs, _, _, _, _, _, h => by
    obtain ⟨h1, h2, e₁, e₂, p₁, p₂, h3, h4, -, -⟩ := h
    exact ⟨h1.le, h2.le, hP _ _ _ _ _ h3, h4.spread hP⟩

end Spread

theorem Chain.route_cut {P : PagePred K V Nat} {k : K}
    (hP : ∀ a b c e q, P a b c e q → Sorted e ∧ ∀ x ∈ e, InRange a b x.1)
    (hf : ∀ a b c e q, P a b c e q → e = f c) {cs lo hi l es ps} (h : Chain P lo hi l cs es ps) :
    ∃ A B, l :: cs.map Prod.snd = A ++ route k l cs :: B ∧ (∀ x ∈ A.flatMap f, x.1 < k) ∧
      ∀ x ∈ B.flatMap f, k < x.1 := by
  refine (h.spread fun a b c e q hp => (⟨e, q, hp⟩ : ∃ e q, P a b c e q)).route_cut
    fun a b c ⟨e, q, hp⟩ => ?_
  rw [← hf a b c e q hp]
  exact ⟨(hP a b c e q hp).1.imp le_of_lt, (hP a b c e q hp).2⟩

/-- The leaf a key is routed to, and the keys in the leaves around it. -/
theorem OnPath.rightOf {k : K} {lo : WithBot K} {hi : WithTop K} {es : List (K × V)}
    {ps : List Nat} (hr : Rep L S height lo hi root es ps) {q : Nat}
    (hp : OnPath S k height root j q) :
    ∃ up before after, RightOf S height root j q up after ∧
      leavesOf S height root = before ++ leavesOf S j q ++ after ∧
      (∀ x ∈ before.flatMap S.entries, x.1 < k) ∧ ∀ x ∈ after.flatMap S.entries, k < x.1 := by
  induction hp with
  | root => exact ⟨[], [], [], .root, by simp, by simp, by simp⟩
  | child hp hq ih =>
    obtain ⟨up, before, after, hR, hleaves, hb, ha⟩ := ih
    obtain ⟨lo', hi', es', hr', -⟩ := hR.rep hr
    obtain ⟨l', cs', q', h1, -, h3, -⟩ := hr'
    rw [hq] at h1
    cases h1
    rename_i j p l cs
    obtain ⟨A, B, hcut, hA, hB⟩ := Chain.route_cut (k := k)
      (f := fun c => (leavesOf S j c).flatMap S.entries) (fun _ _ _ _ _ hp => hp.bindings)
      (fun _ _ _ _ _ hp => hp.bindings_eq) h3
    refine ⟨_, before ++ A.flatMap (leavesOf S j), _, hR.child hq hcut, ?_, ?_, ?_⟩
    · rw [hleaves, leavesOf, Store.refs, hq]
      simp [Page.refs, hcut]
    · intro x hx
      rw [flatMap_append, mem_append, flatMap_assoc] at hx
      exact hx.elim (hb x) (hA x)
    · intro x hx
      rw [flatMap_append, mem_append, flatMap_assoc] at hx
      exact hx.elim (hB x) (ha x)

end SeerDb.Lib
