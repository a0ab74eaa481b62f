/-
# `SeerDb.Lib.TreePath` — whole trees, search paths, and who references whom

`Tree` is a rooted page store with its next free id; `Tree.put` writes one
binding and grows a new root when the old one splits.  `Tree.put_holds` is
`put_spec` at the root.

`OnPath` names
the pages a search passes, `put_done_up` and `put_split_up` say how the result at one
page of the path determines the result at the root, and `Rep.parent_unique` says that
no two pages reference the same child.
-/
import SeerDb.Lib.BPlusTree
import Mathlib.Data.List.Nodup
import Mathlib.Data.List.Pairwise
import Mathlib.Data.List.Lattice

namespace SeerDb.Lib

open List

variable {K V : Type} [LinearOrder K] {c x : Nat}

/-! ## Whole trees -/

structure Tree (K V : Type) where
  store : Store K V
  root : Nat
  height : Nat
  next : Nat

/-- Write one binding; a split root gets a new root above it. -/
def Tree.put (L : Layout K V) (t : Tree K V) (k : K) (v : V) : Option (Tree K V) :=
  match Lib.put L t.store t.next k v t.height t.root with
  | none => none
  | some (.done S n) => some { t with store := S, next := n }
  | some (.split S n sep r) =>
    if L.innerFits [(sep, r)] then
      if L.idLimit < n then none
      else some ⟨S.set n (.inner t.root [(sep, r)]), n, t.height + 1, n + 1⟩
    else none

/-- The tree holds the bindings `es`; its pages are exactly the ids below `next`. -/
structure Tree.Holds (L : Layout K V) (t : Tree K V) (es : List (K × V)) : Prop where
  rep : ∃ ps, Rep L t.store t.height ⊥ ⊤ t.root es ps ∧ ps.Perm (List.range t.next)
  unused : ∀ q, t.next ≤ q → t.store q = none

variable {L : Layout K V} {S S' : Store K V} {t : Tree K V} {es es' : List (K × V)} {k : K} {v : V}
  {lo : WithBot K} {hi : WithTop K} {h p j q l n : Nat} {ps : List Nat} {cs : List (K × Nat)}

theorem Tree.Holds.sorted (h : t.Holds L es) :
    Sorted es := by
  obtain ⟨ps, hr, -⟩ := h.rep
  exact hr.bindings.1

/-- Its pages are the ids in use, each once. -/
theorem Tree.Holds.pages (h : t.Holds L es) :
    ∃ ps, Rep L t.store t.height ⊥ ⊤ t.root es ps ∧ ps.Nodup ∧ (∀ {x}, x ∈ ps ↔ x < t.next) ∧
      ps.length = t.next := by
  obtain ⟨ps, hr, hperm⟩ := h.rep
  exact ⟨ps, hr, hperm.nodup_iff.mpr nodup_range, hperm.mem_iff.trans mem_range,
    hperm.length_eq.trans length_range⟩

theorem range_append_range' {n' : Nat} (h : n ≤ n') :
    List.range n ++ List.range' n (n' - n) = List.range n' := by
  obtain ⟨d, rfl⟩ := Nat.exists_eq_add_of_le h
  rw [Nat.add_sub_cancel_left, range_eq_range', range_eq_range']
  simpa using List.range'_append_1 (s := 0) (m := n) (n := d)

theorem Tree.put_holds {t' : Tree K V} (h : t.Holds L es) (hput : t.put L k v = some t') :
    t'.Holds L (upsert k v es) := by
  obtain ⟨ps, hr, hp⟩ := h.rep
  have hn : ps.Nodup := hp.nodup_iff.mpr nodup_range
  have hlt : ∀ q ∈ ps, q < t.next := fun q hq => mem_range.mp (hp.mem_iff.mp hq)
  have hnot : ∀ q, t.next ≤ q → q ∉ ps := fun q hq hm => absurd (hlt q hm) (by omega)
  rw [Tree.put] at hput
  split at hput
  · cases hput
  · rename_i S n ho
    cases hput
    obtain ⟨ps', hr', g⟩ := put_spec hr (inRange_full k) hn hlt ho
    refine ⟨⟨ps', hr', ?_⟩, ?_⟩
    · have hperm : ps'.Perm (List.range t.next ++ List.range' t.next (n - t.next)) :=
        g.perm.trans (hp.append_right _)
      simpa [range_append_range' g.le] using hperm
    · intro q hq
      have hq' : n ≤ q := hq
      have := g.le
      show S q = none
      rw [g.frame q (hnot q (by omega)) (.inr hq'), h.unused q (by omega)]
  · rename_i S n sep r ho
    split at hput
    · rename_i hfit
      split at hput
      · cases hput
      cases hput
      obtain ⟨hlo, hhi, e₁, e₂, q₁, q₂, h1, h2, hes, g⟩ := put_spec hr (inRange_full k) hn hlt ho
      have hq : ∀ q ∈ q₁ ++ q₂, q < n := g.lt hlt
      have hne : ∀ q ∈ q₁ ++ q₂, S.set n (.inner t.root [(sep, r)]) q = S q := fun q hm =>
        Store.set_ne _ _ (hq q hm).ne
      refine ⟨⟨n :: (q₁ ++ q₂), ⟨t.root, [(sep, r)], q₁ ++ q₂, by simp, hfit, ?_, rfl⟩, ?_⟩, ?_⟩
      · refine ⟨hlo, hhi, e₁, e₂, q₁, q₂, ?_, ?_, hes, rfl⟩
        · exact h1.congr fun q hm => hne q (mem_append_left _ hm)
        · exact h2.congr fun q hm => hne q (mem_append_right _ hm)
      · have hperm : (q₁ ++ q₂).Perm (List.range t.next ++ List.range' t.next (n - t.next)) :=
          g.perm.trans (hp.append_right _)
        rw [range_append_range' g.le] at hperm
        rw [range_succ]
        exact (hperm.cons n).trans (perm_append_singleton n _).symm
      · intro q hq'
        have hq1 : n + 1 ≤ q := hq'
        have := g.le
        show S.set n _ q = none
        rw [Store.set_ne _ _ (by omega), g.frame q (hnot q (by omega)) (.inr (by omega)),
          h.unused q (by omega)]
    · cases hput

/-! ## Search paths -/

/-- A search for `k` from page `p` at height `h` passes page `q` at height `j`. -/
inductive OnPath (S : Store K V) (k : K) (h p : Nat) : Nat → Nat → Prop where
  | root : OnPath S k h p h p
  | child {j q l : Nat} {cs : List (K × Nat)} :
      OnPath S k h p (j + 1) q → S q = some (.inner l cs) → OnPath S k h p j (route k l cs)

theorem OnPath.trans {i r : Nat} (h1 : OnPath S k h p j q)
    (h2 : OnPath S k j q i r) : OnPath S k h p i r := by
  induction h2 with
  | root => exact h1
  | child _ hq ih => exact .child ih hq

theorem OnPath.le (hp : OnPath S k h p j q) : j ≤ h := by
  induction hp with
  | root => exact le_rfl
  | child _ _ ih => exact (Nat.le_succ _).trans ih

/-- A search passes one page at each height. -/
theorem OnPath.unique (hq : OnPath S k h p j q) :
    ∀ {q' : Nat}, OnPath S k h p j q' → q = q' := by
  induction hq with
  | root =>
    intro q' hq'
    cases hq' with
    | root => rfl
    | child hp _ => exact absurd hp.le (by omega)
  | child hp hS ih =>
    intro q' hq'
    cases hq' with
    | root => exact absurd hp.le (by omega)
    | child hp' hS' =>
      obtain rfl := ih hp'
      rw [hS] at hS'
      cases hS'
      rfl

/-- A search from a page of the path goes on as the search from above does. -/
theorem OnPath.onward {i : Nat} (hc : OnPath S k h p i c)
    (hq : OnPath S k h p j q) (hle : j ≤ i) : OnPath S k i c j q := by
  induction hq with
  | root =>
    obtain rfl := le_antisymm hc.le hle
    obtain rfl := hc.unique .root
    exact .root
  | child hp hS ih =>
    rename_i j q l cs
    rcases Nat.lt_or_ge j i with hlt | hge
    · exact .child (ih hlt) hS
    · obtain rfl := le_antisymm hle hge
      obtain rfl := hc.unique (.child hp hS)
      exact .root

/-- A new right half has a fresh page id, the last one taken. -/
theorem put_fresh : ∀ {h p : Nat} {o : Outcome K V}, put L S n k v h p = some o → match o with
    | .done _ n' => n ≤ n'
    | .split _ n' _ r => n ≤ r ∧ n' = r + 1
  | 0, p, o, ho => by
    rw [put] at ho
    split at ho
    · rw [putLeaf] at ho
      repeat' split at ho
      all_goals first
        | (cases ho; exact le_rfl)
        | (cases ho; exact ⟨le_rfl, rfl⟩)
        | cases ho
    · cases ho
  | h + 1, p, o, ho => by
    rw [put] at ho
    split at ho
    · split at ho
      · rename_i l cs _ S' n' sep r hput
        obtain ⟨hle, rfl⟩ := put_fresh hput
        rw [absorb] at ho
        repeat' split at ho
        all_goals first
          | (cases ho; exact hle.trans (Nat.le_succ _))
          | (cases ho; exact ⟨hle.trans (Nat.le_succ _), rfl⟩)
          | cases ho
      · exact put_fresh ho
    · cases ho

/-- Page ids are never given back. -/
theorem Tree.put_next {t' : Tree K V} (h : t.put L k v = some t') : t.next ≤ t'.next := by
  rw [Tree.put] at h
  split at h
  · cases h
  · rename_i S' n' ho
    cases h
    exact put_fresh ho
  rename_i S' n' sep r ho
  obtain ⟨hr, rfl⟩ := put_fresh ho
  repeat' split at h
  all_goals
    cases h
    try exact Nat.le_succ_of_le (Nat.le_succ_of_le hr)

theorem put_none_up (hp : OnPath S k h p j q) (ho : put L S n k v j q = none) :
    put L S n k v h p = none := by
  induction hp with
  | root => exact ho
  | child hp hq ih => exact ih (by simp [put, hq, ho])

theorem put_done_up (hp : OnPath S k h p j q) {n' : Nat}
    (ho : put L S n k v j q = some (.done S' n')) : put L S n k v h p = some (.done S' n') := by
  induction hp with
  | root => exact ho
  | child hp hq ih => exact ih (by simp [put, hq, ho])

theorem put_split_up (hq : S q = some (.inner l cs)) {n' : Nat} {sep : K} {r : Nat}
    (ho : put L S n k v j (route k l cs) = some (.split S' n' sep r)) :
    put L S n k v (j + 1) q = absorb L S' n' q l cs sep r := by
  simp [put, hq, ho]

theorem Tree.put_eq_none (hp : OnPath t.store k t.height t.root j q)
    (ho : Lib.put L t.store t.next k v j q = none) : t.put L k v = none := by
  rw [Tree.put, put_none_up hp ho]

theorem Tree.put_eq_done (hp : OnPath t.store k t.height t.root j q)
    {n' : Nat} (ho : Lib.put L t.store t.next k v j q = some (.done S' n')) :
    t.put L k v = some { t with store := S', next := n' } := by
  rw [Tree.put, put_done_up hp ho]

/-- The subtree under a page of the path of `k`, inside the whole tree. -/
theorem OnPath.cut (hp : OnPath S k h p j q) (hr : Rep L S h lo hi p es ps) (hk : InRange lo hi k) :
    ∃ lo' hi' mid ps' left right, Rep L S j lo' hi' q mid ps' ∧ InRange lo' hi' k ∧ ps'.Sublist ps ∧
      es = left ++ mid ++ right ∧ (∀ e ∈ left, e.1 < k) ∧ (∀ e ∈ right, k < e.1) := by
  induction hp with
  | root => exact ⟨lo, hi, es, ps, [], [], hr, hk, List.Sublist.refl _, by simp, by simp, by simp⟩
  | child hp hq ih =>
    obtain ⟨lo', hi', mid, ps', left, right, hr', hk', hsub, rfl, hl, hg⟩ := ih
    obtain ⟨l', cs', q', h1, h2, h3, rfl⟩ := hr'
    rw [hq] at h1
    cases h1
    obtain ⟨lo'', hi'', left', mid, right', pleft, pmid, pright, rfl, rfl, hc, H⟩ :=
      h3.route_spec (fun _ _ _ _ _ hp => Rep.bindings hp) hk'
    have h4 : pmid.Sublist (pleft ++ pmid ++ pright) :=
      (sublist_append_right _ _).trans (sublist_append_left _ _)
    refine ⟨lo'', hi'', mid, pmid, left ++ left', right' ++ right, hc, H.range,
      (h4.trans (sublist_cons_self _ _)).trans hsub, by simp, ?_, ?_⟩
    · intro e he
      exact (mem_append.mp he).elim (hl e) (H.below e)
    · intro e he
      exact (mem_append.mp he).elim (H.above e) (hg e)

theorem OnPath.rep (hp : OnPath S k h p j q) (hr : Rep L S h lo hi p es ps) (hk : InRange lo hi k) :
    ∃ lo' hi' es' ps', Rep L S j lo' hi' q es' ps' ∧ InRange lo' hi' k ∧ ps'.Sublist ps := by
  obtain ⟨lo', hi', mid, ps', -, -, hr', hk', hsub, -⟩ := hp.cut hr hk
  exact ⟨lo', hi', mid, ps', hr', hk', hsub⟩

theorem Tree.Holds.onPath_lt (hT : t.Holds L es) (hp : OnPath t.store k t.height t.root j q) :
    q < t.next := by
  obtain ⟨ps, hrep, -, hmem, -⟩ := hT.pages
  obtain ⟨_, _, _, _, hr, -, hsub⟩ := hp.rep hrep (inRange_full k)
  exact hmem.mp (hsub.subset hr.root_mem)

/-! ## Child edges -/

/-- The pages a page references. -/
def Page.refs : Page K V → List Nat
  | .leaf _ => []
  | .inner l cs => l :: cs.map Prod.snd

/-- The pages page `p` of the store references. -/
def Store.refs (S : Store K V) (p : Nat) : List Nat := ((S p).map Page.refs).getD []

/-- One page list per child, in child order. -/
theorem Chain.forall₂ {C : Type} {P : PagePred K V C} :
    ∀ {cs lo hi l es ps}, Chain P lo hi l cs es ps → ∃ qs : List (List C), ps = qs.flatten ∧
      List.Forall₂ (fun c q => ∃ a b e, P a b c e q) (l :: cs.map Prod.snd) qs
  | [], lo, hi, l, es, ps, h => ⟨[ps], by simp, .cons ⟨lo, hi, es, h⟩ .nil⟩
  | (s, c) :: cs, lo, hi, l, es, ps, h => by
    obtain ⟨-, -, e₁, e₂, p₁, p₂, h3, h4, -, rfl⟩ := h
    obtain ⟨qs, rfl, hf⟩ := Chain.forall₂ h4
    exact ⟨p₁ :: qs, by simp, .cons ⟨lo, s, e₁, h3⟩ hf⟩

theorem forall₂_mem {α β : Type} {R : α → β → Prop} : ∀ {as : List α} {bs : List β},
    List.Forall₂ R as bs → ∀ {a}, a ∈ as → ∃ b ∈ bs, R a b
  | _, _, .cons hab h, a, ha => by
    rcases mem_cons.mp ha with rfl | ha
    · exact ⟨_, .head _, hab⟩
    · obtain ⟨b, hb, hr⟩ := forall₂_mem h ha
      exact ⟨b, .tail _ hb, hr⟩

theorem forall₂_refs_perm {f : Nat → List Nat} : ∀ {cs : List Nat} {qs : List (List Nat)},
    List.Forall₂ (fun c q => ∃ r, q = c :: r ∧ (q.flatMap f).Perm r) cs qs →
    (cs ++ qs.flatten.flatMap f).Perm qs.flatten
  | [], [], .nil => by simp
  | c :: cs, q :: qs, .cons ⟨r, hq, hp⟩ h => by
    have ih := forall₂_refs_perm h
    subst hq
    rw [flatten_cons, flatMap_append, cons_append, cons_append]
    refine List.Perm.cons c ?_
    -- bring the children's own edges in front of the siblings
    have h1 : (cs ++ ((c :: r).flatMap f ++ qs.flatten.flatMap f)).Perm
        ((c :: r).flatMap f ++ (cs ++ qs.flatten.flatMap f)) := by
      rw [← append_assoc, ← append_assoc]
      exact perm_append_comm.append_right _
    exact h1.trans (hp.append ih)

/-- Every page of a subtree but its root is referenced exactly once from inside it. -/
theorem Rep.refs_perm : ∀ {h lo hi p es ps}, Rep L S h lo hi p es ps →
    ∃ q, ps = p :: q ∧ (ps.flatMap S.refs).Perm q
  | 0, _, _, p, es, _, hr => by
    obtain ⟨h1, -, -, -, rfl⟩ := hr
    exact ⟨[], rfl, by simp [Store.refs, h1, Page.refs]⟩
  | h + 1, _, _, p, _, _, hr => by
    obtain ⟨l, cs, q, h1, -, h3, rfl⟩ := hr
    obtain ⟨qs, rfl, hf⟩ := h3.forall₂
    refine ⟨qs.flatten, rfl, ?_⟩
    have hf' : List.Forall₂ (fun c q => ∃ r, q = c :: r ∧ (q.flatMap S.refs).Perm r)
        (l :: cs.map Prod.snd) qs :=
      hf.imp fun c q ⟨a, b, e, hr⟩ => hr.refs_perm
    have := forall₂_refs_perm hf'
    simpa [Store.refs, h1, Page.refs] using this

section RefsPerm

omit [LinearOrder K]

variable {q : List Nat}

/-- Pages that are referenced once each are referenced by one page each. -/
theorem refs_parent_unique (hq : ps = p :: q) (hperm : (ps.flatMap S.refs).Perm q) (hn : ps.Nodup)
    {y : Nat} (hx : x ∈ ps) (hy : y ∈ ps) (hcx : c ∈ S.refs x) (hcy : c ∈ S.refs y) : x = y := by
  subst hq
  have hnd := hperm.nodup_iff.mpr (nodup_cons.mp hn).2
  obtain ⟨-, hpw⟩ := nodup_flatMap.mp hnd
  by_contra hxy
  have : Std.Symm (Function.onFun List.Disjoint S.refs) := ⟨fun _ _ hab => List.Disjoint.symm hab⟩
  exact (hpw.forall hx hy hxy) hcx hcy

theorem refs_nodup_of_perm (hq : ps = p :: q) (hperm : (ps.flatMap S.refs).Perm q) (hn : ps.Nodup)
    (hx : x ∈ ps) : (S.refs x).Nodup := by
  subst hq
  have hnd := hperm.nodup_iff.mpr (nodup_cons.mp hn).2
  exact (nodup_flatMap.mp hnd).1 x hx

theorem refs_mem_of_perm (hq : ps = p :: q) (hperm : (ps.flatMap S.refs).Perm q) (hn : ps.Nodup)
    (hx : x ∈ ps) (hcx : c ∈ S.refs x) : c ∈ ps ∧ c ≠ p := by
  subst hq
  have hc : c ∈ q := hperm.mem_iff.mp (mem_flatMap.mpr ⟨x, hx, hcx⟩)
  refine ⟨.tail _ hc, ?_⟩
  rintro rfl
  exact (nodup_cons.mp hn).1 hc

end RefsPerm

/-- No two pages of a tree reference the same page. -/
theorem Rep.parent_unique (hr : Rep L S h lo hi p es ps)
    (hn : ps.Nodup) {y : Nat} (hx : x ∈ ps) (hy : y ∈ ps) (hcx : c ∈ S.refs x)
    (hcy : c ∈ S.refs y) : x = y := by
  obtain ⟨q, hq, hperm⟩ := hr.refs_perm
  exact refs_parent_unique hq hperm hn hx hy hcx hcy

/-- The pages of the subtree of height `h` under page `p`, in depth-first order. -/
def pagesOf (S : Store K V) : Nat → Nat → List Nat
  | 0, p => [p]
  | h + 1, p => p :: (S.refs p).flatMap (pagesOf S h)

theorem Rep.pages_eq : ∀ {h lo hi p es ps}, Rep L S h lo hi p es ps → ps = pagesOf S h p
  | 0, _, _, _, _, _, hr => hr.2.2.2.2
  | h + 1, _, _, p, _, _, hr => by
    obtain ⟨l, cs, q, h1, -, h3, rfl⟩ := hr
    obtain ⟨qs, rfl, hf⟩ := h3.forall₂
    have hqs : qs = (l :: cs.map Prod.snd).map (pagesOf S h) := by
      rw [← forall₂_eq_eq_eq, forall₂_map_right_iff]
      exact (hf.imp fun c q ⟨a, b, e, hr⟩ => hr.pages_eq).flip
    rw [pagesOf, hqs, flatMap_def, Store.refs, h1]
    rfl

theorem route_mem (k : K) : ∀ (l : Nat) (cs : List (K × Nat)), route k l cs ∈ l :: cs.map Prod.snd
  | l, [] => by simp [route]
  | l, (s, c) :: cs => by
    rw [route]
    split
    · exact .tail _ (route_mem k c cs)
    · exact .head _

/-- A depth-first search for the page that the path of `k` passes at height `j` reads page
`x` on the way: `x` is below a child left of the path. -/
inductive LeftOf (S : Store K V) (k : K) (h p j : Nat) : Nat → Prop where
  | intro {i q l c x : Nat} {cs : List (K × Nat)} {A B : List Nat} : j ≤ i →
      OnPath S k h p (i + 1) q → S q = some (.inner l cs) →
      l :: cs.map Prod.snd = A ++ route k l cs :: B → c ∈ A → x ∈ pagesOf S i c →
      LeftOf S k h p j x

theorem LeftOf.below (hS : S p = some (.inner l cs))
    (hx : LeftOf S k h (route k l cs) j x) : LeftOf S k (h + 1) p j x := by
  cases hx with
  | intro hi hq hinner hAB hc hm =>
    exact .intro hi ((OnPath.child .root hS).trans hq) hinner hAB hc hm

omit [LinearOrder K] in
theorem pagesOf_child (hx : S x = some (.inner l cs)) (hc : c ∈ l :: cs.map Prod.snd) :
    ∀ y ∈ pagesOf S j c, y ∈ pagesOf S (j + 1) x := by
  intro y hy
  refine .tail _ (mem_flatMap.mpr ⟨c, ?_, hy⟩)
  rw [Store.refs, hx]
  exact hc

theorem OnPath.pages_subset (hp : OnPath S k h p j q) :
    pagesOf S j q ⊆ pagesOf S h p := by
  induction hp with
  | root => exact List.Subset.refl _
  | child _ hS ih => exact fun y hy => ih (pagesOf_child hS (route_mem k _ _) y hy)

theorem OnPath.top (hp : OnPath S k h p j q) (hj : j < h) :
    ∃ l cs, S p = some (.inner l cs) := by
  induction hp with
  | root => exact absurd hj (lt_irrefl _)
  | child hp hS ih =>
    rcases Nat.eq_or_lt_of_le hp.le with rfl | hlt
    · obtain rfl := hp.unique .root
      exact ⟨_, _, hS⟩
    · exact ih hlt

/-- The root of a tree is referenced by no page of it; what is referenced is a page of it. -/
theorem Rep.ref_mem (hr : Rep L S h lo hi p es ps)
    (hn : ps.Nodup) (hx : x ∈ ps) (hcx : c ∈ S.refs x) : c ∈ ps ∧ c ≠ p := by
  obtain ⟨q, hq, hperm⟩ := hr.refs_perm
  exact refs_mem_of_perm hq hperm hn hx hcx

theorem Rep.height_lt : ∀ {h lo hi p es ps}, Rep L S h lo hi p es ps → h < ps.length
  | 0, _, _, _, _, _, hr => by simp [hr.2.2.2.2]
  | h + 1, _, _, p, _, _, hr => by
    obtain ⟨l, cs, q, -, -, h3, rfl⟩ := hr
    obtain ⟨qs, rfl, hf⟩ := h3.forall₂
    obtain ⟨r, hr, a, b, e, hrep⟩ := forall₂_mem hf (.head _)
    have h1 := hrep.height_lt
    have h2 := (sublist_flatten_of_mem hr).length_le
    rw [length_cons]
    omega

theorem Rep.page_ne_none : ∀ {h lo hi p es ps}, Rep L S h lo hi p es ps → ∀ x ∈ ps, S x ≠ none
  | 0, _, _, _, _, _, hr, x, hx => by
    obtain ⟨h1, -, -, -, rfl⟩ := hr
    rw [mem_singleton.mp hx, h1]
    simp
  | h + 1, _, _, p, _, _, hr, x, hx => by
    obtain ⟨l, cs, q, h1, -, h3, rfl⟩ := hr
    obtain ⟨qs, rfl, hf⟩ := h3.forall₂
    rcases mem_cons.mp hx with rfl | hx
    · rw [h1]
      simp
    · obtain ⟨r, hr, hxr⟩ := mem_flatten.mp hx
      obtain ⟨c, -, a, b, e, hrep⟩ := forall₂_mem hf.flip hr
      exact hrep.page_ne_none x hxr

theorem Tree.Holds.height_lt (h : t.Holds L es) :
    t.height < t.next := by
  obtain ⟨ps, hr, -, -, hlen⟩ := h.pages
  exact hlen ▸ hr.height_lt

theorem Tree.Holds.live (h : t.Holds L es) (hx : x < t.next) :
    t.store x ≠ none := by
  obtain ⟨ps, hr, -, hmem, -⟩ := h.pages
  exact hr.page_ne_none x (hmem.mpr hx)

/-- Page `q` is `d` edges below page `p`. -/
inductive AtDepth (S : Store K V) (p : Nat) : Nat → Nat → Prop where
  | root : AtDepth S p 0 p
  | child {d q c : Nat} : AtDepth S p d q → c ∈ S.refs q → AtDepth S p (d + 1) c

omit [LinearOrder K] in
theorem AtDepth.of_pagesOf {r : Nat} : ∀ {h d p : Nat}, AtDepth S r d p →
    q ∈ pagesOf S h p → ∃ d', AtDepth S r d' q
  | 0, d, p, hp, hq => ⟨d, mem_singleton.mp hq ▸ hp⟩
  | h + 1, d, p, hp, hq => by
    rcases mem_cons.mp hq with rfl | hq
    · exact ⟨d, hp⟩
    · obtain ⟨c, hc, hq⟩ := mem_flatMap.mp hq
      exact (hp.child hc).of_pagesOf hq

/-- `d` edges below the root of a tree of height `h` hangs a tree of height `h - d`. -/
theorem AtDepth.rep {d : Nat} (hb : AtDepth S p d q) (hr : Rep L S h lo hi p es ps) :
    ∃ j lo' hi' es' ps', h = j + d ∧ Rep L S j lo' hi' q es' ps' ∧ ps' ⊆ ps := by
  induction hb with
  | root => exact ⟨h, lo, hi, es, ps, rfl, hr, List.Subset.refl _⟩
  | child _ hc ih =>
    obtain ⟨j, lo', hi', es', ps', rfl, hr', hsub⟩ := ih
    cases j with
    | zero => simp [Store.refs, hr'.1, Page.refs] at hc
    | succ j =>
      obtain ⟨l, cs, q', h1, -, h3, rfl⟩ := hr'
      obtain ⟨qs, rfl, hf⟩ := h3.forall₂
      rw [Store.refs, h1] at hc
      obtain ⟨r, hr, a, b, e, hrep⟩ := forall₂_mem hf hc
      refine ⟨j, a, b, e, r, by omega, hrep, ?_⟩
      intro x hx
      exact hsub (.tail _ ((sublist_flatten_of_mem hr).subset hx))

/-- A page roots a subtree of one height only. -/
theorem Rep.height_unique : ∀ {h h' lo lo' hi hi' p es es' ps ps'},
    Rep L S h lo hi p es ps → Rep L S h' lo' hi' p es' ps' → h = h'
  | 0, 0, _, _, _, _, _, _, _, _, _, _, _ => rfl
  | 0, h' + 1, _, _, _, _, _, _, _, _, _, hr, ⟨l, cs, q, h1, _⟩ => by
    rw [hr.1] at h1
    cases h1
  | h + 1, 0, _, _, _, _, _, _, _, _, _, ⟨l, cs, q, h1, _⟩, hr => by
    rw [hr.1] at h1
    cases h1
  | h + 1, h' + 1, _, _, _, _, _, _, _, _, _, ⟨l, cs, q, h1, _, h3, _⟩,
      ⟨l', cs', q', h1', _, h3', _⟩ => by
    rw [h1] at h1'
    cases h1'
    obtain ⟨_, -, hf⟩ := h3.forall₂
    obtain ⟨_, -, hf'⟩ := h3'.forall₂
    obtain ⟨_, -, _, _, _, hr⟩ := forall₂_mem hf (.head _)
    obtain ⟨_, -, _, _, _, hr'⟩ := forall₂_mem hf' (.head _)
    rw [hr.height_unique hr']

/-- The pages and the root determine the tree. -/
theorem Tree.Holds.unique {t' : Tree K V} (h : t.Holds L es) (h' : t'.Holds L es')
    (hstore : t.store = t'.store) (hroot : t.root = t'.root) :
    t = t' := by
  obtain ⟨ps, hrep, -⟩ := h.rep
  obtain ⟨ps', hrep', -⟩ := h'.rep
  -- the ids in use are those below `next`
  have hnext : t.next = t'.next := by
    by_contra hne
    rcases Nat.lt_or_gt_of_ne hne with hlt | hlt
    · exact h'.live hlt (hstore ▸ h.unused t.next le_rfl)
    · exact h.live hlt (hstore ▸ h'.unused t'.next le_rfl)
  rw [← hstore, ← hroot] at hrep'
  have hheight := hrep.height_unique hrep'
  obtain ⟨S, r, n, m⟩ := t
  obtain ⟨S', r', n', m'⟩ := t'
  simp only at hstore hroot hnext hheight
  rw [hstore, hroot, hnext, hheight]

/-! ## The parent of a page that was just split -/

section AtDepth

variable {n' r : Nat} {sep : K}

/-- What the parent `q` of a freshly split page may rely on: it still references
that page, no other page does, and nothing above or beside the split changed. -/
structure SplitBelow (t : Tree K V) (k : K) (j q l : Nat) (cs : List (K × Nat)) (S' : Store K V)
    (sep : K) (r : Nat) : Prop where
  parent : ∀ x, route k l cs ∈ S'.refs x → x = q
  same : S' q = some (.inner l cs)
  frame : ∀ y, y < t.next → y ∉ pagesOf t.store j (route k l cs) → S' y = t.store y
  right : S' r ≠ none
  live : ∀ y, y < t.next → S' y ≠ none
  fresh : ∀ x ∈ cs, x.1 ≠ sep

theorem Tree.Holds.splitBelow (hT : t.Holds L es)
    (hp : OnPath t.store k t.height t.root (j + 1) q) (hq : t.store q = some (.inner l cs))
    (ho : Lib.put L t.store t.next k v j (route k l cs) = some (.split S' n' sep r)) :
    SplitBelow t k j q l cs S' sep r := by
  obtain ⟨ps, hr, hn, hmem, -⟩ := hT.pages
  obtain ⟨lo, hi, es', ps', hr', hk, hsub⟩ := hp.rep hr (inRange_full k)
  have hqps : q ∈ ps := hsub.subset hr'.root_mem
  have hn' : ps'.Nodup := hn.sublist hsub
  obtain ⟨l', cs', q', h1, h2, h3, rfl⟩ := hr'
  rw [hq] at h1
  cases h1
  obtain ⟨lo', hi', left, mid, right, pleft, pmid, pright, rfl, rfl, hc, H⟩ :=
    h3.route_spec (fun _ _ _ _ _ hp => Rep.bindings hp) hk
  have hpm : ∀ x ∈ pmid, x ∈ q :: (pleft ++ pmid ++ pright) := fun x hx => by simp [hx]
  have hnm : pmid.Nodup := by
    have := (nodup_cons.mp hn').2
    simp only [nodup_append] at this
    exact this.1.2.1
  have hltm : ∀ x ∈ pmid, x < t.next := fun x hx => hmem.mp (hsub.subset (hpm x hx))
  have hqm : q ∉ pmid := fun hm => (nodup_cons.mp hn').1 (by simp [hm])
  obtain ⟨hlo, hhi, e₁, e₂, q₁, q₂, hr₁, hr₂, -, g⟩ := put_spec hc H.range hnm hltm ho
  have hnq := g.nodup hnm hltm
  have hpages := hc.pages_eq
  subst hpages
  have hframe : ∀ y, y < t.next → y ∉ pagesOf t.store j (route k l cs) → S' y = t.store y :=
    fun y hy hyp => g.frame y hyp (.inl hy)
  have hrefq : route k l cs ∈ t.store.refs q := by
    rw [Store.refs, hq]
    exact route_mem k l cs
  refine ⟨?_, by rw [hframe q (hmem.mp hqps) hqm, hq], hframe,
    hr₂.page_ne_none r hr₂.root_mem, ?_, ?_⟩
  · intro x hx
    obtain ⟨hn₁, hn₂, hdis⟩ := nodup_append.mp hnq
    by_cases hx₁ : x ∈ q₁
    · exact absurd rfl (hr₁.ref_mem hn₁ hx₁ hx).2
    by_cases hx₂ : x ∈ q₂
    · exact absurd rfl (hdis _ hr₁.root_mem _ (hr₂.ref_mem hn₂ hx₂ hx).1)
    -- outside the split subtree nothing changed, and there the parent was unique
    have hxq : x ∉ q₁ ++ q₂ := by simp [hx₁, hx₂]
    have hxm : x ∉ pagesOf t.store j (route k l cs) := fun hm => hxq (g.mem.mpr (.inl hm))
    have hsame : S' x = t.store x := by
      refine g.frame x hxm ?_
      by_contra hlt
      exact hxq (g.mem.mpr (.inr (by omega)))
    have hx' : route k l cs ∈ t.store.refs x := by
      rwa [Store.refs, hsame] at hx
    have hxps : x ∈ ps := by
      by_contra hxps
      rw [Store.refs, hT.unused x (not_lt.mp fun hlt => hxps (hmem.mpr hlt))] at hx'
      cases hx'
    exact hr.parent_unique hn hxps hqps hx' hrefq
  · intro y hy
    by_cases hyp : y ∈ pagesOf t.store j (route k l cs)
    · rcases mem_append.mp (g.mem.mpr (.inl hyp)) with h | h
      · exact hr₁.page_ne_none y h
      · exact hr₂.page_ne_none y h
    · rw [hframe y hy hyp]
      exact hr.page_ne_none y (hmem.mpr hy)
  · rintro x hx rfl
    rcases H.outside x hx with h | h
    · exact absurd hlo (not_lt.mpr h)
    · exact absurd hhi (not_lt.mpr h)

/-- The root of a tree is passed only at its own height. -/
theorem Tree.Holds.child_ne_root (hT : t.Holds L es)
    (hp : OnPath t.store k t.height t.root (j + 1) q) (hq : t.store q = some (.inner l cs)) :
    route k l cs ≠ t.root := by
  obtain ⟨ps, hr, hn, -⟩ := hT.pages
  obtain ⟨lo, hi, es', ps', hr', -, hsub⟩ := hp.rep hr (inRange_full k)
  refine (hr.ref_mem hn (hsub.subset hr'.root_mem) ?_).2
  rw [Store.refs, hq]
  exact route_mem k l cs

end AtDepth

end SeerDb.Lib
