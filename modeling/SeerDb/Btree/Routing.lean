/-
# `SeerDb.Btree.Routing` — descent and the way back up

`find_leaf` follows the separators; on a tree of height `h` it needs `h + 1`
turns of its bounded loop.  `parent_of` checks the recorded hint and searches
from the root when the hint does not check out.  Both are related to the search
path of `SeerDb.Lib.TreePath`: whatever `parent_of` returns references the page,
and when every page is loaded it does return the parent.
-/
import SeerDb.Btree.Refine
import SeerDb.Lib.LooseTree

namespace SeerDb

open Lib List

namespace BTree

variable {bg : Nat → Option Node} {t : BTree} {S : Store Bytes Value} {n : Nat} {k : Bytes}
  {l : Nat} {cs : List (Bytes × Nat)}

/-! ## Descent -/

/-- What the loop answers below a page: the leaf of the path, when every page of the path is
loaded and it has a turn for each; the first page that is not loaded; or a cycle, when the
turns run out before. -/
theorem findLeafLoop_cases (h : Sim bg t S n) : ∀ {fuel height lo hi p es ps},
    Rep Node.layout S height lo hi p es ps → InRange lo hi k → (∀ q ∈ ps, q ≤ u32Max) →
    (∃ leaf, t.findLeafLoop k fuel p = .ok leaf ∧ height < fuel ∧ OnPath S k height p 0 leaf ∧
      ∀ j q, OnPath S k height p j q → t.node q ≠ none) ∨
    (∃ j q, OnPath S k height p j q ∧ t.node q = none ∧ t.findLeafLoop k fuel p =
      .error (.missingPage q)) ∨
    (fuel ≤ height ∧ t.findLeafLoop k fuel p =
      .error (.corruption "cycle detected during B-tree descent"))
  | 0, _, _, _, _, _, _, _, _, _ => .inr (.inr ⟨Nat.zero_le _, rfl⟩)
  | fuel + 1, height, lo, hi, p, es, ps, hr, hk, hlim => by
    rcases hm : t.node p with _ | m
    · exact .inr (.inl ⟨height, p, .root, hm, by rw [findLeafLoop, hm]⟩)
    have hbody := h.body hm
    have hp : ∀ {q}, OnPath S k height p height q → t.node q ≠ none := by
      intro q hq
      rw [← OnPath.root.unique hq, hm]
      exact Option.some_ne_none m
    cases height with
    | zero =>
      rw [hr.1] at hbody
      refine .inl ⟨p, ?_, Nat.succ_pos _, .root, fun j q hq => ?_⟩
      · simp [findLeafLoop, hm, Node.isLeaf_leaf (Option.some.inj hbody).symm]
      · obtain rfl := Nat.le_zero.mp hq.le
        exact hp hq
    | succ height =>
      obtain ⟨l, cs, q, h1, -, h3, rfl⟩ := hr
      rw [h1] at hbody
      have hb := (Option.some.inj hbody).symm
      obtain ⟨lo', hi', left, mid, right, pl, pm, pr, -, rfl, hc, H⟩ :=
        h3.route_spec (fun _ _ _ _ _ hp => Rep.bindings hp) hk
      have hpm : ∀ x ∈ pm, x ≤ u32Max := fun x hx => hlim x (by simp [hx])
      have hstep : t.findLeafLoop k (fuel + 1) p = t.findLeafLoop k fuel (route k l cs) := by
        rw [findLeafLoop, hm]
        simp only [Node.isLeaf_inner hb, Bool.false_eq_true, if_false,
          Node.childForKey_eq hb h3.seps.1, if_neg (not_lt.mpr (hpm _ hc.root_mem))]
      have hdown : OnPath S k (height + 1) p height (route k l cs) := .child .root h1
      rw [hstep]
      rcases findLeafLoop_cases h hc H.range hpm with
        ⟨leaf, hleaf, hlt, hpath, hload⟩ | ⟨j, q, hq, hnone, herr⟩ | ⟨hle, herr⟩
      · refine .inl ⟨leaf, hleaf, Nat.succ_lt_succ hlt, hdown.trans hpath, fun j q hq => ?_⟩
        rcases Nat.eq_or_lt_of_le hq.le with rfl | hj
        · exact hp hq
        · exact hload j q (hdown.onward hq (Nat.le_of_lt_succ hj))
      · exact .inr (.inl ⟨j, q, hdown.trans hq, hnone, herr⟩)
      · exact .inr (.inr ⟨Nat.succ_le_succ hle, herr⟩)

/-! ## What `parent_of` returns references the page -/

theorem children_eq_refs (m : Node) : m.children = m.body.refs := by
  cases hb : m.body with
  | leaf es => simp [Node.children, hb, Page.refs]
  | inner l cs => simp [Node.children, hb, Page.refs]

theorem referencesChild_inner {m : Node} {c : Nat}
    (hb : m.body = .inner l cs) : referencesChild m c = true ↔ c ∈ m.children := by
  simp only [referencesChild, Node.children, Node.leftmostChild, Node.childId, hb,
    Node.count_inner hb, Bool.or_eq_true, decide_eq_true_eq, any_eq_true, mem_range,
    mem_cons, mem_map]
  constructor
  · rintro (rfl | ⟨i, hi, he⟩)
    · exact .inl rfl
    · rw [List.getElem?_eq_getElem hi] at he
      exact .inr ⟨cs[i], getElem_mem hi, by simpa using he⟩
  · rintro (rfl | ⟨x, hx, rfl⟩)
    · exact .inl rfl
    · obtain ⟨i, hi, rfl⟩ := mem_iff_getElem.mp hx
      exact .inr ⟨i, hi, by simp [List.getElem?_eq_getElem hi]⟩

theorem Sim.refs (h : Sim bg t S n) {q : Nat} {m : Node} (hm : t.node q = some m) :
    S.refs q = m.children := by
  rw [Store.refs, h.body hm, children_eq_refs]
  rfl

/-- The hint branch: a recorded parent that checks out references the page. -/
theorem hintChecks_refs (h : Sim bg t S n) {p hint : Nat} (hin : hint ≠ 0 → IsInner S hint)
    (hc : t.hintChecks hint p = true) : p ∈ S.refs hint := by
  rw [hintChecks, Bool.and_eq_true, decide_eq_true_eq] at hc
  obtain ⟨h0, hc⟩ := hc
  split at hc
  · rename_i m hm
    obtain ⟨l, cs, hb⟩ := hin h0
    rw [h.body hm] at hb
    rw [h.refs hm]
    exact (referencesChild_inner (Option.some.inj hb)).mp hc
  · cases hc

/-! ## The search from the root -/

/-- Children without the target: the loop goes on behind them when all of them are `loaded`,
and is stuck at one otherwise. -/
theorem scanForParent_pass {descend : Nat → Except BTreeError (Option Nat)} {current target : Nat}
    {loaded : Nat → Prop} : ∀ {cs : List Nat}, (∀ c ∈ cs, c ≤ u32Max ∧ c ≠ target ∧
      (loaded c → descend c = .ok none) ∧ (¬ loaded c → ∃ e, descend c = .error e)) → ∀ rest,
    ((∀ c ∈ cs, loaded c) → scanForParent descend current target (cs ++ rest)
      = scanForParent descend current target rest) ∧
    ((∃ c ∈ cs, ¬ loaded c) → ∃ e, scanForParent descend current target (cs ++ rest) = .error e)
  | [], _, _ => ⟨fun _ => rfl, fun ⟨_, hc, _⟩ => absurd hc not_mem_nil⟩
  | c :: cs, h, rest => by
    obtain ⟨⟨h1, h2, hnone, hstuck⟩, hcs⟩ := forall_mem_cons.mp h
    rw [cons_append, scanForParent, if_neg (not_lt.mpr h1), if_neg h2]
    by_cases hc : loaded c
    · rw [hnone hc]
      refine ⟨fun hall => (scanForParent_pass hcs rest).1 (forall_mem_cons.mp hall).2, ?_⟩
      rintro ⟨x, hx, hno⟩
      rcases mem_cons.mp hx with rfl | hx
      · exact absurd hc hno
      · exact (scanForParent_pass hcs rest).2 ⟨x, hx, hno⟩
    · obtain ⟨e, he⟩ := hstuck hc
      rw [he]
      exact ⟨fun hall => absurd (hall c (.head _)) hc, fun _ => ⟨e, rfl⟩⟩

section Search

variable {S₀ : Store Bytes Value} {target : Nat}

/-- A subtree that does not contain the target: the search comes back empty when all its
pages are loaded, and is stuck in it otherwise. -/
theorem findParent_avoid (h : Sim bg t S n) : ∀ {height fuel x : Nat} {active : List Nat},
    IsTree S₀ height x → (pagesOf S₀ height x).Nodup → (∀ y ∈ pagesOf S₀ height x, S y = S₀ y) →
    target ∉ pagesOf S₀ height x → (∀ a ∈ active, a ∉ pagesOf S₀ height x) →
    (∀ q ∈ pagesOf S₀ height x, q ≤ u32Max) → height < fuel →
    ((∀ y ∈ pagesOf S₀ height x, t.node y ≠ none) → t.findParent target fuel x active = .ok none) ∧
      ((¬ ∀ y ∈ pagesOf S₀ height x, t.node y ≠ none) →
        ∃ e, t.findParent target fuel x active = .error e)
  | _, 0, _, _, _, _, _, _, _, _, hlt => absurd hlt (Nat.not_lt_zero _)
  | height, fuel + 1, x, active, htree, hn, hagree, ht, ha, hlim, hlt => by
    have hx := self_mem_pagesOf S₀ height x
    have hne : x ≠ target := fun he => ht (he ▸ hx)
    have hxa : x ∉ active := fun hm => ha x hm hx
    rw [findParent, if_neg hne, if_neg hxa]
    rcases hm : t.node x with _ | m
    · exact ⟨fun hload => absurd hm (hload x hx), fun _ => ⟨_, rfl⟩⟩
    have hbody := (h.body hm).symm.trans (hagree x hx)
    rcases htree.cases with ⟨es, hp⟩ | ⟨height, l, cs, rfl, hp, hcs⟩
    · simp only [Node.isLeaf_leaf (Option.some.inj (hbody.trans hp)), if_true]
      refine ⟨fun _ => trivial, fun hno => absurd (fun y hy => ?_) hno⟩
      rw [pagesOf_leaf hp, mem_singleton] at hy
      rw [hy, hm]
      exact Option.some_ne_none m
    have hb := Option.some.inj (hbody.trans hp)
    have hpages : ∀ y, y ∈ pagesOf S₀ (height + 1) x ↔
        y = x ∨ ∃ c ∈ l :: cs.map Prod.snd, y ∈ pagesOf S₀ height c := by
      intro y
      rw [pagesOf, Store.refs, hp, mem_cons, mem_flatMap]
      rfl
    have hpass := @scanForParent_pass (fun c => t.findParent target fuel c (x :: active)) x target
      (fun c => ∀ y ∈ pagesOf S₀ height c, t.node y ≠ none) (l :: cs.map Prod.snd) ?_ []
    · simp only [Node.isLeaf_inner hb, Bool.false_eq_true, if_false]
      rw [show m.children = l :: cs.map Prod.snd by simp [Node.children, hb]]
      rw [append_nil] at hpass
      refine ⟨fun hload => hpass.1 fun c hc y hy => hload y ((hpages y).mpr (.inr ⟨c, hc, hy⟩)),
        fun hno => hpass.2 ?_⟩
      by_contra hall
      push Not at hall
      refine hno fun y hy => ?_
      rcases (hpages y).mp hy with rfl | ⟨c, hc, hy⟩
      · rw [hm]
        exact Option.some_ne_none m
      · exact hall c hc y hy
    · intro c hc
      obtain ⟨hxc, hnc⟩ := nodup_child hp hn hc
      have hmem : ∀ y ∈ pagesOf S₀ height c, y ∈ pagesOf S₀ (height + 1) x := pagesOf_child hp hc
      have hself := hmem c (self_mem_pagesOf S₀ height c)
      refine ⟨hlim c hself, fun he => ht (he ▸ hself), ?_⟩
      refine findParent_avoid h (hcs c hc) hnc (fun y hy => hagree y (hmem y hy))
        (fun hm => ht (hmem _ hm)) ?_ (fun y hy => hlim y (hmem y hy)) (Nat.lt_of_succ_lt_succ hlt)
      intro a ha' hac
      rcases mem_cons.mp ha' with rfl | ha'
      · exact hxc hac
      · exact ha a ha' (hmem a hac)

/-- **The search from above for the parent** of a page `target` of the path, in any tree that
agrees with the original one outside the subtree under that page: it finds the parent if the
pages left of the path are loaded, and fails otherwise. -/
theorem findParent_below (h : Sim bg t S n) {i : Nat} : ∀ {height fuel x : Nat} {active : List Nat},
    IsTree S₀ height x → (pagesOf S₀ height x).Nodup → (∀ q ∈ pagesOf S₀ height x, q ≤ u32Max) →
    OnPath S₀ k height x i target → i < height →
    (∀ y ∈ pagesOf S₀ height x, y ∉ pagesOf S₀ i target → S y = S₀ y) →
    (∀ j y, OnPath S₀ k height x j y → t.node y ≠ none) →
    (∀ a ∈ active, a ∉ pagesOf S₀ height x) → height < fuel →
    ((∀ y, LeftOf S₀ k height x i y → t.node y ≠ none) →
      ∃ q, OnPath S₀ k height x (i + 1) q ∧ t.findParent target fuel x active = .ok (some q)) ∧
    ((∃ y, LeftOf S₀ k height x i y ∧ t.node y = none) →
      ∃ e, t.findParent target fuel x active = .error e)
  | _, 0, _, _, _, _, _, _, _, _, _, _, hlt => absurd hlt (Nat.not_lt_zero _)
  | 0, _ + 1, _, _, _, _, _, _, hi, _, _, _, _ => absurd hi (Nat.not_lt_zero _)
  | height + 1, fuel + 1, x, active, htree, hn, hlim, hp, hi, hagree, hpath, ha, hlt => by
    obtain ⟨l, cs, hx⟩ := hp.top hi
    have hcs := htree.child hx
    have hmem := route_mem k l cs
    have hdown : OnPath S₀ k (height + 1) x height (route k l cs) := .child .root hx
    have hp' := hdown.onward hp (Nat.le_of_lt_succ hi)
    have hup : ∀ y ∈ pagesOf S₀ height (route k l cs), y ∈ pagesOf S₀ (height + 1) x :=
      pagesOf_child hx hmem
    obtain ⟨hxc, hnc⟩ := nodup_child hx hn hmem
    have hsub := hp'.pages_subset
    have hself := self_mem_pagesOf S₀ i target
    have hne : x ≠ target := fun he => hxc (hsub (he ▸ hself))
    have hxa : x ∉ active := fun hm => ha x hm (self_mem_pagesOf S₀ _ x)
    have hact : ∀ y ∈ l :: cs.map Prod.snd, ∀ a ∈ x :: active, a ∉ pagesOf S₀ height y := by
      intro y hy a ha' hay
      rcases mem_cons.mp ha' with rfl | ha'
      · exact (nodup_child hx hn hy).1 hay
      · exact ha a ha' (pagesOf_child hx hy a hay)
    have hSx : S x = some (.inner l cs) := by
      rw [hagree x (self_mem_pagesOf S₀ _ x) fun hm => hxc (hsub hm), hx]
    obtain ⟨m, hm, hb⟩ := h.node_of_loaded (hpath _ x .root) hSx
    -- one level: the search comes to the child when all pages left of it are loaded
    have hlevel : ∀ {A B}, l :: cs.map Prod.snd = A ++ route k l cs :: B →
        ((∀ y ∈ A, ∀ z ∈ pagesOf S₀ height y, t.node z ≠ none) →
          t.findParent target (fuel + 1) x active
          = scanForParent (fun y => t.findParent target fuel y (x :: active)) x target
            (route k l cs :: B)) ∧
        ((∃ y ∈ A, ¬ ∀ z ∈ pagesOf S₀ height y, t.node z ≠ none) →
          ∃ e, t.findParent target (fuel + 1) x active = .error e) := by
      intro A B hAB
      rw [findParent, if_neg hne, if_neg hxa, hm]
      simp only [Node.isLeaf_inner hb, Bool.false_eq_true, if_false]
      rw [show m.children = A ++ route k l cs :: B by simp [Node.children, hb, ← hAB]]
      refine scanForParent_pass (fun y hy => ?_) _
      have hy' : y ∈ l :: cs.map Prod.snd := hAB ▸ mem_append_left _ hy
      have hyup : ∀ z ∈ pagesOf S₀ height y, z ∈ pagesOf S₀ (height + 1) x := pagesOf_child hx hy'
      have hdis : List.Disjoint (pagesOf S₀ height y) (pagesOf S₀ height (route k l cs)) := by
        have hrefs : S₀.refs x = A ++ route k l cs :: B := by rw [Store.refs, hx, ← hAB]; rfl
        rw [pagesOf, hrefs, nodup_cons, nodup_flatMap] at hn
        exact (pairwise_append.mp hn.2.2).2.2 y hy _ (.head _)
      have hyself := self_mem_pagesOf S₀ height y
      refine ⟨hlim y (hyup y hyself), fun he => hdis hyself (he ▸ hsub hself), ?_⟩
      exact findParent_avoid h (hcs y hy') (nodup_child hx hn hy').2
        (fun z hz => hagree z (hyup z hz) fun hz' => hdis hz (hsub hz'))
        (fun hm => hdis hm (hsub hself)) (hact y hy')
        (fun z hz => hlim z (hyup z hz)) (Nat.lt_of_succ_lt_succ hlt)
    obtain ⟨A, B, hAB⟩ := append_of_mem hmem
    have hwide : ¬ route k l cs > u32Max :=
      not_lt.mpr (hlim _ (hup _ (self_mem_pagesOf S₀ height _)))
    -- an unloaded page below a child of `x`
    have hhere : ∀ {A B c y}, l :: cs.map Prod.snd = A ++ route k l cs :: B → c ∈ A →
        y ∈ pagesOf S₀ height c → t.node y = none → ∃ e, t.findParent target (fuel + 1) x active =
          .error e := fun hAB hc hy hnone =>
      (hlevel hAB).2 ⟨_, hc, fun hall => hall _ hy hnone⟩
    rcases Nat.eq_or_lt_of_le (Nat.le_of_lt_succ hi) with rfl | hlow
    · obtain rfl := hdown.unique hp
      refine ⟨fun hleft => ⟨x, .root, ?_⟩, ?_⟩
      · rw [(hlevel hAB).1 fun y hy z hz => hleft z (.intro le_rfl .root hx hAB hy hz),
          scanForParent, if_neg hwide, if_pos rfl]
      · rintro ⟨y, ⟨hi', hq, hS, hAB', hc, hy⟩, hnone⟩
        obtain rfl := le_antisymm (Nat.le_of_succ_le_succ hq.le) hi'
        obtain rfl := OnPath.root.unique hq
        cases hx.symm.trans hS
        exact hhere hAB' hc hy hnone
    · have hct : route k l cs ≠ target := by
        obtain ⟨l', cs', hc'⟩ := hp'.top hlow
        obtain ⟨height, rfl⟩ := Nat.exists_eq_add_one.mpr (Nat.zero_lt_of_lt hlow)
        intro he
        refine (nodup_child hc' hnc (route_mem k l' cs')).1 ?_
        exact ((OnPath.child .root hc').onward hp' (Nat.le_of_lt_succ hlow)).pages_subset
          (he ▸ hself)
      obtain ⟨hfound, hstuck⟩ := findParent_below h (hcs _ hmem) hnc
        (fun y hy => hlim y (hup y hy)) hp' hlow
        (fun y hy => hagree y (hup y hy)) (fun j y hy => hpath j y (hdown.trans hy)) (hact _ hmem)
        (Nat.lt_of_succ_lt_succ hlt)
      refine ⟨fun hleft => ?_, ?_⟩
      · obtain ⟨q, hq, hans⟩ := hfound fun y hy => hleft y (hy.below hx)
        refine ⟨q, hdown.trans hq, ?_⟩
        rw [(hlevel hAB).1 fun y hy z hz => hleft z
          (.intro (Nat.le_of_lt_succ hi) .root hx hAB hy hz), scanForParent,
          if_neg hwide, if_neg hct, hans]
      · rintro ⟨y, ⟨hi', hq, hS, hAB', hc, hy⟩, hnone⟩
        rcases Nat.eq_or_lt_of_le (Nat.le_of_succ_le_succ hq.le) with rfl | hlt'
        · obtain rfl := OnPath.root.unique hq
          cases hx.symm.trans hS
          exact hhere hAB' hc hy hnone
        obtain ⟨e, herr⟩ := hstuck ⟨y, .intro hi' (hdown.onward hq hlt') hS hAB' hc hy, hnone⟩
        by_cases hall : ∀ y ∈ A, ∀ z ∈ pagesOf S₀ height y, t.node z ≠ none
        · rw [(hlevel hAB).1 hall, scanForParent, if_neg hwide, if_neg hct, herr]
          exact ⟨e, rfl⟩
        · push Not at hall
          obtain ⟨z, hz, w, hw, hnone⟩ := hall
          exact hhere hAB hz hw hnone

end Search

end BTree

end SeerDb
