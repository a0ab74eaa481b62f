/-
# `SeerDb.Lib.SepChain` — the children of an index page, cut by separators

`Chain P lo hi l cs es ps` says that a page with leftmost child `l` and the pairs
`(separator, child)` of `cs` covers the key range `[lo, hi)`: the separators increase
strictly inside the range, each child satisfies `P` over the part that its separators
leave it, and `es` and `ps` are the children's bindings and page ids, concatenated.

`Chain.route_spec` does the work: the child that `route` picks owns the range around the
key, and the chain survives replacing it by one or by two pages over the same range.
-/
import SeerDb.Lib.SortedMap

namespace SeerDb.Lib

open List

variable {K V C : Type} [LinearOrder K]

/-- The half-open range `[lo, hi)`; a missing bound is the edge of the tree. -/
def InRange (lo : WithBot K) (hi : WithTop K) (k : K) : Prop :=
  lo ≤ (k : WithBot K) ∧ (k : WithTop K) < hi

theorem inRange_full (k : K) : InRange ⊥ ⊤ k := ⟨bot_le, WithTop.coe_lt_top k⟩

/-- The child an index page sends `k` to: equal separators go right. -/
def route (k : K) : C → List (K × C) → C
  | l, [] => l
  | l, (s, c) :: cs => if s ≤ k then route k c cs else l

/-- What a page predicate says: range, page, bindings below it, pages below it. -/
abbrev PagePred (K V C : Type) := WithBot K → WithTop K → C → List (K × V) → List C → Prop

def Chain (P : PagePred K V C) : WithBot K → WithTop K → C → List (K × C) →
    List (K × V) → List C → Prop
  | lo, hi, l, [], es, ps => P lo hi l es ps
  | lo, hi, l, (s, c) :: cs, es, ps =>
    lo < (s : WithBot K) ∧ (s : WithTop K) < hi ∧
      ∃ e₁ e₂ p₁ p₂, P lo s l e₁ p₁ ∧ Chain P s hi c cs e₂ p₂ ∧ es = e₁ ++ e₂ ∧ ps = p₁ ++ p₂

section Chain

variable {P P' : PagePred K V C}

theorem Chain.mono : ∀ {cs lo hi l es ps}, Chain P lo hi l cs es ps →
    (∀ a b c e q, P a b c e q → q ⊆ ps → P' a b c e q) → Chain P' lo hi l cs es ps
  | [], _, _, _, _, _, h, hPP => hPP _ _ _ _ _ h (List.Subset.refl _)
  | (s, c) :: cs, _, _, _, _, _, h, hPP => by
    obtain ⟨h1, h2, e₁, e₂, p₁, p₂, h3, h4, rfl, rfl⟩ := h
    refine ⟨h1, h2, e₁, e₂, p₁, p₂, ?_, ?_, rfl, rfl⟩
    · exact hPP _ _ _ _ _ h3 (subset_append_left _ _)
    · exact Chain.mono h4 fun a b c e q hp hq =>
        hPP a b c e q hp (subset_append_of_subset_right _ hq)

/-- Cutting a chain at one of its separators. -/
theorem chain_append : ∀ {cs lo hi l es ps} {m : K} {c ds},
    Chain P lo hi l (cs ++ (m, c) :: ds) es ps →
    lo < (m : WithBot K) ∧ (m : WithTop K) < hi ∧
      ∃ e₁ e₂ p₁ p₂, Chain P lo m l cs e₁ p₁ ∧ Chain P m hi c ds e₂ p₂ ∧
        es = e₁ ++ e₂ ∧ ps = p₁ ++ p₂
  | [], _, _, _, _, _, _, _, _, h => h
  | (s, d) :: cs, lo, hi, _, _, _, m, _, _, h => by
    obtain ⟨h1, -, e₁, e₂, p₁, p₂, h3, h4, rfl, rfl⟩ := h
    obtain ⟨h5, h6, f₁, f₂, q₁, q₂, h7, h8, rfl, rfl⟩ := chain_append h4
    have hsm : (s : WithTop K) < m := WithTop.coe_lt_coe.mpr (WithBot.coe_lt_coe.mp h5)
    refine ⟨h1.trans h5, h6, e₁ ++ f₁, f₂, p₁ ++ q₁, q₂, ?_, h8, by simp, by simp⟩
    exact ⟨h1, hsm, e₁, f₁, p₁, q₁, h3, h7, rfl, rfl⟩

/-- The separators lie strictly inside the range and increase strictly. -/
theorem Chain.seps : ∀ {cs lo hi l es ps}, Chain P lo hi l cs es ps →
    Sorted cs ∧ ∀ x ∈ cs, lo < (x.1 : WithBot K) ∧ (x.1 : WithTop K) < hi
  | [], _, _, _, _, _, _ => by simp
  | (s, c) :: cs, lo, hi, _, _, _, h => by
    obtain ⟨h1, h2, e₁, e₂, p₁, p₂, -, h4, -, -⟩ := h
    obtain ⟨ih1, ih2⟩ := Chain.seps h4
    refine ⟨sorted_cons.mpr ⟨fun x hx => WithBot.coe_lt_coe.mp (ih2 x hx).1, ih1⟩, ?_⟩
    intro x hx
    rcases mem_cons.mp hx with rfl | hx
    · exact ⟨h1, h2⟩
    · exact ⟨h1.trans (ih2 x hx).1, (ih2 x hx).2⟩

variable (hP : ∀ a b c e q, P a b c e q → Sorted e ∧ ∀ x ∈ e, InRange a b x.1)

include hP in
/-- The children's bindings, concatenated, are sorted and inside the range. -/
theorem Chain.bindings : ∀ {cs lo hi l es ps}, Chain P lo hi l cs es ps →
    Sorted es ∧ ∀ x ∈ es, InRange lo hi x.1
  | [], _, _, _, _, _, h => hP _ _ _ _ _ h
  | (s, c) :: cs, lo, hi, _, _, _, h => by
    obtain ⟨h1, h2, e₁, e₂, p₁, p₂, h3, h4, rfl, -⟩ := h
    obtain ⟨s1, r1⟩ := hP _ _ _ _ _ h3
    obtain ⟨s2, r2⟩ := Chain.bindings h4
    have hlt : ∀ a ∈ e₁, a.1 < s := fun a ha => WithTop.coe_lt_coe.mp (r1 a ha).2
    have hge : ∀ b ∈ e₂, s ≤ b.1 := fun b hb => WithBot.coe_le_coe.mp (r2 b hb).1
    refine ⟨sorted_append.mpr ⟨s1, s2, fun a ha b hb => (hlt a ha).trans_le (hge b hb)⟩, ?_⟩
    intro x hx
    rcases mem_append.mp hx with hx | hx
    · exact ⟨(r1 x hx).1, (r1 x hx).2.trans h2⟩
    · exact ⟨h1.le.trans (r2 x hx).1, (r2 x hx).2⟩

end Chain

/-- The place of the child that `route` picks for `k`: its range `[lo', hi')`, what
lies left and right of it, and the promise that one page, or two cut by a fresh
separator, may take its place as long as the pages left and right satisfy the
new predicate. -/
structure Hole (P : PagePred K V C) (lo : WithBot K) (hi : WithTop K) (l : C) (cs : List (K × C))
    (k : K) (lo' : WithBot K) (hi' : WithTop K) (left right : List (K × V))
    (pleft pright : List C) :
    Prop where
  lo_le : lo ≤ lo'
  le_hi : hi' ≤ hi
  range : InRange lo' hi' k
  below : ∀ x ∈ left, x.1 < k
  above : ∀ x ∈ right, k < x.1
  outside : ∀ x ∈ cs, (x.1 : WithBot K) ≤ lo' ∨ hi' ≤ (x.1 : WithTop K)
  fill : ∀ P' : PagePred K V C, (∀ a b c e q, P a b c e q → q ⊆ pleft ++ pright → P' a b c e q) →
    ∀ e q, P' lo' hi' (route k l cs) e q →
      Chain P' lo hi l cs (left ++ e ++ right) (pleft ++ q ++ pright)
  fillTwo : ∀ P' : PagePred K V C, (∀ a b c e q, P a b c e q → q ⊆ pleft ++ pright → P' a b c e q) →
    ∀ (s : K) (r : C) e₁ e₂ q₁ q₂, lo' < (s : WithBot K) → (s : WithTop K) < hi' →
      P' lo' s (route k l cs) e₁ q₁ → P' s hi' r e₂ q₂ →
      Chain P' lo hi l (upsert s r cs) (left ++ (e₁ ++ e₂) ++ right) (pleft ++ (q₁ ++ q₂) ++ pright)

/-- Routing finds a hole around the key. -/
theorem Chain.route_spec {P : PagePred K V C}
    (hP : ∀ a b c e q, P a b c e q → Sorted e ∧ ∀ x ∈ e, InRange a b x.1) {k : K} :
    ∀ {cs lo hi l es ps}, Chain P lo hi l cs es ps → InRange lo hi k →
    ∃ lo' hi' left mid right pleft pmid pright,
      es = left ++ mid ++ right ∧ ps = pleft ++ pmid ++ pright ∧
      P lo' hi' (route k l cs) mid pmid ∧ Hole P lo hi l cs k lo' hi' left right pleft pright
  | [], lo, hi, l, es, ps, h, hk => by
    refine ⟨lo, hi, [], es, [], [], ps, [], by simp, by simp, h,
      ⟨le_rfl, le_rfl, hk, by simp, by simp, by simp, ?_, ?_⟩⟩
    · intro P' _ e q h'; simpa [Chain, route] using h'
    · intro P' _ s r e₁ e₂ q₁ q₂ h1 h2 h3 h4
      exact ⟨h1, h2, e₁, e₂, q₁, q₂, h3, h4, by simp, by simp⟩
  | (s, c) :: cs, lo, hi, l, es, ps, h, hk => by
    obtain ⟨h1, h2, e₁, e₂, p₁, p₂, h3, h4, rfl, rfl⟩ := h
    by_cases hsk : s ≤ k
    · -- at or right of the separator: the hole is further right
      obtain ⟨lo', hi', left, mid, right, pleft, pmid, pright, rfl, rfl, hc, H⟩ :=
        Chain.route_spec hP h4 ⟨WithBot.coe_le_coe.mpr hsk, hk.2⟩
      have hr : route k l ((s, c) :: cs) = route k c cs := by simp [route, hsk]
      have hsub : ∀ {q : List C}, q ⊆ pleft ++ pright → q ⊆ p₁ ++ pleft ++ pright := by
        intro q hq; rw [append_assoc]; exact subset_append_of_subset_right _ hq
      refine ⟨lo', hi', e₁ ++ left, mid, right, p₁ ++ pleft, pmid, pright,
        by simp, by simp, hr ▸ hc,
        ⟨h1.le.trans H.lo_le, H.le_hi, H.range, ?_, H.above, ?_, ?_, ?_⟩⟩
      · intro x hx
        rcases mem_append.mp hx with hx | hx
        · exact (WithTop.coe_lt_coe.mp ((hP _ _ _ _ _ h3).2 x hx).2).trans_le hsk
        · exact H.below x hx
      · intro x hx
        rcases mem_cons.mp hx with rfl | hx
        · exact .inl H.lo_le
        · exact H.outside x hx
      · intro P' hPP e q h'
        have hl : P' lo s l e₁ p₁ := hPP _ _ _ _ _ h3 (by simp [append_assoc])
        have ht := H.fill P' (fun a b c e q hp hq => hPP a b c e q hp (hsub hq)) e q (hr ▸ h')
        exact ⟨h1, h2, e₁, _, p₁, _, hl, ht, by simp, by simp⟩
      · intro P' hPP t r f₁ f₂ q₁ q₂ ht1 ht2 h5 h6
        have hl : P' lo s l e₁ p₁ := hPP _ _ _ _ _ h3 (by simp [append_assoc])
        have ht := H.fillTwo P' (fun a b c e q hp hq => hPP a b c e q hp (hsub hq))
          t r f₁ f₂ q₁ q₂ ht1 ht2 (hr ▸ h5) h6
        -- the fresh separator lies right of `s`
        have hst : s < t := WithBot.coe_lt_coe.mp (H.lo_le.trans_lt ht1)
        rw [upsert, if_neg (not_lt.mpr hst.le), if_neg (ne_of_gt hst)]
        exact ⟨h1, h2, e₁, _, p₁, _, hl, ht, by simp, by simp⟩
    · -- left of the separator: the leftmost child owns `[lo, s)`
      have hks : k < s := not_le.mp hsk
      have hr : route k l ((s, c) :: cs) = l := by simp [route, hsk]
      have hge := (Chain.bindings hP h4).2
      refine ⟨lo, s, [], e₁, e₂, [], p₁, p₂, by simp, by simp, by rw [hr]; exact h3,
        ⟨le_rfl, h2.le, ⟨hk.1, WithTop.coe_lt_coe.mpr hks⟩, by simp, ?_, ?_, ?_, ?_⟩⟩
      · intro x hx; exact hks.trans_le (WithBot.coe_le_coe.mp (hge x hx).1)
      · intro x hx
        rcases mem_cons.mp hx with rfl | hx
        · exact .inr le_rfl
        · exact .inr (WithTop.coe_le_coe.mpr (WithBot.coe_lt_coe.mp ((Chain.seps h4).2 x hx).1).le)
      · intro P' hPP e q h'
        have ht : Chain P' s hi c cs e₂ p₂ :=
          Chain.mono h4 fun a b c e q hp hq => hPP a b c e q hp (by simpa using hq)
        exact ⟨h1, h2, e, e₂, q, p₂, hr ▸ h', ht, by simp, by simp⟩
      · intro P' hPP t r f₁ f₂ q₁ q₂ ht1 ht2 h5 h6
        have ht : Chain P' s hi c cs e₂ p₂ :=
          Chain.mono h4 fun a b c e q hp hq => hPP a b c e q hp (by simpa using hq)
        have hts : t < s := WithTop.coe_lt_coe.mp ht2
        rw [upsert, if_pos hts]
        refine ⟨ht1, ht2.trans h2, f₁, f₂ ++ e₂, q₁, q₂ ++ p₂, hr ▸ h5, ?_, by simp, by simp⟩
        exact ⟨WithBot.coe_lt_coe.mpr hts, h2, f₂, e₂, q₂, p₂, h6, ht, rfl, rfl⟩

end SeerDb.Lib
