/-
# `SeerDb.Lib.TreeWidth` — when every inner page keeps a separator

Halving an inner page of two separators leaves a right half with none.  If three
separators always fit on a page — they do when all are `short` — only pages of
at least three are ever halved, every inner page keeps a separator, and the tree
has at least `2 ^ height` pages.
-/
import SeerDb.Lib.TreePath

namespace SeerDb.Lib

open List

variable {K V : Type}

/-- All keys on the pages are short, and every inner page has a separator. -/
structure Wide (short : K → Prop) (S : Store K V) : Prop where
  leaf : ∀ p es, S p = some (.leaf es) → ∀ x ∈ es, short x.1
  inner : ∀ p l cs, S p = some (.inner l cs) → cs ≠ [] ∧ ∀ x ∈ cs, short x.1

variable {short : K → Prop} {S : Store K V}

theorem Wide.set_leaf (h : Wide short S) {p : Nat} {es : List (K × V)} (hes : ∀ x ∈ es, short x.1) :
    Wide short (S.set p (.leaf es)) := by
  constructor
  · intro q es' hq
    by_cases hqp : q = p
    · subst hqp
      rw [Store.set_self] at hq
      cases hq
      exact hes
    · rw [Store.set_ne _ _ hqp] at hq
      exact h.leaf q es' hq
  · intro q l cs hq
    by_cases hqp : q = p
    · subst hqp
      rw [Store.set_self] at hq
      cases hq
    · rw [Store.set_ne _ _ hqp] at hq
      exact h.inner q l cs hq

theorem Wide.set_inner (h : Wide short S) {p l : Nat} {cs : List (K × Nat)} (hne : cs ≠ [])
    (hcs : ∀ x ∈ cs, short x.1) : Wide short (S.set p (.inner l cs)) := by
  constructor
  · intro q es' hq
    by_cases hqp : q = p
    · subst hqp
      rw [Store.set_self] at hq
      cases hq
    · rw [Store.set_ne _ _ hqp] at hq
      exact h.leaf q es' hq
  · intro q l' cs' hq
    by_cases hqp : q = p
    · subst hqp
      rw [Store.set_self] at hq
      cases hq
      exact ⟨hne, hcs⟩
    · rw [Store.set_ne _ _ hqp] at hq
      exact h.inner q l' cs' hq

variable [LinearOrder K]

theorem forall_mem_upsert {P : K → Prop} {k : K} {β : Type} {v : β} (hk : P k) :
    ∀ {es : List (K × β)}, (∀ x ∈ es, P x.1) → ∀ x ∈ upsert k v es, P x.1
  | [], _, x, hx => by
    rw [mem_singleton.mp hx]
    exact hk
  | e :: es, h, x, hx => by
    have hes : ∀ x ∈ es, P x.1 := fun x hx => h x (.tail _ hx)
    rw [upsert] at hx
    split at hx
    · rcases mem_cons.mp hx with rfl | hx
      · exact hk
      · exact h x hx
    split at hx
    · rcases mem_cons.mp hx with rfl | hx
      · exact hk
      · exact hes x hx
    · rcases mem_cons.mp hx with rfl | hx
      · exact h x (.head _)
      · exact forall_mem_upsert hk hes x hx

theorem length_upsert_le {β : Type} (k : K) (v : β) : ∀ es : List (K × β),
    (upsert k v es).length ≤ es.length + 1
  | [] => le_rfl
  | e :: es => by
    have := length_upsert_le k v es
    rw [upsert]
    split
    · simp
    · split
      · simp
      · simpa using this

theorem upsert_ne_nil {β : Type} (k : K) (v : β) (es : List (K × β)) : upsert k v es ≠ [] :=
  ne_nil_of_mem (self_mem_upsert k v es)

variable {L : Layout K V} {n : Nat} {k : K} {v : V}

/-- An outcome with wide pages and a short separator. -/
def Outcome.Wide (short : K → Prop) : Outcome K V → Prop
  | .done S _ => Lib.Wide short S
  | .split S _ sep _ => Lib.Wide short S ∧ short sep

theorem putLeaf_wide (h : Wide short S) (hk : short k) {p : Nat} {es : List (K × V)}
    (hes : ∀ x ∈ es, short x.1) {o : Outcome K V} (ho : putLeaf L S n k v p es = some o) :
    o.Wide short := by
  rw [putLeaf] at ho
  split at ho
  · cases ho
    exact h.set_leaf (forall_mem_upsert hk hes)
  split at ho
  · cases ho
  rename_i left m right hh
  obtain ⟨hcut, -, -⟩ := halve_eq hh
  have hE : ∀ x ∈ left ++ m :: right, short x.1 := fun x hx =>
    hes x (mem_erase.mp (hcut ▸ hx)).1
  have hL : ∀ x ∈ left, short x.1 := fun x hx => hE x (mem_append_left _ hx)
  have hR : ∀ x ∈ m :: right, short x.1 := fun x hx => hE x (mem_append_right _ hx)
  split at ho
  · cases ho
  split at ho
  · split at ho
    · cases ho
      exact ⟨(h.set_leaf (forall_mem_upsert hk hL)).set_leaf hR, hR m (.head _)⟩
    · cases ho
  · split at ho
    · cases ho
      exact ⟨(h.set_leaf hL).set_leaf (forall_mem_upsert hk hR), hR m (.head _)⟩
    · cases ho

/-- A page that is halved has at least three separators, so both halves keep one. -/
theorem absorb_wide (hroom : ∀ cs : List (K × Nat), cs.length ≤ 3 →
    (∀ x ∈ cs, short x.1) → L.innerFits cs)
    (h : Wide short S) {p l r : Nat} {cs : List (K × Nat)} {sep : K} (hsep : short sep)
    (hcs : ∀ x ∈ cs, short x.1) {o : Outcome K V} (ho : absorb L S n p l cs sep r = some o) :
    o.Wide short := by
  rw [absorb] at ho
  split at ho
  · cases ho
    exact h.set_inner (upsert_ne_nil _ _ _) (forall_mem_upsert hsep hcs)
  rename_i hno
  have hlen : 3 ≤ cs.length := by
    by_contra hlt
    exact hno (hroom _ ((length_upsert_le _ _ _).trans (by omega)) (forall_mem_upsert hsep hcs))
  split at ho
  · cases ho
  rename_i left m right hh
  obtain ⟨rfl, hhalf, -⟩ := halve_eq hh
  have hL : ∀ x ∈ left, short x.1 := fun x hx => hcs x (mem_append_left _ hx)
  have hR : ∀ x ∈ right, short x.1 := fun x hx =>
    hcs x (mem_append_right _ (.tail _ hx))
  have hm : short m.1 := hcs m (by simp)
  simp only [length_append, length_cons] at hlen hhalf
  have hleft : left ≠ [] := ne_nil_of_length_pos (by omega)
  have hright : right ≠ [] := ne_nil_of_length_pos (by omega)
  split at ho
  · cases ho
  split at ho
  · split at ho
    · cases ho
      exact ⟨(h.set_inner (upsert_ne_nil _ _ _) (forall_mem_upsert hsep hL)).set_inner hright hR,
        hm⟩
    · cases ho
  · split at ho
    · cases ho
      exact ⟨(h.set_inner hleft hL).set_inner (upsert_ne_nil _ _ _) (forall_mem_upsert hsep hR), hm⟩
    · cases ho

theorem put_wide (hroom : ∀ cs : List (K × Nat), cs.length ≤ 3 →
    (∀ x ∈ cs, short x.1) → L.innerFits cs)
    (h : Wide short S) (hk : short k) : ∀ {height p : Nat} {o : Outcome K V},
    put L S n k v height p = some o → o.Wide short
  | 0, p, o, ho => by
    rw [put] at ho
    split at ho
    · rename_i es hp
      exact putLeaf_wide h hk (h.leaf p es hp) ho
    · cases ho
  | height + 1, p, o, ho => by
    rw [put] at ho
    split at ho
    · rename_i l cs hp
      split at ho
      · rename_i S' n' sep r hput
        have hw := put_wide hroom h hk hput
        exact absorb_wide hroom hw.1 hw.2 (h.inner p l cs hp).2 ho
      · exact put_wide hroom h hk ho
    · cases ho

theorem Tree.put_wide (hroom : ∀ cs : List (K × Nat), cs.length ≤ 3 →
    (∀ x ∈ cs, short x.1) → L.innerFits cs)
    {t t' : Tree K V} (h : Wide short t.store) (hk : short k) (hput : t.put L k v = some t') :
    Wide short t'.store := by
  rw [Tree.put] at hput
  split at hput
  · cases hput
  · rename_i S n ho
    cases hput
    exact Lib.put_wide hroom h hk ho
  rename_i S n sep r ho
  have hw := Lib.put_wide hroom h hk ho
  split at hput
  · split at hput
    · cases hput
    cases hput
    refine hw.1.set_inner (by simp) ?_
    intro x hx
    rw [mem_singleton.mp hx]
    exact hw.2
  · cases hput

/-- A wide tree doubles its pages with every level. -/
theorem Rep.two_pow_le (h : Wide short S) : ∀ {height lo hi p es ps}, Rep L S height lo hi p es ps →
    2 ^ height ≤ ps.length
  | 0, _, _, _, _, _, hr => by simp [hr.2.2.2.2]
  | height + 1, _, _, p, _, _, hr => by
    obtain ⟨l, cs, q, h1, -, h3, rfl⟩ := hr
    obtain ⟨hne, -⟩ := h.inner p l cs h1
    cases cs with
    | nil => exact absurd rfl hne
    | cons c cs =>
      obtain ⟨qs, rfl, hf⟩ := h3.forall₂
      cases hf with
      | cons hfirst hrest =>
        cases hrest with
        | cons hsecond _ =>
          obtain ⟨a, b, e, hr₁⟩ := hfirst
          obtain ⟨a', b', e', hr₂⟩ := hsecond
          have h1 := Rep.two_pow_le h hr₁
          have h2 := Rep.two_pow_le h hr₂
          simp only [flatten_cons, length_cons, length_append, Nat.pow_succ]
          omega

end SeerDb.Lib
