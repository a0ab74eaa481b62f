/-
# `SeerDb.Lib.SortedMap` — ordered maps as strictly increasing association lists

A list of bindings `(key, value)` whose keys increase strictly is an ordered
map: `get` reads it, `upsert` writes one binding, `erase` drops one,
`between` cuts out a half-open interval.

The three `append` lemmas are what a search tree needs: a map cut into
consecutive blocks is read and written inside the one block whose range
contains the key.
-/
import Mathlib.Algebra.GroupWithZero.Nat
import Mathlib.Algebra.Order.Group.Nat
import Mathlib.Data.List.Nodup
import Mathlib.Order.Basic
import Mathlib.Order.Defs.LinearOrder
import Mathlib.Data.List.Basic
import Mathlib.Data.List.Perm.Basic
import Mathlib.Data.Nat.Basic
import Mathlib.Order.WithBot
import Mathlib.Tactic.Common

namespace SeerDb.Lib

open List

variable {α β : Type} [LinearOrder α]

variable {k : α} {v : β} {es l r : List (α × β)}

/-- Strictly increasing in key. -/
def Sorted (es : List (α × β)) : Prop := es.Pairwise (fun a b => a.1 < b.1)

instance [DecidableEq β] (es : List (α × β)) : Decidable (Sorted es) :=
  inferInstanceAs (Decidable (List.Pairwise _ _))

/-- The binding of `k`. -/
def get (k : α) (es : List (α × β)) : Option β := es.lookup k

/-- Bind `k` to `v`, replacing an older binding of `k`. -/
def upsert (k : α) (v : β) : List (α × β) → List (α × β)
  | [] => [(k, v)]
  | e :: es =>
    if k < e.1 then (k, v) :: e :: es
    else if k = e.1 then (k, v) :: es
    else e :: upsert k v es

/-- The map that a list of entries collects to. -/
def collect (es : List (α × β)) : List (α × β) := es.foldl (fun l e => upsert e.1 e.2 l) []

/-- Drop the binding of `k`. -/
def erase (k : α) (es : List (α × β)) : List (α × β) := es.filter (fun e => e.1 ≠ k)

/-- The bindings of the half-open interval `[s, e)`. -/
def between (s e : α) (es : List (α × β)) : List (α × β) :=
  es.filter (fun b => s ≤ b.1 ∧ b.1 < e)

theorem forall_mem_concat {γ : Type} {p : γ → Prop} {l : List γ} {a : γ}
    (h : ∀ x ∈ l, p x) (ha : p a) :
    ∀ x ∈ l ++ [a], p x := forall_mem_append.mpr ⟨h, forall_mem_singleton.mpr ha⟩

theorem pairwise_concat {γ : Type} {R : γ → γ → Prop} {l : List γ} {a : γ} (h : l.Pairwise R)
    (ha : ∀ x ∈ l, R x a) :
    (l ++ [a]).Pairwise R :=
  pairwise_append.mpr ⟨h, pairwise_singleton _ _, fun x hx => forall_mem_singleton.mpr (ha x hx)⟩

/-- An element is found under a key that no other one has. -/
theorem find?_of_nodup {γ κ : Type} [DecidableEq κ] {key : γ → κ} {l : List γ} {a : γ}
    (h : (l.map key).Nodup) (ha : a ∈ l) : l.find? (fun x => key x = key a) = some a := by
  have hsome : (l.find? fun x => key x = key a).isSome := List.find?_isSome.mpr ⟨a, ha, by simp⟩
  obtain ⟨b, hb⟩ := Option.isSome_iff_exists.mp hsome
  rw [hb, inj_on_of_nodup_map h (mem_of_find?_eq_some hb) ha (by simpa using List.find?_some hb)]

/-! ## Sortedness -/

@[simp] theorem sorted_nil : Sorted ([] : List (α × β)) := List.Pairwise.nil

theorem sorted_cons {e : α × β} :
    Sorted (e :: es) ↔ (∀ x ∈ es, e.1 < x.1) ∧ Sorted es := pairwise_cons

theorem sorted_append :
    Sorted (l ++ r) ↔ Sorted l ∧ Sorted r ∧ ∀ a ∈ l, ∀ b ∈ r, a.1 < b.1 :=
  pairwise_append

theorem Sorted.sublist (h : l.Sublist r) (hr : Sorted r) : Sorted l := List.Pairwise.sublist h hr

/-! ## Writing one binding -/

theorem self_mem_upsert (k : α) (v : β) : ∀ l : List (α × β), (k, v) ∈ upsert k v l
  | [] => by simp [upsert]
  | e :: l => by
    rw [upsert]
    split
    · exact .head _
    · split
      · exact .head _
      · exact .tail _ (self_mem_upsert k v l)

theorem mem_upsert (hs : Sorted es) {x : α × β} :
    x ∈ upsert k v es ↔ x = (k, v) ∨ (x ∈ es ∧ x.1 ≠ k) := by
  induction es with
  | nil => simp [upsert]
  | cons e es ih =>
    obtain ⟨hlt, hs'⟩ := sorted_cons.mp hs
    by_cases h1 : k < e.1
    · -- everything already present is above `k`
      have hne : ∀ y ∈ e :: es, y.1 ≠ k := by
        intro y hy
        rcases mem_cons.mp hy with rfl | hy
        · exact ne_of_gt h1
        · exact ne_of_gt (h1.trans (hlt y hy))
      rw [upsert, if_pos h1, mem_cons]
      exact or_congr_right ⟨fun h => ⟨h, hne x h⟩, fun h => h.1⟩
    by_cases h2 : k = e.1
    · have hne : ∀ y ∈ es, y.1 ≠ k := fun y hy => ne_of_gt (h2 ▸ hlt y hy)
      rw [upsert, if_neg h1, if_pos h2, mem_cons, mem_cons]
      refine or_congr_right ⟨fun h => ⟨.inr h, hne x h⟩, ?_⟩
      rintro ⟨rfl | h, hk⟩
      · exact absurd h2.symm hk
      · exact h
    rw [upsert, if_neg h1, if_neg h2, mem_cons, mem_cons, ih hs']
    constructor
    · rintro (rfl | rfl | ⟨h, hk⟩)
      · exact .inr ⟨.inl rfl, fun h => h2 h.symm⟩
      · exact .inl rfl
      · exact .inr ⟨.inr h, hk⟩
    · rintro (rfl | ⟨rfl | h, hk⟩)
      · exact .inr (.inl rfl)
      · exact .inl rfl
      · exact .inr (.inr ⟨h, hk⟩)

theorem sorted_upsert (hs : Sorted es) :
    Sorted (upsert k v es) := by
  induction es with
  | nil => simp [upsert, sorted_cons]
  | cons e es ih =>
    obtain ⟨hlt, hs'⟩ := sorted_cons.mp hs
    by_cases h1 : k < e.1
    · rw [upsert, if_pos h1]
      refine sorted_cons.mpr ⟨?_, hs⟩
      intro x hx
      rcases mem_cons.mp hx with rfl | hx
      · exact h1
      · exact h1.trans (hlt x hx)
    by_cases h2 : k = e.1
    · rw [upsert, if_neg h1, if_pos h2]
      exact sorted_cons.mpr ⟨fun x hx => h2 ▸ hlt x hx, hs'⟩
    rw [upsert, if_neg h1, if_neg h2]
    have h3 : e.1 < k := lt_of_le_of_ne (not_lt.mp h1) (fun h => h2 h.symm)
    refine sorted_cons.mpr ⟨?_, ih hs'⟩
    intro x hx
    rcases (mem_upsert hs').mp hx with rfl | ⟨hx, -⟩
    · exact h3
    · exact hlt x hx

theorem sorted_collect (es : List (α × β)) : Sorted (collect es) :=
  foldlRecOn es _ Pairwise.nil fun _ h _ _ => sorted_upsert h

/-- A key below a whole block is written in front of it. -/
theorem upsert_append_of_lt (h : ∀ e ∈ r, k < e.1) :
    upsert k v (l ++ r) = upsert k v l ++ r := by
  induction l with
  | nil =>
    cases r with
    | nil => simp
    | cons e r => simp [upsert, h e (.head _)]
  | cons e l ih =>
    simp only [cons_append, upsert]
    split
    · rfl
    · split
      · rfl
      · rw [ih, cons_append]

/-- A key above a whole block is written behind it. -/
theorem upsert_append_of_gt (h : ∀ e ∈ l, e.1 < k) :
    upsert k v (l ++ r) = l ++ upsert k v r := by
  induction l with
  | nil => rfl
  | cons e l ih =>
    have he : e.1 < k := h e (.head _)
    simp only [cons_append, upsert, if_neg (not_lt.mpr he.le), if_neg (ne_of_gt he)]
    rw [ih (fun x hx => h x (.tail _ hx))]

theorem upsert_of_not_mem_append (hl : ∀ e ∈ l, e.1 < k) (hr : ∀ e ∈ r, k < e.1) :
    upsert k v (l ++ r) = l ++ (k, v) :: r := by
  rw [upsert_append_of_gt hl]
  have := upsert_append_of_lt (l := ([] : List (α × β))) (v := v) hr
  simpa [upsert] using this

theorem upsert_of_mem_append {w : β} (hl : ∀ e ∈ l, e.1 < k) :
    upsert k v (l ++ (k, w) :: r) = l ++ (k, v) :: r := by
  rw [upsert_append_of_gt hl]
  simp [upsert]

/-! ## Reading -/

theorem get_append_of_ne_right (h : ∀ e ∈ r, e.1 ≠ k) :
    get k (l ++ r) = get k l := by
  have hr : r.lookup k = none := by
    rw [lookup_eq_none_iff]
    intro p hp
    simpa using fun hk => h p hp hk.symm
  simp [get, lookup_append, hr]

theorem get_append_of_ne_left (h : ∀ e ∈ l, e.1 ≠ k) :
    get k (l ++ r) = get k r := by
  have hl : l.lookup k = none := by
    rw [lookup_eq_none_iff]
    intro p hp
    simpa using fun hk => h p hp hk.symm
  simp [get, lookup_append, hl]

theorem get_eq_some_iff (hs : Sorted es) :
    get k es = some v ↔ (k, v) ∈ es := by
  unfold get
  induction es with
  | nil => simp
  | cons e es ih =>
    obtain ⟨hlt, hs'⟩ := sorted_cons.mp hs
    obtain ⟨k', w⟩ := e
    rw [lookup_cons]
    by_cases h : k = k'
    · subst h
      simp only [beq_self_eq_true, mem_cons, Prod.mk.injEq, true_and]
      constructor
      · intro hv; exact .inl (Option.some.inj hv).symm
      · rintro (rfl | hm)
        · rfl
        · exact absurd (hlt _ hm) (lt_irrefl _)
    · have hb : (k == k') = false := by simpa using h
      simp [hb, ih hs', h]

theorem mem_of_get (h : get k es = some v) : (k, v) ∈ es := by
  induction es with
  | nil => cases h
  | cons e es ih =>
    rw [get, lookup_cons] at h
    split at h
    · rename_i hk
      cases h
      rw [beq_iff_eq.mp hk]
      exact .head _
    · exact .tail _ (ih h)

theorem get_eq_none_iff :
    get k es = none ↔ ∀ e ∈ es, e.1 ≠ k := by
  rw [get, lookup_eq_none_iff]
  refine forall₂_congr fun p _ => ?_
  simpa using (not_congr (eq_comm (a := k) (b := p.1)))

theorem get_upsert (hs : Sorted es) (k k' : α) (v : β) :
    get k' (upsert k v es) = if k' = k then some v else get k' es := by
  ext w
  rw [get_eq_some_iff (sorted_upsert hs), mem_upsert hs]
  by_cases h : k' = k
  · subst h
    simp [eq_comm]
  · simp [h, get_eq_some_iff hs]

/-- A map is determined by what it is read as. -/
theorem eq_of_get {fs : List (α × β)} (hs : Sorted es) (hs' : Sorted fs)
    (h : ∀ k, get k es = get k fs) : es = fs := by
  have hmem : ∀ x, x ∈ es ↔ x ∈ fs := by
    rintro ⟨k, v⟩
    rw [← get_eq_some_iff hs, ← get_eq_some_iff hs', h]
  have hnodup : ∀ {l : List (α × β)}, Sorted l → l.Nodup := fun hl =>
    hl.imp fun hlt heq => hlt.ne (congrArg Prod.fst heq)
  have hperm : es.Perm fs := (perm_ext_iff_of_nodup (hnodup hs) (hnodup hs')).mpr hmem
  refine hperm.eq_of_pairwise (fun a b _ _ hab hba => ?_) hs hs'
  exact absurd (hab.trans hba) (lt_irrefl _)

/-! ## Dropping one binding -/

theorem mem_erase {x : α × β} :
    x ∈ erase k es ↔ x ∈ es ∧ x.1 ≠ k := by simp [erase]

theorem sorted_erase (hs : Sorted es) : Sorted (erase k es) := Sorted.sublist filter_sublist hs

theorem erase_of_not_mem (h : ∀ e ∈ es, e.1 ≠ k) :
    erase k es = es := by
  rw [erase, filter_eq_self]
  intro a ha
  simpa using h a ha

theorem get_erase (es : List (α × β)) (k k' : α) :
    get k' (erase k es) = if k' = k then none else get k' es := by
  unfold get erase
  induction es with
  | nil => simp
  | cons e es ih =>
    obtain ⟨a, v⟩ := e
    by_cases hak : a = k
    · rw [filter_cons_of_neg (by simpa using hak), ih, lookup_cons]
      by_cases hk : k' = k
      · simp [hk]
      · have hb : (k' == a) = false := by simpa [hak] using hk
        simp [hk, hb]
    · rw [filter_cons_of_pos (by simpa using hak), lookup_cons, lookup_cons, ih]
      by_cases hk : k' = a
      · simp [hk, hak]
      · have hb : (k' == a) = false := by simpa using hk
        simp [hb]

theorem erase_append_cons (hl : ∀ e ∈ l, e.1 < k) (hr : ∀ e ∈ r, k < e.1) :
    erase k (l ++ (k, v) :: r) = l ++ r := by
  have h1 : erase k l = l := erase_of_not_mem fun e he => (hl e he).ne
  have h2 : erase k r = r := erase_of_not_mem fun e he => (hr e he).ne'
  have h3 : erase k (l ++ (k, v) :: r) = erase k l ++ erase k r := by
    simp [erase, filter_append]
  rw [h3, h1, h2]

/-- A list ordered by key is cut where a downward closed property of the keys ends. -/
theorem ordered_cut {P : α → Prop} (hP : ∀ a b, a ≤ b → P b → P a)
    (hs : es.Pairwise fun a b => a.1 ≤ b.1) :
    ∃ l r, es = l ++ r ∧ (∀ e ∈ l, P e.1) ∧ ∀ e ∈ r, ¬ P e.1 := by
  induction es with
  | nil => exact ⟨[], [], rfl, by simp, by simp⟩
  | cons e es ih =>
    obtain ⟨hle, hs'⟩ := pairwise_cons.mp hs
    by_cases he : P e.1
    · obtain ⟨l, r, rfl, hl, hr⟩ := ih hs'
      exact ⟨e :: l, r, rfl, forall_mem_cons.mpr ⟨he, hl⟩, hr⟩
    refine ⟨[], e :: es, rfl, by simp, ?_⟩
    intro x hx hPx
    rcases mem_cons.mp hx with rfl | hx
    · exact he hPx
    · exact he (hP _ _ (hle x hx) hPx)

/-- On a sorted list the place of `k` cuts it in two, with or without a binding of `k`. -/
theorem exists_cut (hs : Sorted es) (k : α) :
    ∃ l r, (∀ e ∈ l, e.1 < k) ∧ (∀ e ∈ r, k < e.1) ∧
      (es = l ++ r ∨ ∃ v, es = l ++ (k, v) :: r) := by
  induction es with
  | nil => exact ⟨[], [], by simp, by simp, .inl rfl⟩
  | cons e es ih =>
    obtain ⟨hlt, hs'⟩ := sorted_cons.mp hs
    rcases lt_trichotomy k e.1 with h | h | h
    · refine ⟨[], e :: es, by simp, ?_, .inl rfl⟩
      intro x hx
      rcases mem_cons.mp hx with rfl | hx
      · exact h
      · exact h.trans (hlt x hx)
    · exact ⟨[], es, by simp, fun x hx => h ▸ hlt x hx, .inr ⟨e.2, by simp [h]⟩⟩
    obtain ⟨l, r, hl, hr, he⟩ := ih hs'
    refine ⟨e :: l, r, ?_, hr, ?_⟩
    · intro x hx
      rcases mem_cons.mp hx with rfl | hx
      · exact h
      · exact hl x hx
    · rcases he with rfl | ⟨v, rfl⟩
      · exact .inl rfl
      · exact .inr ⟨v, rfl⟩

theorem upsert_erase (hs : Sorted es) :
    upsert k v (erase k es) = upsert k v es := by
  obtain ⟨l, r, hl, hr, rfl | ⟨w, rfl⟩⟩ := exists_cut hs k
  · rw [erase_of_not_mem]
    intro e he
    rcases mem_append.mp he with h | h
    · exact (hl e h).ne
    · exact (hr e h).ne'
  · rw [erase_append_cons hl hr, upsert_of_not_mem_append hl hr, upsert_of_mem_append hl]

end SeerDb.Lib
