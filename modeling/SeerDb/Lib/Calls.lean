/-
# `SeerDb.Lib.Calls` — recursive procedures and their finite runs

A recursive procedure is given by its body: what it does with its argument until it
answers or calls itself, and how it goes on with the answer of a call.  `Returns` holds
of the runs that end, with finitely many nested calls.  A procedure `Ends` with an answer
when it has such a run, and then no other answer is possible.

`fresh` counts what a traversal has not yet marked, the usual reason for a run to end.
-/
import Mathlib.Algebra.GroupWithZero.Nat
import Mathlib.Algebra.Order.Group.Nat
import Mathlib.Data.Finset.Card
import Mathlib.Data.Finset.Basic

namespace SeerDb.Lib

/-- What a procedure does: it answers, or it makes the call `s`, whose answer has type `β s`,
and goes on with the answer. -/
inductive Calls (σ : Type) (β : σ → Type) (α : Type) : Type where
  | ret (a : α)
  | call (s : σ) (k : β s → Calls σ β α)

/-- The runs that end, when a call is executed by `body`. -/
inductive Returns {σ : Type} {β : σ → Type} (body : ∀ s, Calls σ β (β s)) :
    ∀ {α : Type}, Calls σ β α → α → Prop where
  | ret {α : Type} (a : α) : Returns body (.ret a) a
  | call {α : Type} {s : σ} {k : β s → Calls σ β α} {b : β s} {a : α} :
      Returns body (body s) b → Returns body (k b) a → Returns body (.call s k) a

section Returns

variable {σ : Type} {β : σ → Type} {body : ∀ s, Calls σ β (β s)} {α : Type}
  {c : Calls σ β α} {a : α}

theorem Returns.unique (h : Returns body c a) : ∀ {a' : α}, Returns body c a' → a' = a := by
  induction h with
  | ret a =>
    intro a' h'
    cases h'
    rfl
  | call _ _ ihBody ihRest =>
    intro a' h'
    cases h' with
    | call hbody hrest =>
      cases ihBody hbody
      exact ihRest hrest

/-- The run of `c` ends, and `a` is its answer. -/
def Ends (body : ∀ s, Calls σ β (β s)) (c : Calls σ β α) (a : α) : Prop :=
  ∀ a', Returns body c a' ↔ a' = a

theorem Returns.ends (h : Returns body c a) : Ends body c a :=
  fun _ => ⟨h.unique, fun heq => heq ▸ h⟩

end Returns

/-! ## Marks -/

/-- How many of `ids` are not marked yet. -/
def fresh (ids marked : List Nat) : Nat := (ids.toFinset \ marked.toFinset).card

variable {ids marked marked' : List Nat} {x : Nat}

theorem fresh_le_length : fresh ids marked ≤ ids.length :=
  (Finset.card_le_card Finset.sdiff_subset).trans ids.toFinset_card_le

theorem fresh_anti (h : marked ⊆ marked') : fresh ids marked' ≤ fresh ids marked := by
  refine Finset.card_le_card (Finset.sdiff_subset_sdiff (Finset.Subset.refl _) fun y hy => ?_)
  rw [List.mem_toFinset] at hy ⊢
  exact h hy

/-- A new mark on one of `ids` counts. -/
theorem fresh_lt (hx : x ∈ ids) (hnew : x ∉ marked) :
    fresh ids (x :: marked) < fresh ids marked := by
  rw [fresh, List.toFinset_cons, Finset.sdiff_insert]
  exact Finset.card_erase_lt_of_mem (by simp [hx, hnew])

end SeerDb.Lib
