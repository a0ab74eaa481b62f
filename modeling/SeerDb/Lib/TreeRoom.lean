/-
# `SeerDb.Lib.TreeRoom` — when a tree can take a binding

A full page is halved by entry count, once: the half the binding falls in either
has room for it or the write fails, whatever room the other half has.  `Room`
reads off the pages on the path to the binding whether all of them cope, before
anything is written.
-/
import SeerDb.Lib.TreePath

namespace SeerDb.Lib

variable {K V : Type} [LinearOrder K]

/-- The subtree of height `h` under page `p` can take `(k, v)`, fresh page ids starting
at `n`.  It then takes the ids below `n'` and hands `up` to its parent: nothing, or the
first key and the id of a new right half. -/
inductive Room (L : Layout K V) (S : Store K V) (k : K) (v : V) (n : Nat) :
    Nat → Nat → Nat → Option (K × Nat) → Prop
  | leaf {p : Nat} {es : List (K × V)} : S p = some (.leaf es) → L.leafFits (upsert k v es) →
      Room L S k v n 0 p n none
  | halves {p : Nat} {es left right : List (K × V)} {m : K × V} : S p = some (.leaf es) →
      ¬ L.leafFits (upsert k v es) → halve (erase k es) = some (left, m, right) →
      n ≤ L.idLimit → L.leafFits (upsert k v (if k < m.1 then left else m :: right)) →
      Room L S k v n 0 p (n + 1) (some (m.1, n))
  | inside {h p n' l : Nat} {cs : List (K × Nat)} : S p = some (.inner l cs) →
      Room L S k v n h (route k l cs) n' none → Room L S k v n (h + 1) p n' none
  | takes {h p n' l r : Nat} {cs : List (K × Nat)} {sep : K} : S p = some (.inner l cs) →
      Room L S k v n h (route k l cs) n' (some (sep, r)) → L.innerFits (upsert sep r cs) →
      Room L S k v n (h + 1) p n' none
  | parts {h p n' l r : Nat} {cs left right : List (K × Nat)} {sep : K} {m : K × Nat} :
      S p = some (.inner l cs) → Room L S k v n h (route k l cs) n' (some (sep, r)) →
      ¬ L.innerFits (upsert sep r cs) → halve cs = some (left, m, right) → n' ≤ L.idLimit →
      L.innerFits (upsert sep r (if sep < m.1 then left else right)) →
      Room L S k v n (h + 1) p (n' + 1) (some (m.1, n'))

/-- What an outcome hands to the parent, with the next free page id. -/
def Outcome.handed : Outcome K V → Nat × Option (K × Nat)
  | .done _ n => (n, none)
  | .split _ n sep r => (n, some (sep, r))

variable {L : Layout K V} {S : Store K V} {k : K} {v : V} {n : Nat}

theorem putLeaf_of_halves {p : Nat} {es left right : List (K × V)} {m : K × V}
    (hfull : ¬ L.leafFits (upsert k v es)) (hh : halve (erase k es) = some (left, m, right))
    (hn : n ≤ L.idLimit) (hfit : L.leafFits (upsert k v (if k < m.1 then left else m :: right))) :
    ∃ o, putLeaf L S n k v p es = some o ∧ o.handed = (n + 1, some (m.1, n)) := by
  rw [putLeaf, if_neg hfull, hh]
  simp only [if_neg (not_lt.mpr hn)]
  split
  · rename_i hk
    rw [if_pos hk] at hfit
    exact ⟨_, if_pos hfit, rfl⟩
  · rename_i hk
    rw [if_neg hk] at hfit
    exact ⟨_, if_pos hfit, rfl⟩

theorem absorb_of_parts {p l r : Nat} {cs left right : List (K × Nat)} {sep : K} {m : K × Nat}
    (hfull : ¬ L.innerFits (upsert sep r cs)) (hh : halve cs = some (left, m, right))
    (hn : n ≤ L.idLimit) (hfit : L.innerFits (upsert sep r (if sep < m.1 then left else right))) :
    ∃ o, absorb L S n p l cs sep r = some o ∧ o.handed = (n + 1, some (m.1, n)) := by
  rw [absorb, if_neg hfull, hh]
  simp only [if_neg (not_lt.mpr hn)]
  split
  · rename_i hk
    rw [if_pos hk] at hfit
    exact ⟨_, if_pos hfit, rfl⟩
  · rename_i hk
    rw [if_neg hk] at hfit
    exact ⟨_, if_pos hfit, rfl⟩

theorem Room.put {h p n' : Nat} {up : Option (K × Nat)} (hr : Room L S k v n h p n' up) :
    ∃ o, put L S n k v h p = some o ∧ o.handed = (n', up) := by
  induction hr with
  | leaf hp hfit =>
    rw [Lib.put, hp]
    exact ⟨_, if_pos hfit, rfl⟩
  | halves hp hfull hh hn hfit =>
    rw [Lib.put, hp]
    exact putLeaf_of_halves hfull hh hn hfit
  | inside hp _ ih =>
    obtain ⟨o, ho, hup⟩ := ih
    rw [Lib.put, hp]
    cases o with
    | done S' n' => exact ⟨_, by simp only [ho], hup⟩
    | split S' n' sep r => cases hup
  | takes hp _ hfit ih =>
    obtain ⟨o, ho, hup⟩ := ih
    rw [Lib.put, hp]
    cases o with
    | done S' n' => cases hup
    | split S' n' sep r =>
      cases hup
      simp only [ho]
      exact ⟨_, if_pos hfit, rfl⟩
  | parts hp _ hfull hh hn hfit ih =>
    obtain ⟨o, ho, hup⟩ := ih
    rw [Lib.put, hp]
    cases o with
    | done S' n' => cases hup
    | split S' n' sep r =>
      cases hup
      simp only [ho]
      exact absorb_of_parts hfull hh hn hfit

theorem room_of_putLeaf {p : Nat} {es : List (K × V)} {o : Outcome K V} (hp : S p = some (.leaf es))
    (ho : putLeaf L S n k v p es = some o) : Room L S k v n 0 p o.handed.1 o.handed.2 := by
  rw [putLeaf] at ho
  split at ho
  · rename_i hfit
    cases ho
    exact .leaf hp hfit
  rename_i hfull
  split at ho
  · cases ho
  rename_i left m right hh
  split at ho
  · cases ho
  rename_i hn
  split at ho
  · rename_i hk
    split at ho
    · rename_i hfit
      cases ho
      exact .halves hp hfull hh (not_lt.mp hn) (by rwa [if_pos hk])
    · cases ho
  rename_i hk
  split at ho
  · rename_i hfit
    cases ho
    exact .halves hp hfull hh (not_lt.mp hn) (by rwa [if_neg hk])
  · cases ho

theorem room_of_absorb {S' : Store K V} {h p l r n' : Nat} {cs : List (K × Nat)} {sep : K}
    {o : Outcome K V} (hp : S p = some (.inner l cs))
    (hr : Room L S k v n h (route k l cs) n' (some (sep, r)))
    (ho : absorb L S' n' p l cs sep r = some o) :
    Room L S k v n (h + 1) p o.handed.1 o.handed.2 := by
  rw [absorb] at ho
  split at ho
  · rename_i hfit
    cases ho
    exact .takes hp hr hfit
  rename_i hfull
  split at ho
  · cases ho
  rename_i left m right hh
  split at ho
  · cases ho
  rename_i hn
  split at ho
  · rename_i hk
    split at ho
    · rename_i hfit
      cases ho
      exact .parts hp hr hfull hh (not_lt.mp hn) (by rwa [if_pos hk])
    · cases ho
  rename_i hk
  split at ho
  · rename_i hfit
    cases ho
    exact .parts hp hr hfull hh (not_lt.mp hn) (by rwa [if_neg hk])
  · cases ho

theorem room_of_put : ∀ {h p : Nat} {o : Outcome K V}, put L S n k v h p = some o →
    Room L S k v n h p o.handed.1 o.handed.2
  | 0, p, o, ho => by
    rw [Lib.put] at ho
    split at ho
    · rename_i es hp
      exact room_of_putLeaf hp ho
    · cases ho
  | h + 1, p, o, ho => by
    rw [Lib.put] at ho
    split at ho
    · rename_i l cs hp
      split at ho
      · rename_i S' n' sep r hput
        exact room_of_absorb hp (room_of_put hput) ho
      rename_i hput
      have hr := room_of_put ho
      cases o with
      | done S' n' => exact .inside hp hr
      | split S' n' sep r => exact absurd ho (hput S' n' sep r)
    · cases ho

/-- A whole tree can take `(k, v)`: its root does, and if the root splits there is an id
for the new root above it. -/
def Tree.Room (L : Layout K V) (t : Tree K V) (k : K) (v : V) : Prop :=
  ∃ n' up, Lib.Room L t.store k v t.next t.height t.root n' up ∧
    ∀ s, up = some s → L.innerFits [s] ∧ n' ≤ L.idLimit

/-- `Tree.put` fails exactly where there is no room. -/
theorem Tree.room_iff {t : Tree K V} : t.Room L k v ↔ t.put L k v ≠ none := by
  constructor
  · rintro ⟨n', up, hr, hroot⟩
    obtain ⟨o, ho, hup⟩ := hr.put
    rw [Tree.put, ho]
    cases o with
    | done S' n' => simp
    | split S' n' sep r =>
      cases hup
      obtain ⟨hfit, hn⟩ := hroot _ rfl
      simp [hfit, not_lt.mpr hn]
  · intro hput
    rw [Tree.put] at hput
    rcases ho : Lib.put L t.store t.next k v t.height t.root with _ | o
    · simp [ho] at hput
    refine ⟨_, _, room_of_put ho, ?_⟩
    rintro s hs
    cases o with
    | done S' n' => cases hs
    | split S' n' sep r =>
      cases hs
      rw [ho] at hput
      by_contra hcon
      rw [not_and_or] at hcon
      rcases hcon with hfit | hn
      · simp [hfit] at hput
      · have hn' : L.idLimit < n' := not_le.mp hn
        simp [hn'] at hput

end SeerDb.Lib
