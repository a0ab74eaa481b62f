/-
# `SeerDb.Lib.BPlusTree` — an ordered map kept in pages

A store maps page ids to pages.  A leaf page holds bindings, an inner page a leftmost child
and `(separator, child)` pairs; which lists fit on a page is a parameter (`Layout`).

`Rep L S h lo hi p es ps`: page `p` roots a subtree of uniform height `h` over
the range `[lo, hi)`, holding the bindings `es` in the pages `ps`.

`put` is the textbook recursion: down to the leaf, splits handed back up.  `put_spec`
says that the bindings afterwards are `upsert` of the bindings before, and the pages the
old ones and the freshly numbered ones, each once.
-/
import SeerDb.Lib.SepChain

namespace SeerDb.Lib

open List

variable {K V : Type} {n' : Nat} {ps ps' : List Nat}

inductive Page (K V : Type) where
  | leaf (entries : List (K × V))
  | inner (leftmost : Nat) (children : List (K × Nat))
deriving DecidableEq, Repr

abbrev Store (K V : Type) := Nat → Option (Page K V)

def Store.set (S : Store K V) (p : Nat) (b : Page K V) : Store K V := Function.update S p (some b)

@[simp] theorem Store.set_self (S : Store K V) (p : Nat) (b : Page K V) : S.set p b p = some b := by
  simp [Store.set]

theorem Store.set_ne (S : Store K V) {p q : Nat} (b : Page K V) (h : q ≠ p) :
    S.set p b q = S q := by
  simp [Store.set, h]

/-- The pages `ps` of a subtree became `ps'`: the old ones and the ids from `n` to
`n'`, each once; no other page was touched. -/
structure Grown (S S' : Store K V) (n n' : Nat) (ps ps' : List Nat) : Prop where
  le : n ≤ n'
  perm : ps'.Perm (ps ++ List.range' n (n' - n))
  frame : ∀ q, q ∉ ps → (q < n ∨ n' ≤ q) → S' q = S q

theorem Grown.mem {S S' : Store K V} {n : Nat} (g : Grown S S' n n' ps ps')
    {q : Nat} : q ∈ ps' ↔ q ∈ ps ∨ (n ≤ q ∧ q < n') := by
  have h := g.le
  rw [g.perm.mem_iff, mem_append, mem_range'_1]
  constructor <;> rintro (h | h) <;> first | exact .inl h | exact .inr (by omega)

theorem Grown.nodup {S S' : Store K V} {n : Nat} (g : Grown S S' n n' ps ps')
    (hn : ps.Nodup) (hlt : ∀ q ∈ ps, q < n) : ps'.Nodup := by
  rw [g.perm.nodup_iff, nodup_append]
  refine ⟨hn, nodup_range', ?_⟩
  intro a ha b hb
  have := hlt a ha
  have := mem_range'_1.mp hb
  omega

theorem Grown.lt {S S' : Store K V} {n : Nat} (g : Grown S S' n n' ps ps')
    (hlt : ∀ q ∈ ps, q < n) : ∀ q ∈ ps', q < n' := by
  intro q hq
  rcases g.mem.mp hq with h | h
  · exact (hlt q h).trans_le g.le
  · exact h.2

/-- The pages a child grew into are not the parent and not yet numbered ones. -/
theorem grown_pages_ne {S S' T : Store K V} {n p : Nat} {pleft pmid pright q : List Nat}
    (g : Grown S S' n n' pmid q)
    (hn : (p :: (pleft ++ pmid ++ pright)).Nodup)
    (hlt : ∀ x ∈ p :: (pleft ++ pmid ++ pright), x < n)
    (hT : ∀ x, x ≠ p → x < n' → T x = S' x) : ∀ x ∈ q, T x = S' x := by
  intro x hx
  have hmid : ∀ y ∈ pmid, y < n := fun y hy => hlt y (by simp [hy])
  refine hT x ?_ (g.lt hmid x hx)
  rintro rfl
  rcases g.mem.mp hx with hm | hm
  · exact (nodup_cons.mp hn).1 (by simp [hm])
  · exact absurd (hlt x (by simp)) (by omega)

/-- Replacing the middle of a page list by a grown one. -/
theorem perm_hole {A M B Q R : List Nat} (h : Q.Perm (M ++ R)) :
    (A ++ Q ++ B).Perm (A ++ M ++ B ++ R) := by
  have h1 : (A ++ Q ++ B).Perm (A ++ (M ++ R) ++ B) :=
    ((List.Perm.refl A).append h).append (List.Perm.refl B)
  refine h1.trans ?_
  simp only [append_assoc]
  exact ((@perm_append_comm _ R B).append_left M).append_left A

/-- What fits on a page.  Dropping entries never makes a page overflow. -/
structure Layout (K V : Type) where
  leafFits : List (K × V) → Bool
  innerFits : List (K × Nat) → Bool
  /-- the largest page id -/
  idLimit : Nat
  leafFits_sublist : ∀ {l r : List (K × V)}, l.Sublist r → leafFits r → leafFits l
  innerFits_sublist : ∀ {l r : List (K × Nat)}, l.Sublist r → innerFits r → innerFits l

variable [LinearOrder K]

/-- Page `p` roots a subtree of height `h` over `[lo, hi)` that holds `es` in the pages `ps`. -/
def Rep (L : Layout K V) (S : Store K V) : Nat → PagePred K V Nat
  | 0 => fun lo hi p es ps =>
    S p = some (.leaf es) ∧ Sorted es ∧ (∀ x ∈ es, InRange lo hi x.1) ∧ L.leafFits es ∧ ps = [p]
  | h + 1 => fun lo hi p es ps =>
    ∃ l cs q, S p = some (.inner l cs) ∧ L.innerFits cs ∧
      Chain (Rep L S h) lo hi l cs es q ∧ ps = p :: q

section Rep

variable {L : Layout K V} {S S' : Store K V}

theorem Rep.bindings : ∀ {h lo hi p es ps}, Rep L S h lo hi p es ps →
    Sorted es ∧ ∀ x ∈ es, InRange lo hi x.1
  | 0, _, _, _, _, _, h => ⟨h.2.1, h.2.2.1⟩
  | h + 1, _, _, _, _, _, hr => by
    obtain ⟨l, cs, q, -, -, hc, -⟩ := hr
    exact hc.bindings fun _ _ _ _ _ hp => Rep.bindings hp

theorem Rep.root_mem {h : Nat} {lo : WithBot K} {hi : WithTop K} {p : Nat}
    {es : List (K × V)} (hr : Rep L S h lo hi p es ps) : p ∈ ps := by
  cases h with
  | zero => simp [hr.2.2.2.2]
  | succ h => obtain ⟨l, cs, q, -, -, -, rfl⟩ := hr; simp

/-- A subtree only reads its own pages. -/
theorem Rep.congr : ∀ {h lo hi p es ps}, Rep L S h lo hi p es ps →
    (∀ q ∈ ps, S' q = S q) → Rep L S' h lo hi p es ps
  | 0, _, _, p, _, _, hr, hS => by
    obtain ⟨h1, h2, h3, h4, rfl⟩ := hr
    exact ⟨by rw [hS p (by simp), h1], h2, h3, h4, rfl⟩
  | h + 1, _, _, p, _, _, hr, hS => by
    obtain ⟨l, cs, q, h1, h2, h3, rfl⟩ := hr
    refine ⟨l, cs, q, by rw [hS p (by simp), h1], h2, ?_, rfl⟩
    exact h3.mono fun _ _ _ _ _ hp hq =>
      hp.congr fun x hx => hS x (.tail _ (hq hx))

end Rep

/-! ## Writing -/

/-- Cut a page in two at its middle entry. -/
def halve {β : Type} (es : List β) : Option (List β × β × List β) :=
  if es.length < 2 then none
  else match es.drop (es.length / 2) with
    | m :: right => some (es.take (es.length / 2), m, right)
    | [] => none

theorem halve_eq {β : Type} {es l r : List β} {m : β} (h : halve es = some (l, m, r)) :
    es = l ++ m :: r ∧ l.length = es.length / 2 ∧ 2 ≤ es.length := by
  rw [halve] at h
  split at h
  · cases h
  rename_i hlen
  split at h
  · rename_i m' r' hd
    cases h
    refine ⟨?_, by simp; omega, by omega⟩
    rw [← hd, take_append_drop]
  · cases h

/-- How a subtree took a binding: in place, or by splitting its root, the new
right half starting at `sep` in page `right`.  `next` is the next free page id. -/
inductive Outcome (K V : Type) where
  | done (S : Store K V) (next : Nat)
  | split (S : Store K V) (next : Nat) (sep : K) (right : Nat)

section Put

variable (L : Layout K V)

/-- Write a binding into leaf page `p`, halving the page when it is full. -/
def putLeaf (S : Store K V) (n : Nat) (k : K) (v : V) (p : Nat) (es : List (K × V)) :
    Option (Outcome K V) :=
  if L.leafFits (upsert k v es) then some (.done (S.set p (.leaf (upsert k v es))) n)
  else match halve (erase k es) with
    | none => none
    | some (left, m, right) =>
      if L.idLimit < n then none
      else if k < m.1 then
        if L.leafFits (upsert k v left) then
          some (.split ((S.set p (.leaf (upsert k v left))).set n (.leaf (m :: right)))
            (n + 1) m.1 n)
        else none
      else if L.leafFits (upsert k v (m :: right)) then
        some (.split ((S.set p (.leaf left)).set n (.leaf (upsert k v (m :: right)))) (n + 1) m.1 n)
      else none

/-- Take a child's new right half into inner page `p`, halving the page when it
is full; the middle separator moves up. -/
def absorb (S : Store K V) (n : Nat) (p l : Nat) (cs : List (K × Nat)) (sep : K) (r : Nat) :
    Option (Outcome K V) :=
  if L.innerFits (upsert sep r cs) then some (.done (S.set p (.inner l (upsert sep r cs))) n)
  else match halve cs with
    | none => none
    | some (left, m, right) =>
      if L.idLimit < n then none
      else if sep < m.1 then
        if L.innerFits (upsert sep r left) then
          some (.split ((S.set p (.inner l (upsert sep r left))).set n (.inner m.2 right))
            (n + 1) m.1 n)
        else none
      else if L.innerFits (upsert sep r right) then
        some (.split ((S.set p (.inner l left)).set n (.inner m.2 (upsert sep r right)))
          (n + 1) m.1 n)
      else none

/-- Write a binding into the subtree of height `h` under page `p`. -/
def put (S : Store K V) (n : Nat) (k : K) (v : V) : Nat → Nat → Option (Outcome K V)
  | 0, p => match S p with
    | some (.leaf es) => putLeaf L S n k v p es
    | _ => none
  | h + 1, p => match S p with
    | some (.inner l cs) =>
      match put S n k v h (route k l cs) with
      | some (.split S' n' sep r) => absorb L S' n' p l cs sep r
      | o => o
    | _ => none

end Put

/-! ## What a write does -/

/-- What an outcome promises about the subtree under `p`. -/
def Outcome.Ok (L : Layout K V) (S : Store K V) (n h : Nat) (lo : WithBot K) (hi : WithTop K)
    (p : Nat) (es : List (K × V)) (ps : List Nat) : Outcome K V → Prop
  | .done S' n' => ∃ ps', Rep L S' h lo hi p es ps' ∧ Grown S S' n n' ps ps'
  | .split S' n' sep r =>
    lo < (sep : WithBot K) ∧ (sep : WithTop K) < hi ∧
      ∃ e₁ e₂ q₁ q₂, Rep L S' h lo sep p e₁ q₁ ∧ Rep L S' h sep hi r e₂ q₂ ∧
        es = e₁ ++ e₂ ∧ Grown S S' n n' ps (q₁ ++ q₂)

variable {L : Layout K V} {S : Store K V} {n : Nat} {k : K} {v : V}

theorem putLeaf_spec {lo : WithBot K} {hi : WithTop K} {p : Nat} {es : List (K × V)}
    (hs : Sorted es) (hr : ∀ x ∈ es, InRange lo hi x.1) (hk : InRange lo hi k)
    (hf : L.leafFits es) (hp : p < n) {o : Outcome K V} (ho : putLeaf L S n k v p es = some o) :
    o.Ok L S n 0 lo hi p (upsert k v es) [p] := by
  have hup : ∀ {l : List (K × V)}, Sorted l → (∀ x ∈ l, x ∈ es) → ∀ x ∈ upsert k v l,
    InRange lo hi x.1 := by
    intro l hl hle x hx
    rcases (mem_upsert hl).mp hx with rfl | ⟨hx, -⟩
    · exact hk
    · exact hr x (hle x hx)
  rw [putLeaf] at ho
  split at ho
  · -- the page has room
    rename_i hfit
    cases ho
    refine ⟨[p], ⟨by simp, sorted_upsert hs, hup hs (fun _ h => h), hfit, rfl⟩, le_rfl, by simp, ?_⟩
    intro q hq _
    exact Store.set_ne _ _ (by simpa using hq)
  split at ho
  · cases ho
  rename_i left m right hh
  obtain ⟨hes, hlen, h2⟩ := halve_eq hh
  have hsE := sorted_erase (k := k) hs
  have hsub : ∀ x ∈ left ++ m :: right, x ∈ es := fun x hx => (mem_erase.mp (hes ▸ hx)).1
  rw [hes] at hsE
  obtain ⟨hsL, hsR, hcross⟩ := sorted_append.mp hsE
  have hfE : L.leafFits (left ++ m :: right) := L.leafFits_sublist (hes ▸ filter_sublist) hf
  have hups : upsert k v es = upsert k v (left ++ m :: right) := by rw [← hes, upsert_erase hs]
  have hmk : m.1 ≠ k := (mem_erase.mp (hes ▸ mem_append_right left (.head _))).2
  have hmhi : (m.1 : WithTop K) < hi := (hr m (hsub m (by simp))).2
  -- the left half is not empty, so the separator is above `lo`
  have hlom : lo < (m.1 : WithBot K) := by
    cases left with
    | nil => simp at hlen; omega
    | cons a left =>
      exact (hr a (hsub a (by simp))).1.trans_lt
        (WithBot.coe_lt_coe.mpr (hcross a (by simp) m (by simp)))
  have hLm : ∀ x ∈ left, InRange lo (m.1 : WithTop K) x.1 := fun x hx =>
    ⟨(hr x (hsub x (mem_append_left _ hx))).1, WithTop.coe_lt_coe.mpr (hcross x hx m (by simp))⟩
  have hmR : ∀ x ∈ m :: right, InRange (m.1 : WithBot K) hi x.1 := by
    intro x hx
    refine ⟨?_, (hr x (hsub x (mem_append_right _ hx))).2⟩
    rcases mem_cons.mp hx with rfl | hx'
    · exact le_rfl
    · exact WithBot.coe_le_coe.mpr ((sorted_cons.mp hsR).1 x hx').le
  have hpn : p ≠ n := hp.ne
  have hgrown : ∀ b c : Page K V, Grown S ((S.set p b).set n c) n (n + 1) [p] ([p] ++ [n]) := by
    intro b c
    refine ⟨by omega, by simp, ?_⟩
    intro q hq hqn
    have hqp : q ≠ p := by simpa using hq
    rw [Store.set_ne _ _ (by omega), Store.set_ne _ _ hqp]
  split at ho
  · cases ho
  split at ho
  · rename_i hkm
    split at ho
    · rename_i hfit
      cases ho
      refine ⟨hlom, hmhi, upsert k v left, m :: right, [p], [n], ?_, ?_, ?_, hgrown _ _⟩
      · refine ⟨by rw [Store.set_ne _ _ hpn, Store.set_self], sorted_upsert hsL, ?_, hfit, rfl⟩
        intro x hx
        rcases (mem_upsert hsL).mp hx with rfl | ⟨hx, -⟩
        · exact ⟨hk.1, WithTop.coe_lt_coe.mpr hkm⟩
        · exact hLm x hx
      · exact ⟨by simp, hsR, hmR, L.leafFits_sublist (sublist_append_right _ _) hfE, rfl⟩
      · rw [hups]
        refine upsert_append_of_lt ?_
        intro e he
        rcases mem_cons.mp he with rfl | he
        · exact hkm
        · exact hkm.trans ((sorted_cons.mp hsR).1 e he)
    · cases ho
  · rename_i hkm
    have hmk' : m.1 < k := lt_of_le_of_ne (not_lt.mp hkm) hmk
    split at ho
    · rename_i hfit
      cases ho
      refine ⟨hlom, hmhi, left, upsert k v (m :: right), [p], [n], ?_, ?_, ?_, hgrown _ _⟩
      · exact ⟨by rw [Store.set_ne _ _ hpn, Store.set_self], hsL, hLm,
          L.leafFits_sublist (sublist_append_left _ _) hfE, rfl⟩
      · refine ⟨by simp, sorted_upsert hsR, ?_, hfit, rfl⟩
        intro x hx
        rcases (mem_upsert hsR).mp hx with rfl | ⟨hx, -⟩
        · exact ⟨WithBot.coe_le_coe.mpr hmk'.le, hk.2⟩
        · exact hmR x hx
      · rw [hups]
        exact upsert_append_of_gt fun e he => (hcross e he m (by simp)).trans hmk'
    · cases ho

section Inner

variable {h : Nat} {lo lo' : WithBot K} {hi hi' : WithTop K} {p l : Nat} {cs : List (K × Nat)}
  {left right : List (K × V)} {pleft pmid pright : List Nat}

/-- The pages of the siblings of the child being written keep their contents. -/
theorem hole_siblings {S' T : Store K V} {q : List Nat} (g : Grown S S' n n' pmid q)
    (hn : (p :: (pleft ++ pmid ++ pright)).Nodup) (hlt : ∀ x ∈ pleft ++ pmid ++ pright, x < n)
    (hT : ∀ x, x ≠ p → x < n' → T x = S' x) :
    ∀ a b c e r, Rep L S h a b c e r → r ⊆ pleft ++ pright → Rep L T h a b c e r := by
  intro a b c e r hc hr
  refine hc.congr fun x hx => ?_
  have hx' : x ∈ pleft ∨ x ∈ pright := mem_append.mp (hr hx)
  have hmem : x ∈ pleft ++ pmid ++ pright := by simp only [mem_append]; tauto
  have hxn : x < n := hlt x hmem
  have hxp : x ≠ p := fun he => (nodup_cons.mp hn).1 (he ▸ hmem)
  have hxm : x ∉ pmid := by
    have hd := (nodup_cons.mp hn).2
    simp only [nodup_append, mem_append] at hd
    intro hm
    rcases hx' with h | h
    · exact hd.1.2.2 x h x hm rfl
    · exact hd.2.2 x (.inr hm) x h rfl
  rw [hT x hxp (hxn.trans_le g.le), g.frame x hxm (.inl hxn)]

theorem put_done_spec (H : Hole (Rep L S h) lo hi l cs k lo' hi' left right pleft pright)
    {mid : List (K × V)} (hpage : S p = some (.inner l cs)) (hf : L.innerFits cs)
    (hn : (p :: (pleft ++ pmid ++ pright)).Nodup)
    (hlt : ∀ x ∈ p :: (pleft ++ pmid ++ pright), x < n)
    {S' : Store K V}
    (ho : (Outcome.done S' n').Ok L S n h lo' hi' (route k l cs) (upsert k v mid) pmid) :
    (Outcome.done S' n').Ok L S n (h + 1) lo hi p (upsert k v (left ++ mid ++ right))
      (p :: (pleft ++ pmid ++ pright)) := by
  obtain ⟨q, hq, g⟩ := ho
  have hpm : p ∉ pmid := fun hm => (nodup_cons.mp hn).1 (by simp [hm])
  have hlt' : ∀ x ∈ pleft ++ pmid ++ pright, x < n := fun x hx => hlt x (.tail _ hx)
  refine ⟨p :: (pleft ++ q ++ pright), ⟨l, cs, _, ?_, hf, ?_, rfl⟩, g.le, ?_, ?_⟩
  · rw [g.frame p hpm (.inl (hlt p (by simp))), hpage]
  · rw [upsert_append_of_lt H.above, upsert_append_of_gt H.below]
    exact H.fill _ (hole_siblings g hn hlt' (fun _ _ _ => rfl)) _ _ hq
  · rw [cons_append]
    exact (perm_hole g.perm).cons p
  · intro x hx hxn
    exact g.frame x (fun hm => hx (by simp [hm])) hxn

theorem absorb_spec (H : Hole (Rep L S h) lo hi l cs k lo' hi' left right pleft pright)
    {mid : List (K × V)} (hpage : S p = some (.inner l cs)) (hf : L.innerFits cs)
    (hcs : Sorted cs)
    (hn : (p :: (pleft ++ pmid ++ pright)).Nodup)
    (hlt : ∀ x ∈ p :: (pleft ++ pmid ++ pright), x < n)
    {S' : Store K V} {sep : K} {r : Nat}
    (hs : (Outcome.split S' n' sep r).Ok L S n h lo' hi' (route k l cs) (upsert k v mid) pmid)
    {o : Outcome K V} (ho : absorb L S' n' p l cs sep r = some o) :
    o.Ok L S n (h + 1) lo hi p (upsert k v (left ++ mid ++ right))
      (p :: (pleft ++ pmid ++ pright)) := by
  obtain ⟨hlos, hshi, e₁, e₂, q₁, q₂, hq₁, hq₂, hes, g⟩ := hs
  have hpn : p < n := hlt p (by simp)
  have hlt' : ∀ x ∈ pleft ++ pmid ++ pright, x < n := fun x hx => hlt x (.tail _ hx)
  have hbind : upsert k v (left ++ mid ++ right) = left ++ (e₁ ++ e₂) ++ right := by
    rw [upsert_append_of_lt H.above, upsert_append_of_gt H.below, hes]
  -- the children's chain over any store that keeps the pages below `p`
  have hchain : ∀ T : Store K V, (∀ x, x ≠ p → x < n' → T x = S' x) →
      Chain (Rep L T h) lo hi l (upsert sep r cs) (left ++ (e₁ ++ e₂) ++ right)
        (pleft ++ (q₁ ++ q₂) ++ pright) := by
    intro T hT
    have hne := grown_pages_ne g hn hlt hT
    refine H.fillTwo _ (hole_siblings g hn hlt' hT) sep r e₁ e₂ q₁ q₂ hlos hshi ?_ ?_
    · exact hq₁.congr fun x hx => hne x (mem_append_left _ hx)
    · exact hq₂.congr fun x hx => hne x (mem_append_right _ hx)
  have hperm : (p :: (pleft ++ (q₁ ++ q₂) ++ pright)).Perm
      (p :: (pleft ++ pmid ++ pright) ++ List.range' n (n' - n)) := by
    rw [cons_append]
    exact (perm_hole g.perm).cons p
  have hframe : ∀ x, x ∉ p :: (pleft ++ pmid ++ pright) → (x < n ∨ n' ≤ x) → S' x = S x :=
    fun x hx hxn => g.frame x (fun hm => hx (by simp [hm])) hxn
  have hsepne : ∀ x ∈ cs, x.1 ≠ sep := by
    rintro x hx rfl
    rcases H.outside x hx with h | h
    · exact absurd hlos (not_lt.mpr h)
    · exact absurd hshi (not_lt.mpr h)
  rw [absorb] at ho
  split at ho
  · rename_i hfit
    cases ho
    rw [hbind]
    refine ⟨_, ⟨l, _, _, Store.set_self .., hfit, hchain _ ?_, rfl⟩, g.le, hperm, ?_⟩
    · intro x hx _; exact Store.set_ne _ _ hx
    · intro x hx hxn
      rw [Store.set_ne _ _ (fun he => hx (by simp [he])), hframe x hx hxn]
  split at ho
  · cases ho
  rename_i cl m cr hh
  obtain ⟨hcs', hlen, h2⟩ := halve_eq hh
  subst hcs'
  obtain ⟨hsL, hsR, hcross⟩ := sorted_append.mp hcs
  have hgrown : ∀ (b c : Page K V) {Q₁ Q₂ : List Nat}, pleft ++ (q₁ ++ q₂) ++ pright = Q₁ ++ Q₂ →
      Grown S ((S'.set p b).set n' c) n (n' + 1) (p :: (pleft ++ pmid ++ pright))
        (p :: Q₁ ++ n' :: Q₂) := by
    intro b c Q₁ Q₂ hQ
    have hle := g.le
    refine ⟨by omega, ?_, ?_⟩
    · have hr : List.range' n (n' + 1 - n) = List.range' n (n' - n) ++ [n'] := by
        rw [show n' + 1 - n = (n' - n) + 1 by omega, List.range'_concat]
        simp [show n + (n' - n) = n' by omega]
      rw [hr, ← append_assoc]
      refine perm_middle.trans ?_
      rw [cons_append, ← hQ]
      exact (hperm.cons n').trans (perm_append_singleton n' _).symm
    · intro x hx hxn
      rw [Store.set_ne _ _ (by omega), Store.set_ne _ _ (fun he => hx (by simp [he]))]
      exact hframe x hx (by omega)
  have hT : ∀ b c : Page K V, ∀ x, x ≠ p → x < n' → ((S'.set p b).set n' c) x = S' x := by
    intro b c x hx hxn
    rw [Store.set_ne _ _ (by omega), Store.set_ne _ _ hx]
  have hpn' : p ≠ n' := by have := g.le; omega
  have hself : ∀ b c : Page K V, ((S'.set p b).set n' c) p = some b := by
    intro b c; rw [Store.set_ne _ _ hpn', Store.set_self]
  split at ho
  · cases ho
  split at ho
  · rename_i hsm
    split at ho
    · rename_i hfit
      cases ho
      have hup : upsert sep r (cl ++ m :: cr) = upsert sep r cl ++ m :: cr := by
        refine upsert_append_of_lt ?_
        intro e he
        rcases mem_cons.mp he with rfl | he
        · exact hsm
        · exact hsm.trans ((sorted_cons.mp hsR).1 e he)
      have hc := hchain _ (hT (.inner l (upsert sep r cl)) (.inner m.2 cr))
      rw [hup] at hc
      obtain ⟨hlom, hmhi, f₁, f₂, Q₁, Q₂, hc₁, hc₂, hff, hQ⟩ := chain_append hc
      refine ⟨hlom, hmhi, f₁, f₂, p :: Q₁, n' :: Q₂, ?_, ?_, by rw [hbind, hff], hgrown _ _ hQ⟩
      · exact ⟨l, _, Q₁, hself _ _, hfit, hc₁, rfl⟩
      · exact ⟨m.2, cr, Q₂, by simp, L.innerFits_sublist (by simp) hf, hc₂, rfl⟩
    · cases ho
  · rename_i hsm
    have hms : m.1 < sep := lt_of_le_of_ne (not_lt.mp hsm) (hsepne m (by simp))
    split at ho
    · rename_i hfit
      cases ho
      have hup : upsert sep r (cl ++ m :: cr) = cl ++ m :: upsert sep r cr := by
        rw [upsert_append_of_gt fun e he => (hcross e he m (by simp)).trans hms, upsert,
          if_neg (not_lt.mpr hms.le), if_neg (ne_of_gt hms)]
      have hc := hchain _ (hT (.inner l cl) (.inner m.2 (upsert sep r cr)))
      rw [hup] at hc
      obtain ⟨hlom, hmhi, f₁, f₂, Q₁, Q₂, hc₁, hc₂, hff, hQ⟩ := chain_append hc
      refine ⟨hlom, hmhi, f₁, f₂, p :: Q₁, n' :: Q₂, ?_, ?_, by rw [hbind, hff], hgrown _ _ hQ⟩
      · exact ⟨l, cl, Q₁, hself _ _, L.innerFits_sublist (by simp) hf, hc₁, rfl⟩
      · exact ⟨m.2, _, Q₂, by simp, hfit, hc₂, rfl⟩
    · cases ho

end Inner

/-- **Writing one binding.** The subtree afterwards holds `upsert k v` of what it
held, in the old pages and the freshly numbered ones. -/
theorem put_spec : ∀ {h lo hi p es ps o}, Rep L S h lo hi p es ps →
    InRange lo hi k → ps.Nodup → (∀ q ∈ ps, q < n) → put L S n k v h p = some o →
    o.Ok L S n h lo hi p (upsert k v es) ps
  | 0, lo, hi, p, es, ps, o, hr, hk, hn, hlt, ho => by
    obtain ⟨h1, h2, h3, h4, rfl⟩ := hr
    rw [put, h1] at ho
    exact putLeaf_spec h2 h3 hk h4 (hlt p (by simp)) ho
  | h + 1, lo, hi, p, es, ps, o, hr, hk, hn, hlt, ho => by
    obtain ⟨l, cs, q, h1, h2, h3, rfl⟩ := hr
    obtain ⟨lo', hi', left, mid, right, pleft, pmid, pright, rfl, rfl, hc, H⟩ :=
      h3.route_spec (fun _ _ _ _ _ hp => Rep.bindings hp) hk
    have hnm : pmid.Nodup := by
      have := (nodup_cons.mp hn).2
      simp only [nodup_append] at this
      exact this.1.2.1
    have hltm : ∀ x ∈ pmid, x < n := fun x hx => hlt x (by simp [hx])
    rw [put, h1] at ho
    simp only at ho
    split at ho
    · rename_i S' n' sep r hput
      exact absorb_spec H h1 h2 h3.seps.1 hn hlt (put_spec hc H.range hnm hltm hput) ho
    rename_i hput
    have := put_spec hc H.range hnm hltm ho
    cases o with
    | done S' n' => exact put_done_spec H h1 h2 hn hlt this
    | split S' n' sep r => exact absurd ho (hput S' n' sep r)

end SeerDb.Lib
