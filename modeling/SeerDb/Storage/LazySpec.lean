/-
# `SeerDb.Storage.LazySpec` — reads over stored pages

The traversals of `lazy_read.rs` over any tree whose keys lie where routing looks
for them (`Lib.LooseTree`): a lookup finds the first entry of its key, a scan goes
through the leaves in order, whatever parents the pages record, and shows the first
entry of each key it passes.
-/
import SeerDb.Storage.Pages
import SeerDb.Btree.ScanSpec

namespace SeerDb

open Lib List

/-! ## Descents -/

namespace Lazy

section Descent

variable {page : PageId → Except Error Node} {S : Store Bytes Value}

/-- The descent ends at the leaf the key is routed to. -/
theorem findLeafPage_eq (hR : Reads page S) (key : Bytes) :
    ∀ {h fuel p lo hi visited}, Bounded S h lo hi p →
    (pagesOf S h p).Nodup → (∀ a ∈ visited, a ∉ pagesOf S h p) →
    (∀ q ∈ pagesOf S h p, q ≤ u32Max) → h < fuel →
    findLeafPage page key fuel p visited = .ok (routeLeaf S key h p)
  | _, 0, _, _, _, _, _, _, _, _, hlt => absurd hlt (Nat.not_lt_zero _)
  | h, fuel + 1, p, lo, hi, visited, hb, hn, hv, hlim, hlt => by
    have hpv : p ∉ visited := fun hm => hv p hm (self_mem_pagesOf S h p)
    rw [findLeafPage, if_neg hpv]
    rcases hb.cases with ⟨es, hp, -⟩ | ⟨h, l, cs, rfl, hp, hcs⟩
    · obtain ⟨m, hm, hbody⟩ := hR.complete p _ hp
      have hroute : routeLeaf S key h p = p := by cases h <;> simp [routeLeaf, hp]
      simp [hm, Node.isLeaf_leaf hbody, hroute]
    obtain ⟨m, hm, hbody⟩ := hR.complete p _ hp
    have hchild : route key l cs ∈ l :: cs.map Prod.snd := route_mem key l cs
    have hmem : ∀ y ∈ pagesOf S h (route key l cs), y ∈ pagesOf S (h + 1) p :=
      pagesOf_child hp hchild
    obtain ⟨hpq, hnq⟩ := nodup_child hp hn hchild
    obtain ⟨a, b, hc⟩ := hcs.child _ hchild
    have hv' : ∀ a ∈ p :: visited, a ∉ pagesOf S h (route key l cs) := by
      intro a ha hal
      rcases mem_cons.mp ha with rfl | ha
      · exact hpq hal
      · exact hv a ha (hmem a hal)
    have hwide : ¬ route key l cs > u32Max := not_lt.mpr (hlim _ (hmem _ (self_mem_pagesOf S h _)))
    have ih := findLeafPage_eq hR key hc hnq hv' (fun y hy => hlim y (hmem y hy))
      (Nat.lt_of_succ_lt_succ hlt)
    simp only [hm, Node.isLeaf_inner hbody, Bool.false_eq_true, if_false,
      Node.childForKey_ordered hbody hcs.separators.1, if_neg hwide, ih, routeLeaf, hp]

end Descent

/-! ## One leaf -/

/-- What a scan shows of the entries in front of it, when `previous` is the last key it
has seen: the end of the range ends it, and a key is looked at once. -/
def scanned (start end_ : Bytes) :
    Option Bytes → List (Bytes × Value) → List (Bytes × LookupResult)
  | _, [] => []
  | previous, (key, value) :: rest =>
    if end_ ≤ key then []
    else if key < start then scanned start end_ previous rest
    else if previous = some key then scanned start end_ previous rest
    else (shown (key, value)).toList ++ scanned start end_ (some key) rest

theorem scanLeaf_eq {n : Node} {es : List (Bytes × Value)} (hb : n.body = .leaf es)
    (start end_ : Bytes) : ∀ {fuel index : Nat} {s : LeafScan}, es.length - index ≤ fuel →
    s.finished = false →
    ∃ s', scanLeaf n start end_ fuel index s = .ok s' ∧ ∀ rest,
      s.results ++ scanned start end_ s.previousKey (es.drop index ++ rest) =
        s'.results ++ if s'.finished then [] else scanned start end_ s'.previousKey rest
  | 0, index, s, hle, hfin => by
    have hdrop : es.drop index = [] := drop_eq_nil_iff.mpr (by omega)
    exact ⟨s, rfl, fun rest => by simp [hdrop, hfin]⟩
  | fuel + 1, index, s, hle, hfin => by
    rw [scanLeaf, Node.count_leaf hb]
    by_cases hend : index ≥ es.length
    · have hdrop : es.drop index = [] := drop_eq_nil_iff.mpr hend
      rw [if_pos hend]
      exact ⟨s, rfl, fun rest => by simp [hdrop, hfin]⟩
    have hlt : index < es.length := not_le.mp hend
    obtain ⟨⟨key, value⟩, hget⟩ : ∃ e, es[index]? = some e := ⟨_, List.getElem?_eq_getElem hlt⟩
    have hdrop : es.drop index = (key, value) :: es.drop (index + 1) := by
      rw [drop_eq_getElem_cons hlt]
      rw [List.getElem?_eq_getElem hlt, Option.some.injEq] at hget
      rw [hget]
    have hkey : n.key index = some key := by simp [Node.key, Node.keys_leaf hb, hget]
    have hvalue : n.value index = some value := by simp [Node.value, hb, hget]
    have hfuel : es.length - (index + 1) ≤ fuel := by omega
    rw [if_neg hend, hkey]
    simp only [ge_iff_le]
    rw [hdrop]
    simp only [cons_append, scanned]
    by_cases hover : end_ ≤ key
    · exact ⟨_, by rw [if_pos hover], fun rest => by simp [hover]⟩
    rw [if_neg hover]
    by_cases hbefore : key < start
    · rw [if_pos hbefore]
      obtain ⟨s', hs', heq⟩ := scanLeaf_eq hb start end_ hfuel hfin
      exact ⟨s', hs', fun rest => by rw [if_neg hover, if_pos hbefore]; exact heq rest⟩
    rw [if_neg hbefore]
    by_cases hseen : s.previousKey = some key
    · rw [if_pos hseen]
      obtain ⟨s', hs', heq⟩ := scanLeaf_eq hb start end_ hfuel hfin
      exact ⟨s', hs', fun rest => by
        rw [if_neg hover, if_neg hbefore, if_pos hseen]; exact heq rest⟩
    rw [if_neg hseen, hvalue]
    -- the entry is looked at: a tombstone leaves only its key behind
    cases value with
    | tombstone =>
      obtain ⟨s', hs', heq⟩ := @scanLeaf_eq n es hb start end_ fuel (index + 1)
        { s with previousKey := some key } hfuel hfin
      refine ⟨s', hs', fun rest => ?_⟩
      rw [if_neg hover, if_neg hbefore, if_neg hseen]
      simpa [shown] using heq rest
    | inline data =>
      obtain ⟨s', hs', heq⟩ := @scanLeaf_eq n es hb start end_ fuel (index + 1)
        ⟨s.results ++ [(key, .found data)], some key, false⟩ hfuel rfl
      refine ⟨s', hs', fun rest => ?_⟩
      rw [if_neg hover, if_neg hbefore, if_neg hseen]
      simpa [shown, Value.toLookup] using heq rest
    | blob pointer =>
      obtain ⟨s', hs', heq⟩ := @scanLeaf_eq n es hb start end_ fuel (index + 1)
        ⟨s.results ++ [(key, .blob pointer)], some key, false⟩ hfuel rfl
      refine ⟨s', hs', fun rest => ?_⟩
      rw [if_neg hover, if_neg hbefore, if_neg hseen]
      simpa [shown, Value.toLookup] using heq rest

/-! ## The entries a scan shows -/

section Scanned

variable {start end_ : Bytes}

/-- The first entry of `k`, as a scan shows it. -/
def firstLive (es : List (Bytes × Value)) (k : Bytes) (r : LookupResult) : Prop :=
  ∃ v, get k es = some v ∧ shown (k, v) = some (k, r)

theorem shown_key {k k' : Bytes} {v : Value} {r : LookupResult}
    (h : (k', r) ∈ (shown (k, v)).toList) : k' = k ∧ shown (k, v) = some (k, r) := by
  rw [Option.mem_toList] at h
  cases v with
  | tombstone => cases h
  | inline data => cases h; exact ⟨rfl, rfl⟩
  | blob pointer => cases h; exact ⟨rfl, rfl⟩

/-- A scan of ordered entries shows the first entry of every key of its range, but not
the key it has already seen. -/
theorem mem_scanned : ∀ {es : List (Bytes × Value)} {previous : Option Bytes},
    es.Pairwise (fun a b => a.1 ≤ b.1) → (∀ p, previous = some p → ∀ e ∈ es, p ≤ e.1) →
    ∀ {k : Bytes} {r : LookupResult}, (k, r) ∈ scanned start end_ previous es ↔
      start ≤ k ∧ k < end_ ∧ previous ≠ some k ∧ firstLive es k r
  | [], _, _, _, k, r => by simp [scanned, firstLive, Lib.get]
  | (key, value) :: rest, previous, hpw, hprev, k, r => by
    obtain ⟨hle, hpw⟩ := pairwise_cons.mp hpw
    have hprev' : ∀ p, previous = some p → ∀ e ∈ rest, p ≤ e.1 := fun p hp e he =>
      hprev p hp e (.tail _ he)
    have hlater : k ≠ key → (firstLive ((key, value) :: rest) k r ↔ firstLive rest k r) := by
      intro hne
      have hget : Lib.get k ((key, value) :: rest) = Lib.get k rest :=
        get_append_of_ne_left (l := [(key, value)]) (by simpa using hne.symm)
      rw [firstLive, hget, firstLive]
    have hhere : firstLive ((key, value) :: rest) key r ↔ shown (key, value) = some (key, r) := by
      simp [firstLive, Lib.get]
    have hge : ∀ {r'}, firstLive rest k r' → key ≤ k := by
      rintro r' ⟨v, hv, -⟩
      exact hle (k, v) (mem_of_get hv)
    rw [scanned]
    by_cases hover : end_ ≤ key
    · rw [if_pos hover]
      constructor
      · intro h
        cases h
      · rintro ⟨-, hk, -, hfirst⟩
        have hne : k ≠ key := fun h => absurd (h ▸ hk) (not_lt.mpr hover)
        exact absurd (hover.trans (hge ((hlater hne).mp hfirst))) (not_le.mpr hk)
    rw [if_neg hover]
    by_cases hbefore : key < start
    · rw [if_pos hbefore, mem_scanned hpw hprev']
      refine and_congr_right fun hk => and_congr_right fun _ => and_congr_right fun _ => ?_
      exact (hlater (hbefore.trans_le hk).ne').symm
    rw [if_neg hbefore]
    by_cases hseen : previous = some key
    · rw [if_pos hseen, mem_scanned hpw hprev']
      refine and_congr_right fun hk => and_congr_right fun _ => and_congr_right fun hprev => ?_
      exact (hlater fun h => hprev (h ▸ hseen)).symm
    rw [if_neg hseen, mem_append, mem_scanned hpw fun p hp => Option.some.inj hp ▸ hle]
    by_cases hk : k = key
    · subst hk
      rw [hhere]
      constructor
      · rintro (h | ⟨-, -, hne, -⟩)
        · exact ⟨not_lt.mp hbefore, not_le.mp hover, hseen, (shown_key h).2⟩
        · exact absurd rfl hne
      · rintro ⟨-, -, -, h⟩
        exact .inl (by simp [h])
    rw [hlater hk]
    constructor
    · rintro (h | ⟨h1, h2, -, h3⟩)
      · exact absurd (shown_key h).1 hk
      · -- the key seen before is smaller than this one
        refine ⟨h1, h2, fun hp => hseen ?_, h3⟩
        have h4 : k ≤ key := hprev k hp _ (.head _)
        rw [hp, h4.antisymm (hge h3)]
    · rintro ⟨h1, h2, -, h3⟩
      exact .inr ⟨h1, h2, fun h => hk (Option.some.inj h).symm, h3⟩

/-- What a scan shows increases strictly, from the key it has seen on. -/
theorem scanned_sorted : ∀ {es : List (Bytes × Value)} {previous : Option Bytes},
    es.Pairwise (fun a b => a.1 ≤ b.1) → (∀ p, previous = some p → ∀ e ∈ es, p ≤ e.1) →
    Sorted (scanned start end_ previous es)
  | [], _, _, _ => by simp [scanned]
  | (key, value) :: rest, previous, hpw, hprev => by
    obtain ⟨hle, hpw⟩ := pairwise_cons.mp hpw
    have hprev' : ∀ p, previous = some p → ∀ e ∈ rest, p ≤ e.1 := fun p hp e he =>
      hprev p hp e (.tail _ he)
    have hkey : ∀ p, some key = some p → ∀ e ∈ rest, p ≤ e.1 := fun p hp =>
      Option.some.inj hp ▸ hle
    rw [scanned]
    split
    · exact sorted_nil
    split
    · exact scanned_sorted hpw hprev'
    split
    · exact scanned_sorted hpw hprev'
    refine sorted_append.mpr ⟨?_, scanned_sorted hpw hkey, ?_⟩
    · cases shown (key, value) <;> simp [Sorted]
    · rintro ⟨a, r⟩ ha ⟨b, r'⟩ hb
      obtain ⟨-, -, hne, v, hv, -⟩ := (mem_scanned hpw hkey).mp hb
      rw [(shown_key ha).1]
      exact lt_of_le_of_ne (hle (b, v) (mem_of_get hv)) fun h => hne (congrArg some h)

/-- Nothing is left out when no key repeats. -/
theorem scanned_eq_visible : ∀ {es : List (Bytes × Value)} {previous : Option Bytes}, Sorted es →
    (∀ p, previous = some p → ∀ e ∈ es, p < e.1) →
    scanned start end_ previous es = visible start end_ es
  | [], _, _, _ => rfl
  | (key, value) :: rest, previous, hs, hprev => by
    obtain ⟨hlt, hs⟩ := sorted_cons.mp hs
    have hprev' : ∀ p, previous = some p → ∀ e ∈ rest, p < e.1 := fun p hp e he =>
      hprev p hp e (.tail _ he)
    have hseen : previous ≠ some key := fun h => absurd (hprev key h _ (.head _)) (lt_irrefl _)
    rw [scanned, visible_cons]
    by_cases hover : end_ ≤ key
    · rw [if_pos hover, if_neg fun h => absurd h.2 (not_lt.mpr hover)]
      exact (visible_eq_nil fun b hb => hover.trans (hlt b hb).le).symm
    rw [if_neg hover]
    by_cases hbefore : key < start
    · rw [if_pos hbefore, if_neg fun h => absurd h.1 (not_le.mpr hbefore)]
      exact scanned_eq_visible hs hprev'
    · rw [if_neg hbefore, if_neg hseen, if_pos ⟨not_lt.mp hbefore, not_le.mp hover⟩]
      rw [scanned_eq_visible hs fun p hp => Option.some.inj hp ▸ hlt]

/-- An empty range shows nothing. -/
theorem scanned_empty (hend : end_ ≤ start) : ∀ {es : List (Bytes × Value)}
    {previous : Option Bytes}, scanned start end_ previous es = []
  | [], _ => rfl
  | (key, value) :: rest, previous => by
    rw [scanned]
    by_cases hover : end_ ≤ key
    · rw [if_pos hover]
    · rw [if_neg hover, if_pos ((not_le.mp hover).trans_le hend)]
      exact scanned_empty hend

/-- Entries below the range show nothing. -/
theorem scanned_append_of_lt {previous : Option Bytes} {A B : List (Bytes × Value)}
    (hA : ∀ e ∈ A, e.1 < start) :
    scanned start end_ previous (A ++ B) = scanned start end_ previous B := by
  rcases le_or_gt end_ start with hend | hend
  · rw [scanned_empty hend, scanned_empty hend]
  induction A with
  | nil => rfl
  | cons e A ih =>
    obtain ⟨key, value⟩ := e
    have hkey : key < start := hA _ (.head _)
    rw [cons_append, scanned, if_neg (not_le.mpr (hkey.trans hend)), if_pos hkey]
    exact ih fun x hx => hA x (.tail _ hx)

end Scanned

/-! ## From leaf to leaf -/

section Leaves

variable {page : PageId → Except Error Node} {S : Store Bytes Value} {height root depth : Nat}

/-- The outer loop reads the rest of its leaf and the leaves after it. -/
theorem scanLeaves_eq (hW : Scan.Walk page S height root depth) (start end_ : Bytes) :
    ∀ {fuel current index j up after es s}, PathTo S height root j current up after →
    S current = some (.leaf es) → s.finished = false → after.length < fuel →
    scanLeaves page depth root start end_ fuel current index s = .ok (s.results ++
        scanned start end_ s.previousKey (es.drop index ++ after.flatMap S.entries))
  | 0, _, _, _, _, _, _, _, _, _, _, hlt => absurd hlt (Nat.not_lt_zero _)
  | fuel + 1, current, index, j, up, after, es, s, hpath, hleaf, hfin, hlt => by
    obtain ⟨n, hn, hb⟩ := hW.reads.complete current _ hleaf
    obtain ⟨s', hs', heq⟩ := @scanLeaf_eq n es hb start end_ n.count index s
      (by rw [Node.count_leaf hb]; omega) hfin
    have hnext : Scan.nextLeaf page scanErrors page depth root current n.parentId =
        .ok after.head? := hW.nextLeaf_eq hW.reads hleaf hpath n.parentId
    rw [scanLeaves, hn]
    simp only [hs', heq]
    cases hdone : s'.finished with
    | true => simp
    | false =>
      simp only [Bool.false_eq_true, if_false, hnext]
      cases after with
      | nil => simp [scanned]
      | cons leaf after =>
        obtain ⟨j', up', es', hpath', hleaf'⟩ := hpath.next hW.tree hW.nodup hleaf
        simp only [List.head?_cons]
        rw [scanLeaves_eq hW start end_ hpath' hleaf' hdone (by simpa using hlt)]
        simp [Store.entries, hleaf']

end Leaves

end Lazy

/-! ## Legible trees -/

/-- A tree of all pages that can be read, with every key in bounds and fuel for every path. -/
structure Legible (page : PageId → Except Error Node) (S : Store Bytes Value)
    (height root depth : Nat) : Prop where
  bounded : Bounded S height ⊥ ⊤ root
  walk : Scan.Walk page S height root depth
  fits : (leavesUnder S height root).length ≤ depth

namespace Legible

variable {page : PageId → Except Error Node} {S : Store Bytes Value} {height root depth : Nat}

/-- The leaf a key is routed to, among the leaves. -/
theorem leaf (h : Legible page S height root depth) (key : Bytes) :
    ∃ leaf n es j up before after, Lazy.findLeafPage page key depth root [] = .ok leaf ∧
      page leaf = .ok n ∧ n.body = .leaf es ∧ es.Pairwise (fun a b => a.1 ≤ b.1) ∧
      S leaf = some (.leaf es) ∧ PathTo S height root j leaf up after ∧
      leavesUnder S height root = before ++ leaf :: after ∧
      (∀ e ∈ before.flatMap S.entries, e.1 < key) ∧ ∀ e ∈ after.flatMap S.entries, key < e.1 := by
  have hall : leavesUnder S height root = [] ++ leavesUnder S height root ++ [] := by simp
  obtain ⟨j, up, before, after, es, hpath, hleaf, hpw, hcut, hb, ha⟩ :=
    h.bounded.routed key PathTo.root hall (by simp) (by simp)
  obtain ⟨n, hn, hbody⟩ := h.walk.reads.complete _ _ hleaf
  have hfind : Lazy.findLeafPage page key depth root [] = .ok _ :=
    Lazy.findLeafPage_eq h.walk.reads key h.bounded h.walk.nodup (by simp) h.walk.limit h.walk.deep
  exact ⟨_, n, es, j, up, before, after, hfind, hn, hbody, hpw, hleaf, hpath, hcut, hb, ha⟩

/-- A leaf page of ordered entries, searched: the entries below the key, and whether the
key is the next one. -/
theorem search_ordered {n : Node} {es : List (Bytes × Value)} (hb : n.body = .leaf es)
    (hpw : es.Pairwise fun a b => a.1 ≤ b.1) (key : Bytes) :
    ∃ A B, es = A ++ B ∧ (∀ e ∈ A, e.1 < key) ∧
      ((n.search key = .error A.length ∧ ∀ e ∈ B, key < e.1) ∨
        ∃ v C, n.search key = .ok A.length ∧ B = (key, v) :: C) := by
  obtain ⟨A, B, rfl, hA, hB⟩ := ordered_cut (P := fun k => k < key) (fun _ _ => lt_of_le_of_lt) hpw
  replace hB : ∀ e ∈ B, key ≤ e.1 := fun e he => not_lt.mp (hB e he)
  refine ⟨A, B, rfl, hA, ?_⟩
  cases B with
  | nil => exact .inl ⟨Node.search_absent (Node.keys_leaf hb) hA (by simp), by simp⟩
  | cons e B =>
    obtain ⟨k, v⟩ := e
    obtain ⟨hk, hC⟩ := forall_mem_cons.mp hB
    have hord := (pairwise_cons.mp (pairwise_append.mp hpw).2.1).1
    rcases hk.eq_or_lt with rfl | hk
    · exact .inr ⟨v, B, Node.search_first (Node.keys_leaf hb) hA hC, rfl⟩
    · have hB' : ∀ e ∈ (k, v) :: B, key < e.1 :=
        forall_mem_cons.mpr ⟨hk, fun e he => hk.trans_le (hord e he)⟩
      exact .inl ⟨Node.search_absent (Node.keys_leaf hb) hA hB', hB'⟩

theorem entriesUnder_cut {leaf : PageId} {es : List (Bytes × Value)} {before after : List PageId}
    (hleaf : S leaf = some (.leaf es)) (hcut : leavesUnder S height root =
      before ++ leaf :: after) :
    entriesUnder S height root = before.flatMap S.entries ++ (es ++ after.flatMap S.entries) := by
  rw [entriesUnder, hcut]
  simp [Store.entries, hleaf]

theorem lookup_eq (h : Legible page S height root depth) (key : Bytes) :
    Lazy.lookup page depth root key =
      .ok (BTree.reported (Lib.get key (entriesUnder S height root))) := by
  obtain ⟨leaf, n, es, j, up, before, after, hfind, hn, hb, hpw, hleaf, -, hcut, hbefore, hafter⟩ :=
    h.leaf key
  have hget : Lib.get key (entriesUnder S height root) = Lib.get key es := by
    rw [entriesUnder_cut hleaf hcut, get_append_of_ne_left fun e he => (hbefore e he).ne,
      get_append_of_ne_right fun e he => (hafter e he).ne']
  rw [hget, Lazy.lookup, hfind]
  simp only [hn]
  obtain ⟨A, B, rfl, hA, ⟨hs, hB⟩ | ⟨v, C, hs, rfl⟩⟩ := search_ordered hb hpw key
  · have hnone : Lib.get key (A ++ B) = none := by
      rw [get_eq_none_iff]
      intro e he
      rcases mem_append.mp he with he | he
      · exact (hA e he).ne
      · exact (hB e he).ne'
    simp [hs, hnone, BTree.reported]
  · have hsome : Lib.get key (A ++ (key, v) :: C) = some v := by
      rw [get_append_of_ne_left fun e he => (hA e he).ne]
      simp [Lib.get]
    have hvalue : n.value A.length = some v := by simp [Node.value, hb]
    simp [hs, hsome, hvalue, BTree.reported]

theorem range_eq (h : Legible page S height root depth) (start end_ : Bytes) :
    Lazy.range page depth root start end_ =
      .ok (Lazy.scanned start end_ none (entriesUnder S height root)) := by
  obtain ⟨leaf, n, es, j, up, before, after, hfind, hn, hb, hpw, hleaf, hpath, hcut, hbefore, -⟩ :=
    h.leaf start
  have hfuel : after.length < depth := by
    have hfits := h.fits
    rw [hcut] at hfits
    simp only [length_append, length_cons] at hfits
    omega
  rw [Lazy.range, hfind]
  simp only [hn]
  rw [Lazy.scanLeaves_eq h.walk start end_ hpath hleaf rfl hfuel, entriesUnder_cut hleaf hcut,
    Lazy.scanned_append_of_lt hbefore]
  obtain ⟨A, B, rfl, hA, ⟨hs, -⟩ | ⟨v, C, hs, -⟩⟩ := search_ordered hb hpw start
  · rw [BTree.startIndex, hs, append_assoc, Lazy.scanned_append_of_lt hA]
    simp
  · rw [BTree.startIndex, hs, append_assoc, Lazy.scanned_append_of_lt hA]
    simp

end Legible

end SeerDb
