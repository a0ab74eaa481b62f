/-
# `SeerDb.Btree.Spine` — long keys in descending order

Of keys one byte longer than `shortKeyLimit`, an internal page holds two as
separators and a leaf two as entries.  A write below the smallest key then splits
every full page of the leftmost path, and leaves each of them full again.
`Spine` is such a path; it gains a level with every second key.
-/
import SeerDb.Btree.Depth

namespace SeerDb

open Lib

namespace BTree

def Long (k : Bytes) : Prop := k.length = shortKeyLimit + 1

/-- The value written with each key: it fills a leaf at two entries. -/
def filler : Value := .inline (List.replicate 7 0)

section Fits

variable {a b c : Bytes} {x y z : Nat} {u v w : Value}

theorem long_innerFits_two (ha : Long a) (hb : Long b) :
    Node.layout.innerFits [(a, x), (b, y)] := by
  show decide _ = true
  rw [decide_eq_true_eq]
  simp only [Long] at ha hb
  simp [Node.internalEntrySize, ha, hb, shortKeyLimit, slotSize, headerSize, pageSize]

theorem long_innerFits_three (ha : Long a) (hb : Long b) (hc : Long c) :
    ¬ Node.layout.innerFits [(a, x), (b, y), (c, z)] := by
  show ¬ decide _ = true
  rw [decide_eq_true_eq]
  simp only [Long] at ha hb hc
  simp [Node.internalEntrySize, ha, hb, hc, shortKeyLimit, slotSize, headerSize, pageSize]

theorem long_leafFits_two (ha : Long a) (hb : Long b) (hu : u.len = 7) (hv : v.len = 7) :
    Node.layout.leafFits [(a, u), (b, v)] := by
  show decide _ = true
  rw [decide_eq_true_eq]
  simp only [Long] at ha hb
  simp [Node.leafEntrySize, ha, hb, hu, hv, shortKeyLimit, slotSize, headerSize, pageSize]

theorem long_leafFits_three (ha : Long a) (hb : Long b) (hc : Long c) (hu : u.len = 7)
    (hv : v.len = 7) (hw : w.len = 7) : ¬ Node.layout.leafFits [(a, u), (b, v), (c, w)] := by
  show ¬ decide _ = true
  rw [decide_eq_true_eq]
  simp only [Long] at ha hb hc
  simp [Node.leafEntrySize, ha, hb, hc, hu, hv, hw, shortKeyLimit, slotSize, headerSize, pageSize]

end Fits

/-- The full leftmost path under page `p`: `low` is its smallest key, `sep` the
separator page `p` hands up when it splits, `ps` its pages. -/
def Spine (S : Store Bytes Value) : Nat → Nat → Bytes → Bytes → List Nat → Prop
  | 0, p, low, sep, ps => ∃ v w, S p = some (.leaf [(low, v), (sep, w)]) ∧ low < sep ∧ Long low ∧
      Long sep ∧ v.len = 7 ∧ w.len = 7 ∧ ps = [p]
  | h + 1, p, low, sep, ps => ∃ l first r r' below qs,
      S p = some (.inner l [(first, r), (sep, r')]) ∧
      below < first ∧ first < sep ∧ Long first ∧ Long sep ∧ Spine S h l low below qs ∧
      p ∉ qs ∧ ps = p :: qs

variable {S : Store Bytes Value}

theorem Spine.congr {S' : Store Bytes Value} : ∀ {h p low sep ps},
    Spine S h p low sep ps → (∀ q ∈ ps, S' q = S q) → Spine S' h p low sep ps
  | 0, p, low, sep, ps, hs, hS => by
    obtain ⟨v, w, h1, h2⟩ := hs
    obtain ⟨-, -, -, -, -, rfl⟩ := id h2
    exact ⟨v, w, by rw [hS p (by simp), h1], h2⟩
  | h + 1, p, low, sep, ps, hs, hS => by
    obtain ⟨l, first, r, r', below, qs, h1, h2, h3, h4, h5, h6, h7, rfl⟩ := hs
    exact ⟨l, first, r, r', below, qs, by rw [hS p (by simp), h1], h2, h3, h4, h5,
      h6.congr fun q hq => hS q (.tail _ hq), h7, rfl⟩

theorem Spine.low_lt : ∀ {h p low sep ps}, Spine S h p low sep ps → low < sep
  | 0, _, _, _, _, hs => by
    obtain ⟨v, w, -, h2, -⟩ := hs
    exact h2
  | h + 1, _, _, _, _, hs => by
    obtain ⟨l, first, r, r', below, qs, -, h2, h3, -, -, h6, -⟩ := hs
    exact (h6.low_lt.trans h2).trans h3

theorem Spine.long_sep : ∀ {h p low sep ps}, Spine S h p low sep ps → Long sep
  | 0, _, _, _, _, hs => by
    obtain ⟨v, w, -, -, -, h4, -⟩ := hs
    exact h4
  | h + 1, _, _, _, _, hs => by
    obtain ⟨l, first, r, r', below, qs, -, -, -, -, h5, -⟩ := hs
    exact h5

theorem upsert_lt_head {β : Type} {k a : Bytes} {v x : β} {es : List (Bytes × β)} (h : k < a) :
    Lib.upsert k v ((a, x) :: es) = (k, v) :: (a, x) :: es := by
  rw [Lib.upsert, if_pos h]

/-- A write below the smallest key splits every page of the spine and leaves it a spine. -/
theorem put_spine {n : Nat} {k : Bytes} {v : Value} (hk : Long k) (hv : v.len = 7) :
    ∀ {S h p low sep ps},
    Spine S h p low sep ps → k < low → (∀ q ∈ ps, q < n) → n + h ≤ u32Max →
    ∃ S' sep' r, put Node.layout S n k v h p = some (.split S' (n + h + 1) sep r) ∧
      Spine S' h p k sep' ps ∧ sep' < sep
  | S, 0, p, low, sep, ps, hs, hlt, hps, hn => by
    obtain ⟨v', w, h1, h2, h3, h4, h5, h6, rfl⟩ := hs
    have hpn : p ≠ n := (hps p (by simp)).ne
    have hksep : k < sep := hlt.trans h2
    have herase : erase k [(low, v'), (sep, w)] = [(low, v'), (sep, w)] :=
      erase_of_not_mem (by simp [hlt.ne', hksep.ne'])
    have hid : ¬ Node.layout.idLimit < n := not_lt.mpr hn
    refine ⟨(S.set p (.leaf [(k, v), (low, v')])).set n (.leaf [(sep, w)]), low, n, ?_, ?_, h2⟩
    · rw [put, h1]
      simp only
      rw [putLeaf, upsert_lt_head hlt, if_neg (long_leafFits_three hk h3 h4 hv h5 h6), herase]
      have hhalve : halve [(low, v'), (sep, w)] = some ([(low, v')], (sep, w), []) := by
        simp [halve]
      simp only [hhalve, if_neg hid, if_pos hksep]
      rw [upsert_lt_head hlt, if_pos (long_leafFits_two hk h3 hv h5)]
    · exact ⟨v, v', by rw [Store.set_ne _ _ hpn, Store.set_self], hlt, hk, h3, hv, h5, rfl⟩
  | S, h + 1, p, low, sep, ps, hs, hlt, hps, hn => by
    obtain ⟨l, first, r, r', below, qs, h1, h2, h3, h4, h5, h6, h7, rfl⟩ := hs
    have hqs : ∀ q ∈ qs, q < n := fun q hq => hps q (.tail _ hq)
    have hp : p < n := hps p (.head _)
    obtain ⟨S₁, below', r₁, hput, hspine, hbelow⟩ := put_spine hk hv h6 hlt hqs (by omega)
    have hfirst : ¬ first ≤ k := not_le.mpr ((hlt.trans h6.low_lt).trans h2)
    have hsep : below < sep := h2.trans h3
    have hid : ¬ Node.layout.idLimit < n + h + 1 := not_lt.mpr hn
    have hpn : p ≠ n + h + 1 := by omega
    refine ⟨(S₁.set p (.inner l [(below, r₁), (first, r)])).set (n + h + 1) (.inner r' []), first,
      n + h + 1, ?_, ?_, h3⟩
    · rw [put, h1]
      simp only
      rw [route, if_neg hfirst, hput]
      simp only
      rw [absorb, upsert_lt_head h2, if_neg (long_innerFits_three h6.long_sep h4 h5)]
      have hhalve : halve [(first, r), (sep, r')] = some ([(first, r)], (sep, r'), []) := by
        simp [halve]
      simp only [hhalve, if_neg hid, if_pos hsep]
      rw [upsert_lt_head h2, if_pos (long_innerFits_two h6.long_sep h4)]
      rfl
    · refine ⟨l, below, r₁, r, below', qs, by rw [Store.set_ne _ _ hpn, Store.set_self], hbelow, h2,
        h6.long_sep, h4, hspine.congr ?_, h7, rfl⟩
      intro q hq
      have hqn := hqs q hq
      have hqp : q ≠ p := fun he => h7 (he ▸ hq)
      rw [Store.set_ne _ _ (by omega), Store.set_ne _ _ hqp]

/-! ## A level with every second key -/

/-- A tree whose leftmost path is full from the root down. -/
def FullSpine (T : Lib.Tree Bytes Value) (low : Bytes) : Prop :=
  ∃ sep ps, Spine T.store T.height T.root low sep ps ∧ ∀ q ∈ ps, q < T.next

/-- A tree whose root has one separator over a full path. -/
def HalfSpine (T : Lib.Tree Bytes Value) (low : Bytes) : Prop :=
  ∃ h l below sep r ps, T.height = h + 1 ∧ T.store T.root = some (.inner l [(sep, r)]) ∧
    Spine T.store h l low below ps ∧ below < sep ∧ Long sep ∧ T.root ∉ ps ∧ T.root < T.next ∧
    ∀ q ∈ ps, q < T.next

section Grow

variable {T : Lib.Tree Bytes Value} {k low : Bytes} {v : Value}

theorem FullSpine.put (h : FullSpine T low) (hlt : k < low) (hk : Long k) (hv : v.len = 7)
    (hn : T.next + T.height + 1 ≤ u32Max) :
    ∃ T', T.put Node.layout k v = some T' ∧ HalfSpine T' k ∧ T'.height = T.height + 1 ∧
      T'.next = T.next + T.height + 2 := by
  obtain ⟨sep, ps, hs, hps⟩ := h
  obtain ⟨S', sep', r, hput, hspine, hsep⟩ := put_spine hk hv hs hlt hps (by omega)
  have hfit : Node.layout.innerFits [(sep, r)] := Node.layout.innerFits_sublist (by simp)
      (long_innerFits_two (x := r) (y := r) hs.long_sep hs.long_sep)
  have hid : ¬ Node.layout.idLimit < T.next + T.height + 1 := not_lt.mpr hn
  have hT' : T.put Node.layout k v = some ⟨S'.set (T.next + T.height + 1)
      (.inner T.root [(sep, r)]), T.next + T.height + 1, T.height + 1,
      T.next + T.height + 1 + 1⟩ := by
    rw [Tree.put, hput]
    simp only [if_pos hfit, if_neg hid]
  refine ⟨_, hT', ?_, rfl, rfl⟩
  refine ⟨T.height, T.root, sep', sep, r, ps, rfl, Store.set_self _ _ _, hspine.congr ?_, hsep,
    hs.long_sep, ?_, Nat.lt_succ_self _, ?_⟩
  · intro q hq
    have := hps q hq
    exact Store.set_ne _ _ (by omega)
  · intro hm
    have : T.next + T.height + 1 < T.next := hps _ hm
    omega
  · intro q hq
    have : q < T.next := hps q hq
    show q < T.next + T.height + 1 + 1
    omega

theorem HalfSpine.put (h : HalfSpine T low) (hlt : k < low) (hk : Long k) (hv : v.len = 7)
    (hn : T.next + T.height ≤ u32Max) :
    ∃ T', T.put Node.layout k v = some T' ∧ FullSpine T' k ∧ T'.height = T.height ∧
      T'.next = T.next + T.height := by
  obtain ⟨h, l, below, sep, r, ps, hheight, hroot, hs, hbelow, hsep, hnot, hrootlt, hps⟩ := h
  obtain ⟨S', below', r', hput, hspine, hlt'⟩ := put_spine hk hv hs hlt hps (by omega)
  have hroute : ¬ sep ≤ k := not_le.mpr ((hlt.trans hs.low_lt).trans hbelow)
  have hS'root : S'.set T.root (.inner l [(below, r'), (sep, r)]) T.root
      = some (.inner l [(below, r'), (sep, r)]) := Store.set_self _ _ _
  have hstep : Lib.put Node.layout T.store T.next k v T.height T.root
      = some (.done (S'.set T.root (.inner l [(below, r'), (sep, r)])) (T.next + h + 1)) := by
    rw [hheight, Lib.put, hroot]
    simp only
    rw [route, if_neg hroute, hput]
    simp only
    rw [absorb, upsert_lt_head hbelow, if_pos (long_innerFits_two hs.long_sep hsep)]
  have hT' : T.put Node.layout k v = some { T with
      store := S'.set T.root (.inner l [(below, r'), (sep, r)]), next := T.next + h + 1 } := by
    rw [Tree.put, hstep]
  refine ⟨_, hT', ⟨sep, T.root :: ps, ?_, ?_⟩, rfl, by simp only; omega⟩
  · show Spine _ T.height _ _ _ _
    rw [hheight]
    refine ⟨l, below, r', r, below', ps, hS'root, hlt', hbelow, hs.long_sep, hsep,
      hspine.congr ?_, hnot, rfl⟩
    intro q hq
    exact Store.set_ne _ _ fun he => hnot (he ▸ hq)
  · intro q hq
    show q < T.next + h + 1
    rcases List.mem_cons.mp hq with rfl | hq
    · omega
    · have := hps q hq
      omega

end Grow

/-! ## The run -/

/-- The keys of the run, in descending order. -/
def longKey (i : Nat) : Bytes :=
  UInt8.ofNat ((1023 - i) / 256) :: UInt8.ofNat ((1023 - i) % 256) :: List.replicate
    (shortKeyLimit - 1) 0

theorem long_longKey (i : Nat) : Long (longKey i) := by
  simp only [Long, longKey, List.length_cons, List.length_replicate]
  rfl

theorem ofNat_lt_ofNat {x y : Nat} (h : x < y) (hy : y < 256) : UInt8.ofNat x < UInt8.ofNat y := by
  rw [UInt8.lt_iff_toNat_lt, UInt8.toNat_ofNat', UInt8.toNat_ofNat']
  omega

theorem longKey_lt {i : Nat} (h : i < 1023) : longKey (i + 1) < longKey i := by
  rw [longKey, longKey, List.cons_lt_cons_iff, List.cons_lt_cons_iff]
  by_cases hhi : (1023 - (i + 1)) / 256 < (1023 - i) / 256
  · exact .inl (ofNat_lt_ofNat hhi (by omega))
  · have heq : (1023 - (i + 1)) / 256 = (1023 - i) / 256 := by omega
    exact .inr ⟨by rw [heq], .inl (ofNat_lt_ofNat (by omega) (by omega))⟩

/-- A built tree with its page tree. -/
def BuiltAs (limit : Nat) (T : Lib.Tree Bytes Value) : Prop :=
  ∃ (t : BTree) (m : OrderedMap), Built limit t ∧ T.Holds Node.layout m ∧
    Tracks (fun _ => none) True t T.store T.next T.root

theorem BuiltAs.upsert {limit : Nat} {T T' : Lib.Tree Bytes Value}
    (h : BuiltAs limit T) {k v : Bytes}
    (hk : k.length ≤ limit) (hheight : T.height < maxRoutingDepth)
    (hput : T.put Node.layout k (.inline v) = some T') : BuiltAs limit T' := by
  obtain ⟨t, m, hb, hT, ht⟩ := h
  have hw := upsert_wrote (k := k) hT ht v
  cases hx : t.upsert k v with
  | mk r t' =>
    rw [hx] at hw
    cases r with
    | error e =>
      have := hw.2 (ht.climbs hT trivial hheight)
      simp [hput] at this
    | ok u =>
      obtain ⟨-, -, T₁, hput₁, ht₁⟩ := hw
      rw [hput] at hput₁
      cases hput₁
      exact ⟨t', _, .upsert hb hk hx, Tree.put_holds hT hput, ht₁⟩

/-- Writing into a root that is a leaf with room. -/
theorem put_leaf_root {n : Nat} {es : List (Bytes × Value)} {k : Bytes}
    {v : Value} (hroot : S 0 = some (.leaf es)) (hfit : Node.layout.leafFits (Lib.upsert k v es)) :
    Tree.put Node.layout ⟨S, 0, 0, n⟩ k v =
      some ⟨S.set 0 (.leaf (Lib.upsert k v es)), 0, 0, n⟩ := by
  simp only [Tree.put, put, hroot, putLeaf, if_pos hfit]

theorem builtAs_two : ∃ T, BuiltAs (shortKeyLimit + 1) T ∧ FullSpine T (longKey 1) ∧ T.height = 0 ∧
    T.next = 1 := by
  have h0 := long_longKey 0
  have h1 := long_longKey 1
  have hlt := longKey_lt (i := 0) (by decide)
  have hfit2 : Node.layout.leafFits [(longKey 1, filler), (longKey 0, filler)] :=
    long_leafFits_two h1 h0 rfl rfl
  have hfit1 : Node.layout.leafFits [(longKey 0, filler)] :=
    Node.layout.leafFits_sublist (by simp) hfit2
  have hput1 := put_leaf_root (S := emptyStore) (n := 1) rfl hfit1
  have hput2 : Tree.put Node.layout ⟨emptyStore.set 0 (.leaf [(longKey 0, filler)]), 0, 0, 1⟩
      (longKey 1) filler = some ⟨(emptyStore.set 0 (.leaf [(longKey 0, filler)])).set 0
          (.leaf [(longKey 1, filler), (longKey 0, filler)]), 0, 0, 1⟩ := by
    rw [← upsert_lt_head hlt] at hfit2 ⊢
    exact put_leaf_root (Store.set_self _ _ _) hfit2
  have hb0 : BuiltAs (shortKeyLimit + 1) emptyTree := ⟨new, [], .new, holds_new, tracks_new⟩
  have hb1 := hb0.upsert (le_of_eq h0) (by decide) hput1
  have hb2 := hb1.upsert (le_of_eq h1) (by decide) hput2
  refine ⟨_, hb2, ⟨longKey 0, [0], ?_, by simp⟩, rfl, rfl⟩
  exact ⟨filler, filler, by simp, hlt, h1, h0, rfl, rfl, rfl⟩

/-- After `2 * h + 2` keys the leftmost path is full and `h` levels high. -/
theorem builtAs_full : ∀ h, h < maxRoutingDepth → ∃ T, BuiltAs (shortKeyLimit + 1) T ∧
    FullSpine T (longKey (2 * h + 1)) ∧ T.height = h ∧ T.next ≤ 1 + 300 * h
  | 0, _ => by
    obtain ⟨T, hb, hs, hh, hn⟩ := builtAs_two
    exact ⟨T, hb, hs, hh, by omega⟩
  | h + 1, hlt => by
    have hmax : maxRoutingDepth = 128 := rfl
    have hu : u32Max = 4294967295 := rfl
    obtain ⟨T, hb, hs, hh, hn⟩ := builtAs_full h (by omega)
    obtain ⟨T₁, hput₁, hs₁, hh₁, hn₁⟩ := hs.put (v := filler)
      (longKey_lt (i := 2 * h + 1) (by omega)) (long_longKey _) rfl (by omega)
    obtain ⟨T₂, hput₂, hs₂, hh₂, hn₂⟩ := hs₁.put (v := filler)
      (longKey_lt (i := 2 * h + 2) (by omega)) (long_longKey _) rfl (by omega)
    have hb₁ := hb.upsert (le_of_eq (long_longKey _)) (by omega) hput₁
    have hb₂ := hb₁.upsert (le_of_eq (long_longKey _)) (by omega) hput₂
    exact ⟨T₂, hb₂, hs₂, by omega, by omega⟩

/-- 257 successful upserts of keys of 1333 bytes reach the routing depth. -/
theorem built_too_deep : ∃ t, Built (shortKeyLimit + 1) t ∧
    ∀ k, t.findLeaf k = .error routingDepthError := by
  have hmax : maxRoutingDepth = 128 := rfl
  have hu : u32Max = 4294967295 := rfl
  obtain ⟨T, hb, hs, hh, hn⟩ := builtAs_full 127 (by decide)
  obtain ⟨T₁, hput₁, -, hh₁, -⟩ := hs.put (v := filler) (longKey_lt (i := 255) (by omega))
    (long_longKey _) rfl (by omega)
  obtain ⟨t, m, hbt, hT, ht⟩ := hb.upsert (le_of_eq (long_longKey _)) (by omega) hput₁
  refine ⟨t, hbt, fun k => ?_⟩
  have := findLeaf_full hT ht trivial k
  rwa [if_neg (by omega)] at this

theorem Built.mono {limit limit' : Nat} (hle : limit ≤ limit') {t : BTree} (h : Built limit t) :
    Built limit' t := by
  induction h with
  | new => exact .new
  | upsert _ hk hup ih => exact .upsert ih (hk.trans hle) hup
  | delete _ hk hdel ih => exact .delete ih (hk.trans hle) hdel

/-- A lookup or an upsert fails for the routing depth. -/
def FalseCycle (t : BTree) : Prop :=
  ∃ k v, t.lookup k = .error routingDepthError ∨ (t.upsert k v).1 = .error routingDepthError

/-- **The routing depth.** No tree built with keys of at most `limit` bytes reports a
false cycle exactly when `limit` is at most 1332. -/
theorem no_falseCycle_iff (limit : Nat) :
    (∀ t, Built limit t → ¬ FalseCycle t) ↔ limit ≤ shortKeyLimit := by
  constructor
  · intro h
    by_contra hlt
    obtain ⟨t, hb, hdeep⟩ := built_too_deep
    refine h t (hb.mono (by omega)) ⟨[], [], .inl ?_⟩
    rw [lookup, hdeep]
  · rintro hle t hb ⟨k, v, hfail⟩
    obtain ⟨leaf, hl⟩ := (built_wide hle hb).findLeaf_ok k
    rcases hfail with hfail | hfail
    · exact lookup_clean hl hfail
    · exact upsert_clean v hl hfail

/-- A tree built by successful upserts of admitted keys that reports a false cycle on
every lookup and every upsert. -/
theorem falseCycle_of_long_keys : shortKeyLimit + 1 ≤ maxKeySize ∧
    ∃ t, Built (shortKeyLimit + 1) t ∧ t.lookup [] = .error routingDepthError ∧
      (t.upsert [] []).1 = .error routingDepthError := by
  obtain ⟨t, hb, hdeep⟩ := built_too_deep
  refine ⟨by decide, t, hb, by rw [lookup, hdeep], by rw [upsert, hdeep]⟩

end BTree

end SeerDb
