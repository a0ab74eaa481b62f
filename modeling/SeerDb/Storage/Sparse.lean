/-
# `SeerDb.Storage.Sparse` — mutating a tree that is only partly loaded

After a lazy open a mutation loads the path of its key and nothing else.  A split asks
for the parent of a page: the page records it, but a page that was not loaded when its
parent split keeps the old record, across publications and reopens.  Where the record
is wrong the search from the root reads the pages left of the path, and stops at the
first that is not loaded.  `Paired.agree_iff` says exactly when a sequence of calls is
answered as on the fully loaded tree.
-/
import SeerDb.Storage.Stored
import SeerDb.Lib.TreeFind

namespace SeerDb

open Lib

/-! ## Calls on page trees -/

namespace Call

def key : Call → Bytes
  | .insert k _ => k
  | .upsert k _ => k
  | .delete k => k
  | .insertBlob k _ => k
  | .upsertBlob k _ => k

/-- The binding that a call adds, where the present bindings let it.  A delete adds
none: it overwrites in place. -/
def binding (es : List (Bytes × Value)) : Call → Option (Bytes × Value)
  | .insert k v => if get k es = none then some (k, .inline v) else none
  | .upsert k v => some (k, .inline v)
  | .delete _ => none
  | .insertBlob k p => if get k es = none then some (k, .blob p) else none
  | .upsertBlob k p => some (k, .blob p)

/-- What a call makes of a page tree; `none` is a refusal. -/
def onTree (T : Lib.Tree Bytes Value) (es : List (Bytes × Value)) :
    Call → Option (Reply × Lib.Tree Bytes Value)
  | .delete k =>
    if get k es = none ∨ get k es = some .tombstone then some (.deleted false, T)
    else (T.put Node.layout k .tombstone).map fun T' => (.deleted true, T')
  | c => (c.binding es).bind fun b => (T.put Node.layout b.1 b.2).map fun T' => (.done, T')

end Call

namespace BTree

variable {bg : Nat → Option Node} {full : Prop} {t : BTree} {T : Lib.Tree Bytes Value}
  {es : List (Bytes × Value)} {c : Call} {r : Reply} {T' : Lib.Tree Bytes Value}

/-- The tree has what the call reads. -/
def Ready (t : BTree) (T : Lib.Tree Bytes Value) (es : List (Bytes × Value)) (c : Call) : Prop :=
  Routes t T c.key ∧ ∀ k v, c.binding es = some (k, v) → Guided t T k v 0

/-- What a call owes the page tree: an `Ok` is the step of the page tree and says that the
tree was ready; where it is ready an `Err` is a refusal. -/
def Called (bg : Nat → Option Node) (full way : Prop) (T : Lib.Tree Bytes Value)
    (es : List (Bytes × Value)) (c : Call) : Except BTreeError Reply × BTree → Prop
  | (.ok r, t) => way ∧ ∃ T', c.onTree T es = some (r, T') ∧
      Tracks bg full t T'.store T'.next T'.root
  | (.error _, t) => Tracks bg full t T.store T.next T.root ∧ (way → c.onTree T es = none)

/-- A write, as a call. -/
theorem Wrote.called {k : Bytes} {v : Value} {refused : Prop}
    {x : Except BTreeError Unit × BTree} (h : Wrote bg full (Climbs t T k v) refused T k v x)
    (hkey : c.key = k) (hstep : c.onTree T es = (c.binding es).bind fun b =>
      (T.put Node.layout b.1 b.2).map fun T' => (Reply.done, T'))
    (hyes : ¬ refused → c.binding es = some (k, v)) (hno : refused → c.binding es = none) :
    Called bg full (Ready t T es c) T es c (x.1.map fun _ => .done, x.2) := by
  obtain ⟨r, t'⟩ := x
  cases r with
  | ok u =>
    obtain ⟨href, ⟨hroutes, hguided⟩, T', hput, htr⟩ := h
    have hb := hyes href
    refine ⟨⟨hkey ▸ hroutes, fun k' v' hb' => ?_⟩, T', ?_, htr⟩
    · rw [hb] at hb'
      cases hb'
      exact hguided
    · rw [hstep, hb, Option.bind_some, hput]
      rfl
  | error e =>
    refine ⟨h.1, fun hready => ?_⟩
    rw [hstep]
    by_cases href : refused
    · rw [hno href]
      rfl
    have hb := hyes href
    have hput := (h.2 ⟨hkey ▸ hready.1, hready.2 k v hb⟩).resolve_left href
    rw [hb, Option.bind_some, hput]
    rfl

/-- **One call**, on a tree of which any part may be loaded. -/
theorem call_called (hT : T.Holds Node.layout es) (h : Tracks bg full t T.store T.next T.root)
    (c : Call) : Called bg full (Ready t T es c) T es c (t.call c) := by
  have hif : ∀ {k : Bytes} {b : Bytes × Value},
      (¬ get k es ≠ none → (if get k es = none then some b else none) = some b) ∧
      (get k es ≠ none → (if get k es = none then some b else none) = none) := fun {k b} =>
    ⟨fun hn => if_pos (not_not.mp hn), fun hn => if_neg hn⟩
  cases c with
  | insert k v => exact (insert_wrote hT h v).called rfl rfl hif.1 hif.2
  | upsert k v => exact (upsert_wrote hT h v).called rfl rfl (fun _ => rfl) False.elim
  | insertBlob k p => exact (insertBlob_wrote hT h p).called rfl rfl hif.1 hif.2
  | upsertBlob k p => exact (upsertBlob_wrote hT h p).called rfl rfl (fun _ => rfl) False.elim
  | delete k =>
    have hd := delete_deleted (k := k) hT h
    rw [call]
    cases hx : t.delete k with
    | mk r t' =>
      rw [hx] at hd
      rcases r with e | _ | _
      · obtain ⟨hno, htr⟩ := hd
        exact ⟨htr, fun hready => absurd hready.1 hno⟩
      · obtain ⟨hroutes, hnone, htr⟩ := hd
        refine ⟨⟨hroutes, by simp [Call.binding]⟩, T, ?_, htr⟩
        rw [Call.onTree, if_pos hnone]
      · obtain ⟨hroutes, ⟨w, hw, hne⟩, T', hput, htr⟩ := hd
        refine ⟨⟨hroutes, by simp [Call.binding]⟩, T', ?_, htr⟩
        rw [Call.onTree, hw, if_neg (by simp [hne]), hput]
        rfl

theorem onTree_of_binding {k : Bytes} {v : Value} (hb : c.binding es = some (k, v)) :
    c.onTree T es = (T.put Node.layout k v).map fun T' => (Reply.done, T') := by
  have hbind : (c.binding es).bind (fun b => (T.put Node.layout b.1 b.2).map
      fun T' => (Reply.done, T')) = (T.put Node.layout k v).map fun T' =>
        (Reply.done, T') := by rw [hb, Option.bind_some]
  cases c with
  | delete k => cases hb
  | _ => exact hbind

theorem binding_key {b : Bytes × Value} (h : c.binding es = some b) : b.1 = c.key := by
  cases c <;> simp only [Call.binding] at h
  all_goals try split at h
  all_goals cases h
  all_goals rfl

/-- A call leaves the page tree as it was, or binds its key in it. -/
theorem onTree_put
    (h : c.onTree T es = some (r, T')) : T' = T ∨ ∃ v, T.put Node.layout c.key v = some T' := by
  by_cases hdel : ∃ k, c = .delete k
  · obtain ⟨k, rfl⟩ := hdel
    rw [Call.onTree] at h
    split at h
    · cases h
      exact .inl rfl
    · obtain ⟨x, hx, heq⟩ := Option.map_eq_some_iff.mp h
      cases heq
      exact .inr ⟨.tombstone, hx⟩
  cases hb : c.binding es with
  | none =>
    cases c with
    | delete k => exact absurd ⟨k, rfl⟩ hdel
    | _ =>
      simp only [Call.onTree, hb, Option.bind_none] at h
      cases h
  | some b =>
    rw [onTree_of_binding hb] at h
    obtain ⟨x, hx, heq⟩ := Option.map_eq_some_iff.mp h
    cases heq
    exact .inr ⟨b.2, binding_key hb ▸ hx⟩

theorem onTree_holds (hT : T.Holds Node.layout es)
    (h : c.onTree T es = some (r, T')) : ∃ es', T'.Holds Node.layout es' := by
  rcases onTree_put h with rfl | ⟨v, hput⟩
  · exact ⟨es, hT⟩
  · exact ⟨_, Tree.put_holds hT hput⟩

theorem onTree_next (h : c.onTree T es = some (r, T')) : T.next ≤ T'.next := by
  rcases onTree_put h with rfl | ⟨v, hput⟩
  · exact le_rfl
  · exact Tree.put_next hput

/-- What a call adds depends on the page tree alone. -/
theorem binding_congr {es' : List (Bytes × Value)} (hT : T.Holds Node.layout es)
    (hT' : T.Holds Node.layout es') (c : Call) : c.binding es = c.binding es' := by
  have hget : ∀ k, get k es = get k es' := fun k => (hT.find_eq k).symm.trans (hT'.find_eq k)
  cases c <;> simp [Call.binding, hget]

end BTree

/-! ## Calls on an engine -/

namespace StorageEngine

/-- A mutation as the database runs it: the path is loaded first. -/
def call (e : StorageEngine) (dev : Device) (c : Call) : Except Error Reply × StorageEngine :=
  match e.prepareMutation dev c.key with
  | .error err => (.error err, e)
  | .ok e => (liftBTree (e.btree.call c).1, { e with btree := (e.btree.call c).2 })

/-- The way back up is clear: once the path is loaded, every page that the call is going to
split, apart from the root, records the page above it, or every page left of the path is
loaded. -/
def WayClear (e : StorageEngine) (dev : Device) (c : Call) : Prop :=
  ∀ e' T es k v, e.prepareMutation dev c.key = .ok e' → T.Holds Node.layout es → e'.Hosts dev T →
    c.binding es = some (k, v) → T.height < maxRoutingDepth → T.put Node.layout k v ≠ none →
    BTree.Guided e'.btree T k v 0

/-- The pages under `root` hold the bindings `es`. -/
def Represents (page : PageId → Option Node) (root : PageId) (es : List (Bytes × Value)) : Prop :=
  ∃ T : Lib.Tree Bytes Value, T.Holds Node.layout es ∧ T.root = root ∧
    ∀ p, (page p).map Node.body = T.store p

/-- The two engines hold the same map. -/
def SameMap (dev : Device) (e f : StorageEngine) : Prop :=
  ∃ es, Represents (e.btree.view (stored dev e.pmt)) e.btree.root es ∧
    Represents (f.btree.view (stored dev f.pmt)) f.btree.root es

/-- Both stand for the page tree `T`, the second with every page loaded. -/
structure Paired (dev : Device) (e f : StorageEngine) (T : Lib.Tree Bytes Value)
    (es : List (Bytes × Value)) : Prop where
  holds : T.Holds Node.layout es
  sparse : e.Hosts dev T
  full : f.Hosts dev T
  loaded : f.lazyRoot = none

section Calls

variable {dev : Device} {e f : StorageEngine} {T : Lib.Tree Bytes Value} {es : List (Bytes × Value)}

theorem Hosts.represents (h : e.Hosts dev T) (hT : T.Holds Node.layout es) :
    Represents (e.btree.view (stored dev e.pmt)) e.btree.root es :=
  ⟨T, hT, h.tracks.root_eq.symm, h.tracks.sim.shape⟩

theorem Paired.sameMap (h : Paired dev e f T es) : SameMap dev e f :=
  ⟨es, h.sparse.represents h.holds, h.full.represents h.holds⟩

/-- An engine stands for one page tree only. -/
theorem Hosts.unique {T' : Lib.Tree Bytes Value} {es' : List (Bytes × Value)} (h : e.Hosts dev T)
    (h' : e.Hosts dev T') (hT : T.Holds Node.layout es) (hT' : T'.Holds Node.layout es') :
    T = T' := by
  refine hT.unique hT' ?_ (h.tracks.root_eq.symm.trans h'.tracks.root_eq)
  funext p
  rw [← h.tracks.sim.shape, h'.tracks.sim.shape]

/-- What a call does to an engine, whatever is loaded. -/
theorem Hosts.call (h : e.Hosts dev T) (hT : T.Holds Node.layout es) (c : Call) :
    ∃ t, e.prepareMutation dev c.key = .ok { e with btree := t } ∧
      BTree.Loads (stored dev e.pmt) e.btree t ∧ BTree.Loaded t T c.key ∧
      e.call dev c = (liftBTree (t.call c).1, { e with btree := (t.call c).2 }) ∧
      BTree.Called (stored dev e.pmt) (e.lazyRoot = none)
        (BTree.Ready t T es c) T es c (t.call c) := by
  obtain ⟨t, hprep, hloads, hload⟩ := h.prepareMutation hT c.key
  exact ⟨t, hprep, hloads, hload, by rw [StorageEngine.call, hprep],
    BTree.call_called hT (hloads.tracks h.tracks) c⟩

/-- Only the resident tree changes. -/
theorem call_rest (e : StorageEngine) (dev : Device) (c : Call) :
    ∃ t, (e.call dev c).2 = { e with btree := t } := by
  rw [StorageEngine.call]
  cases hprep : e.prepareMutation dev c.key with
  | error err => exact ⟨e.btree, rfl⟩
  | ok e' =>
    obtain ⟨t, rfl⟩ := prepareMutation_rest hprep
    exact ⟨_, rfl⟩

/-- The engine after a call still stands for a page tree. -/
theorem Hosts.call_hosts (h : e.Hosts dev T) (hT : T.Holds Node.layout es) (c : Call) :
    ∃ T' es', T'.Holds Node.layout es' ∧ (e.call dev c).2.Hosts dev T' := by
  obtain ⟨t, -, -, -, heq, hcalled⟩ := h.call hT c
  rw [heq]
  cases hx : t.call c with
  | mk r t' =>
    rw [hx] at hcalled
    cases r with
    | error err => exact ⟨T, es, hT, hcalled.1, h.mapped⟩
    | ok r =>
      obtain ⟨-, T', hstep, htr⟩ := hcalled
      obtain ⟨es', hT'⟩ := BTree.onTree_holds hT hstep
      refine ⟨T', es', hT', htr, fun p hp => (h.mapped p hp).trans_le ?_⟩
      exact BTree.onTree_next hstep

/-- With every page loaded, and a tree that is not too deep, a call finds what it reads. -/
theorem Paired.full_ready (h : Paired dev e f T es) {t : BTree}
    (hloads : BTree.Loads (stored dev f.pmt) f.btree t) (c : Call)
    (hlt : T.height < maxRoutingDepth) : BTree.Ready t T es c := by
  have ht := hloads.tracks h.full.tracks
  exact ⟨ht.routes h.holds h.loaded hlt, fun k v _ => BTree.Full.guided h.holds
    (ht.full_of h.loaded)⟩

/-- A call that succeeds on the partly loaded side succeeds on the other. -/
theorem Paired.call_ok (h : Paired dev e f T es) {c : Call} {r : Reply}
    (hok : (e.call dev c).1 = .ok r) : (f.call dev c).1 = .ok r ∧
      ∃ T' es', Paired dev (e.call dev c).2 (f.call dev c).2 T' es' := by
  obtain ⟨t₁, -, -, -, heq, hsparse⟩ := h.sparse.call h.holds c
  obtain ⟨t₂, -, hloads₂, -, heq₂, hfull⟩ := h.full.call h.holds c
  rw [heq] at hok ⊢
  rw [heq₂]
  cases hx : t₁.call c with
  | mk r₁ t₁' =>
  cases hy : t₂.call c with
  | mk r₂ t₂' =>
    rw [hx] at hsparse hok
    rw [hy] at hfull
    cases r₁ with
    | error err => cases hok
    | ok a =>
      cases hok
      obtain ⟨hway, T', hstep, htr⟩ := hsparse
      cases r₂ with
      | error err =>
        rw [hfull.2 (h.full_ready hloads₂ c hway.1.1)] at hstep
        cases hstep
      | ok b =>
        obtain ⟨-, T'', hstep', htr'⟩ := hfull
        rw [hstep] at hstep'
        cases hstep'
        obtain ⟨es', hT'⟩ := BTree.onTree_holds h.holds hstep
        have hnext := BTree.onTree_next hstep
        exact ⟨rfl, T', es', hT', ⟨htr, fun p hp => (h.sparse.mapped p hp).trans_le hnext⟩,
          ⟨htr', fun p hp => (h.full.mapped p hp).trans_le hnext⟩, h.loaded⟩

/-- **One call on both sides.**  The answers agree exactly if the way is clear, and then
both sides still hold the same map. -/
theorem Paired.call_agrees (h : Paired dev e f T es) (c : Call) :
    ((e.call dev c).1.toOption = (f.call dev c).1.toOption ↔ e.WayClear dev c) ∧
    ((e.call dev c).1.toOption = (f.call dev c).1.toOption →
      ∃ T' es', Paired dev (e.call dev c).2 (f.call dev c).2 T' es') := by
  obtain ⟨t₁, hprep, hloads, hload, heq, hsparse⟩ := h.sparse.call h.holds c
  obtain ⟨t₂, -, hloads₂, -, heq₂, hfull⟩ := h.full.call h.holds c
  have hready := h.full_ready hloads₂ c
  have hclear : T.height < maxRoutingDepth → c.onTree T es ≠ none → e.WayClear dev c →
      BTree.Ready t₁ T es c := by
    intro hlt hne hway
    refine ⟨⟨hlt, hload⟩, fun k v hb => ?_⟩
    refine hway _ T es k v hprep h.holds (h.sparse.loads hloads) hb hlt fun hput => hne ?_
    rw [BTree.onTree_of_binding hb, hput]
    rfl
  -- the page tree an engine stands for is determined by its pages
  have hunique : ∀ {e' T' es'}, e.prepareMutation dev c.key = .ok e' → e'.Hosts dev T' →
      T'.Holds Node.layout es' → e' = { e with btree := t₁ } ∧ T' = T ∧
        c.binding es' = c.binding es := by
    intro e' T' es' hprep' hhosts hT'
    rw [hprep] at hprep'
    cases hprep'
    obtain rfl := hhosts.unique (h.sparse.loads hloads) hT' h.holds
    exact ⟨rfl, rfl, BTree.binding_congr hT' h.holds c⟩
  cases hx : t₁.call c with
  | mk r₁ t₁' =>
    rw [hx] at hsparse
    cases r₁ with
    | ok a =>
      have hok : (e.call dev c).1 = .ok a := by rw [heq, hx]; rfl
      obtain ⟨hfok, hpaired⟩ := h.call_ok hok
      refine ⟨iff_of_true (by rw [hok, hfok]) ?_, fun _ => hpaired⟩
      intro e' T₀ es₀ k v hprep' hT₀ hhosts hb _ _
      obtain ⟨rfl, rfl, hbeq⟩ := hunique hprep' hhosts hT₀
      exact hsparse.1.2 k v (hbeq ▸ hb)
    | error err =>
      rw [heq, heq₂, hx]
      cases hy : t₂.call c with
      | mk r₂ t₂' =>
      rw [hy] at hfull
      cases r₂ with
      | error err' =>
        refine ⟨iff_of_true rfl ?_, fun _ => ⟨T, es, h.holds, ⟨hsparse.1, h.sparse.mapped⟩,
          ⟨hfull.1, h.full.mapped⟩, h.loaded⟩⟩
        intro e' T₀ es₀ k v hprep' hT₀ hhosts hb hlt hput
        obtain ⟨rfl, rfl, hbeq⟩ := hunique hprep' hhosts hT₀
        have hnone := hfull.2 (hready hlt)
        rw [BTree.onTree_of_binding (hbeq ▸ hb), Option.map_eq_none_iff] at hnone
        exact absurd hnone hput
      | ok b =>
        obtain ⟨hway, T', hstep, htr⟩ := hfull
        refine ⟨iff_of_false (by simp [liftBTree, Except.toOption]) fun hw => ?_, fun heq => ?_⟩
        · have := hsparse.2 (hclear hway.1.1 (by simp [hstep]) hw)
          rw [hstep] at this
          cases this
        · simp [liftBTree, Except.toOption] at heq

/-! ## Sequences of calls -/

/-- Call by call, the two engines answer the same and hold the same map. -/
def Agree (dev : Device) : List Call → StorageEngine → StorageEngine → Prop
  | [], e, f => SameMap dev e f
  | c :: cs, e, f => SameMap dev e f ∧ (e.call dev c).1.toOption = (f.call dev c).1.toOption ∧
      Agree dev cs (e.call dev c).2 (f.call dev c).2

/-- The way is clear before every call. -/
def AlwaysClear (dev : Device) : List Call → StorageEngine → Prop
  | [], _ => True
  | c :: cs, e => e.WayClear dev c ∧ AlwaysClear dev cs (e.call dev c).2

theorem Paired.agree_iff (h : Paired dev e f T es) (cs : List Call) :
    Agree dev cs e f ↔ AlwaysClear dev cs e := by
  induction cs generalizing e f T es with
  | nil => exact iff_of_true h.sameMap trivial
  | cons c cs ih =>
    obtain ⟨hiff, hnext⟩ := h.call_agrees c
    constructor
    · rintro ⟨-, heq, hrest⟩
      obtain ⟨T', es', h'⟩ := hnext heq
      exact ⟨hiff.mp heq, (ih h').mp hrest⟩
    · rintro ⟨hway, hrest⟩
      have heq := hiff.mpr hway
      obtain ⟨T', es', h'⟩ := hnext heq
      exact ⟨h.sameMap, heq, (ih h').mpr hrest⟩

end Calls

end StorageEngine

end SeerDb
