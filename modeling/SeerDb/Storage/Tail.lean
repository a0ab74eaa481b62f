/-
# `SeerDb.Storage.Tail` — a data file that ends inside a page

The allocation frontier of a reopened engine is the length of the data file, and
every public call first checks that the frontier is page aligned
(`validate_handle_state`).  A crash while a page is appended may leave part of
that page behind the published ones: the open succeeds, and the handle then
serves no call until the file is aligned again (`Session.serves_iff`).
-/
import SeerDb.Storage.Overlay

namespace SeerDb

open Lib

namespace StorageEngine

/-- What is loaded, whatever the file holds: nothing, or a tree with no page loaded. -/
theorem loadFromManifest_loaded {e e' : StorageEngine} {dev : Device}
    {keep : List Nat} {root : PageId} (h : e.loadFromManifest dev keep root = .ok e') :
      e'.nextOffset = dev.size ∧ (e'.btree = e.btree ∧ e'.lazyRoot = e.lazyRoot ∨
        e'.btree.dirtyPages = [] ∧ e'.lazyRoot = some root) ∧
      ∀ dev', ∃ f, e.loadFromManifest dev' keep root = .ok f := by
  simp only [loadFromManifest] at h ⊢
  cases hmax : e.pmt.maxPageId with
  | none =>
    simp only [hmax] at h ⊢
    split at h
    · cases h
    · cases h
      exact ⟨rfl, .inl ⟨rfl, rfl⟩, fun dev' => ⟨_, if_neg ‹_›⟩⟩
  | some maxPageId =>
    simp only [hmax] at h ⊢
    split at h
    · cases h
    · cases h
      exact ⟨rfl, .inr ⟨rfl, rfl⟩, fun dev' => ⟨_, if_neg ‹_›⟩⟩

/-- A read by the handle. -/
def checkedLookup (e : StorageEngine) (dev : Device) (key : Bytes) : Except Error LookupResult :=
  match e.validateHandleState with
  | .error err => .error err
  | .ok () => e.lookup dev key

theorem SlotInv.valid {e : StorageEngine} {size : Nat} {out held : List Nat}
    (h : e.SlotInv size out held) :
    e.validateHandleState = .ok () :=
  validateHandleState_eq_ok.mpr (h.frontier ▸ h.aligned)

end StorageEngine

namespace Session

/-- One mutation and its publication, both checked. -/
def commit (s : Session) (c : Call) (keep : List Nat) : Except Error Session :=
  match s.engine.validateHandleState with
  | .error err => .error err
  | .ok () => match s.engine.call s.device c with
    | (.error err, _) => .error err
    | (.ok _, e) => match e.validateHandleState with
      | .error err => .error err
      | .ok () => .ok ({ s with engine := e }.publish keep)

/-- The published pages are in the file; what lies behind them is arbitrary. -/
def Carries (s : Session) (dev : Device) : Prop :=
  ∀ o ∈ s.published.pmt.offsets, InFile dev.size o ∧ dev.page o = s.device.page o

/-- The handle answers every read as `answer` does, and it commits every mutation that its tree
accepts and stays usable. -/
def Serves (s : Session) (keep : List Nat) (answer : Bytes → Except Error LookupResult) : Prop :=
  (∀ key, ∃ r, s.engine.checkedLookup s.device key = .ok r ∧ answer key = .ok r) ∧
    ∀ c r, (s.engine.call s.device c).1 = .ok r →
      ∃ s', s.commit c keep = .ok s' ∧ s'.engine.validateHandleState = .ok ()

variable {s : Session} {T T₀ : Lib.Tree Bytes Value} {es es₀ : List (Bytes × Value)}

/-- A lazily opened engine answers from the published tree. -/
theorem Inv.opened_lookup (h : s.Inv T es T₀ es₀) {dev : Device}
    (hd : s.Spares dev) {keep : List Nat}
    {e : StorageEngine} (he : { s with device := dev }.opened keep = .ok e) (key : Bytes) :
    e.lookup dev key = .ok (BTree.reported (get key es₀)) := by
  obtain ⟨e', he', hopen, hlaid⟩ := h.opened hd keep
  rw [he] at he'
  cases he'
  obtain ⟨-, ⟨hbtree, hl⟩ | ⟨hclean, hl⟩, -⟩ := StorageEngine.loadFromManifest_loaded he
  · have hlength : e.btree.nodes.length ≤ maxRoutingDepth := by
      rw [hbtree]
      exact Nat.le_of_ble_eq_true rfl
    have hlt := StorageEngine.shallow_of_length hlength _ _ hopen.holds hopen.hosts
    exact (StorageEngine.full_reads hopen.holds hopen.hosts hl hlt).1 key
  obtain ⟨hleg, hentries⟩ := (hlaid _ hl).legible hopen.holds
  have hread := hleg.lookup_eq key
  have hroot := hopen.lazyRoot _ hl
  rw [hentries, ← hroot] at hread
  have hempty : e.btree.dirtyPageIds.isEmpty = true := by simp [BTree.dirtyPageIds, hclean]
  rw [StorageEngine.lookup, hl]
  simp only [hempty, if_true]
  exact hread

/-- Every mutation that the tree accepts can be committed. -/
theorem Reached.commit (h : Reached s) {c : Call} {r : Reply} (keep : List Nat)
    (hok : (s.engine.call s.device c).1 = .ok r) :
    ∃ s', s.commit c keep = .ok s' ∧ Reached s' ∧ s'.engine.validateHandleState = .ok () := by
  have hvalid : ∀ {s : Session}, Reached s → s.engine.validateHandleState = .ok () := by
    intro s h
    obtain ⟨T, es, T₀, es₀, hinv⟩ := h.good
    exact hinv.slots.valid
  have hcall := h.step (.call s c)
  refine ⟨_, ?_, hcall.step (.publish _ keep), hvalid (hcall.step (.publish _ keep))⟩
  rw [Session.commit, hvalid h]
  have hafter := hvalid hcall
  cases hx : s.engine.call s.device c with
  | mk a e =>
    rw [hx] at hok hafter
    cases a with
    | error err => cases hok
    | ok _ => simp only [hafter]

/-- **A data file that ends inside a page.**  Whatever sessions led to the published tree, and
whatever a crash left behind the published pages: the open succeeds, and the handle
serves its calls exactly if the file ends on a page boundary. -/
theorem serves_iff {s : Session} (h : Reached s) (keep : List Nat) {dev : Device}
    (hd : s.Carries dev) :
    ∃ e e₀, { s with device := dev }.opened keep = .ok e ∧ s.opened keep = .ok e₀ ∧
      ({ s with device := dev, engine := e }.Serves keep (e₀.lookup s.device) ↔
        pageSize ∣ dev.size) := by
  obtain ⟨T, es, T₀, es₀, hinv⟩ := h.good
  obtain ⟨e₀, he₀, -, -⟩ := hinv.opened h.spares keep
  obtain ⟨e, he⟩ := (StorageEngine.loadFromManifest_loaded he₀).2.2 dev
  refine ⟨e, e₀, he, he₀, fun hserves => ?_, fun ha => ⟨fun key => ?_, fun c r hok => ?_⟩⟩
  · -- any read passes the check first
    obtain ⟨r, hr, -⟩ := hserves.1 []
    rw [← (StorageEngine.loadFromManifest_loaded he).1]
    apply StorageEngine.validateHandleState_eq_ok.mp
    cases hv : e.validateHandleState with
    | ok _ => rfl
    | error err =>
      simp only [StorageEngine.checkedLookup, hv] at hr
      cases hr
  · refine ⟨_, ?_, hinv.opened_lookup h.spares he₀ key⟩
    have hvalid : e.validateHandleState = .ok () := by
      apply StorageEngine.validateHandleState_eq_ok.mpr
      rwa [(StorageEngine.loadFromManifest_loaded he).1]
    simp only [StorageEngine.checkedLookup, hvalid]
    exact hinv.opened_lookup ⟨ha, hd⟩ he key
  · obtain ⟨s', hs', -, hvalid⟩ := (h.step (.reopen keep ⟨ha, hd⟩ he)).commit keep hok
    exact ⟨s', hs', hvalid⟩

/-- One page is published. -/
def onePage : Session := (initial.calls [.upsert [1] [2]]).publish []

/-- The file of `onePage` after a crash that appended `n` bytes of the next page. -/
def onePageTorn (n : Nat) : Device := { onePage.device with size := onePage.device.size + n }

theorem onePage_reached : Reached onePage := (Reached.initial.calls _).step (.publish _ [])

theorem onePage_carries (n : Nat) : onePage.Carries (onePageTorn n) := by
  intro o ho
  obtain ⟨hdvd, hle⟩ := (onePage_reached.spares.2 o ho).1
  exact ⟨⟨hdvd, hle.trans (Nat.le_add_right _ n)⟩, rfl⟩

/-- With a hundred bytes behind its only page the reopened handle does not read the key. -/
theorem torn_tail_refuses : Reached onePage ∧ onePage.Carries (onePageTorn 100) ∧
    ∃ e, { onePage with device := onePageTorn 100 }.opened [] = .ok e ∧
      e.checkedLookup (onePageTorn 100) [1] =
        .error (.corruption "storage allocation frontier 4196 is not page aligned") := by
  refine ⟨onePage_reached, onePage_carries 100, ?_⟩
  have hsize : (onePageTorn 100).size = 4196 := by decide +kernel
  obtain ⟨T, es, T₀, es₀, hinv⟩ := onePage_reached.good
  obtain ⟨e₀, he₀, -, -⟩ := hinv.opened onePage_reached.spares []
  obtain ⟨e, he⟩ := (StorageEngine.loadFromManifest_loaded he₀).2.2 (onePageTorn 100)
  refine ⟨e, he, ?_⟩
  have hnext : e.nextOffset = 4196 := (StorageEngine.loadFromManifest_loaded he).1.trans hsize
  have hcheck : e.validateHandleState =
      .error (.corruption "storage allocation frontier 4196 is not page aligned") := by
    rw [StorageEngine.validateHandleState, hnext, if_pos (by decide)]
    rfl
  rw [StorageEngine.checkedLookup, hcheck]

theorem serves_iff_onePage : ∃ e e₀, { onePage with device := onePageTorn 100 }.opened [] = .ok e ∧
    onePage.opened [] = .ok e₀ ∧
    ({ onePage with device := onePageTorn 100, engine := e }.Serves [] (e₀.lookup onePage.device) ↔
      pageSize ∣ (onePageTorn 100).size) :=
  serves_iff onePage_reached [] (onePage_carries 100)

end Session

end SeerDb
