/-
# `SeerDb.Storage.MetaLogSpec` — what the metadata log resolves to

`Resolves fs id pmt a n`: the frames `fs` give checkpoint `id` the table `pmt` and the
allocator `a` through a chain of `n` deltas.  `LogWF` is what every log of a database
satisfies: checkpoint ids increase, each frame is named after its generation, and
every frame resolves.  It survives an append, a crash that cuts the log, and a
rewrite that drops frames no kept one is resolved from.
-/
import SeerDb.Storage.MetaLog
import SeerDb.Storage.Slots

namespace SeerDb

open Lib List

/-- The entry of a checkpoint; later frames hide earlier ones of the same id. -/
def entryAt (fs : List MetaLogFrame) (id : Nat) : Option MetaLogEntry :=
  (fs.reverse.find? fun f => f.checkpointId = id).map MetaLogFrame.entry

inductive Resolves (fs : List MetaLogFrame) : Nat → PMT → PageAllocator → Nat → Prop
  | checkpoint {id : Nat} {mappings : List (PageId × PageMapping)} {allocator : PageAllocator} :
      entryAt fs id = some (.checkpoint mappings allocator) →
      Resolves fs id (.ofMappings mappings) allocator 0
  | delta {id n : Nat} {d : MetaDelta} {pmt pmt' : PMT} {allocator : PageAllocator} :
      entryAt fs id = some (.delta d) → d.parentCheckpointId < id → d.parentCheckpointId ≠ 0 →
      Resolves fs d.parentCheckpointId pmt allocator n → n < maxMetaDeltaChain →
      d.apply pmt = .ok pmt' → Resolves fs id pmt' d.allocator (n + 1)

section

variable {fs fs' : List MetaLogFrame} {id n : Nat} {pmt : PMT} {a : PageAllocator}

theorem Resolves.chain_le (h : Resolves fs id pmt a n) : n ≤ maxMetaDeltaChain := by
  cases h with
  | checkpoint _ => exact Nat.zero_le _
  | delta _ _ _ _ hn _ => exact hn

/-- Only the entries up to the checkpoint matter. -/
theorem Resolves.congr (h : Resolves fs id pmt a n) (he : ∀ i ≤ id, entryAt fs' i = entryAt fs i) :
    Resolves fs' id pmt a n := by
  induction h with
  | checkpoint h => exact .checkpoint ((he _ le_rfl).trans h)
  | delta h hlt h0 _ hn happ ih =>
    exact .delta ((he _ le_rfl).trans h) hlt h0 (ih fun i hi => he i (hi.trans hlt.le)) hn happ

theorem applyDeltas_append (ds ds' : List MetaDelta) (s : PMT × PageAllocator) :
    applyDeltas (ds ++ ds') s = match applyDeltas ds s with
      | .error e => .error e
      | .ok s => applyDeltas ds' s := by
  induction ds generalizing s with
  | nil => rfl
  | cons d ds ih =>
    obtain ⟨pmt, alloc⟩ := s
    rw [cons_append, applyDeltas, applyDeltas]
    cases d.apply pmt with
    | error e => rfl
    | ok pmt => exact ih (pmt, d.allocator)

/-- The walk back finds the chain. -/
theorem Resolves.collect (h : Resolves fs id pmt a n) (complete : Bool) :
    ∃ base alloc chain, chain.length = n ∧ applyDeltas chain (base, alloc) = .ok (pmt, a) ∧
      ∀ fuel visited deltas, n < fuel → deltas.length + n ≤ maxMetaDeltaChain →
        (∀ v ∈ visited, id ≤ v) →
        (⟨fs, complete⟩ : ParsedMetaLog).collect fuel id visited deltas
          = .ok (base, alloc, chain ++ deltas) := by
  induction h with
  | @checkpoint id mappings allocator h =>
    refine ⟨.ofMappings mappings, allocator, [], rfl, rfl, fun fuel visited deltas hfuel _ _ => ?_⟩
    obtain ⟨fuel, rfl⟩ : ∃ k, fuel = k + 1 := ⟨fuel - 1, by omega⟩
    have h' : (⟨fs, complete⟩ : ParsedMetaLog).entry id = some (.checkpoint mappings allocator) := h
    rw [ParsedMetaLog.collect, h']
    rfl
  | @delta id n d pmt pmt' allocator h hlt h0 _ hn happ ih =>
    obtain ⟨base, alloc, chain, hlen, hchain, hcollect⟩ := ih
    refine ⟨base, alloc, chain ++
      [d], by simp [hlen], ?_, fun fuel visited deltas hfuel hmax hv => ?_⟩
    · rw [applyDeltas_append, hchain]
      simp only [applyDeltas, happ]
    · obtain ⟨fuel, rfl⟩ : ∃ k, fuel = k + 1 := ⟨fuel - 1, by omega⟩
      have h' : (⟨fs, complete⟩ : ParsedMetaLog).entry id = some (.delta d) := h
      have hnew : d.parentCheckpointId ∉ visited := fun hm => absurd (hv _ hm) (not_le.mpr hlt)
      rw [ParsedMetaLog.collect, h']
      simp only [if_neg hnew, if_neg h0]
      rw [if_neg (by omega), hcollect fuel _ (d :: deltas) (by omega) (by simp; omega) ?_]
      · simp
      · intro v hm
        rcases mem_cons.mp hm with rfl | hm
        · exact le_rfl
        · exact hlt.le.trans (hv v hm)

theorem Resolves.resolve (h : Resolves fs id pmt a n) (complete : Bool) :
    (⟨fs, complete⟩ : ParsedMetaLog).resolve id = .ok (pmt, a, n) := by
  obtain ⟨base, alloc, chain, hlen, hchain, hcollect⟩ := h.collect complete
  have hle := h.chain_le
  rw [ParsedMetaLog.resolve, hcollect _ _ _ (by omega) (by simpa using hle) (by simp), append_nil]
  simp only [hchain, hlen]

end

/-! ## Well-formed logs -/

structure LogWF (fs : List MetaLogFrame) : Prop where
  increasing : fs.Pairwise fun f g => f.checkpointId < g.checkpointId
  named : ∀ f ∈ fs, f.manifest.generationId = f.checkpointId ∧
    f.manifest.pmtCheckpointId = f.checkpointId
  /-- Checkpoint 0 is the one of the empty database. -/
  bootstrap : ∀ f ∈ fs, f.checkpointId = 0 → ∃ allocator, f.entry = .checkpoint [] allocator
  resolved : ∀ f ∈ fs, ∃ pmt a n, Resolves fs f.checkpointId pmt a n ∧ Sorted pmt.mappings

section

variable {fs : List MetaLogFrame} {f g : MetaLogFrame} {complete : Bool}

theorem eq_of_checkpointId (h : fs.Pairwise fun f g => f.checkpointId < g.checkpointId)
    (hf : f ∈ fs) (hg : g ∈ fs) (he : f.checkpointId = g.checkpointId) : f = g := by
  have hnodup : (fs.map MetaLogFrame.checkpointId).Nodup :=
    pairwise_map.mpr (h.imp fun hlt => hlt.ne)
  exact inj_on_of_nodup_map hnodup hf hg he

theorem entryAt_of_mem (h : fs.Pairwise fun f g => f.checkpointId < g.checkpointId) (hf : f ∈ fs) :
    entryAt fs f.checkpointId = some f.entry := by
  have hnodup : (fs.reverse.map MetaLogFrame.checkpointId).Nodup :=
    pairwise_map.mpr (pairwise_reverse.mpr (h.imp fun hlt => hlt.ne'))
  rw [entryAt, find?_of_nodup hnodup (mem_reverse.mpr hf)]
  rfl

theorem entryAt_eq_some {id : Nat} {e : MetaLogEntry} (h : entryAt fs id = some e) :
    ∃ f ∈ fs, f.checkpointId = id ∧ f.entry = e := by
  obtain ⟨f, hf, he⟩ := Option.map_eq_some_iff.mp h
  exact ⟨f, mem_reverse.mp (mem_of_find?_eq_some hf), by simpa using List.find?_some hf, he⟩

theorem entryAt_eq_none {id : Nat} (h : ∀ f ∈ fs, f.checkpointId ≠ id) : entryAt fs id = none := by
  cases he : entryAt fs id with
  | none => rfl
  | some e =>
    obtain ⟨f, hf, hid, -⟩ := entryAt_eq_some he
    exact absurd hid (h f hf)

/-- Two logs that have the same frames up to an id have the same entries up to it. -/
theorem entryAt_congr {fs' : List MetaLogFrame}
    (h : fs.Pairwise fun f g => f.checkpointId < g.checkpointId)
    (h' : fs'.Pairwise fun f g => f.checkpointId < g.checkpointId) {id : Nat}
    (hmem : ∀ f : MetaLogFrame, f.checkpointId = id → (f ∈ fs' ↔ f ∈ fs)) :
    entryAt fs' id = entryAt fs id := by
  by_cases hex : ∃ f ∈ fs, f.checkpointId = id
  · obtain ⟨f, hf, rfl⟩ := hex
    rw [entryAt_of_mem h hf, entryAt_of_mem h' ((hmem f rfl).mpr hf)]
  · rw [entryAt_eq_none fun f hf hid => hex ⟨f, hf, hid⟩,
      entryAt_eq_none fun f hf hid => hex ⟨f, (hmem f hid).mp hf, hid⟩]

theorem LogWF.nil : LogWF [] := ⟨List.Pairwise.nil, by simp, by simp, by simp⟩

theorem Resolves.mem {id n : Nat} {pmt : PMT} {a : PageAllocator} (h : Resolves fs id pmt a n) :
    ∃ f ∈ fs, f.checkpointId = id := by
  cases h with
  | checkpoint h =>
    obtain ⟨f, hf, hid, -⟩ := entryAt_eq_some h
    exact ⟨f, hf, hid⟩
  | delta h _ _ _ _ _ =>
    obtain ⟨f, hf, hid, -⟩ := entryAt_eq_some h
    exact ⟨f, hf, hid⟩

/-- A newer frame hides nothing. -/
theorem Resolves.concat {id n : Nat} {pmt : PMT} {a : PageAllocator} (h : Resolves fs id pmt a n)
    (hlast : ∀ f ∈ fs, f.checkpointId < g.checkpointId) : Resolves (fs ++ [g]) id pmt a n := by
  obtain ⟨f, hf, rfl⟩ := h.mem
  refine h.congr fun i hi => ?_
  have hne : ¬ g.checkpointId = i := fun heq => by
    have := hlast f hf
    omega
  simp [entryAt, hne]

/-- The log determines the table. -/
theorem Resolves.unique {id n n' : Nat} {pmt pmt' : PMT} {a a' : PageAllocator}
    (h : Resolves fs id pmt a n) (h' : Resolves fs id pmt' a' n') :
    pmt' = pmt ∧ a' = a ∧ n' = n := by
  have heq := (h'.resolve true).symm.trans (h.resolve true)
  simpa using heq

/-- What the log gives for a checkpoint is what it resolves to. -/
theorem LogWF.resolves_of_ok (h : LogWF fs) {id n : Nat} {pmt : PMT} {a : PageAllocator}
    (hr : (⟨fs, complete⟩ : ParsedMetaLog).resolve id = .ok (pmt, a, n)) :
    Resolves fs id pmt a n ∧ Sorted pmt.mappings := by
  have hex : ∃ f ∈ fs, f.checkpointId = id := by
    by_contra hno
    have hnone : (⟨fs, complete⟩ : ParsedMetaLog).entry id = none :=
      entryAt_eq_none fun f hf hid => hno ⟨f, hf, hid⟩
    rw [ParsedMetaLog.resolve, ParsedMetaLog.collect, hnone] at hr
    cases hr
  obtain ⟨f, hf, rfl⟩ := hex
  obtain ⟨pmt', a', n', hres, hs⟩ := h.resolved f hf
  have heq := (hres.resolve complete).symm.trans hr
  cases heq
  exact ⟨hres, hs⟩

/-- A frame behind the last one that resolves. -/
theorem LogWF.append (h : LogWF fs) (hlast : ∀ f ∈ fs, f.checkpointId < g.checkpointId)
    (hname : g.manifest.generationId = g.checkpointId ∧ g.manifest.pmtCheckpointId = g.checkpointId)
    (hboot : g.checkpointId = 0 → ∃ allocator, g.entry = .checkpoint [] allocator)
    (hres : ∃ pmt a n, Resolves (fs ++ [g]) g.checkpointId pmt a n ∧ Sorted pmt.mappings) :
    LogWF (fs ++ [g]) ∧ ∀ {id pmt a n}, Resolves fs id pmt a n →
      Resolves (fs ++ [g]) id pmt a n := by
  have hmono : ∀ {id pmt a n}, Resolves fs id pmt a n → Resolves (fs ++ [g]) id pmt a n :=
    fun hr => hr.concat hlast
  refine ⟨⟨pairwise_concat h.increasing hlast, forall_mem_concat h.named hname,
    forall_mem_concat h.bootstrap hboot, forall_mem_concat (fun f hf => ?_) hres⟩, hmono⟩
  obtain ⟨pmt, a, n, hr, hs⟩ := h.resolved f hf
  exact ⟨pmt, a, n, hmono hr, hs⟩

/-- A part of a log that has what its frames are resolved from. -/
theorem LogWF.sublist {fs' : List MetaLogFrame} (h : LogWF fs) (hsub : fs'.Sublist fs)
    (hmono : ∀ f ∈ fs', ∀ {pmt a n}, Resolves fs f.checkpointId pmt a n →
      Resolves fs' f.checkpointId pmt a n) : LogWF fs' := by
  refine ⟨h.increasing.sublist hsub, fun f hf => h.named f (hsub.subset hf),
    fun f hf => h.bootstrap f (hsub.subset hf), fun f hf => ?_⟩
  obtain ⟨pmt, a, n, hr, hs⟩ := h.resolved f (hsub.subset hf)
  exact ⟨pmt, a, n, hmono f hf hr, hs⟩

/-- A log cut at a frame. -/
theorem LogWF.take (h : LogWF fs) (k : Nat) : LogWF (fs.take k) ∧
    ∀ f ∈ fs.take k, ∀ {pmt a n}, Resolves fs f.checkpointId pmt a n →
      Resolves (fs.take k) f.checkpointId pmt a n := by
  have hsub := take_sublist k fs
  have hinc := h.increasing.sublist hsub
  -- a frame with a smaller id stands before the frame
  have hbefore : ∀ f ∈ fs.take k, ∀ x ∈ fs, x.checkpointId ≤ f.checkpointId → x ∈ fs.take k := by
    intro f hf x hx hle
    have hsplit := h.increasing
    rw [← take_append_drop k fs] at hsplit hx
    rcases mem_append.mp hx with hx | hx
    · exact hx
    · have := (pairwise_append.mp hsplit).2.2 f hf x hx
      omega
  have hmono : ∀ f ∈ fs.take k, ∀ {pmt a n}, Resolves fs f.checkpointId pmt a n →
      Resolves (fs.take k) f.checkpointId pmt a n := by
    intro f hf pmt a n hr
    refine hr.congr fun i hi => entryAt_congr h.increasing hinc fun x hx => ?_
    exact ⟨fun hm => hsub.subset hm, fun hm => hbefore f hf x hm (hx ▸ hi)⟩
  exact ⟨h.sublist hsub hmono, hmono⟩

/-- What a part of the log selects, a longer part selects too. -/
theorem LogWF.resolves_longer (h : LogWF fs) {j k id n : Nat} {pmt : PMT}
    {a : PageAllocator} (hjk : j ≤ k) (hr : Resolves (fs.take j) id pmt a n) :
    Resolves (fs.take k) id pmt a n := by
  obtain ⟨f, hf, rfl⟩ := hr.mem
  obtain ⟨pmt', a', n', hwhole, -⟩ := h.resolved f ((take_sublist j fs).subset hf)
  obtain ⟨rfl, rfl, rfl⟩ := hr.unique ((h.take j).2 f hf hwhole)
  exact (h.take k).2 f ((take_sublist_take_left hjk).subset hf) hwhole

/-! ## Dropping frames -/

/-- Every delta that is kept has its parent kept. -/
def Closed (fs : List MetaLogFrame) (keep : List Nat) : Prop :=
  ∀ i ∈ keep, ∀ d, entryAt fs i = some (.delta d) → d.parentCheckpointId = 0 ∨
    d.parentCheckpointId ∈ keep

theorem Closed.append {keep keep' : List Nat} (h : Closed fs keep) (h' : Closed fs keep') :
    Closed fs (keep ++ keep') := by
  intro i hi d hd
  rcases mem_append.mp hi with hi | hi
  · exact (h i hi d hd).imp_right (mem_append_left _)
  · exact (h' i hi d hd).imp_right (mem_append_right _)

/-- The walk over the ancestors finds a set that is closed but for where it started. -/
theorem ancestors_closed : ∀ (fuel current : Nat) (found : List Nat) {ids : List Nat},
    (⟨fs, complete⟩ : ParsedMetaLog).ancestors fuel current found = .ok ids →
    current ∈ ids ∧ (∀ i ∈ found, i ∈ ids) ∧ ∀ i ∈ ids, i ∈ found ∨
      ∀ d, entryAt fs i = some (.delta d) → d.parentCheckpointId = 0 ∨ d.parentCheckpointId ∈ ids
  | 0, _, _, _, h => by cases h
  | fuel + 1, current, found, ids, h => by
    rw [ParsedMetaLog.ancestors] at h
    have hentry : (⟨fs, complete⟩ : ParsedMetaLog).entry current = entryAt fs current := rfl
    rw [hentry] at h
    split at h
    · cases h
    rcases he : entryAt fs current with _ | entry
    · rw [he] at h
      cases h
    rw [he] at h
    cases entry with
    | checkpoint mappings allocator =>
      cases h
      refine ⟨.head _, fun i hi => .tail _ hi, fun i hi => ?_⟩
      rcases mem_cons.mp hi with rfl | hi
      · exact .inr fun d hd => by rw [he] at hd; cases hd
      · exact .inl hi
    | delta d =>
      simp only at h
      split at h
      · rename_i h0
        cases h
        refine ⟨.head _, fun i hi => .tail _ hi, fun i hi => ?_⟩
        rcases mem_cons.mp hi with rfl | hi
        · refine .inr fun d' hd' => .inl ?_
          rw [he] at hd'
          cases hd'
          exact h0
        · exact .inl hi
      · obtain ⟨hparent, hfound, hclosed⟩ := ancestors_closed fuel _ _ h
        refine ⟨hfound _ (.head _), fun i hi => hfound i (.tail _ hi), fun i hi => ?_⟩
        rcases hclosed i hi with hi' | hi'
        · rcases mem_cons.mp hi' with rfl | hi'
          · refine .inr fun d' hd' => .inr ?_
            rw [he] at hd'
            cases hd'
            exact hparent
          · exact .inl hi'
        · exact .inr hi'

/-- What the manifests are resolved from is closed, and has their checkpoints. -/
theorem retainedCheckpoints_closed : ∀ (manifests : List Manifest) {ids : List Nat},
    (⟨fs, complete⟩ : ParsedMetaLog).retainedCheckpoints manifests = .ok ids → Closed fs ids ∧
      ∀ m ∈ manifests, m.pmtCheckpointId ≠ 0 → m.pmtCheckpointId ∈ ids
  | [], ids, h => by
    cases h
    exact ⟨forall_mem_nil _, forall_mem_nil _⟩
  | m :: manifests, ids, h => by
    rw [ParsedMetaLog.retainedCheckpoints] at h
    rcases hrest : (⟨fs, complete⟩ : ParsedMetaLog).retainedCheckpoints manifests with e | found
    · rw [hrest] at h
      cases h
    rw [hrest] at h
    obtain ⟨hclosed, hmem⟩ := retainedCheckpoints_closed manifests hrest
    simp only at h
    split at h
    · rename_i h0
      cases h
      refine ⟨hclosed, fun m' hm' hne => ?_⟩
      rcases mem_cons.mp hm' with rfl | hm'
      · exact absurd h0 hne
      · exact hmem m' hm' hne
    cases hanc : (⟨fs, complete⟩ : ParsedMetaLog).ancestors (maxMetaDeltaChain + 1)
        m.pmtCheckpointId [] with
    | error e =>
      simp only [hanc] at h
      cases h
    | ok ancestors =>
      simp only [hanc] at h
      cases h
      obtain ⟨hself, -, hall⟩ := ancestors_closed _ _ _ hanc
      have hanc' : Closed fs ancestors := fun i hi d' hd' =>
        ((hall i hi).resolve_left not_mem_nil) d' hd'
      refine ⟨hanc'.append hclosed, fun m' hm' hne => ?_⟩
      rcases mem_cons.mp hm' with rfl | hm'
      · exact mem_append_left _ hself
      · exact mem_append_right _ (hmem m' hm' hne)

/-- A log without the frames outside of a closed set. -/
theorem LogWF.filter {keep : List Nat} (h : LogWF fs) (hc : Closed fs keep) :
    LogWF (fs.filter fun f => f.checkpointId ∈ keep) ∧ ∀ {id pmt a n}, id ∈ keep →
      Resolves fs id pmt a n → Resolves (fs.filter fun f => f.checkpointId ∈ keep) id pmt a n := by
  have hsub : (fs.filter fun f => f.checkpointId ∈ keep).Sublist fs := filter_sublist
  have hinc := h.increasing.sublist hsub
  have hentry : ∀ i ∈ keep, entryAt (fs.filter fun f => f.checkpointId ∈ keep) i =
    entryAt fs i := by
    intro i hi
    refine entryAt_congr h.increasing hinc fun f hf => ?_
    simp [hf, hi]
  have hmono : ∀ {id pmt a n}, id ∈ keep → Resolves fs id pmt a n →
      Resolves (fs.filter fun f => f.checkpointId ∈ keep) id pmt a n := by
    intro id pmt a n hid hr
    induction hr with
    | checkpoint he => exact .checkpoint ((hentry _ hid).trans he)
    | delta he hlt h0 _ hn happ ih =>
      exact .delta ((hentry _ hid).trans he) hlt h0 (ih ((hc _ hid _ he).resolve_left h0)) hn happ
  refine ⟨h.sublist hsub fun f hf {_ _ _} hr => hmono ?_ hr, hmono⟩
  simpa using (mem_filter.mp hf).2

end

/-! ## A delta gives back the table it was computed from -/

section

variable {parent pmt : PMT}

theorem removeAll_ok : ∀ (ids : List PageId) {t : PMT}, Sorted t.mappings → ids.Nodup →
    (∀ i ∈ ids, (t.get i).isSome) → ∃ t', removeAll ids t = .ok t' ∧ Sorted t'.mappings ∧
      ∀ q, t'.get q = if q ∈ ids then none else t.get q
  | [], t, hs, _, _ => ⟨t, rfl, hs, fun q => by simp⟩
  | i :: ids, t, hs, hn, hsome => by
    obtain ⟨hi, hn'⟩ := nodup_cons.mp hn
    have hget : ∀ q, (t.remove i).get q = if q = i then none else t.get q := fun q =>
      get_erase t.mappings i q
    have hrest : ∀ j ∈ ids, ((t.remove i).get j).isSome := by
      intro j hj
      have hne : j ≠ i := fun he => hi (he ▸ hj)
      rw [hget, if_neg hne]
      exact hsome j (.tail _ hj)
    obtain ⟨t', hok, hs', hget'⟩ := removeAll_ok ids (sorted_erase hs) hn' hrest
    refine ⟨t', ?_, hs', fun q => ?_⟩
    · rw [removeAll, if_pos (show t.contains i = true from hsome i (.head _))]
      exact hok
    · rw [hget', hget]
      by_cases hq : q = i
      · simp [hq]
      · simp [hq]

theorem foldl_insertPersisted : ∀ (us : List (PageId × PageMapping)) {t : PMT}, Sorted t.mappings →
    Sorted us → Sorted (us.foldl (fun t u => t.insertPersisted u.1 u.2) t).mappings ∧
      ∀ q, (us.foldl (fun t u => t.insertPersisted u.1 u.2) t).get q = (Lib.get q us).or (t.get q)
  | [], t, hs, _ => ⟨hs, fun q => rfl⟩
  | (p, m) :: us, t, hs, hu => by
    obtain ⟨hlt, hu'⟩ := sorted_cons.mp hu
    have hget : ∀ q, (t.insertPersisted p m).get q = if q = p then some m else t.get q := fun q =>
      get_upsert hs p q m
    obtain ⟨hs', hget'⟩ := foldl_insertPersisted us (t := t.insertPersisted p m)
      (sorted_upsert hs) hu'
    refine ⟨hs', fun q => ?_⟩
    rw [foldl_cons, hget', hget]
    by_cases hq : q = p
    · have hnone : Lib.get q us = none := get_eq_none_iff.mpr fun e he => (hq ▸ hlt e he).ne'
      rw [hnone, hq]
      simp [Lib.get]
    · have hb : (q == p) = false := by simpa using hq
      simp [Lib.get, lookup_cons, hq, hb]

/-- **The delta round trip.** -/
theorem apply_encodeDelta (hparent : Sorted parent.mappings) (hpmt : Sorted pmt.mappings)
    (id : Nat) (a : PageAllocator) :
    ∃ t, (encodeDelta id parent pmt a).apply parent = .ok t ∧ t.mappings = pmt.mappings := by
  have hmem : ∀ {q}, q ∈ (encodeDelta id parent pmt a).removals ↔
      (parent.get q).isSome ∧ pmt.get q = none := by
    intro q
    simp only [encodeDelta, mem_map, mem_filter, PMT.contains]
    constructor
    · rintro ⟨⟨q', m⟩, ⟨hm, hn⟩, rfl⟩
      have hsome : parent.get q' = some m := (get_eq_some_iff hparent).mpr hm
      exact ⟨by simp [hsome], by simpa using hn⟩
    · rintro ⟨hsome, hnone⟩
      obtain ⟨m, hm⟩ := Option.isSome_iff_exists.mp hsome
      exact ⟨(q, m), ⟨(get_eq_some_iff hparent).mp hm, by simp [hnone]⟩, rfl⟩
  have hnodup : (encodeDelta id parent pmt a).removals.Nodup := by
    refine List.Nodup.sublist (filter_sublist.map Prod.fst) ?_
    exact pairwise_map.mpr (List.Pairwise.imp (fun hlt => hlt.ne) hparent)
  obtain ⟨t, hok, hs, hget⟩ := removeAll_ok _ hparent hnodup fun i hi => (hmem.mp hi).1
  have hsub : Sorted (encodeDelta id parent pmt a).updates := Sorted.sublist filter_sublist hpmt
  obtain ⟨hs', hget'⟩ := foldl_insertPersisted _ hs hsub
  refine ⟨_, by rw [MetaDelta.apply, hok], eq_of_get hs' hpmt fun q => ?_⟩
  show PMT.get _ q = pmt.get q
  rw [hget', hget]
  have hupd : ∀ m, Lib.get q (encodeDelta id parent pmt a).updates = some m ↔
      pmt.get q = some m ∧ parent.get q ≠ some m := by
    intro m
    rw [get_eq_some_iff hsub, encodeDelta, mem_filter, ← get_eq_some_iff hpmt, decide_eq_true_eq]
    rfl
  cases hq : pmt.get q with
  | none =>
    have hnone : Lib.get q (encodeDelta id parent pmt a).updates = none := by
      by_contra hne
      obtain ⟨m, hm⟩ := Option.ne_none_iff_exists'.mp hne
      rw [((hupd m).mp hm).1] at hq
      cases hq
    rw [hnone, Option.none_or]
    split
    · rfl
    · rename_i hno
      by_contra hne
      exact hno (hmem.mpr ⟨Option.isSome_iff_ne_none.mpr hne, hq⟩)
  | some m =>
    have hno : q ∉ (encodeDelta id parent pmt a).removals := fun hm => by
      rw [(hmem.mp hm).2] at hq
      cases hq
    rw [if_neg hno]
    by_cases hsame : parent.get q = some m
    · have hnone : Lib.get q (encodeDelta id parent pmt a).updates = none := by
        by_contra hne
        obtain ⟨m', hm'⟩ := Option.ne_none_iff_exists'.mp hne
        obtain ⟨h1, h2⟩ := (hupd m').mp hm'
        exact h2 (hsame.trans (hq.symm.trans h1))
      rw [hnone, hsame, Option.none_or]
    · rw [(hupd m).mpr ⟨hq, hsame⟩]
      rfl

end

section

variable {fs : List MetaLogFrame} {id parentId : Nat} {pmt : PMT} {a : PageAllocator}
  {entry : MetaLogEntry} {m : Manifest}

theorem entryAt_concat (g : MetaLogFrame) : entryAt (fs ++ [g]) g.checkpointId = some g.entry := by
  rw [entryAt, reverse_append, reverse_singleton, singleton_append,
    List.find?_cons_of_pos (by simp)]
  rfl

/-- **The next frame resolves to the table it was written for.** -/
theorem generationEntry_resolves {log : Option ParsedMetaLog} (h : LogWF fs)
    (hpmt : Sorted pmt.mappings) (hlast : ∀ f ∈ fs, f.checkpointId < id)
    (hlog : ∀ p, log = some p → p.frames = fs)
    (he : generationEntry log parentId pmt a = .ok entry) :
    ∃ pmt' n, Resolves (fs ++ [⟨id, m, entry⟩]) id pmt' a n ∧ pmt'.mappings = pmt.mappings := by
  have hself : entryAt (fs ++ [⟨id, m, entry⟩]) id = some entry := entryAt_concat ⟨id, m, entry⟩
  have hbelow : ∀ {i pmt a n}, Resolves fs i pmt a n →
    Resolves (fs ++ [⟨id, m, entry⟩]) i pmt a n :=
    fun hr => hr.concat hlast
  unfold generationEntry at he
  split at he
  · cases he
    exact ⟨_, 0, .checkpoint hself, rfl⟩
  rename_i h0
  rcases hl : log with _ | p
  · rw [hl] at he
    cases he
  rw [hl] at he
  obtain ⟨frames, complete⟩ := p
  obtain rfl : frames = fs := hlog _ hl
  simp only at he
  rcases hr : (⟨frames, complete⟩ : ParsedMetaLog).resolve parentId with e | ⟨parent, alloc, depth⟩
  · rw [hr] at he
    cases he
  rw [hr] at he
  simp only at he
  obtain ⟨hres, hs⟩ := h.resolves_of_ok hr
  split at he
  · cases he
    exact ⟨_, 0, .checkpoint hself, rfl⟩
  rename_i hdepth
  cases he
  obtain ⟨t, happ, ht⟩ := apply_encodeDelta hs hpmt parentId a
  obtain ⟨f, hf, hfid⟩ := hres.mem
  have hlt : parentId < id := hfid ▸ hlast f hf
  exact ⟨t, depth + 1, .delta hself hlt h0 (hbelow hres) (not_le.mp hdepth) happ, ht⟩

end

/-- A parent that is in the log can be built on. -/
theorem generationEntry_ok {fs : List MetaLogFrame} {log : Option ParsedMetaLog} {parentId : Nat}
    (h : LogWF fs) (hlog : ∀ p, log = some p → p.frames = fs) (hnone : log = none → fs = [])
    (hparent : parentId = 0 ∨ ∃ f ∈ fs, f.checkpointId = parentId) (pmt : PMT) (a : PageAllocator) :
    ∃ entry, generationEntry log parentId pmt a = .ok entry := by
  unfold generationEntry
  split
  · exact ⟨_, rfl⟩
  rename_i h0
  obtain ⟨f, hf, rfl⟩ := hparent.resolve_left h0
  cases hl : log with
  | none =>
    rw [hnone hl] at hf
    cases hf
  | some p =>
    obtain ⟨frames, complete⟩ := p
    obtain rfl : frames = fs := hlog _ hl
    obtain ⟨t, a', n, hr, -⟩ := h.resolved f hf
    simp only [hr.resolve complete]
    split
    · exact ⟨_, rfl⟩
    · exact ⟨_, rfl⟩

/-! ## The authority -/

instance : Std.Total Manifest.notOlder where
  total a b := by
    rcases Nat.lt_trichotomy a.generationId b.generationId with h | h | h
    · exact .inr (.inl h)
    · rcases Nat.le_total a.commitId b.commitId with hc | hc
      · exact .inr (.inr ⟨h, hc⟩)
      · exact .inl (.inr ⟨h.symm, hc⟩)
    · exact .inl (.inl h)

instance : IsTrans Manifest Manifest.notOlder where
  trans a b c := by
    rintro (hab | ⟨hab, hc⟩) (hbc | ⟨hbc, hc'⟩)
    · exact .inl (Nat.lt_trans hbc hab)
    · exact .inl (Nat.lt_of_le_of_lt hbc.le hab)
    · exact .inl (Nat.lt_of_lt_of_le hbc hab.le)
    · exact .inr ⟨hbc.trans hab, Nat.le_trans hc' hc⟩

section

variable {fs : List MetaLogFrame}

theorem LogWF.le_last (h : LogWF fs) {last f : MetaLogFrame} (hlast : fs.getLast? = some last)
    (hf : f ∈ fs) : f.checkpointId ≤ last.checkpointId := by
  obtain ⟨init, rfl⟩ := List.getLast?_eq_some_iff.mp hlast
  rcases mem_append.mp hf with hf | hf
  · exact ((pairwise_append.mp h.increasing).2.2 f hf last (.head _)).le
  · rw [mem_singleton.mp hf]

/-- The authority is the last frame. -/
theorem LogWF.selectAuthorityManifest (h : LogWF fs) (complete : Bool) :
    (⟨fs, complete⟩ : ParsedMetaLog).selectAuthorityManifest
      = .ok (fs.getLast?.map MetaLogFrame.manifest) := by
  have hall : ∀ m ∈ fs.map MetaLogFrame.manifest, resolves ⟨fs, complete⟩ m = true := by
    intro m hm
    obtain ⟨f, hf, rfl⟩ := mem_map.mp hm
    obtain ⟨pmt, a, n, hr, -⟩ := h.resolved f hf
    rw [resolves, (h.named f hf).2, hr.resolve complete]
    simp
  have hsorted := pairwise_insertionSort Manifest.notOlder (fs.map MetaLogFrame.manifest)
  have hmem : ∀ {m}, m ∈ (fs.map MetaLogFrame.manifest).insertionSort Manifest.notOlder ↔
      m ∈ fs.map MetaLogFrame.manifest := mem_insertionSort _
  rw [ParsedMetaLog.selectAuthorityManifest, ParsedMetaLog.publicationManifests]
  cases hl : (fs.map MetaLogFrame.manifest).insertionSort Manifest.notOlder with
  | nil =>
    have hnil : fs = [] := by
      have hlen := congrArg List.length hl
      rw [length_insertionSort, length_map] at hlen
      exact length_eq_zero_iff.mp hlen
    subst hnil
    rfl
  | cons m rest =>
    rw [hl] at hsorted hmem
    have hm := hmem.mp (.head _)
    rw [List.find?_cons_of_pos (hall m hm)]
    simp only
    congr 1
    -- the head of the sorted list is not older than the last frame, and no frame is newer
    obtain ⟨f, hf, rfl⟩ := mem_map.mp hm
    obtain ⟨last, hlast⟩ := Option.isSome_iff_exists.mp
      (List.getLast?_isSome.mpr (ne_nil_of_mem hf))
    have hlm : last ∈ fs := mem_of_getLast? hlast
    rw [hlast, Option.map_some]
    rcases mem_cons.mp (hmem.mpr (mem_map_of_mem (f := MetaLogFrame.manifest) hlm)) with he | he
    · rw [he]
    have hle := h.le_last hlast hf
    have hold : Manifest.notOlder f.manifest last.manifest := (pairwise_cons.mp hsorted).1 _ he
    rw [Manifest.notOlder, (h.named f hf).1, (h.named last hlm).1] at hold
    have hge : last.checkpointId ≤ f.checkpointId := hold.elim Nat.le_of_lt fun h => h.1.le
    rw [eq_of_checkpointId h.increasing hf hlm (Nat.le_antisymm hle hge)]

end

end SeerDb
