/-
# `SeerDb.Db.WalCheck` — the passes over the bytes of the WAL

`analyze_wal_bytes`, `reconcile_wal` and `recover_from_wal` of `db/wal_recovery.rs`, and
`wal_check_status` of `db/diagnostics.rs`.  All of them go over the records of the file in
the same way: mutations are collected, a commit envelope has to count and digest the
mutations before it and has to fit the authority.  They differ in what they do with a
mutation and with a commit, which is what a `WalPass` says.
-/
import SeerDb.Db.Client
import SeerDb.Recovery.WalFormat

namespace SeerDb

open Lib

/-- What a pass does with a mutation, and with a commit that closes the mutations before it
and whose record lies between two offsets. -/
structure WalPass (σ : Type) where
  mutation : WalRecord → Except Error Unit
  ahead : CommitRecord → Except Error Bool
  commit : CommitRecord → Bool → List WalRecord → Nat → Nat → σ → Except Error σ

/-- A mutation, a commit envelope, or a record that no pass looks at. -/
def StoredRecord.read (r : StoredRecord) : Except Error (Option WalRecord) :=
  match r.recordType with
  | .mutation mutationType => .ok (some (.mutation mutationType r.payload))
  | .commit => match CommitRecord.fromBytes r.payload with
    | none => .error (.corruption "invalid WAL commit envelope")
    | some c => .ok (some (.commit c))
  | _ => .ok none

/-- Go over records that begin at `offset`, with the mutations `pending` not closed yet. -/
def WalPass.run {σ : Type} (p : WalPass σ) :
    List StoredRecord → Nat → List WalRecord → σ → Except Error (List WalRecord × σ)
  | [], _, pending, s => .ok (pending, s)
  | r :: rest, offset, pending, s => do
    match ← r.read with
    | none => p.run rest (offset + r.size) pending s
    | some (.mutation mutationType payload) => do
      p.mutation (.mutation mutationType payload)
      p.run rest (offset + r.size) (pending ++ [.mutation mutationType payload]) s
    | some (.commit c) => do
      checkGroup c pending
      let ahead ← p.ahead c
      let s ← p.commit c ahead pending offset (offset + r.size) s
      p.run rest (offset + r.size) [] s

/-! ## The passes -/

def disagrees : Error := .corruption "WAL commit disagrees with authoritative manifest"

def analysisPass (current : Option Manifest) : WalPass WalAnalysis where
  mutation := fun _ => .ok ()
  ahead := fun c => match current with
    | none => .ok (c.generationId > 0 || c.commitId > 0)
    | some current => aheadOf disagrees current c
  commit := fun _ ahead _ _ stop analysis => .ok ⟨stop, analysis.hasUnpublishedCommit || ahead⟩

def analyzeWalBytes (bytes : Bytes) (current : Option Manifest) : Except Error WalAnalysis := do
  let (_, analysis) ← (analysisPass current).run (parseRecordsWithStatus bytes).1 0 [] ⟨0, false⟩
  .ok analysis

/-- Cut the file behind its last commit. -/
def reconcileWalBytes (bytes : Bytes) (current : Option Manifest) : Except Error Bytes := do
  let analysis ← analyzeWalBytes bytes current
  if (parseRecordsWithStatus bytes).2 = .corrupt ∧ current = none then
    .error (.corruption "invalid complete WAL record")
  else if analysis.lastCommitEnd ≥ bytes.length then .ok bytes
  else .ok (bytes.take analysis.lastCommitEnd)

def walHasUnpublishedCommits (bytes : Bytes) (current : Option Manifest) : Except Error Bool := do
  let analysis ← analyzeWalBytes bytes current
  if (parseRecordsWithStatus bytes).2 = .corrupt ∧ current = none then
    .error (.corruption "invalid complete WAL record")
  else .ok analysis.hasUnpublishedCommit

/-- A group that is ahead goes to `apply`; what is kept is the last such commit and where its record
begins. -/
def recoverPass {σ : Type} (apply : List WalRecord → σ → Except Error σ)
    (current : Option Manifest) :
    WalPass (Option (CommitRecord × Nat) × σ) where
  mutation := fun _ => .ok ()
  ahead := fun c => match current with
    | none => .ok true
    | some current => aheadOf (.corruption "WAL commit frontier is inconsistent with manifest")
        current c
  commit := fun c ahead pending start _ (last, s) =>
    if ahead then do
      let s ← apply pending s
      .ok (some (c, start), s)
    else .ok (last, s)

def recoverFromWalBytes {σ : Type} (apply : List WalRecord → σ → Except Error σ) (bytes : Bytes)
    (current : Option Manifest) (s : σ) : Except Error (Option (CommitRecord × Nat) × σ) :=
  if (parseRecordsWithStatus bytes).2 = .corrupt then .error
    (.corruption "invalid complete WAL record")
  else do
    let (_, result) ← (recoverPass apply current).run (parseRecordsWithStatus bytes).1 0 []
      (none, s)
    .ok result

/-- What a writable open does with the WAL file. -/
def openReplay {σ : Type} (apply : List WalRecord → σ → Except Error σ) (wal : Option Bytes)
    (current : Option Manifest) (s : σ) : Except Error (Option (CommitRecord × Nat) × σ) :=
  match wal with
  | none => .ok (none, s)
  | some bytes => do
    let kept ← reconcileWalBytes bytes current
    let unpublished ← walHasUnpublishedCommits kept current
    if unpublished then recoverFromWalBytes apply kept current s else .ok (none, s)

/-! ## The offline check -/

inductive WalCheckStatus where
  | clean | pending | needsRecovery | incomplete
deriving DecidableEq, Repr

def checkPass (current : Manifest) : WalPass Bool where
  mutation := fun r => (decodeMutation r).map fun _ => ()
  ahead := aheadOf disagrees current
  commit := fun _ ahead _ _ _ sawUnpublishedCommit => .ok (sawUnpublishedCommit || ahead)

def walCheckStatus (latest : Option Manifest) (wal : Option Bytes) : Except Error WalCheckStatus :=
  match wal with
  | none => .ok .clean
  | some bytes =>
    if bytes = [] then .ok .clean
    else match latest with
      | none => .error (.corruption "database has no valid manifest generation")
      | some current =>
        let (records, status) := parseRecordsWithStatus bytes
        match status with
        | .corrupt => do
          let analysis ← analyzeWalBytes bytes (some current)
          .ok (if analysis.hasUnpublishedCommit then .needsRecovery else .incomplete)
        | .incomplete => do
          let _ ← (checkPass current).run records 0 [] false
          .ok .incomplete
        | .complete => do
          let (pending, sawUnpublishedCommit) ← (checkPass current).run records 0 [] false
          .ok (if records = [] then .clean else if sawUnpublishedCommit then .needsRecovery
            else if pending ≠ [] then .pending else .clean)

/-- The WAL part of `DB::check` in a directory with this WAL file. -/
def checkWal (d : Disk) (wal : Option Bytes) : Except Error WalCheckStatus := do
  let catalog ← DB.selectCatalog d
  if catalog.currentManifest = none then
    .error (.corruption "check target has no valid manifest generation")
  else walCheckStatus catalog.manifestHistory.latest wal

/-- The WAL part of a writable open of that directory. -/
def openWal {σ : Type} (apply : List WalRecord → σ → Except Error σ) (d : Disk)
    (wal : Option Bytes) (s : σ) :
    Except Error (Option (CommitRecord × Nat) × σ) := do
  let catalog ← DB.selectCatalog d
  openReplay apply wal catalog.currentManifest s

/-! ## One pass against another -/

theorem exists_ok_unit {x : Except Error Unit} : (∃ u, x = .ok u) ↔ x = .ok () :=
  ⟨fun ⟨(), h⟩ => h, fun h => ⟨(), h⟩⟩

namespace WalPass

variable {σ τ : Type} {p : WalPass σ} {q : WalPass τ} {r : StoredRecord}
  {records : List StoredRecord} {offset : Nat}
  {pending pending' : List WalRecord} {s s' : σ} {t : τ}

/-- What one record comes to. -/
theorem run_cons : p.run (r :: records) offset pending s = .ok (pending', s') ↔
    (r.read = .ok none ∧ p.run records (offset + r.size) pending s = .ok (pending', s')) ∨
    (∃ mutationType payload, r.read = .ok (some (.mutation mutationType payload)) ∧
      p.mutation (.mutation mutationType payload) = .ok () ∧
      p.run records (offset + r.size) (pending ++ [.mutation mutationType payload]) s =
        .ok (pending', s')) ∨
    ∃ c ahead s₁, r.read = .ok (some (.commit c)) ∧ checkGroup c pending = .ok () ∧
      p.ahead c = .ok ahead ∧ p.commit c ahead pending offset (offset + r.size) s = .ok s₁ ∧
      p.run records (offset + r.size) [] s₁ = .ok (pending', s') := by
  rw [run]
  cases hread : r.read with
  | error e => simp [Bind.bind, Except.bind]
  | ok read =>
    cases read with
    | none => simp [ok_bind]
    | some record =>
      cases record with
      | mutation mutationType payload => simp [ok_bind, bind_eq_ok, exists_ok_unit]
      | commit c => simp [ok_bind, bind_eq_ok, exists_ok_unit]

/-- A pass that takes every mutation goes as far as another one that judges commits alike. -/
theorem run_rel {R : σ → τ → Prop} (hmutation : ∀ record, q.mutation record = .ok ())
    (hahead : ∀ c ahead, p.ahead c = .ok ahead → q.ahead c = .ok ahead)
    (hcommit : ∀ {c ahead group start stop s s' t}, p.commit c ahead group start stop s =
      .ok s' → R s t → ∃ t', q.commit c ahead group start stop t = .ok t' ∧ R s' t') (hR : R s t)
    (h : p.run records offset pending s = .ok (pending', s')) :
    ∃ t', q.run records offset pending t = .ok (pending', t') ∧ R s' t' := by
  induction records generalizing offset pending s t with
  | nil =>
    cases h
    exact ⟨t, rfl, hR⟩
  | cons r records ih =>
    rw [run_cons] at h
    rcases h with ⟨hread, h⟩ | ⟨mutationType, payload, hread, -, h⟩ | ⟨c, ahead, s₁,
      hread, hgroup, ha, hc, h⟩
    · obtain ⟨t', ht, hR'⟩ := ih hR h
      exact ⟨t', (run_cons).2 (.inl ⟨hread, ht⟩), hR'⟩
    · obtain ⟨t', ht, hR'⟩ := ih hR h
      exact ⟨t', (run_cons).2 (.inr (.inl ⟨mutationType, payload, hread, hmutation _, ht⟩)), hR'⟩
    · obtain ⟨t₁, hc', hR₁⟩ := hcommit hc hR
      obtain ⟨t', ht, hR'⟩ := ih hR₁ h
      exact ⟨t', (run_cons).2 (.inr (.inr ⟨c, ahead, t₁, hread, hgroup,
        hahead c ahead ha, hc', ht⟩)), hR'⟩

/-- Where another pass that judges commits alike goes as far as the end, only handling a commit can
fail. -/
theorem run_error {e : Error} (hmutation : ∀ record, q.mutation record = .ok ())
    (hahead : ∀ c ahead, p.ahead c = .ok ahead → q.ahead c = .ok ahead)
    (h : p.run records offset pending s = .ok (pending', s'))
    (hq : q.run records offset pending t = .error e) :
    ∃ c ahead group start stop t, q.commit c ahead group start stop t = .error e := by
  induction records generalizing offset pending s t with
  | nil => cases hq
  | cons r records ih =>
    rw [run] at hq
    rw [run_cons] at h
    rcases h with ⟨hread, h⟩ | ⟨mutationType, payload, hread, -, h⟩ | ⟨c, ahead, s₁,
      hread, hgroup, ha, -, h⟩
    · rw [hread, ok_bind] at hq
      exact ih h hq
    · rw [hread, ok_bind] at hq
      simp only [hmutation, ok_bind] at hq
      exact ih h hq
    rw [hread, ok_bind] at hq
    simp only [hgroup, hahead c ahead ha, ok_bind] at hq
    cases hc : q.commit c ahead pending offset (offset + r.size) t with
    | error e' =>
      rw [hc] at hq
      cases hq
      exact ⟨c, ahead, pending, offset, _, t, hc⟩
    | ok t₁ =>
      rw [hc, ok_bind] at hq
      exact ih h hq

end WalPass

section

variable {current : Manifest} {e e' : Error} {c : CommitRecord} {ahead : Bool}

/-- The error for a wrong id is not part of the verdict. -/
theorem aheadOf_congr (h : aheadOf e current c = .ok ahead) : aheadOf e' current c = .ok ahead := by
  rw [aheadOf] at h ⊢
  split_ifs at h ⊢
  · exact h
  · exact h
  · exact h

/-- A commit that fits the authority is ahead when its generation is. -/
theorem aheadOf_iff (h : aheadOf e current c = .ok ahead) :
    ahead = true ↔ current.generationId < c.generationId := by
  cases ahead with
  | true => exact ⟨fun _ => (aheadOf_true h).2, fun _ => rfl⟩
  | false =>
    exact ⟨fun hf => (Bool.false_ne_true hf).elim,
      fun hlt => absurd (aheadOf_false h).2 (not_le.mpr hlt)⟩

variable {records : List StoredRecord} {offset : Nat} {pending pending' : List WalRecord}
  {a a' : WalAnalysis}

/-- A commit of a later generation than the authority's. -/
def HoldsAhead (current : Manifest) (records : List StoredRecord) : Prop :=
  ∃ r ∈ records, ∃ c, r.read = .ok (some (.commit c)) ∧ current.generationId < c.generationId

theorem holdsAhead_cons {r : StoredRecord} : HoldsAhead current (r :: records) ↔
    (∃ c, r.read = .ok (some (.commit c)) ∧ current.generationId < c.generationId) ∨
    HoldsAhead current records := by
  simp [HoldsAhead]

/-- The analysis finds an unpublished commit exactly if there is one. -/
theorem analysisPass_unpublished (h : (analysisPass (some current)).run records offset pending a =
    .ok (pending', a')) :
    a'.hasUnpublishedCommit = true ↔ a.hasUnpublishedCommit = true ∨
      HoldsAhead current records := by
  induction records generalizing offset pending a with
  | nil =>
    cases h
    simp [HoldsAhead]
  | cons r records ih =>
    rw [WalPass.run_cons] at h
    rcases h with ⟨hread, h⟩ | ⟨mutationType, payload, hread, -, h⟩ | ⟨c, ahead,
      a₁, hread, -, ha, hc, h⟩
    · rw [ih h, holdsAhead_cons, hread]
      simp
    · rw [ih h, holdsAhead_cons, hread]
      simp
    · cases hc
      rw [ih h, holdsAhead_cons, hread, Bool.or_eq_true, aheadOf_iff ha]
      simp [or_assoc]

/-- The analysis ends where the last commit does; the records up to there have the same analysis. -/
theorem analysisPass_cut {current : Option Manifest}
    (h : (analysisPass current).run records offset pending a = .ok (pending', a')) :
    a' = a ∨ ∃ pre post, records = pre ++ post ∧
      a'.lastCommitEnd = offset + LogFile.bytes StoredRecord.size pre ∧
      (analysisPass current).run pre offset pending a = .ok ([], a') := by
  induction records generalizing offset pending a with
  | nil =>
    cases h
    exact .inl rfl
  | cons r records ih =>
    rw [WalPass.run_cons] at h
    rcases h with ⟨hread, h⟩ | ⟨mutationType, payload, hread, hm, h⟩ | ⟨c, ahead,
      a₁, hread, hg, ha, hc, h⟩
    · rcases ih h with heq | ⟨pre, post, rfl, hend, hrun⟩
      · exact .inl heq
      · refine .inr ⟨r :: pre, post, rfl, ?_, (WalPass.run_cons).2 (.inl ⟨hread, hrun⟩)⟩
        rw [hend, LogFile.bytes_cons, Nat.add_assoc]
    · rcases ih h with heq | ⟨pre, post, rfl, hend, hrun⟩
      · exact .inl heq
      · refine .inr ⟨r :: pre, post, rfl, ?_,
          (WalPass.run_cons).2 (.inr (.inl ⟨mutationType, payload, hread, hm, hrun⟩))⟩
        rw [hend, LogFile.bytes_cons, Nat.add_assoc]
    · rcases ih h with rfl | ⟨pre, post, rfl, hend, hrun⟩
      · refine .inr ⟨[r], records, rfl, ?_,
          (WalPass.run_cons).2 (.inr (.inr ⟨c, ahead, _, hread, hg, ha, hc, rfl⟩))⟩
        cases hc
        simp
      · refine .inr ⟨r :: pre, post, rfl, ?_,
          (WalPass.run_cons).2 (.inr (.inr ⟨c, ahead, a₁, hread, hg, ha, hc, hrun⟩))⟩
        rw [hend, LogFile.bytes_cons, Nat.add_assoc]

end

/-! ## The check and the open -/

section

variable {m : Manifest} {bytes : Bytes}

theorem analyzeWalBytes_eq_ok {current : Option Manifest} {a : WalAnalysis} :
    analyzeWalBytes bytes current = .ok a ↔
    ∃ pending, (analysisPass current).run (parseRecordsWithStatus bytes).1 0 [] ⟨0, false⟩ =
      .ok (pending, a) := by
  rw [analyzeWalBytes, bind_eq_ok]
  simp

/-- What is left of a file whose analysis succeeds: its records up to the last commit. -/
theorem reconcileWalBytes_ok {a : WalAnalysis} (h : analyzeWalBytes bytes (some m) = .ok a) :
    ∃ kept, reconcileWalBytes bytes (some m) = .ok kept ∧
      (parseRecordsWithStatus kept).2 = .complete ∧
      kept.length ≤ a.lastCommitEnd ∧ (analysisPass (some m)).run (parseRecordsWithStatus kept).1 0
        [] ⟨0, false⟩ = .ok ([], a) := by
  have hreconcile : reconcileWalBytes bytes (some m) = .ok (bytes.take a.lastCommitEnd) := by
    rw [reconcileWalBytes, h, ok_bind, if_neg (by simp)]
    split
    · rename_i hge
      rw [List.take_of_length_le hge]
    · rfl
  refine ⟨_, hreconcile, ?_⟩
  obtain ⟨pending, hrun⟩ := (analyzeWalBytes_eq_ok).1 h
  have hlen : (bytes.take a.lastCommitEnd).length ≤ a.lastCommitEnd := List.length_take_le _ _
  rcases analysisPass_cut hrun with rfl | ⟨pre, post, hrecords, hend, hrun⟩
  · exact ⟨rfl, hlen, rfl⟩
  · rw [hend, Nat.zero_add] at hlen ⊢
    rw [parseRecords_take hrecords]
    exact ⟨rfl, hlen, hrun⟩

/-- Replay of a file without a cut or corrupt record goes over its records. -/
theorem recoverFromWalBytes_eq {kept : Bytes}
    (h : (parseRecordsWithStatus kept).2 = .complete) {σ : Type}
    (apply : List WalRecord → σ → Except Error σ) (s : σ) :
      recoverFromWalBytes apply kept (some m) s
      = (recoverPass apply (some m)).run (parseRecordsWithStatus kept).1 0 []
        (none, s) >>= fun result => .ok result.2 := by
  rw [recoverFromWalBytes, h, if_neg (by decide)]

/-- What opening comes to, over the records that are left. -/
theorem openReplay_eq {a : WalAnalysis} (h : analyzeWalBytes bytes (some m) = .ok a) : ∃ records,
    (analysisPass (some m)).run records 0 [] ⟨0, false⟩ = .ok ([], a) ∧
      ∀ {σ : Type} (apply : List WalRecord → σ → Except Error σ) (s : σ),
        openReplay apply (some bytes) (some m) s = if a.hasUnpublishedCommit then
            (recoverPass apply (some m)).run records 0 [] (none, s) >>= fun result => .ok result.2
          else .ok (none, s) := by
  obtain ⟨kept, hkept, hcomplete, -, hrun⟩ := reconcileWalBytes_ok h
  refine ⟨(parseRecordsWithStatus kept).1, hrun, ?_⟩
  intro σ apply s
  have hunpublished : walHasUnpublishedCommits kept (some m) = .ok a.hasUnpublishedCommit := by
    rw [walHasUnpublishedCommits, (analyzeWalBytes_eq_ok).2 ⟨[], hrun⟩, ok_bind, if_neg (by simp)]
  rw [openReplay, hkept, ok_bind, hunpublished, ok_bind, recoverFromWalBytes_eq hcomplete]

/-- Counting the groups that replay hands on. -/
def countGroups : List WalRecord → Nat → Except Error Nat := fun _ n => .ok (n + 1)

section

variable {records : List StoredRecord} {pending : List WalRecord} {a : WalAnalysis}
  (h : (analysisPass (some m)).run records 0 [] ⟨0, false⟩ = .ok (pending, a))

include h

/-- Replay hands on a group exactly if the analysis found an unpublished commit. -/
theorem recoverPass_count : ∃ last n,
    (recoverPass countGroups (some m)).run records 0 [] (none, 0) = .ok (pending, (last, n)) ∧
      (0 < n ↔ a.hasUnpublishedCommit = true) := by
  obtain ⟨⟨last, n⟩, hrecover, hn⟩ :=
    @WalPass.run_rel _ _ _ (recoverPass countGroups (some m)) _ _ _ _ _ _ (none, 0)
    (fun (a : WalAnalysis) t => 0 < t.2 ↔ a.hasUnpublishedCommit = true) (fun _ => rfl)
    (fun c ahead ha => aheadOf_congr ha)
    (by
      intro c ahead group start stop a a' t hc hR
      cases hc
      cases ahead with
      | true => exact ⟨(some (c, start), t.2 + 1), rfl, by simp⟩
      | false => exact ⟨t, rfl, by simpa using hR⟩) (by simp) h
  exact ⟨last, n, hrecover, hn⟩

/-- Replay that succeeds has a last commit exactly if the analysis found an unpublished one. -/
theorem recoverPass_last {σ : Type} {apply : List WalRecord → σ → Except Error σ} {s s' : σ}
    {last : Option (CommitRecord × Nat)} {rest : List WalRecord}
    (hs : (recoverPass apply (some m)).run records 0 [] (none, s) = .ok (rest, (last, s'))) :
    last.isSome ↔ a.hasUnpublishedCommit = true := by
  obtain ⟨a', ha', hlast⟩ := @WalPass.run_rel _ _ _ (analysisPass (some m)) _ _ _ _ _ _ ⟨0, false⟩
    (fun (t : Option (CommitRecord × Nat) × σ) a => t.1.isSome ↔ a.hasUnpublishedCommit = true)
    (fun _ => rfl)
    (fun c ahead ha => aheadOf_congr ha) (by
      rintro c ahead group start stop ⟨last, s⟩ t' a hc hR
      refine ⟨_, rfl, ?_⟩
      cases ahead with
      | true =>
        obtain ⟨s₁, -, heq⟩ := bind_eq_ok.mp hc
        cases heq
        simp
      | false =>
        cases hc
        simpa using hR) (by simp) hs
  rw [h] at ha'
  cases ha'
  exact hlast

/-- Replay fails only where a group cannot be applied. -/
theorem recoverPass_error {σ : Type} {apply : List WalRecord → σ → Except Error σ}
    {s : σ} {e : Error} (hs : (recoverPass apply (some m)).run records 0 [] (none, s) = .error e) :
    ∃ group s, apply group s = .error e := by
  obtain ⟨c, ahead, group, start, stop, ⟨last, s'⟩, hc⟩ :=
    WalPass.run_error (fun _ => rfl) (fun c ahead ha => aheadOf_congr ha) h hs
  cases ahead with
  | true =>
    refine ⟨group, s', ?_⟩
    change (apply group s' >>= fun s => .ok (some (c, start), s)) = .error e at hc
    cases ha : apply group s' with
    | error e' =>
      rw [ha] at hc
      cases hc
      rfl
    | ok s₁ =>
      rw [ha] at hc
      cases hc
  | false => cases hc

end

theorem openReplay_count {a : WalAnalysis} (h : analyzeWalBytes bytes (some m) = .ok a) : ∃ last n,
    openReplay countGroups (some bytes) (some m) 0 = .ok (last, n) ∧
      (0 < n ↔ a.hasUnpublishedCommit = true) := by
  obtain ⟨records, hrun, hopen⟩ := openReplay_eq h
  obtain ⟨last, n, hrecover, hn⟩ := recoverPass_count hrun
  rw [hopen, hrecover]
  cases hu : a.hasUnpublishedCommit with
  | false => exact ⟨none, 0, rfl, by simp⟩
  | true => exact ⟨last, n, rfl, hn.trans (by rw [hu])⟩

theorem openReplay_last {σ : Type} {apply : List WalRecord → σ → Except Error σ}
    {a : WalAnalysis} {s s' : σ} {last : Option (CommitRecord × Nat)}
    (h : analyzeWalBytes bytes (some m) = .ok a)
    (hs : openReplay apply (some bytes) (some m) s = .ok (last, s')) :
    last.isSome ↔ a.hasUnpublishedCommit = true := by
  obtain ⟨records, hrun, hopen⟩ := openReplay_eq h
  rw [hopen] at hs
  cases hu : a.hasUnpublishedCommit with
  | false =>
    rw [hu] at hs
    cases hs
    simp
  | true =>
    rw [hu, if_pos rfl, bind_eq_ok] at hs
    obtain ⟨⟨pending, result⟩, hrecover, heq⟩ := hs
    cases heq
    exact (recoverPass_last hrun hrecover).trans (by rw [hu])

/-- **Analysis and replay of a reconciled file agree.**  The analysis reports an unpublished commit
exactly if replay hands one on, replay fails only where a group cannot be applied, and reconciling
again changes nothing. -/
theorem reconciled_replays {kept : Bytes} (h : reconcileWalBytes bytes (some m) = .ok kept) :
    ∃ a last n, analyzeWalBytes kept (some m) = .ok a ∧
      recoverFromWalBytes countGroups kept (some m) 0 = .ok (last, n) ∧
      (a.hasUnpublishedCommit = true ↔ 0 < n) ∧
      (∀ {σ : Type} (apply : List WalRecord → σ → Except Error σ) (s : σ),
        (∀ e, recoverFromWalBytes apply kept (some m) s = .error e → ∃ group s,
          apply group s = .error e) ∧ ∀ last s', recoverFromWalBytes apply kept (some m) s =
            .ok (last, s') → (last.isSome ↔ a.hasUnpublishedCommit = true)) ∧
      reconcileWalBytes kept (some m) = .ok kept := by
  obtain ⟨a, ha, -⟩ := bind_eq_ok.mp h
  obtain ⟨kept', hkept, hcomplete, hend, hrun⟩ := reconcileWalBytes_ok ha
  rw [h] at hkept
  cases hkept
  have hanalyze : analyzeWalBytes kept (some m) = .ok a := analyzeWalBytes_eq_ok.mpr ⟨[], hrun⟩
  obtain ⟨last, n, hcount, hn⟩ := recoverPass_count hrun
  refine ⟨a, last, n,
    hanalyze, by rw [recoverFromWalBytes_eq hcomplete, hcount]; rfl, hn.symm, ?_, ?_⟩
  · intro σ apply s
    constructor
    · intro e he
      rw [recoverFromWalBytes_eq hcomplete] at he
      cases hr : (recoverPass apply (some m)).run (parseRecordsWithStatus kept).1 0 []
        (none, s) with
      | error e' =>
        rw [hr] at he
        cases he
        exact recoverPass_error hrun hr
      | ok result =>
        rw [hr] at he
        cases he
    · intro last s' hs
      rw [recoverFromWalBytes_eq hcomplete, bind_eq_ok] at hs
      obtain ⟨⟨rest, result⟩, hr, heq⟩ := hs
      cases heq
      exact recoverPass_last hrun hr
  · rw [reconcileWalBytes, hanalyze, ok_bind, if_neg (by simp), if_pos hend]

namespace Client

/-- The put behind the batch is cut off. -/
theorem reconciled_replays_batch :
    let bytes := batchRecords.flatMap fun r => r.stored.toBytes
    let kept := (batchRecords.take 2).flatMap fun r => r.stored.toBytes
    let m : Manifest := ⟨1, 1, 0, 0, 0, 0, 0, 0, 0⟩
    reconcileWalBytes bytes (some m) = .ok kept ∧ kept ≠ bytes ∧ ∃ a last n,
      analyzeWalBytes kept (some m) = .ok a ∧
      recoverFromWalBytes countGroups kept (some m) 0 = .ok (last, n) ∧
        (a.hasUnpublishedCommit = true ↔ 0 < n) := by
  intro bytes kept m
  have hkept : reconcileWalBytes bytes (some m) = .ok kept := by decide +kernel
  obtain ⟨a, last, n, hanalyze, hrecover, hn, -, -⟩ := reconciled_replays hkept
  exact ⟨hkept, by decide +kernel, a, last, n, hanalyze, hrecover, hn⟩

end Client

/-- The records that the check goes over have an analysis. -/
theorem checkPass_analysis {records : List StoredRecord} {pending : List WalRecord} {saw : Bool}
    (h : (checkPass m).run records 0 [] false = .ok (pending, saw)) : ∃ a,
      (analysisPass (some m)).run records 0 [] ⟨0, false⟩ = .ok (pending, a) ∧
      saw = a.hasUnpublishedCommit :=
  @WalPass.run_rel _ _ _ (analysisPass (some m)) _ _ _ _ _ _ ⟨0, false⟩
    (fun saw (a : WalAnalysis) => saw = a.hasUnpublishedCommit) (fun _ => rfl)
    (fun _ _ ha => ha) (by
      intro c ahead group start stop saw saw' a hc hR
      cases hc
      exact ⟨_, rfl, by rw [hR]⟩) rfl h

/-- The check reports an unpublished commit exactly if the analysis found one and no record is
cut. -/
theorem walCheckStatus_spec {st : WalCheckStatus}
    (h : walCheckStatus (some m) (some bytes) = .ok st) : ∃ a,
    analyzeWalBytes bytes (some m) = .ok a ∧ (st = .needsRecovery ↔
      a.hasUnpublishedCommit = true ∧ (parseRecordsWithStatus bytes).2 ≠ .incomplete) := by
  rw [walCheckStatus] at h
  split at h
  · rename_i hnil
    subst hnil
    cases h
    exact ⟨⟨0, false⟩, rfl, by simp⟩
  simp only at h
  cases hstatus : (parseRecordsWithStatus bytes).2 with
  | corrupt =>
    rw [hstatus] at h
    obtain ⟨a, ha, hst⟩ := bind_eq_ok.mp h
    cases hst
    refine ⟨a, ha, ?_⟩
    cases a.hasUnpublishedCommit with
    | true => simp
    | false => simp
  | incomplete =>
    rw [hstatus] at h
    obtain ⟨⟨pending, saw⟩, hrun, hst⟩ := bind_eq_ok.mp h
    cases hst
    obtain ⟨a, ha, -⟩ := checkPass_analysis hrun
    exact ⟨a, (analyzeWalBytes_eq_ok).2 ⟨_, ha⟩, by simp⟩
  | complete =>
    rw [hstatus] at h
    obtain ⟨⟨pending, saw⟩, hrun, hst⟩ := bind_eq_ok.mp h
    cases hst
    obtain ⟨a, ha, rfl⟩ := checkPass_analysis hrun
    refine ⟨a, (analyzeWalBytes_eq_ok).2 ⟨_, ha⟩, ?_⟩
    cases hrecords : (parseRecordsWithStatus bytes).1 with
    | nil =>
      rw [hrecords] at ha
      cases ha
      simp
    | cons r records =>
      cases a.hasUnpublishedCommit with
      | true => simp
      | false =>
        simp only [Bool.false_eq_true, if_false, List.cons_ne_nil, false_and, iff_false]
        split
        · decide
        · decide

end

/-! ## The directory -/

/-- The check and the open go by the same manifest. -/
theorem selectCatalog_latest {d : Disk} {catalog : DB.OpenCatalog}
    (h : DB.selectCatalog d = .ok catalog) {m : Manifest}
    (hm : catalog.currentManifest = some m) : catalog.manifestHistory.latest = some m := by
  rw [DB.selectCatalog] at h
  split at h
  · cases h
  split at h
  · cases h
  split at h
  · cases h
  · cases h
    cases hm
  split at h
  · cases h
  split at h
  · cases h
  rename_i history hhist
  cases h
  cases hm
  exact ManifestHistory.reconcileCurrent_latest hhist

/-- A commit that the WAL file has ahead of the authority, with a cut record or zeros behind it. -/
def TornAhead (d : Disk) (wal : Option Bytes) : Prop :=
  ∃ catalog m bytes, DB.selectCatalog d = .ok catalog ∧ catalog.currentManifest = some m ∧
    wal = some bytes ∧ HoldsAhead m (parseRecordsWithStatus bytes).1 ∧
    (parseRecordsWithStatus bytes).2 = .incomplete

/-- What the check reports of the WAL of a directory predicts whether an open replays a commit
from it, exactly if no torn record follows an unpublished commit. -/
theorem check_predicts_replay {d : Disk} {wal : Option Bytes} {st : WalCheckStatus}
    (h : checkWal d wal = .ok st) :
    ∃ last n, openWal countGroups d wal 0 = .ok (last, n) ∧
      ((st = .needsRecovery ↔ 0 < n) ↔ ¬ TornAhead d wal) ∧
      ∀ {σ : Type} (apply : List WalRecord → σ → Except Error σ) (s s' : σ)
        (last' : Option (CommitRecord × Nat)),
        openWal apply d wal s = .ok (last', s') → (last'.isSome ↔ 0 < n) := by
  rw [checkWal] at h
  obtain ⟨catalog, hcat, h⟩ := bind_eq_ok.mp h
  split at h
  · cases h
  rename_i hsome
  obtain ⟨m, hm⟩ := Option.ne_none_iff_exists'.mp hsome
  rw [selectCatalog_latest hcat hm] at h
  simp only [openWal, hcat, ok_bind, hm]
  cases wal with
  | none =>
    cases h
    refine ⟨none, 0, rfl, ?_, ?_⟩
    · simp [TornAhead]
    · intro σ apply s s' last' hopen
      cases hopen
      simp
  | some bytes =>
    obtain ⟨a, ha, hst⟩ := walCheckStatus_spec h
    obtain ⟨last, n, hopen, hn⟩ := openReplay_count ha
    refine ⟨last, n, hopen, ?_, ?_⟩
    · obtain ⟨pending, hrun⟩ := analyzeWalBytes_eq_ok.mp ha
      have hahead : a.hasUnpublishedCommit = true ↔
        HoldsAhead m (parseRecordsWithStatus bytes).1 := by
        rw [analysisPass_unpublished hrun]
        simp
      have htorn : TornAhead d (some bytes) ↔
          a.hasUnpublishedCommit = true ∧ (parseRecordsWithStatus bytes).2 = .incomplete := by
        simp [TornAhead, hcat, hm, hahead]
      rw [htorn, hst, hn]
      tauto
    · intro σ apply s s' last' hs
      rw [hn]
      exact openReplay_last ha hs

/-! ## A batch, and a put that is cut -/

/-- The bytes of a WAL file: its records, and a tail that holds none. -/
def Spells (wal : WalFile) (bytes : Bytes) : Prop := ∃ tail,
  bytes = (wal.records.flatMap fun r => r.stored.toBytes) ++ tail ∧ tail.length = wal.torn

namespace Client

/-- The whole file of that process. -/
theorem check_predicts_replay_batch :
    let bytes := batchRecords.flatMap fun r => r.stored.toBytes
    checkWal afterBatch.2 (some bytes) = .ok .needsRecovery ∧ ∃ last n,
      openWal countGroups afterBatch.2 (some bytes) 0 = .ok (last, n) ∧
        ((WalCheckStatus.needsRecovery = .needsRecovery ↔ 0 < n) ↔
          ¬ TornAhead afterBatch.2 (some bytes)) := by
  intro bytes
  have hcheck : checkWal afterBatch.2 (some bytes) = .ok .needsRecovery := by decide +kernel
  obtain ⟨last, n, hopen, hpredicts, -⟩ := check_predicts_replay hcheck
  exact ⟨hcheck, last, n, hopen, hpredicts⟩

def tornBytes : Bytes :=
  ((batchRecords.take 2).flatMap fun r => r.stored.toBytes) ++ (WalRecord.put [2]
    [8]).stored.toBytes.take 7

/-- The commit was acknowledged and an open replays it, and the check reports a torn record only. -/
theorem check_misses_replay : ∃ c d wal bytes last, (system anyCommand).Reached c d ∧
    d.wal = some wal ∧ Spells wal bytes ∧ checkWal d (some bytes) = .ok .incomplete ∧
      openWal countGroups d (some bytes) 0 = .ok (last, 1) := by
  refine ⟨start, tornDisk, _, tornBytes, some (⟨1, 1, 0, 1, 2792984985⟩, 19), tornDisk_reached, rfl,
    ⟨_, rfl, rfl⟩, ?_, ?_⟩
  · decide +kernel
  · decide +kernel

end Client

end SeerDb
