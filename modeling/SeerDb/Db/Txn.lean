/-
# `SeerDb.Db.Txn` — root-bound transactions

`db/transaction.rs`.  A transaction pins the newest published root under a snapshot
id, reads through the pin and its own staged mutations, and commits against the
commit id it saw at its start.
-/
import SeerDb.Db.Retain

namespace SeerDb

/-- `BatchTransactionState`. -/
inductive TransactionState where
  | active
  | committed
  | aborted
  | recoveryRequired (commit : CommitId)
deriving DecidableEq, Repr

/-- `BatchTransaction`; `leased` says whether it still holds its root. -/
structure Transaction where
  baseCommit : CommitId
  snapshotId : SnapshotId
  leased : Bool
  mutations : List Mutation
  state : TransactionState
deriving DecidableEq, Repr

namespace DB

open Lib.Prog (handle disk modifyHandle write lift check runIf onError forEach)

def beginBatchTransaction : DbM Transaction := do
  checkWritable
  flush
  let db ← handle
  match db.manifestHistory.latest with
  | none => throw (.corruption "database has no valid manifest generation")
  | some manifest => do
    let snapshotId ← registerManifest manifest false true true
    pure ⟨db.commitId, snapshotId, true, [], .active⟩

end DB

namespace Transaction

open Lib.Prog (handle disk modifyHandle write lift check runIf onError forEach)

def checkActive (t : Transaction) : Except Error Unit := match t.state with
  | .active => .ok ()
  | .recoveryRequired commit => .error (.needsRecovery
      ("transaction commit " ++ commit.debug ++ " requires database reopen"))
  | _ => .error (.invalidArgument "transaction is no longer active")

/-- `put` and `delete`: stage a mutation. -/
def stage (t : Transaction) (m : Mutation) : Except Error Transaction :=
  match t.checkActive with
  | .error e => .error e
  | .ok () => match m.validate with
    | .error e => .error e
    | .ok () => .ok { t with mutations := t.mutations ++ [m] }

/-- The newest staged mutation of a key. -/
def staged (mutations : List Mutation) (key : Bytes) : Option Mutation :=
  mutations.reverse.find? fun m => m.key = key

def get (t : Transaction) (db : DB) (d : Disk) (key : Bytes) : Except Error (Option Bytes) :=
  match t.checkActive with
  | .error e => .error e
  | .ok () => match staged t.mutations key with
    | some (.put _ value) => .ok (some value)
    | some (.delete _) => .ok none
    | none => db.getAt d t.snapshotId key

/-- One staged mutation over a scanned interval. -/
def overlay (start end_ : Bytes) (values : List (Bytes × Bytes)) : Mutation → List (Bytes × Bytes)
  | .put key value => if start ≤ key ∧ key < end_ then Lib.upsert key value values else values
  | .delete key => if start ≤ key ∧ key < end_ then Lib.erase key values else values

def range (t : Transaction) (db : DB) (d : Disk) (start end_ : Bytes) :
    Except Error (List (Bytes × Bytes)) :=
  match t.checkActive with
  | .error e => .error e
  | .ok () => match db.rangeAt d t.snapshotId start end_ with
    | .error e => .error e
    | .ok values => .ok (t.mutations.foldl (overlay start end_) (Lib.collect values))

def release (t : Transaction) : DbM Transaction := do
  runIf t.leased (DB.releaseRoot t.snapshotId)
  pure { t with leased := false }

/-- The commit id that a commit of the mutations attempts. -/
def attemptedCommit (t : Transaction) : Except Error CommitId :=
  if t.mutations.isEmpty then .ok t.baseCommit
  else if t.baseCommit < u64Max then .ok (t.baseCommit + 1)
  else .error (.wal "transaction commit ID overflow")

/-- What became of a commit: the transaction afterwards, and the error it returns. -/
def commit (t : Transaction) : DbM (Transaction × Option Error) := fun w =>
  match t.checkActive with
  | .error e => .ok (t, some e) w
  | .ok () => match t.attemptedCommit with
    | .error e => .ok (t, some e) w
    | .ok attempted => match DB.commitBatchAt t.baseCommit t.mutations w with
      | .error e w =>
        if w.handle.writeFenced then
          .ok ({ t with state := .recoveryRequired attempted }, some (.needsRecovery
            ("transaction commit " ++ attempted.debug ++
              " may be durable after publication failure: " ++ e.display))) w
        else .ok (t, some e) w
      | .ok () w => match release { t with state := .committed } w with
        | .ok t w => .ok (t, none) w
        | .error e w' =>
          .ok ({ t with state := .committed }, some (.commitCleanup w.handle.commitId e)) w'

def abort (t : Transaction) : DbM Transaction := do
  lift t.checkActive
  let t ← release t
  pure { t with state := .aborted }

end Transaction

end SeerDb
