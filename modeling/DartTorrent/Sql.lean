import DartTorrent.Basis.GuardedRun
import DartTorrent.Basis.KeyedTable
import DartTorrent.Torrent

/-!
# The Resume Store

The model of `lt_update_resume_data` and `lt_remove_resume_data` from the point where their
values are at hand: the statement runs between `BEGIN` and `END` while the thread holds the
database mutex. Every result of an SQLite call is a parameter: any of them may fail, and a
failing `step` or `END` may roll the open transaction back. A call that fails before `END`
returns where it stands.

SQLite itself is not part of the repository. Its table is a `KeyedTable` with the hash text
as its primary key; `REPLACE` and `DELETE` are the table's operations.

## Main results

* `bracketed_iff_clean`: outside a transaction, a call leaves the mutex, the transaction
  status and the committed table as it owes if and only if no prepare, bind or step fails
  and `END` does not fail with its transaction left open.
* `bracket_iff_clean`: the same over every sequence of calls.
-/

open GuardedRun

namespace DartTorrent

/-! ### The connection -/

/-- A row of `torrents` without its key. -/
structure StoredRow where
  resume : Bytes
  name : Bytes
  savePath : Bytes
deriving DecidableEq, Repr

/-- The table `torrents`, with the hash text as its primary key. -/
abbrev Table := KeyedTable Bytes StoredRow

/-- `SQLITE_OK`, or an error. -/
inductive SqlResult
  | ok
  | error
deriving DecidableEq, Repr

/-- The result of a step or of `END`: done, or an error, which may have rolled the open
transaction back. -/
inductive ExecResult
  | ok
  | error (rolledBack : Bool)
deriving DecidableEq, Repr

/-- The connection: the table as it sees it, the committed table while a transaction is
open, and how often the thread holds the database mutex. -/
structure Conn where
  table : Table
  openTxn : Option Table
  mutexDepth : ℕ

namespace Conn

/-- The table on disk. -/
def committed (db : Conn) : Table := db.openTxn.getD db.table

/-- `sqlite3_mutex_enter`: the mutex is recursive. -/
def mutexEnter (db : Conn) : Conn := { db with mutexDepth := db.mutexDepth + 1 }

/-- `sqlite3_mutex_leave`. -/
def mutexLeave (db : Conn) : Conn := { db with mutexDepth := db.mutexDepth - 1 }

/-- `BEGIN TRANSACTION;`, which fails inside a transaction. -/
def beginTransaction (r : SqlResult) (db : Conn) : Conn :=
  match r, db.openTxn with
  | .ok, none => { db with openTxn := some db.table }
  | _, _ => db

/-- The open transaction, if any, is undone. -/
def rollback (db : Conn) : Conn := { db with table := db.committed, openTxn := none }

/-- `END TRANSACTION;`, which does nothing outside a transaction. -/
def endTransaction (r : ExecResult) (db : Conn) : Conn :=
  match r with
  | .ok => { db with openTxn := none }
  | .error true => db.rollback
  | .error false => db

end Conn

/-! ### One statement in its bracket -/

/-- The results of the SQLite calls that one call of a store function makes. -/
structure CallResults where
  beginTransaction : SqlResult
  prepare : SqlResult
  binds : List SqlResult
  step : ExecResult
  endTransaction : ExecResult
deriving DecidableEq, Repr

/-- What both store functions do once their values are at hand, `effect` being what their
statement does to the table. The results of `BEGIN` and `END` are not looked at. -/
def runStatement (r : CallResults) (effect : Table → Table) (db : Conn) : Conn :=
  let db := db.mutexEnter
  let db := db.beginTransaction r.beginTransaction
  if r.prepare = .error then db
  else if .error ∈ r.binds then db
  else
    match r.step with
    | .error rolledBack => if rolledBack then db.rollback else db
    | .ok =>
        let db := { db with table := effect db.table }
        (db.endTransaction r.endTransaction).mutexLeave

/-- The results of the SQLite calls of `lt_update_resume_data`. -/
structure UpdateResults where
  beginTransaction : SqlResult := .ok
  prepare : SqlResult := .ok
  bindHash : SqlResult := .ok
  bindResume : SqlResult := .ok
  bindName : SqlResult := .ok
  bindSavePath : SqlResult := .ok
  step : ExecResult := .ok
  endTransaction : ExecResult := .ok
deriving DecidableEq, Repr

/-- The results of the SQLite calls of `lt_remove_resume_data`. -/
structure RemoveResults where
  beginTransaction : SqlResult := .ok
  prepare : SqlResult := .ok
  bindHash : SqlResult := .ok
  step : ExecResult := .ok
  endTransaction : ExecResult := .ok
deriving DecidableEq, Repr

/-- A call of a store function: the text and the row it binds, and the results of its
SQLite calls. -/
inductive StoreCall
  | update (r : UpdateResults) (hashStr : Bytes) (row : StoredRow)
  | remove (r : RemoveResults) (hashStr : Bytes)

/-- The results in the order of the calls. -/
def StoreCall.results : StoreCall → CallResults
  | .update r _ _ => ⟨r.beginTransaction, r.prepare,
      [r.bindHash, r.bindResume, r.bindName, r.bindSavePath], r.step, r.endTransaction⟩
  | .remove r _ => ⟨r.beginTransaction, r.prepare, [r.bindHash], r.step, r.endTransaction⟩

/-- `UPDATE_RESUME_DATA_SQL` and `REMOVE_RESUME_DATA_SQL`, with their values bound. -/
def StoreCall.effect : StoreCall → Table → Table
  | .update _ hashStr row, table => table.replace hashStr row
  | .remove _ hashStr, table => table.delete hashStr

/-- The part of a store function from `sqlite3_mutex_enter` on. -/
def storeStep (db : Conn) (call : StoreCall) : Conn := runStatement call.results call.effect db

/-! ### The bracket -/

/-- The statement was prepared, bound and stepped, and the transaction that `BEGIN` opened,
if it did, was committed. -/
def CallResults.Succeeded (r : CallResults) : Prop :=
  r.prepare = .ok ∧ .error ∉ r.binds ∧ r.step = .ok ∧
    (r.beginTransaction = .ok → r.endTransaction = .ok)

/-- What a call owes: the mutex and the transaction status are as on entry, and the
committed table has the effect of the statement if the call succeeded and is unchanged if
it failed. -/
structure Bracketed (db db' : Conn) (call : StoreCall) : Prop where
  mutex : db'.mutexDepth = db.mutexDepth
  txn : db'.openTxn.isSome = db.openTxn.isSome
  committed : call.results.Succeeded → db'.committed = call.effect db.committed
  unchanged : ¬ call.results.Succeeded → db'.committed = db.committed

/-- No prepare, bind or step fails, and no `END` fails with its transaction left open. -/
def CallResults.Clean (r : CallResults) : Prop :=
  r.prepare = .ok ∧ .error ∉ r.binds ∧ r.step = .ok ∧
    (r.beginTransaction = .ok → r.endTransaction ≠ .error false)

section Call

variable {r : CallResults} {effect : Table → Table} {db : Conn}

@[simp] theorem mutexDepth_beginTransaction (b : SqlResult) (db : Conn) :
    (db.beginTransaction b).mutexDepth = db.mutexDepth := by
  simp only [Conn.beginTransaction]
  split <;> rfl

/-- **A call that returns early keeps the mutex.** -/
theorem runStatement_of_failed (h : ¬ (r.prepare = .ok ∧ .error ∉ r.binds ∧ r.step = .ok)) :
    (runStatement r effect db).mutexDepth = db.mutexDepth + 1 := by
  have hdepth : (db.mutexEnter.beginTransaction r.beginTransaction).mutexDepth =
      db.mutexDepth + 1 := mutexDepth_beginTransaction _ _
  rw [runStatement]
  dsimp only
  split
  · exact hdepth
  · next hprepare =>
      split
      · exact hdepth
      · next hbinds =>
          cases hstep : r.step with
          | ok =>
              refine absurd ⟨?_, hbinds, hstep⟩ h
              cases hp : r.prepare with
              | ok => rfl
              | error => exact absurd hp hprepare
          | error rolledBack => cases rolledBack <;> exact hdepth

/-- A call that reaches `END`, outside a transaction: only an `END` that fails has anything
to say about the outcome. -/
theorem runStatement_of_stepped (hdb : db.openTxn = none) (hprepare : r.prepare = .ok)
    (hbinds : .error ∉ r.binds) (hstep : r.step = .ok) :
    runStatement r effect db =
      match r.beginTransaction, r.endTransaction with
      | .ok, .error true => db
      | .ok, .error false => { db with table := effect db.table, openTxn := some db.table }
      | _, _ => { db with table := effect db.table } := by
  obtain ⟨table, openTxn, mutexDepth⟩ := db
  obtain rfl : openTxn = none := hdb
  rw [runStatement]
  dsimp only
  rw [hprepare, if_neg (by decide), if_neg hbinds, hstep]
  cases r.beginTransaction with
  | ok =>
      cases r.endTransaction with
      | ok => rfl
      | error rolledBack => cases rolledBack <;> rfl
  | error =>
      cases r.endTransaction with
      | ok => rfl
      | error rolledBack => cases rolledBack <;> rfl

/-- A clean call, outside a transaction: its effect is committed if it succeeded, and
nothing has changed if not. -/
theorem runStatement_of_clean (effect : Table → Table) (hdb : db.openTxn = none) (h : r.Clean) :
    (r.Succeeded → runStatement r effect db = { db with table := effect db.table }) ∧
      (¬ r.Succeeded → runStatement r effect db = db) := by
  obtain ⟨hprepare, hbinds, hstep, hend⟩ := h
  rw [runStatement_of_stepped hdb hprepare hbinds hstep, CallResults.Succeeded]
  simp only [hprepare, hbinds, hstep, not_false_eq_true, true_and]
  cases hb : r.beginTransaction with
  | error => simp
  | ok =>
      cases he : r.endTransaction with
      | ok => simp
      | error rolledBack =>
          cases rolledBack with
          | true => simp
          | false => exact absurd he (hend hb)

end Call

theorem CallResults.Succeeded.clean {r : CallResults} (h : r.Succeeded) : r.Clean := by
  obtain ⟨hprepare, hbinds, hstep, hend⟩ := h
  refine ⟨hprepare, hbinds, hstep, fun hbegin => ?_⟩
  rw [hend hbegin]
  simp

/-- A call that succeeds outside a transaction has its effect, and nothing else. -/
theorem storeStep_of_succeeded {db : Conn} (hdb : db.openTxn = none) {call : StoreCall}
    (h : call.results.Succeeded) :
    storeStep db call = { db with table := call.effect db.table } :=
  (runStatement_of_clean _ hdb h.clean).1 h

/-- With all its SQLite calls succeeding, a call succeeds. -/
theorem succeeded_update (hashStr : Bytes) (row : StoredRow) :
    (StoreCall.update {} hashStr row).results.Succeeded :=
  ⟨rfl, by simp [StoreCall.results], rfl, fun _ => rfl⟩

theorem succeeded_remove (hashStr : Bytes) : (StoreCall.remove {} hashStr).results.Succeeded :=
  ⟨rfl, by simp [StoreCall.results], rfl, fun _ => rfl⟩

/-- A clean call leaves no transaction open. -/
theorem openTxn_storeStep {db : Conn} (hdb : db.openTxn = none) {call : StoreCall}
    (h : call.results.Clean) : (storeStep db call).openTxn = none := by
  obtain ⟨hdone, hfailed⟩ := runStatement_of_clean call.effect hdb h
  by_cases hs : call.results.Succeeded
  · rw [storeStep, hdone hs]
    exact hdb
  · rw [storeStep, hfailed hs]
    exact hdb

/-- **One call**: outside a transaction its bracket holds exactly when it is clean. -/
theorem bracketed_iff_clean {db : Conn} (hdb : db.openTxn = none) (call : StoreCall) :
    Bracketed db (storeStep db call) call ↔ call.results.Clean := by
  constructor
  · intro h
    by_cases hstepped : call.results.prepare = .ok ∧ .error ∉ call.results.binds ∧
        call.results.step = .ok
    · obtain ⟨hprepare, hbinds, hstep⟩ := hstepped
      refine ⟨hprepare, hbinds, hstep, fun hbegin hend => ?_⟩
      have htxn := h.txn
      rw [storeStep, runStatement_of_stepped hdb hprepare hbinds hstep, hbegin, hend, hdb] at htxn
      exact absurd htxn (by simp)
    · have hmutex := h.mutex
      rw [storeStep, runStatement_of_failed hstepped] at hmutex
      omega
  · intro h
    obtain ⟨hdone, hfailed⟩ := runStatement_of_clean call.effect hdb h
    have hcommitted : ∀ table, Conn.committed { db with table := table } = table := fun table => by
      rw [Conn.committed, hdb, Option.getD_none]
    by_cases hs : call.results.Succeeded
    · rw [storeStep, hdone hs]
      refine ⟨rfl, rfl, fun _ => ?_, fun hn => absurd hs hn⟩
      rw [hcommitted, hcommitted db.table]
    · rw [storeStep, hfailed hs]
      exact ⟨rfl, rfl, fun h => absurd h hs, fun _ => rfl⟩

/-- **The bracket of the resume store.** In every sequence of calls that starts outside a
transaction, whatever the SQLite calls return, every call leaves the mutex, the transaction
status and the committed table as it owes if and only if no prepare, bind or step fails and
no `END` fails with its transaction left open. -/
theorem bracket_iff_clean (table : Table) (mutexDepth : ℕ) (calls : List StoreCall) :
    Along storeStep (fun db call => Bracketed db (storeStep db call) call)
        ⟨table, none, mutexDepth⟩ calls ↔
      ∀ call ∈ calls, call.results.Clean := by
  have hstep : ∀ (db : Conn) (call : StoreCall), db.openTxn = none → True →
      call.results.Clean → (storeStep db call).openTxn = none :=
    fun db call hdb _ h => openTxn_storeStep hdb h
  have hiff : ∀ (db : Conn) (call : StoreCall), db.openTxn = none → True →
      (Bracketed db (storeStep db call) call ↔ call.results.Clean) :=
    fun db call hdb _ => bracketed_iff_clean hdb call
  rw [along_iff_of_inv hstep hiff rfl (along_of_forall_mem fun _ _ => trivial), along_event_iff]

/-- **A failed bind leaks the mutex and the transaction.** The first call of
`lt_update_resume_data`, with the text of a hash and the resume data `"de"`, fails to bind the
text: it returns with the thread still holding the mutex and a transaction open. -/
theorem bracket_broken_by_failed_bind :
    let hash : Sha1Hash := ⟨List.replicate 20 0, rfl⟩
    let calls : List StoreCall :=
      [.update { bindHash := .error } (hexText hash) ⟨[100, 101], [], []⟩]
    let db := run storeStep ⟨.empty, none, 0⟩ calls
    db.mutexDepth = 1 ∧ db.openTxn.isSome ∧
      ¬ Along storeStep (fun db call => Bracketed db (storeStep db call) call)
        ⟨.empty, none, 0⟩ calls := by
  refine ⟨rfl, rfl, fun h => ?_⟩
  exact absurd h.1.mutex (by decide)

end DartTorrent
