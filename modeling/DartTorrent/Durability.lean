import DartTorrent.Sql
import DartTorrent.Basis.Transaction

/-!
# What Is on Disk

A call of the resume store that returns early leaves its transaction open and the mutex held;
the next call runs inside that transaction. This module says, for every sequence of calls and
every pattern of results, what a process that ends there has on disk, and how often its thread
holds the mutex.

## Main results

* `storeStep_txnStore`: a call is a bracket of `DartTorrent.Basis.Transaction`.
* `committed_run`: the table on disk has the effects of the calls that ran and whose transaction
  was committed, in order, and of no others.
* `committed_run_prefix`: without rollbacks a process that ends loses only its last calls, and none
  if the last one was committed.
* `mutexDepth_run`: the mutex is held once more for each call that returned early.
-/

open GuardedRun

namespace DartTorrent

/-! ### A call as a bracket -/

/-- The statement of the call is run. -/
def CallResults.Executes (r : CallResults) : Prop :=
  r.prepare = .ok ∧ .error ∉ r.binds ∧ r.step = .ok

instance (r : CallResults) : Decidable r.Executes := inferInstanceAs (Decidable (_ ∧ _ ∧ _))

/-- How the call closes the transaction, if one is open. A call that returns early closes it only
if its step rolled it back. -/
def CallResults.closes (r : CallResults) : Option TxnEnd :=
  if r.prepare = .error ∨ .error ∈ r.binds then none
  else
    match r.step with
    | .error rolledBack => if rolledBack then some .rollback else none
    | .ok =>
        match r.endTransaction with
        | .ok => some .commit
        | .error rolledBack => if rolledBack then some .rollback else none

/-- The call with its transaction, as a bracket. -/
def StoreCall.bracket (call : StoreCall) : TxnBracket StoreCall where
  begins := call.results.beginTransaction = .ok
  effect := if call.results.Executes then some call else none
  closes := call.results.closes

/-- The table, as the connection sees it and as the open transaction began with it. -/
def Conn.txnStore (db : Conn) : TxnStore Table := ⟨db.table, db.openTxn⟩

/-- What a call does to a table. -/
def applyCall (table : Table) (call : StoreCall) : Table := call.effect table

theorem durable_txnStore (db : Conn) : db.txnStore.durable = db.committed := rfl

theorem txnStore_beginTransaction (r : SqlResult) (db : Conn) :
    (db.beginTransaction r).txnStore =
      if r = .ok then db.txnStore.begin else db.txnStore := by
  obtain ⟨table, openTxn, depth⟩ := db
  cases r <;> cases openTxn <;> rfl

theorem txnStore_rollback (db : Conn) : db.rollback.txnStore = db.txnStore.close .rollback := rfl

theorem txnStore_endTransaction (r : ExecResult) (db : Conn) :
    (db.endTransaction r).txnStore =
      match r with
      | .ok => db.txnStore.close .commit
      | .error rolledBack => if rolledBack then db.txnStore.close .rollback else db.txnStore := by
  rcases r with _ | rolledBack
  · rfl
  · cases rolledBack <;> rfl

/-- **A call is a bracket** on the table. -/
theorem storeStep_txnStore (db : Conn) (call : StoreCall) :
    (storeStep db call).txnStore = db.txnStore.step applyCall call.bracket := by
  have hbegin : (db.mutexEnter.beginTransaction call.results.beginTransaction).txnStore =
      if call.bracket.begins then db.txnStore.begin else db.txnStore := by
    rw [txnStore_beginTransaction, StoreCall.bracket]
    simp only [decide_eq_true_eq]
    rfl
  rw [storeStep, runStatement, TxnStore.step, ← hbegin]
  generalize db.mutexEnter.beginTransaction call.results.beginTransaction = begun
  have hleave : ∀ db : Conn, db.mutexLeave.txnStore = db.txnStore := fun _ => rfl
  have heffect : ({ begun with table := call.effect begun.table } : Conn).txnStore =
      { begun.txnStore with value := applyCall begun.txnStore.value call } := rfl
  simp only [StoreCall.bracket, CallResults.closes]
  by_cases hbinds : .error ∈ call.results.binds
  · have hfails : ¬ call.results.Executes := fun h => h.2.1 hbinds
    simp [hbinds, hfails]
  cases hprepare : call.results.prepare with
  | error =>
      have hfails : ¬ call.results.Executes := fun h =>
        absurd (hprepare.symm.trans h.1) (by simp)
      simp [hfails]
  | ok =>
      cases hstep : call.results.step with
      | error rolledBack =>
          have hfails : ¬ call.results.Executes := fun h =>
            absurd (hstep.symm.trans h.2.2) (by simp)
          cases rolledBack <;> simp [hbinds, hfails, txnStore_rollback]
      | ok =>
          have hexec : call.results.Executes := ⟨hprepare, hbinds, hstep⟩
          rcases call.results.endTransaction with _ | rolledBack
          · simp [hbinds, hexec, hleave, txnStore_endTransaction, heffect]
          · cases rolledBack <;>
              simp [hbinds, hexec, hleave, txnStore_endTransaction, heffect]

/-! ### Runs -/

/-- The calls of a run that are on disk when the process ends, a transaction being open at its
start or not: those that ran outside a transaction, and those whose transaction the run commits. -/
def committedCalls (opened : Bool) (calls : List StoreCall) : List StoreCall :=
  TxnStore.survivors opened (calls.map StoreCall.bracket)

/-- The calls whose statement ran. -/
def executedCalls (calls : List StoreCall) : List StoreCall :=
  calls.filter fun call => call.results.Executes

theorem executed_bracket (calls : List StoreCall) :
    TxnStore.executed (calls.map StoreCall.bracket) = executedCalls calls := by
  rw [TxnStore.executed, List.filterMap_map, executedCalls, ← List.filterMap_eq_filter]
  refine List.filterMap_congr fun call _ => ?_
  by_cases h : call.results.Executes <;> simp [StoreCall.bracket, Option.guard, h]

theorem txnStore_run (db : Conn) (calls : List StoreCall) :
    (run storeStep db calls).txnStore =
      run (TxnStore.step applyCall) db.txnStore (calls.map StoreCall.bracket) :=
  run_map Conn.txnStore StoreCall.bracket storeStep_txnStore db calls

/-- The committed table after a run has the effects of the committed calls. -/
theorem committed_eq_foldl (table : Table) (mutexDepth : ℕ) (calls : List StoreCall) :
    (run storeStep ⟨table, none, mutexDepth⟩ calls).committed =
      (committedCalls false calls).foldl applyCall table := by
  rw [← durable_txnStore, txnStore_run]
  exact TxnStore.durable_run_of_closed table _

/-- **What is on disk when the process ends.** After every sequence of calls from outside a
transaction, whatever their SQLite calls return, the committed table has the effects of the calls
that ran outside a transaction or whose transaction was committed later in the run, in the order
of the calls, and of no others. -/
theorem committed_run (table : Table) (mutexDepth : ℕ) (calls : List StoreCall) :
    (run storeStep ⟨table, none, mutexDepth⟩ calls).committed =
        (committedCalls false calls).foldl applyCall table ∧
      (committedCalls false calls).Sublist (executedCalls calls) := by
  refine ⟨committed_eq_foldl table mutexDepth calls, ?_⟩
  rw [← executed_bracket]
  exact TxnStore.survivors_sublist _ _

/-- **Without rollbacks only the last calls are lost**: what is on disk is the effect of an initial
part of the calls that ran. None is lost if the last call was committed: a call that commits takes
with it what earlier calls left in its transaction. -/
theorem committed_run_prefix (table : Table) (mutexDepth : ℕ) {calls : List StoreCall}
    (hcalls : ∀ call ∈ calls, call.results.closes ≠ some .rollback) :
    (∃ lost, executedCalls calls = committedCalls false calls ++ lost ∧
        (run storeStep ⟨table, none, mutexDepth⟩ calls).committed =
          (committedCalls false calls).foldl applyCall table) ∧
      ∀ pre call, calls = pre ++ [call] → call.results.closes = some .commit →
        (run storeStep ⟨table, none, mutexDepth⟩ calls).committed =
          (executedCalls calls).foldl applyCall table := by
  have hbrackets : ∀ {calls : List StoreCall},
      (∀ call ∈ calls, call.results.closes ≠ some .rollback) →
      ∀ b ∈ calls.map StoreCall.bracket, b.closes ≠ some .rollback := by
    intro calls hcalls b hb
    obtain ⟨call, hcall, rfl⟩ := List.mem_map.mp hb
    exact hcalls call hcall
  constructor
  · obtain ⟨lost, hlost⟩ := TxnStore.survivors_isPrefix (hbrackets hcalls) false
    refine ⟨lost, ?_, committed_eq_foldl table mutexDepth calls⟩
    rw [← executed_bracket, ← hlost, committedCalls]
  · rintro pre call rfl hcommit
    have hpre : ∀ call ∈ pre, call.results.closes ≠ some .rollback := fun call hcall =>
      hcalls call (List.mem_append_left _ hcall)
    have hall := TxnStore.survivors_eq_executed (b := call.bracket) (hbrackets hpre) hcommit false
    rw [committed_eq_foldl, committedCalls, ← executed_bracket, List.map_append,
      List.map_singleton, hall]

/-- A removal fails after its `BEGIN`, and the save after it commits. -/
theorem committed_run_prefix_small :
    let calls : List StoreCall := [.remove { bindHash := .error } [1], .update {} [2] ⟨[3], [], []⟩]
    (∃ lost, executedCalls calls = committedCalls false calls ++ lost ∧
        (run storeStep ⟨.empty, none, 0⟩ calls).committed =
          (committedCalls false calls).foldl applyCall .empty) ∧
      ∀ pre call, calls = pre ++ [call] → call.results.closes = some .commit →
        (run storeStep ⟨.empty, none, 0⟩ calls).committed =
          (executedCalls calls).foldl applyCall .empty :=
  committed_run_prefix .empty 0 (by decide)

/-- **One call** holds the mutex once more if it returned early, and else as often as before. -/
theorem mutexDepth_storeStep (db : Conn) (call : StoreCall) :
    (storeStep db call).mutexDepth =
      db.mutexDepth + if call.results.Executes then 0 else 1 := by
  by_cases hexec : call.results.Executes
  · obtain ⟨hprepare, hbinds, hstep⟩ := hexec
    have hend : ∀ (r : ExecResult) (db : Conn),
        (db.endTransaction r).mutexDepth = db.mutexDepth := by
      rintro (_ | rolledBack) db
      · rfl
      · cases rolledBack <;> rfl
    rw [if_pos ⟨hprepare, hbinds, hstep⟩, storeStep, runStatement]
    simp only [hprepare, hbinds, hstep, reduceCtorEq, if_false, Conn.mutexLeave, hend,
      mutexDepth_beginTransaction, Conn.mutexEnter]
    omega
  · rw [if_neg hexec]
    exact runStatement_of_failed hexec

/-- **The mutex is leaked once for each call that returned early**, and never given back: after
every sequence of calls, whatever their SQLite calls return. -/
theorem mutexDepth_run (db : Conn) (calls : List StoreCall) :
    (run storeStep db calls).mutexDepth =
      db.mutexDepth + calls.countP fun call => ¬ call.results.Executes := by
  induction calls generalizing db with
  | nil => rfl
  | cons call calls ih =>
      rw [run_cons, ih, mutexDepth_storeStep, List.countP_cons]
      by_cases hexec : call.results.Executes
      · simp [hexec]
      · simp [hexec]
        omega

end DartTorrent
