import DartTorrent.Sql
import DartTorrent.Basis.Recency
import Mathlib.Data.List.TakeWhile

/-!
# Loading the Session

The model of `lt_init_session_db`: the rows of `torrents` are read one `sqlite3_step` after
the other, and each row's resume data, with the name and save path of its columns, is
submitted to `async_add_torrent`. The scan reads the live table in increasing rowid, so it
is a cursor on the table of the moment, and `loadStep` takes the table as an argument.

`read_resume_data` may throw, which leaves the function with the statement open. An
exception of `async_add_torrent` is caught and logged, so it makes no difference to the
loop. What the log line takes of the arena is modelled in `DartTorrent.Program`.

## Main results

* `scanInv_step`: on a table that nobody writes to, the loop reads the rows in order.
* `loadLoop_ends`: the loop ends after one step for each row and one more.
* `loadLoop_submitted`: when every row's resume data is accepted, the loop submits exactly
  the rows that have resume data, in order, and finalizes its statement.
-/

namespace DartTorrent

/-! ### One row -/

/-- What the load needs to know: the resume data codec, and the value of `HOME` on iOS,
where the variable is set; `none` elsewhere. -/
structure LoadEnv where
  codec : ResumeCodec
  iosHome : Option Bytes

/-- `std::string(const char*)`: the bytes up to the first NUL. -/
def stdString (bytes : Bytes) : Bytes := bytes.takeWhile (· ≠ 0)

/-- `std::string::find`: where `pat` first occurs. -/
def findSub (pat : Bytes) : Bytes → Option ℕ
  | [] => if pat = [] then some 0 else none
  | b :: s => if pat.isPrefixOf (b :: s) then some 0 else (findSub pat s).map (· + 1)

/-- `"/Documents/"`. -/
def documentsDir : Bytes := [47, 68, 111, 99, 117, 109, 101, 110, 116, 115, 47]

/-- The save path that a stored one is restored as: on iOS, where the home directory of an
app may move, the part from `/Documents/` on is put behind `HOME`. Without such a part
`substr` throws, and the stored path is kept. -/
def restoredPath (env : LoadEnv) (oldPath : Bytes) : Bytes :=
  match env.iosHome with
  | none => oldPath
  | some home =>
      match findSub documentsDir oldPath with
      | some i => home ++ oldPath.drop i
      | none => oldPath

/-- The name column replaces the name, unless it is empty. -/
def withName (name : Bytes) (resumeData : AddTorrentParams) : AddTorrentParams :=
  if name = [] then resumeData else { resumeData with name := stdString name }

/-- The save path column replaces the save path, unless it is empty. -/
def withSavePath (env : LoadEnv) (savePath : Bytes) (resumeData : AddTorrentParams) :
    AddTorrentParams :=
  if savePath = [] then resumeData
  else { resumeData with savePath := restoredPath env (stdString savePath) }

/-- What the loop does with a row. -/
inductive RowOutcome
  | empty
  | threw (what : Bytes)
  | submitted (params : AddTorrentParams)
deriving DecidableEq

/-- The body of the loop, up to the call of `async_add_torrent`. -/
def loadRow (env : LoadEnv) (row : StoredRow) : RowOutcome :=
  if row.resume = [] then .empty
  else
    match env.codec.readResumeData row.resume with
    | .error what => .threw what
    | .ok resumeData => .submitted (withSavePath env row.savePath (withName row.name resumeData))

/-! ### The loop -/

/-- Where the load stands: before the scan, in it, after it (its statement finalized), or
left by an exception of `read_resume_data` (its statement open). -/
inductive LoadStatus
  | notStarted
  | running
  | finished
  | stepFailed
  | threw
deriving DecidableEq, Repr

/-- The cursor's rowid, the rows submitted so far with the parameters they were submitted
with, and the number of rows the loop has gone through. -/
structure LoadState where
  last : ℕ
  submitted : List (KeyedTable.Entry Bytes AddTorrentParams)
  iterations : ℕ
  status : LoadStatus
deriving DecidableEq

/-- The scan is prepared. -/
def LoadState.start : LoadState := ⟨0, [], 0, .running⟩

/-- One `sqlite3_step` and, if it returns a row, the body of the loop on it. -/
def loadStep (env : LoadEnv) (r : SqlResult) (table : Table) (l : LoadState) : LoadState :=
  match l.status, r with
  | .running, .error => { l with status := .stepFailed }
  | .running, .ok =>
      match table.next l.last with
      | none => { l with status := .finished }
      | some e =>
          let l := { l with last := e.rowid, iterations := l.iterations + 1 }
          match loadRow env e.val with
          | .empty => l
          | .threw _ => { l with status := .threw }
          | .submitted params => { l with submitted := l.submitted ++ [⟨e.rowid, e.key, params⟩] }
  | _, _ => l

/-- The loop on a table that nobody writes to, for at most `fuel` steps. -/
def loadLoop (env : LoadEnv) (table : Table) : ℕ → LoadState → LoadState
  | 0, l => l
  | fuel + 1, l => loadLoop env table fuel (loadStep env .ok table l)

/-- The results of the SQLite calls of `lt_init_session_db` before its loop. -/
structure InitResults where
  openDb : SqlResult := .ok
  createTable : SqlResult := .ok
  prepare : SqlResult := .ok
deriving DecidableEq, Repr

/-- `lt_init_session_db` with no writes meanwhile. An error of `CREATE TABLE` is logged
only. -/
def ltInitSessionDb (env : LoadEnv) (r : InitResults) (table : Table) : LoadState :=
  if r.openDb = .error then { LoadState.start with status := .notStarted }
  else if r.prepare = .error then { LoadState.start with status := .notStarted }
  else loadLoop env table (table.rows.length + 1) .start

/-! ### The scan of a table at rest -/

variable {env : LoadEnv} {table : Table} {l : LoadState}

/-- The parameters that the loop submits for a row. -/
def loadedParams (env : LoadEnv) (row : StoredRow) : Option AddTorrentParams :=
  match loadRow env row with
  | .submitted params => some params
  | _ => none

/-- What the loop submits for a row, with the row's place in the table. -/
def submission (env : LoadEnv) (e : KeyedTable.Entry Bytes StoredRow) :
    Option (KeyedTable.Entry Bytes AddTorrentParams) :=
  (loadedParams env e.val).map fun params => ⟨e.rowid, e.key, params⟩

/-- The row's resume data makes `read_resume_data` throw. -/
def Throws (env : LoadEnv) (e : KeyedTable.Entry Bytes StoredRow) : Prop :=
  ∃ what, loadRow env e.val = .threw what

/-- The loop has gone through the rows `seen`, in order, and has the rows `rest` ahead. -/
structure ScanInv (env : LoadEnv) (table : Table) (l : LoadState)
    (seen rest : List (KeyedTable.Entry Bytes StoredRow)) : Prop where
  rows : table.rows = seen ++ rest
  iterations : l.iterations = seen.length
  submitted : l.submitted = seen.filterMap (submission env)
  ahead : l.status = .running → table.ahead l.last = rest
  finished : l.status = .finished → rest = [] ∧ ∀ e ∈ seen, ¬ Throws env e
  running : l.status = .running → ∀ e ∈ seen, ¬ Throws env e
  status : l.status = .running ∨ l.status = .finished ∨
    (l.status = .threw ∧ ∃ e ∈ seen, Throws env e)

theorem scanInv_start (env : LoadEnv) (table : Table) :
    ScanInv env table .start [] table.rows :=
  ⟨rfl, rfl, rfl, fun _ => table.ahead_zero, by simp [LoadState.start], by simp, Or.inl rfl⟩

/-- A step of a loop that has ended does nothing. -/
theorem loadStep_of_ne_running (h : l.status ≠ .running) (r : SqlResult) :
    loadStep env r table l = l := by
  cases hs : l.status with
  | running => exact absurd hs h
  | _ => simp only [loadStep, hs]

/-- Nothing is submitted for a row that `read_resume_data` rejects. -/
theorem submission_of_throws {e : KeyedTable.Entry Bytes StoredRow} (h : Throws env e) :
    submission env e = none := by
  obtain ⟨what, hrow⟩ := h
  simp [submission, loadedParams, hrow]

/-- A step at the end of the table finalizes the statement. -/
theorem loadStep_of_next_none (env : LoadEnv) (hrun : l.status = .running)
    (hahead : table.ahead l.last = []) :
    loadStep env .ok table l = { l with status := .finished } := by
  have hnext : table.next l.last = none := KeyedTable.next_eq_none_iff.mpr hahead
  simp only [loadStep, hrun, hnext]

section Step

variable {e : KeyedTable.Entry Bytes StoredRow}
  {seen rest : List (KeyedTable.Entry Bytes StoredRow)}

/-- A step that reads a row moves the cursor there and counts it. It submits what the row has,
or is left by the exception of `read_resume_data`. -/
theorem loadStep_of_next (env : LoadEnv) (hrun : l.status = .running)
    (hahead : table.ahead l.last = e :: rest) :
    (¬ Throws env e ∧ loadStep env .ok table l =
        { l with
          last := e.rowid
          iterations := l.iterations + 1
          submitted := l.submitted ++ (submission env e).toList }) ∨
      (Throws env e ∧ loadStep env .ok table l =
        { l with last := e.rowid, iterations := l.iterations + 1, status := .threw }) := by
  have hnext : table.next l.last = some e := KeyedTable.next_eq_some_iff.mpr ⟨rest, hahead⟩
  simp only [loadStep, hrun, hnext]
  cases hrow : loadRow env e.val with
  | empty =>
      refine Or.inl ⟨fun ⟨_, h⟩ => absurd (hrow.symm.trans h) (by simp), ?_⟩
      simp [submission, loadedParams, hrow]
  | threw what => exact Or.inr ⟨⟨what, hrow⟩, rfl⟩
  | submitted params =>
      refine Or.inl ⟨fun ⟨_, h⟩ => absurd (hrow.symm.trans h) (by simp), ?_⟩
      simp [submission, loadedParams, hrow]

/-- The scan has gone through a row that it can read. -/
theorem ScanInv.read (inv : ScanInv env table l seen (e :: rest)) (hrun : l.status = .running)
    (hreads : ¬ Throws env e) :
    ScanInv env table
      { l with
        last := e.rowid
        iterations := l.iterations + 1
        submitted := l.submitted ++ (submission env e).toList } (seen ++ [e]) rest where
  rows := by rw [inv.rows, List.append_assoc, List.singleton_append]
  iterations := by rw [inv.iterations, List.length_append, List.length_singleton]
  submitted := by
    rw [inv.submitted, List.filterMap_append]
    cases hsub : submission env e <;> simp [hsub]
  ahead _ := KeyedTable.ahead_of_next (inv.ahead hrun)
  finished h := absurd (hrun.symm.trans h) (by simp)
  running _ := List.forall_mem_append.mpr
    ⟨inv.running hrun, List.forall_mem_singleton.mpr hreads⟩
  status := Or.inl hrun

/-- The scan is left at a row that it cannot read. -/
theorem ScanInv.throw (inv : ScanInv env table l seen (e :: rest)) (hthrows : Throws env e) :
    ScanInv env table
      { l with last := e.rowid, iterations := l.iterations + 1, status := .threw }
      (seen ++ [e]) rest where
  rows := by rw [inv.rows, List.append_assoc, List.singleton_append]
  iterations := by rw [inv.iterations, List.length_append, List.length_singleton]
  submitted := by
    rw [inv.submitted, List.filterMap_append,
      List.filterMap_cons_none (submission_of_throws hthrows), List.filterMap_nil,
      List.append_nil]
  ahead h := absurd h (by simp)
  finished h := absurd h (by simp)
  running h := absurd h (by simp)
  status := Or.inr (Or.inr ⟨rfl, e, List.mem_append_right _ (List.mem_singleton_self e), hthrows⟩)

/-- The scan has come to the end of the table. -/
theorem ScanInv.finish (inv : ScanInv env table l seen []) (hrun : l.status = .running) :
    ScanInv env table { l with status := .finished } seen [] where
  rows := inv.rows
  iterations := inv.iterations
  submitted := inv.submitted
  ahead h := absurd h (by simp)
  finished _ := ⟨rfl, inv.running hrun⟩
  running h := absurd h (by simp)
  status := Or.inr (Or.inl rfl)

/-- **One step of the scan**: it reads the next row, or ends. -/
theorem scanInv_step (inv : ScanInv env table l seen rest) (hrun : l.status = .running) :
    (rest = [] ∧ loadStep env .ok table l = { l with status := .finished } ∧
        ScanInv env table (loadStep env .ok table l) seen rest) ∨
      ∃ e rest', rest = e :: rest' ∧
        (loadStep env .ok table l).iterations = l.iterations + 1 ∧
        ScanInv env table (loadStep env .ok table l) (seen ++ [e]) rest' := by
  have hahead := inv.ahead hrun
  cases rest with
  | nil =>
      have hstep := loadStep_of_next_none env hrun hahead
      exact Or.inl ⟨rfl, hstep, hstep ▸ inv.finish hrun⟩
  | cons e rest =>
      refine Or.inr ⟨e, rest, rfl, ?_⟩
      rcases loadStep_of_next env hrun hahead with ⟨hreads, hstep⟩ | ⟨hthrows, hstep⟩
      · rw [hstep]
        exact ⟨rfl, inv.read hrun hreads⟩
      · rw [hstep]
        exact ⟨rfl, inv.throw hthrows⟩

end Step

theorem loadLoop_of_ne_running (h : l.status ≠ .running) (fuel : ℕ) :
    loadLoop env table fuel l = l := by
  induction fuel with
  | zero => rfl
  | succ fuel ih => rw [loadLoop, loadStep_of_ne_running h, ih]

/-- Whatever rows are ahead, one step for each and one more end the scan. -/
theorem loadLoop_scanInv {seen rest : List (KeyedTable.Entry Bytes StoredRow)}
    (inv : ScanInv env table l seen rest) {fuel : ℕ} (hfuel : rest.length < fuel) :
    ∃ seen' rest', ScanInv env table (loadLoop env table fuel l) seen' rest' ∧
      (loadLoop env table fuel l).status ≠ .running := by
  induction fuel generalizing l seen rest with
  | zero => exact absurd hfuel (Nat.not_lt_zero _)
  | succ fuel ih =>
      rw [loadLoop]
      by_cases hrun : l.status = .running
      · rcases scanInv_step inv hrun with ⟨-, hstep, hinv⟩ | ⟨e, rest', rfl, -, hinv⟩
        · have hend : (loadStep env .ok table l).status ≠ .running := by
            rw [hstep]
            simp
          rw [loadLoop_of_ne_running hend]
          exact ⟨seen, rest, hinv, hend⟩
        · exact ih hinv (Nat.lt_of_succ_lt_succ hfuel)
      · rw [loadStep_of_ne_running hrun, loadLoop_of_ne_running hrun]
        exact ⟨seen, rest, inv, hrun⟩

/-- **The loop ends**: one step for each row and one more are enough. -/
theorem loadLoop_ends (env : LoadEnv) (table : Table) :
    (loadLoop env table (table.rows.length + 1) .start).status ≠ .running := by
  obtain ⟨seen, rest, -, hend⟩ := loadLoop_scanInv (scanInv_start env table) (Nat.lt_succ_self _)
  exact hend

/-- **The loop submits every row that has resume data**, in order and once, when
`read_resume_data` accepts them all, and finalizes its statement. -/
theorem loadLoop_submitted (env : LoadEnv) (table : Table)
    (hok : ∀ e ∈ table.rows, ¬ Throws env e) :
    let l := loadLoop env table (table.rows.length + 1) .start
    l.status = .finished ∧ l.submitted = table.rows.filterMap (submission env) ∧
      l.iterations = table.rows.length := by
  intro l
  obtain ⟨seen, rest, inv, hend⟩ :=
    loadLoop_scanInv (scanInv_start env table) (Nat.lt_succ_self _)
  rcases inv.status with hrun | hfin | ⟨-, e, he, hthrow⟩
  · exact absurd hrun hend
  · obtain ⟨rfl, -⟩ := inv.finished hfin
    have hrows : table.rows = seen := by rw [inv.rows, List.append_nil]
    exact ⟨hfin, hrows ▸ inv.submitted, hrows ▸ inv.iterations⟩
  · have hmem : e ∈ table.rows := by
      rw [inv.rows]
      exact List.mem_append_left _ he
    exact absurd hthrow (hok e hmem)

/-- The load of a table whose rows `read_resume_data` accepts. -/
theorem ltInitSessionDb_of_readable (env : LoadEnv) (table : Table)
    (hok : ∀ e ∈ table.rows, ¬ Throws env e) :
    (ltInitSessionDb env {} table).status = .finished ∧
      (ltInitSessionDb env {} table).submitted = table.rows.filterMap (submission env) := by
  obtain ⟨hfin, hsub, -⟩ := loadLoop_submitted env table hok
  exact ⟨hfin, hsub⟩

/-- What it submits, the places of the rows left out. -/
theorem submitted_eq_bindings (hok : ∀ e ∈ table.rows, ¬ Throws env e) :
    (ltInitSessionDb env {} table).submitted.map (fun x => (x.key, x.val)) =
      table.bindings.filterMap fun b => (loadedParams env b.2).map (b.1, ·) := by
  rw [(ltInitSessionDb_of_readable env table hok).2, KeyedTable.bindings, List.map_filterMap,
    List.filterMap_map]
  refine List.filterMap_congr fun e _ => ?_
  rw [submission, Function.comp_apply, Option.map_map]
  rfl

/-- Whatever the rows, the loop submits only rows of the table. -/
theorem loadLoop_mem (env : LoadEnv) (table : Table)
    {x : KeyedTable.Entry Bytes AddTorrentParams}
    (hx : x ∈ (loadLoop env table (table.rows.length + 1) .start).submitted) :
    ∃ e ∈ table.rows, submission env e = some x := by
  obtain ⟨seen, rest, inv, -⟩ := loadLoop_scanInv (scanInv_start env table) (Nat.lt_succ_self _)
  rw [inv.submitted] at hx
  obtain ⟨e, he, hsub⟩ := List.mem_filterMap.mp hx
  refine ⟨e, ?_, hsub⟩
  rw [inv.rows]
  exact List.mem_append_left _ he

/-- The submissions under one key are those of the rows under it. -/
theorem submitted_of_key (rows : List (KeyedTable.Entry Bytes StoredRow)) (key : Bytes) :
    ((rows.filterMap (submission env)).filter fun x => x.key = key).map KeyedTable.Entry.val =
      ((rows.filter fun e => e.key = key).map KeyedTable.Entry.val).filterMap
        (loadedParams env) := by
  induction rows with
  | nil => rfl
  | cons e rows ih =>
      cases hload : loadedParams env e.val with
      | none =>
          have hsub : submission env e = none := by rw [submission, hload, Option.map_none]
          rw [List.filterMap_cons_none hsub, ih]
          by_cases hk : e.key = key <;> simp [hk, hload]
      | some params =>
          have hsub : submission env e = some ⟨e.rowid, e.key, params⟩ := by
            rw [submission, hload, Option.map_some]
          rw [List.filterMap_cons_some hsub]
          by_cases hk : e.key = key <;> simp [hk, hload, ih]

end DartTorrent
