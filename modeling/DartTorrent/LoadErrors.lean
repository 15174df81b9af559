import DartTorrent.Resume
import DartTorrent.Load

/-!
# Rows That Cannot Be Loaded

Two calls in the loop of `lt_init_session_db` may throw. The call of `async_add_torrent`
stands in a `try`, whose handler logs the error and goes on with the next row. The call of
`read_resume_data` stands before it: what it throws leaves the loop and the function, the
statement open and the rows behind it unread.

`ltInitSessionDbCatching` is the load with both kinds of exceptions. What `async_add_torrent`
answers makes no difference to the rest of it: as far as rows and submissions go it is the
load of `DartTorrent.Load` (`load_catching`).

## Main results

* `load_survives_iff`: the load returns, with its statement finalized and every good row
  submitted, if and only if `read_resume_data` rejects no row.
* `load_stops_at_bad_row`: a row that it rejects, before one that is good.
-/

namespace DartTorrent

/-! ### The load with its exceptions -/

/-- What `async_add_torrent` does at its `n`-th call: it accepts the parameters, or throws. -/
abbrev AsyncAddTorrent := ℕ → AddTorrentParams → Except Bytes Unit

/-- The load, and the errors that its exception handler has logged. -/
structure CatchingLoad where
  load : LoadState
  logged : List Bytes

section Catching

variable (env : LoadEnv) (add : AsyncAddTorrent)

/-- The body of the loop on a row: the state after it, or the exception that leaves it. -/
def loadBody (e : KeyedTable.Entry Bytes StoredRow) (l : CatchingLoad) :
    Except Bytes CatchingLoad :=
  if e.val.resume = [] then .ok l
  else
    match env.codec.readResumeData e.val.resume with
    | .error what => .error what
    | .ok resumeData =>
        let params := withSavePath env e.val.savePath (withName e.val.name resumeData)
        let called : CatchingLoad :=
          { l with load.submitted := l.load.submitted ++ [⟨e.rowid, e.key, params⟩] }
        -- the `try` block
        match add l.load.submitted.length params with
        | .ok () => .ok called
        | .error what => .ok { called with logged := l.logged ++ [what] }

/-- One `sqlite3_step` and, if it returns a row, the body of the loop on it. -/
def catchingStep (r : SqlResult) (table : Table) (l : CatchingLoad) : CatchingLoad :=
  match l.load.status, r with
  | .running, .error => { l with load.status := .stepFailed }
  | .running, .ok =>
      match table.next l.load.last with
      | none => { l with load.status := .finished }
      | some e =>
          let l : CatchingLoad :=
            { l with load.last := e.rowid, load.iterations := l.load.iterations + 1 }
          match loadBody env add e l with
          | .ok l => l
          | .error _ => { l with load.status := .threw }
  | _, _ => l

/-- The loop on a table that nobody writes to, for at most `fuel` steps. -/
def catchingLoop (table : Table) : ℕ → CatchingLoad → CatchingLoad
  | 0, l => l
  | fuel + 1, l => catchingLoop table fuel (catchingStep env add .ok table l)

/-- `lt_init_session_db` with no writes meanwhile, every `sqlite3_step` returning a row or the
end of the scan. -/
def ltInitSessionDbCatching (r : InitResults) (table : Table) : CatchingLoad :=
  if r.openDb = .error then ⟨{ LoadState.start with status := .notStarted }, []⟩
  else if r.prepare = .error then ⟨{ LoadState.start with status := .notStarted }, []⟩
  else catchingLoop env add table (table.rows.length + 1) ⟨.start, []⟩

end Catching

variable {env : LoadEnv} {add : AsyncAddTorrent}

/-- **The body of the loop**: it does with a row what the load does, and goes on after an
exception of `async_add_torrent`. -/
theorem loadBody_spec (env : LoadEnv) (add : AsyncAddTorrent)
    (e : KeyedTable.Entry Bytes StoredRow) (l : CatchingLoad) :
    match loadRow env e.val with
    | .empty => loadBody env add e l = .ok l
    | .threw what => loadBody env add e l = .error what
    | .submitted params => ∃ logged, loadBody env add e l = .ok
        ⟨{ l.load with submitted := l.load.submitted ++ [⟨e.rowid, e.key, params⟩] }, logged⟩ := by
  rw [loadRow, loadBody]
  by_cases hempty : e.val.resume = []
  · rw [if_pos hempty, if_pos hempty]
  · rw [if_neg hempty, if_neg hempty]
    cases env.codec.readResumeData e.val.resume with
    | error what => rfl
    | ok resumeData =>
        dsimp only
        split
        · exact ⟨_, rfl⟩
        · exact ⟨_, rfl⟩

/-- **A step is the one of the load without exceptions of `async_add_torrent`.** -/
theorem load_catchingStep (r : SqlResult) (table : Table) (l : CatchingLoad) :
    (catchingStep env add r table l).load = loadStep env r table l.load := by
  obtain ⟨⟨last, submitted, iterations, status⟩, logged⟩ := l
  cases status with
  | running =>
      cases r with
      | error => rfl
      | ok =>
          simp only [catchingStep, loadStep]
          cases table.next last with
          | none => rfl
          | some e =>
              have hbody := loadBody_spec env add e
                ⟨⟨e.rowid, submitted, iterations + 1, .running⟩, logged⟩
              dsimp only at hbody ⊢
              cases hrow : loadRow env e.val with
              | empty =>
                  rw [hrow] at hbody
                  rw [show loadBody env add e _ = _ from hbody]
              | threw what =>
                  rw [hrow] at hbody
                  rw [show loadBody env add e _ = _ from hbody]
              | submitted params =>
                  rw [hrow] at hbody
                  obtain ⟨logged', hbody⟩ := hbody
                  rw [show loadBody env add e _ = _ from hbody]
  | _ => rfl

theorem load_catchingLoop (table : Table) (fuel : ℕ) (l : CatchingLoad) :
    (catchingLoop env add table fuel l).load = loadLoop env table fuel l.load := by
  induction fuel generalizing l with
  | zero => rfl
  | succ fuel ih => rw [catchingLoop, ih, load_catchingStep, loadLoop]

/-- **The load does not depend on what `async_add_torrent` throws.** -/
theorem load_catching (r : InitResults) (table : Table) :
    (ltInitSessionDbCatching env add r table).load = ltInitSessionDb env r table := by
  rw [ltInitSessionDbCatching, ltInitSessionDb]
  split
  · rfl
  · split
    · rfl
    · exact load_catchingLoop table _ _

/-! ### Which tables are loaded -/

/-- The row has no resume data, or `read_resume_data` accepts it. -/
def Accepted (env : LoadEnv) (row : StoredRow) : Prop :=
  row.resume = [] ∨ ∃ params, env.codec.readResumeData row.resume = .ok params

/-- A row that is not accepted is one that makes the load throw. -/
theorem not_throws_iff_accepted (e : KeyedTable.Entry Bytes StoredRow) :
    ¬ Throws env e ↔ Accepted env e.val := by
  rw [Throws, Accepted, loadRow]
  by_cases hempty : e.val.resume = []
  · simp [hempty]
  · cases hread : env.codec.readResumeData e.val.resume with
    | error what => simp [hempty]
    | ok resumeData => simp [hempty]

/-- **A load that ends has gone through rows that it could read only.** -/
theorem loadLoop_finished (env : LoadEnv) (table : Table)
    (hfin : (loadLoop env table (table.rows.length + 1) .start).status = .finished) :
    ∀ e ∈ table.rows, ¬ Throws env e := by
  obtain ⟨seen, rest, inv, -⟩ := loadLoop_scanInv (scanInv_start env table) (Nat.lt_succ_self _)
  obtain ⟨rfl, hsafe⟩ := inv.finished hfin
  rw [inv.rows, List.append_nil]
  exact hsafe

/-- **A load that is left by an exception** has gone through the rows before the one that
`read_resume_data` rejected, and submitted what these have. -/
theorem loadLoop_threw {l : LoadState} {table : Table}
    {seen rest : List (KeyedTable.Entry Bytes StoredRow)} (inv : ScanInv env table l seen rest)
    (hrun : l.status = .running) {fuel : ℕ} (hthrew : (loadLoop env table fuel l).status = .threw) :
    ∃ seen' e rest', table.rows = seen' ++ e :: rest' ∧ Throws env e ∧
      (loadLoop env table fuel l).submitted = seen'.filterMap (submission env) := by
  induction fuel generalizing l seen rest with
  | zero => exact absurd (hrun.symm.trans hthrew) (by simp)
  | succ fuel ih =>
      rw [loadLoop] at hthrew ⊢
      rcases scanInv_step inv hrun with ⟨-, hstep, -⟩ | ⟨e, rest', -, -, hinv⟩
      · rw [hstep, loadLoop_of_ne_running (by simp)] at hthrew
        exact absurd hthrew (by simp)
      · by_cases hgoes : (loadStep env .ok table l).status = .running
        · exact ih hinv hgoes hthrew
        · rw [loadLoop_of_ne_running hgoes] at hthrew ⊢
          obtain ⟨e', he', hthrows⟩ : ∃ e' ∈ seen ++ [e], Throws env e' := by
            rcases hinv.status with hstatus | hstatus | ⟨-, hmem⟩
            · exact absurd hstatus hgoes
            · exact absurd (hstatus.symm.trans hthrew) (by simp)
            · exact hmem
          -- The rows before it were read while the loop ran.
          rcases List.mem_append.mp he' with hold | hlast
          · exact absurd hthrows (inv.running hrun e' hold)
          · obtain rfl := List.mem_singleton.mp hlast
            have hnone := submission_of_throws hthrows
            refine ⟨seen, e', rest', by rw [hinv.rows, List.append_assoc]; rfl, hthrows, ?_⟩
            rw [hinv.submitted, List.filterMap_append, List.filterMap_cons_none hnone,
              List.filterMap_nil, List.append_nil]

/-- **A load that can read the rows before a row comes to it**, and submits what it has. -/
theorem mem_submitted_of_before {table : Table} {e : KeyedTable.Entry Bytes StoredRow}
    (he : e ∈ table.rows)
    (hbefore : ∀ f ∈ table.rows, f.rowid < e.rowid → ¬ Throws env f) :
    ∀ x ∈ submission env e, x ∈ (ltInitSessionDb env {} table).submitted := by
  intro x hx
  have hstart := scanInv_start env table
  obtain ⟨seen, rest, inv, hend⟩ := loadLoop_scanInv hstart (Nat.lt_succ_self _)
  rcases inv.status with hrun | hfin | ⟨hthrew, -⟩
  · exact absurd hrun hend
  · obtain ⟨-, hsub, -⟩ := loadLoop_submitted env table (loadLoop_finished env table hfin)
    exact hsub ▸ List.mem_filterMap.mpr ⟨e, he, hx⟩
  · obtain ⟨seen', e', rest', hrows, hthrows, hsub⟩ := loadLoop_threw hstart rfl hthrew
    have hread : e ∈ seen' := by
      refine (List.mem_append.mp (hrows ▸ he)).resolve_right fun hmem => ?_
      rcases List.mem_cons.mp hmem with rfl | hbehind
      · exact absurd ((submission_of_throws hthrows).symm.trans hx) (by simp)
      · have hsorted := (List.pairwise_append.mp (hrows ▸ table.rowid_lt)).2.1
        have hlt : e'.rowid < e.rowid := (List.pairwise_cons.mp hsorted).1 e hbehind
        have hmem' : e' ∈ table.rows := hrows ▸ List.mem_append_right _ List.mem_cons_self
        exact hbefore e' hmem' hlt hthrows
    exact hsub ▸ List.mem_filterMap.mpr ⟨e, hread, hx⟩

/-- **The load survives every row but those that `read_resume_data` rejects.** For every
content of the table, and whatever `async_add_torrent` does: `lt_init_session_db` returns
with its statement finalized, having called `async_add_torrent` for exactly the rows with
resume data that is accepted, in scan order, if and only if no row has resume data that
`read_resume_data` rejects. -/
theorem load_survives_iff (env : LoadEnv) (add : AsyncAddTorrent) (createTable : SqlResult)
    (table : Table) :
    let l := (ltInitSessionDbCatching env add { createTable := createTable } table).load
    (l.status = .finished ∧ l.submitted = table.rows.filterMap (submission env)) ↔
      ∀ e ∈ table.rows, Accepted env e.val := by
  intro l
  have hl : l = loadLoop env table (table.rows.length + 1) .start := load_catching _ _
  have haccepted : (∀ e ∈ table.rows, Accepted env e.val) ↔ ∀ e ∈ table.rows, ¬ Throws env e :=
    forall₂_congr fun e _ => (not_throws_iff_accepted e).symm
  rw [haccepted, hl]
  constructor
  · intro h
    exact loadLoop_finished env table h.1
  · intro h
    obtain ⟨hfin, hsub, -⟩ := loadLoop_submitted env table h
    exact ⟨hfin, hsub⟩

/-- **A bad row stops the load.** The first row's resume data is one byte that is no resume
data, the second is a saved torrent: the load is left by the exception, and the torrent is
not submitted. -/
theorem load_stops_at_bad_row :
    let env : LoadEnv := ⟨netstringCodec, none⟩
    let saved := storedRow netstringCodec (sampleParams 3)
    let table : Table := (KeyedTable.empty.replace [97] ⟨[0], [], []⟩).replace [98] saved
    let l := (ltInitSessionDbCatching env (fun _ _ => .ok ()) {} table).load
    table.rows.filterMap (submission env) = [⟨2, [98], sampleParams 3⟩] ∧
      l.status = .threw ∧ l.submitted = [] := by
  decide +kernel

end DartTorrent
