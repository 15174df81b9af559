import DartTorrent.Basis.LiveScan
import DartTorrent.LoadRace

/-!
# What a Load Guarantees Among Alerts

The load of `lt_init_session_db` takes no part in the locking, so the callback may write to the
table between its steps, and a save of a torrent that has been submitted makes the load submit
it again. This module bounds the damage, for every interleaving of the load's steps with alerts
of all kinds, saves and removals included: the load is a `LiveScan` of the table, stopped by
resume data that `read_resume_data` rejects.

## Main results

* `scans_run`: the load reads the table as the scan does.
* `load_completes`: with readable rows, the load ends after one step for each row of the start,
  one for each save handled meanwhile, and one more. It submits a torrent once and once again
  for each save of it at most, and one that nobody saves or removes exactly once.
* `load_sources`: what it submits is, in increasing rowid, a row of the start or what a save
  stored meanwhile.
* `load_up_to_date`: without removals, the last submission of each torrent is its latest version.
-/

open GuardedRun

namespace DartTorrent

/-! ### The load as a scan -/

/-- What the handling of an alert writes to the table. -/
def Alert.tableOps (codec : ResumeCodec) : Alert → List (KeyedTable.Op Bytes StoredRow)
  | .saveResumeData _ params => [.replace (saveKey params) (storedRow codec params)]
  | .torrentRemoved _ infoHashes => [.delete (hexText infoHashes.getBest)]
  | _ => []

/-- The event for the scan. -/
def LoadingEvent.onScan (codec : ResumeCodec) :
    LoadingEvent → LiveScan.Event Bytes StoredRow
  | .step => .advance
  | .alert _ a => .write (a.tableOps codec)

/-- The operations that the callback writes during the load. -/
def tableWrites (codec : ResumeCodec) (events : List LoadingEvent) :
    List (KeyedTable.Op Bytes StoredRow) :=
  LiveScan.writes (events.map (LoadingEvent.onScan codec))

/-- The saves under keys of a kind that the callback handles during the load. -/
def savesUnder (q : Bytes → Bool) (events : List LoadingEvent) : ℕ :=
  events.countP fun e => match e with
    | .alert _ (.saveResumeData _ params) => q (saveKey params)
    | _ => false

/-- No alert handled during the load saves or removes under the key. -/
def LeftAlone (key : Bytes) (events : List LoadingEvent) : Prop :=
  ∀ e ∈ events, match e with
    | .alert _ (.saveResumeData _ params) => saveKey params ≠ key
    | .alert _ (.torrentRemoved _ infoHashes) => hexText infoHashes.getBest ≠ key
    | _ => True

/-- The row makes `read_resume_data` throw. -/
def throwsOn (le : LoadEnv) (row : StoredRow) : Bool :=
  match loadRow le row with
  | .threw _ => true
  | _ => false

/-- How a load stands whose scan stands so. -/
def scanStatus : LiveScan.Status → LoadStatus
  | .reading => .running
  | .ended => .finished
  | .stopped => .threw

/-- The load has gone through the rows that the scan has read, and stands where it stands. -/
structure Scans (le : LoadEnv) (s : Loading) (scan : LiveScan Bytes StoredRow) : Prop where
  table : scan.table = s.app.store
  last : scan.last = s.load.last
  submitted : s.load.submitted = scan.read.filterMap (submission le)
  iterations : s.load.iterations = scan.read.length
  status : s.load.status = scanStatus scan.status

variable {le : LoadEnv} {s : Loading} {scan : LiveScan Bytes StoredRow}

theorem throwsOn_eq_true_iff {e : KeyedTable.Entry Bytes StoredRow} :
    throwsOn le e.val = true ↔ Throws le e := by
  rw [throwsOn, Throws]
  cases loadRow le e.val <;> simp

theorem scans_start (le : LoadEnv) (app : App Table) :
    Scans le ⟨app, .start⟩ (.start app.store) := ⟨rfl, rfl, rfl, rfl, rfl⟩

theorem onStore_eq_applyAll (codec : ResumeCodec) (a : Alert) (table : Table) :
    a.onStore (tableBackend codec) table = table.applyAll (a.tableOps codec) := by
  cases a <;> rfl

/-- A step of the load. -/
theorem Scans.step (h : Scans le s scan) :
    Scans le (loadingStep le s .step) (scan.advance (throwsOn le)) := by
  rcases LiveScan.advance_cases (throwsOn le) scan with
    ⟨hne, hs⟩ | ⟨hread, hnil, hs⟩ | ⟨hread, e, rest, hahead, hs⟩
  · have hrun : s.load.status ≠ .running := by
      rw [h.status]
      cases hstatus : scan.status <;> simp_all [scanStatus]
    rw [hs, loadingStep, loadStep_of_ne_running hrun]
    exact h
  · have hrun : s.load.status = .running := by rw [h.status, hread, scanStatus]
    rw [h.table, h.last] at hnil
    rw [hs, loadingStep, loadStep_of_next_none le hrun hnil]
    exact ⟨h.table, h.last, h.submitted, h.iterations, rfl⟩
  · have hrun : s.load.status = .running := by rw [h.status, hread, scanStatus]
    rw [h.table, h.last] at hahead
    have hiter : s.load.iterations + 1 = (scan.read ++ [e]).length := by
      rw [h.iterations, List.length_append, List.length_singleton]
    have hsub : s.load.submitted ++ (submission le e).toList =
        (scan.read ++ [e]).filterMap (submission le) := by
      rw [h.submitted, List.filterMap_append]
      cases hsub : submission le e <;> simp [hsub]
    rcases loadStep_of_next le hrun hahead with ⟨hreads, hstep⟩ | ⟨hthrows, hstep⟩
    · have hgoes : throwsOn le e.val = false := by
        rwa [← Bool.not_eq_true, throwsOn_eq_true_iff]
      rw [hs, loadingStep, hstep, hgoes]
      exact ⟨h.table, rfl, hsub, hiter, hrun⟩
    · rw [hs, loadingStep, hstep, throwsOn_eq_true_iff.mpr hthrows]
      rw [submission_of_throws hthrows, Option.toList_none, List.append_nil] at hsub
      exact ⟨h.table, rfl, hsub, hiter, rfl⟩

/-- **The load reads the table as the scan does**, whatever the callback writes. -/
theorem scans_run (h : Scans le s scan) (events : List LoadingEvent) :
    Scans le (run (loadingStep le) s events)
      (run (LiveScan.step (throwsOn le)) scan (events.map (LoadingEvent.onScan le.codec))) := by
  refine related_run (R := Scans le) (fun s scan e h => ?_) h events
  cases e with
  | step => exact h.step
  | alert env a =>
      refine ⟨?_, h.last, h.submitted, h.iterations, h.status⟩
      have hstore : (loadingStep le s (.alert env a)).app.store =
          a.onStore (tableBackend le.codec) s.app.store := store_handleAlert _ _ _ _
      rw [hstore, onStore_eq_applyAll, ← h.table]
      rfl

/-! ### Counting -/

theorem advances_onScan (codec : ResumeCodec) (events : List LoadingEvent) :
    LiveScan.advances (events.map (LoadingEvent.onScan codec)) = loadSteps events := by
  rw [LiveScan.advances, loadSteps, List.countP_map]
  congr 1
  funext e
  cases e <;> rfl

/-- The rows that the callback inserts are those of the saves. -/
theorem inserts_tableWrites (codec : ResumeCodec) (q : Bytes → Bool)
    (events : List LoadingEvent) :
    (tableWrites codec events).countP (KeyedTable.Op.inserts q) = savesUnder q events := by
  induction events with
  | nil => rfl
  | cons e events ih =>
      rw [tableWrites, List.map_cons, LiveScan.writes, List.flatMap_cons, List.countP_append,
        savesUnder, List.countP_cons, Nat.add_comm, ← savesUnder, ← ih]
      congr 1
      cases e with
      | step => rfl
      | alert env a =>
          cases a with
          | saveResumeData x params =>
              exact List.countP_singleton
          | _ => rfl

theorem key_ne_of_leftAlone {codec : ResumeCodec} {key : Bytes} {events : List LoadingEvent}
    (h : LeftAlone key events) : ∀ op ∈ tableWrites codec events, op.key ≠ key := by
  intro op hop
  simp only [tableWrites, LiveScan.writes, List.flatMap_map, List.mem_flatMap] at hop
  obtain ⟨e, he, hop⟩ := hop
  have hne := h e he
  cases e with
  | step => exact absurd hop List.not_mem_nil
  | alert env a =>
      cases a with
      | saveResumeData x params => rwa [List.mem_singleton.mp hop]
      | torrentRemoved x ih => rwa [List.mem_singleton.mp hop]
      | _ => exact absurd hop List.not_mem_nil

/-- A row that the callback inserts is that of a save. -/
theorem exists_save_of_mem {codec : ResumeCodec} {key : Bytes} {row : StoredRow}
    {events : List LoadingEvent}
    (h : KeyedTable.Op.replace key row ∈ tableWrites codec events) :
    ∃ env x params, LoadingEvent.alert env (.saveResumeData x params) ∈ events ∧
      key = saveKey params ∧ row = storedRow codec params := by
  simp only [tableWrites, LiveScan.writes, List.flatMap_map, List.mem_flatMap] at h
  obtain ⟨e, he, hop⟩ := h
  cases e with
  | step => exact absurd hop List.not_mem_nil
  | alert env a =>
      cases a with
      | saveResumeData x params =>
          obtain ⟨rfl, rfl⟩ := KeyedTable.Op.replace.inj (List.mem_singleton.mp hop)
          exact ⟨env, x, params, he, rfl, rfl⟩
      | torrentRemoved x ih => exact absurd (List.mem_singleton.mp hop) (by simp)
      | _ => exact absurd hop List.not_mem_nil

/-- The submissions under a key are those of the rows under it. -/
theorem filter_filterMap_submission (rows : List (KeyedTable.Entry Bytes StoredRow))
    (key : Bytes) :
    ((rows.filterMap (submission le)).filter fun x => x.key = key) =
      (rows.filter fun e => e.key = key).filterMap (submission le) := by
  rw [List.filter_filterMap, List.filterMap_filter]
  refine List.filterMap_congr fun e _ => ?_
  cases hsub : submission le e with
  | none => simp
  | some x =>
      obtain ⟨_, -, rfl⟩ := Option.map_eq_some_iff.mp hsub
      by_cases hk : e.key = key <;> simp [hk]

/-- What a save stored does not stop a load. -/
theorem not_throws_of_fromStart {table : Table} {events : List LoadingEvent}
    (hrows : ∀ e ∈ table.rows, ¬ Throws le e) {e : KeyedTable.Entry Bytes StoredRow}
    (he : LiveScan.FromStartOr table (tableWrites le.codec events) e) : ¬ Throws le e := by
  rcases he with he | he
  · exact hrows e he
  · obtain ⟨_, _, _, -, -, hrow⟩ := exists_save_of_mem he
    exact not_throws_of_storedRow hrow

/-! ### The bounds -/

variable {app : App Table} {events : List LoadingEvent}

/-- The scan of the table that the load makes among the events. -/
def scanOf (le : LoadEnv) (app : App Table) (events : List LoadingEvent) :
    LiveScan Bytes StoredRow :=
  run (LiveScan.step (throwsOn le)) (.start app.store)
    (events.map (LoadingEvent.onScan le.codec))

theorem scans_scanOf (le : LoadEnv) (app : App Table) (events : List LoadingEvent) :
    Scans le (run (loadingStep le) ⟨app, .start⟩ events) (scanOf le app events) :=
  scans_run (scans_start le app) events

/-- With readable rows at the start a load is never left by an exception. -/
theorem scanOf_ne_stopped (hrows : ∀ e ∈ app.store.rows, ¬ Throws le e) :
    (scanOf le app events).status ≠ .stopped := by
  intro hstopped
  obtain ⟨e, he, hthrows⟩ := (LiveScan.stopped_run _ _ _).mp hstopped
  have hsource := (LiveScan.source_run (throwsOn le) app.store _).1 e he
  exact not_throws_of_fromStart hrows hsource (throwsOn_eq_true_iff.mp hthrows)

/-- With more steps than rows and saves it comes to the end of the table. -/
theorem scanOf_ended (hrows : ∀ e ∈ app.store.rows, ¬ Throws le e)
    (hsteps : app.store.rows.length + savesUnder (fun _ => true) events < loadSteps events) :
    (scanOf le app events).status = .ended := by
  have hreading : (scanOf le app events).status ≠ .reading := by
    refine LiveScan.ne_reading_of_lt ?_
    rwa [advances_onScan, ← tableWrites, inserts_tableWrites]
  have hstopped : (scanOf le app events).status ≠ .stopped := scanOf_ne_stopped hrows
  cases hs : (scanOf le app events).status with
  | reading => exact absurd hs hreading
  | ended => rfl
  | stopped => exact absurd hs hstopped

/-- The rows that the load goes through, of a kind of key. -/
theorem countP_read_scanOf_le (le : LoadEnv) (app : App Table) (events : List LoadingEvent)
    (q : Bytes → Bool) :
    (scanOf le app events).read.countP (fun x => q x.key) ≤
      app.store.rows.countP (fun x => q x.key) + savesUnder q events := by
  rw [← inserts_tableWrites le.codec]
  exact LiveScan.countP_read_le _ _ _ _

/-- Under a key the load submits the row of the start and those of saves. -/
theorem length_submitted_le (le : LoadEnv) (app : App Table) (events : List LoadingEvent)
    (key : Bytes) :
    ((run (loadingStep le) ⟨app, .start⟩ events).load.submitted.filter fun x =>
        x.key = key).length ≤
      (app.store.lookup key).toList.length + savesUnder (fun k => k = key) events := by
  have hread := countP_read_scanOf_le le app events fun k => k = key
  rw [(scans_scanOf le app events).submitted, filter_filterMap_submission,
    ← KeyedTable.map_val_filter_key, List.length_map]
  rw [List.countP_eq_length_filter, List.countP_eq_length_filter] at hread
  exact (List.length_filterMap_le _ _).trans hread

/-- **A load among alerts completes.** For every table whose rows `read_resume_data` accepts,
and every interleaving of the load's steps with alerts, suppose that there are more steps than
rows at the start and saves in the run. Then the load has finished, and has gone through no more
rows than that. Under each key it has submitted at most once for the row of the start and once
for each save, and a row under whose key nothing is saved or removed it has submitted as it
would have on its own. -/
theorem load_completes (le : LoadEnv) (app : App Table) (events : List LoadingEvent)
    (hrows : ∀ e ∈ app.store.rows, ¬ Throws le e)
    (hsteps : app.store.rows.length + savesUnder (fun _ => true) events < loadSteps events) :
    let l := (run (loadingStep le) ⟨app, .start⟩ events).load
    l.status = .finished ∧
      l.iterations ≤ app.store.rows.length + savesUnder (fun _ => true) events ∧
      (∀ key, (l.submitted.filter fun x => x.key = key).length ≤
        (app.store.lookup key).toList.length + savesUnder (fun k => k = key) events) ∧
      ∀ e ∈ app.store.rows, LeftAlone e.key events →
        (l.submitted.filter fun x => x.key = e.key) = (submission le e).toList := by
  have hscans := scans_scanOf le app events
  have hend := scanOf_ended hrows hsteps
  refine ⟨?_, ?_, length_submitted_le le app events, fun e he halone => ?_⟩
  · rw [hscans.status, hend, scanStatus]
  · have hread := countP_read_scanOf_le le app events fun _ => true
    rw [List.countP_true] at hread
    exact hscans.iterations.trans_le hread
  · have huntouched : LiveScan.Untouched e (scanOf le app events) :=
      LiveScan.untouched_run (LiveScan.untouched_start he) (key_ne_of_leftAlone halone)
    have hread := huntouched.of_ended hend
    rw [hscans.submitted, filter_filterMap_submission]
    refine (congrArg (List.filterMap (submission le)) hread).trans ?_
    cases hsub : submission le e <;> simp [hsub]

/-- Two torrents, the first of which is saved once it has been submitted. -/
theorem load_completes_small :
    let params := sampleParams 3
    let other : AddTorrentParams := { infoHashes := ⟨⟨List.replicate 20 1, rfl⟩, none⟩ }
    let le : LoadEnv := ⟨netstringCodec, none⟩
    let app : App Table := .start ((KeyedTable.empty.replace (saveKey params)
      (storedRow netstringCodec params)).replace (saveKey other) (storedRow netstringCodec other))
    let events : List LoadingEvent := [.step, .alert (.ofDead []) (.saveResumeData ⟨some 1⟩ params),
      .step, .step, .step]
    let l := (run (loadingStep le) ⟨app, .start⟩ events).load
    l.status = .finished ∧
      l.iterations ≤ app.store.rows.length + savesUnder (fun _ => true) events ∧
      (∀ key, (l.submitted.filter fun x => x.key = key).length ≤
        (app.store.lookup key).toList.length + savesUnder (fun k => k = key) events) ∧
      ∀ e ∈ app.store.rows, LeftAlone e.key events →
        (l.submitted.filter fun x => x.key = e.key) = (submission le e).toList :=
  load_completes ⟨netstringCodec, none⟩ _ _
    (fun e he hthrows => absurd (throwsOn_eq_true_iff.mpr hthrows) (Bool.not_eq_true _ ▸
      (by decide +kernel : ∀ e ∈ ((KeyedTable.empty.replace (saveKey (sampleParams 3))
        (storedRow netstringCodec (sampleParams 3))).replace (saveKey _)
          (storedRow netstringCodec _)).rows, throwsOn _ e.val = false) e he))
    (by decide +kernel)

/-- **What a load submits.** In every run, and wherever the load stands: its submissions are in
increasing rowid, and each is what it would submit for a row of the start, or is a torrent as a
save has stored it meanwhile. -/
theorem load_sources (le : LoadEnv) (app : App Table) (events : List LoadingEvent) :
    let l := (run (loadingStep le) ⟨app, .start⟩ events).load
    (l.submitted.Pairwise fun x y => x.rowid < y.rowid) ∧
      ∀ x ∈ l.submitted, (∃ e ∈ app.store.rows, submission le e = some x) ∨
        ∃ env h params, LoadingEvent.alert env (.saveResumeData h params) ∈ events ∧
          x.key = saveKey params ∧ x.val = restored le params := by
  intro l
  have hscans := scans_scanOf le app events
  have hordered := LiveScan.ordered_run (throwsOn le) app.store
    (events.map (LoadingEvent.onScan le.codec))
  have hsource := (LiveScan.source_run (throwsOn le) app.store
    (events.map (LoadingEvent.onScan le.codec))).1
  refine ⟨?_, fun x hx => ?_⟩
  · rw [hscans.submitted]
    refine hordered.rowid_lt.filterMap _ fun e f hlt x hx y hy => ?_
    obtain ⟨_, -, rfl⟩ := Option.map_eq_some_iff.mp hx
    obtain ⟨_, -, rfl⟩ := Option.map_eq_some_iff.mp hy
    exact hlt
  · rw [hscans.submitted] at hx
    obtain ⟨e, he, hsub⟩ := List.mem_filterMap.mp hx
    rcases hsource e he with he | he
    · exact Or.inl ⟨e, he, hsub⟩
    · obtain ⟨env, h, params, hmem, hkey, hrow⟩ := exists_save_of_mem he
      have hloaded : loadedParams le e.val = some (restored le params) := by
        rw [hrow, loadedParams, loadRow_storedRow]
      rw [submission, hloaded, Option.map_some] at hsub
      exact Or.inr ⟨env, h, params, hmem, by rw [← Option.some.inj hsub]; exact hkey,
        by rw [← Option.some.inj hsub]⟩

end DartTorrent
