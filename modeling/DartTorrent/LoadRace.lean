import DartTorrent.Batch
import DartTorrent.Restore

/-!
# Saves During the Load

`lt_init_session` registers the alert callback and then loads the session, and the load
holds neither the database mutex nor a transaction across its `sqlite3_step` calls. So the
callback may handle alerts between two of them, on the same connection. A save of a torrent
that the loop has submitted replaces its row, and the new row is above all others: ahead of
the cursor.

A load is *disturbed* from the first save it meets: what it has read and what is ahead of it
are then more rows than the table had at the start, and this stays so until it ends.

## Main results

* `atRest_run`: without saves in it, a load reads the table as if nobody else was there.
* `disturbed_step`: a disturbed load stays disturbed.
* `load_undisturbed_iff`: the load submits each row of the start once, in no more steps than
  there were rows, if and only if no save is handled before it ends and each row has resume
  data that is accepted.
* `load_chased`: a torrent that is saved whenever it has been submitted keeps the load going.
-/

open GuardedRun

namespace DartTorrent

/-! ### The load and the callback -/

/-- The globals of the callback, whose store is the table, and the load. -/
structure Loading where
  app : App Table
  load : LoadState

/-- A `sqlite3_step` of the load with the body of its loop, or an alert handled by the
callback. -/
inductive LoadingEvent
  | step
  | alert (env : Env) (a : Alert)

/-- One event, all SQLite calls succeeding. -/
def loadingStep (le : LoadEnv) (s : Loading) : LoadingEvent → Loading
  | .step => { s with load := loadStep le .ok s.app.store s.load }
  | .alert env a => { s with app := (handleAlert env (tableBackend le.codec) s.app a).1 }

/-- The key that the parameters of a save go under. -/
def saveKey (params : AddTorrentParams) : Bytes := hexText params.infoHashes.getBest

/-- The save is of a torrent that the loop has submitted: under the key of the row it was
submitted from or, if the best hash of the torrent has changed since, under a new key. -/
def SavesSubmitted (s : Loading) (params : AddTorrentParams) : Prop :=
  (∃ x ∈ s.load.submitted, x.key = saveKey params) ∨
    (s.load.submitted ≠ [] ∧ s.app.store.lookup (saveKey params) = none)

/-- Saves are of torrents that the loop has submitted, and no torrent is removed. -/
def LoadingEvent.Legal (s : Loading) : LoadingEvent → Prop
  | .alert _ (.saveResumeData _ params) => SavesSubmitted s params
  | .alert _ (.torrentRemoved _ _) => False
  | _ => True

/-- The event is not a save that falls into the scan. -/
def LoadingEvent.Spares (s : Loading) : LoadingEvent → Prop
  | .alert _ (.saveResumeData _ _) => s.load.status ≠ .running
  | _ => True

instance (s : Loading) (params : AddTorrentParams) : Decidable (SavesSubmitted s params) :=
  inferInstanceAs (Decidable (_ ∨ _))

/-- The number of `sqlite3_step` calls of the load. -/
def loadSteps (events : List LoadingEvent) : ℕ :=
  events.countP fun e => match e with
    | .step => true
    | .alert _ _ => false

/-- The load of a table has ended as it should: it has submitted each row once, and has not
gone through more rows than there were. -/
structure Undisturbed (table : Table) (l : LoadState) : Prop where
  finished : l.status = .finished
  iterations : l.iterations ≤ table.rows.length
  once : ∀ e ∈ table.rows, (l.submitted.filter fun x => x.key = e.key).length = 1

/-- The row has resume data, and `read_resume_data` accepts it. -/
def Loads (le : LoadEnv) (e : KeyedTable.Entry Bytes StoredRow) : Prop :=
  ∃ params, loadRow le e.val = .submitted params

variable {le : LoadEnv} {table : Table} {s : Loading}

/-! ### One step -/

/-- A step that reads a row moves the cursor there and counts it, and does not finish. -/
theorem cursor_loadStep (le : LoadEnv) {l : LoadState} {e : KeyedTable.Entry Bytes StoredRow}
    {rest : List (KeyedTable.Entry Bytes StoredRow)} (hrun : l.status = .running)
    (hahead : table.ahead l.last = e :: rest) :
    (loadStep le .ok table l).last = e.rowid ∧
      (loadStep le .ok table l).iterations = l.iterations + 1 ∧
      (loadStep le .ok table l).status ≠ .finished := by
  rcases loadStep_of_next le hrun hahead with ⟨-, hstep⟩ | ⟨-, hstep⟩
  · rw [hstep]
    exact ⟨rfl, rfl, fun h => absurd (hrun.symm.trans h) (by simp)⟩
  · rw [hstep]
    exact ⟨rfl, rfl, by simp⟩

/-- The cursor stays within the table. -/
theorem last_loadStep_le (le : LoadEnv) {l : LoadState} (h : l.last ≤ table.maxRowid) :
    (loadStep le .ok table l).last ≤ table.maxRowid := by
  by_cases hrun : l.status = .running
  · cases hahead : table.ahead l.last with
    | nil =>
        rw [loadStep_of_next_none le hrun hahead]
        exact h
    | cons e rest =>
        rw [(cursor_loadStep le hrun hahead).1]
        have hmem : e ∈ table.ahead l.last := hahead ▸ List.mem_cons_self
        exact KeyedTable.rowid_le_maxRowid (KeyedTable.mem_ahead.mp hmem).1
  · rwa [loadStep_of_ne_running hrun]

/-! ### An undisturbed load -/

/-- After `n` steps the load has only read the rows of the start, and while it runs they are
the table. -/
structure AtRest (le : LoadEnv) (table : Table) (n : ℕ) (s : Loading) : Prop where
  scan : ∃ seen rest, ScanInv le table s.load seen rest
  store : s.load.status = .running → s.app.store = table
  steps : s.load.status = .running → s.load.iterations = n
  last : s.load.last ≤ table.maxRowid

theorem atRest_start (le : LoadEnv) (app : App Table) :
    AtRest le app.store 0 ⟨app, .start⟩ :=
  ⟨⟨[], app.store.rows, scanInv_start le app.store⟩, fun _ => rfl, fun _ => rfl, Nat.zero_le _⟩

theorem AtRest.iterations_le {n : ℕ} (h : AtRest le table n s) :
    s.load.iterations ≤ table.rows.length := by
  obtain ⟨seen, rest, inv⟩ := h.scan
  rw [inv.iterations, inv.rows, List.length_append]
  exact Nat.le_add_right _ _

/-- A step of the load. -/
theorem AtRest.step {n : ℕ} (h : AtRest le table n s) :
    AtRest le table (n + 1) (loadingStep le s .step) := by
  obtain ⟨seen, rest, inv⟩ := h.scan
  by_cases hrun : s.load.status = .running
  · have hstore := h.store hrun
    simp only [loadingStep, hstore]
    have hlast := last_loadStep_le le h.last
    rcases scanInv_step inv hrun with ⟨-, hstep, hinv⟩ | ⟨e, rest', -, hiter, hinv⟩
    · exact ⟨⟨seen, rest, hinv⟩, fun _ => hstore, by simp [hstep], hlast⟩
    · exact ⟨⟨seen ++ [e], rest', hinv⟩, fun _ => hstore,
        fun _ => hiter.trans (by rw [h.steps hrun]), hlast⟩
  · simp only [loadingStep, loadStep_of_ne_running hrun]
    exact ⟨h.scan, fun hr => absurd hr hrun, fun hr => absurd hr hrun, h.last⟩

/-- An alert that is no save into the scan. -/
theorem AtRest.alert {n : ℕ} (h : AtRest le table n s) {env : Env} {a : Alert}
    (hlegal : LoadingEvent.Legal s (.alert env a))
    (hspares : LoadingEvent.Spares s (.alert env a)) :
    AtRest le table n (loadingStep le s (.alert env a)) := by
  refine ⟨h.scan, fun hrun => ?_, h.steps, h.last⟩
  have hstore : (loadingStep le s (.alert env a)).app.store =
      a.onStore (tableBackend le.codec) s.app.store := store_handleAlert _ _ _ _
  rw [hstore]
  cases a with
  | saveResumeData x params => exact absurd hrun hspares
  | torrentRemoved x ih => exact absurd hlegal id
  | _ => exact h.store hrun

/-- **Without saves in it, a load reads the table as if nobody else was there.** -/
theorem atRest_run {n : ℕ} (h : AtRest le table n s) {events : List LoadingEvent}
    (hlegal : Along (loadingStep le) LoadingEvent.Legal s events)
    (hspares : Along (loadingStep le) LoadingEvent.Spares s events) :
    AtRest le table (n + loadSteps events) (run (loadingStep le) s events) := by
  induction events generalizing s n with
  | nil => exact h
  | cons e events ih =>
      cases e with
      | step =>
          have hnext := ih h.step hlegal.2 hspares.2
          rw [run_cons, loadSteps, List.countP_cons_of_pos rfl]
          rwa [Nat.add_right_comm] at hnext
      | alert env a =>
          have hnext := ih (h.alert hlegal.1 hspares.1) hlegal.2 hspares.2
          rw [run_cons, loadSteps, List.countP_cons_of_neg (by simp)]
          exact hnext

/-- Of the rows that a load has read to the end, those with accepted resume data were
submitted once. -/
theorem submitted_once_iff {e : KeyedTable.Entry Bytes StoredRow} (he : e ∈ table.rows) :
    ((table.rows.filterMap (submission le)).filter fun x => x.key = e.key).length = 1 ↔
      Loads le e := by
  have hlookup : table.lookup e.key = some e.val :=
    KeyedTable.lookup_eq_some_iff.mpr ⟨e, he, rfl, rfl⟩
  have hvals : ((table.rows.filterMap (submission le)).filter fun x => x.key = e.key).map
      KeyedTable.Entry.val = [e.val].filterMap (loadedParams le) := by
    rw [submitted_of_key, KeyedTable.map_val_filter_key, hlookup]
    rfl
  rw [← List.length_map KeyedTable.Entry.val, hvals, Loads]
  cases hrow : loadRow le e.val <;> simp [loadedParams, hrow]

/-! ### A disturbed load -/

/-- The load has met a save: what it has gone through and what is ahead of it are more than
the `rows` of the start. -/
structure Disturbed (rows : ℕ) (s : Loading) : Prop where
  running : s.load.status = .running →
    rows < s.load.iterations + (s.app.store.ahead s.load.last).length
  finished : s.load.status = .finished → rows < s.load.iterations
  last : s.load.last ≤ s.app.store.maxRowid

/-- A step moves a row from those ahead to those that the load has gone through. -/
theorem Disturbed.step {rows : ℕ} (h : Disturbed rows s) :
    Disturbed rows (loadingStep le s .step) := by
  have hlast := last_loadStep_le le h.last
  by_cases hrun : s.load.status = .running
  · have hrows := h.running hrun
    cases hahead : s.app.store.ahead s.load.last with
    | nil =>
        rw [hahead, List.length_nil] at hrows
        have hstep := loadStep_of_next_none le hrun hahead
        refine ⟨fun hr => ?_, fun _ => ?_, hlast⟩
        · have hend := congrArg LoadState.status hstep
          exact absurd (hend.symm.trans hr) (by simp)
        · simp only [loadingStep, hstep]
          exact hrows
    | cons e rest =>
        rw [hahead, List.length_cons] at hrows
        obtain ⟨hcursor, hiter, hfin⟩ := cursor_loadStep le hrun hahead
        refine ⟨fun _ => ?_, fun hf => absurd hf hfin, hlast⟩
        simp only [loadingStep]
        rw [hcursor, hiter, KeyedTable.ahead_of_next hahead]
        omega
  · simp only [loadingStep, loadStep_of_ne_running hrun]
    exact h

/-- An alert takes no row from those ahead. -/
theorem Disturbed.alert {rows : ℕ} (h : Disturbed rows s) {env : Env} {a : Alert}
    (hlegal : LoadingEvent.Legal s (.alert env a)) :
    Disturbed rows (loadingStep le s (.alert env a)) := by
  have hstore : (loadingStep le s (.alert env a)).app.store =
      a.onStore (tableBackend le.codec) s.app.store := store_handleAlert _ _ _ _
  cases a with
  | saveResumeData x params =>
      refine ⟨fun hrun => ?_, h.finished, ?_⟩
      · refine (h.running hrun).trans_le (Nat.add_le_add_left ?_ _)
        exact KeyedTable.length_ahead_le_replace h.last _ _
      · exact h.last.trans (KeyedTable.maxRowid_lt_replace _ _ _).le
  | torrentRemoved x ih => exact absurd hlegal id
  | _ =>
      refine ⟨fun hrun => ?_, h.finished, ?_⟩
      · rw [hstore]
        exact h.running hrun
      · rw [hstore]
        exact h.last

/-- **A disturbed load stays disturbed.** -/
theorem disturbed_step {rows : ℕ} (h : Disturbed rows s) {e : LoadingEvent} (he : e.Legal s) :
    Disturbed rows (loadingStep le s e) := by
  cases e with
  | step => exact h.step
  | alert env a => exact h.alert he

/-- **The first save into a scan disturbs it**: the row of the torrent is not ahead, but the
new one is. -/
theorem AtRest.save {n : ℕ} (h : AtRest le table n s) (hrun : s.load.status = .running)
    {env : Env} {x : TorrentHandle} {params : AddTorrentParams} (hsaves : SavesSubmitted s params) :
    Disturbed table.rows.length (loadingStep le s (.alert env (.saveResumeData x params))) := by
  obtain ⟨seen, rest, inv⟩ := h.scan
  have hstore := h.store hrun
  have hkey : ∀ f ∈ table.ahead s.load.last, f.key ≠ saveKey params := by
    rw [inv.ahead hrun]
    intro f hf hfk
    have hrow : f ∈ table.rows := inv.rows ▸ List.mem_append_right _ hf
    rcases hsaves with ⟨y, hy, hyk⟩ | ⟨-, hnone⟩
    · rw [inv.submitted] at hy
      obtain ⟨e, he, hsub⟩ := List.mem_filterMap.mp hy
      obtain ⟨_, -, rfl⟩ := Option.map_eq_some_iff.mp hsub
      have hlt := (List.pairwise_append.mp (inv.rows ▸ table.rowid_lt)).2.2 e he f hf
      have heq : e = f := KeyedTable.eq_of_key_eq (inv.rows ▸ List.mem_append_left _ he) hrow
        (hyk.trans hfk.symm)
      exact absurd (heq ▸ hlt) (Nat.lt_irrefl _)
    · rw [hstore] at hnone
      exact KeyedTable.lookup_eq_none_iff.mp hnone f hrow hfk
  have hnew := KeyedTable.length_ahead_replace_of_notMem h.last hkey (storedRow le.codec params)
  have hcount := congrArg List.length inv.rows
  rw [List.length_append, ← inv.iterations, ← inv.ahead hrun] at hcount
  have hafter : (loadingStep le s (.alert env (.saveResumeData x params))).app.store =
      table.replace (saveKey params) (storedRow le.codec params) :=
    congrArg (fun t => KeyedTable.replace t _ _) hstore
  refine ⟨fun _ => ?_, fun hf => absurd (hrun.symm.trans hf) (by simp), ?_⟩
  · rw [hafter]
    refine lt_of_lt_of_eq ?_ (congrArg (s.load.iterations + ·) hnew.symm)
    omega
  · rw [hafter]
    exact h.last.trans (KeyedTable.maxRowid_lt_replace _ _ _).le

/-- A run keeps saves out of the scan, or ends disturbed. -/
theorem spares_or_disturbed {n : ℕ} (h : AtRest le table n s) {events : List LoadingEvent}
    (hlegal : Along (loadingStep le) LoadingEvent.Legal s events) :
    Along (loadingStep le) LoadingEvent.Spares s events ∨
      Disturbed table.rows.length (run (loadingStep le) s events) := by
  induction events generalizing s n with
  | nil => exact Or.inl trivial
  | cons e events ih =>
      obtain ⟨hlegal, hrest⟩ := hlegal
      by_cases hspares : e.Spares s
      · have hnext : ∃ m, AtRest le table m (loadingStep le s e) := by
          cases e with
          | step => exact ⟨n + 1, h.step⟩
          | alert env a => exact ⟨n, h.alert hlegal hspares⟩
        obtain ⟨m, hnext⟩ := hnext
        exact (ih hnext hrest).imp_left fun hgoes => ⟨hspares, hgoes⟩
      · have hdist : Disturbed table.rows.length (loadingStep le s e) := by
          cases e with
          | step => exact absurd trivial hspares
          | alert env a =>
              cases a with
              | saveResumeData x params => exact h.save (not_not.mp hspares) hlegal
              | _ => exact absurd trivial hspares
        have hstep : ∀ (s : Loading) (e : LoadingEvent), Disturbed table.rows.length s →
            e.Legal s → Disturbed table.rows.length (loadingStep le s e) :=
          fun s e hd he => disturbed_step hd he
        have hend := inv_run hstep hdist hrest
        exact Or.inr hend

/-! ### When the load is undisturbed -/

/-- **The load is undisturbed exactly when no save falls into it and every row loads.** For
every table and every interleaving of the steps of the load with the alerts of the callback,
saves being of torrents the loop has submitted, with one step more than there were rows: the
load has finished, has gone through no more rows than there were and has submitted each of
them once if and only if no save is handled while the scan is open, and each row has resume
data that `read_resume_data` accepts. -/
theorem load_undisturbed_iff (le : LoadEnv) (app : App Table) (events : List LoadingEvent)
    (hlegal : Along (loadingStep le) LoadingEvent.Legal ⟨app, .start⟩ events)
    (hsteps : app.store.rows.length < loadSteps events) :
    Undisturbed app.store (run (loadingStep le) ⟨app, .start⟩ events).load ↔
      Along (loadingStep le) LoadingEvent.Spares ⟨app, .start⟩ events ∧
        ∀ e ∈ app.store.rows, Loads le e := by
  have hstart := atRest_start le app
  constructor
  · intro hload
    rcases spares_or_disturbed hstart hlegal with hspares | hdist
    · obtain ⟨⟨seen, rest, inv⟩, -⟩ := atRest_run hstart hlegal hspares
      obtain ⟨rfl, -⟩ := inv.finished hload.finished
      have hrows : app.store.rows = seen := by rw [inv.rows, List.append_nil]
      refine ⟨hspares, fun e he => (submitted_once_iff he).mp ?_⟩
      rw [hrows, ← inv.submitted]
      exact hload.once e he
    · exact absurd hload.iterations (Nat.not_le.mpr (hdist.finished hload.finished))
  · rintro ⟨hspares, hloads⟩
    have hend := atRest_run hstart hlegal hspares
    obtain ⟨seen, rest, inv⟩ := hend.scan
    have hsafe : ∀ e ∈ app.store.rows, ¬ Throws le e := by
      rintro e he ⟨what, hthrow⟩
      obtain ⟨params, hsub⟩ := hloads e he
      exact absurd (hsub.symm.trans hthrow) (by simp)
    rcases inv.status with hrun | hfin | ⟨-, e, he, hthrow⟩
    · have hiter := hend.iterations_le
      rw [hend.steps hrun, Nat.zero_add] at hiter
      exact absurd hsteps (Nat.not_lt.mpr hiter)
    · obtain ⟨rfl, -⟩ := inv.finished hfin
      have hrows : app.store.rows = seen := by rw [inv.rows, List.append_nil]
      refine ⟨hfin, hend.iterations_le, fun e he => ?_⟩
      rw [inv.submitted, ← hrows]
      exact (submitted_once_iff he).mpr (hloads e he)
    · exact absurd hthrow (hsafe e (inv.rows ▸ List.mem_append_left _ he))

/-- A table of two torrents is loaded, an alert of another kind between the steps, and a
save of the first after the end. -/
theorem load_undisturbed_run :
    let params := sampleParams 3
    let other : AddTorrentParams := { infoHashes := ⟨⟨List.replicate 20 1, rfl⟩, none⟩ }
    let app : App Table := .start ((KeyedTable.empty.replace (saveKey params)
      (storedRow netstringCodec params)).replace (saveKey other) (storedRow netstringCodec other))
    let le : LoadEnv := ⟨netstringCodec, none⟩
    let events : List LoadingEvent := [.step, .alert (.ofDead []) (.stateChanged ⟨some 1⟩), .step,
      .step, .alert (.ofDead []) (.saveResumeData ⟨some 1⟩ params)]
    Undisturbed app.store (run (loadingStep le) ⟨app, .start⟩ events).load ↔
      Along (loadingStep le) LoadingEvent.Spares ⟨app, .start⟩ events ∧
        ∀ e ∈ app.store.rows, Loads le e :=
  load_undisturbed_iff ⟨netstringCodec, none⟩ _ _
    ⟨trivial, trivial, trivial, trivial, Or.inl (by decide +kernel), trivial⟩ (by decide +kernel)

/-- **A row is submitted twice.** The one torrent of the table is submitted and saved, and
its new row is the next that the loop reads. -/
theorem load_resubmits_saved :
    let params := sampleParams 3
    let app : App Table := .start (KeyedTable.empty.replace (saveKey params)
      (storedRow netstringCodec params))
    let le : LoadEnv := ⟨netstringCodec, none⟩
    let events : List LoadingEvent :=
      [.step, .alert (.ofDead []) (.saveResumeData ⟨some 1⟩ params), .step, .step]
    let l := (run (loadingStep le) ⟨app, .start⟩ events).load
    Along (loadingStep le) LoadingEvent.Legal ⟨app, .start⟩ events ∧
      l.submitted.map KeyedTable.Entry.key = [saveKey params, saveKey params] ∧
      l.iterations = 2 ∧ app.store.rows.length = 1 ∧ ¬ Undisturbed app.store l := by
  intro params app le events l
  have hlegal : Along (loadingStep le) LoadingEvent.Legal ⟨app, .start⟩ events :=
    ⟨trivial, Or.inl (by decide +kernel), trivial, trivial, trivial⟩
  have hiter : l.iterations = 2 := by decide +kernel
  refine ⟨hlegal, by decide +kernel, hiter, rfl, fun h => ?_⟩
  exact absurd (hiter ▸ h.iterations) (by decide)

/-! ### A load that does not end -/

/-- The load of one torrent, saved each time it has been submitted, `n` times over. -/
def chase (env : Env) (x : TorrentHandle) (params : AddTorrentParams) (n : ℕ) :
    List LoadingEvent :=
  (List.replicate n [.step, .alert env (.saveResumeData x params)]).flatten

/-- The load has submitted `n` times, and the one row of the table, which loads, is ahead. -/
structure Chased (le : LoadEnv) (params : AddTorrentParams) (n : ℕ) (s : Loading) : Prop where
  running : s.load.status = .running
  submitted : s.load.submitted.length = n
  row : ∃ e, s.app.store.rows = [e] ∧ e.key = saveKey params ∧ s.load.last < e.rowid ∧ Loads le e

/-- One more round: the row is submitted, and the save puts it ahead again. -/
theorem Chased.round {params : AddTorrentParams} {n : ℕ} (h : Chased le params n s) (env : Env)
    (x : TorrentHandle) :
    Along (loadingStep le) LoadingEvent.Legal s (chase env x params 1) ∧
      Chased le params (n + 1) (run (loadingStep le) s (chase env x params 1)) := by
  obtain ⟨e, hrows, hkey, hlast, loaded, hload⟩ := h.row
  have hahead : s.app.store.ahead s.load.last = [e] := by
    rw [KeyedTable.ahead, hrows, List.filter_cons_of_pos (by simpa using hlast), List.filter_nil]
  have hnext : s.app.store.next s.load.last = some e :=
    KeyedTable.next_eq_some_iff.mpr ⟨[], hahead⟩
  have hstep : loadStep le .ok s.app.store s.load =
      { s.load with
        last := e.rowid
        iterations := s.load.iterations + 1
        submitted := s.load.submitted ++ [⟨e.rowid, e.key, loaded⟩] } := by
    simp only [loadStep, h.running, hnext, hload]
  have hmax : e.rowid ≤ s.app.store.maxRowid :=
    KeyedTable.rowid_le_maxRowid (hrows ▸ List.mem_singleton_self e)
  have hreplaced : (s.app.store.replace (saveKey params) (storedRow le.codec params)).rows =
      [⟨s.app.store.maxRowid + 1, saveKey params, storedRow le.codec params⟩] := by
    rw [KeyedTable.rows_replace, hrows, List.filter_cons_of_neg (by simpa using hkey)]
    rfl
  refine ⟨⟨trivial, Or.inl ⟨⟨e.rowid, e.key, loaded⟩, ?_, hkey⟩, trivial⟩, ?_, ?_, _, hreplaced,
    rfl, ?_, restored le params, loadRow_storedRow params⟩
  · rw [loadingStep, hstep]
    exact List.mem_append_right _ List.mem_cons_self
  · exact (congrArg LoadState.status hstep).trans h.running
  · refine (congrArg (fun l => l.submitted.length) hstep).trans ?_
    rw [List.length_append, h.submitted, List.length_singleton]
  · exact lt_of_eq_of_lt (congrArg LoadState.last hstep) (Nat.lt_succ_of_le hmax)

theorem chase_succ (env : Env) (x : TorrentHandle) (params : AddTorrentParams) (n : ℕ) :
    chase env x params (n + 1) = chase env x params n ++ chase env x params 1 := by
  rw [chase, chase, chase, List.replicate_add, List.flatten_append]

/-- **A load may go on for ever.** If the only torrent of the table is saved each time the
loop has submitted it, then after `n` steps the loop has submitted it `n` times and still
runs. -/
theorem load_chased (le : LoadEnv) (env : Env) (x : TorrentHandle) {params : AddTorrentParams}
    {app : App Table} {e : KeyedTable.Entry Bytes StoredRow} (hrows : app.store.rows = [e])
    (hkey : e.key = saveKey params) (hload : Loads le e) (n : ℕ) :
    Along (loadingStep le) LoadingEvent.Legal ⟨app, .start⟩ (chase env x params n) ∧
      Chased le params n (run (loadingStep le) ⟨app, .start⟩ (chase env x params n)) := by
  induction n with
  | zero =>
      have hpos : 0 < e.rowid := app.store.rowid_pos e (hrows ▸ List.mem_singleton_self e)
      exact ⟨trivial, rfl, rfl, e, hrows, hkey, hpos, hload⟩
  | succ n ih =>
      obtain ⟨hlegal, hchased⟩ := ih
      obtain ⟨hround, hnext⟩ := hchased.round env x
      rw [chase_succ, along_append, run_append]
      exact ⟨⟨hlegal, hround⟩, hnext⟩

end DartTorrent
