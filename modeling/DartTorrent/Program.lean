import DartTorrent.Coherence
import DartTorrent.LoadRace

/-!
# The Whole Program

`lt_init_session` registers the alert callback and loads the session. The load, the callback and
the client's calls work on one list of torrents, one arena with its caches and one connection, and
they come in any order. A `Program` is the state of all of them, and a `ProgramEvent` is one step of
the load, one alert or one call of the client, each with what its own SQLite calls return.

The load uses the arena as well: the log line of a row that it submits takes the text of the
torrent's hash.

## Main results

* `programStep` is one event; `processProgram` is the program of the code, and `tableProgram` the
  one that keeps its table only.
* `submitted_loadStep`: what a step of the load submits is what it logs.
* `run_event`: a run of alerts and client calls is a run of the program.
* `run_loading`: so is a run of the load with the alerts between its steps.
-/

open ByteStore GuardedRun

namespace DartTorrent

variable {σ : Type*}

/-! ### One event -/

/-- Where a program keeps its data: the backend of the callback and the client calls, for what the
SQLite calls of the resume store return; the table that the load scans; and what the log line of the
load does for a torrent's hash. -/
structure ProgramBackend (σ : Type*) where
  files : UpdateResults → RemoveResults → FilesBackend σ
  table : σ → Table
  logHash : Sha1Hash → σ → σ

/-- The callback and its client, and the load. -/
structure Program (σ : Type*) where
  client : ClientState σ
  load : LoadState

/-- The program when `lt_init_session_db` has prepared its scan. -/
def Program.start (store : σ) : Program σ := ⟨⟨.start store, []⟩, .start⟩

/-- What the backend keeps. -/
def Program.store (s : Program σ) : σ := s.client.app.store

/-- A step of the load, or an alert or a client call, with the results of the SQLite calls. -/
inductive ProgramEvent
  | load (r : SqlResult)
  | event (update : UpdateResults) (remove : RemoveResults) (e : IndexEvent)

/-- The parameters that a step of the load submits, if it submits any. -/
def stepSubmits (env : LoadEnv) (r : SqlResult) (table : Table) (l : LoadState) :
    Option AddTorrentParams :=
  match l.status, r with
  | .running, .ok => (table.next l.last).bind fun e => loadedParams env e.val
  | _, _ => none

/-- One event. The log line of the load is called before `async_add_torrent`. -/
def programStep (B : ProgramBackend σ) (env : LoadEnv) (s : Program σ) : ProgramEvent → Program σ
  | .load r =>
      let table := B.table s.store
      let store :=
        match stepSubmits env r table s.load with
        | none => s.store
        | some params => B.logHash params.infoHashes.getBest s.store
      { client := { s.client with app := { s.client.app with store := store } }
        load := loadStep env r table s.load }
  | .event update remove e => { s with client := indexStep (B.files update remove) s.client e }

/-- A step that submits nothing leaves what the backend keeps. -/
theorem store_load_of_none (B : ProgramBackend σ) {env : LoadEnv} {s : Program σ} {r : SqlResult}
    (h : stepSubmits env r (B.table s.store) s.load = none) :
    (programStep B env s (.load r)).store = s.store := by
  rw [Program.store, programStep]
  dsimp only
  rw [h]

/-- A step that submits a row logs the hash of its torrent. -/
theorem store_load_of_some (B : ProgramBackend σ) {env : LoadEnv} {s : Program σ} {r : SqlResult}
    {params : AddTorrentParams}
    (h : stepSubmits env r (B.table s.store) s.load = some params) :
    (programStep B env s (.load r)).store = B.logHash params.infoHashes.getBest s.store := by
  rw [Program.store, programStep]
  dsimp only
  rw [h]

/-- **What a step submits** is what the load adds to its submissions. -/
theorem submitted_loadStep (env : LoadEnv) (r : SqlResult) (table : Table) (l : LoadState) :
    (loadStep env r table l).submitted.map KeyedTable.Entry.val =
      l.submitted.map KeyedTable.Entry.val ++ (stepSubmits env r table l).toList := by
  obtain ⟨last, submitted, iterations, status⟩ := l
  cases status with
  | running =>
      cases r with
      | error => simp [loadStep, stepSubmits]
      | ok =>
          simp only [loadStep, stepSubmits]
          cases table.next last with
          | none => simp
          | some e => cases hrow : loadRow env e.val <;> simp [loadedParams, hrow]
  | _ => simp [loadStep, stepSubmits]

/-! ### The program of the code, and its table -/

/-- The table of a process. -/
def Process.table (p : Process) : Table := p.db.table

/-- The process at start-up, on a database that is there. -/
def Process.startOn (base : ℕ) (mem : Mem UInt8) (table : Table) : Process :=
  { Process.start base mem with db := ⟨table, none, 0⟩ }

theorem ready_startOn {t : Target} {P : Placement t} (mem : Mem UInt8) (table : Table) :
    Ready P (Process.startOn P.base mem table) :=
  ⟨⟨P.start, P.ltInitStrCache_eq⟩, fun _ => rfl, rfl⟩

theorem arenaReady_startOn {t : Target} {P : Placement t} (mem : Mem UInt8) (table : Table) :
    ArenaReady P (Process.startOn P.base mem table) :=
  ⟨⟨P.start, P.ltInitStrCache_eq⟩, fun _ => rfl⟩

/-- The program of the code. -/
def processProgram (t : Target) (pol : StreamPolicy) (codec : ResumeCodec) :
    ProgramBackend Process where
  files := processFiles t pol codec
  table := Process.table
  logHash hash p := { p with str := (ltHashStr t pol hash p.str).2 }

/-- The program that keeps its table only, all SQLite calls of the resume store succeeding. -/
def tableProgram (codec : ResumeCodec) : ProgramBackend Table where
  files _ _ := tableFilesBackend codec
  table table := table
  logHash _ table := table

/-- A step of the load leaves the table. -/
theorem programStep_tableProgram_load (env : LoadEnv) (s : Program Table) (r : SqlResult) :
    programStep (tableProgram env.codec) env s (.load r) =
      { s with load := loadStep env r s.store s.load } := by
  rw [programStep]
  dsimp only [tableProgram]
  cases stepSubmits env r s.store s.load <;> rfl

/-! ### Runs that leave something out -/

/-- **A run of alerts and client calls** is a run of the program in which the load rests. -/
theorem run_event (B : ProgramBackend σ) (env : LoadEnv) (update : UpdateResults)
    (remove : RemoveResults) (s : ClientState σ) (load : LoadState) (events : List IndexEvent) :
    run (programStep B env) ⟨s, load⟩ (events.map (.event update remove)) =
      ⟨run (indexStep (B.files update remove)) s events, load⟩ :=
  (run_map (Program.mk · load) (ProgramEvent.event update remove) (fun _ _ => rfl) s events).symm

/-- An event of the load and the callback, as one of the program. -/
def LoadingEvent.ofProgram : LoadingEvent → ProgramEvent
  | .step => .load .ok
  | .alert env a => .event {} {} (.client (.alert env a))

/-- **A run of the load and the callback** is a run of the program in which the client rests. -/
theorem run_loading (env : LoadEnv) (s : Loading) (shown : List TorrentHandle)
    (events : List LoadingEvent) :
    run (programStep (tableProgram env.codec) env) ⟨⟨s.app, shown⟩, s.load⟩
        (events.map LoadingEvent.ofProgram) =
      ⟨⟨(run (loadingStep env) s events).app, shown⟩, (run (loadingStep env) s events).load⟩ := by
  refine (run_map (fun s : Loading => Program.mk ⟨s.app, shown⟩ s.load) LoadingEvent.ofProgram
    (fun s e => ?_) s events).symm
  cases e with
  | step =>
      rw [LoadingEvent.ofProgram, programStep_tableProgram_load]
      rfl
  | alert env' a => rfl

/-! ### Queries -/

/-- The two strings of the event, if it is a query of a torrent or a file. -/
def ProgramEvent.strings (s : Program Process) : ProgramEvent → Option (Bytes × Bytes)
  | .load _ => none
  | .event _ _ e => e.strings s.client

/-- The two pointers of the result. -/
def ProgramEvent.pointers (t : Target) (pol : StreamPolicy) (codec : ResumeCodec)
    (s : Program Process) : ProgramEvent → Option (ℕ × ℕ)
  | .load _ => none
  | .event update remove e => e.pointers (processFiles t pol codec update remove) s.client

/-- A client that reads at the address finds the string. -/
def Program.Reads (s : Program Process) (p : ℕ) (x : Bytes) : Prop :=
  Holds 0 s.store.str.mem p x

/-- **A query is the two calls** of `lt_cached_str`. -/
theorem pointers_eq (t : Target) (pol : StreamPolicy) (env : LoadEnv) {s : Program Process}
    {e : ProgramEvent} {name path : Bytes} (h : e.strings s = some (name, path)) :
    e.pointers t pol env.codec s = some (cachedPair t name path s.store.str).1 ∧
      (programStep (processProgram t pol env.codec) env s e).store.str =
        (cachedPair t name path s.store.str).2 := by
  cases e with
  | load r => exact absurd h (by simp [ProgramEvent.strings])
  | event update remove e => exact query_eq pol env.codec update remove h

end DartTorrent
