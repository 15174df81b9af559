import DartTorrent.Batches
import DartTorrent.Demand
import DartTorrent.Ledger

/-!
# The Process Is Its Table

The results about the torrent list, the ledger and the load are over backends that keep a table.
The backend of the code keeps the whole process: the arena, the caches and the connection. This
module shows that, with every SQLite call of the resume store succeeding and no text of a hash
overwritten while it is bound, the process does to its table what the table's backend does, in
every run of the load, the alerts and the client calls.

## Main results

* `indexStep_mapStore`: what an event does beside the store, it does over every backend.
* `programStep_process`: one event over the process is the event over its table.
* `run_process`: the same of every run; `index_process` of the alerts and client calls,
  `loading_process` of the load with the alerts between its steps.
* `ledger_process`: the table of the process is that of the ledger.
-/

open ByteStore GuardedRun

namespace DartTorrent

variable {t : Target} {P : Placement t} {pol : StreamPolicy} {codec : ResumeCodec}

/-! ### Events over two backends -/

section Backends

variable {σ τ : Type*} {B : FilesBackend σ} {B' : FilesBackend τ}

/-- The state of the callback and its client, with the backend's state mapped. -/
def ClientState.mapStore (f : σ → τ) (s : ClientState σ) : ClientState τ :=
  ⟨s.app.mapStore f, s.shown⟩

theorem controlTorrent_mapStore (f : σ → τ) (call : TorrentHandle → HandleCall) (env : Env)
    (i : ℕ) (s : App σ) :
    (controlTorrent call env i (s.mapStore f)).getD (s.mapStore f) =
      ((controlTorrent call env i s).getD s).mapStore f := by
  rw [controlTorrent, controlTorrent]
  dsimp only [App.mapStore]
  cases subscript s.gTorrentHandles i with
  | read x =>
      simp only [Access.call, Option.getD_some]
      split <;> rfl
  | _ => rfl

/-- **What an event does beside the store**, it does over every backend. -/
theorem indexStep_mapStore (f : σ → τ) (s : ClientState σ) (e : IndexEvent)
    (hstore : f (indexStep B s e).app.store = (indexStep B' (s.mapStore f) e).app.store) :
    (indexStep B s e).mapStore f = indexStep B' (s.mapStore f) e := by
  cases e with
  | client e =>
      cases e with
      | alert env a =>
          simp only [indexStep, clientStep, handleAlert_eq] at hstore ⊢
          simp only [ClientState.mapStore, App.mapStore] at hstore ⊢
          rw [hstore]
      | queryTorrent env i =>
          simp only [indexStep, clientStep, ltQueryTorrent_eq] at hstore ⊢
          simp only [ClientState.mapStore, App.mapStore] at hstore ⊢
          rw [hstore]
      | removeTorrent env i =>
          simp only [indexStep, clientStep, ltRemoveTorrent_eq]
          rfl
      | _ => rfl
  | pauseTorrent env i =>
      exact congrArg (ClientState.mk · s.shown)
        (controlTorrent_mapStore f HandleCall.pause env i s.app).symm
  | resumeTorrent env i =>
      exact congrArg (ClientState.mk · s.shown)
        (controlTorrent_mapStore f HandleCall.resume env i s.app).symm
  | queryFiles env i => rfl
  | queryFile query i =>
      obtain ⟨store, hout, -⟩ := ltQueryFile_getD B query i s.app
      obtain ⟨store', hout', -⟩ := ltQueryFile_getD B' query i (s.app.mapStore f)
      simp only [indexStep, ClientState.mapStore, hout, hout'] at hstore ⊢
      simp only [App.mapStore, hstore]

end Backends

/-! ### What an event stores -/

/-- An event that calls the resume store does it over the process, and over a table. -/
theorem store_of_storeOp {e : IndexEvent} {op : StoreOp} (h : e.storeOp = some op)
    (s : ClientState Process) (s' : ClientState Table) :
    (indexStep (processFiles t pol codec {} {}) s e).app.store =
        storeOpStep t pol codec s.app.store op ∧
      (indexStep (tableFilesBackend codec) s' e).app.store =
        s'.app.store.apply (op.tableOp codec) := by
  constructor
  · rw [process_indexStep, h]
    cases op <;> rfl
  · rw [store_indexStep]
    unfold IndexEvent.storeOp at h
    split at h
    · obtain rfl := Option.some.inj h
      rfl
    · obtain rfl := Option.some.inj h
      rfl
    · exact absurd h (by simp)

/-- All other events leave the connection, and a table. -/
theorem store_of_no_storeOp {e : IndexEvent} (h : e.storeOp = none) (s : ClientState Process)
    (s' : ClientState Table) :
    (indexStep (processFiles t pol codec {} {}) s e).app.store.db = s.app.store.db ∧
      (indexStep (tableFilesBackend codec) s' e).app.store = s'.app.store := by
  constructor
  · rw [process_indexStep, h]
    cases e.strings s <;> rfl
  · rw [store_indexStep]
    split
    · next env a =>
        cases a with
        | saveResumeData h' params => exact absurd h (by simp [IndexEvent.storeOp])
        | torrentRemoved h' infoHashes => exact absurd h (by simp [IndexEvent.storeOp])
        | _ => rfl
    · rfl

/-! ### One event -/

/-- What is asked of the arena at an event: the text of a hash is intact while it is bound, and
the strings that a query caches fit into it. -/
def IndexEvent.FitsArena (t : Target) (pol : StreamPolicy) (codec : ResumeCodec)
    (s : ClientState Process) (e : IndexEvent) : Prop :=
  match e.storeOp with
  | some op => TextIntact t pol codec s.app.store op
  | none => ∀ n ∈ e.requests t pol codec s, n ≤ memBlockSize

/-- The state of callback and client, with the table for the process. -/
def ClientState.overTable (s : ClientState Process) : ClientState Table :=
  s.mapStore Process.table

/-- **One event over the process is the event over its table**, and leaves the process ready. -/
theorem indexStep_process {s : ClientState Process} (hs : Ready P s.app.store) {e : IndexEvent}
    (hfit : e.FitsArena t pol codec s) :
    Ready P (indexStep (processFiles t pol codec {} {}) s e).app.store ∧
      (indexStep (processFiles t pol codec {} {}) s e).overTable =
        indexStep (tableFilesBackend codec) s.overTable e := by
  unfold IndexEvent.FitsArena at hfit
  cases hop : e.storeOp with
  | some op =>
      rw [hop] at hfit
      obtain ⟨hprocess, htable⟩ := store_of_storeOp hop s s.overTable
      obtain ⟨hready, hrow⟩ := storeOpStep_spec hs hfit
      rw [← hprocess] at hready hrow
      exact ⟨hready, indexStep_mapStore Process.table s e (hrow.trans htable.symm)⟩
  | none =>
      rw [hop] at hfit
      obtain ⟨hdb, htable⟩ := store_of_no_storeOp hop s s.overTable
      have hspends := spends_indexStep P {} {} hs.hash_miss hfit
      refine ⟨⟨hspends.block hs.block, hspends.hash_miss hs.hash_miss, hdb ▸ hs.closed⟩, ?_⟩
      exact indexStep_mapStore Process.table s e ((congrArg Conn.table hdb).trans htable.symm)

/-! ### The program -/

/-- The results of the resume store's SQLite calls at the event are successes. -/
def ProgramEvent.Succeeds : ProgramEvent → Prop
  | .load _ => True
  | .event update remove _ => update = {} ∧ remove = {}

/-- What is asked of the arena at an event of the program. A row of the load fits always. -/
def ProgramEvent.FitsArena (t : Target) (pol : StreamPolicy) (codec : ResumeCodec)
    (s : Program Process) : ProgramEvent → Prop
  | .load _ => True
  | .event _ _ e => e.FitsArena t pol codec s.client

/-- The program over its table. -/
def Program.overTable (s : Program Process) : Program Table := ⟨s.client.overTable, s.load⟩

variable {env : LoadEnv} {s : Program Process} {e : ProgramEvent} {events : List ProgramEvent}

/-- The log line of the load leaves the process ready. -/
theorem ready_logHash {p : Process} (hp : Ready P p) (pol : StreamPolicy) (hash : Sha1Hash) :
    Ready P { p with str := (ltHashStr t pol hash p.str).2 } := by
  have hspends := spends_ltHashStr P pol hash hp.hash_miss
  exact ⟨hspends.block hp.block, hspends.hash_miss hp.hash_miss, hp.closed⟩

/-- A step of the load reads the table, and uses the arena for its log line. -/
theorem load_process (hs : Ready P s.store) (r : SqlResult) :
    Ready P (programStep (processProgram t pol env.codec) env s (.load r)).store ∧
      (programStep (processProgram t pol env.codec) env s (.load r)).overTable =
        programStep (tableProgram env.codec) env s.overTable (.load r) := by
  rw [programStep_tableProgram_load, programStep]
  dsimp only [processProgram]
  cases stepSubmits env r s.store.table s.load with
  | none => exact ⟨hs, rfl⟩
  | some params => exact ⟨ready_logHash hs pol params.infoHashes.getBest, rfl⟩

/-- **One event of the program over the process is the event over its table.** -/
theorem programStep_process (hs : Ready P s.store) (hsucceeds : e.Succeeds)
    (hfit : e.FitsArena t pol env.codec s) :
    Ready P (programStep (processProgram t pol env.codec) env s e).store ∧
      (programStep (processProgram t pol env.codec) env s e).overTable =
        programStep (tableProgram env.codec) env s.overTable e := by
  cases e with
  | load r => exact load_process hs r
  | event update remove e =>
      obtain ⟨rfl, rfl⟩ := hsucceeds
      obtain ⟨hready, hclient⟩ := indexStep_process hs hfit
      exact ⟨hready, congrArg (Program.mk · s.load) hclient⟩

/-- **Every run over the process is the run over its table**, no text of a hash being overwritten
while it is bound. -/
theorem run_process (hs : Ready P s.store) (hsucceed : ∀ e ∈ events, e.Succeeds)
    (hfit : Along (programStep (processProgram t pol env.codec) env)
      (fun s e => e.FitsArena t pol env.codec s) s events) :
    (run (programStep (processProgram t pol env.codec) env) s events).overTable =
      run (programStep (tableProgram env.codec) env) s.overTable events := by
  have hguard := along_and.mpr ⟨along_of_forall_mem hsucceed, hfit⟩
  have hsim := run_of_sim Program.overTable id
    (fun s e (hs : Ready P s.store) he => programStep_process hs he.1 he.2) hs hguard
  rw [List.map_id] at hsim
  exact hsim.2

/-! ### The runs of the other modules -/

/-- **Alerts and client calls over the process** are those over its table. -/
theorem index_process {s : ClientState Process} (hs : Ready P s.app.store) (load : LoadState)
    {events : List IndexEvent}
    (hfit : Along (programStep (processProgram t pol env.codec) env)
      (fun s e => e.FitsArena t pol env.codec s) ⟨s, load⟩ (events.map (.event {} {}))) :
    (run (indexStep (processFiles t pol env.codec {} {})) s events).overTable =
      run (indexStep (tableFilesBackend env.codec)) s.overTable events := by
  have hsucceed : ∀ e ∈ events.map (ProgramEvent.event {} {}), e.Succeeds :=
    List.forall_mem_map.mpr fun _ _ => ⟨rfl, rfl⟩
  have hrun := run_process (s := ⟨s, load⟩) hs hsucceed hfit
  rw [Program.overTable, Program.overTable, run_event, run_event] at hrun
  exact congrArg Program.client hrun

/-- **The load with alerts between its steps**, over the process, is the one over its table. -/
theorem loading_process (hs : Ready P s.store) {events : List LoadingEvent}
    (hfit : Along (programStep (processProgram t pol env.codec) env)
      (fun s e => e.FitsArena t pol env.codec s) s (events.map LoadingEvent.ofProgram)) :
    let out := run (programStep (processProgram t pol env.codec) env) s
      (events.map LoadingEvent.ofProgram)
    Loading.mk (out.client.app.mapStore Process.table) out.load =
      run (loadingStep env) ⟨s.client.app.mapStore Process.table, s.load⟩ events := by
  intro out
  have hsucceed : ∀ e ∈ events.map LoadingEvent.ofProgram, e.Succeeds := by
    refine List.forall_mem_map.mpr fun e _ => ?_
    cases e with
    | step => trivial
    | alert env' a => exact ⟨rfl, rfl⟩
  have hrun := (run_process hs hsucceed hfit).trans
    (run_loading env ⟨s.client.app.mapStore Process.table, s.load⟩ s.client.shown events)
  exact congrArg (fun out : Program Table => Loading.mk out.client.app out.load) hrun

/-- **The table of the process is that of the ledger**, after the same alerts, from any table. -/
theorem ledger_process {p : Process} (hp : Ready P p) {ledger : Ledger}
    (htable : p.table = ledgerTable ledger) (load : LoadState) {alerts : List HandledAlert}
    (hfit : Along (programStep (processProgram t pol env.codec) env)
      (fun s e => e.FitsArena t pol env.codec s) ⟨⟨.start p, []⟩, load⟩
      (((clientEvents alerts).map .client).map (.event {} {}))) :
    (run (indexStep (processFiles t pol env.codec {} {})) ⟨.start p, []⟩
        ((clientEvents alerts).map .client)).app.store.table =
      ledgerTable (run (removalStep env.codec) ⟨.start ledger, []⟩ alerts).app.store := by
  have hrun := index_process (s := ⟨.start p, []⟩) hp load hfit
  have hclient : run (clientStep (tableBackend env.codec)) ⟨.start (ledgerTable ledger), []⟩
      (clientEvents alerts) = run (indexStep (tableFilesBackend env.codec))
        ⟨.start (ledgerTable ledger), []⟩ ((clientEvents alerts).map .client) :=
    run_map id IndexEvent.client (fun _ _ => rfl) _ _
  have hledger := ledgerTable_run env.codec ⟨.start ledger, []⟩ [] alerts
  have hstart : (ClientState.mk (.start p) []).overTable = ⟨.start (ledgerTable ledger), []⟩ :=
    congrArg (fun table => ClientState.mk (.start table) []) htable
  rw [hstart] at hrun
  exact congrArg App.store ((congrArg ClientState.app (hrun.trans hclient.symm)).trans hledger)

end DartTorrent
