import DartTorrent.Basis.Recency
import DartTorrent.Durability
import DartTorrent.Restore
import DartTorrent.TorrentList
import Mathlib.Logic.Encodable.Basic
import Mathlib.Logic.Equiv.List

/-!
# The Store over the Lives of the Process

The resume store is there for the next start. A *life* of the process begins with empty caches on
the table that is on disk, the cursor where the load has left it, makes calls of the resume store
whose SQLite calls may fail, and ends at any point, by an exit or by a crash. What it leaves is the
committed table.

This module follows the table through any number of lives and the load at the start of the next,
down to the order of what is submitted: the scan reads rows by rowid, and that is the order in
which the torrents were saved last.

## Main results

* `leavesOnDisk_eq`: a life applies to the table the calls that it has on disk, and no others.
* `restored_of_lives`: after any lives the load submits each torrent that is still saved, with what
  was saved last for it, in the order of the last saves.
* `listed_of_lives`: and the torrent list shows them most recently saved first.
-/

open ByteStore GuardedRun

namespace DartTorrent

/-! ### A call and its results -/

/-- A call of the resume store, with the results of its SQLite calls. -/
inductive StoreEvent
  | update (r : UpdateResults) (hash : Sha1Hash) (params : AddTorrentParams)
  | remove (r : RemoveResults) (hash : Sha1Hash)

/-- The call without the results. -/
def StoreEvent.op : StoreEvent → StoreOp
  | .update _ hash params => .update hash params
  | .remove _ hash => .remove hash

/-- The call with its values as they should be bound. -/
def StoreEvent.call (codec : ResumeCodec) : StoreEvent → StoreCall
  | .update r hash params => .update r (hexText hash) (storedRow codec params)
  | .remove r hash => .remove r (hexText hash)

/-- The results in the order of the SQLite calls, whatever is bound. -/
def StoreEvent.results : StoreEvent → CallResults
  | .update r _ _ => (StoreCall.update r [] ⟨[], [], []⟩).results
  | .remove r _ => (StoreCall.remove r []).results

/-- One call on the process. -/
def storeEventStep (t : Target) (pol : StreamPolicy) (codec : ResumeCodec) (p : Process) :
    StoreEvent → Process
  | .update r hash params => ltUpdateResumeData t pol codec r hash params p
  | .remove r hash => ltRemoveResumeData t pol r hash p

/-- The call as a bracket, with its operation on the map of torrents as its effect. -/
def StoreEvent.bracket (e : StoreEvent) : TxnBracket StoreOp where
  begins := e.results.beginTransaction = .ok
  effect := if e.results.Executes then some e.op else none
  closes := e.results.closes

/-- What an operation does to a table. -/
def applyOp (codec : ResumeCodec) (table : Table) (op : StoreOp) : Table :=
  table.apply (op.tableOp codec)

variable {t : Target} {P : Placement t} {pol : StreamPolicy} {codec : ResumeCodec}

theorem results_call (e : StoreEvent) : (e.call codec).results = e.results := by
  cases e <;> rfl

theorem applyCall_call (e : StoreEvent) (table : Table) :
    applyCall table (e.call codec) = applyOp codec table e.op := by
  cases e <;> rfl

/-- A call does to the table and its transaction what its bracket says. -/
theorem step_bracket_call (e : StoreEvent) (s : TxnStore Table) :
    s.step applyCall (e.call codec).bracket = s.step (applyOp codec) e.bracket := by
  rw [TxnStore.step_eq, TxnStore.step_eq, StoreCall.bracket, StoreEvent.bracket, results_call]
  by_cases hexec : e.results.Executes
  · simp only [hexec, if_true, Option.toList_some, List.foldl_cons, List.foldl_nil, applyCall_call]
  · simp only [hexec, if_false, Option.toList_none, List.foldl_nil]

/-! ### One life -/

/-- If the pushes leave the text of the hash alone, they overwrite nothing live. -/
theorem growsUntouched_of_textIntact {p : Process} (hp : ArenaReady P p) {hash : Sha1Hash}
    {params : AddTorrentParams} (h : TextIntact t pol codec p (.update hash params)) :
    GrowsUntouched t pol hash (codec.writeResumeData params) p.str := by
  obtain ⟨c, hc⟩ := hp.block
  obtain ⟨c', -, hblock, hend, hbase, hstop, -⟩ :=
    ltHashStr_spec P c hc pol hash (hp.hash_miss hash)
  have htext : (Span.mk (ltHashStr t pol hash p.str).1 41).stop = c'.pos := hend
  have hfit := fits_of_storesOff c' hstop hbase htext rfl hblock h
  exact (pushAll_untouched_iff c' hstop hbase htext rfl hblock _).mpr hfit

/-- **One call** leaves the process ready, and does to the connection what its statement in its
bracket does, whatever its SQLite calls return. -/
theorem storeEventStep_spec {p : Process} (hp : ArenaReady P p) {e : StoreEvent}
    (he : TextIntact t pol codec p e.op) :
    ArenaReady P (storeEventStep t pol codec p e) ∧
      (storeEventStep t pol codec p e).db = storeStep p.db (e.call codec) := by
  -- the arena does not see the results of the SQLite calls
  let q : Process := ⟨p.str, ⟨.empty, none, 0⟩⟩
  have hready : Ready P q := ⟨hp.block, hp.hash_miss, rfl⟩
  have hq : TextIntact t pol codec q e.op := by cases e <;> exact he
  have hstr : (storeEventStep t pol codec p e).str = (storeOpStep t pol codec q e.op).str := by
    cases e <;> rfl
  have hspec := (storeOpStep_spec hready hq).1
  refine ⟨⟨hstr ▸ hspec.block, hstr ▸ hspec.hash_miss⟩, ?_⟩
  obtain ⟨c, hc⟩ := hp.block
  cases e with
  | update r hash params =>
      exact ltUpdateResumeData_row P c hc pol codec r hash (hp.hash_miss hash) params
        (growsUntouched_of_textIntact hp he)
  | remove r hash => exact ltRemoveResumeData_db P c hc pol r hash (hp.hash_miss hash)

/-- A life of the process: where `malloc` puts the arena, where in it the cursor stands when the
calls of the resume store begin (the load takes a text from the arena for each row that it
submits), what the memory holds then, and the calls until the life ends. -/
structure Life (t : Target) where
  arena : Placement t
  cursor : arena.Cursor
  mem : Mem UInt8
  events : List StoreEvent

/-- The process at the start of a life. -/
def Life.start (life : Life t) (table : Table) : Process where
  str := ⟨life.arena.block life.cursor, life.mem, fun _ => none, fun _ => none⟩
  db := ⟨table, none, 0⟩

/-- What a life leaves on disk. An open transaction is lost with the process. -/
def leavesOnDisk (t : Target) (pol : StreamPolicy) (codec : ResumeCodec) (table : Table)
    (life : Life t) : Table :=
  (run (storeEventStep t pol codec) (life.start table) life.events).db.committed

/-- The text of every hash is intact while it is bound. -/
def Life.Intact (pol : StreamPolicy) (codec : ResumeCodec) (table : Table) (life : Life t) : Prop :=
  Along (storeEventStep t pol codec) (fun p e => TextIntact t pol codec p e.op)
    (life.start table) life.events

/-- The operations of a life that are on disk when it ends. -/
def Life.onDisk (life : Life t) : List StoreOp :=
  TxnStore.survivors false (life.events.map StoreEvent.bracket)

/-- **A life applies to the table the operations that it has on disk**, and no others. -/
theorem leavesOnDisk_eq {table : Table} {life : Life t} (hlife : life.Intact pol codec table) :
    leavesOnDisk t pol codec table life =
      table.applyAll (life.onDisk.map (StoreOp.tableOp codec)) := by
  have hstart : ArenaReady life.arena (life.start table) :=
    ⟨⟨life.cursor, rfl⟩, fun _ => rfl⟩
  have hstep : ∀ p e, ArenaReady life.arena p → TextIntact t pol codec p e.op →
      ArenaReady life.arena (storeEventStep t pol codec p e) ∧
        (storeEventStep t pol codec p e).db.txnStore =
          p.db.txnStore.step (applyOp codec) e.bracket := by
    intro p e hp he
    obtain ⟨hready, hdb⟩ := storeEventStep_spec hp he
    exact ⟨hready, by rw [hdb, storeStep_txnStore, step_bracket_call]⟩
  obtain ⟨-, hrun⟩ := run_of_sim (fun p : Process => p.db.txnStore) StoreEvent.bracket hstep
    hstart hlife
  rw [leavesOnDisk, ← durable_txnStore, hrun]
  rw [KeyedTable.applyAll, List.foldl_map]
  exact TxnStore.durable_run_of_closed table (life.events.map StoreEvent.bracket)

/-! ### Any number of lives -/

/-- The torrents that a sequence of operations leaves saved, in the order of the last operations
on them, each with what was saved last. -/
def recentlySaved (ops : List StoreOp) : List (Sha1Hash × AddTorrentParams) :=
  (ops.map StoreOp.hash).dedup.filterMap fun hash => (lastSaved ops hash).map (hash, ·)

/-- The lives of a process leave the table of the operations that each has on disk. -/
theorem table_of_lives {table : Table} {lives : List (Life t)}
    (hlives : Along (leavesOnDisk t pol codec) (fun table life => life.Intact pol codec table)
      table lives) :
    run (leavesOnDisk t pol codec) table lives =
      table.applyAll ((lives.flatMap Life.onDisk).map (StoreOp.tableOp codec)) := by
  induction lives generalizing table with
  | nil => rfl
  | cons life lives ih =>
      obtain ⟨hlife, hrest⟩ := hlives
      rw [run_cons, ih hrest, leavesOnDisk_eq hlife, List.flatMap_cons, List.map_append,
        KeyedTable.applyAll, KeyedTable.applyAll, KeyedTable.applyAll, List.foldl_append]

/-- The table of a sequence of operations, in the order of a scan. -/
theorem bindings_savedTable (ops : List StoreOp) :
    (savedTable codec ops).bindings =
      (recentlySaved ops).map fun s => (hexText s.1, storedRow codec s.2) := by
  have hkeys : (ops.map (StoreOp.tableOp codec)).map KeyedTable.Op.key =
      (ops.map StoreOp.hash).map hexText := by
    rw [List.map_map, List.map_map]
    exact List.map_congr_left fun op _ => key_tableOp op
  rw [savedTable, KeyedTable.bindings_applyAll, KeyedTable.recency, hkeys,
    List.dedup_map_of_injective hexText_injective, List.filterMap_map, recentlySaved,
    List.map_filterMap]
  refine List.filterMap_congr fun hash _ => ?_
  rw [Function.comp_apply, lastWrite_tableOps]
  cases lastSaved ops hash <;> rfl

/-- The load reads the rows in the order of the scan. -/
theorem submitted_savedTable (env : LoadEnv) (ops : List StoreOp) :
    let l := ltInitSessionDb env {} (savedTable env.codec ops)
    l.status = .finished ∧
      l.submitted.map (fun x => (x.key, x.val)) =
        (recentlySaved ops).map fun s => (hexText s.1, restored env s.2) := by
  intro l
  have hok : ∀ e ∈ (savedTable env.codec ops).rows, ¬ Throws env e := not_throws_savedTable ops
  refine ⟨(ltInitSessionDb_of_readable env _ hok).1, ?_⟩
  rw [submitted_eq_bindings hok, bindings_savedTable, List.filterMap_map, ← List.filterMap_eq_map]
  refine List.filterMap_congr fun s _ => ?_
  simp [loadedParams, loadRow_storedRow]

/-- **The store over the lives of the process.** After any number of lives on one database, empty
at first, each with its arena and its cursor anywhere, with calls of the resume store on any hashes
whose SQLite calls return anything, and ended at any point by an exit or a crash, the text of each
hash being intact while it is bound: the next start loads the table to its end and submits exactly
the torrents whose last operation on disk is a save, with what was saved last, in the order of these
last saves. An operation is on disk if its statement ran and its transaction was committed within
its life, by its own `END` or by that of a later call. -/
theorem restored_of_lives (t : Target) (pol : StreamPolicy) (env : LoadEnv)
    (lives : List (Life t))
    (hlives : Along (leavesOnDisk t pol env.codec)
      (fun table life => life.Intact pol env.codec table) .empty lives) :
    let ops := lives.flatMap Life.onDisk
    let l := ltInitSessionDb env {} (run (leavesOnDisk t pol env.codec) .empty lives)
    l.status = .finished ∧
      l.submitted.map (fun x => (x.key, x.val)) =
        (recentlySaved ops).map fun s => (hexText s.1, restored env s.2) := by
  intro ops l
  have htable : run (leavesOnDisk t pol env.codec) .empty lives = savedTable env.codec ops :=
    table_of_lives hlives
  have hload := submitted_savedTable env ops
  rw [← htable] at hload
  exact hload

/-- Two lives: a torrent is saved with its `END` failing, which the `END` of the next call makes
good; and a removal of it fails, after a load that has submitted it. -/
def sampleLives : List (Life Target.x64) :=
  let hash := (sampleParams 3).infoHashes.getBest
  [⟨.low, Placement.low.start, fun _ => 0,
      [.update { endTransaction := .error false } hash (sampleParams 3),
        .remove {} ⟨List.replicate 20 5, rfl⟩]⟩,
    ⟨.low, Placement.low.cursorAt 595 (by decide), fun _ => 1,
      [.remove { bindHash := .error } hash]⟩]

theorem sampleLives_intact (table : Table) :
    Along (leavesOnDisk Target.x64 .fifteenInObject netstringCodec)
      (fun table life => life.Intact .fifteenInObject netstringCodec table) table sampleLives := by
  refine ⟨⟨textIntact_of_growsUntouched ?_, trivial, trivial⟩, ⟨trivial, trivial⟩, trivial⟩
  refine (growsUntouched_iff Placement.low Placement.low.start rfl _ _ rfl _).mpr ?_
  decide +kernel

/-- The torrent is submitted at the next start. -/
theorem restored_of_lives_small :
    let env : LoadEnv := ⟨netstringCodec, none⟩
    let l := ltInitSessionDb env {}
      (run (leavesOnDisk Target.x64 .fifteenInObject env.codec) .empty sampleLives)
    l.status = .finished ∧
      l.submitted.map (fun x => (x.key, x.val)) =
        (recentlySaved (sampleLives.flatMap Life.onDisk)).map fun s =>
          (hexText s.1, restored env s.2) :=
  restored_of_lives Target.x64 .fifteenInObject ⟨netstringCodec, none⟩ sampleLives
    (sampleLives_intact _)

/-! ### The list at the next start -/

section Listed

variable {σ : Type*} {env : Env} {B : Backend σ}

/-- A torrent that is not listed goes to the front. -/
theorem handleBatch_adds (hsame : ∀ x y, env.same x y = true ↔ x = y) (s : App σ)
    {handles : List TorrentHandle} (hnodup : (handles.reverse ++ s.gTorrentHandles).Nodup) :
    (handleBatch env B s (handles.map fun h => .addTorrent h false)).1.gTorrentHandles =
      handles.reverse ++ s.gTorrentHandles := by
  induction handles generalizing s with
  | nil => rfl
  | cons h handles ih =>
      rw [List.reverse_cons, List.append_assoc, List.singleton_append] at hnodup ⊢
      have hnew : h ∉ s.gTorrentHandles :=
        (List.nodup_cons.mp (List.nodup_append.mp hnodup).2.1).1
      have hnext : handleAlert env B s (.addTorrent h false) =
          ((handleAlert env B s (.addTorrent h false)).1, .next) := by
        rw [handleAlert_eq]
        rfl
      have hlist : (handleAlert env B s (.addTorrent h false)).1.gTorrentHandles =
          h :: s.gTorrentHandles := by
        rw [gTorrentHandles_handleAlert, Alert.onList, if_neg]
        simpa [hsame] using hnew
      rw [List.map_cons, handleBatch_cons_of_next hnext, ih _ (hlist ▸ hnodup), hlist]

end Listed

/-- The torrents that are saved, in order. -/
theorem map_fst_recentlySaved (ops : List StoreOp) :
    (recentlySaved ops).map Prod.fst =
      (ops.map StoreOp.hash).dedup.filter fun hash => (lastSaved ops hash).isSome := by
  rw [recentlySaved, List.map_filterMap, ← List.filterMap_eq_filter]
  refine List.filterMap_congr fun hash _ => ?_
  cases h : lastSaved ops hash <;> simp [Option.guard, h]

/-- **After a restart the list shows the most recently saved torrent first.** After any lives as in
`restored_of_lives`, suppose that the session adds the torrents that the load submits, in the
order of the submissions, and that nothing else is added before. Once the callback has handled
their alerts, the list has every torrent whose last operation on disk is a save, once, in the
order of these saves, the last one at index `0`. `handle` is the handle that the session gives the
torrent of a row. -/
theorem listed_of_lives {σ : Type*} (t : Target) (pol : StreamPolicy) (lenv : LoadEnv)
    (lives : List (Life t))
    (hlives : Along (leavesOnDisk t pol lenv.codec)
      (fun table life => life.Intact pol lenv.codec table) .empty lives)
    (env : Env) (hsame : ∀ x y, env.same x y = true ↔ x = y) (B : Backend σ) (store : σ)
    (handle : Bytes → TorrentHandle) (hhandle : Function.Injective handle) :
    let ops := lives.flatMap Life.onDisk
    let l := ltInitSessionDb lenv {} (run (leavesOnDisk t pol lenv.codec) .empty lives)
    let alerts := l.submitted.map fun x => Alert.addTorrent (handle x.key) false
    (handleBatch env B (App.start store) alerts).1.gTorrentHandles =
      (((ops.map StoreOp.hash).dedup.filter fun hash => (lastSaved ops hash).isSome).map
        fun hash => handle (hexText hash)).reverse := by
  intro ops l alerts
  have htable : run (leavesOnDisk t pol lenv.codec) .empty lives = savedTable lenv.codec ops :=
    table_of_lives hlives
  obtain ⟨-, hsub⟩ := submitted_savedTable lenv ops
  rw [← htable] at hsub
  have hkeys : l.submitted.map KeyedTable.Entry.key =
      ((ops.map StoreOp.hash).dedup.filter fun hash => (lastSaved ops hash).isSome).map
        hexText := by
    have hfst := congrArg (List.map Prod.fst) hsub
    rw [List.map_map, List.map_map] at hfst
    rw [← map_fst_recentlySaved, List.map_map]
    exact hfst
  set hashes := (ops.map StoreOp.hash).dedup.filter fun hash => (lastSaved ops hash).isSome
    with hhashes
  have halerts : alerts = (hashes.map fun hash => handle (hexText hash)).map
      fun h => Alert.addTorrent h false := by
    have hmap : alerts = (l.submitted.map KeyedTable.Entry.key).map
        fun key => Alert.addTorrent (handle key) false := by
      rw [List.map_map]
      rfl
    rw [hmap, hkeys, List.map_map, List.map_map]
    rfl
  have hnodup : (hashes.map fun hash => handle (hexText hash)).Nodup :=
    ((List.nodup_dedup _).filter _).map (hhandle.comp hexText_injective)
  rw [halerts, handleBatch_adds hsame (App.start store)]
  · exact List.append_nil _
  · exact (List.append_nil _).symm ▸ List.nodup_reverse.mpr hnodup

/-- Handles numbered by the keys of their rows. -/
def handleOfKey (key : Bytes) : TorrentHandle :=
  ⟨some (Encodable.encode (key.map UInt8.toNat))⟩

theorem handleOfKey_injective : Function.Injective handleOfKey := by
  intro key key' h
  have hnat := Encodable.encode_injective (Option.some.inj (TorrentHandle.mk.inj h))
  exact List.map_injective_iff.mpr (fun _ _ => UInt8.toNat_inj.mp) hnat

/-- The torrent of the sample is listed. -/
theorem listed_of_lives_small :
    let lenv : LoadEnv := ⟨netstringCodec, none⟩
    let ops := sampleLives.flatMap Life.onDisk
    let l := ltInitSessionDb lenv {}
      (run (leavesOnDisk Target.x64 .fifteenInObject lenv.codec) .empty sampleLives)
    let alerts := l.submitted.map fun x => Alert.addTorrent (handleOfKey x.key) false
    (handleBatch (Env.ofDead []) (tableBackend netstringCodec) (App.start .empty)
        alerts).1.gTorrentHandles =
      (((ops.map StoreOp.hash).dedup.filter fun hash => (lastSaved ops hash).isSome).map
        fun hash => handleOfKey (hexText hash)).reverse :=
  listed_of_lives Target.x64 .fifteenInObject ⟨netstringCodec, none⟩ sampleLives
    (sampleLives_intact _) (Env.ofDead []) (fun x y => by simp [Env.ofDead])
    (tableBackend netstringCodec) .empty handleOfKey handleOfKey_injective

end DartTorrent
