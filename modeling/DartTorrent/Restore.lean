import DartTorrent.Load
import DartTorrent.Resume

/-!
# Saving and Restoring

What the resume store is for: it is a map from info hashes to the parameters of torrents, in
which the last operation on a hash counts, and the next start restores every torrent in the
map. This module follows a sequence of `lt_update_resume_data` and `lt_remove_resume_data`
calls through the arena, the table and the load.

## Main results

* `table_of_storeOps`: if no text of a hash is overwritten while it is bound, the calls are
  the operations of a keyed table.
* `restored_of_storeOps`: the load submits each hash whose last operation was an update
  once, and no other.
* `restore_refines_lastSaved`: and it does so with the parameters saved last, their save
  path rebased on iOS.
-/

open ByteStore BumpArena GuardedRun

namespace DartTorrent

/-! ### The calls and the map -/

/-- A call of the resume store. -/
inductive StoreOp
  | update (hash : Sha1Hash) (params : AddTorrentParams)
  | remove (hash : Sha1Hash)

/-- The hash that a call is about. -/
def StoreOp.hash : StoreOp → Sha1Hash
  | .update hash _ => hash
  | .remove hash => hash

/-- The parameters that a call saves. -/
def StoreOp.params : StoreOp → Option AddTorrentParams
  | .update _ params => some params
  | .remove _ => none

/-- The abstract map: the parameters saved last for a hash, if the last call on it was not a
removal. Only the calls on that hash count. -/
def lastSaved (ops : List StoreOp) (hash : Sha1Hash) : Option AddTorrentParams :=
  (ops.filter fun op => op.hash = hash).getLast?.bind StoreOp.params

/-- What a call does to the table. -/
def StoreOp.tableOp (codec : ResumeCodec) : StoreOp → KeyedTable.Op Bytes StoredRow
  | .update hash params => .replace (hexText hash) (storedRow codec params)
  | .remove hash => .delete (hexText hash)

/-- One call, all its SQLite calls succeeding. -/
def storeOpStep (t : Target) (pol : StreamPolicy) (codec : ResumeCodec) (p : Process) :
    StoreOp → Process
  | .update hash params => ltUpdateResumeData t pol codec {} hash params p
  | .remove hash => ltRemoveResumeData t pol {} hash p

/-- The text of the hash is intact while it is bound: no push of the resume data stores to
it. -/
def TextIntact (t : Target) (pol : StreamPolicy) (codec : ResumeCodec) (p : Process) :
    StoreOp → Prop
  | .update hash params =>
      let hashed := ltHashStr t pol hash p.str
      Along (pushStep t) (fun s _ => StoresOff t ⟨hashed.1, 41⟩ s) (CharV.empty, hashed.2)
        (codec.writeResumeData params)
  | .remove _ => True

/-! ### The calls are table operations -/

variable {t : Target} {P : Placement t} {pol : StreamPolicy} {codec : ResumeCodec}

/-- The process between two calls: the cursor in the arena, `g_hash_cache` empty, no
transaction open. -/
structure Ready (P : Placement t) (p : Process) : Prop where
  block : ∃ c : P.Cursor, p.str.block = P.block c
  hash_miss : ∀ hash, p.str.gHashCache hash = none
  closed : p.db.openTxn = none

/-- **One call** is its table operation and leaves the process ready. -/
theorem storeOpStep_spec {p : Process} (hp : Ready P p) {op : StoreOp}
    (hop : TextIntact t pol codec p op) :
    Ready P (storeOpStep t pol codec p op) ∧
      (storeOpStep t pol codec p op).db.table = p.db.table.apply (op.tableOp codec) := by
  obtain ⟨c, hc⟩ := hp.block
  cases op with
  | update hash params =>
      obtain ⟨c', hpos, hblock, hend, hbase, hstop, -, hcache⟩ :=
        ltHashStr_spec P c hc pol hash (hp.hash_miss hash)
      have htext : (Span.mk (ltHashStr t pol hash p.str).1 41).stop = c'.pos := hend
      have hfit := fits_of_storesOff c' hstop hbase htext rfl hblock hop
      have hgrow : GrowsUntouched t pol hash (codec.writeResumeData params) p.str :=
        (pushAll_untouched_iff c' hstop hbase htext rfl hblock _).mpr hfit
      have hdb := ltUpdateResumeData_row P c hc pol codec {} hash (hp.hash_miss hash) params hgrow
      rw [storeStep_of_succeeded hp.closed (succeeded_update _ _)] at hdb
      obtain ⟨c'', hblock', -⟩ := (vecInv_of_pushAll c' hblock hfit.le).1.block
      refine ⟨⟨⟨c'', hblock'⟩, fun h => ?_, ?_⟩, congrArg Conn.table hdb⟩
      · have hpushed : (storeOpStep t pol codec p (.update hash params)).str.gHashCache =
            p.str.gHashCache := (gHashCache_pushAll _ _).trans hcache
        rw [hpushed]
        exact hp.hash_miss h
      · rw [storeOpStep, hdb]
        exact hp.closed
  | remove hash =>
      obtain ⟨c', -, hblock, -, -, -, -, hcache⟩ :=
        ltHashStr_spec P c hc pol hash (hp.hash_miss hash)
      have hdb := ltRemoveResumeData_db P c hc pol {} hash (hp.hash_miss hash)
      rw [storeStep_of_succeeded hp.closed (succeeded_remove _)] at hdb
      refine ⟨⟨⟨c', hblock⟩, fun h => ?_, ?_⟩, congrArg Conn.table hdb⟩
      · exact (congrFun hcache h).trans (hp.hash_miss h)
      · rw [storeOpStep, hdb]
        exact hp.closed

/-- **A sequence of calls is the sequence of its table operations**, the text of each hash
being intact while it is bound. -/
theorem table_of_storeOps {p : Process} (hp : Ready P p) {ops : List StoreOp}
    (hops : Along (storeOpStep t pol codec) (TextIntact t pol codec) p ops) :
    (run (storeOpStep t pol codec) p ops).db.table =
      p.db.table.applyAll (ops.map (StoreOp.tableOp codec)) := by
  induction ops generalizing p with
  | nil => rfl
  | cons op ops ih =>
      obtain ⟨hop, hrest⟩ := hops
      obtain ⟨hready, htable⟩ := storeOpStep_spec hp hop
      rw [run_cons, ih hready hrest, htable]
      rfl

/-! ### The table is the map -/

theorem key_tableOp (op : StoreOp) : (op.tableOp codec).key = hexText op.hash := by
  cases op <;> rfl

theorem val_tableOp (op : StoreOp) :
    (op.tableOp codec).val = op.params.map (storedRow codec) := by
  cases op <;> rfl

/-- The table has the row of the parameters saved last: the texts of hashes are different
for different hashes. -/
theorem lastWrite_tableOps (ops : List StoreOp) (hash : Sha1Hash) :
    KeyedTable.lastWrite (ops.map (StoreOp.tableOp codec)) (hexText hash) =
      (lastSaved ops hash).map (storedRow codec) := by
  have hfilter : (ops.map (StoreOp.tableOp codec)).filter (fun op => op.key = hexText hash) =
      (ops.filter fun op => op.hash = hash).map (StoreOp.tableOp codec) := by
    rw [List.filter_map]
    congr 1
    refine List.filter_congr fun op _ => ?_
    rw [Function.comp_apply, key_tableOp, decide_eq_decide]
    exact hexText_injective.eq_iff
  rw [KeyedTable.lastWrite, hfilter, lastSaved, List.getLast?_map]
  cases (ops.filter fun op => op.hash = hash).getLast? with
  | none => rfl
  | some op => exact val_tableOp op

/-! ### The load restores the map -/

variable {env : LoadEnv}

/-- A string without a NUL is itself as a C string. -/
theorem stdString_of_nul_notMem {bytes : Bytes} (h : (0 : UInt8) ∉ bytes) :
    stdString bytes = bytes := by
  refine List.takeWhile_eq_self_iff.mpr fun b hb => ?_
  have hne : b ≠ 0 := fun h0 => h (h0 ▸ hb)
  simpa using hne

theorem restoredPath_nil (env : LoadEnv) : restoredPath env [] = [] := by
  rw [restoredPath]
  split
  · rfl
  · simp [findSub, documentsDir]

/-- The name column of a saved row is the name in its resume data. -/
theorem withName_self {params : AddTorrentParams} (h : (0 : UInt8) ∉ params.name) :
    withName params.name params = params := by
  rw [withName]
  split
  · rfl
  · rw [stdString_of_nul_notMem h]

/-- The save path column of a saved row is the save path in its resume data, but for the
rebasing. -/
theorem withSavePath_self {params : AddTorrentParams} (h : (0 : UInt8) ∉ params.savePath) :
    withSavePath env params.savePath params =
      { params with savePath := restoredPath env params.savePath } := by
  rw [withSavePath]
  split
  · next hempty => rw [hempty, restoredPath_nil, ← hempty]
  · rw [stdString_of_nul_notMem h]

/-- The parameters that a saved row is restored with. -/
def restored (env : LoadEnv) (params : AddTorrentParams) : AddTorrentParams :=
  withSavePath env params.savePath (withName params.name params)

theorem restored_of_nul_notMem {params : AddTorrentParams} (hname : (0 : UInt8) ∉ params.name)
    (hpath : (0 : UInt8) ∉ params.savePath) :
    restored env params = { params with savePath := restoredPath env params.savePath } := by
  rw [restored, withName_self hname, withSavePath_self hpath]

/-- Saved resume data is read back and submitted. -/
theorem loadRow_storedRow (params : AddTorrentParams) :
    loadRow env (storedRow env.codec params) = .submitted (restored env params) := by
  have hne : (storedRow env.codec params).resume ≠ [] := env.codec.write_ne_nil params
  have hread : env.codec.readResumeData (storedRow env.codec params).resume = .ok params :=
    env.codec.read_write params
  rw [loadRow, if_neg hne, hread]
  rfl

/-- So a saved row does not stop a load. -/
theorem not_throws_of_storedRow {e : KeyedTable.Entry Bytes StoredRow} {params : AddTorrentParams}
    (h : e.val = storedRow env.codec params) : ¬ Throws env e := by
  rintro ⟨what, hthrow⟩
  rw [h, loadRow_storedRow] at hthrow
  exact absurd hthrow (by simp)

/-- The process at start-up, on a database with an empty table. -/
def Process.start (base : ℕ) (mem : Mem UInt8) : Process where
  str := ⟨ltInitStrCache base, mem, fun _ => none, fun _ => none⟩
  db := ⟨.empty, none, 0⟩

theorem ready_start (mem : Mem UInt8) : Ready P (Process.start P.base mem) :=
  ⟨⟨P.start, P.ltInitStrCache_eq⟩, fun _ => rfl, rfl⟩

/-- The table that a sequence of calls makes of the empty one. -/
def savedTable (codec : ResumeCodec) (ops : List StoreOp) : Table :=
  KeyedTable.empty.applyAll (ops.map (StoreOp.tableOp codec))

theorem lookup_savedTable (codec : ResumeCodec) (ops : List StoreOp) (hash : Sha1Hash) :
    (savedTable codec ops).lookup (hexText hash) = (lastSaved ops hash).map (storedRow codec) := by
  rw [savedTable, KeyedTable.lookup_applyAll, lastWrite_tableOps]

/-- A row of the table is the row of the parameters saved last for its hash. -/
theorem exists_lastSaved_of_mem {ops : List StoreOp} {e : KeyedTable.Entry Bytes StoredRow}
    (he : e ∈ (savedTable codec ops).rows) :
    ∃ hash params, e.key = hexText hash ∧ lastSaved ops hash = some params ∧
      e.val = storedRow codec params := by
  obtain ⟨op, hop, hk⟩ := KeyedTable.exists_key_of_mem_applyAll he
  obtain ⟨op, -, rfl⟩ := List.mem_map.mp hop
  have hkey : e.key = hexText op.hash := hk.symm.trans (key_tableOp op)
  have hrow := lookup_savedTable codec ops op.hash
  rw [← hkey, KeyedTable.lookup_eq_some_iff.mpr ⟨e, he, rfl, rfl⟩] at hrow
  obtain ⟨params, hlast, hval⟩ := Option.map_eq_some_iff.mp hrow.symm
  exact ⟨op.hash, params, hkey, hlast, hval.symm⟩

/-- Saved rows are read back without an exception. -/
theorem not_throws_savedTable (ops : List StoreOp) :
    ∀ e ∈ (savedTable env.codec ops).rows, ¬ Throws env e := by
  rintro e he ⟨what, hwhat⟩
  obtain ⟨hash, params, -, -, hval⟩ := exists_lastSaved_of_mem he
  rw [hval, loadRow_storedRow] at hwhat
  exact absurd hwhat (by simp)

/-- **The load submits the map**: the table of any sequence of calls is loaded to its end,
what is submitted under the key of a hash is what was saved last for it, and nothing is
submitted under other keys. -/
theorem restored_of_storeOps (env : LoadEnv) (ops : List StoreOp) :
    let l := ltInitSessionDb env {} (savedTable env.codec ops)
    l.status = .finished ∧
      (∀ hash, (l.submitted.filter fun x => x.key = hexText hash).map KeyedTable.Entry.val =
        ((lastSaved ops hash).map (restored env)).toList) ∧
      ∀ x ∈ l.submitted, ∃ hash, x.key = hexText hash := by
  intro l
  obtain ⟨hfin, hsub, -⟩ := loadLoop_submitted env _ (not_throws_savedTable ops)
  refine ⟨hfin, fun hash => ?_, fun x hx => ?_⟩
  · calc (l.submitted.filter fun x => x.key = hexText hash).map KeyedTable.Entry.val
      _ = (((savedTable env.codec ops).rows.filterMap (submission env)).filter
            fun x => x.key = hexText hash).map KeyedTable.Entry.val := by rw [← hsub]; rfl
      _ = ((savedTable env.codec ops).lookup (hexText hash)).toList.filterMap
            (loadedParams env) := by rw [submitted_of_key, KeyedTable.map_val_filter_key]
      _ = ((lastSaved ops hash).map (restored env)).toList := by
          rw [lookup_savedTable]
          cases lastSaved ops hash with
          | none => rfl
          | some params => simp [loadedParams, loadRow_storedRow]
  · obtain ⟨e, he, hx⟩ := loadLoop_mem env _ hx
    obtain ⟨hash, -, hkey, -⟩ := exists_lastSaved_of_mem he
    obtain ⟨params, -, rfl⟩ := Option.map_eq_some_iff.mp hx
    exact ⟨hash, hkey⟩

/-- **Persist and restore refine a map of torrents.** From any process between two calls, with an
empty table, after every sequence of updates and removals, on any hashes in any order, all SQLite
calls succeeding and the text of each hash intact while it is bound: `lt_init_session_db` submits
each hash whose last call was an update exactly once, as `restored` says, and no other. If name and
save path saved last have no NUL, it does so with the parameters read back from the resume data
saved last, their save path rebased on iOS. What it submits for a hash depends on the calls on that
hash only. -/
theorem restore_refines_lastSaved (P : Placement t) (pol : StreamPolicy) (env : LoadEnv)
    {start : Process} (hstart : Ready P start) (hempty : start.db.table = .empty)
    (ops : List StoreOp)
    (hops : Along (storeOpStep t pol env.codec) (TextIntact t pol env.codec) start ops) :
    let p := run (storeOpStep t pol env.codec) start ops
    let l := ltInitSessionDb env {} p.db.table
    l.status = .finished ∧
      (∀ hash,
        let submitted := (l.submitted.filter fun x => x.key = hexText hash).map
          KeyedTable.Entry.val
        submitted = ((lastSaved ops hash).map (restored env)).toList ∧
          ∀ params ∈ lastSaved ops hash, (0 : UInt8) ∉ params.name → (0 : UInt8) ∉ params.savePath →
            submitted = [{ params with savePath := restoredPath env params.savePath }]) ∧
      ∀ x ∈ l.submitted, ∃ hash, x.key = hexText hash := by
  intro p l
  have htable : p.db.table = savedTable env.codec ops := by
    rw [savedTable, ← hempty]
    exact table_of_storeOps hstart hops
  obtain ⟨hfin, hsub, hkeys⟩ := restored_of_storeOps env ops
  rw [← htable] at hfin hsub hkeys
  refine ⟨hfin, fun hash => ⟨hsub hash, fun params hlast hname hpath => ?_⟩, hkeys⟩
  have hlast : lastSaved ops hash = some params := hlast
  rw [← restored_of_nul_notMem hname hpath]
  exact (hsub hash).trans (by rw [hlast]; rfl)

/-- A text is intact when nothing live is overwritten. -/
theorem textIntact_of_growsUntouched {p : Process} {hash : Sha1Hash} {params : AddTorrentParams}
    (h : GrowsUntouched t pol hash (codec.writeResumeData params) p.str) :
    TextIntact t pol codec p (.update hash params) := (along_and.mp h).1

/-- One torrent saved and another removed. -/
theorem restore_refines_lastSaved_small :
    let hash : Sha1Hash := (sampleParams 3).infoHashes.getBest
    let hash' : Sha1Hash := ⟨List.replicate 20 1, rfl⟩
    let ops : List StoreOp := [.update hash (sampleParams 3), .remove hash']
    let env : LoadEnv := ⟨netstringCodec, none⟩
    let p := run (storeOpStep Target.x64 .fifteenInObject env.codec)
      (Process.start Placement.low.base fun _ => 0) ops
    let l := ltInitSessionDb env {} p.db.table
    l.status = .finished ∧
      (∀ hash,
        let submitted := (l.submitted.filter fun x => x.key = hexText hash).map
          KeyedTable.Entry.val
        submitted = ((lastSaved ops hash).map (restored env)).toList ∧
          ∀ params ∈ lastSaved ops hash, (0 : UInt8) ∉ params.name → (0 : UInt8) ∉ params.savePath →
            submitted = [{ params with savePath := restoredPath env params.savePath }]) ∧
      ∀ x ∈ l.submitted, ∃ hash, x.key = hexText hash := by
  refine restore_refines_lastSaved Placement.low .fifteenInObject ⟨netstringCodec, none⟩
    (ready_start _) rfl _ ⟨textIntact_of_growsUntouched ?_, trivial, trivial⟩
  refine (growsUntouched_iff Placement.low Placement.low.start rfl _ _ rfl _).mpr ?_
  decide +kernel

/-- After one save, the load submits what the saved row is restored with. -/
theorem submitted_of_update (P : Placement t) (pol : StreamPolicy) (env : LoadEnv)
    (mem : Mem UInt8) (params : AddTorrentParams) {op : StoreOp} (hparams : op.params = some params)
    (hop : TextIntact t pol env.codec (Process.start P.base mem) op) :
    (ltInitSessionDb env {} (run (storeOpStep t pol env.codec) (Process.start P.base mem)
      [op]).db.table).submitted.map KeyedTable.Entry.val = [restored env params] := by
  have hops : Along (storeOpStep t pol env.codec) (TextIntact t pol env.codec)
      (Process.start P.base mem) [op] := ⟨hop, along_nil _⟩
  have htable : (run (storeOpStep t pol env.codec) (Process.start P.base mem) [op]).db.table =
      savedTable env.codec [op] := table_of_storeOps (ready_start mem) hops
  obtain ⟨hash, rfl⟩ : ∃ hash, op = .update hash params := by
    cases op with
    | update hash params' => exact ⟨hash, congrArg _ (Option.some.inj hparams)⟩
    | remove hash => exact absurd hparams (by simp [StoreOp.params])
  have hrows : (savedTable env.codec [.update hash params]).rows =
      [⟨1, hexText hash, storedRow env.codec params⟩] := rfl
  obtain ⟨-, hsub, -⟩ := loadLoop_submitted env _
    (not_throws_savedTable [StoreOp.update hash params])
  rw [htable]
  refine (congrArg (List.map KeyedTable.Entry.val) hsub).trans ?_
  simp [hrows, submission, loadedParams, loadRow_storedRow]

/-- **iOS restores another path.** A torrent is saved below `/a/Documents/` and `HOME` is
`/b` at the next start: what is submitted is not what the resume data says. -/
theorem restore_rebases_savePath :
    let params : AddTorrentParams :=
      { infoHashes := ⟨⟨List.replicate 20 0, rfl⟩, none⟩, savePath := [47, 97] ++ documentsDir }
    let op : StoreOp := .update params.infoHashes.getBest params
    let env : LoadEnv := ⟨netstringCodec, some [47, 98]⟩
    let l := ltInitSessionDb env {} (run (storeOpStep Target.x64 .fifteenInObject env.codec)
      (Process.start Placement.low.base fun _ => 0) [op]).db.table
    TextIntact Target.x64 .fifteenInObject env.codec
        (Process.start Placement.low.base fun _ => 0) op ∧
      l.submitted.map KeyedTable.Entry.val =
        [{ params with savePath := [47, 98] ++ documentsDir }] ∧
      l.submitted.map KeyedTable.Entry.val ≠ [params] := by
  intro params op env
  have hop : TextIntact Target.x64 .fifteenInObject env.codec
      (Process.start Placement.low.base fun _ => 0) op := by
    refine textIntact_of_growsUntouched ?_
    refine (growsUntouched_iff Placement.low Placement.low.start rfl _ _ rfl _).mpr ?_
    decide +kernel
  have hloaded := submitted_of_update Placement.low .fifteenInObject env _ params rfl hop
  have hrestored : restored env params = { params with savePath := [47, 98] ++ documentsDir } := by
    decide
  rw [hrestored] at hloaded
  refine ⟨hop, hloaded, ?_⟩
  rw [hloaded]
  decide

end DartTorrent
