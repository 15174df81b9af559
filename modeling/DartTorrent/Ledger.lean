import DartTorrent.TorrentList
import DartTorrent.Load

/-!
# Rows and Their Torrents

The table does not say which torrent a row was saved for: `lt_update_resume_data` is given
the handle and does not use it, and the key of a row is recomputed from the hashes of the
torrent at every save and at the removal. The *ledger* is the table with the handle of the
save kept beside each row. Erasing the handles gives back the table.

A torrent whose best hash changes between two alerts leaves a row under the old one: a hybrid
magnet does so when its metadata arrives, and the truncated v2 hash takes the place of the
v1 hash.

## Main results

* `ledger_refines` / `ledgerTable_run`: the ledger is the table, handle by handle.
* `notResurrected_step_iff`: a save or a removal leaves no second row behind exactly when the
  torrent's row is under the hash that the alert carries.
* `notResurrected_iff_sameKey`: the same of every run.
-/

open GuardedRun

namespace DartTorrent

/-! ### The ledger -/

/-- A row, and the handle of the save that wrote it. -/
structure OwnedRow where
  row : StoredRow
  owner : TorrentHandle
deriving DecidableEq

/-- The table `torrents`, each row with its owner. -/
abbrev Ledger := KeyedTable Bytes OwnedRow

/-- The table of a ledger. -/
def ledgerTable (ledger : Ledger) : Table := ledger.map OwnedRow.row

/-- The backend that keeps the ledger. -/
def ledgerBackend (codec : ResumeCodec) : Backend Ledger where
  update hash params h ledger := ledger.replace (hexText hash) ⟨storedRow codec params, h⟩
  remove hash ledger := ledger.delete (hexText hash)
  cachedStr _ ledger := (0, ledger)

/-- **The ledger refines the table.** -/
theorem ledger_refines (codec : ResumeCodec) :
    (ledgerBackend codec).Refines ledgerTable (tableBackend codec) :=
  ⟨fun _ _ _ ledger => KeyedTable.map_replace _ ledger _ _,
    fun _ ledger => KeyedTable.map_delete _ ledger _⟩

/-- The rows of the torrent are all under one key. -/
def OnlyUnder (ledger : Ledger) (h : TorrentHandle) (key : Bytes) : Prop :=
  ∀ e ∈ ledger.rows, e.val.owner = h → e.key = key

/-- No torrent has two rows. -/
def OneRowEach (ledger : Ledger) : Prop :=
  ∀ e ∈ ledger.rows, ∀ f ∈ ledger.rows, e.val.owner = f.val.owner → e = f

instance (ledger : Ledger) (h : TorrentHandle) (key : Bytes) :
    Decidable (OnlyUnder ledger h key) := inferInstanceAs (Decidable (∀ e ∈ _, _))

instance (ledger : Ledger) : Decidable (OneRowEach ledger) :=
  inferInstanceAs (Decidable (∀ e ∈ _, _))

variable {codec : ResumeCodec}

/-- A row that was there, but for the one of the key, still is. -/
theorem mem_rows_update {hash : Sha1Hash} {params : AddTorrentParams} {h : TorrentHandle}
    {ledger : Ledger} {e : KeyedTable.Entry Bytes OwnedRow} (he : e ∈ ledger.rows)
    (hk : e.key ≠ hexText hash) :
    e ∈ ((ledgerBackend codec).update hash params h ledger).rows :=
  KeyedTable.mem_rows_replace.mpr (Or.inl ⟨he, hk⟩)

/-- **A save keeps one row for each torrent** exactly when the torrent's row is the one it
replaces. -/
theorem oneRowEach_update_iff (codec : ResumeCodec) {ledger : Ledger}
    (hone : OneRowEach ledger) (hash : Sha1Hash) (params : AddTorrentParams) (h : TorrentHandle) :
    OneRowEach ((ledgerBackend codec).update hash params h ledger) ↔
      OnlyUnder ledger h (hexText hash) := by
  constructor
  · intro hafter e he howner
    by_contra hk
    have hnew : ⟨ledger.maxRowid + 1, hexText hash, storedRow codec params, h⟩ ∈
        ((ledgerBackend codec).update hash params h ledger).rows :=
      KeyedTable.mem_rows_replace.mpr (Or.inr rfl)
    have heq := hafter e (mem_rows_update he hk) _ hnew howner
    exact hk (congrArg KeyedTable.Entry.key heq)
  · intro hunder e he f hf howner
    rcases KeyedTable.mem_rows_replace.mp he with ⟨he, hek⟩ | rfl
    · rcases KeyedTable.mem_rows_replace.mp hf with ⟨hf, -⟩ | rfl
      · exact hone e he f hf howner
      · exact absurd (hunder e he howner) hek
    · rcases KeyedTable.mem_rows_replace.mp hf with ⟨hf, hfk⟩ | rfl
      · exact absurd (hunder f hf howner.symm) hfk
      · rfl

/-- **A removal leaves no row of the torrent** exactly when its row is the one it deletes. -/
theorem no_row_remove_iff (codec : ResumeCodec) (ledger : Ledger) (hash : Sha1Hash)
    (h : TorrentHandle) :
    (∀ e ∈ ((ledgerBackend codec).remove hash ledger).rows, e.val.owner ≠ h) ↔
      OnlyUnder ledger h (hexText hash) := by
  constructor
  · intro hafter e he howner
    by_contra hk
    exact hafter e (KeyedTable.mem_rows_delete.mpr ⟨he, hk⟩) howner
  · intro hunder e he howner
    obtain ⟨he, hk⟩ := KeyedTable.mem_rows_delete.mp he
    exact hk (hunder e he howner)

/-! ### Runs of alerts -/

/-- The globals over the ledger, and the torrents whose removal has been handled. -/
structure Removals where
  app : App Ledger
  removed : List TorrentHandle

/-- An alert, and what the handles answer when it is handled. -/
structure HandledAlert where
  env : Env
  alert : Alert

/-- The torrents removed, after one more alert. -/
def Alert.addRemoved (removed : List TorrentHandle) : Alert → List TorrentHandle
  | .torrentRemoved h _ => h :: removed
  | _ => removed

/-- One alert handled by the callback. -/
def removalStep (codec : ResumeCodec) (s : Removals) (e : HandledAlert) : Removals where
  app := (handleAlert e.env (ledgerBackend codec) s.app e.alert).1
  removed := e.alert.addRemoved s.removed

/-- The alerts of a run, as events of the callback and its client. -/
def clientEvents (alerts : List HandledAlert) : List ClientEvent :=
  alerts.map fun e => .alert e.env e.alert

/-- **The ledger's run is the table's**: the same alerts over the table give the same globals
and the table of the ledger. -/
theorem ledgerTable_run (codec : ResumeCodec) (s : Removals) (shown : List TorrentHandle)
    (alerts : List HandledAlert) :
    (run (clientStep (tableBackend codec)) ⟨s.app.mapStore ledgerTable, shown⟩
        (clientEvents alerts)).app =
      (run (removalStep codec) s alerts).app.mapStore ledgerTable := by
  induction alerts generalizing s with
  | nil => rfl
  | cons e alerts ih =>
      have hstep : clientStep (tableBackend codec) ⟨s.app.mapStore ledgerTable, shown⟩
          (.alert e.env e.alert) = ⟨(removalStep codec s e).app.mapStore ledgerTable, shown⟩ := by
        rw [clientStep, handleAlert_mapStore (ledger_refines codec)]
        rfl
      rw [clientEvents, List.map_cons, run_cons, run_cons, hstep]
      exact ih _

/-- No save of a torrent is posted after its removal. -/
def HandledAlert.Posted (s : Removals) (e : HandledAlert) : Prop :=
  match e.alert with
  | .saveResumeData h _ => h ∉ s.removed
  | _ => True

/-- The rows of the torrent of a save or a removal are under the best hash that the alert
carries. -/
def HandledAlert.SameKey (s : Removals) (e : HandledAlert) : Prop :=
  match e.alert with
  | .saveResumeData h params => OnlyUnder s.app.store h (hexText params.infoHashes.getBest)
  | .torrentRemoved h infoHashes => OnlyUnder s.app.store h (hexText infoHashes.getBest)
  | _ => True

/-- No torrent has two rows, a removed one has none, and what the next start submits are the
rows of torrents that have not been removed. -/
structure NotResurrected (s : Removals) : Prop where
  one : OneRowEach s.app.store
  gone : ∀ e ∈ s.app.store.rows, e.val.owner ∉ s.removed
  load : ∀ (env : LoadEnv), ∀ x ∈ (ltInitSessionDb env {} (ledgerTable s.app.store)).submitted,
    ∃ e ∈ s.app.store.rows, e.key = x.key ∧ loadedParams env e.val.row = some x.val ∧
      e.val.owner ∉ s.removed

/-- The next start submits rows of the ledger. -/
theorem mem_ledger_of_submitted {env : LoadEnv} {ledger : Ledger}
    {x : KeyedTable.Entry Bytes AddTorrentParams}
    (hx : x ∈ (ltInitSessionDb env {} (ledgerTable ledger)).submitted) :
    ∃ e ∈ ledger.rows, e.key = x.key ∧ loadedParams env e.val.row = some x.val := by
  obtain ⟨e, he, hsub⟩ := loadLoop_mem env _ hx
  obtain ⟨f, hf, rfl⟩ := List.mem_map.mp he
  obtain ⟨params, hload, rfl⟩ := Option.map_eq_some_iff.mp hsub
  exact ⟨f, hf, rfl, hload⟩

theorem notResurrected_iff {s : Removals} :
    NotResurrected s ↔
      OneRowEach s.app.store ∧ ∀ e ∈ s.app.store.rows, e.val.owner ∉ s.removed := by
  refine ⟨fun h => ⟨h.one, h.gone⟩, fun ⟨hone, hgone⟩ => ⟨hone, hgone, fun env x hx => ?_⟩⟩
  obtain ⟨e, he, hkey, hload⟩ := mem_ledger_of_submitted hx
  exact ⟨e, he, hkey, hload, hgone e he⟩

/-- **One alert**: it leaves no second row and no row of a removed torrent behind exactly
when the torrent's row is under the hash that the alert carries. -/
theorem notResurrected_step_iff {s : Removals} (h : NotResurrected s) {e : HandledAlert}
    (hposted : e.Posted s) : NotResurrected (removalStep codec s e) ↔ e.SameKey s := by
  obtain ⟨env, a⟩ := e
  have hstore : (removalStep codec s ⟨env, a⟩).app.store =
      a.onStore (ledgerBackend codec) s.app.store := store_handleAlert _ _ _ _
  rw [notResurrected_iff, hstore]
  cases a with
  | saveResumeData x params =>
      have hsave := oneRowEach_update_iff codec h.one params.infoHashes.getBest params x
      refine ⟨fun hafter => hsave.mp hafter.1, fun hunder => ⟨hsave.mpr hunder, ?_⟩⟩
      intro e he
      rcases KeyedTable.mem_rows_replace.mp he with ⟨he, -⟩ | rfl
      · exact h.gone e he
      · exact hposted
  | torrentRemoved x infoHashes =>
      have hremove := no_row_remove_iff codec s.app.store infoHashes.getBest x
      constructor
      · rintro ⟨-, hgone⟩
        exact hremove.mp fun e he howner => hgone e he (howner ▸ List.mem_cons_self)
      · intro hunder
        refine ⟨fun e he f hf => ?_, fun e he hmem => ?_⟩
        · exact h.one e (KeyedTable.mem_rows_delete.mp he).1 f (KeyedTable.mem_rows_delete.mp hf).1
        · rcases List.mem_cons.mp hmem with howner | hold
          · exact hremove.mpr hunder e he howner
          · exact h.gone e (KeyedTable.mem_rows_delete.mp he).1 hold
  | _ => exact iff_of_true ⟨h.one, h.gone⟩ trivial

/-- **A removed torrent stays removed exactly when its hash does not change under a row.** In
every run of alerts, of any torrents and in any order, from a ledger in which no torrent has
two rows, no save of a torrent being posted after its removal: after every alert no torrent
has two rows, no removed torrent has one and none is submitted at the next start, if and only
if at every save and every removal the rows of the torrent are under the best hash that the
alert carries. -/
theorem notResurrected_iff_sameKey (codec : ResumeCodec) (ledger : Ledger)
    (hledger : OneRowEach ledger) (alerts : List HandledAlert)
    (hposted : Along (removalStep codec) (fun s e => e.Posted s) ⟨.start ledger, []⟩ alerts) :
    Along (removalStep codec) (fun s e => NotResurrected (removalStep codec s e))
        ⟨.start ledger, []⟩ alerts ↔
      Along (removalStep codec) (fun s e => e.SameKey s) ⟨.start ledger, []⟩ alerts := by
  have hstart : NotResurrected ⟨.start ledger, []⟩ :=
    notResurrected_iff.mpr ⟨hledger, fun _ _ => List.not_mem_nil⟩
  refine along_iff_of_inv ?_ ?_ hstart hposted
  · exact fun s e h hp hkey => (notResurrected_step_iff h hp).mpr hkey
  · exact fun s e h hp => notResurrected_step_iff h hp

/-- A torrent is saved twice and removed, another one saved in between. -/
theorem notResurrected_run :
    let first : TorrentHandle := ⟨some 1⟩
    let params := sampleParams 3
    let other : AddTorrentParams := { infoHashes := ⟨⟨List.replicate 20 1, rfl⟩, none⟩ }
    let alerts : List HandledAlert := [⟨.ofDead [], .saveResumeData first params⟩,
      ⟨.ofDead [], .saveResumeData ⟨some 2⟩ other⟩, ⟨.ofDead [], .saveResumeData first params⟩,
      ⟨.ofDead [], .torrentRemoved first params.infoHashes⟩]
    let step := removalStep netstringCodec
    Along step (fun s e => NotResurrected (step s e)) ⟨.start .empty, []⟩ alerts ↔
      Along step (fun s e => e.SameKey s) ⟨.start .empty, []⟩ alerts :=
  notResurrected_iff_sameKey netstringCodec .empty (by decide) _
    ⟨List.not_mem_nil, List.not_mem_nil, List.not_mem_nil, trivial, trivial⟩

/-- The hashes of a hybrid magnet, before its metadata arrives. -/
def magnetHashes : InfoHashes := ⟨⟨List.replicate 20 1, rfl⟩, none⟩

/-- The hashes of the same torrent, its v2 hash known. -/
def hybridHashes : InfoHashes := ⟨magnetHashes.v1, some ⟨List.replicate 32 2, rfl⟩⟩

/-- **A removed torrent comes back.** A hybrid magnet is saved, gets its metadata, is saved
again and removed: the removal deletes the row under the v2 hash, and the next start submits
the row under the v1 hash. -/
theorem removed_torrent_resubmitted :
    let h : TorrentHandle := ⟨some 1⟩
    let magnet : AddTorrentParams := { infoHashes := magnetHashes }
    let hybrid : AddTorrentParams := { infoHashes := hybridHashes, ti := some [120] }
    let alerts : List HandledAlert := [⟨.ofDead [], .saveResumeData h magnet⟩,
      ⟨.ofDead [], .metadataReceived h⟩, ⟨.ofDead [], .saveResumeData h hybrid⟩,
      ⟨.ofDead [], .torrentRemoved h hybridHashes⟩]
    let step := removalStep netstringCodec
    let s := run step ⟨.start .empty, []⟩ alerts
    Along step (fun s e => e.Posted s) ⟨.start .empty, []⟩ alerts ∧ s.removed = [h] ∧
      (ltInitSessionDb ⟨netstringCodec, none⟩ {} (ledgerTable s.app.store)).submitted.map
        KeyedTable.Entry.val = [magnet] ∧
      ¬ Along step (fun s e => NotResurrected (step s e)) ⟨.start .empty, []⟩ alerts := by
  intro h magnet hybrid alerts step s
  refine ⟨⟨List.not_mem_nil, trivial, List.not_mem_nil, trivial, trivial⟩, rfl,
    by decide +kernel, fun hall => ?_⟩
  exact absurd hall.2.2.1.one (by decide +kernel)

end DartTorrent
