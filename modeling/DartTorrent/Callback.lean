import DartTorrent.Resume

/-!
# The Alert Callback and the Client Calls

The model of `dart_torrent.cpp`: the callback that `lt_init_session` registers takes all
alerts posted so far and handles them in a loop, and the client reads and controls the
torrent list by index. The callback keeps the list `g_torrent_handles`, raises the flag
`g_need_update`, and saves and removes resume data.

libtorrent is not part of the repository. `Env` is what its handles answer while a batch is
handled: whether two of them are equal, which of them have expired (calls on these throw,
except `is_valid`), and what the others report. `Backend` is where resume data goes; the
string cache that `lt_query_torrent` uses lives there too. An exception that leaves the
handling of one alert leaves the loop.

* `handleAlert` is the body of the loop, `handleBatch` the loop; `handleAlert_eq` says what
  one alert does to each of the globals.
* `processBackend` is the backend of the code; `tableBackend` keeps the table only.
* `handleAlert_mapStore`: on backends of which one refines the other, the callback does the
  same.
-/

open GuardedRun

namespace DartTorrent

/-! ### What the callback works on -/

/-- The alerts that the callback tells apart. -/
inductive Alert
  | stateChanged (handle : TorrentHandle)
  | metadataReceived (handle : TorrentHandle)
  | torrentFinished (handle : TorrentHandle)
  | saveResumeData (handle : TorrentHandle) (params : AddTorrentParams)
  | saveResumeDataFailed (handle : TorrentHandle)
  | torrentRemoved (handle : TorrentHandle) (infoHashes : InfoHashes)
  | torrentError (handle : TorrentHandle)
  | addTorrent (handle : TorrentHandle) (error : Bool)
  | other
deriving DecidableEq

/-- `resume_data_flags_t`, as far as the callback sets it. -/
structure ResumeDataFlags where
  saveInfoDict : Bool := false
  onlyIfModified : Bool := false
deriving DecidableEq, Repr

/-- A call on a handle that reaches the session. -/
inductive HandleCall
  | saveResumeData (handle : TorrentHandle) (flags : ResumeDataFlags)
  | pause (handle : TorrentHandle)
  | resume (handle : TorrentHandle)
  | removeTorrent (handle : TorrentHandle)
deriving DecidableEq

/-- What libtorrent's handles answer: `operator==`, whether the handle has expired or is
default-constructed, and the paused flag and status of a valid one. -/
structure Env where
  same : TorrentHandle → TorrentHandle → Bool
  expired : TorrentHandle → Bool
  paused : TorrentHandle → Bool
  status : TorrentHandle → TorrentStatus

/-- `is_valid`. -/
def Env.isValid (env : Env) (h : TorrentHandle) : Bool := !env.expired h

/-- Handles that are equal when they refer to the same torrent, those of `dead` torrents
expired; none is paused, and their status is blank. -/
def Env.ofDead (dead : List TorrentHandle) : Env where
  same x y := x == y
  expired h := h ∈ dead
  paused _ := false
  status _ := ⟨[], [], .other, 0, 0, 0, false⟩

/-- Where resume data and cached strings go. -/
structure Backend (σ : Type*) where
  update : Sha1Hash → AddTorrentParams → TorrentHandle → σ → σ
  remove : Sha1Hash → σ → σ
  cachedStr : Bytes → σ → ℕ × σ

/-- The globals of `dart_torrent.cpp`, the backend's state, and the calls on handles made
so far. -/
structure App (σ : Type*) where
  gTorrentHandles : List TorrentHandle
  gNeedUpdate : Bool
  store : σ
  calls : List HandleCall

variable {σ : Type*}

/-- The globals at start-up. -/
def App.start (store : σ) : App σ := ⟨[], true, store, []⟩

/-- How the handling of one alert ends: the loop goes on, or an exception leaves it. -/
inductive Outcome
  | next
  | threw
deriving DecidableEq, Repr

/-! ### The callback -/

/-- `handle.save_resume_data(flags)`. -/
def callSaveResumeData (env : Env) (h : TorrentHandle) (flags : ResumeDataFlags) (s : App σ) :
    App σ × Outcome :=
  if env.expired h then (s, .threw)
  else ({ s with calls := s.calls ++ [.saveResumeData h flags] }, .next)

/-- The body of the loop in the alert callback of `lt_init_session`. -/
def handleAlert (env : Env) (B : Backend σ) (s : App σ) : Alert → App σ × Outcome
  | .stateChanged h => callSaveResumeData env h { saveInfoDict := true, onlyIfModified := true } s
  | .metadataReceived h =>
      match callSaveResumeData env h {} s with
      | (s, .threw) => (s, .threw)
      | (s, .next) => ({ s with gNeedUpdate := true }, .next)
  | .torrentFinished h => callSaveResumeData env h {} s
  | .saveResumeData h params =>
      ({ s with store := B.update params.infoHashes.getBest params h s.store }, .next)
  | .torrentRemoved h infoHashes =>
      let s := { s with store := B.remove infoHashes.getBest s.store }
      let s := { s with gTorrentHandles := s.gTorrentHandles.filter fun x => !env.same x h }
      -- the argument of the log call is `handle.status().name`
      if env.expired h then (s, .threw) else (s, .next)
  | .torrentError h =>
      if !env.isValid h then (s, .next)
      else if env.paused h then ({ s with calls := s.calls ++ [.resume h] }, .next)
      else (s, .next)
  | .addTorrent h _ =>
      if s.gTorrentHandles.any fun x => env.same x h then (s, .next)
      else ({ s with gTorrentHandles := h :: s.gTorrentHandles, gNeedUpdate := true }, .next)
  | .saveResumeDataFailed _ => (s, .next)
  | .other => (s, .next)

/-- The loop of the alert callback over the alerts of one `pop_alerts`: the globals when it
ends, and the alerts it did not come to. -/
def handleBatch (env : Env) (B : Backend σ) (s : App σ) : List Alert → App σ × List Alert
  | [] => (s, [])
  | a :: alerts =>
      match handleAlert env B s a with
      | (s, .next) => handleBatch env B s alerts
      | (s, .threw) => (s, alerts)

/-! ### What one alert does -/

/-- What the handling of an alert does to the list. -/
def Alert.onList (env : Env) (handles : List TorrentHandle) : Alert → List TorrentHandle
  | .torrentRemoved h _ => handles.filter fun x => !env.same x h
  | .addTorrent h _ => if handles.any fun x => env.same x h then handles else h :: handles
  | _ => handles

/-- The handling of the alert raises the flag. -/
def Alert.raisesFlag (env : Env) (handles : List TorrentHandle) : Alert → Bool
  | .metadataReceived h => !env.expired h
  | .addTorrent h _ => !handles.any fun x => env.same x h
  | _ => false

/-- What the handling of an alert does to the backend's state. -/
def Alert.onStore (B : Backend σ) (store : σ) : Alert → σ
  | .saveResumeData h params => B.update params.infoHashes.getBest params h store
  | .torrentRemoved _ infoHashes => B.remove infoHashes.getBest store
  | _ => store

/-- The calls on handles that the handling of an alert makes. -/
def Alert.callsMade (env : Env) : Alert → List HandleCall
  | .stateChanged h =>
      if env.expired h then []
      else [.saveResumeData h { saveInfoDict := true, onlyIfModified := true }]
  | .metadataReceived h => if env.expired h then [] else [.saveResumeData h {}]
  | .torrentFinished h => if env.expired h then [] else [.saveResumeData h {}]
  | .torrentError h => if env.isValid h && env.paused h then [.resume h] else []
  | _ => []

/-- How the handling of an alert ends: with an exception when it calls into an expired handle
without asking. -/
def Alert.outcome (env : Env) : Alert → Outcome
  | .stateChanged h => if env.expired h then .threw else .next
  | .metadataReceived h => if env.expired h then .threw else .next
  | .torrentFinished h => if env.expired h then .threw else .next
  | .torrentRemoved h _ => if env.expired h then .threw else .next
  | _ => .next

/-- **The handling of an alert**, field by field: only adds and removals reach the list, only
saves and removals the backend, whatever the handles answer. -/
theorem handleAlert_eq (env : Env) (B : Backend σ) (s : App σ) (a : Alert) :
    handleAlert env B s a =
      ({ gTorrentHandles := a.onList env s.gTorrentHandles
         gNeedUpdate := a.raisesFlag env s.gTorrentHandles || s.gNeedUpdate
         store := a.onStore B s.store
         calls := s.calls ++ a.callsMade env }, a.outcome env) := by
  obtain ⟨handles, flag, store, calls⟩ := s
  cases a with
  | stateChanged h =>
      cases hexp : env.expired h <;>
        simp [handleAlert, callSaveResumeData, Alert.onList, Alert.raisesFlag, Alert.onStore,
          Alert.callsMade, Alert.outcome, hexp]
  | metadataReceived h =>
      cases hexp : env.expired h <;>
        simp [handleAlert, callSaveResumeData, Alert.onList, Alert.raisesFlag, Alert.onStore,
          Alert.callsMade, Alert.outcome, hexp]
  | torrentFinished h =>
      cases hexp : env.expired h <;>
        simp [handleAlert, callSaveResumeData, Alert.onList, Alert.raisesFlag, Alert.onStore,
          Alert.callsMade, Alert.outcome, hexp]
  | torrentRemoved h ih =>
      cases hexp : env.expired h <;>
        simp [handleAlert, Alert.onList, Alert.raisesFlag, Alert.onStore, Alert.callsMade,
          Alert.outcome, hexp]
  | torrentError h =>
      cases hvalid : env.isValid h <;> cases hpaused : env.paused h <;>
        simp [handleAlert, Alert.onList, Alert.raisesFlag, Alert.onStore, Alert.callsMade,
          Alert.outcome, hvalid, hpaused]
  | addTorrent h error =>
      cases hlisted : handles.any fun x => env.same x h <;>
        simp [handleAlert, Alert.onList, Alert.raisesFlag, Alert.onStore, Alert.callsMade,
          Alert.outcome, hlisted]
  | _ =>
      simp [handleAlert, Alert.onList, Alert.raisesFlag, Alert.onStore, Alert.callsMade,
        Alert.outcome]

theorem gTorrentHandles_handleAlert (env : Env) (B : Backend σ) (s : App σ) (a : Alert) :
    (handleAlert env B s a).1.gTorrentHandles = a.onList env s.gTorrentHandles := by
  rw [handleAlert_eq]

theorem gNeedUpdate_handleAlert (env : Env) (B : Backend σ) (s : App σ) (a : Alert) :
    (handleAlert env B s a).1.gNeedUpdate =
      (a.raisesFlag env s.gTorrentHandles || s.gNeedUpdate) := by
  rw [handleAlert_eq]

theorem store_handleAlert (env : Env) (B : Backend σ) (s : App σ) (a : Alert) :
    (handleAlert env B s a).1.store = a.onStore B s.store := by
  rw [handleAlert_eq]

theorem calls_handleAlert (env : Env) (B : Backend σ) (s : App σ) (a : Alert) :
    (handleAlert env B s a).1.calls = s.calls ++ a.callsMade env := by
  rw [handleAlert_eq]

/-! ### The client calls -/

/-- `lt_n_torrents`. -/
def ltNTorrents (s : App σ) : ℕ := s.gTorrentHandles.length

/-- `lt_need_update`. -/
def ltNeedUpdate (s : App σ) : Bool := s.gNeedUpdate

/-- `lt_updated`. -/
def ltUpdated (s : App σ) : App σ := { s with gNeedUpdate := false }

/-- `torrent_result`: strings by their addresses, `0` where the struct is empty. -/
structure TorrentResult where
  name : ℕ := 0
  savePath : ℕ := 0
  state : Option String := none
  progress : UInt32 := 0
  totalSize : ℤ := 0
  downloadRate : ℤ := 0
  paused : Bool := false
  finished : Bool := false
deriving DecidableEq

/-- `lt_query_torrent`. -/
def ltQueryTorrent (env : Env) (B : Backend σ) (torrentIndex : ℕ) (s : App σ) :
    TorrentResult × App σ :=
  match s.gTorrentHandles[torrentIndex]? with
  | none => ({}, s)
  | some torrent =>
      if !env.isValid torrent then ({}, s)
      else
        let status := env.status torrent
        let (name, store) := B.cachedStr status.name s.store
        let (savePath, store) := B.cachedStr status.savePath store
        ({ name := name
           savePath := savePath
           state := some (ltTorrentStateStr status.state)
           progress := status.progress
           totalSize := status.totalWanted
           downloadRate := status.downloadRate
           paused := env.paused torrent
           finished := status.isSeeding }, { s with store := store })

/-- `lt_remove_torrent`: an index outside the list and an expired handle make the calls in
it throw, and it catches that. -/
def ltRemoveTorrent (env : Env) (torrentIndex : ℕ) (s : App σ) : App σ :=
  match s.gTorrentHandles[torrentIndex]? with
  | none => s
  | some torrent =>
      if env.expired torrent then s
      else { s with calls := s.calls ++ [.removeTorrent torrent] }

/-- What a query does to the backend's state: it caches the name and the save path of a
valid torrent. -/
def queryStore (env : Env) (B : Backend σ) (handles : List TorrentHandle) (torrentIndex : ℕ)
    (store : σ) : σ :=
  match handles[torrentIndex]? with
  | none => store
  | some torrent =>
      if env.isValid torrent then
        let status := env.status torrent
        (B.cachedStr status.savePath (B.cachedStr status.name store).2).2
      else store

/-- **A query** reaches the backend only. -/
theorem ltQueryTorrent_eq (env : Env) (B : Backend σ) (i : ℕ) (s : App σ) :
    (ltQueryTorrent env B i s).2 =
      { s with store := queryStore env B s.gTorrentHandles i s.store } := by
  rw [ltQueryTorrent, queryStore]
  cases s.gTorrentHandles[i]? with
  | none => rfl
  | some torrent => cases hvalid : env.isValid torrent <;> simp [hvalid]

/-- The call on a handle that `lt_remove_torrent` makes. -/
def removeCalls (env : Env) (handles : List TorrentHandle) (torrentIndex : ℕ) :
    List HandleCall :=
  match handles[torrentIndex]? with
  | none => []
  | some torrent => if env.expired torrent then [] else [.removeTorrent torrent]

/-- **`lt_remove_torrent`** reaches the session only. -/
theorem ltRemoveTorrent_eq (env : Env) (i : ℕ) (s : App σ) :
    ltRemoveTorrent env i s =
      { s with calls := s.calls ++ removeCalls env s.gTorrentHandles i } := by
  rw [ltRemoveTorrent, removeCalls]
  cases s.gTorrentHandles[i]? with
  | none => simp
  | some torrent => cases hexp : env.expired torrent <;> simp [hexp]

/-! ### Backends -/

/-- `f` takes the states of one backend to those of another, the operations with them. -/
structure Backend.Refines {τ : Type*} (B : Backend σ) (f : σ → τ) (B' : Backend τ) : Prop where
  update : ∀ hash params h s, f (B.update hash params h s) = B'.update hash params h (f s)
  remove : ∀ hash s, f (B.remove hash s) = B'.remove hash (f s)

/-- The globals, with the backend's state mapped. -/
def App.mapStore {τ : Type*} (f : σ → τ) (s : App σ) : App τ :=
  ⟨s.gTorrentHandles, s.gNeedUpdate, f s.store, s.calls⟩

/-- **The callback does the same on both backends.** -/
theorem handleAlert_mapStore {τ : Type*} {B : Backend σ} {f : σ → τ} {B' : Backend τ}
    (hf : B.Refines f B') (env : Env) (s : App σ) (a : Alert) :
    handleAlert env B' (s.mapStore f) a =
      ((handleAlert env B s a).1.mapStore f, (handleAlert env B s a).2) := by
  have hstore : a.onStore B' (f s.store) = f (a.onStore B s.store) := by
    cases a with
    | saveResumeData h params => exact (hf.update _ _ _ _).symm
    | torrentRemoved h ih => exact (hf.remove _ _).symm
    | _ => rfl
  rw [handleAlert_eq, handleAlert_eq, App.mapStore, App.mapStore, hstore]

/-- The backend of the code, `results` saying what the SQLite calls return. -/
def processBackend (t : Target) (pol : StreamPolicy) (codec : ResumeCodec)
    (update : UpdateResults) (remove : RemoveResults) : Backend Process where
  update hash params _ := ltUpdateResumeData t pol codec update hash params
  remove hash := ltRemoveResumeData t pol remove hash
  cachedStr s p :=
    let (ptr, g) := ltCachedStrString t s p.str
    (ptr, { p with str := g })

/-- The backend that keeps the table only. -/
def tableBackend (codec : ResumeCodec) : Backend Table where
  update hash params _ table := table.replace (hexText hash) (storedRow codec params)
  remove hash table := table.delete (hexText hash)
  cachedStr _ table := (0, table)

end DartTorrent
