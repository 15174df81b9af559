import DartTorrent.Batches

/-!
# What an Index Means

The client displays the list and calls `lt_updated`; from then on it denotes torrents by what it
displayed. An alert that adds a torrent or brings metadata raises the flag, so the client may ask.
A removal does not. This module says what an index means while the flag is down: which torrents
are left of those displayed, and how far each has moved.

## Main results

* `list_run_of_flag_down`: while the flag is down, the list is what the client displayed without
  the torrents whose removal was handled since.
* `index_drift`: an index reaches the torrent displayed at the index plus the number of removed
  torrents displayed above it.
-/

open GuardedRun

namespace DartTorrent

/-! ### Positions in a filtered list -/

section Filter

variable {α : Type*} {p : α → Bool}

/-- An element of a filtered list stood as much further on as elements before it were dropped. -/
theorem exists_index_of_filter {l : List α} {i : ℕ} {x : α} (h : (l.filter p)[i]? = some x) :
    ∃ j, l[j]? = some x ∧ j = i + (l.take j).countP fun y => !p y := by
  induction l generalizing i with
  | nil => exact absurd h (by simp)
  | cons a l ih =>
      cases ha : p a with
      | true =>
          rw [List.filter_cons_of_pos ha] at h
          cases i with
          | zero => exact ⟨0, h, by simp⟩
          | succ i =>
              obtain ⟨j, hj, hcount⟩ := ih (by simpa using h)
              refine ⟨j + 1, by simpa using hj, ?_⟩
              rw [List.take_succ_cons, List.countP_cons_of_neg (by simp [ha])]
              omega
      | false =>
          rw [List.filter_cons_of_neg (by simp [ha])] at h
          obtain ⟨j, hj, hcount⟩ := ih h
          refine ⟨j + 1, by simpa using hj, ?_⟩
          rw [List.take_succ_cons, List.countP_cons_of_pos (by simp [ha])]
          omega

end Filter

/-! ### The list since it was displayed -/

variable {σ : Type*} {B : FilesBackend σ} {s : ClientState σ} {e : IndexEvent}
  {events : List IndexEvent}

/-- The event is a call of `lt_updated`. -/
def IndexEvent.isUpdated : IndexEvent → Bool
  | .client .updated => true
  | _ => false

/-- Only adds and metadata raise the flag, and only `lt_updated` lowers it. -/
theorem gNeedUpdate_indexStep (B : FilesBackend σ) (s : ClientState σ) (e : IndexEvent) :
    (indexStep B s e).app.gNeedUpdate =
      match e with
      | .client (.alert env a) => a.raisesFlag env s.app.gTorrentHandles || s.app.gNeedUpdate
      | .client .updated => false
      | _ => s.app.gNeedUpdate := by
  cases e with
  | client e =>
      cases e with
      | alert env a => exact gNeedUpdate_handleAlert env B.toBackend s.app a
      | queryTorrent env i => simp only [indexStep, clientStep, ltQueryTorrent_eq]
      | removeTorrent env i => simp only [indexStep, clientStep, ltRemoveTorrent_eq]
      | _ => rfl
  | pauseTorrent env i =>
      obtain ⟨calls, hcalls⟩ := controlTorrent_getD .pause env i s.app
      simp only [indexStep, ltPauseTorrent, hcalls]
  | resumeTorrent env i =>
      obtain ⟨calls, hcalls⟩ := controlTorrent_getD .resume env i s.app
      simp only [indexStep, ltResumeTorrent, hcalls]
  | queryFiles env i => rfl
  | queryFile query i =>
      obtain ⟨store, hstore, -⟩ := ltQueryFile_getD B query i s.app
      simp only [indexStep, hstore]

/-- **One event that leaves the flag down** found it down, and takes the torrents off the list
whose removal it handles. -/
theorem list_indexStep_of_flag_down (hevent : e.isUpdated = false)
    (hdown : (indexStep B s e).app.gNeedUpdate = false) :
    s.app.gNeedUpdate = false ∧
      (indexStep B s e).app.gTorrentHandles =
        s.app.gTorrentHandles.filter fun x => !e.unlists x := by
  have hall : ∀ handles : List TorrentHandle, handles = handles.filter fun _ => true :=
    fun handles => (List.filter_eq_self.mpr fun _ _ => rfl).symm
  rw [gNeedUpdate_indexStep] at hdown
  rw [gTorrentHandles_indexStep]
  cases e with
  | client e =>
      cases e with
      | alert env a =>
          obtain ⟨hraises, hdown⟩ := Bool.or_eq_false_iff.mp hdown
          refine ⟨hdown, ?_⟩
          cases a with
          | torrentRemoved h infoHashes => rfl
          | addTorrent h error =>
              -- the torrent was listed already
              have hlisted : (s.app.gTorrentHandles.any fun x => env.same x h) = true := by
                simpa [Alert.raisesFlag] using hraises
              exact (if_pos hlisted).trans (hall _)
          | _ => exact hall _
      | updated => exact absurd hevent (by simp [IndexEvent.isUpdated])
      | _ => exact ⟨hdown, hall _⟩
  | _ => exact ⟨hdown, hall _⟩

/-- The torrents of the list whose removal the events handle are gone, and no others. -/
theorem list_run_of_flag_down (hevents : ∀ e ∈ events, e.isUpdated = false)
    (hdown : (run (indexStep B) s events).app.gNeedUpdate = false) :
    s.app.gNeedUpdate = false ∧
      (run (indexStep B) s events).app.gTorrentHandles =
        s.app.gTorrentHandles.filter fun x => !events.any fun e => e.unlists x := by
  induction events generalizing s with
  | nil => exact ⟨hdown, (List.filter_eq_self.mpr fun _ _ => rfl).symm⟩
  | cons e events ih =>
      obtain ⟨hhead, hrest⟩ := List.forall_mem_cons.mp hevents
      obtain ⟨hdown', hlist⟩ := ih hrest hdown
      obtain ⟨hdown'', hstep⟩ := list_indexStep_of_flag_down hhead hdown'
      refine ⟨hdown'', ?_⟩
      rw [run_cons, hlist, hstep, List.filter_filter]
      refine List.filter_congr fun x _ => ?_
      rw [List.any_cons, Bool.not_or, Bool.and_comm]

/-- What was displayed stays that until the next `lt_updated`. -/
theorem shown_run (hevents : ∀ e ∈ events, e.isUpdated = false) :
    (run (indexStep B) s events).shown = s.shown := by
  induction events generalizing s with
  | nil => rfl
  | cons e events ih =>
      obtain ⟨hhead, hrest⟩ := List.forall_mem_cons.mp hevents
      rw [run_cons, ih hrest]
      cases e with
      | client e =>
          cases e with
          | updated => exact absurd hhead (by simp [IndexEvent.isUpdated])
          | _ => rfl
      | _ => rfl

/-- **What is left of what was displayed, and where.** Take any state and any run of batches and
client calls after an `lt_updated` and without another one. If the flag is down at the end, the
list is what the client displayed without the torrents whose removal was handled since; and the
entry at every index is the one displayed at that index plus the number of these torrents that were
displayed above it. So an index never reaches a torrent displayed above it. -/
theorem index_drift (B : FilesBackend σ) (s : ClientState σ) (events : List CallbackEvent)
    (hevents : ∀ e ∈ events, ∀ e' ∈ e.handled, e'.isUpdated = false) :
    let s' := run (callbackStep B) s (.call (.client .updated) :: events)
    let removed (x : TorrentHandle) : Bool :=
      (events.flatMap CallbackEvent.handled).any fun e => e.unlists x
    let shown := s.app.gTorrentHandles
    s'.app.gNeedUpdate = false →
      s'.shown = shown ∧ s'.app.gTorrentHandles = shown.filter (fun x => !removed x) ∧
        ∀ i x, s'.app.gTorrentHandles[i]? = some x →
          ∃ j, shown[j]? = some x ∧ j = i + (shown.take j).countP removed := by
  intro s' removed shown hdown
  have hhandled : ∀ e ∈ events.flatMap CallbackEvent.handled, e.isUpdated = false := by
    intro e he
    obtain ⟨e', he', hmem⟩ := List.mem_flatMap.mp he
    exact hevents e' he' e hmem
  have hs' : s' = run (indexStep B) (indexStep B s (.client .updated))
      (events.flatMap CallbackEvent.handled) := run_callbackStep B s _
  rw [hs'] at hdown ⊢
  obtain ⟨-, hlist⟩ := list_run_of_flag_down hhandled hdown
  refine ⟨?_, hlist, fun i x hi => ?_⟩
  · exact shown_run hhandled
  · rw [hlist] at hi
    obtain ⟨j, hj, hcount⟩ := exists_index_of_filter hi
    simp only [Bool.not_not] at hcount
    exact ⟨j, hj, hcount⟩

/-- Three torrents are displayed and the first is removed; index `0` now reaches the second. -/
theorem index_drift_small :
    let hashes : InfoHashes := ⟨⟨List.replicate 20 0, rfl⟩, none⟩
    let B := tableFilesBackend netstringCodec
    let s : ClientState Table := ⟨⟨[⟨some 1⟩, ⟨some 2⟩, ⟨some 3⟩], true, .empty, []⟩, []⟩
    let events : List CallbackEvent :=
      [.popAlerts (Env.ofDead []) [.torrentRemoved ⟨some 1⟩ hashes, .other],
        .call (.client .nTorrents)]
    let s' := run (callbackStep B) s (.call (.client .updated) :: events)
    let removed (x : TorrentHandle) : Bool :=
      (events.flatMap CallbackEvent.handled).any fun e => e.unlists x
    let shown := s.app.gTorrentHandles
    s'.shown = shown ∧ s'.app.gTorrentHandles = shown.filter (fun x => !removed x) ∧
      ∀ i x, s'.app.gTorrentHandles[i]? = some x →
        ∃ j, shown[j]? = some x ∧ j = i + (shown.take j).countP removed :=
  index_drift _ _ _ (by decide) (by decide)

end DartTorrent
