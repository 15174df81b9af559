import DartTorrent.Batch

/-!
# The Torrent List

The client displays `g_torrent_handles` and controls torrents by their index in it. Two
things are asked of the list. Against the client: while `g_need_update` is down, the list is
the one the client last saw. Against the session: the list is the session's torrents, up to
the alerts that are still queued.

## Main results

* `needUpdate_honest_iff`: in every interleaving of alerts and client calls, the flag never
  hides a change of the list if and only if no torrent is removed from it while the flag is
  down.
* `gTorrentHandles_tracks_session`: in every interleaving of session steps and callbacks,
  the list and the queued alerts together yield the torrents of the session.
-/

open GuardedRun

namespace DartTorrent

variable {σ : Type*} {env : Env} {B : Backend σ}

/-! ### The list and the client -/

/-- The globals, and the list at the most recent `lt_updated`. -/
structure ClientState (σ : Type*) where
  app : App σ
  shown : List TorrentHandle

/-- An alert handled by the callback, or a call of the client. -/
inductive ClientEvent
  | alert (env : Env) (a : Alert)
  | needUpdate
  | updated
  | nTorrents
  | queryTorrent (env : Env) (torrentIndex : ℕ)
  | removeTorrent (env : Env) (torrentIndex : ℕ)

/-- One event. -/
def clientStep (B : Backend σ) (s : ClientState σ) : ClientEvent → ClientState σ
  | .alert env a => { s with app := (handleAlert env B s.app a).1 }
  | .needUpdate => s
  | .updated => ⟨ltUpdated s.app, s.app.gTorrentHandles⟩
  | .nTorrents => s
  | .queryTorrent env i => { s with app := (ltQueryTorrent env B i s.app).2 }
  | .removeTorrent env i => { s with app := ltRemoveTorrent env i s.app }

/-- While the flag is down, the list is the one the client last saw, so that an index means
what it meant then. -/
def FlagHonest (s : ClientState σ) : Prop :=
  ltNeedUpdate s.app = false → s.app.gTorrentHandles = s.shown

/-- The event does not remove a listed torrent while the flag is down. -/
def ClientEvent.Shows (s : ClientState σ) : ClientEvent → Prop
  | .alert env (.torrentRemoved h _) =>
      ltNeedUpdate s.app = false → ∀ x ∈ s.app.gTorrentHandles, env.same x h = false
  | _ => True

/-- An alert other than a removal raises the flag, or changes neither flag nor list. -/
theorem handleAlert_list_or_flag (env : Env) (B : Backend σ) (s : App σ) {a : Alert}
    (ha : ∀ h ih, a ≠ .torrentRemoved h ih) :
    (handleAlert env B s a).1.gNeedUpdate = true ∨
      ((handleAlert env B s a).1.gTorrentHandles = s.gTorrentHandles ∧
        (handleAlert env B s a).1.gNeedUpdate = s.gNeedUpdate) := by
  rw [gNeedUpdate_handleAlert, gTorrentHandles_handleAlert]
  cases a with
  | metadataReceived h =>
      cases hexp : env.expired h with
      | true => exact Or.inr ⟨rfl, by simp [Alert.raisesFlag, hexp]⟩
      | false => exact Or.inl (by simp [Alert.raisesFlag, hexp])
  | torrentRemoved h ih => exact absurd rfl (ha h ih)
  | addTorrent h error =>
      cases hlisted : s.gTorrentHandles.any fun x => env.same x h with
      | true => exact Or.inr (by simp [Alert.onList, Alert.raisesFlag, hlisted])
      | false => exact Or.inl (by simp [Alert.raisesFlag, hlisted])
  | _ => exact Or.inr ⟨rfl, rfl⟩

/-- A removal takes the torrent off the list and leaves the flag. -/
theorem handleAlert_torrentRemoved (env : Env) (B : Backend σ) (s : App σ) (h : TorrentHandle)
    (ih : InfoHashes) :
    (handleAlert env B s (.torrentRemoved h ih)).1.gTorrentHandles =
        s.gTorrentHandles.filter (fun x => !env.same x h) ∧
      (handleAlert env B s (.torrentRemoved h ih)).1.gNeedUpdate = s.gNeedUpdate :=
  ⟨gTorrentHandles_handleAlert _ _ _ _, gNeedUpdate_handleAlert _ _ _ _⟩

/-- A call that neither changes the list nor lowers the flag keeps the flag honest. -/
theorem FlagHonest.of_eq {s s' : ClientState σ} (h : FlagHonest s)
    (heq : s'.app.gNeedUpdate = true ∨ (s'.app.gTorrentHandles = s.app.gTorrentHandles ∧
      s'.app.gNeedUpdate = s.app.gNeedUpdate)) (hshown : s'.shown = s.shown) :
    FlagHonest s' := by
  intro hflag
  rcases heq with hup | ⟨hlist, hdown⟩
  · exact absurd hflag (by simp [ltNeedUpdate, hup])
  · rw [hlist, hshown]
    exact h (hdown.symm.trans hflag)

/-- **One event**: an honest flag stays honest exactly when the event shows what it does. -/
theorem flagHonest_step_iff {s : ClientState σ} (h : FlagHonest s) (e : ClientEvent) :
    FlagHonest (clientStep B s e) ↔ e.Shows s := by
  cases e with
  | alert env a =>
      by_cases ha : ∃ x ih, a = .torrentRemoved x ih
      · obtain ⟨x, ih, rfl⟩ := ha
        obtain ⟨hlist, hflag⟩ := handleAlert_torrentRemoved env B s.app x ih
        simp only [FlagHonest, ClientEvent.Shows, clientStep, ltNeedUpdate] at h ⊢
        rw [hlist, hflag]
        refine forall_congr' fun hdown => ?_
        rw [← h hdown, List.filter_eq_self]
        simp
      · have hkind : ∀ x ih, a ≠ .torrentRemoved x ih := fun x ih heq => ha ⟨x, ih, heq⟩
        have hshows : ClientEvent.Shows s (.alert env a) := by
          cases a <;> first | trivial | exact absurd rfl (hkind _ _)
        exact iff_of_true (h.of_eq (handleAlert_list_or_flag env B s.app hkind) rfl) hshows
  | needUpdate => exact iff_of_true h trivial
  | updated => exact iff_of_true (fun _ => rfl) trivial
  | nTorrents => exact iff_of_true h trivial
  | queryTorrent env i =>
      refine iff_of_true (h.of_eq (Or.inr ?_) rfl) trivial
      rw [clientStep, ltQueryTorrent_eq]
      exact ⟨rfl, rfl⟩
  | removeTorrent env i =>
      refine iff_of_true (h.of_eq (Or.inr ?_) rfl) trivial
      rw [clientStep, ltRemoveTorrent_eq]
      exact ⟨rfl, rfl⟩

/-- **The update flag hides no change of the list exactly when every removal shows.** In
every interleaving of handled alerts, of any kinds and any handles, with client calls: in
every state reached in which the flag is down, the list is the one of the most recent
`lt_updated` if and only if no listed torrent is removed while the flag is down. -/
theorem needUpdate_honest_iff (B : Backend σ) (store : σ) (shown : List TorrentHandle)
    (events : List ClientEvent) :
    Along (clientStep B) (fun s e => FlagHonest (clientStep B s e))
        ⟨App.start store, shown⟩ events ↔
      Along (clientStep B) (fun s e => e.Shows s) ⟨App.start store, shown⟩ events := by
  have hstart : FlagHonest (⟨App.start store, shown⟩ : ClientState σ) :=
    fun hdown => absurd hdown (by simp [ltNeedUpdate, App.start])
  refine along_iff_of_inv (L := fun _ _ => True) ?_ ?_ hstart (along_of_forall_mem (by simp))
  · exact fun s e h _ hshows => (flagHonest_step_iff h e).mpr hshows
  · exact fun s e h _ => flagHonest_step_iff h e

/-- **A removal shifts the indices unseen.** The client has seen two torrents when the first
is removed; the flag stays down, and index `0` now means the other torrent. -/
theorem needUpdate_hides_removal :
    let first : TorrentHandle := ⟨some 1⟩
    let second : TorrentHandle := ⟨some 2⟩
    let hashes : InfoHashes := ⟨⟨List.replicate 20 0, rfl⟩, none⟩
    let env := Env.ofDead []
    let B := tableBackend netstringCodec
    let events : List ClientEvent := [.alert env (.addTorrent second false),
      .alert env (.addTorrent first false), .updated, .alert env (.torrentRemoved first hashes)]
    let s := run (clientStep B) ⟨App.start .empty, []⟩ events
    ltNeedUpdate s.app = false ∧ s.shown[0]? = some first ∧
      s.app.gTorrentHandles[0]? = some second ∧
      ¬ Along (clientStep B) (fun s e => FlagHonest (clientStep B s e))
        ⟨App.start .empty, []⟩ events := by
  refine ⟨rfl, rfl, rfl, fun h => ?_⟩
  exact absurd (h.2.2.2.1 rfl) (by decide)

/-! ### The list and the session -/

/-- The globals, the torrents of the session, most recently added first, and the alerts
posted and not yet taken by the callback. -/
structure SessionState (σ : Type*) where
  app : App σ
  torrents : List TorrentHandle
  queue : List Alert

/-- The session at start-up. -/
def SessionState.start (store : σ) : SessionState σ := ⟨App.start store, [], []⟩

/-- A step of the session or of the callback: an add that succeeds, of a new torrent or of
one already there; a removal, by the session or by `lt_remove_torrent`; any other alert; a
callback that takes the first `n` alerts. -/
inductive SessionEvent
  | add (h : TorrentHandle)
  | remove (h : TorrentHandle) (infoHashes : InfoHashes)
  | clientRemove (torrentIndex : ℕ) (infoHashes : InfoHashes)
  | post (a : Alert)
  | callback (n : ℕ)

/-- The session removes a torrent, if it has it, and posts the alert. -/
def SessionState.remove (s : SessionState σ) (h : TorrentHandle) (infoHashes : InfoHashes) :
    SessionState σ :=
  if h ∈ s.torrents then
    { s with
      torrents := s.torrents.filter (· ≠ h)
      queue := s.queue ++ [.torrentRemoved h infoHashes] }
  else s

/-- One step. -/
def sessionStep (env : Env) (B : Backend σ) (s : SessionState σ) : SessionEvent → SessionState σ
  | .add h =>
      { s with
        torrents := if h ∈ s.torrents then s.torrents else h :: s.torrents
        queue := s.queue ++ [.addTorrent h false] }
  | .remove h infoHashes => s.remove h infoHashes
  | .clientRemove i infoHashes =>
      let s' := { s with app := ltRemoveTorrent env i s.app }
      match s.app.gTorrentHandles[i]? with
      | none => s'
      | some h => if env.expired h then s' else s'.remove h infoHashes
  | .post a => { s with queue := s.queue ++ [a] }
  | .callback n =>
      { s with
        app := (handleBatch env B s.app (s.queue.take n)).1
        queue := s.queue.drop n }

/-- Alerts that are posted beside the steps are of other kinds. -/
def SessionEvent.Legal : SessionEvent → Prop
  | .post (.addTorrent _ _) => False
  | .post (.torrentRemoved _ _) => False
  | _ => True

/-- What an alert does to the list, handles being equal exactly when they refer to one
torrent. -/
def listAlert (handles : List TorrentHandle) : Alert → List TorrentHandle
  | .torrentRemoved h _ => handles.filter (· ≠ h)
  | .addTorrent h _ => if h ∈ handles then handles else h :: handles
  | _ => handles

/-- With no expired handle, a batch is handled to its end. -/
theorem handleBatch_of_no_expired (hlive : ∀ h, env.expired h = false) (s : App σ)
    (alerts : List Alert) : handleBatch env B s alerts = (idealBatch env B s alerts, []) := by
  induction alerts generalizing s with
  | nil => rfl
  | cons a alerts ih =>
      have ha : ¬ a.CallsExpired env := by
        rintro ⟨h, -, hexp⟩
        exact absurd hexp (by simp [hlive h])
      rw [handleBatch_cons_of_next (handleAlert_of_not_callsExpired ha), ih]
      rfl

/-- Adds and removals are what changes the list. -/
theorem gTorrentHandles_idealAlert (hsame : ∀ x y, env.same x y = true ↔ x = y) (s : App σ)
    (a : Alert) : (idealAlert env B s a).gTorrentHandles = listAlert s.gTorrentHandles a := by
  cases a with
  | torrentRemoved h ih =>
      refine List.filter_congr fun x _ => ?_
      rw [Bool.eq_iff_iff]
      simp [← hsame x h]
  | addTorrent h error =>
      have hany : (s.gTorrentHandles.any fun x => env.same x h) =
          decide (h ∈ s.gTorrentHandles) := by
        rw [Bool.eq_iff_iff]
        simp [hsame]
      simp only [idealAlert, listAlert, hany, decide_eq_true_eq]
      split <;> rfl
  | torrentError h =>
      simp only [idealAlert, listAlert]
      split <;> rfl
  | stateChanged h =>
      simp only [idealAlert, listAlert, requestSave]
      split <;> rfl
  | metadataReceived h =>
      simp only [idealAlert, listAlert, requestSave]
      split <;> rfl
  | torrentFinished h =>
      simp only [idealAlert, listAlert, requestSave]
      split <;> rfl
  | saveResumeData h params => rfl
  | saveResumeDataFailed h => rfl
  | other => rfl

/-- What a batch does to the list, handle equality being identity. -/
theorem gTorrentHandles_idealBatch (hsame : ∀ x y, env.same x y = true ↔ x = y) (s : App σ)
    (alerts : List Alert) :
    (idealBatch env B s alerts).gTorrentHandles = alerts.foldl listAlert s.gTorrentHandles := by
  induction alerts generalizing s with
  | nil => rfl
  | cons a alerts ih =>
      rw [idealBatch, List.foldl_cons] at *
      rw [← idealBatch, ih, gTorrentHandles_idealAlert hsame]
      rfl

/-- Neither adds nor removals put a torrent on the list twice. -/
theorem nodup_listAlert {handles : List TorrentHandle} (h : handles.Nodup) (a : Alert) :
    (listAlert handles a).Nodup := by
  cases a with
  | torrentRemoved x ih => exact h.filter _
  | addTorrent x error =>
      rw [listAlert]
      split
      · exact h
      · next hx => exact List.nodup_cons.mpr ⟨hx, h⟩
  | _ => exact h

theorem nodup_foldl_listAlert {handles : List TorrentHandle} (h : handles.Nodup)
    (alerts : List Alert) : (alerts.foldl listAlert handles).Nodup := by
  induction alerts generalizing handles with
  | nil => exact h
  | cons a alerts ih => exact ih (nodup_listAlert h a)

/-- The invariant: the list holds no torrent twice, and the queued alerts turn it into the
torrents of the session. -/
structure Tracks (s : SessionState σ) : Prop where
  nodup : s.app.gTorrentHandles.Nodup
  pending : s.queue.foldl listAlert s.app.gTorrentHandles = s.torrents

/-- An alert posted with the change of the session that it announces. -/
theorem Tracks.post {s : SessionState σ} (h : Tracks s) (a : Alert) (app : App σ)
    (happ : app.gTorrentHandles = s.app.gTorrentHandles) :
    Tracks { app := app, torrents := listAlert s.torrents a, queue := s.queue ++ [a] } :=
  ⟨happ ▸ h.nodup, by rw [List.foldl_append, happ, h.pending]; rfl⟩

theorem gTorrentHandles_ltRemoveTorrent (env : Env) (i : ℕ) (s : App σ) :
    (ltRemoveTorrent env i s).gTorrentHandles = s.gTorrentHandles := by
  rw [ltRemoveTorrent_eq]

theorem Tracks.remove {s : SessionState σ} (h : Tracks s) (x : TorrentHandle)
    (ih : InfoHashes) : Tracks (s.remove x ih) := by
  rw [SessionState.remove]
  split
  · exact h.post (.torrentRemoved x ih) s.app rfl
  · exact h

/-- **Every step keeps the list in track with the session.** -/
theorem tracks_step (hlive : ∀ h, env.expired h = false)
    (hsame : ∀ x y, env.same x y = true ↔ x = y) {s : SessionState σ} (h : Tracks s)
    {e : SessionEvent} (he : e.Legal) : Tracks (sessionStep env B s e) := by
  cases e with
  | add x => exact h.post (.addTorrent x false) s.app rfl
  | remove x ih => exact h.remove x ih
  | clientRemove i ih =>
      have hlist := gTorrentHandles_ltRemoveTorrent env i s.app
      have hs : Tracks { s with app := ltRemoveTorrent env i s.app } :=
        ⟨hlist ▸ h.nodup, by rw [hlist]; exact h.pending⟩
      simp only [sessionStep]
      split
      · exact hs
      · split
        · exact hs
        · exact hs.remove _ ih
  | post a =>
      have ha : listAlert s.torrents a = s.torrents := by
        cases a <;> first | rfl | exact absurd he id
      have hpost := h.post a s.app rfl
      rwa [ha] at hpost
  | callback n =>
      have hbatch := handleBatch_of_no_expired (B := B) hlive s.app (s.queue.take n)
      have hlist := gTorrentHandles_idealBatch (B := B) hsame s.app (s.queue.take n)
      simp only [sessionStep, hbatch]
      refine ⟨?_, ?_⟩
      · rw [hlist]
        exact nodup_foldl_listAlert h.nodup _
      · simp only [hlist]
        rw [← List.foldl_append, List.take_append_drop]
        exact h.pending

/-- **The torrent list tracks the session.** In every interleaving of adds, repeated adds,
removals, re-adds and other alerts with callbacks that take any prefix of the queue, no
handle call throwing and handle equality identifying the torrents: the list never has a
torrent twice, handling the queued alerts turns it into the torrents of the session, and
when the queue is empty it is the list of these torrents, each once, most recently added
first. -/
theorem gTorrentHandles_tracks_session (B : Backend σ) (store : σ)
    (hlive : ∀ h, env.expired h = false) (hsame : ∀ x y, env.same x y = true ↔ x = y)
    (events : List SessionEvent) (hlegal : ∀ e ∈ events, e.Legal) :
    let s := run (sessionStep env B) (.start store) events
    s.app.gTorrentHandles.Nodup ∧
      (handleBatch env B s.app s.queue).1.gTorrentHandles = s.torrents ∧
      (s.queue = [] → s.app.gTorrentHandles = s.torrents ∧ s.torrents.Nodup) := by
  intro s
  have hstart : Tracks (SessionState.start store) := ⟨List.nodup_nil, rfl⟩
  have hall : Along (sessionStep env B) (fun _ e => e.Legal) (.start store) events :=
    along_of_forall_mem hlegal
  have hstep : ∀ (s : SessionState σ) (e : SessionEvent), Tracks s → e.Legal →
      Tracks (sessionStep env B s e) := fun s e h he => tracks_step hlive hsame h he
  have h : Tracks s := inv_run hstep hstart hall
  refine ⟨h.nodup, ?_, fun hqueue => ?_⟩
  · rw [handleBatch_of_no_expired hlive, gTorrentHandles_idealBatch hsame]
    exact h.pending
  · have hlist : s.app.gTorrentHandles = s.torrents := by
      have hpending := h.pending
      rwa [hqueue] at hpending
    exact ⟨hlist, hlist ▸ h.nodup⟩

/-- A torrent is added twice, another once, and the first is removed and added again. -/
theorem gTorrentHandles_tracks_run :
    let first : TorrentHandle := ⟨some 1⟩
    let hashes : InfoHashes := ⟨⟨List.replicate 20 0, rfl⟩, none⟩
    let events : List SessionEvent := [.add first, .add ⟨some 2⟩, .add first, .callback 2,
      .post .other, .remove first hashes, .add ⟨some 3⟩, .callback 5]
    let s := run (sessionStep (Env.ofDead []) (tableBackend netstringCodec)) (.start .empty) events
    s.app.gTorrentHandles.Nodup ∧
      (handleBatch (Env.ofDead []) (tableBackend netstringCodec) s.app
        s.queue).1.gTorrentHandles = s.torrents ∧
      (s.queue = [] → s.app.gTorrentHandles = s.torrents ∧ s.torrents.Nodup) :=
  gTorrentHandles_tracks_session _ _ (fun _ => rfl) (fun x y => by simp [Env.ofDead]) _
    (by simp [SessionEvent.Legal])

end DartTorrent
