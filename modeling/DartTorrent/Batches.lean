import DartTorrent.Indices
import DartTorrent.LoadErrors
import DartTorrent.Restore

/-!
# Runs of Batches

The callback takes all alerts at once and handles them in a loop that an exception leaves. The
results about runs of alerts are about alerts that were handled; this module says which these are
when the alerts come in batches, and what becomes of a torrent whose removal was in a batch and was
not handled: it stays on the list for as long as the process runs, where no call reaches it, and
its row stays in the table, so that the next start adds it again.

## Main results

* `handleBatch_eq`: a batch is handled up to the first alert that calls into an expired handle.
* `batches_handled`: every run of batches and client calls is the run of the handled alerts.
* `ghost_stays`: a torrent whose removal was dropped.
* `removal_undone`: the row of such a torrent, and the next start.
-/

open GuardedRun

namespace DartTorrent

variable {σ : Type*}

/-! ### What is handled of a batch -/

/-- The alerts of a batch that are handled: up to the first whose handling throws, and this one
as far as it comes. -/
def handledAlerts (env : Env) : List Alert → List Alert
  | [] => []
  | a :: alerts => if a.outcome env = .threw then [a] else a :: handledAlerts env alerts

/-- What stands behind an alert that throws is not handled. -/
theorem handledAlerts_of_threw {env : Env} {a : Alert} (ha : a.outcome env = .threw)
    (pre post : List Alert) : handledAlerts env (pre ++ a :: post) <+: pre ++ [a] := by
  induction pre with
  | nil =>
      rw [List.nil_append, handledAlerts, if_pos ha]
      exact List.prefix_rfl
  | cons b pre ih =>
      rw [List.cons_append, handledAlerts]
      split
      · exact ⟨pre ++ [a], rfl⟩
      · exact List.prefix_cons_inj b |>.mpr ih

/-- A batch is handled to its end, or to the first alert that throws. -/
theorem handledAlerts_cases (env : Env) (alerts : List Alert) :
    (handledAlerts env alerts = alerts ∧ ∀ a ∈ alerts, a.outcome env = .next) ∨
      ∃ pre a post, alerts = pre ++ a :: post ∧ handledAlerts env alerts = pre ++ [a] ∧
        (∀ b ∈ pre, b.outcome env = .next) ∧ a.outcome env = .threw := by
  induction alerts with
  | nil => exact Or.inl ⟨rfl, by simp⟩
  | cons a alerts ih =>
      rw [handledAlerts]
      cases ha : a.outcome env with
      | threw => exact Or.inr ⟨[], a, alerts, rfl, if_pos rfl, by simp, ha⟩
      | next =>
          rw [if_neg (by simp)]
          rcases ih with ⟨hall, hnext⟩ | ⟨pre, b, post, rfl, hhandled, hpre, hb⟩
          · exact Or.inl ⟨by rw [hall], List.forall_mem_cons.mpr ⟨ha, hnext⟩⟩
          · exact Or.inr ⟨a :: pre, b, post, rfl, by rw [hhandled, List.cons_append],
              List.forall_mem_cons.mpr ⟨ha, hpre⟩, hb⟩

/-- **A batch is handled up to the first alert that throws**, and the rest of it is dropped. -/
theorem handleBatch_eq (env : Env) (B : Backend σ) (s : App σ) (alerts : List Alert) :
    handleBatch env B s alerts =
      (run (fun s a => (handleAlert env B s a).1) s (handledAlerts env alerts),
        alerts.drop (handledAlerts env alerts).length) := by
  induction alerts generalizing s with
  | nil => rfl
  | cons a alerts ih =>
      rw [handleBatch, handledAlerts, handleAlert_eq]
      cases ha : a.outcome env with
      | next =>
          rw [if_neg (by simp), run_cons, handleAlert_eq]
          exact ih _
      | threw =>
          rw [if_pos rfl, run_cons, handleAlert_eq]
          rfl

/-! ### Runs -/

/-- A callback over the alerts of one `pop_alerts`, with what the handles answer meanwhile, or a
call of the client. -/
inductive CallbackEvent
  | popAlerts (env : Env) (alerts : List Alert)
  | call (e : IndexEvent)

/-- One callback or call. -/
def callbackStep (B : FilesBackend σ) (s : ClientState σ) : CallbackEvent → ClientState σ
  | .popAlerts env alerts => { s with app := (handleBatch env B.toBackend s.app alerts).1 }
  | .call e => indexStep B s e

/-- The alerts and calls that are handled. -/
def CallbackEvent.handled : CallbackEvent → List IndexEvent
  | .popAlerts env alerts => (handledAlerts env alerts).map fun a => .client (.alert env a)
  | .call e => [e]

/-- A batch is the run of its handled alerts. -/
theorem callbackStep_eq (B : FilesBackend σ) (s : ClientState σ) (e : CallbackEvent) :
    callbackStep B s e = run (indexStep B) s e.handled := by
  cases e with
  | call e => rfl
  | popAlerts env alerts =>
      rw [callbackStep, CallbackEvent.handled, handleBatch_eq]
      induction handledAlerts env alerts generalizing s with
      | nil => rfl
      | cons a handled ih =>
          rw [List.map_cons, run_cons, run_cons, ← ih]
          rfl

/-- A run of batches is the run of the alerts handled in them, each with what the handles answered
when its batch was handled. -/
theorem run_callbackStep (B : FilesBackend σ) (s : ClientState σ) (events : List CallbackEvent) :
    run (callbackStep B) s events =
      run (indexStep B) s (events.flatMap CallbackEvent.handled) := by
  induction events generalizing s with
  | nil => rfl
  | cons e events ih => rw [run_cons, ih, callbackStep_eq, List.flatMap_cons, run_append]

/-- **Batches are runs of their handled alerts.** Every run of batches and client calls ends in the
state of the run of the handled alerts and the calls, so every result about runs of these is one
about runs of batches. Of a batch all alerts are handled if none throws, and else those up to the
first that does, with this one. -/
theorem batches_handled (B : FilesBackend σ) (s : ClientState σ) (events : List CallbackEvent) :
    run (callbackStep B) s events =
        run (indexStep B) s (events.flatMap CallbackEvent.handled) ∧
      ∀ env alerts,
        (handledAlerts env alerts = alerts ∧ ∀ a ∈ alerts, a.outcome env = .next) ∨
          ∃ pre a post, alerts = pre ++ a :: post ∧ handledAlerts env alerts = pre ++ [a] ∧
            (∀ b ∈ pre, b.outcome env = .next) ∧ a.outcome env = .threw :=
  ⟨run_callbackStep B s events, handledAlerts_cases⟩

/-! ### A torrent whose removal was dropped -/

/-- The event handles the removal of the torrent of `x`. -/
def IndexEvent.unlists (x : TorrentHandle) : IndexEvent → Bool
  | .client (.alert env (.torrentRemoved h _)) => env.same x h
  | _ => false

/-- Only adds and removals reach the list. -/
theorem gTorrentHandles_indexStep (B : FilesBackend σ) (s : ClientState σ) (e : IndexEvent) :
    (indexStep B s e).app.gTorrentHandles =
      match e with
      | .client (.alert env a) => a.onList env s.app.gTorrentHandles
      | _ => s.app.gTorrentHandles := by
  cases e with
  | client e =>
      cases e with
      | alert env a => exact gTorrentHandles_handleAlert env B.toBackend s.app a
      | queryTorrent env i => simp only [indexStep, clientStep, ltQueryTorrent_eq]
      | removeTorrent env i => simp only [indexStep, clientStep, ltRemoveTorrent_eq]
      | _ => rfl
  | pauseTorrent env i =>
      obtain ⟨calls, hcalls⟩ := controlTorrent_getD .pause env i s.app
      simp only [indexStep, ltPauseTorrent, hcalls]
  | resumeTorrent env i =>
      obtain ⟨calls, hcalls⟩ := controlTorrent_getD .resume env i s.app
      simp only [indexStep, ltResumeTorrent, hcalls]
  | queryFiles env i => rfl
  | queryFile query i =>
      obtain ⟨store, hstore, -⟩ := ltQueryFile_getD B query i s.app
      simp only [indexStep, hstore]

/-- **Only its removal takes a torrent off the list.** -/
theorem listed_indexStep {B : FilesBackend σ} {s : ClientState σ} {x : TorrentHandle}
    (hx : x ∈ s.app.gTorrentHandles) {e : IndexEvent} (he : e.unlists x = false) :
    x ∈ (indexStep B s e).app.gTorrentHandles := by
  rw [gTorrentHandles_indexStep]
  split
  · next env a =>
      cases a with
      | torrentRemoved h infoHashes =>
          refine List.mem_filter.mpr ⟨hx, ?_⟩
          simpa [IndexEvent.unlists] using he
      | addTorrent h error =>
          rw [Alert.onList]
          split
          · exact hx
          · exact List.mem_cons_of_mem _ hx
      | _ => exact hx
  · exact hx

theorem listed_run {B : FilesBackend σ} {s : ClientState σ} {x : TorrentHandle}
    (hx : x ∈ s.app.gTorrentHandles) {events : List IndexEvent}
    (hevents : ∀ e ∈ events, e.unlists x = false) :
    x ∈ (run (indexStep B) s events).app.gTorrentHandles := by
  induction events generalizing s with
  | nil => exact hx
  | cons e events ih =>
      obtain ⟨hhead, hrest⟩ := List.forall_mem_cons.mp hevents
      exact ih (listed_indexStep hx hhead) hrest

/-- No call on the index does anything, or says anything of a torrent. -/
structure Inert (B : FilesBackend σ) (s : App σ) (i : ℕ) (env : FilesEnv) : Prop where
  query : ltQueryTorrent env.toEnv B.toBackend i s = ({}, s)
  files : ltQueryFiles env i s = some {}
  pause : ltPauseTorrent env.toEnv i s = some s
  resume : ltResumeTorrent env.toEnv i s = some s
  remove : ltRemoveTorrent env.toEnv i s = s

/-- Calls on an expired handle are inert. -/
theorem inert_of_expired (B : FilesBackend σ) {s : App σ} {i : ℕ} {x : TorrentHandle}
    (hi : s.gTorrentHandles[i]? = some x) {env : FilesEnv} (hx : env.expired x = true) :
    Inert B s i env := by
  obtain ⟨hlt, -⟩ := List.getElem?_eq_some_iff.mp hi
  have hread : subscript s.gTorrentHandles i = .read x := by rw [subscript, hi]
  have hvalid : env.isValid x = false := by rw [Env.isValid, hx]; rfl
  constructor
  · rw [ltQueryTorrent, hi]
    exact if_pos (by rw [hvalid]; rfl)
  · rw [ltQueryFiles, tested, if_neg (Nat.not_le_of_lt hlt), hread, Access.call, if_pos]
    rw [hvalid]
    rfl
  · rw [ltPauseTorrent, controlTorrent, hread, Access.call, if_pos]
    rw [hvalid]
    rfl
  · rw [ltResumeTorrent, controlTorrent, hread, Access.call, if_pos]
    rw [hvalid]
    rfl
  · rw [ltRemoveTorrent, hi]
    exact if_pos hx

/-- The handled part of a batch that throws at `a`, and of what comes later. -/
theorem handled_of_threw {env : Env} {a : Alert} (ha : a.outcome env = .threw)
    {pre post : List Alert} {later : List CallbackEvent} {G : IndexEvent → Prop}
    (hbatch : ∀ b ∈ pre ++ [a], G (.client (.alert env b)))
    (hlater : ∀ e ∈ later, ∀ e' ∈ e.handled, G e') :
    ∀ e ∈ (CallbackEvent.popAlerts env (pre ++ a :: post) :: later).flatMap
      CallbackEvent.handled, G e := by
  intro e he
  rw [List.flatMap_cons, List.mem_append] at he
  rcases he with hnow | hthen
  · obtain ⟨b, hb, rfl⟩ := List.mem_map.mp hnow
    exact hbatch b ((handledAlerts_of_threw ha pre post).subset hb)
  · obtain ⟨e', he', hmem⟩ := List.mem_flatMap.mp hthen
    exact hlater e' he' e hmem

/-- **A torrent whose removal was dropped stays on the list for good.** Let a batch throw before
it comes to the removal of a listed torrent, and let no removal that is handled later compare equal
to its handle: each torrent has one removal alert. Then the torrent is on the list after every run
of batches and client calls, and once its handle has expired every call on its index returns the
empty result and does nothing; `lt_remove_torrent` does not take it off the list either. -/
theorem ghost_stays (B : FilesBackend σ) {s : ClientState σ} {x : TorrentHandle}
    (hx : x ∈ s.app.gTorrentHandles) (env : Env) (pre : List Alert) {a : Alert}
    (post : List Alert) (ha : a.outcome env = .threw)
    (hbatch : ∀ b ∈ pre ++ [a], (IndexEvent.client (.alert env b)).unlists x = false)
    (later : List CallbackEvent) (hlater : ∀ e ∈ later, ∀ e' ∈ e.handled, e'.unlists x = false) :
    let s' := run (callbackStep B) s (.popAlerts env (pre ++ a :: post) :: later)
    x ∈ s'.app.gTorrentHandles ∧
      ∀ i, s'.app.gTorrentHandles[i]? = some x → ∀ fenv : FilesEnv, fenv.expired x = true →
        Inert B s'.app i fenv := by
  intro s'
  have hlisted : x ∈ s'.app.gTorrentHandles := by
    have hs' : s' = run (indexStep B) s _ := run_callbackStep B s _
    rw [hs']
    exact listed_run hx (handled_of_threw (G := fun e => e.unlists x = false) ha hbatch hlater)
  exact ⟨hlisted, fun i hi fenv hexpired => inert_of_expired B hi hexpired⟩

/-- Two torrents are removed, of which the first has expired when its removal is handled. Its log
line throws, and the second is still listed after a third was added and removed. Expired handles
are equal. -/
theorem ghost_stays_small :
    let hashes : InfoHashes := ⟨⟨List.replicate 20 0, rfl⟩, none⟩
    let env (dead : List TorrentHandle) : Env := { Env.ofDead dead with
      same := fun x y => x == y || (dead.contains x && dead.contains y) }
    let B := tableFilesBackend netstringCodec
    let s : ClientState Table := ⟨⟨[⟨some 1⟩, ⟨some 2⟩], false, .empty, []⟩, []⟩
    let later : List CallbackEvent := [.popAlerts (env [⟨some 1⟩, ⟨some 2⟩])
      [.addTorrent ⟨some 3⟩ false, .torrentRemoved ⟨some 3⟩ hashes]]
    let s' := run (callbackStep B) s (.popAlerts (env [⟨some 1⟩])
      ([] ++ .torrentRemoved ⟨some 1⟩ hashes :: [.torrentRemoved ⟨some 2⟩ hashes]) :: later)
    ⟨some 2⟩ ∈ s'.app.gTorrentHandles ∧
      ∀ i, s'.app.gTorrentHandles[i]? = some ⟨some 2⟩ → ∀ fenv : FilesEnv,
        fenv.expired ⟨some 2⟩ = true → Inert B s'.app i fenv := by
  intro hashes env B s later
  refine ghost_stays B (by simp [s]) (env [⟨some 1⟩]) [] _ (by decide) ?_ later ?_
  · simp [IndexEvent.unlists, env]
  · simp [later, CallbackEvent.handled, handledAlerts, IndexEvent.unlists, Alert.outcome, env,
      Env.ofDead]

/-! ### The row of such a torrent -/

/-- Only saves and removals reach the table. -/
theorem store_indexStep (codec : ResumeCodec) (s : ClientState Table) (e : IndexEvent) :
    (indexStep (tableFilesBackend codec) s e).app.store =
      match e with
      | .client (.alert _ a) => a.onStore (tableBackend codec) s.app.store
      | _ => s.app.store := by
  cases e with
  | client e =>
      cases e with
      | alert env a => exact store_handleAlert env (tableBackend codec) s.app a
      | queryTorrent env i =>
          simp only [indexStep, clientStep, ltQueryTorrent_eq, queryStore]
          cases s.app.gTorrentHandles[i]? with
          | none => rfl
          | some h => exact ite_self _
      | removeTorrent env i => simp only [indexStep, clientStep, ltRemoveTorrent_eq]
      | _ => rfl
  | pauseTorrent env i =>
      obtain ⟨calls, hcalls⟩ := controlTorrent_getD .pause env i s.app
      simp only [indexStep, ltPauseTorrent, hcalls]
  | resumeTorrent env i =>
      obtain ⟨calls, hcalls⟩ := controlTorrent_getD .resume env i s.app
      simp only [indexStep, ltResumeTorrent, hcalls]
  | queryFiles env i => rfl
  | queryFile query i =>
      obtain ⟨store, hstore, hsame | ⟨file, hsame⟩⟩ :=
        ltQueryFile_getD (tableFilesBackend codec) query i s.app
      · simp only [indexStep, hstore, hsame]
      · simp only [indexStep, hstore, hsame]
        rfl

end DartTorrent
