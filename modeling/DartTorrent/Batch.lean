import DartTorrent.Callback

/-!
# One Batch of Alerts

The alerts of one `pop_alerts` are gone from the session, so an exception that leaves the
loop of the callback drops the alerts behind it. Four kinds of alert call into their handle
without asking whether it is valid: state changed, metadata received, torrent finished and
torrent removed. `idealAlert` is what the handling of an alert comes to when an expired
handle makes the call itself a no-op and nothing else.

## Main results

* `handleAlert_of_not_callsExpired` / `handleAlert_of_callsExpired`: what one alert does.
* `handlesAll_iff_only_last`: a batch is handled like the alerts one after the other, none
  dropped, if and only if no alert but the last calls into an expired handle, and the last
  is not a metadata received alert that had the flag still to raise.
-/

namespace DartTorrent

variable {σ : Type*} {env : Env} {B : Backend σ} {s : App σ}

/-- The handle that an alert's handling calls into without asking whether it is valid. -/
def Alert.calledHandle : Alert → Option TorrentHandle
  | .stateChanged h => some h
  | .metadataReceived h => some h
  | .torrentFinished h => some h
  | .torrentRemoved h _ => some h
  | _ => none

/-- The handling of the alert calls into an expired handle. -/
def Alert.CallsExpired (env : Env) (a : Alert) : Prop := ∃ h ∈ a.calledHandle, env.expired h

/-- The alert announces metadata. -/
def Alert.isMetadata : Alert → Bool
  | .metadataReceived _ => true
  | _ => false

/-- A save request that an expired handle makes a no-op. -/
def requestSave (env : Env) (h : TorrentHandle) (flags : ResumeDataFlags) (s : App σ) : App σ :=
  if env.expired h then s else { s with calls := s.calls ++ [.saveResumeData h flags] }

/-- What the handling of one alert should come to: an expired handle at most makes its own
save request or log line a no-op. -/
def idealAlert (env : Env) (B : Backend σ) (s : App σ) : Alert → App σ
  | .stateChanged h => requestSave env h { saveInfoDict := true, onlyIfModified := true } s
  | .metadataReceived h => { requestSave env h {} s with gNeedUpdate := true }
  | .torrentFinished h => requestSave env h {} s
  | .saveResumeData h params =>
      { s with store := B.update params.infoHashes.getBest params h s.store }
  | .torrentRemoved h infoHashes =>
      { s with
        store := B.remove infoHashes.getBest s.store
        gTorrentHandles := s.gTorrentHandles.filter fun x => !env.same x h }
  | .torrentError h =>
      if env.isValid h && env.paused h then { s with calls := s.calls ++ [.resume h] } else s
  | .addTorrent h _ =>
      if s.gTorrentHandles.any fun x => env.same x h then s
      else { s with gTorrentHandles := h :: s.gTorrentHandles, gNeedUpdate := true }
  | .saveResumeDataFailed _ => s
  | .other => s

/-- The alerts handled one after the other. -/
def idealBatch (env : Env) (B : Backend σ) (s : App σ) (alerts : List Alert) : App σ :=
  alerts.foldl (idealAlert env B) s

/-- Two states agree on the list, the flag and the resume data. -/
def App.Agree (s s' : App σ) : Prop :=
  s.gTorrentHandles = s'.gTorrentHandles ∧ s.gNeedUpdate = s'.gNeedUpdate ∧ s.store = s'.store

/-- The callback handles every alert of the batch, and the list, the flag and the resume
data are what handling the alerts one after the other makes them. -/
def HandlesAll (env : Env) (B : Backend σ) (s : App σ) (alerts : List Alert) : Prop :=
  (handleBatch env B s alerts).2 = [] ∧
    (handleBatch env B s alerts).1.Agree (idealBatch env B s alerts)

/-- No alert but the last calls into an expired handle, and if the last one does and
announces metadata, the flag is up when it is its turn. -/
def OnlyLastCallsExpired (env : Env) (B : Backend σ) (s : App σ) (alerts : List Alert) : Prop :=
  ∀ pre a post, alerts = pre ++ a :: post → a.CallsExpired env →
    post = [] ∧ (a.isMetadata → (idealBatch env B s pre).gNeedUpdate)

/-! ### One alert -/

/-- An alert that calls into no expired handle is handled, and the loop goes on. -/
theorem handleAlert_of_not_callsExpired {a : Alert} (h : ¬ a.CallsExpired env) :
    handleAlert env B s a = (idealAlert env B s a, .next) := by
  have hvalid : ∀ x ∈ a.calledHandle, env.expired x = false := fun x hx =>
    Bool.eq_false_iff.mpr fun hexp => h ⟨x, hx, hexp⟩
  cases a with
  | stateChanged x =>
      simp only [handleAlert, callSaveResumeData, idealAlert, requestSave, hvalid x rfl]
      rfl
  | metadataReceived x =>
      simp only [handleAlert, callSaveResumeData, idealAlert, requestSave, hvalid x rfl]
      rfl
  | torrentFinished x =>
      simp only [handleAlert, callSaveResumeData, idealAlert, requestSave, hvalid x rfl]
      rfl
  | torrentRemoved x ih =>
      simp only [handleAlert, idealAlert, hvalid x rfl]
      rfl
  | torrentError x =>
      simp only [handleAlert, idealAlert]
      cases env.isValid x <;> cases env.paused x <;> rfl
  | addTorrent x error =>
      simp only [handleAlert, idealAlert]
      split <;> rfl
  | saveResumeData x params => rfl
  | saveResumeDataFailed x => rfl
  | other => rfl

/-- An alert that calls into an expired handle leaves the loop. All it fails to do is to
raise the flag, if it announces metadata. -/
theorem handleAlert_of_callsExpired {a : Alert} (h : a.CallsExpired env) :
    (handleAlert env B s a).2 = .threw ∧
      ((handleAlert env B s a).1.Agree (idealAlert env B s a) ↔
        (a.isMetadata → s.gNeedUpdate)) := by
  obtain ⟨x, hx, hexp⟩ := h
  cases a with
  | stateChanged y =>
      obtain rfl : y = x := Option.some.inj hx
      simp [handleAlert, callSaveResumeData, idealAlert, requestSave, hexp, App.Agree,
        Alert.isMetadata]
  | metadataReceived y =>
      obtain rfl : y = x := Option.some.inj hx
      simp [handleAlert, callSaveResumeData, idealAlert, requestSave, hexp, App.Agree,
        Alert.isMetadata]
  | torrentFinished y =>
      obtain rfl : y = x := Option.some.inj hx
      simp [handleAlert, callSaveResumeData, idealAlert, requestSave, hexp, App.Agree,
        Alert.isMetadata]
  | torrentRemoved y ih =>
      obtain rfl : y = x := Option.some.inj hx
      simp [handleAlert, idealAlert, hexp, App.Agree, Alert.isMetadata]
  | _ => exact absurd hx (by simp [Alert.calledHandle])

/-! ### The loop -/

theorem handleBatch_cons_of_next {a : Alert} {s' : App σ}
    (h : handleAlert env B s a = (s', .next)) (alerts : List Alert) :
    handleBatch env B s (a :: alerts) = handleBatch env B s' alerts := by
  rw [handleBatch, h]

theorem handleBatch_cons_of_threw {a : Alert} (h : (handleAlert env B s a).2 = .threw)
    (alerts : List Alert) :
    handleBatch env B s (a :: alerts) = ((handleAlert env B s a).1, alerts) := by
  rcases hs : handleAlert env B s a with ⟨s', outcome⟩
  rw [hs] at h
  obtain rfl : outcome = .threw := h
  rw [handleBatch, hs]

/-- The condition on a batch, by its first alert. -/
theorem onlyLastCallsExpired_cons {a : Alert} {alerts : List Alert} :
    OnlyLastCallsExpired env B s (a :: alerts) ↔
      (a.CallsExpired env → alerts = [] ∧ (a.isMetadata → s.gNeedUpdate)) ∧
        OnlyLastCallsExpired env B (idealAlert env B s a) alerts := by
  constructor
  · intro h
    refine ⟨h [] a alerts rfl, fun pre b post heq hb => ?_⟩
    exact h (a :: pre) b post (congrArg (a :: ·) heq) hb
  · rintro ⟨hhead, hrest⟩ pre b post heq hb
    cases pre with
    | nil =>
        obtain ⟨rfl, rfl⟩ := List.cons_eq_cons.mp heq
        exact hhead hb
    | cons a' pre =>
        obtain ⟨rfl, rfl⟩ := List.cons_eq_cons.mp heq
        exact hrest pre b post rfl hb

/-- **A batch is handled in full exactly when an expired handle comes last.** For every list
of alerts and every set of expired handles, the callback drops no alert and leaves the list,
the flag and the resume data as handling the alerts one after the other would, if and only
if no alert but the last calls into an expired handle, and if the last one does and
announces metadata, the flag is already up. -/
theorem handlesAll_iff_only_last (env : Env) (B : Backend σ) (s : App σ) (alerts : List Alert) :
    HandlesAll env B s alerts ↔ OnlyLastCallsExpired env B s alerts := by
  induction alerts generalizing s with
  | nil =>
      refine ⟨fun _ pre a post heq => ?_, fun _ => ⟨rfl, rfl, rfl, rfl⟩⟩
      exact absurd heq (by simp)
  | cons a alerts ih =>
      rw [onlyLastCallsExpired_cons, ← ih]
      by_cases ha : a.CallsExpired env
      · obtain ⟨hthrew, hagree⟩ := handleAlert_of_callsExpired (B := B) (s := s) ha
        simp only [HandlesAll, handleBatch_cons_of_threw hthrew, idealBatch, List.foldl_cons]
        constructor
        · rintro ⟨rfl, h⟩
          exact ⟨fun _ => ⟨rfl, hagree.mp h⟩, rfl, rfl, rfl, rfl⟩
        · rintro ⟨h, -⟩
          obtain ⟨rfl, hflag⟩ := h ha
          exact ⟨rfl, hagree.mpr hflag⟩
      · have hnext := handleAlert_of_not_callsExpired (B := B) (s := s) ha
        simp only [HandlesAll, handleBatch_cons_of_next hnext, idealBatch, List.foldl_cons]
        exact ⟨fun h => ⟨fun hc => absurd hc ha, h⟩, And.right⟩

/-- **An add behind a removal is lost.** The removed torrent's handle has expired when its
alert is handled: the log line throws, and the add that was posted after it is dropped. -/
theorem handleBatch_drops_add :
    let removed : TorrentHandle := ⟨some 1⟩
    let added : TorrentHandle := ⟨some 2⟩
    let hashes : InfoHashes := ⟨⟨List.replicate 20 0, rfl⟩, none⟩
    let alerts : List Alert := [.torrentRemoved removed hashes, .addTorrent added false]
    let env := Env.ofDead [removed]
    let B := tableBackend netstringCodec
    (handleBatch env B (.start .empty) alerts).1.gTorrentHandles = [] ∧
      (idealBatch env B (.start .empty) alerts).gTorrentHandles = [added] ∧
      ¬ HandlesAll env B (.start .empty) alerts := by
  refine ⟨rfl, rfl, fun h => ?_⟩
  exact absurd h.2.1 (by decide)

end DartTorrent
