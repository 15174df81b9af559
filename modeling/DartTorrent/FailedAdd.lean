import DartTorrent.Callback

/-!
# Failed Adds

An add that fails is announced by an `add_torrent_alert` too: its error is set, and its
handle is default-constructed. The callback does not look at the error and puts the handle
on the list, unless an entry of the list is equal to it. The entry refers to no torrent:
`lt_remove_torrent` cannot remove it, and no removal alert carries its handle.

## Main results

* `failedAdds_unseen_iff`: in every run of alerts, the list is at every point the one of the
  run without its failed adds, and its entries can be removed, if and only if every failed
  add meets an entry that is equal to its handle.
* `failedAdd_listed`: a failed add that shifts the list.
-/

open GuardedRun

namespace DartTorrent

variable {σ : Type*} {B : Backend σ}

/-! ### Runs of alerts -/

/-- The callback handles one alert, the handles answering as `e.1` says. -/
def alertStep (B : Backend σ) (s : App σ) (e : Env × Alert) : App σ :=
  (handleAlert e.1 B s e.2).1

/-- An `add_torrent_alert` whose error is set. -/
def Alert.isFailedAdd : Alert → Bool
  | .addTorrent _ error => error
  | _ => false

/-- What libtorrent promises of its alerts. A failed add carries a default-constructed
handle, which is invalid and equal only to invalid ones; a successful add and a removal carry
the handle of their torrent. A handle is equal to itself. -/
def Promised (e : Env × Alert) : Prop :=
  (∀ h, e.1.same h h = true) ∧
    match e.2 with
    | .addTorrent h true =>
        h.torrent = none ∧ e.1.expired h = true ∧ ∀ x, e.1.same x h = true → e.1.expired x = true
    | .addTorrent h false => h.torrent ≠ none
    | .torrentRemoved h _ => h.torrent ≠ none
    | _ => True

/-- Every entry of the list can be removed: it refers to a torrent; `lt_remove_torrent`
passes its handle to the session unless the torrent is gone already; and the removal alert
takes the entry off the list. -/
def EntriesRemovable (B : Backend σ) (s : App σ) : Prop :=
  ∀ i x, s.gTorrentHandles[i]? = some x → x.torrent ≠ none ∧
    ∀ env : Env, (∀ h, env.same h h = true) →
      let s' := ltRemoveTorrent env i s
      (env.expired x = false → s'.calls = s.calls ++ [.removeTorrent x]) ∧
        ∀ hashes, x ∉ (handleAlert env B s' (.torrentRemoved x hashes)).1.gTorrentHandles

/-- A failed add meets an entry that is equal to its handle. -/
def FailedAddListed (s : App σ) (e : Env × Alert) : Prop :=
  match e.2 with
  | .addTorrent h true => ∃ x ∈ s.gTorrentHandles, e.1.same x h = true
  | _ => True

/-! ### The list -/

/-- A failed add leaves the list as it is exactly when it meets an equal entry. -/
theorem onList_failedAdd_iff (s : App σ) (e : Env × Alert) :
    ((!e.2.isFailedAdd) = false → e.2.onList e.1 s.gTorrentHandles = s.gTorrentHandles) ↔
      FailedAddListed s e := by
  obtain ⟨env, a⟩ := e
  cases a with
  | addTorrent h error =>
      cases error with
      | false => exact iff_of_true (fun hkept => absurd hkept Bool.noConfusion) trivial
      | true =>
          have hcons : h :: s.gTorrentHandles ≠ s.gTorrentHandles := List.cons_ne_self h _
          have hany : FailedAddListed s (env, .addTorrent h true) ↔
              (s.gTorrentHandles.any fun x => env.same x h) = true := List.any_eq_true.symm
          rw [hany]
          by_cases hlisted : (s.gTorrentHandles.any fun x => env.same x h) = true
          · exact iff_of_true (fun _ => if_pos hlisted) hlisted
          · refine iff_of_false (fun hsame => ?_) hlisted
            have hlist := hsame rfl
            rw [Alert.onList, if_neg hlisted] at hlist
            exact hcons hlist
  | _ => exact iff_of_true (fun hkept => absurd hkept Bool.noConfusion) trivial

/-- An entry that refers to a torrent can be removed. -/
theorem entriesRemovable_of_torrent {s : App σ}
    (h : ∀ x ∈ s.gTorrentHandles, x.torrent ≠ none) : EntriesRemovable B s := by
  intro i x hx
  refine ⟨h x (List.mem_of_getElem? hx), fun env hrefl => ?_⟩
  intro s'
  have hs' : s' = { s with calls := s.calls ++ removeCalls env s.gTorrentHandles i } :=
    ltRemoveTorrent_eq env i s
  constructor
  · intro hlive
    rw [hs', removeCalls, hx]
    simp [hlive]
  · intro hashes hmem
    rw [gTorrentHandles_handleAlert, Alert.onList, List.mem_filter, hrefl x] at hmem
    exact absurd hmem.2 Bool.noConfusion

/-- An alert whose failed add is listed already keeps the list free of handles that refer to
no torrent. -/
theorem torrents_alertStep {s : App σ} {e : Env × Alert}
    (h : ∀ x ∈ s.gTorrentHandles, x.torrent ≠ none) (he : Promised e)
    (hlisted : FailedAddListed s e) :
    ∀ x ∈ (alertStep B s e).gTorrentHandles, x.torrent ≠ none := by
  rw [alertStep, gTorrentHandles_handleAlert]
  have hkept := (onList_failedAdd_iff s e).mpr hlisted
  obtain ⟨env, a⟩ := e
  cases a with
  | torrentRemoved y hashes => exact fun x hx => h x (List.mem_of_mem_filter hx)
  | addTorrent y error =>
      cases error with
      | true =>
          rw [hkept rfl]
          exact h
      | false =>
          rw [Alert.onList]
          split
          · exact h
          · exact List.forall_mem_cons.mpr ⟨he.2, h⟩
  | _ => exact h

/-! ### Every run -/

/-- **Failed adds leave no trace exactly when they meet an equal entry.** In every run of
alerts of any kinds in any order: at every point the list and its length are those of the
run with all failed adds deleted, and every entry can be removed by `lt_remove_torrent` and
its removal alert, if and only if every failed add is handled while the list has an entry
equal to its handle (an expired one, by what libtorrent promises). -/
theorem failedAdds_unseen_iff (B : Backend σ) (store : σ) (events : List (Env × Alert))
    (hprom : ∀ e ∈ events, Promised e) :
    (∀ pre post, events = pre ++ post →
        let s := run (alertStep B) (App.start store) pre
        let s' := run (alertStep B) (App.start store) (pre.filter fun e => !e.2.isFailedAdd)
        s.gTorrentHandles = s'.gTorrentHandles ∧ ltNTorrents s = ltNTorrents s' ∧
          EntriesRemovable B s) ↔
      Along (alertStep B) FailedAddListed (App.start store) events := by
  have hview : ∀ (s : App σ) (e : Env × Alert),
      (alertStep B s e).gTorrentHandles = e.2.onList e.1 s.gTorrentHandles :=
    fun s e => gTorrentHandles_handleAlert _ _ _ _
  have hiff := view_run_filter_iff App.gTorrentHandles (fun handles e => e.2.onList e.1 handles)
    hview (fun e => !e.2.isFailedAdd) (App.start store) events
  constructor
  · intro h
    refine (hiff.mp fun pre post heq => (h pre post heq).1).mono fun s e => ?_
    exact (onList_failedAdd_iff s e).mp
  · intro h pre post heq
    have hlist := hiff.mpr (h.mono fun s e => (onList_failedAdd_iff s e).mpr) pre post heq
    refine ⟨hlist, congrArg List.length hlist, entriesRemovable_of_torrent ?_⟩
    have hguard := along_and.mpr ⟨along_of_forall_mem hprom, h⟩
    rw [heq] at hguard
    have hstart : ∀ x ∈ (App.start store).gTorrentHandles, x.torrent ≠ none :=
      fun x hx => absurd hx List.not_mem_nil
    have hstep : ∀ (s : App σ) (e : Env × Alert), (∀ x ∈ s.gTorrentHandles, x.torrent ≠ none) →
        (Promised e ∧ FailedAddListed s e) →
        ∀ x ∈ (alertStep B s e).gTorrentHandles, x.torrent ≠ none :=
      fun s e hs he => torrents_alertStep hs he.1 he.2
    exact inv_run hstep hstart (along_append.mp hguard).1

/-- An add, a failed add that meets an expired entry, and the removal of that entry. -/
theorem failedAdds_unseen_run :
    let gone : TorrentHandle := ⟨some 1⟩
    let hashes : InfoHashes := ⟨⟨List.replicate 20 0, rfl⟩, none⟩
    let env : Env := { Env.ofDead [gone, ⟨none⟩] with
      same := fun x y => x == y || (x ∈ [gone, ⟨none⟩] && y ∈ [gone, ⟨none⟩]) }
    let events : List (Env × Alert) := [(Env.ofDead [], .addTorrent gone false),
      (env, .addTorrent ⟨none⟩ true), (env, .torrentRemoved gone hashes)]
    let B := tableBackend netstringCodec
    ∀ pre post, events = pre ++ post →
      let s := run (alertStep B) (App.start .empty) pre
      let s' := run (alertStep B) (App.start .empty) (pre.filter fun e => !e.2.isFailedAdd)
      s.gTorrentHandles = s'.gTorrentHandles ∧ ltNTorrents s = ltNTorrents s' ∧
        EntriesRemovable B s := by
  intro gone hashes env events B
  refine (failedAdds_unseen_iff B .empty events ?_).mpr ?_
  · simp [events, Promised, env, Env.ofDead, gone]
  · exact ⟨trivial, ⟨gone, List.mem_singleton_self _, rfl⟩, trivial, trivial⟩

/-- **A failed add is listed.** A torrent is added and another add fails: the list has an
entry in front of the torrent that `lt_remove_torrent` does not remove. -/
theorem failedAdd_listed :
    let torrent : TorrentHandle := ⟨some 1⟩
    let env := Env.ofDead [⟨none⟩]
    let events : List (Env × Alert) := [(env, .addTorrent torrent false),
      (env, .addTorrent ⟨none⟩ true)]
    let B := tableBackend netstringCodec
    let s := run (alertStep B) (App.start .empty) events
    let s' := run (alertStep B) (App.start .empty) (events.filter fun e => !e.2.isFailedAdd)
    (∀ e ∈ events, Promised e) ∧ s.gTorrentHandles = [⟨none⟩, torrent] ∧
      s'.gTorrentHandles = [torrent] ∧ ltNTorrents s ≠ ltNTorrents s' ∧
      (ltRemoveTorrent env 0 s).calls = s.calls := by
  intro torrent env events B s s'
  refine ⟨?_, rfl, rfl, by decide, rfl⟩
  simp [events, Promised, env, Env.ofDead, torrent]

end DartTorrent
