import DartTorrent.Ledger
import Mathlib.Logic.Function.Basic

/-!
# The Metadata in the Resume Data

Three alerts make the callback ask for resume data. It asks for the info dictionary with it
when the state of a torrent has changed, but not when its metadata was received or when it
has finished; and the table keeps the last answer. This module follows the requests and
their answers over the ledger.

The session side is what libtorrent promises: torrents of the session have different best
hashes, a magnet gets its metadata once, with its v2 hash if it is hybrid, and an answer
carries the current hashes, and the info dictionary exactly when the request asked for it
and the torrent has its metadata. The events of a run stand in the order in which the
alerts are posted. A request is answered at most once; nothing is assumed about the order of
the answers.

## Main results

* `savingInv_step`: the best hashes stay different, and a request asks for the dictionary
  exactly when a state change made it.
* `hasDict_step_iff`: the row of a torrent keeps the dictionary exactly when no answer to a
  request made for another reason comes to it.
* `dict_kept_iff`: the same of every run.
-/

open GuardedRun

namespace DartTorrent

/-! ### The session and the requests -/

/-- A torrent of the session: its hashes, and its info dictionary once it has metadata. -/
structure SessionTorrent where
  infoHashes : InfoHashes
  metadata : Option Bytes
deriving DecidableEq

/-- The torrents of the session, by their handles. -/
abbrev Session := TorrentHandle → Option SessionTorrent

/-- A request for resume data, with the alert whose handling made it. -/
structure SaveRequest where
  cause : Alert
  handle : TorrentHandle
  flags : ResumeDataFlags

/-- The globals over the ledger, the torrents of the session, and the requests that have not
been answered. -/
structure Saving where
  app : App Ledger
  torrents : Session
  pending : List SaveRequest

/-- A torrent joins the session; its metadata arrives; the callback handles an alert that is
no answer to a request; the session answers a request, and the callback handles that. -/
inductive SavingEvent
  | join (h : TorrentHandle) (torrent : SessionTorrent)
  | metadata (h : TorrentHandle) (info : Bytes) (v2 : Option Sha256Hash)
  | alert (env : Env) (a : Alert)
  | answer (env : Env) (i : ℕ) (params : AddTorrentParams)

/-- The hashes of a torrent whose metadata has a v2 hash, or none. -/
def InfoHashes.withV2 (infoHashes : InfoHashes) (v2 : Option Sha256Hash) : InfoHashes :=
  { infoHashes with v2 := infoHashes.v2.or v2 }

/-- The requests among the calls that the handling of an alert has made. -/
def requestsOf (cause : Alert) (calls : List HandleCall) : List SaveRequest :=
  calls.filterMap fun
    | .saveResumeData h flags => some ⟨cause, h, flags⟩
    | _ => none

/-- The torrents of the session, after one more alert. -/
def Alert.leave (torrents : Session) : Alert → Session
  | .torrentRemoved h _ => Function.update torrents h none
  | _ => torrents

/-- One event. -/
def savingStep (codec : ResumeCodec) (s : Saving) : SavingEvent → Saving
  | .join h torrent => { s with torrents := Function.update s.torrents h (some torrent) }
  | .metadata h info v2 =>
      { s with
        torrents := Function.update s.torrents h ((s.torrents h).map fun torrent =>
          ⟨torrent.infoHashes.withV2 v2, some info⟩) }
  | .alert env a =>
      let app := (handleAlert env (ledgerBackend codec) s.app a).1
      { app := app
        torrents := a.leave s.torrents
        pending := s.pending ++ requestsOf a (app.calls.drop s.app.calls.length) }
  | .answer env i params =>
      match s.pending[i]? with
      | none => s
      | some r =>
          { s with
            app := (handleAlert env (ledgerBackend codec) s.app
              (.saveResumeData r.handle params)).1
            pending := s.pending.eraseIdx i }

/-- No other torrent of the session has the best hash. -/
def HashFree (torrents : Session) (h : TorrentHandle) (infoHashes : InfoHashes) : Prop :=
  ∀ x ≠ h, ∀ torrent ∈ torrents x, torrent.infoHashes.getBest ≠ infoHashes.getBest

/-- What libtorrent promises of an event. -/
def SavingEvent.Legal (s : Saving) : SavingEvent → Prop
  | .join h torrent => s.torrents h = none ∧ HashFree s.torrents h torrent.infoHashes
  | .metadata h _ v2 => ∃ torrent ∈ s.torrents h, torrent.metadata = none ∧
      HashFree s.torrents h (torrent.infoHashes.withV2 v2)
  | .alert _ (.saveResumeData _ _) => False
  | .alert _ (.torrentRemoved h infoHashes) => ∃ torrent ∈ s.torrents h,
      torrent.infoHashes = infoHashes
  | .alert _ _ => True
  | .answer _ i params => ∃ r ∈ s.pending[i]?, ∃ torrent ∈ s.torrents r.handle,
      params.infoHashes = torrent.infoHashes ∧
        params.ti = if r.flags.saveInfoDict then torrent.metadata else none

/-- The info dictionary in a row. -/
def dictOf (codec : ResumeCodec) (row : StoredRow) : Option Bytes :=
  match codec.readResumeData row.resume with
  | .ok params => params.ti
  | .error _ => none

/-- The info dictionary in the row of a torrent. -/
def storedDict (codec : ResumeCodec) (ledger : Ledger) (h : TorrentHandle)
    (infoHashes : InfoHashes) : Option Bytes :=
  (ledger.lookup (hexText infoHashes.getBest)).bind fun owned =>
    if owned.owner = h then dictOf codec owned.row else none

/-- The torrent is in the session and has its metadata, and its row has the dictionary. -/
def HasDict (codec : ResumeCodec) (s : Saving) (h : TorrentHandle) : Prop :=
  ∃ torrent ∈ s.torrents h, ∃ info ∈ torrent.metadata,
    storedDict codec s.app.store h torrent.infoHashes = some info

/-- The event is the removal of the torrent. -/
def SavingEvent.Removes : SavingEvent → TorrentHandle → Prop
  | .alert _ (.torrentRemoved h _), x => h = x
  | _, _ => False

/-- The alert announces a change of state. -/
def Alert.isStateChange : Alert → Bool
  | .stateChanged _ => true
  | _ => false

/-- The event is not the answer to a request made for another reason than a state change,
for a torrent whose row has the dictionary. -/
def SavingEvent.Spares (codec : ResumeCodec) (s : Saving) : SavingEvent → Prop
  | .answer _ i _ => ∀ r ∈ s.pending[i]?, HasDict codec s r.handle → r.cause.isStateChange
  | _ => True

/-! ### The invariant -/

variable {codec : ResumeCodec} {s : Saving}

/-- The best hashes of the torrents are different. -/
def DistinctHashes (torrents : Session) : Prop :=
  ∀ h, ∀ torrent ∈ torrents h, HashFree torrents h torrent.infoHashes

/-- The invariant: the best hashes are different, and a request asks for the dictionary
exactly when a state change made it. -/
structure SavingInv (s : Saving) : Prop where
  distinct : DistinctHashes s.torrents
  flags : ∀ r ∈ s.pending, r.flags.saveInfoDict = r.cause.isStateChange

/-- A request that an expired handle prevents, or that is made as its cause wants it. -/
theorem flags_of_request {env : Env} {cause : Alert} {h : TorrentHandle}
    {flags : ResumeDataFlags} (hflags : flags.saveInfoDict = cause.isStateChange)
    {r : SaveRequest}
    (hr : r ∈ requestsOf cause (if env.expired h then [] else [.saveResumeData h flags])) :
    r.flags.saveInfoDict = r.cause.isStateChange := by
  split at hr
  · exact absurd hr List.not_mem_nil
  · rw [List.mem_singleton.mp hr]
    exact hflags

/-- The requests that the handling of an alert makes ask for the dictionary exactly when the
alert is a state change. -/
theorem flags_requestsOf (env : Env) (a : Alert) {r : SaveRequest}
    (hr : r ∈ requestsOf a (a.callsMade env)) : r.flags.saveInfoDict = r.cause.isStateChange := by
  cases a with
  | stateChanged h => exact flags_of_request rfl hr
  | metadataReceived h => exact flags_of_request rfl hr
  | torrentFinished h => exact flags_of_request rfl hr
  | torrentError h =>
      simp only [Alert.callsMade] at hr
      split at hr <;> exact absurd hr List.not_mem_nil
  | _ => exact absurd hr List.not_mem_nil

/-- The best hashes stay different when a torrent takes hashes that are free. -/
theorem DistinctHashes.update {torrents : Session} (hdist : DistinctHashes torrents)
    {h : TorrentHandle} {torrent : SessionTorrent}
    (hfree : HashFree torrents h torrent.infoHashes) :
    DistinctHashes (Function.update torrents h (some torrent)) := by
  intro x t ht y hy u hu
  by_cases hxh : x = h
  · subst hxh
    rw [Option.mem_def, Function.update_self] at ht
    rw [Option.mem_def, Function.update_of_ne hy] at hu
    obtain rfl := Option.some.inj ht
    exact hfree y hy u hu
  · rw [Option.mem_def, Function.update_of_ne hxh] at ht
    by_cases hyh : y = h
    · subst hyh
      rw [Option.mem_def, Function.update_self] at hu
      obtain rfl := Option.some.inj hu
      exact (hfree x hxh t ht).symm
    · rw [Option.mem_def, Function.update_of_ne hyh] at hu
      exact hdist x t ht y hy u hu

/-- A torrent that leaves takes no hash. -/
theorem mem_leave {torrents : Session} {a : Alert}
    {h : TorrentHandle} {torrent : SessionTorrent} (hmem : torrent ∈ a.leave torrents h) :
    torrent ∈ torrents h := by
  cases a with
  | torrentRemoved x infoHashes =>
      by_cases hx : h = x
      · subst hx
        rw [Option.mem_def, Alert.leave, Function.update_self] at hmem
        exact absurd hmem (by simp)
      · rwa [Option.mem_def, Alert.leave, Function.update_of_ne hx] at hmem
  | _ => exact hmem

/-- **Every event keeps the invariant.** -/
theorem savingInv_step (inv : SavingInv s) {e : SavingEvent} (he : e.Legal s) :
    SavingInv (savingStep codec s e) := by
  cases e with
  | join h torrent => exact ⟨inv.distinct.update he.2, inv.flags⟩
  | metadata h info v2 =>
      obtain ⟨torrent, htor, -, hfree⟩ := he
      refine ⟨?_, inv.flags⟩
      simp only [savingStep, Option.mem_def.mp htor, Option.map_some]
      exact inv.distinct.update hfree
  | alert env a =>
      refine ⟨fun x t ht y hy u hu => ?_, fun r hr => ?_⟩
      · exact inv.distinct x t (mem_leave ht) y hy u (mem_leave hu)
      · rcases List.mem_append.mp hr with hold | hnew
        · exact inv.flags r hold
        · rw [calls_handleAlert, List.drop_left] at hnew
          exact flags_requestsOf env a hnew
  | answer env i params =>
      simp only [savingStep]
      split
      · exact inv
      · exact ⟨inv.distinct, fun r hr => inv.flags r (List.mem_of_mem_eraseIdx hr)⟩

/-! ### What an event does to a row's dictionary -/

/-- The resume data of a saved row has the dictionary of its parameters. -/
@[simp] theorem dictOf_storedRow (params : AddTorrentParams) :
    dictOf codec (storedRow codec params) = params.ti := by
  have hread : codec.readResumeData (storedRow codec params).resume = .ok params :=
    codec.read_write params
  rw [dictOf, hread]

section Rows

variable {ledger : Ledger} {h x : TorrentHandle} {infoHashes : InfoHashes} {hash : Sha1Hash}
  {params : AddTorrentParams}

/-- A save replaces the dictionary of its own torrent. -/
theorem storedDict_update_self :
    storedDict codec ((ledgerBackend codec).update infoHashes.getBest params h ledger) h
      infoHashes = params.ti := by
  simp [storedDict, ledgerBackend, KeyedTable.lookup_replace]

/-- A save under another hash leaves the dictionary. -/
theorem storedDict_update_of_ne (hne : infoHashes.getBest ≠ hash) :
    storedDict codec ((ledgerBackend codec).update hash params h ledger) x infoHashes =
      storedDict codec ledger x infoHashes := by
  rw [storedDict, ledgerBackend, KeyedTable.lookup_replace, if_neg (hexText_injective.ne hne)]
  rfl

/-- A removal under another hash leaves the dictionary. -/
theorem storedDict_remove_of_ne (hne : infoHashes.getBest ≠ hash) :
    storedDict codec ((ledgerBackend codec).remove hash ledger) x infoHashes =
      storedDict codec ledger x infoHashes := by
  rw [storedDict, ledgerBackend, KeyedTable.lookup_delete, if_neg (hexText_injective.ne hne)]
  rfl

end Rows

/-- A torrent that is left alone, its dictionary too, has the dictionary still. -/
theorem HasDict.of_eq {s' : Saving} {h : TorrentHandle} (hdict : HasDict codec s h)
    (htorrents : s'.torrents h = s.torrents h)
    (hstored : ∀ torrent ∈ s.torrents h, storedDict codec s'.app.store h torrent.infoHashes =
      storedDict codec s.app.store h torrent.infoHashes) : HasDict codec s' h := by
  obtain ⟨torrent, htor, info, hinfo, hrow⟩ := hdict
  exact ⟨torrent, htorrents ▸ htor, info, hinfo, (hstored torrent htor).trans hrow⟩

/-- A torrent that has just joined or is without metadata has no dictionary in its row. -/
theorem not_hasDict {h : TorrentHandle}
    (hnone : ∀ torrent ∈ s.torrents h, torrent.metadata = none) : ¬ HasDict codec s h := by
  rintro ⟨torrent, htor, info, hinfo, -⟩
  rw [hnone torrent htor] at hinfo
  exact absurd hinfo (by simp)

/-- An answer stores its parameters under the best hash of the torrent that was asked. -/
theorem store_answer (codec : ResumeCodec) (env : Env) (params : AddTorrentParams) {i : ℕ}
    {r : SaveRequest} (hr : r ∈ s.pending[i]?) :
    (savingStep codec s (.answer env i params)).torrents = s.torrents ∧
      (savingStep codec s (.answer env i params)).app.store =
        (ledgerBackend codec).update params.infoHashes.getBest params r.handle s.app.store := by
  have hstep : savingStep codec s (.answer env i params) =
      { s with
        app := (handleAlert env (ledgerBackend codec) s.app (.saveResumeData r.handle params)).1
        pending := s.pending.eraseIdx i } := by
    simp only [savingStep, Option.mem_def.mp hr]
  rw [hstep]
  exact ⟨rfl, rfl⟩

/-- An answer to a request stores its own torrent's dictionary, and no other's. -/
theorem hasDict_answer_iff (inv : SavingInv s) {env : Env} {i : ℕ} {params : AddTorrentParams}
    (he : SavingEvent.Legal s (.answer env i params)) :
    (∀ x, HasDict codec s x → HasDict codec (savingStep codec s (.answer env i params)) x) ↔
      SavingEvent.Spares codec s (.answer env i params) := by
  obtain ⟨r, hr, torrent, htor, hhashes, hti⟩ := he
  obtain ⟨htorrents, hstore⟩ := store_answer codec env params hr
  rw [hhashes] at hstore
  have hflags : r.flags.saveInfoDict = r.cause.isStateChange :=
    inv.flags r (List.mem_of_getElem? hr)
  have hown : storedDict codec (savingStep codec s (.answer env i params)).app.store r.handle
      torrent.infoHashes = params.ti := by rw [hstore, storedDict_update_self]
  constructor
  · intro hkeeps r' hr' hdict
    obtain rfl := Option.mem_unique hr hr'
    obtain ⟨torrent', htor', info, -, hrow⟩ := hkeeps r.handle hdict
    rw [htorrents] at htor'
    obtain rfl := Option.mem_unique htor htor'
    rw [hown, hti] at hrow
    rw [← hflags]
    by_contra hflag
    rw [if_neg hflag] at hrow
    exact absurd hrow (by simp)
  · intro hspares x hdict
    by_cases hx : x = r.handle
    · subst hx
      have hchange := hspares r hr hdict
      obtain ⟨torrent', htor', info, hinfo, -⟩ := hdict
      obtain rfl := Option.mem_unique htor htor'
      refine ⟨torrent, htorrents ▸ htor, info, hinfo, ?_⟩
      rw [hown, hti, if_pos (hflags.trans hchange)]
      exact hinfo
    · refine hdict.of_eq (congrFun htorrents x) fun torrent' htor' => ?_
      rw [hstore, storedDict_update_of_ne (inv.distinct _ _ htor x hx torrent' htor')]

/-- **One event** takes the dictionary of no row, but for the row of a torrent it removes,
exactly when it is not the answer to a request made without a state change. -/
theorem hasDict_step_iff (inv : SavingInv s) {e : SavingEvent} (he : e.Legal s) :
    (∀ x, HasDict codec s x → ¬ e.Removes x → HasDict codec (savingStep codec s e) x) ↔
      e.Spares codec s := by
  cases e with
  | join h torrent =>
      refine iff_of_true (fun x hdict _ => ?_) trivial
      have hx : x ≠ h := by
        rintro rfl
        exact not_hasDict (by simp [he.1]) hdict
      exact hdict.of_eq (Function.update_of_ne hx _ _) fun _ _ => rfl
  | metadata h info v2 =>
      refine iff_of_true (fun x hdict _ => ?_) trivial
      obtain ⟨torrent, htor, hnone, -⟩ := he
      have hx : x ≠ h := by
        rintro rfl
        refine not_hasDict (fun t ht => ?_) hdict
        rwa [Option.mem_unique ht htor]
      exact hdict.of_eq (Function.update_of_ne hx _ _) fun _ _ => rfl
  | alert env a =>
      refine iff_of_true (fun x hdict hx => ?_) trivial
      have hstore : (savingStep codec s (.alert env a)).app.store =
          a.onStore (ledgerBackend codec) s.app.store := store_handleAlert _ _ _ _
      cases a with
      | saveResumeData h params => exact absurd he id
      | torrentRemoved h infoHashes =>
          have hne : x ≠ h := fun heq => hx heq.symm
          obtain ⟨torrent, htor, rfl⟩ := he
          refine hdict.of_eq (Function.update_of_ne hne _ _) fun torrent' htor' => ?_
          rw [hstore]
          exact storedDict_remove_of_ne (inv.distinct h torrent htor x hne torrent' htor')
      | _ => exact hdict.of_eq rfl fun _ _ => congrArg (storedDict codec · _ _) hstore
  | answer env i params =>
      refine Iff.trans (forall_congr' fun x => ?_) (hasDict_answer_iff inv he)
      exact ⟨fun h hdict => h hdict id, fun h hdict _ => h hdict⟩

/-! ### Runs -/

/-- From any point of the run where the row of a torrent holds its info dictionary, it does
so until the removal of the torrent is handled. -/
def DictKept (codec : ResumeCodec) (s : Saving) (events : List SavingEvent) : Prop :=
  ∀ pre mid post, events = pre ++ (mid ++ post) → ∀ h,
    HasDict codec (run (savingStep codec) s pre) h → (∀ e ∈ mid, ¬ e.Removes h) →
    HasDict codec (run (savingStep codec) s (pre ++ mid)) h

/-- Before any torrent has joined. -/
def Saving.start (app : App Ledger) : Saving := ⟨app, fun _ => none, []⟩

/-- **Saved metadata is kept exactly when no answer without it comes in.** In every run of
alerts of any torrents, in any order, with every request answered at most once: from any
point where the row of a torrent holds its info dictionary, it does so until the removal of
the torrent is handled, if and only if no answer to a request that a metadata received or a
torrent finished alert made for a torrent is handled while the torrent's row holds its info
dictionary. -/
theorem dict_kept_iff (codec : ResumeCodec) (app : App Ledger) (events : List SavingEvent)
    (hlegal : Along (savingStep codec) SavingEvent.Legal (.start app) events) :
    DictKept codec (.start app) events ↔
      Along (savingStep codec) (SavingEvent.Spares codec) (.start app) events := by
  rw [DictKept, ← along_keeps_iff]
  have hstart : SavingInv (.start app) :=
    ⟨fun _ _ h => absurd h (by simp [Saving.start]), fun _ h => absurd h List.not_mem_nil⟩
  refine along_iff_of_inv ?_ ?_ hstart hlegal
  · exact fun s e inv he _ => savingInv_step inv he
  · exact fun s e inv he => hasDict_step_iff inv he

/-- The first torrent of the session has any hashes free. -/
theorem hashFree_first (h : TorrentHandle) (torrent : Option SessionTorrent)
    (infoHashes : InfoHashes) :
    HashFree (Function.update (fun _ => none) h torrent) h infoHashes := by
  intro x hx t ht
  rw [Option.mem_def, Function.update_of_ne hx] at ht
  exact absurd ht (by simp)

/-- A hybrid magnet gets its metadata and changes state, the request for the dictionary is
answered, and the torrent is removed. -/
theorem dict_kept_run :
    let h : TorrentHandle := ⟨some 1⟩
    let params : AddTorrentParams := { infoHashes := hybridHashes, ti := some [120] }
    let events : List SavingEvent := [.join h ⟨magnetHashes, none⟩,
      .metadata h [120] hybridHashes.v2, .alert (.ofDead []) (.stateChanged h),
      .answer (.ofDead []) 0 params, .alert (.ofDead []) (.torrentRemoved h hybridHashes)]
    DictKept netstringCodec (.start (.start .empty)) events ↔
      Along (savingStep netstringCodec) (SavingEvent.Spares netstringCodec)
        (.start (.start .empty)) events := by
  refine dict_kept_iff netstringCodec (.start .empty) _ ⟨⟨rfl, ?_⟩, ⟨_, rfl, rfl, ?_⟩, trivial,
    ⟨_, rfl, _, rfl, rfl, rfl⟩, ⟨_, rfl, rfl⟩, trivial⟩
  · exact fun _ _ _ ht => absurd ht (by simp [Saving.start])
  · exact hashFree_first _ _ _

/-- **The dictionary is lost when the download finishes.** The torrent has its metadata. It
changes state and finishes: the first request is answered with the dictionary, the second
without, and the row keeps the second answer. -/
theorem finished_loses_dict :
    let h : TorrentHandle := ⟨some 1⟩
    let params : AddTorrentParams := { infoHashes := magnetHashes }
    let events : List SavingEvent := [.join h ⟨magnetHashes, none⟩, .metadata h [120] none,
      .alert (.ofDead []) (.stateChanged h), .alert (.ofDead []) (.torrentFinished h),
      .answer (.ofDead []) 0 { params with ti := some [120] }, .answer (.ofDead []) 0 params]
    Along (savingStep netstringCodec) SavingEvent.Legal (.start (.start .empty)) events ∧
      ¬ DictKept netstringCodec (.start (.start .empty)) events := by
  intro h params events
  refine ⟨⟨⟨rfl, ?_⟩, ⟨_, rfl, rfl, ?_⟩, trivial, trivial, ⟨_, rfl, _, rfl, rfl, rfl⟩,
    ⟨_, rfl, _, rfl, rfl, rfl⟩, trivial⟩, fun hkept => ?_⟩
  · exact fun _ _ _ ht => absurd ht (by simp [Saving.start])
  · exact hashFree_first _ _ _
  · have hbefore : HasDict netstringCodec
        (run (savingStep netstringCodec) (.start (.start .empty)) (events.take 5)) h :=
      ⟨_, rfl, _, rfl, by decide +kernel⟩
    have hnone : storedDict netstringCodec (run (savingStep netstringCodec)
        (.start (.start .empty)) events).app.store h magnetHashes = none := by decide +kernel
    obtain ⟨torrent, htor, info, -, hafter⟩ := hkept (events.take 5) (events.drop 5) [] rfl h
      hbefore (by simp [events, SavingEvent.Removes])
    obtain rfl : ⟨magnetHashes, some [120]⟩ = torrent := Option.some.inj htor
    exact absurd (hnone.symm.trans hafter) (by simp)

end DartTorrent
