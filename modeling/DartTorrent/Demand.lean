import DartTorrent.Program
import DartTorrent.Window

/-!
# What the Process Asks of the Arena

Every string that a query hands to the client stands in the arena, and so does everything else
that the process builds there: the text of a hash, for a save, a removal and each row that the load
submits, and the resume data of a save with all the blocks that it has grown out of. This module
follows the requests of the whole process, through the load, the callback, the resume store and the
queries, and says how long a string stays.

## Main results

* `spends_ltUpdateResumeData`: a save makes the requests of a hash and of a buffer that doubles,
  and writes to their blocks only.
* `process_indexStep`: an alert or a client call makes a call of the resume store, or caches the two
  strings of a query, or leaves the process as it is.
* `spends_programStep`: a step of the load, an alert or a client call makes its requests, whatever
  its SQLite calls return.
* `query_kept`: in every run of the program, the strings of a query stay as long as what is
  requested from it on, with the largest request once more, is not more than the arena.
-/

open ByteStore BumpArena GuardedRun

namespace DartTorrent

variable {t : Target} {P : Placement t} {pol : StreamPolicy} {codec : ResumeCodec}
  {g g' : StrState} {ns : List ℕ}

/-! ### The resume store -/

/-- The requests of a vector that `n` bytes are appended to one by one. -/
def vectorRequests (n : ℕ) : List ℕ := growthRequests (growths n)

/-- The pushes write to the blocks of the growths only. -/
theorem agreesOff_pushAll {c : P.Cursor} {s : CharV × StrState} (inv : VecInv P c s) {bs : Bytes}
    {n : ℕ} (hn : s.1.size + bs.length ≤ n) (hle : n ≤ memBlockSize) :
    AgreesOff (blocksFrom P.base P.stop c.pos (vectorRequests n)) s.2.mem
      (run (pushStep t) s bs).2.mem := by
  induction bs generalizing s with
  | nil => exact AgreesOff.refl _ _
  | cons b bs ih =>
      rw [List.length_cons] at hn
      have hsize : s.1.size < memBlockSize := by omega
      have hlater := ih (inv.push hsize b) (by rw [size_pushStep]; omega)
      refine AgreesOff.trans_same ?_ hlater
      -- the growth that this byte needs is one of the growths of `n` bytes
      have hgrowth : Nat.clog 2 (s.1.size + 1) < growths n := by
        rw [growths, if_neg (by omega)]
        exact Nat.lt_succ_of_le (Nat.clog_mono_right 2 (by omega))
      have hfits : s.1.size + 1 ≤ 2 ^ Nat.clog 2 (s.1.size + 1) :=
        Nat.le_pow_clog Nat.one_lt_two _
      refine (agreesOff_pushStep s b).of_within fun sp hsp => ?_
      obtain ⟨hstart, hstop⟩ := inv.pushSpans_within hsize sp hsp
      refine ⟨_, growth_mem_blocksFrom P.base P.stop c.pos hgrowth, hstart, hstop.trans ?_⟩
      simp only [Span.stop]
      omega

/-- **Building resume data** makes the requests of its growths. -/
theorem spends_pushAll (P : Placement t) (g : StrState) {bs : Bytes}
    (hle : bs.length ≤ memBlockSize) :
    Spends P (vectorRequests bs.length) g (pushAll t bs g).2 := by
  refine ⟨fun c hc => ?_, fun c hc => ?_, gHashCache_pushAll _ _⟩
  · obtain ⟨inv, hsize⟩ := vecInv_of_pushAll (t := t) c hc hle
    obtain ⟨c', hblock, hpos⟩ := inv.block
    exact ⟨c', hblock, by rw [hpos, hsize]; rfl⟩
  · exact agreesOff_pushAll (vecInv_empty hc) (Nat.zero_add _).le hle

/-- **A save** makes the requests of a hash and of its resume data, whatever its SQLite calls
return. -/
theorem spends_ltUpdateResumeData (P : Placement t) (pol : StreamPolicy) (codec : ResumeCodec)
    (r : UpdateResults) {hash : Sha1Hash} {params : AddTorrentParams} {p : Process}
    (hmiss : ∀ h, p.str.gHashCache h = none)
    (hle : (codec.writeResumeData params).length ≤ memBlockSize) :
    Spends P (pol.requests ++ vectorRequests (codec.writeResumeData params).length) p.str
      (ltUpdateResumeData t pol codec r hash params p).str :=
  (spends_ltHashStr P pol hash hmiss).trans (spends_pushAll P _ hle)

/-- **A removal** makes the requests of a hash. -/
theorem spends_ltRemoveResumeData (P : Placement t) (pol : StreamPolicy) (r : RemoveResults)
    {hash : Sha1Hash} {p : Process} (hmiss : ∀ h, p.str.gHashCache h = none) :
    Spends P pol.requests p.str (ltRemoveResumeData t pol r hash p).str :=
  spends_ltHashStr P pol hash hmiss

/-! ### Queries -/

/-- The requests of the two calls of a query. -/
def pairRequests (t : Target) (pol : StreamPolicy) (name path : Bytes) (g : StrState) : List ℕ :=
  (CacheOp.string name).requests t pol g ++
    (CacheOp.string path).requests t pol (ltCachedStrImpl t name g).2

theorem spends_cachedPair (P : Placement t) (pol : StreamPolicy) {name path : Bytes}
    (hmiss : ∀ h, g.gHashCache h = none)
    (hfits : ∀ n ∈ pairRequests t pol name path g, n ≤ memBlockSize) :
    Spends P (pairRequests t pol name path g) g (cachedPair t name path g).2 := by
  obtain ⟨hname, hpath⟩ := List.forall_mem_append.mp hfits
  have hserved : Along (serveStep t pol) (fun s op => op.Servable t pol s) ⟨⟨g, [], []⟩, []⟩
      [.string name, .string path] := ⟨⟨hname, trivial⟩, ⟨hpath, trivial⟩, trivial⟩
  have hrun := spends_serve P ⟨⟨g, [], []⟩, []⟩ [.string name, .string path] hmiss hserved
    (by simp [CacheOp.WritesFrom])
  rwa [requestsAlong, requestsAlong, requestsAlong, List.append_nil] at hrun

/-! ### Events -/

/-- The call of the resume store that an event makes, if it makes one. -/
def IndexEvent.storeOp : IndexEvent → Option StoreOp
  | .client (.alert _ (.saveResumeData _ params)) =>
      some (.update params.infoHashes.getBest params)
  | .client (.alert _ (.torrentRemoved _ infoHashes)) => some (.remove infoHashes.getBest)
  | _ => none

/-- The requests that an event makes to `lt_allocate`. -/
def IndexEvent.requests (t : Target) (pol : StreamPolicy) (codec : ResumeCodec)
    (s : ClientState Process) (e : IndexEvent) : List ℕ :=
  match e.storeOp, e.strings s with
  | some (.update _ params), _ =>
      pol.requests ++ vectorRequests (codec.writeResumeData params).length
  | some (.remove _), _ => pol.requests
  | none, some (name, path) => pairRequests t pol name path s.app.store.str
  | none, none => []

/-- Requests that the arena could hold are of resume data that it could hold. -/
theorem le_of_vectorRequests {n : ℕ} (h : ∀ k ∈ vectorRequests n, k ≤ memBlockSize) :
    n ≤ memBlockSize := by
  by_cases hn : n = 0
  · exact hn ▸ Nat.zero_le _
  · have hlast : 2 ^ Nat.clog 2 n ∈ vectorRequests n := by
      rw [vectorRequests, growths, if_neg hn]
      exact List.mem_map_of_mem (List.mem_range.mpr (Nat.lt_succ_self _))
    exact (Nat.le_pow_clog Nat.one_lt_two n).trans (h _ hlast)

section Event

variable {update : UpdateResults} {remove : RemoveResults} {s : ClientState Process}
  {e : IndexEvent}

/-- A query is no call of the resume store. -/
theorem storeOp_of_strings {name path : Bytes} (h : e.strings s = some (name, path)) :
    e.storeOp = none := by
  cases e with
  | client e =>
      cases e with
      | alert env a => exact absurd h (by simp [IndexEvent.strings])
      | _ => rfl
  | _ => rfl

/-- A query makes the requests of its two strings. -/
theorem requests_of_strings {name path : Bytes} (h : e.strings s = some (name, path)) :
    e.requests t pol codec s = pairRequests t pol name path s.app.store.str := by
  simp only [IndexEvent.requests, storeOp_of_strings h, h]

/-- **What an event does to the process**: it makes a call of the resume store, or caches the two
strings of a query, or leaves the process as it is. -/
theorem process_indexStep (s : ClientState Process) (e : IndexEvent) :
    (indexStep (processFiles t pol codec update remove) s e).app.store =
      match e.storeOp, e.strings s with
      | some (.update hash params), _ =>
          ltUpdateResumeData t pol codec update hash params s.app.store
      | some (.remove hash), _ => ltRemoveResumeData t pol remove hash s.app.store
      | none, some (name, path) =>
          { s.app.store with str := (cachedPair t name path s.app.store.str).2 }
      | none, none => s.app.store := by
  cases e with
  | client e =>
      cases e with
      | alert env a =>
          simp only [indexStep, clientStep, handleAlert_eq]
          cases a <;> rfl
      | queryTorrent env i =>
          simp only [indexStep, clientStep, ltQueryTorrent_eq, queryStore, IndexEvent.storeOp,
            IndexEvent.strings]
          cases s.app.gTorrentHandles[i]? with
          | none => rfl
          | some torrent =>
              cases hvalid : env.isValid torrent with
              | false => simp [Option.filter, hvalid]
              | true =>
                  simp only [Option.filter, hvalid, if_true, Option.map_some]
                  rfl
      | removeTorrent env i =>
          simp only [indexStep, clientStep, ltRemoveTorrent_eq]
          rfl
      | _ => rfl
  | pauseTorrent env i =>
      obtain ⟨calls, hcalls⟩ := controlTorrent_getD .pause env i s.app
      simp only [indexStep, ltPauseTorrent, hcalls]
      rfl
  | resumeTorrent env i =>
      obtain ⟨calls, hcalls⟩ := controlTorrent_getD .resume env i s.app
      simp only [indexStep, ltResumeTorrent, hcalls]
      rfl
  | queryFiles env i => rfl
  | queryFile query i =>
      cases query with
      | none => rfl
      | some q =>
          cases hinfo : q.pTorrentInfo with
          | none => simp [indexStep, ltQueryFile, IndexEvent.storeOp, IndexEvent.strings, hinfo]
          | some info =>
              by_cases hneg : i < 0
              · simp [indexStep, ltQueryFile, IndexEvent.storeOp, IndexEvent.strings, hinfo, hneg]
              · cases hfile : info.files[i.toNat]? with
                | none => simp [indexStep, ltQueryFile, IndexEvent.storeOp, IndexEvent.strings,
                    hinfo, hneg, subscript, hfile, Access.call]
                | some file =>
                    simp [indexStep, ltQueryFile, IndexEvent.storeOp, IndexEvent.strings,
                      hinfo, hneg, subscript, hfile, Access.call]
                    rfl

/-- **An event makes its requests**, and writes to their blocks only, whatever the SQLite calls
return. -/
theorem spends_indexStep (P : Placement t) (update : UpdateResults) (remove : RemoveResults)
    (hmiss : ∀ h, s.app.store.str.gHashCache h = none)
    (hfits : ∀ n ∈ e.requests t pol codec s, n ≤ memBlockSize) :
    Spends P (e.requests t pol codec s) s.app.store.str
      (indexStep (processFiles t pol codec update remove) s e).app.store.str := by
  revert hfits
  rw [process_indexStep, IndexEvent.requests]
  cases e.storeOp with
  | some op =>
      cases op with
      | update hash params =>
          exact fun hfits => spends_ltUpdateResumeData P pol codec update hmiss
            (le_of_vectorRequests (List.forall_mem_append.mp hfits).2)
      | remove hash => exact fun _ => spends_ltRemoveResumeData P pol remove hmiss
  | none =>
      cases e.strings s with
      | some x => exact fun hfits => spends_cachedPair P pol hmiss hfits
      | none => exact fun _ => Spends.refl P _

end Event

/-! ### Runs -/

variable {env : LoadEnv} {s : Program Process} {e : ProgramEvent} {events : List ProgramEvent}

/-- The requests that an event of the program makes: a step of the load asks for the text of a hash
when it submits a row. -/
def ProgramEvent.requests (t : Target) (pol : StreamPolicy) (env : LoadEnv) (s : Program Process) :
    ProgramEvent → List ℕ
  | .load r =>
      match stepSubmits env r s.store.table s.load with
      | none => []
      | some _ => pol.requests
  | .event _ _ e => e.requests t pol env.codec s.client

/-- Every request of the event is one that the arena could hold. -/
def ProgramEvent.Fits (t : Target) (pol : StreamPolicy) (env : LoadEnv) (s : Program Process)
    (e : ProgramEvent) : Prop :=
  ∀ n ∈ e.requests t pol env s, n ≤ memBlockSize

instance (s : Program Process) (e : ProgramEvent) : Decidable (e.Fits t pol env s) :=
  inferInstanceAs (Decidable (∀ _ ∈ _, _))

variable (t pol env) in
/-- The requests that a run makes, in order. -/
def demandAlong : Program Process → List ProgramEvent → List ℕ
  | _, [] => []
  | s, e :: events =>
      e.requests t pol env s ++
        demandAlong (programStep (processProgram t pol env.codec) env s e) events

theorem demandAlong_cons (s : Program Process) (e : ProgramEvent) (events : List ProgramEvent) :
    demandAlong t pol env s (e :: events) = e.requests t pol env s ++
      demandAlong t pol env (programStep (processProgram t pol env.codec) env s e) events := rfl

/-- A query makes the requests of its two strings. -/
theorem ProgramEvent.requests_of_strings {name path : Bytes} (h : e.strings s = some (name, path)) :
    e.requests t pol env s = pairRequests t pol name path s.store.str := by
  cases e with
  | load r => exact absurd h (by simp [ProgramEvent.strings])
  | event update remove e => exact DartTorrent.requests_of_strings h

/-- **An event of the program makes its requests**, and writes to their blocks only, whatever its
SQLite calls return. -/
theorem spends_programStep (P : Placement t) (hmiss : ∀ h, s.store.str.gHashCache h = none)
    (hfits : e.Fits t pol env s) :
    Spends P (e.requests t pol env s) s.store.str
      (programStep (processProgram t pol env.codec) env s e).store.str := by
  cases e with
  | load r =>
      rw [ProgramEvent.requests]
      cases hsubmits : stepSubmits env r s.store.table s.load with
      | none =>
          rw [store_load_of_none (processProgram t pol env.codec) hsubmits]
          exact Spends.refl P _
      | some params =>
          rw [store_load_of_some (processProgram t pol env.codec) hsubmits]
          exact spends_ltHashStr P pol params.infoHashes.getBest hmiss
  | event update remove e => exact spends_indexStep P update remove hmiss hfits

/-- **A run makes its requests**, and writes to their blocks only. -/
theorem spends_run (P : Placement t) (hmiss : ∀ h, s.store.str.gHashCache h = none)
    (hfits : ∀ n ∈ demandAlong t pol env s events, n ≤ memBlockSize) :
    Spends P (demandAlong t pol env s events) s.store.str
      (run (programStep (processProgram t pol env.codec) env) s events).store.str := by
  induction events generalizing s with
  | nil => exact Spends.refl P _
  | cons e events ih =>
      rw [demandAlong_cons, List.forall_mem_append] at hfits
      have hhead := spends_programStep P hmiss hfits.1
      exact hhead.trans (ih (hhead.hash_miss hmiss) hfits.2)

/-- **Every event leaves the process ready** whose requests the arena could hold. -/
theorem arenaReady_programStep (hs : ArenaReady P s.store) (hfits : e.Fits t pol env s) :
    ArenaReady P (programStep (processProgram t pol env.codec) env s e).store := by
  have hspends := spends_programStep P hs.hash_miss hfits
  exact ⟨hspends.block hs.block, hspends.hash_miss hs.hash_miss⟩

theorem arenaReady_run (hs : ArenaReady P s.store)
    (hfits : Along (programStep (processProgram t pol env.codec) env)
      (fun s e => e.Fits t pol env s) s events) :
    ArenaReady P (run (programStep (processProgram t pol env.codec) env) s events).store := by
  have hstep : ∀ (s : Program Process) (e : ProgramEvent), ArenaReady P s.store →
      e.Fits t pol env s →
      ArenaReady P (programStep (processProgram t pol env.codec) env s e).store :=
    fun _ _ hs he => arenaReady_programStep hs he
  exact inv_run hstep hs hfits

/-! ### How long a string of a query stays -/

/-- A string that was not cached stands right below the cursor when its call returns. -/
theorem held_of_miss {c : P.Cursor} (hc : g.block = P.block c) {x : Bytes}
    (hmiss : g.gStrCache (boostHash t x) = none) (hfit : x.length + 1 ≤ memBlockSize) :
    ∃ c' : P.Cursor, (ltCachedStrImpl t x g).2.block = P.block c' ∧
      (ltCachedStrImpl t x g).1 + (x.length + 1) = c'.pos ∧
      Holds 0 (ltCachedStrImpl t x g).2.mem (ltCachedStrImpl t x g).1 x := by
  obtain ⟨c', g', hout, hblock, hpos, -, hheld, -⟩ := cachedStr_miss hc hmiss hfit
  rw [hout]
  exact ⟨c', hblock, hpos.symm, hheld⟩

/-- The request of a string that is not cached. -/
theorem requests_of_miss {x : Bytes} (pol : StreamPolicy)
    (hmiss : g.gStrCache (boostHash t x) = none) :
    (CacheOp.string x).requests t pol g = [x.length + 1] := by
  simp [CacheOp.requests, hmiss]

/-- The string that a call has just copied is kept while what is requested from the call on is in
the budget. -/
theorem kept_of_miss {c : P.Cursor} (hc : g.block = P.block c) {x : Bytes}
    (hmiss : g.gStrCache (boostHash t x) = none)
    (hspends : Spends P ns (ltCachedStrImpl t x g).2 g') {m : ℕ}
    (hmax : ∀ n ∈ (CacheOp.string x).requests t pol g ++ ns, n ≤ m)
    (hbudget : ((CacheOp.string x).requests t pol g ++ ns).sum + m ≤ memBlockSize) :
    Holds 0 g'.mem (ltCachedStrImpl t x g).1 x := by
  rw [requests_of_miss pol hmiss, List.sum_append, List.sum_singleton] at hbudget
  obtain ⟨c', hc', hlast, hheld⟩ := held_of_miss hc hmiss (by omega)
  exact hspends.kept hc' hheld hlast (List.forall_mem_append.mp hmax).2 hbudget

/-- **How long the strings of a query stay.** Take any run of the program from any state with its
cursor in the arena, the load, the alerts and the client calls in any order and each SQLite call
with a result of its own, and any query of a torrent or a file in it: as long as all that is
requested from the query on, by it and by the events after it, is with the largest request once
more not more than the arena, the strings that the query has copied can be read at the pointers of
its result. -/
theorem query_kept (P : Placement t) (pol : StreamPolicy) (env : LoadEnv)
    (start : Program Process) (hstart : ArenaReady P start.store) (before : List ProgramEvent)
    (e : ProgramEvent) (after : List ProgramEvent) {name path : Bytes} :
    let step := programStep (processProgram t pol env.codec) env
    let s := run step start before
    let last := run step s (e :: after)
    let demand := demandAlong t pol env s (e :: after)
    Along step (fun s e => e.Fits t pol env s) start before →
      e.strings s = some (name, path) → ∀ m, (∀ n ∈ demand, n ≤ m) →
        demand.sum + m ≤ memBlockSize → ∃ p q, e.pointers t pol env.codec s = some (p, q) ∧
          (s.store.str.gStrCache (boostHash t name) = none → last.Reads p name) ∧
          ((ltCachedStrImpl t name s.store.str).2.gStrCache (boostHash t path) = none →
            last.Reads q path) := by
  intro step s last demand hbefore hstrings m hmax hbudget
  have hready : ArenaReady P s.store := arenaReady_run hstart hbefore
  obtain ⟨hpointers, hquery⟩ := pointers_eq t pol env hstrings
  set g := s.store.str with hg
  set g₁ := (ltCachedStrImpl t name g).2 with hg₁
  have hle : ∀ n ∈ demand, n ≤ memBlockSize := fun n hn => (hmax n hn).trans (by omega)
  have hdemand : demand = (CacheOp.string name).requests t pol g ++
      ((CacheOp.string path).requests t pol g₁ ++ demandAlong t pol env (step s e) after) := by
    rw [← List.append_assoc]
    exact congrArg (· ++ _) (ProgramEvent.requests_of_strings hstrings)
  rw [hdemand] at hle hmax hbudget
  obtain ⟨hname, hpath, hafter⟩ := by simpa only [List.forall_mem_append] using hle
  -- the calls of the query, and the run after them
  have hfirst := spends_cachedStr P pol hready.hash_miss hname
  have hmiss₁ : ∀ h, g₁.gHashCache h = none := hfirst.hash_miss hready.hash_miss
  have hsecond := spends_cachedStr P pol hmiss₁ hpath
  have hmiss₂ : ∀ h, (step s e).store.str.gHashCache h = none := by
    rw [hquery]
    exact hsecond.hash_miss hmiss₁
  have hrest := spends_run P hmiss₂ hafter
  rw [hquery] at hrest
  obtain ⟨c, hc⟩ := hready.block
  obtain ⟨c₁, hc₁⟩ := hfirst.block hready.block
  refine ⟨_, _, hpointers, fun hnew => ?_, fun hnew => ?_⟩
  · exact kept_of_miss hc hnew (hsecond.trans hrest) hmax hbudget
  · rw [List.sum_append, Nat.add_assoc] at hbudget
    exact kept_of_miss hc₁ hnew hrest (List.forall_mem_append.mp hmax).2
      ((Nat.le_add_left _ _).trans hbudget)

/-- The process starts with a saved torrent, loads it and is queried for it; then the torrent is
saved, where the `INSERT` cannot be prepared, queried again and removed. -/
theorem query_kept_small :
    let le : LoadEnv := ⟨netstringCodec, none⟩
    let params := sampleParams 3
    let table := savedTable netstringCodec [.update params.infoHashes.getBest params]
    let start := Program.start (Process.startOn Placement.low.base (fun _ => 0) table)
    let env : Env := { Env.ofDead [] with
      status := fun _ => ⟨[97], [98, 99], .seeding, 0, 0, 0, true⟩ }
    let query : ProgramEvent := .event {} {} (.client (.queryTorrent env 0))
    let before : List ProgramEvent :=
      [.load .ok, .event {} {} (.client (.alert env (.addTorrent ⟨some 1⟩ false))), .load .ok]
    let after : List ProgramEvent :=
      [.event { prepare := .error } {} (.client (.alert env (.saveResumeData ⟨some 1⟩ params))),
        query, .event {} {} (.client (.alert env (.torrentRemoved ⟨some 1⟩ params.infoHashes)))]
    let step := programStep (processProgram Target.x64 .fifteenInObject le.codec) le
    let s := run step start before
    let last := run step s (query :: after)
    ∃ p q, query.pointers Target.x64 .fifteenInObject le.codec s = some (p, q) ∧
      last.Reads p [97] ∧ last.Reads q [98, 99] := by
  intro le params table start env query before after step s last
  have hstrings : query.strings s = some ([97], [98, 99]) := by decide +kernel
  obtain ⟨p, q, hpointers, hname, hpath⟩ := query_kept Placement.low .fifteenInObject le start
    (arenaReady_startOn _ _) before query after (by decide +kernel) hstrings 513
    (by decide +kernel) (by decide +kernel)
  exact ⟨p, q, hpointers, hname (by decide +kernel), hpath (by decide +kernel)⟩

end DartTorrent
