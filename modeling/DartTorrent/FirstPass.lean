import DartTorrent.Collisions
import DartTorrent.Demand
import DartTorrent.Process

/-!
# Before the Arena Is Reset

A process that has asked the arena for less than its size has never sent the cursor back: every
block it was given stands behind all others, and nothing has been written over. This module shows
what that is worth for the whole process, through any interleaving of the load with alerts and
client calls. The demand of a run is the one of `DartTorrent.Demand`, so whether a run is covered
can be read off the rows that it loads and the sizes of its resume data and of its strings.

## Main results

* `heldBelow_programStep`: every pointer of `g_str_cache` stays below the cursor and holds its
  string.
* `held_before_reset`: every pointer of every query result can be read until the end of the run.
* `growsUntouched_of_straight`: a save writes its row under the key of its torrent.
* `process_before_reset`: the process does what a program does that keeps its table only.
-/

open ByteStore BumpArena GuardedRun

namespace DartTorrent

variable {t : Target} {P : Placement t} {pol : StreamPolicy} {env : LoadEnv} {T : Set Bytes}
  {g g' : StrState} {ns : List ℕ}

/-! ### Requests without a reset -/

/-- Without a reset the cursor advances by what is requested. -/
theorem Spends.last_of_straight (h : Spends P ns g g') (hg : ∃ c : P.Cursor, g.block = P.block c)
    (hstraight : Straight P.stop g.block.gMemBlockLast ns) :
    g'.block.gMemBlockLast = g.block.gMemBlockLast + ns.sum := by
  obtain ⟨c, hc⟩ := hg
  obtain ⟨c', hc', hpos⟩ := h.cursor c hc
  rw [hc] at hstraight ⊢
  rw [hc']
  exact hpos.trans (after_of_straight P.base hstraight)

/-- **A string below the cursor is kept** by requests without a reset. -/
theorem Spends.holds_of_straight (h : Spends P ns g g') (hg : ∃ c : P.Cursor, g.block = P.block c)
    (hstraight : Straight P.stop g.block.gMemBlockLast ns) {p : ℕ} {x : Bytes}
    (hheld : Holds 0 g.mem p x) (hbelow : p + (x.length + 1) ≤ g.block.gMemBlockLast) :
    Holds 0 g'.mem p x := by
  obtain ⟨c, hc⟩ := hg
  rw [hc] at hstraight hbelow
  refine hheld.of_agreesOff (h.frame c hc) fun b hb => ?_
  exact Span.not_overlaps_of_le_start (hbelow.trans (le_start_of_straight hstraight hb))

/-! ### The cache below the cursor -/

/-- The cursor is in the arena, no hash is cached, and every pointer of `g_str_cache` is to a
string of `T` below the cursor. -/
structure HeldBelow (P : Placement t) (T : Set Bytes) (g : StrState) : Prop where
  cursor : ∃ c : P.Cursor, g.block = P.block c
  hash_miss : ∀ h, g.gHashCache h = none
  below : ∀ k p, g.gStrCache k = some p → ∃ x ∈ T, boostHash t x = k ∧ P.base ≤ p ∧
    p + (x.length + 1) ≤ g.block.gMemBlockLast ∧ Holds 0 g.mem p x

/-- At start-up nothing is cached, whatever table is there. -/
theorem heldBelow_startOn (mem : Mem UInt8) (table : Table) :
    HeldBelow P T (Process.startOn P.base mem table).str :=
  ⟨⟨P.start, P.ltInitStrCache_eq⟩, fun _ => rfl, fun _ _ h =>
    absurd h (by simp [Process.startOn, Process.start])⟩

/-- The cached pointer of a string of `T` reads it, and the string fits the arena. -/
theorem HeldBelow.of_cached (h : HeldBelow P T g) (hinj : Set.InjOn (boostHash t) T) {x : Bytes}
    (hx : x ∈ T) {p : ℕ} (hcached : g.gStrCache (boostHash t x) = some p) :
    Holds 0 g.mem p x ∧ x.length < memBlockSize := by
  obtain ⟨y, hy, hhash, hbase, hbelow, hheld⟩ := h.below _ p hcached
  obtain rfl : y = x := hinj hy hx hhash
  obtain ⟨c, hc⟩ := h.cursor
  have hhi : c.pos ≤ P.base + memBlockSize := c.pos_le_hi
  rw [hc] at hbelow
  have hbelow : p + (y.length + 1) ≤ c.pos := hbelow
  exact ⟨hheld, by omega⟩

/-- Requests that enter nothing in the cache keep it below the cursor. -/
theorem HeldBelow.spends (h : HeldBelow P T g) (hspends : Spends P ns g g')
    (hstraight : Straight P.stop g.block.gMemBlockLast ns)
    (hcache : g'.gStrCache = g.gStrCache) : HeldBelow P T g' := by
  have hlast := hspends.last_of_straight h.cursor hstraight
  refine ⟨hspends.block h.cursor, hspends.hash_miss h.hash_miss, fun k p hentry => ?_⟩
  rw [hcache] at hentry
  obtain ⟨x, hx, hhash, hbase, hbelow, hheld⟩ := h.below k p hentry
  refine ⟨x, hx, hhash, hbase, by omega, ?_⟩
  exact hspends.holds_of_straight h.cursor hstraight hheld hbelow

/-- Requests without a reset are requests that the arena could hold. -/
theorem fits_of_straight (hg : ∃ c : P.Cursor, g.block = P.block c)
    (hstraight : Straight P.stop g.block.gMemBlockLast ns) : ∀ n ∈ ns, n ≤ memBlockSize := by
  obtain ⟨c, hc⟩ := hg
  rw [hc] at hstraight
  exact requests_le_of_straight (c := c) hstraight

/-- **A call of `lt_cached_str`** keeps the cache below the cursor, and its pointer is the cached
one. -/
theorem HeldBelow.cachedStr (h : HeldBelow P T g) (pol : StreamPolicy) {x : Bytes} (hx : x ∈ T)
    (hstraight : Straight P.stop g.block.gMemBlockLast ((CacheOp.string x).requests t pol g)) :
    HeldBelow P T (ltCachedStrImpl t x g).2 ∧
      (ltCachedStrImpl t x g).2.gStrCache (boostHash t x) = some (ltCachedStrImpl t x g).1 := by
  cases hcache : g.gStrCache (boostHash t x) with
  | some p =>
      rw [ltCachedStrImpl_of_hit hcache]
      exact ⟨h, hcache⟩
  | none =>
      have hspends := spends_cachedStr P pol h.hash_miss (fits_of_straight h.cursor hstraight)
      rw [requests_of_miss pol hcache] at hstraight hspends
      have hlast := hspends.last_of_straight h.cursor hstraight
      obtain ⟨c, hc⟩ := h.cursor
      have hfit := fits_of_straight h.cursor hstraight _ (List.mem_singleton_self _)
      obtain ⟨c', g', hout, hblock, hpos, hentered, hheld, -⟩ := cachedStr_miss hc hcache hfit
      -- without a reset the copy stands at the cursor
      have hplace : g.block.next g.block.gMemBlockLast (x.length + 1) =
          g.block.gMemBlockLast := by
        rw [hc] at hstraight ⊢
        exact place_of_lt hstraight.1
      rw [hout] at hspends hlast ⊢
      rw [hplace] at hpos hentered hheld ⊢
      refine ⟨⟨⟨c', hblock⟩, hspends.hash_miss h.hash_miss, fun k p hentry => ?_⟩, ?_⟩
      · dsimp only at hentry
        rw [hentered] at hentry
        by_cases hk : k = boostHash t x
        · rw [hk, Function.update_self] at hentry
          obtain rfl := Option.some.inj hentry
          have hbase : P.base ≤ g.block.gMemBlockLast := by
            rw [hc]
            exact c.lo_le_pos
          exact ⟨x, hx, hk.symm, hbase, by rw [hblock]; exact hpos.ge, hheld⟩
        · rw [Function.update_of_ne hk] at hentry
          obtain ⟨y, hy, hhash, hbase, hbelow, hold⟩ := h.below k p hentry
          refine ⟨y, hy, hhash, hbase, hbelow.trans (hlast ▸ Nat.le_add_right _ _), ?_⟩
          exact hspends.holds_of_straight h.cursor hstraight hold hbelow
      · dsimp only
        rw [hentered]
        exact Function.update_self ..

/-- A call changes no entry of the cache. -/
theorem cached_ltCachedStrImpl (pol : StreamPolicy) (x : Bytes) {k p : ℕ}
    (h : g.gStrCache k = some p) : (ltCachedStrImpl t x g).2.gStrCache k = some p := by
  obtain ⟨hg, -⟩ := cacheStep_text t pol ⟨g, [], []⟩ (rfl : (CacheOp.string x).text = some x)
  rw [← hg]
  exact gStrCache_kept h _

/-- **The two calls of a query** keep the cache below the cursor, and both pointers are cached. -/
theorem HeldBelow.cachedPair (h : HeldBelow P T g) (pol : StreamPolicy) {name path : Bytes}
    (hname : name ∈ T) (hpath : path ∈ T)
    (hstraight : Straight P.stop g.block.gMemBlockLast (pairRequests t pol name path g)) :
    let out := cachedPair t name path g
    HeldBelow P T out.2 ∧ out.2.gStrCache (boostHash t name) = some out.1.1 ∧
      out.2.gStrCache (boostHash t path) = some out.1.2 := by
  intro out
  obtain ⟨hfirst, hsecond⟩ := straight_append.mp hstraight
  have hspends := spends_cachedStr P pol h.hash_miss (fits_of_straight h.cursor hfirst)
  rw [← hspends.last_of_straight h.cursor hfirst] at hsecond
  obtain ⟨hheld, hentered⟩ := h.cachedStr pol hname hfirst
  obtain ⟨hheld', hentered'⟩ := hheld.cachedStr pol hpath hsecond
  exact ⟨hheld', cached_ltCachedStrImpl pol path hentered, hentered'⟩

/-! ### Events -/

/-- The pushes enter nothing in the cache. -/
theorem gStrCache_pushAll (s : CharV × StrState) (bs : Bytes) :
    (run (pushStep t) s bs).2.gStrCache = s.2.gStrCache := by
  induction bs generalizing s with
  | nil => rfl
  | cons b bs ih =>
      rw [run_cons, ih]
      rw [pushStep, pushBack]
      split <;> rfl

/-- An event that asks for no strings enters nothing in the cache. -/
theorem gStrCache_indexStep_of_no_strings (t : Target) (pol : StreamPolicy) (codec : ResumeCodec)
    (update : UpdateResults) (remove : RemoveResults) {s : ClientState Process} {e : IndexEvent}
    (hnone : e.strings s = none) :
    (indexStep (processFiles t pol codec update remove) s e).app.store.str.gStrCache =
      s.app.store.str.gStrCache := by
  rw [process_indexStep, hnone]
  cases e.storeOp with
  | some op =>
      cases op with
      | update hash params =>
          exact (gStrCache_pushAll _ _).trans (caches_ltCachedStrHash t pol hash s.app.store.str).1
      | remove hash => exact (caches_ltCachedStrHash t pol hash s.app.store.str).1
  | none => rfl

variable {s : Program Process} {e : ProgramEvent} {events : List ProgramEvent}

/-- The same of an event of the program: the log line of the load caches no string. -/
theorem gStrCache_programStep_of_no_strings (t : Target) (pol : StreamPolicy) (env : LoadEnv)
    (hnone : e.strings s = none) :
    (programStep (processProgram t pol env.codec) env s e).store.str.gStrCache =
      s.store.str.gStrCache := by
  cases e with
  | load r =>
      cases hsubmits : stepSubmits env r s.store.table s.load with
      | none => rw [store_load_of_none (processProgram t pol env.codec) hsubmits]
      | some params =>
          rw [store_load_of_some (processProgram t pol env.codec) hsubmits]
          exact (caches_ltCachedStrHash t pol params.infoHashes.getBest s.store.str).1
  | event update remove e =>
      exact gStrCache_indexStep_of_no_strings t pol env.codec update remove hnone

/-- The strings of the event are of `T`. -/
def ProgramEvent.Asks (T : Set Bytes) (s : Program Process) (e : ProgramEvent) : Prop :=
  ∀ name path, e.strings s = some (name, path) → name ∈ T ∧ path ∈ T

/-- **Every event keeps the cache below the cursor**, unless it resets the arena, and changes no
entry of it. -/
theorem heldBelow_programStep (h : HeldBelow P T s.store.str) (hasks : e.Asks T s)
    (hstraight : Straight P.stop s.store.str.block.gMemBlockLast (e.requests t pol env s)) :
    let g' := (programStep (processProgram t pol env.codec) env s e).store.str
    HeldBelow P T g' ∧
      g'.block.gMemBlockLast = s.store.str.block.gMemBlockLast + (e.requests t pol env s).sum ∧
      ∀ k p, s.store.str.gStrCache k = some p → g'.gStrCache k = some p := by
  intro g'
  have hspends := spends_programStep P h.hash_miss (fits_of_straight h.cursor hstraight)
  have hlast := hspends.last_of_straight h.cursor hstraight
  cases hstrings : e.strings s with
  | none =>
      have hcache := gStrCache_programStep_of_no_strings t pol env hstrings
      exact ⟨h.spends hspends hstraight hcache, hlast, fun k p hp => hcache ▸ hp⟩
  | some x =>
      obtain ⟨name, path⟩ := x
      obtain ⟨hname, hpath⟩ := hasks name path hstrings
      rw [ProgramEvent.requests_of_strings hstrings] at hstraight
      have hquery : g' = (cachedPair t name path s.store.str).2 :=
        (pointers_eq t pol env hstrings).2
      refine ⟨?_, hlast, fun k p hp => ?_⟩
      · rw [hquery]
        exact (h.cachedPair pol hname hpath hstraight).1
      · rw [hquery]
        exact cached_ltCachedStrImpl pol path (cached_ltCachedStrImpl pol name hp)

/-- **Every run keeps the cache below the cursor** that does not reset the arena. -/
theorem heldBelow_run (h : HeldBelow P T s.store.str)
    (hasks : Along (programStep (processProgram t pol env.codec) env) (fun s e => e.Asks T s)
      s events)
    (hstraight : Straight P.stop s.store.str.block.gMemBlockLast
      (demandAlong t pol env s events)) :
    let g' := (run (programStep (processProgram t pol env.codec) env) s events).store.str
    HeldBelow P T g' ∧
      g'.block.gMemBlockLast =
        s.store.str.block.gMemBlockLast + (demandAlong t pol env s events).sum ∧
      ∀ k p, s.store.str.gStrCache k = some p → g'.gStrCache k = some p := by
  induction events generalizing s with
  | nil => exact ⟨h, rfl, fun _ _ hp => hp⟩
  | cons e events ih =>
      obtain ⟨hhead, hrest⟩ := hasks
      rw [demandAlong_cons, straight_append] at hstraight
      obtain ⟨hheld, hlast, hkept⟩ := heldBelow_programStep h hhead hstraight.1
      have hlater := hstraight.2
      rw [← hlast] at hlater
      obtain ⟨hheld', hlast', hkept'⟩ := ih hheld hrest hlater
      refine ⟨hheld', ?_, fun k p hp => hkept' k p (hkept k p hp)⟩
      rw [demandAlong_cons, List.sum_append, ← Nat.add_assoc, ← hlast]
      exact hlast'

theorem demandAlong_append (s : Program Process) (events events' : List ProgramEvent) :
    demandAlong t pol env s (events ++ events') = demandAlong t pol env s events ++
      demandAlong t pol env (run (programStep (processProgram t pol env.codec) env) s events)
        events' := by
  induction events generalizing s with
  | nil => rfl
  | cons e events ih => rw [List.cons_append, demandAlong_cons, ih, demandAlong_cons,
      List.append_assoc, run_cons]

/-! ### Query results -/

/-- **Query results last until the first reset.** Take any run of the program, the load, the alerts
and the client calls in any order and each SQLite call with a result of its own, that asks for less
than is left of the arena, from any state whose cached pointers all read strings below the cursor,
such as start-up on any table; and let `boost::hash` have no collision on the strings that are
queried. The two pointers of every query result can still be read at the end of the run: each reads
its own string. -/
theorem held_before_reset (P : Placement t) (pol : StreamPolicy) (env : LoadEnv) (T : Set Bytes)
    (hinj : Set.InjOn (boostHash t) T) (start : Program Process)
    (hstart : HeldBelow P T start.store.str) (before : List ProgramEvent) (e : ProgramEvent)
    (after : List ProgramEvent) {name path : Bytes} :
    let step := programStep (processProgram t pol env.codec) env
    let s := run step start before
    let last := run step start (before ++ e :: after)
    let demand := demandAlong t pol env start (before ++ e :: after)
    Along step (fun s e => e.Asks T s) start (before ++ e :: after) →
      start.store.str.block.gMemBlockLast + demand.sum < P.stop →
        e.strings s = some (name, path) → ∃ p q, e.pointers t pol env.codec s = some (p, q) ∧
          last.Reads p name ∧ last.Reads q path := by
  intro step s last demand hasks hdemand hstrings
  have hstraight : Straight P.stop start.store.str.block.gMemBlockLast demand :=
    straight_iff.mpr (Or.inr hdemand)
  simp only [demand, demandAlong_append, straight_append] at hstraight
  obtain ⟨hasks₁, hask, hasks₂⟩ := along_append.mp hasks
  obtain ⟨hname, hpath⟩ := hask name path hstrings
  -- up to the query, through it, and to the end
  obtain ⟨hheld, hlast, -⟩ := heldBelow_run hstart hasks₁ hstraight.1
  have hrest := hstraight.2
  rw [← hlast, demandAlong_cons, straight_append] at hrest
  obtain ⟨hheld', hlast', -⟩ := heldBelow_programStep hheld hask hrest.1
  have hpair := hrest.1
  rw [ProgramEvent.requests_of_strings hstrings] at hpair
  obtain ⟨-, hp, hq⟩ := hheld.cachedPair pol hname hpath hpair
  obtain ⟨hpointers, hquery⟩ := pointers_eq t pol env hstrings
  have hlater := hrest.2
  rw [← hlast'] at hlater
  obtain ⟨hheld'', -, hkept⟩ := heldBelow_run hheld' hasks₂ hlater
  have hfinal : last = run step (step s e) after := by
    simp only [last, s, run_append, run_cons]
  rw [hfinal]
  rw [← hquery] at hp hq
  refine ⟨_, _, hpointers, ?_, ?_⟩
  · exact (hheld''.of_cached hinj hname (hkept _ _ hp)).1
  · exact (hheld''.of_cached hinj hpath (hkept _ _ hq)).1

/-- What a query asks for is of `T` if all that the torrents answer is. -/
theorem asks_queryTorrent {update : UpdateResults} {remove : RemoveResults} {env : Env} {i : ℕ}
    (s : Program Process)
    (h : ∀ torrent, (env.status torrent).name ∈ T ∧ (env.status torrent).savePath ∈ T) :
    (ProgramEvent.event update remove (.client (.queryTorrent env i))).Asks T s := by
  intro name path hstrings
  obtain ⟨torrent, -, heq⟩ := Option.map_eq_some_iff.mp hstrings
  obtain ⟨rfl, rfl⟩ := Prod.mk.inj heq
  exact h torrent

/-- An alert asks for nothing. -/
theorem asks_alert (update : UpdateResults) (remove : RemoveResults) (env : Env) (a : Alert)
    (s : Program Process) : (ProgramEvent.event update remove (.client (.alert env a))).Asks T s :=
  fun _ _ hstrings => absurd hstrings (by simp [ProgramEvent.strings, IndexEvent.strings])

/-- Nor does a step of the load. -/
theorem asks_load (r : SqlResult) (s : Program Process) : (ProgramEvent.load r).Asks T s :=
  fun _ _ hstrings => absurd hstrings (by simp [ProgramEvent.strings])

/-- The process starts with a saved torrent. It is loaded and another one is added; both are
queried, one of them twice, and a save in between cannot be stored. -/
theorem held_before_reset_small :
    let le : LoadEnv := ⟨netstringCodec, none⟩
    let params := sampleParams 3
    let table := savedTable netstringCodec [.update params.infoHashes.getBest params]
    let start := Program.start (Process.startOn Placement.low.base (fun _ => 0) table)
    let env : Env := { Env.ofDead [] with
      status := fun h => ⟨if h = ⟨some 1⟩ then [97] else [98], [47], .seeding, 0, 0, 0, true⟩ }
    let before : List ProgramEvent := [.load .ok,
      .event {} {} (.client (.alert env (.addTorrent ⟨some 1⟩ false))), .load .ok,
      .event {} {} (.client (.alert env (.addTorrent ⟨some 2⟩ false)))]
    let query : ProgramEvent := .event {} {} (.client (.queryTorrent env 1))
    let after : List ProgramEvent :=
      [.event { prepare := .error } {} (.client (.alert env (.saveResumeData ⟨some 1⟩ params))),
        .event {} {} (.client (.queryTorrent env 0)), query]
    let step := programStep (processProgram Target.x64 .fifteenInObject le.codec) le
    let s := run step start before
    let last := run step start (before ++ query :: after)
    ∃ p q, query.pointers Target.x64 .fifteenInObject le.codec s = some (p, q) ∧
      last.Reads p [97] ∧ last.Reads q [47] := by
  intro le params table start env before query after step s last
  have hstatus : ∀ h, (env.status h).name ∈ oneByteApart [] [] ∧
      (env.status h).savePath ∈ oneByteApart [] [] := by
    intro h
    refine ⟨?_, 47, rfl⟩
    by_cases hh : h = ⟨some 1⟩
    · exact ⟨97, if_pos hh⟩
    · exact ⟨98, if_neg hh⟩
  have hasks : Along step (fun s e => e.Asks (oneByteApart [] []) s) start
      (before ++ query :: after) :=
    ⟨asks_load _ _, asks_alert _ _ _ _ _, asks_load _ _, asks_alert _ _ _ _ _,
      asks_queryTorrent _ hstatus, asks_alert _ _ _ _ _, asks_queryTorrent _ hstatus,
      asks_queryTorrent _ hstatus, trivial⟩
  exact held_before_reset Placement.low .fifteenInObject le (oneByteApart [] [])
    (injOn_oneByteApart Target.x64 [] []) start (heldBelow_startOn _ _) before query after hasks
    (by decide +kernel) (by decide +kernel)

/-! ### Saves -/

/-- **A save without a reset is exact**: its buffer fits behind the text of the hash. -/
theorem growsUntouched_of_straight (hg : ∃ c : P.Cursor, g.block = P.block c)
    (codec : ResumeCodec) {hash : Sha1Hash} (hmiss : g.gHashCache hash = none)
    {params : AddTorrentParams}
    (hstraight : Straight P.stop g.block.gMemBlockLast
      (pol.requests ++ vectorRequests (codec.writeResumeData params).length)) :
    GrowsUntouched t pol hash (codec.writeResumeData params) g := by
  obtain ⟨c, hc⟩ := hg
  rw [hc] at hstraight
  have hstraight : Straight P.stop c.pos _ := hstraight
  rw [growsUntouched_iff P c hc pol hash hmiss]
  obtain ⟨hhash, hvector⟩ := straight_append.mp hstraight
  have hne : (codec.writeResumeData params).length ≠ 0 := fun h =>
    codec.write_ne_nil params (List.length_eq_zero_iff.mp h)
  have hsum := sum_growthRequests (growths (codec.writeResumeData params).length)
  have hlo := c.lo_le_pos
  rw [after_of_straight _ hhash]
  refine Or.inl ?_
  rcases straight_iff.mp hvector with hnil | hlt
  · rw [vectorRequests, growths, if_neg hne, growthRequests] at hnil
    exact absurd hnil (by simp [List.range_succ])
  · rw [growths, if_neg hne] at hsum
    rw [vectorRequests, growths, if_neg hne] at hlt
    have hstop : P.stop = P.base + memBlockSize := rfl
    omega

/-! ### The table -/

/-- An event without a reset leaves the text of its hash intact, and its strings fit. -/
theorem fitsArena_of_straight (hs : Ready P s.store)
    (hstraight : Straight P.stop s.store.str.block.gMemBlockLast (e.requests t pol env s)) :
    e.FitsArena t pol env.codec s := by
  cases e with
  | load r => trivial
  | event update remove e =>
      rw [ProgramEvent.FitsArena, IndexEvent.FitsArena]
      have hhere : Straight P.stop s.store.str.block.gMemBlockLast
          (e.requests t pol env.codec s.client) := hstraight
      rw [IndexEvent.requests] at hhere
      cases hop : e.storeOp with
      | none => exact fits_of_straight hs.block hstraight
      | some op =>
          rw [hop] at hhere
          cases op with
          | update hash params =>
              exact textIntact_of_growsUntouched
                (growsUntouched_of_straight hs.block env.codec (hs.hash_miss hash) hhere)
          | remove hash => trivial

/-- In a run without a reset every event fits. -/
theorem along_fitsArena_of_straight (hs : Ready P s.store) (hsucceed : ∀ e ∈ events, e.Succeeds)
    (hstraight : Straight P.stop s.store.str.block.gMemBlockLast
      (demandAlong t pol env s events)) :
    Along (programStep (processProgram t pol env.codec) env)
      (fun s e => e.FitsArena t pol env.codec s) s events := by
  induction events generalizing s with
  | nil => trivial
  | cons e events ih =>
      rw [demandAlong_cons, straight_append] at hstraight
      obtain ⟨hhere, hrest⟩ := hstraight
      obtain ⟨hsucceeds, hlater⟩ := List.forall_mem_cons.mp hsucceed
      have hfit : e.FitsArena t pol env.codec s := fitsArena_of_straight hs hhere
      have hspends := spends_programStep P hs.hash_miss (fits_of_straight hs.block hhere)
      rw [← hspends.last_of_straight hs.block hhere] at hrest
      exact ⟨hfit, ih (programStep_process hs hsucceeds hfit).1 hlater hrest⟩

/-- **Until the first reset the process is its table.** Take any run of the program, every SQLite
call of the resume store succeeding, that asks for less than is left of the arena, from any process
between two calls, such as start-up on any table. The list, the flag, the calls made, the load and
the table of the process are those of a program that keeps nothing but the table, with the text of
every hash and the resume data of every torrent as they are. -/
theorem process_before_reset (P : Placement t) (pol : StreamPolicy) (env : LoadEnv)
    (start : Program Process) (hstart : Ready P start.store) (events : List ProgramEvent)
    (hsucceed : ∀ e ∈ events, e.Succeeds)
    (hdemand : start.store.str.block.gMemBlockLast + (demandAlong t pol env start events).sum <
      P.stop) :
    (run (programStep (processProgram t pol env.codec) env) start events).overTable =
      run (programStep (tableProgram env.codec) env) start.overTable events :=
  run_process hstart hsucceed
    (along_fitsArena_of_straight hstart hsucceed (straight_iff.mpr (Or.inr hdemand)))

/-- The process starts with a saved torrent, which is loaded, paused and asked for its files; a file
and the torrent are queried, and it is saved and removed. -/
theorem process_before_reset_small :
    let le : LoadEnv := ⟨netstringCodec, none⟩
    let params := sampleParams 3
    let table := savedTable netstringCodec [.update params.infoHashes.getBest params]
    let start := Program.start (Process.startOn Placement.low.base (fun _ => 0) table)
    let env : Env := { Env.ofDead [] with
      status := fun _ => ⟨[97], [98, 99], .seeding, 0, 0, 0, true⟩ }
    let info : TorrentInfo := ⟨[⟨[100], [100], 7⟩]⟩
    let calls : List IndexEvent := [.pauseTorrent env 0, .queryFiles ⟨env, fun _ => some info⟩ 0,
      .queryFile (some ⟨some info, 1⟩) 0, .client (.queryTorrent env 0),
      .client (.alert env (.saveResumeData ⟨some 1⟩ params)),
      .client (.alert env (.torrentRemoved ⟨some 1⟩ params.infoHashes))]
    let events : List ProgramEvent :=
      [.load .ok, .event {} {} (.client (.alert env (.addTorrent ⟨some 1⟩ false))), .load .ok] ++
        calls.map (.event {} {})
    (run (programStep (processProgram Target.x64 .fifteenInObject le.codec) le) start
        events).overTable =
      run (programStep (tableProgram le.codec) le) start.overTable events := by
  intro le params table start env info calls events
  have hsucceed : ∀ e ∈ events, e.Succeeds := by
    simp [events, calls, ProgramEvent.Succeeds]
  exact process_before_reset Placement.low .fifteenInObject le start (ready_startOn _ _) events
    hsucceed (by decide +kernel)

end DartTorrent
