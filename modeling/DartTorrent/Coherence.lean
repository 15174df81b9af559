import DartTorrent.Indices
import DartTorrent.StrCache

/-!
# The Two Strings of a Query

`lt_query_torrent` and `lt_query_file` cache two strings one after the other and return both
pointers. The second call may place its copy on the first string: the first may have been in
the cache, at an address that the cursor has come back to, or its copy may be the one that
the second wraps onto. This module asks when both strings can be read once the query returns.

## Main results

* `pairHeld_iff`: two calls of `lt_cached_str`, from any cursor and any cache whose pointers
  hold their strings.
* `query_coherent_iff`: the results of both queries, in every run over the process.
* `query_incoherent`: a torrent whose path is written over its name.
-/

open ByteStore BumpArena GuardedRun

namespace DartTorrent

variable {t : Target} {P : Placement t} {g : StrState} {T : Set Bytes} {name path : Bytes}

/-! ### Two calls of `lt_cached_str` -/

/-- Every pointer that `g_str_cache` stores still holds its string, and these are of `T`. -/
def CacheHolds (t : Target) (T : Set Bytes) (g : StrState) : Prop :=
  ∀ k p, g.gStrCache k = some p → ∃ x ∈ T, boostHash t x = k ∧ Holds 0 g.mem p x

/-- The state of the arena is one from which a query is asked to be coherent: the cursor is in
the arena, the stored pointers hold their strings, `boost::hash` has no collision on these and
the two of the query, and the two fit in the arena together. -/
structure QueryReady (P : Placement t) (g : StrState) (name path : Bytes) : Prop where
  cursor : ∃ c : P.Cursor, g.block = P.block c
  held : ∃ T, CacheHolds t T g ∧ name ∈ T ∧ path ∈ T ∧ Set.InjOn (boostHash t) T
  fits : (name.length + 1) + (path.length + 1) ≤ memBlockSize

/-- Where the next block of `n` bytes stands when the cursor is at `pos`. -/
def MemBlock.next (m : MemBlock) (pos n : ℕ) : ℕ := place m.gMemBlock m.gMemBlockEnd pos n

/-- The copies of the two strings agree where they overlap: those that are cached stand where
they were cached, a missing one in the next block from the cursor, the second missing one in
the block after that. -/
def CopiesAgree (t : Target) (g : StrState) (name path : Bytes) : Prop :=
  let pos := g.block.gMemBlockLast
  match g.gStrCache (boostHash t name), g.gStrCache (boostHash t path) with
  | some _, some _ => True
  | some p, none => Agree 0 p name (g.block.next pos (path.length + 1)) path
  | none, some q => Agree 0 (g.block.next pos (name.length + 1)) name q path
  | none, none =>
      let p := g.block.next pos (name.length + 1)
      name = path ∨ Agree 0 p name (g.block.next (p + (name.length + 1)) (path.length + 1)) path

/-- The string of a hit is held. -/
theorem CacheHolds.of_hit (h : CacheHolds t T g) (hinj : Set.InjOn (boostHash t) T) {x : Bytes}
    (hx : x ∈ T) {p : ℕ} (hhit : g.gStrCache (boostHash t x) = some p) : Holds 0 g.mem p x := by
  obtain ⟨y, hy, hhash, hholds⟩ := h _ p hhit
  obtain rfl : y = x := hinj hy hx hhash
  exact hholds

/-- A miss, in the words of `CopiesAgree`. -/
theorem cachedStr_miss {c : P.Cursor} (hc : g.block = P.block c) {x : Bytes}
    (hmiss : g.gStrCache (boostHash t x) = none) (hfit : x.length + 1 ≤ memBlockSize) :
    let p := g.block.next g.block.gMemBlockLast (x.length + 1)
    ∃ (c' : P.Cursor) (g' : StrState), ltCachedStrImpl t x g = (p, g') ∧
      g'.block = P.block c' ∧ c'.pos = p + (x.length + 1) ∧
      g'.gStrCache = Function.update g.gStrCache (boostHash t x) (some p) ∧
      Holds 0 g'.mem p x ∧ AgreesOff [stringSpan p x] g.mem g'.mem := by
  intro p
  have hp : p = (c.block (P.request (x.length + 1) hfit)).start := by
    simp only [p, hc]
    rfl
  obtain ⟨mem, hout, hholds, hframe⟩ :=
    ltCachedStrImpl_miss_spec P c hc hmiss (P.request (x.length + 1) hfit) rfl
  rw [hp]
  exact ⟨_, _, hout, rfl, rfl, rfl, hholds, hframe⟩

/-- The two calls of a query: their pointers and the state after both. -/
def cachedPair (t : Target) (name path : Bytes) (g : StrState) : (ℕ × ℕ) × StrState :=
  let (p, g) := ltCachedStrImpl t name g
  let (q, g) := ltCachedStrImpl t path g
  ((p, q), g)

theorem cachedPair_eq {g₁ g₂ : StrState} {p q : ℕ} (hname : ltCachedStrImpl t name g = (p, g₁))
    (hpath : ltCachedStrImpl t path g₁ = (q, g₂)) : cachedPair t name path g = ((p, q), g₂) := by
  simp only [cachedPair, hname, hpath]

/-- Both strings of a query are held after it. -/
def PairHeld (t : Target) (name path : Bytes) (g : StrState) : Prop :=
  let out := cachedPair t name path g
  Holds 0 out.2.mem out.1.1 name ∧ Holds 0 out.2.mem out.1.2 path

instance (name path : Bytes) (g : StrState) : Decidable (PairHeld t name path g) :=
  inferInstanceAs (Decidable (_ ∧ _))

/-- The name is in the cache: only the path's copy is new, if any is. -/
theorem pairHeld_iff_of_hit {c : P.Cursor} (hc : g.block = P.block c)
    (hholds : CacheHolds t T g) (hname : name ∈ T) (hpath : path ∈ T)
    (hinj : Set.InjOn (boostHash t) T) (hfit : path.length + 1 ≤ memBlockSize) {p : ℕ}
    (hn : g.gStrCache (boostHash t name) = some p) :
    PairHeld t name path g ↔ CopiesAgree t g name path := by
  have hheld : Holds 0 g.mem p name := hholds.of_hit hinj hname hn
  cases hq : g.gStrCache (boostHash t path) with
  | some q =>
      simp only [PairHeld, CopiesAgree, hn, hq,
        cachedPair_eq (ltCachedStrImpl_of_hit hn) (ltCachedStrImpl_of_hit hq), iff_true]
      exact ⟨hheld, hholds.of_hit hinj hpath hq⟩
  | none =>
      obtain ⟨c', g', hout, -, -, -, hnew, hframe⟩ := cachedStr_miss hc hq hfit
      simp only [PairHeld, CopiesAgree, hn, hq, cachedPair_eq (ltCachedStrImpl_of_hit hn) hout]
      exact (and_iff_left hnew).trans (hheld.after_write_iff hnew hframe)

/-- The name is not in the cache: its copy may fall on the path's, or the path's on it. -/
theorem pairHeld_iff_of_miss {c : P.Cursor} (hc : g.block = P.block c)
    (hholds : CacheHolds t T g) (hname : name ∈ T) (hpath : path ∈ T)
    (hinj : Set.InjOn (boostHash t) T) (hfit : name.length + 1 ≤ memBlockSize)
    (hfit' : path.length + 1 ≤ memBlockSize) (hn : g.gStrCache (boostHash t name) = none) :
    PairHeld t name path g ↔ CopiesAgree t g name path := by
  obtain ⟨c', g', hout, hblock, hpos, hcache, hnew, hframe⟩ := cachedStr_miss hc hn hfit
  by_cases heq : name = path
  · subst heq
    have hhit := (congrFun hcache (boostHash t name)).trans (Function.update_self ..)
    simp only [PairHeld, CopiesAgree, hn, cachedPair_eq hout (ltCachedStrImpl_of_hit hhit),
      true_or, iff_true]
    exact ⟨hnew, hnew⟩
  · have hother : g'.gStrCache (boostHash t path) = g.gStrCache (boostHash t path) := by
      rw [hcache]
      exact Function.update_of_ne (fun hhash => heq (hinj hpath hname hhash).symm) _ _
    cases hq : g.gStrCache (boostHash t path) with
    | some q =>
        have hheld : Holds 0 g.mem q path := hholds.of_hit hinj hpath hq
        simp only [PairHeld, CopiesAgree, hn, hq,
          cachedPair_eq hout (ltCachedStrImpl_of_hit (hother.trans hq))]
        exact (and_iff_right hnew).trans
          ((hheld.after_write_iff hnew hframe).trans ⟨Agree.symm, Agree.symm⟩)
    | none =>
        obtain ⟨c'', g'', hout', -, -, -, hnew', hframe'⟩ :=
          cachedStr_miss hblock (hother.trans hq) hfit'
        have hnext : g'.block.next g'.block.gMemBlockLast (path.length + 1) =
            g.block.next (g.block.next g.block.gMemBlockLast (name.length + 1) +
              (name.length + 1)) (path.length + 1) := by
          rw [← hpos, hblock, hc]
          rfl
        rw [hnext] at hout' hnew' hframe'
        simp only [PairHeld, CopiesAgree, hn, hq, cachedPair_eq hout hout', heq, false_or]
        exact (and_iff_left hnew').trans (hnew.after_write_iff hnew' hframe')

/-- **Both strings are held after the query** exactly when their copies agree where they
overlap. -/
theorem pairHeld_iff (h : QueryReady P g name path) :
    PairHeld t name path g ↔ CopiesAgree t g name path := by
  obtain ⟨⟨c, hc⟩, ⟨T, hholds, hname, hpath, hinj⟩, hfits⟩ := h
  have hfit : name.length + 1 ≤ memBlockSize := by omega
  have hfit' : path.length + 1 ≤ memBlockSize := by omega
  cases hn : g.gStrCache (boostHash t name) with
  | some p => exact pairHeld_iff_of_hit hc hholds hname hpath hinj hfit' hn
  | none => exact pairHeld_iff_of_miss hc hholds hname hpath hinj hfit hfit' hn

/-! ### Queries -/

/-- The backend of the code, with both overloads for strings. -/
def processFiles (t : Target) (pol : StreamPolicy) (codec : ResumeCodec)
    (update : UpdateResults) (remove : RemoveResults) : FilesBackend Process where
  toBackend := processBackend t pol codec update remove
  cachedView s p :=
    let (ptr, g) := ltCachedStrView t s p.str
    (ptr, { p with str := g })

/-- The two strings of the query, if the event is one of a listed torrent that is valid, or of
a file of a torrent: `status.name` and `status.save_path`, or `file_name` and `file_path`. -/
def IndexEvent.strings (s : ClientState Process) : IndexEvent → Option (Bytes × Bytes)
  | .client (.queryTorrent env i) =>
      (s.app.gTorrentHandles[i]?.filter env.isValid).map fun torrent =>
        ((env.status torrent).name, (env.status torrent).savePath)
  | .queryFile query i =>
      ((query.bind FilesResult.pTorrentInfo).bind fun info =>
          if i < 0 then none else info.files[i.toNat]?).map fun file => (file.name, file.path)
  | _ => none

section Queries

variable (B : FilesBackend Process)

/-- The two pointers of the result. -/
def IndexEvent.pointers (s : ClientState Process) : IndexEvent → Option (ℕ × ℕ)
  | .client (.queryTorrent env i) =>
      let result := (ltQueryTorrent env B.toBackend i s.app).1
      some (result.name, result.savePath)
  | .queryFile query i =>
      ((ltQueryFile B query i s.app).bind Prod.fst).map fun result => (result.name, result.path)
  | _ => none

/-- The result holds both strings when it is returned. -/
def IndexEvent.HoldsBoth (s : ClientState Process) (e : IndexEvent) (name path : Bytes) : Prop :=
  ∃ p q, e.pointers B s = some (p, q) ∧
    Holds 0 (indexStep B s e).app.store.str.mem p name ∧
    Holds 0 (indexStep B s e).app.store.str.mem q path

end Queries

variable {pol : StreamPolicy} {codec : ResumeCodec} {update : UpdateResults}
  {remove : RemoveResults}

/-- **A query is the two calls**, the first on the name. -/
theorem query_eq (pol : StreamPolicy) (codec : ResumeCodec) (update : UpdateResults)
    (remove : RemoveResults) {s : ClientState Process} {e : IndexEvent}
    (h : e.strings s = some (name, path)) :
    e.pointers (processFiles t pol codec update remove) s =
        some (cachedPair t name path s.app.store.str).1 ∧
      (indexStep (processFiles t pol codec update remove) s e).app.store.str =
        (cachedPair t name path s.app.store.str).2 := by
  cases e with
  | client e =>
      cases e with
      | queryTorrent env i =>
          obtain ⟨torrent, htorrent, hstrings⟩ := Option.map_eq_some_iff.mp h
          obtain ⟨rfl, rfl⟩ := Prod.mk.inj hstrings
          obtain ⟨hi, hvalid⟩ := Option.filter_eq_some_iff.mp htorrent
          simp only [IndexEvent.pointers, indexStep, clientStep, ltQueryTorrent, hi, hvalid]
          exact ⟨rfl, rfl⟩
      | _ => exact absurd h (by simp [IndexEvent.strings])
  | queryFile query i =>
      obtain ⟨file, hread, hstrings⟩ := Option.map_eq_some_iff.mp h
      obtain ⟨rfl, rfl⟩ := Prod.mk.inj hstrings
      obtain ⟨info, hquery, hfile⟩ := Option.bind_eq_some_iff.mp hread
      obtain ⟨q, rfl, hinfo⟩ := Option.bind_eq_some_iff.mp hquery
      by_cases hneg : i < 0
      · exact absurd hfile (by simp [hneg])
      · rw [if_neg hneg] at hfile
        simp only [IndexEvent.pointers, indexStep, ltQueryFile, hinfo, if_neg hneg, subscript,
          hfile, Access.call]
        exact ⟨rfl, rfl⟩
  | _ => exact absurd h (by simp [IndexEvent.strings])

/-- The result holds both strings exactly when the two calls leave both. -/
theorem holdsBoth_iff {s : ClientState Process} {e : IndexEvent}
    (h : e.strings s = some (name, path)) :
    e.HoldsBoth (processFiles t pol codec update remove) s name path ↔
      PairHeld t name path s.app.store.str := by
  obtain ⟨hpointers, hafter⟩ := query_eq pol codec update remove h
  rw [IndexEvent.HoldsBoth, hpointers, hafter, PairHeld]
  constructor
  · rintro ⟨p, q, heq, hp, hq⟩
    rw [Option.some.inj heq]
    exact ⟨hp, hq⟩
  · rintro ⟨hp, hq⟩
    exact ⟨_, _, rfl, hp, hq⟩

/-- **A query result is coherent exactly when the copies agree.** In every run of alerts and
client calls over the process, from every state: wherever a torrent or a file is queried with
the cursor in the arena, every pointer of `g_str_cache` holding its string, no collision on the
strings involved and the two of the query fitting in the arena together, the result holds both
strings when it is returned; if and only if, wherever such a query is made, the copies of the
two strings agree where they overlap. -/
theorem query_coherent_iff (P : Placement t) (pol : StreamPolicy) (codec : ResumeCodec)
    (update : UpdateResults) (remove : RemoveResults) (s : ClientState Process)
    (events : List IndexEvent) :
    let B := processFiles t pol codec update remove
    Along (indexStep B) (fun s e => ∀ name path, e.strings s = some (name, path) →
        QueryReady P s.app.store.str name path → e.HoldsBoth B s name path) s events ↔
      Along (indexStep B) (fun s e => ∀ name path, e.strings s = some (name, path) →
        QueryReady P s.app.store.str name path →
          CopiesAgree t s.app.store.str name path) s events := by
  intro B
  have hquery : ∀ (s : ClientState Process) (e : IndexEvent) (name path : Bytes),
      e.strings s = some (name, path) → QueryReady P s.app.store.str name path →
      (e.HoldsBoth B s name path ↔ CopiesAgree t s.app.store.str name path) :=
    fun s e name path hstrings hready => (holdsBoth_iff hstrings).trans (pairHeld_iff hready)
  constructor
  · intro h
    exact h.mono fun s e hstep name path hstrings hready =>
      (hquery s e name path hstrings hready).mp (hstep name path hstrings hready)
  · intro h
    exact h.mono fun s e hstep name path hstrings hready =>
      (hquery s e name path hstrings hready).mpr (hstep name path hstrings hready)

/-! ### A path next to a name, and over it -/

/-- In a run of the arena's users whose copies nothing has fallen on, every pointer of the cache
holds its string. -/
theorem cacheHolds_of_cacheInv {st : CacheState} (inv : CacheInv P T st)
    (hover : ∀ c ∈ st.copies, c.overwritten = false) : CacheHolds t T st.g := by
  intro k p hentry
  obtain ⟨c, hc, hhash, rfl⟩ := inv.copies.recorded k p hentry
  exact ⟨c.text, inv.copies.text_mem c hc, hhash, inv.copies.holds c hc (hover c hc)⟩

/-- A query after such a run, for two strings of which the first may be cached and the second is not
asked for in the run. -/
theorem queryReady_of_run {t : Target} {P : Placement t} {name path : Bytes} (pol : StreamPolicy)
    {mem : Mem UInt8} (ops : List CacheOp)
    (hfit : Along (cacheStep t pol) (fun st op => op.Fits st) (CacheState.start P.base mem) ops)
    (htexts : ∀ op ∈ ops, ∀ x ∈ op.text, x = name)
    (hover : ∀ c ∈ (run (cacheStep t pol) (CacheState.start P.base mem) ops).copies,
      c.overwritten = false)
    (hne : boostHash t name ≠ boostHash t path)
    (hfits : (name.length + 1) + (path.length + 1) ≤ memBlockSize) :
    QueryReady P (run (cacheStep t pol) (CacheState.start P.base mem) ops).g name path := by
  have inv : CacheInv P ({name, path} : Set Bytes)
      (run (cacheStep t pol) (CacheState.start P.base mem) ops) :=
    cacheInv_run pol mem hfit fun op hop x hx => htexts op hop x hx ▸ Set.mem_insert _ _
  refine ⟨inv.block, ⟨{name, path}, cacheHolds_of_cacheInv inv hover, ?_, ?_, ?_⟩, hfits⟩
  · exact Set.mem_insert _ _
  · exact Set.mem_insert_of_mem _ rfl
  · exact Set.injOn_pair.mpr fun heq => absurd heq hne

/-- **A path is written next to a name.** The name `"a"` is cached behind a block of 64 bytes, and a
client takes the arena up to its last byte. The torrent is queried, its path being `"bc"`: the copy
of the path goes to the base of the arena and ends before the name, and the result holds both. -/
theorem query_coherent_small :
    let ops : List CacheOp := [.alloc 64 [], .string [97], .alloc (memBlockSize - 67) []]
    let st := run (cacheStep Target.x64 .fifteenInObject)
      (CacheState.start Placement.low.base fun _ => 0) ops
    let env : Env := { Env.ofDead [] with
      status := fun _ => ⟨[97], [98, 99], .seeding, 0, 0, 0, true⟩ }
    let s : ClientState Process := ⟨⟨[⟨some 1⟩], false, ⟨st.g, ⟨.empty, none, 0⟩⟩, []⟩, []⟩
    let e : IndexEvent := .client (.queryTorrent env 0)
    let B := processFiles Target.x64 .fifteenInObject netstringCodec {} {}
    QueryReady Placement.low s.app.store.str [97] [98, 99] ∧ e.HoldsBoth B s [97] [98, 99] := by
  intro ops st env s e B
  have hready : QueryReady Placement.low s.app.store.str [97] [98, 99] :=
    queryReady_of_run .fifteenInObject ops (by decide +kernel) (by decide +kernel)
      (by decide +kernel) (by decide) (by decide)
  have hagree : ∀ name path, e.strings s = some (name, path) →
      QueryReady Placement.low s.app.store.str name path →
        CopiesAgree Target.x64 s.app.store.str name path := by
    intro name path hstrings _
    obtain ⟨rfl, rfl⟩ := Prod.mk.inj (Option.some.inj hstrings)
    have hname : st.g.gStrCache (boostHash Target.x64 [97]) = some 4160 := by decide +kernel
    have hpath : st.g.gStrCache (boostHash Target.x64 [98, 99]) = none := by decide +kernel
    have hplace : st.g.block.next st.g.block.gMemBlockLast 3 = 4096 := by decide +kernel
    simp only [CopiesAgree, s, env, hname, hpath]
    intro i hi j hj heq
    simp only [List.length_cons, List.length_nil, hplace] at hi hj heq
    omega
  have hrun := (query_coherent_iff Placement.low .fifteenInObject netstringCodec {} {} s [e]).mpr
    ⟨hagree, trivial⟩
  exact ⟨hready, hrun.1 [97] [98, 99] rfl hready⟩

/-- **A path is written over a name.** The name `"a"` is cached at the base of the arena. The
buffers of three blobs, which double as they grow, leave the cursor one byte before the end.
The torrent is queried, its path being `"bc"`: the copy of the path goes to the base, and the
name in the result reads `"bc"` too. -/
theorem query_incoherent :
    let ops : List CacheOp := .string [97] ::
      (List.range 22 ++ List.range 21 ++ List.range 21).map fun k => .alloc (2 ^ k) []
    let st := run (cacheStep Target.x64 .fifteenInObject)
      (CacheState.start Placement.low.base fun _ => 0) ops
    let env : Env := { Env.ofDead [] with
      status := fun _ => ⟨[97], [98, 99], .seeding, 0, 0, 0, true⟩ }
    let s : ClientState Process := ⟨⟨[⟨some 1⟩], false, ⟨st.g, ⟨.empty, none, 0⟩⟩, []⟩, []⟩
    let e : IndexEvent := .client (.queryTorrent env 0)
    let B := processFiles Target.x64 .fifteenInObject netstringCodec {} {}
    e.strings s = some ([97], [98, 99]) ∧
      QueryReady Placement.low s.app.store.str [97] [98, 99] ∧
      ¬ e.HoldsBoth B s [97] [98, 99] := by
  intro ops st env s e B
  have hstrings : e.strings s = some ([97], [98, 99]) := rfl
  refine ⟨hstrings, ?_, ?_⟩
  · exact queryReady_of_run .fifteenInObject ops (by decide +kernel) (by decide +kernel)
      (by decide +kernel) (by decide +kernel) (by decide)
  · rw [holdsBoth_iff hstrings]
    decide +kernel

end DartTorrent
