import DartTorrent.StrCache

/-!
# The Answers of the String Cache

What a client has after a run of calls is a list of pointers, one for each call of
`lt_cached_str`. This module keeps the list beside the state of the cache, and follows it
through runs in which the arena is not reset: then every request is served behind the
blocks that were handed out before, and nothing is ever written over a text that was
returned.

## Main results

* `cacheStep_serves`: what one operation does without a reset, for the cursor, the memory, the
  blocks and the pointer returned.
* `answersInv_step`: the representation invariant of the cache, kept by every operation.
* `ltCachedStr_stable`: the pointers returned stay right, equal texts share a block, different
  ones have disjoint blocks, and only the first request of a text takes space.
* `ltCachedStr_own_iff`: every call returns its own text if and only if no two of the texts
  collide. `ltCachedStr_collision` is a collision on a 64-bit target.
-/

open ByteStore BumpArena GuardedRun

namespace DartTorrent

/-! ### Runs with their answers -/

/-- A call of `lt_cached_str` and the pointer that it returned. -/
structure Answer where
  op : CacheOp
  ptr : ℕ

/-- The text that a call is to return. -/
def CacheOp.content : CacheOp → Option Bytes
  | .string s => some s
  | .view s => some s
  | .hash h => some (hexText h)
  | _ => none

/-- The cache and its clients, and the calls answered so far, in order. -/
structure Served where
  cache : CacheState
  answers : List Answer

/-- The state at start-up. -/
def Served.start (base : ℕ) (mem : Mem UInt8) : Served := ⟨CacheState.start base mem, []⟩

section Run

variable (t : Target) (pol : StreamPolicy)

/-- The pointer that a call returns. -/
def CacheOp.returned (st : CacheState) : CacheOp → Option ℕ
  | .string s => some (ltCachedStrString t s st.g).1
  | .view s => some (ltCachedStrView t s st.g).1
  | .hash h => some (ltCachedStrHash t pol h st.g).1
  | _ => none

/-- One operation; a call adds its answer. -/
def serveStep (s : Served) (op : CacheOp) : Served where
  cache := cacheStep t pol s.cache op
  answers := s.answers ++ ((op.returned t pol s.cache).map (Answer.mk op)).toList

/-- No request of the operation sends the cursor back, by a reset or around the address space:
they end below the end of the arena. -/
def CacheOp.NoReset (st : CacheState) (op : CacheOp) : Prop :=
  Straight st.g.block.gMemBlockEnd st.g.block.gMemBlockLast (op.requests t pol st.g)

instance (st : CacheState) (op : CacheOp) : Decidable (op.NoReset t pol st) :=
  inferInstanceAs (Decidable (Straight _ _ _))

end Run

variable {t : Target} {pol : StreamPolicy} {st : CacheState} {op : CacheOp} {x : Bytes} {p : ℕ}

/-! ### The two maps -/

/-- A call of either string overload, by its text. -/
theorem cacheStep_text (t : Target) (pol : StreamPolicy) (st : CacheState)
    (h : op.text = some x) :
    (cacheStep t pol st op).g = (ltCachedStrImpl t x st.g).2 ∧
      op.returned t pol st = some (ltCachedStrImpl t x st.g).1 ∧
      op.requests t pol st.g =
        (if (st.g.gStrCache (boostHash t x)).isSome then [] else [x.length + 1]) ∧
      (cacheStep t pol st op).blocks = st.blocks := by
  cases op with
  | string s =>
      obtain rfl : s = x := Option.some.inj h
      exact ⟨rfl, rfl, rfl, rfl⟩
  | view s =>
      obtain rfl : s = x := Option.some.inj h
      exact ⟨rfl, rfl, rfl, rfl⟩
  | _ => exact absurd h (by simp [CacheOp.text])

/-- **`g_str_cache` after an operation**: a call enters the pointer that it returns, which on a
hit is the one already there. -/
theorem gStrCache_cacheStep (t : Target) (pol : StreamPolicy) (st : CacheState) (op : CacheOp) :
    (cacheStep t pol st op).g.gStrCache =
      match op.text with
      | none => st.g.gStrCache
      | some x => Function.update st.g.gStrCache (boostHash t x) (op.returned t pol st) := by
  cases htext : op.text with
  | some x =>
      obtain ⟨hg, hreturned, -, -⟩ := cacheStep_text t pol st htext
      rw [hg, hreturned]
      cases hcache : st.g.gStrCache (boostHash t x) with
      | some q =>
          have hself : Function.update st.g.gStrCache (boostHash t x) (some q) =
              st.g.gStrCache := by rw [← hcache, Function.update_eq_self]
          rw [ltCachedStrImpl_of_hit hcache]
          exact hself.symm
      | none => rw [ltCachedStrImpl_of_miss hcache]; rfl
  | none =>
      cases op with
      | hash h => exact (caches_ltCachedStrHash t pol h st.g).1
      | alloc n ws => rfl
      | write i ws =>
          rw [cacheStep]
          split <;> rfl
      | _ => exact absurd htext (by simp [CacheOp.text])

/-- `g_hash_cache` is never stored to. -/
theorem gHashCache_cacheStep (t : Target) (pol : StreamPolicy) (st : CacheState) (op : CacheOp) :
    (cacheStep t pol st op).g.gHashCache = st.g.gHashCache := by
  have himpl : ∀ x, (ltCachedStrImpl t x st.g).2.gHashCache = st.g.gHashCache := by
    intro x
    cases hcache : st.g.gStrCache (boostHash t x) with
    | some q => rw [ltCachedStrImpl_of_hit hcache]
    | none => rw [ltCachedStrImpl_of_miss hcache]; rfl
  cases op with
  | string s => exact himpl s
  | view s => exact himpl s
  | hash h => exact (caches_ltCachedStrHash t pol h st.g).2
  | alloc n ws => rfl
  | write i ws =>
      rw [cacheStep]
      split <;> rfl

/-- So no hash is ever found. -/
theorem hash_miss_cacheStep (hmiss : ∀ h, st.g.gHashCache h = none) (op : CacheOp)
    (h : Sha1Hash) : (cacheStep t pol st op).g.gHashCache h = none := by
  rw [gHashCache_cacheStep]
  exact hmiss h

/-- A cached text is answered with the pointer cached for its hash. -/
theorem returned_of_hit (h : op.text = some x)
    (hhit : st.g.gStrCache (boostHash t x) = some p) : op.returned t pol st = some p := by
  obtain ⟨-, hreturned, -⟩ := cacheStep_text t pol st h
  rw [hreturned, ltCachedStrImpl_of_hit hhit]

/-- The texts that were answered. -/
def Served.texts (s : Served) : Set Bytes := {x | ∃ a ∈ s.answers, x ∈ a.op.text}

/-- The map answers every text that was answered with the same pointer. -/
def Found (t : Target) (s : Served) : Prop :=
  ∀ a ∈ s.answers, ∀ x ∈ a.op.text, s.cache.g.gStrCache (boostHash t x) = some a.ptr

/-- The map has only pointers that were answered, each under the hash of its text. -/
def Cached (t : Target) (s : Served) : Prop :=
  ∀ h p, s.cache.g.gStrCache h = some p →
    ∃ a ∈ s.answers, ∃ x ∈ a.op.text, boostHash t x = h ∧ a.ptr = p

theorem found_start (base : ℕ) (mem : Mem UInt8) : Found t (Served.start base mem) :=
  fun _ ha => absurd ha List.not_mem_nil

theorem cached_start (base : ℕ) (mem : Mem UInt8) : Cached t (Served.start base mem) :=
  fun _ _ hentry => absurd hentry (by simp [Served.start, CacheState.start])

theorem texts_start (base : ℕ) (mem : Mem UInt8) : (Served.start base mem).texts = ∅ := by
  simp [Served.texts, Served.start]

/-- A text is a hit exactly when a text of its hash was answered. -/
theorem isSome_gStrCache_iff {s : Served} (hfound : Found t s) (hcached : Cached t s) :
    (s.cache.g.gStrCache (boostHash t x)).isSome ↔
      ∃ y ∈ s.texts, boostHash t y = boostHash t x := by
  constructor
  · intro hsome
    obtain ⟨p, hp⟩ := Option.isSome_iff_exists.mp hsome
    obtain ⟨a, ha, y, hy, hhash, -⟩ := hcached _ p hp
    exact ⟨y, ⟨a, ha, hy⟩, hhash⟩
  · rintro ⟨y, ⟨a, ha, hy⟩, hhash⟩
    rw [← hhash, hfound a ha y hy]
    rfl

theorem mem_answers_serveStep {s : Served} {a : Answer} :
    a ∈ (serveStep t pol s op).answers ↔
      a ∈ s.answers ∨ (a.op = op ∧ op.returned t pol s.cache = some a.ptr) := by
  obtain ⟨op', q⟩ := a
  rw [serveStep, List.mem_append, Option.mem_toList, Option.map_eq_some_iff]
  refine or_congr Iff.rfl ⟨?_, ?_⟩
  · rintro ⟨q', hq, heq⟩
    obtain ⟨rfl, rfl⟩ := Answer.mk.inj heq
    exact ⟨rfl, hq⟩
  · rintro ⟨rfl, hq⟩
    exact ⟨q, hq, rfl⟩

/-- **No entry of the map is ever changed**, by any operation in any state. -/
theorem found_step {s : Served} (h : Found t s) (op : CacheOp) :
    Found t (serveStep t pol s op) := by
  intro a ha x hx
  have hcache : (serveStep t pol s op).cache.g.gStrCache = _ :=
    gStrCache_cacheStep t pol s.cache op
  rw [hcache]
  rcases mem_answers_serveStep.mp ha with hold | ⟨rfl, hreturned⟩
  · have hentry := h a hold x hx
    cases htext : op.text with
    | none => exact hentry
    | some y =>
        by_cases hxy : boostHash t x = boostHash t y
        · rw [hxy] at hentry
          rw [hxy, returned_of_hit htext hentry]
          exact Function.update_self ..
        · exact (Function.update_of_ne hxy _ _).trans hentry
  · rw [show a.op.text = some x from hx, hreturned]
    exact Function.update_self ..

/-- **Nothing else is ever in the map**, after any operation in any state. -/
theorem cached_step {s : Served} (h : Cached t s) (op : CacheOp) :
    Cached t (serveStep t pol s op) := by
  intro k p hentry
  have hcache : (serveStep t pol s op).cache.g.gStrCache = _ :=
    gStrCache_cacheStep t pol s.cache op
  rw [hcache] at hentry
  have hold : s.cache.g.gStrCache k = some p →
      ∃ a ∈ (serveStep t pol s op).answers, ∃ x ∈ a.op.text, boostHash t x = k ∧ a.ptr = p := by
    intro hbefore
    obtain ⟨a, ha, hax⟩ := h k p hbefore
    exact ⟨a, mem_answers_serveStep.mpr (Or.inl ha), hax⟩
  cases htext : op.text with
  | none =>
      rw [htext] at hentry
      exact hold hentry
  | some x =>
      rw [htext] at hentry
      dsimp only at hentry
      by_cases hkey : k = boostHash t x
      · rw [hkey, Function.update_self] at hentry
        exact ⟨⟨op, p⟩, mem_answers_serveStep.mpr (Or.inr ⟨rfl, hentry⟩), x, htext, hkey.symm,
          rfl⟩
      · rw [Function.update_of_ne hkey] at hentry
        exact hold hentry

/-! ### One operation without a reset -/

/-- The first address behind the blocks handed out. -/
def CacheState.last (st : CacheState) : ℕ := st.g.block.gMemBlockLast

/-- What an operation without a reset does to the arena: it hands out blocks behind the
others, and writes there or in the block of a client. -/
structure Grows (st st' : CacheState) : Prop where
  last_le : st.last ≤ st'.last
  frame : ∃ bs, AgreesOff bs st.g.mem st'.g.mem ∧ ∀ b ∈ bs, st.last ≤ b.start ∨ b ∈ st.blocks
  blocks : ∀ b ∈ st'.blocks, b ∈ st.blocks ∨ (st.last ≤ b.start ∧ b.stop ≤ st'.last)

/-- The arena holds `x` at `p`, before its cursor and apart from the blocks of clients. -/
structure Held (P : Placement t) (st : CacheState) (p : ℕ) (x : Bytes) : Prop where
  base_le : P.base ≤ p
  stop_le : (stringSpan p x).stop ≤ st.last
  holds : Holds 0 st.g.mem p x
  clear : ∀ b ∈ st.blocks, ¬ b.Overlaps (stringSpan p x)

variable {P : Placement t} {st' : CacheState}

/-- **What is held stays held** while the arena grows. -/
theorem Held.grows (h : Held P st p x) (hgrow : Grows st st') : Held P st' p x := by
  obtain ⟨bs, hagree, hbs⟩ := hgrow.frame
  have hbehind : ∀ b : Span, st.last ≤ b.start → ¬ b.Overlaps (stringSpan p x) :=
    fun b hb => Span.not_overlaps_of_le_start (h.stop_le.trans hb)
  refine ⟨h.base_le, h.stop_le.trans hgrow.last_le, h.holds.of_agreesOff hagree ?_, ?_⟩
  · intro b hb
    rcases hbs b hb with hlast | hold
    · exact hbehind b hlast
    · exact h.clear b hold
  · intro b hb
    rcases hgrow.blocks b hb with hold | ⟨hlast, -⟩
    · exact h.clear b hold
    · exact hbehind b hlast

/-- The end of what was handed out is the cursor. -/
theorem last_of_block {c : P.Cursor} (hc : st.g.block = P.block c) : st.last = c.pos := by
  rw [CacheState.last, hc]
  rfl

/-- What one operation without a reset does, with the cursor at `c` before it: it advances the
cursor by its requests, and a call returns a cached pointer, or that of a block behind all
others that holds its text. -/
structure Serves (t : Target) (pol : StreamPolicy) (P : Placement t) (c : P.Cursor)
    (st : CacheState) (op : CacheOp) : Prop where
  cursor : ∃ c' : P.Cursor, (cacheStep t pol st op).g.block = P.block c' ∧
    c'.pos = c.pos + (op.requests t pol st.g).sum
  grows : Grows st (cacheStep t pol st op)
  answer : ∀ x ∈ op.content, ∃ p, op.returned t pol st = some p ∧
    ((op.text = some x ∧ st.g.gStrCache (boostHash t x) = some p) ∨
      (c.pos ≤ p ∧ (stringSpan p x).stop = (cacheStep t pol st op).last ∧
        Holds 0 (cacheStep t pol st op).g.mem p x ∧
        (cacheStep t pol st op).blocks = st.blocks))

section Serves

variable {c : P.Cursor}

theorem content_of_text (h : op.text = some x) : op.content = some x := by
  cases op with
  | string s => exact h
  | view s => exact h
  | _ => exact absurd h (by simp [CacheOp.text])

/-- A call leaves the blocks of the clients alone. -/
theorem blocks_of_content (h : op.content = some x) :
    (cacheStep t pol st op).blocks = st.blocks := by
  cases op with
  | alloc n ws => exact absurd h (by simp [CacheOp.content])
  | write i ws => exact absurd h (by simp [CacheOp.content])
  | _ => rfl

/-- A call that makes no request is answered with a cached pointer. -/
theorem cached_of_requests_nil (hmiss : ∀ h, st.g.gHashCache h = none)
    (hx : op.content = some x) (hnone : op.requests t pol st.g = []) :
    op.text = some x ∧ (st.g.gStrCache (boostHash t x)).isSome := by
  cases op with
  | string s | view s =>
      obtain rfl : s = x := Option.some.inj hx
      refine ⟨rfl, ?_⟩
      by_contra hcache
      rw [CacheOp.requests, if_neg hcache] at hnone
      exact absurd hnone (List.cons_ne_nil _ _)
  | hash h => exact absurd hnone (by simp [CacheOp.requests, hmiss h, StreamPolicy.requests])
  | _ => exact absurd hx (by simp [CacheOp.content])

/-- A call that makes requests returns its text in the block handed out last. -/
theorem returned_of_requests (hc : st.g.block = P.block c) (hmiss : ∀ h, st.g.gHashCache h = none)
    (hrequests : ∀ n ∈ op.requests t pol st.g, n ≤ memBlockSize) (hx : op.content = some x)
    (hnew : op.requests t pol st.g ≠ []) :
    x.length + 1 ∈ op.requests t pol st.g ∧
      ∃ p, ∃ c' : P.Cursor, op.returned t pol st = some p ∧
        (cacheStep t pol st op).g.block = P.block c' ∧ p + (x.length + 1) = c'.pos ∧
        Holds 0 (cacheStep t pol st op).g.mem p x := by
  cases htext : op.text with
  | some y =>
      obtain rfl : y = x := Option.some.inj ((content_of_text htext).symm.trans hx)
      obtain ⟨hg, hreturned, heq, -⟩ := cacheStep_text t pol st htext
      cases hcache : st.g.gStrCache (boostHash t y) with
      | some q => exact absurd (by rw [heq, hcache]; rfl) hnew
      | none =>
          have hmem : y.length + 1 ∈ op.requests t pol st.g := by
            rw [heq, hcache]
            exact List.mem_singleton_self _
          obtain ⟨mem, hout, hholds, -⟩ :=
            ltCachedStrImpl_miss_spec P c hc hcache (P.request _ (hrequests _ hmem)) rfl
          rw [hg, hreturned, hout]
          exact ⟨hmem, _, _, rfl, rfl, rfl, hholds⟩
  | none =>
      cases op with
      | hash h =>
          obtain rfl : hexText h = x := Option.some.inj hx
          obtain ⟨c', -, hblock, hlast, -, hholds, -⟩ := ltCachedStrHash_spec P c hc pol h (hmiss h)
          refine ⟨?_, _, c', rfl, hblock, by rw [length_hexText, ← hlast], hholds⟩
          simp [CacheOp.requests, hmiss h, StreamPolicy.requests, length_hexText]
      | alloc n ws => exact absurd hx (by simp [CacheOp.content])
      | write i ws => exact absurd hx (by simp [CacheOp.content])
      | _ => exact absurd htext (by simp [CacheOp.text])

/-- Requests that are served without a reset are within the arena. -/
theorem requests_le_of_straight {ns : List ℕ} (h : Straight P.stop c.pos ns) :
    ∀ n ∈ ns, n ≤ memBlockSize := by
  intro n hn
  have hlo := c.lo_le_pos
  have hle := List.le_sum_of_mem hn
  rcases straight_iff.mp h with rfl | hsum
  · exact absurd hn List.not_mem_nil
  · simp only [Placement.stop] at hsum
    omega

/-- **Every operation serves**, unless it resets the arena. -/
theorem cacheStep_serves (hc : st.g.block = P.block c) (hmiss : ∀ h, st.g.gHashCache h = none)
    (hreset : op.NoReset t pol st) (hinside : op.WritesInside st) : Serves t pol P c st op := by
  rw [CacheOp.NoReset, hc] at hreset
  have hreset : Straight P.stop c.pos (op.requests t pol st.g) := hreset
  have hrequests := requests_le_of_straight hreset
  obtain ⟨⟨c', hc', hpos⟩, hframe⟩ := cacheStep_frame pol hc hmiss hrequests hinside
  rw [after_of_straight _ hreset] at hpos
  have hlast := last_of_block hc
  have hlast' := last_of_block hc'
  refine ⟨⟨c', hc', hpos⟩, ⟨by omega, ⟨_, hframe, fun b hb => ?_⟩, fun b hb => ?_⟩,
    fun x hx => ?_⟩
  · rcases mem_touched hc hb with hnew | ⟨i, ws, -, hold⟩
    · exact Or.inl (hlast.trans_le (le_start_of_straight hreset hnew))
    · exact Or.inr (List.mem_of_getElem? hold)
  · obtain ⟨i, hi⟩ := List.getElem?_of_mem hb
    rcases mem_blocks_cacheStep hc hrequests hi with hold | hnew
    · exact Or.inl (List.mem_of_getElem? hold)
    · obtain ⟨hstart, hstop⟩ := within_of_straight hreset hnew
      exact Or.inr ⟨by omega, by omega⟩
  · by_cases hnone : op.requests t pol st.g = []
    · obtain ⟨htext, hcached⟩ := cached_of_requests_nil hmiss hx hnone
      obtain ⟨p, hp⟩ := Option.isSome_iff_exists.mp hcached
      exact ⟨p, returned_of_hit htext hp, Or.inl ⟨htext, hp⟩⟩
    · obtain ⟨hmem, p, c'', hreturned, hc'', hend, hholds⟩ :=
        returned_of_requests hc hmiss hrequests hx hnone
      have hle := List.le_sum_of_mem hmem
      have hlast'' := last_of_block hc''
      refine ⟨p, hreturned, Or.inr ⟨by omega, ?_, hholds, blocks_of_content hx⟩⟩
      exact hend.trans hlast''.symm

end Serves

/-! ### The invariant -/

/-- The representation invariant of the cache between resets, for the texts `T` of the run:
the arena holds what was answered, different answers stand apart, and the map has exactly the
pointers that were answered. -/
structure AnswersInv (P : Placement t) (T : Set Bytes) (s : Served) : Prop where
  cursor : ∃ c : P.Cursor, s.cache.g.block = P.block c
  hash_miss : ∀ h, s.cache.g.gHashCache h = none
  blocks : ∀ b ∈ s.cache.blocks, b.stop ≤ s.cache.last
  held : ∀ a ∈ s.answers, ∀ x ∈ a.op.content, Held P s.cache a.ptr x
  apart : ∀ a ∈ s.answers, ∀ b ∈ s.answers, ∀ x ∈ a.op.content, ∀ y ∈ b.op.content,
    (a.ptr = b.ptr ∧ x = y) ∨ ¬ (stringSpan a.ptr x).Overlaps (stringSpan b.ptr y)
  found : Found t s
  cached : Cached t s
  text_mem : ∀ a ∈ s.answers, ∀ x ∈ a.op.text, x ∈ T

variable {T : Set Bytes} {s : Served}

/-- An operation between resets, its text in `T`. -/
structure BetweenResets (t : Target) (pol : StreamPolicy) (T : Set Bytes) (s : Served)
    (op : CacheOp) : Prop where
  reset : op.NoReset t pol s.cache
  inside : op.WritesInside s.cache
  text_mem : ∀ x ∈ op.text, x ∈ T

theorem along_betweenResets {ops : List CacheOp}
    (h : Along (serveStep t pol)
      (fun s op => op.NoReset t pol s.cache ∧ op.WritesInside s.cache) s ops) :
    Along (serveStep t pol) (BetweenResets t pol {x | some x ∈ ops.map CacheOp.text}) s ops := by
  have htexts : ∀ op ∈ ops, ∀ x ∈ op.text, some x ∈ ops.map CacheOp.text :=
    fun op hop x hx => List.mem_map.mpr ⟨op, hop, hx⟩
  refine (along_and.mpr ⟨h, along_of_forall_mem htexts⟩).mono fun s op hop => ?_
  obtain ⟨⟨hreset, hinside⟩, hmem⟩ := hop
  exact ⟨hreset, hinside, hmem⟩

theorem answersInv_start (mem : Mem UInt8) : AnswersInv P T (Served.start P.base mem) where
  cursor := ⟨P.start, P.ltInitStrCache_eq⟩
  hash_miss := fun _ => rfl
  blocks := by simp [Served.start, CacheState.start]
  held := by simp [Served.start]
  apart := by simp [Served.start]
  found := found_start _ _
  cached := cached_start _ _
  text_mem := by simp [Served.start]

section Step

variable {c : P.Cursor}

/-- A call repeats an earlier answer, or its block stands behind all others. -/
theorem AnswersInv.answer (inv : AnswersInv P T s) (hinj : Set.InjOn (boostHash t) T)
    (hc : s.cache.g.block = P.block c) (hT : ∀ x ∈ op.text, x ∈ T)
    (hserves : Serves t pol P c s.cache op) (hx : x ∈ op.content)
    (hp : op.returned t pol s.cache = some p) :
    (∃ a ∈ s.answers, a.op.content = some x ∧ a.ptr = p) ∨
      (s.cache.last ≤ p ∧ Held P (cacheStep t pol s.cache op) p x) := by
  obtain ⟨q, hq, hcase⟩ := hserves.answer x hx
  obtain rfl : p = q := Option.some.inj (hp.symm.trans hq)
  rw [last_of_block hc]
  rcases hcase with ⟨htext, hhit⟩ | ⟨hlast, hstop, hholds, hblocks⟩
  · obtain ⟨a, ha, y, hy, hhash, hptr⟩ := inv.cached _ _ hhit
    obtain rfl : y = x := hinj (inv.text_mem a ha y hy) (hT x htext) hhash
    exact Or.inl ⟨a, ha, content_of_text hy, hptr⟩
  · refine Or.inr ⟨hlast, c.lo_le_pos.trans hlast, hstop.le, hholds, fun b hb => ?_⟩
    rw [hblocks] at hb
    have hbefore := inv.blocks b hb
    rw [last_of_block hc] at hbefore
    exact Span.not_overlaps_of_stop_le (hbefore.trans hlast)

/-- What was answered is held after the operation, and so is what it answers. -/
theorem AnswersInv.held_step (inv : AnswersInv P T s) (hinj : Set.InjOn (boostHash t) T)
    (hc : s.cache.g.block = P.block c) (hT : ∀ x ∈ op.text, x ∈ T)
    (hserves : Serves t pol P c s.cache op) {a : Answer}
    (ha : a ∈ (serveStep t pol s op).answers) (hx : x ∈ a.op.content) :
    Held P (cacheStep t pol s.cache op) a.ptr x := by
  have hold : ∀ b ∈ s.answers, x ∈ b.op.content → Held P (cacheStep t pol s.cache op) b.ptr x :=
    fun b hb hbx => (inv.held b hb x hbx).grows hserves.grows
  rcases mem_answers_serveStep.mp ha with hbefore | ⟨rfl, hp⟩
  · exact hold a hbefore hx
  · rcases inv.answer hinj hc hT hserves hx hp with ⟨b, hb, hbx, hptr⟩ | ⟨-, hheld⟩
    · exact hptr ▸ hold b hb hbx
    · exact hheld

/-- An earlier answer and the one of the operation: the same, or apart. -/
theorem AnswersInv.apart_answer (inv : AnswersInv P T s) (hinj : Set.InjOn (boostHash t) T)
    (hc : s.cache.g.block = P.block c) (hT : ∀ x ∈ op.text, x ∈ T)
    (hserves : Serves t pol P c s.cache op) {a : Answer} {y : Bytes} {q : ℕ}
    (ha : a ∈ s.answers) (hx : x ∈ a.op.content) (hy : y ∈ op.content)
    (hq : op.returned t pol s.cache = some q) :
    (a.ptr = q ∧ x = y) ∨ ¬ (stringSpan a.ptr x).Overlaps (stringSpan q y) := by
  rcases inv.answer hinj hc hT hserves hy hq with ⟨b, hb, hby, rfl⟩ | ⟨hlast, -⟩
  · exact inv.apart a ha b hb x hx y hby
  · have hbehind : (stringSpan a.ptr x).stop ≤ q := (inv.held a ha x hx).stop_le.trans hlast
    exact Or.inr (Span.not_overlaps_of_stop_le hbehind)

/-- Different answers are apart after the operation. -/
theorem AnswersInv.apart_step (inv : AnswersInv P T s) (hinj : Set.InjOn (boostHash t) T)
    (hc : s.cache.g.block = P.block c) (hT : ∀ x ∈ op.text, x ∈ T)
    (hserves : Serves t pol P c s.cache op) {a b : Answer} {y : Bytes}
    (ha : a ∈ (serveStep t pol s op).answers) (hb : b ∈ (serveStep t pol s op).answers)
    (hx : x ∈ a.op.content) (hy : y ∈ b.op.content) :
    (a.ptr = b.ptr ∧ x = y) ∨ ¬ (stringSpan a.ptr x).Overlaps (stringSpan b.ptr y) := by
  rcases mem_answers_serveStep.mp ha with ha | ⟨rfl, hp⟩ <;>
    rcases mem_answers_serveStep.mp hb with hb | ⟨hop, hq⟩
  · exact inv.apart a ha b hb x hx y hy
  · exact inv.apart_answer hinj hc hT hserves ha hx (hop ▸ hy) hq
  · rcases inv.apart_answer hinj hc hT hserves hb hy hx hp with ⟨hptr, htext⟩ | hapart
    · exact Or.inl ⟨hptr.symm, htext.symm⟩
    · exact Or.inr fun hover => hapart hover.symm
  · rw [hop] at hy
    exact Or.inl ⟨Option.some.inj (hp.symm.trans hq), Option.some.inj (hx.symm.trans hy)⟩

end Step

/-- **Every operation keeps the invariant**, unless it resets the arena. -/
theorem answersInv_step (inv : AnswersInv P T s) (hinj : Set.InjOn (boostHash t) T)
    (h : BetweenResets t pol T s op) : AnswersInv P T (serveStep t pol s op) := by
  obtain ⟨hreset, hinside, hT⟩ := h
  obtain ⟨c, hc⟩ := inv.cursor
  have hserves : Serves t pol P c s.cache op := cacheStep_serves hc inv.hash_miss hreset hinside
  obtain ⟨c', hblock, -⟩ := hserves.cursor
  have hgrows := hserves.grows
  refine ⟨⟨c', hblock⟩, hash_miss_cacheStep inv.hash_miss op, fun b hb => ?_, fun a ha x hx => ?_,
    fun a ha b hb x hx y hy => ?_, found_step inv.found op, cached_step inv.cached op,
    fun a ha x hx => ?_⟩
  · rcases hgrows.blocks b hb with hbefore | ⟨-, hstop⟩
    · exact (inv.blocks b hbefore).trans hgrows.last_le
    · exact hstop
  · exact inv.held_step hinj hc hT hserves ha hx
  · exact inv.apart_step hinj hc hT hserves ha hb hx hy
  · rcases mem_answers_serveStep.mp ha with hbefore | ⟨rfl, -⟩
    · exact inv.text_mem a hbefore x hx
    · exact hT x hx

/-! ### Stability -/

/-- What the answers of a run are worth at a point of it: each pointer reads its text, equal
texts of the string overloads share a pointer, different texts have disjoint blocks. -/
structure Stable (P : Placement t) (s : Served) : Prop where
  reads : ∀ a ∈ s.answers, ∀ x ∈ a.op.content,
    (stringSpan a.ptr x).Within P.base P.stop ∧ Holds 0 s.cache.g.mem a.ptr x
  shared : ∀ a ∈ s.answers, ∀ b ∈ s.answers, ∀ x ∈ a.op.text, x ∈ b.op.text → a.ptr = b.ptr
  apart : ∀ a ∈ s.answers, ∀ b ∈ s.answers, ∀ x ∈ a.op.content, ∀ y ∈ b.op.content, x ≠ y →
    ¬ (stringSpan a.ptr x).Overlaps (stringSpan b.ptr y)

/-- The first request of a text takes its length plus one bytes of the arena, every later one
takes none. -/
def TakesSpaceOnce (t : Target) (pol : StreamPolicy) (s : Served) (op : CacheOp) : Prop :=
  ∀ x ∈ op.text, ltCacheUsed (serveStep t pol s op).cache.g.block =
    ltCacheUsed s.cache.g.block +
      if ∃ a ∈ s.answers, x ∈ a.op.text then 0 else (x.length + 1 : ℕ)

theorem AnswersInv.stable (inv : AnswersInv P T s) : Stable P s := by
  obtain ⟨c, hc⟩ := inv.cursor
  have hlast : s.cache.last ≤ P.stop := (last_of_block hc).trans_le c.pos_le_hi
  refine ⟨fun a ha x hx => ?_, fun a ha b hb x hx hx' => ?_, fun a ha b hb x hx y hy hne => ?_⟩
  · have hheld := inv.held a ha x hx
    exact ⟨⟨hheld.base_le, hheld.stop_le.trans hlast⟩, hheld.holds⟩
  · have hfirst := inv.found a ha x hx
    rw [inv.found b hb x hx'] at hfirst
    exact (Option.some.inj hfirst).symm
  · rcases inv.apart a ha b hb x hx y hy with ⟨-, heq⟩ | hapart
    · exact absurd heq hne
    · exact hapart

/-- A text is cached once it was answered, and not before. -/
theorem AnswersInv.isSome_iff (inv : AnswersInv P T s) (hinj : Set.InjOn (boostHash t) T)
    (hx : x ∈ T) :
    (s.cache.g.gStrCache (boostHash t x)).isSome ↔ ∃ a ∈ s.answers, x ∈ a.op.text := by
  rw [isSome_gStrCache_iff inv.found inv.cached]
  constructor
  · rintro ⟨y, ⟨a, ha, hy⟩, hhash⟩
    obtain rfl : y = x := hinj (inv.text_mem a ha y hy) hx hhash
    exact ⟨a, ha, hy⟩
  · rintro ⟨a, ha, hax⟩
    exact ⟨x, ⟨a, ha, hax⟩, rfl⟩

theorem AnswersInv.takesSpaceOnce (inv : AnswersInv P T s) (hinj : Set.InjOn (boostHash t) T)
    (h : BetweenResets t pol T s op) : TakesSpaceOnce t pol s op := by
  intro x hx
  obtain ⟨hreset, hinside, hT⟩ := h
  obtain ⟨c, hc⟩ := inv.cursor
  obtain ⟨c', hblock, hpos⟩ := (cacheStep_serves hc inv.hash_miss hreset hinside).cursor
  have hsum : (op.requests t pol s.cache.g).sum =
      if ∃ a ∈ s.answers, x ∈ a.op.text then 0 else x.length + 1 := by
    obtain ⟨-, -, hrequests, -⟩ := cacheStep_text t pol s.cache hx
    rw [hrequests]
    simp only [inv.isSome_iff hinj (hT x hx)]
    split <;> simp
  have hblock : (serveStep t pol s op).cache.g.block = P.block c' := hblock
  rw [hblock, hc, ltCacheUsed, ltCacheUsed]
  simp only [Placement.block, hpos, hsum]
  push_cast
  ring

/-- **Stability and sharing between resets.** Take a run of `lt_cached_str` on strings, string
views and hashes, and of other clients that write inside the blocks they were given, in which
the arena is not reset and `boost::hash` has no collision on the strings. At every point of it,
every pointer returned so far reads its own text, equal strings share a pointer, different texts
have disjoint blocks; and only the first request of a string takes space, its length plus one. -/
theorem ltCachedStr_stable (P : Placement t) (pol : StreamPolicy) (mem : Mem UInt8)
    (ops : List CacheOp) (hcoll : NoCollisions t ops)
    (hrun : Along (serveStep t pol)
      (fun s op => op.NoReset t pol s.cache ∧ op.WritesInside s.cache)
      (Served.start P.base mem) ops) :
    (∀ pre post, ops = pre ++ post →
        Stable P (run (serveStep t pol) (Served.start P.base mem) pre)) ∧
      Along (serveStep t pol) (TakesSpaceOnce t pol) (Served.start P.base mem) ops := by
  set T : Set Bytes := {x | some x ∈ ops.map CacheOp.text} with hT
  have hlegal : Along (serveStep t pol) (BetweenResets t pol T) (Served.start P.base mem) ops :=
    along_betweenResets hrun
  have hstep : ∀ (s : Served) (op : CacheOp), AnswersInv P T s → BetweenResets t pol T s op →
      AnswersInv P T (serveStep t pol s op) := fun s op inv h => answersInv_step inv hcoll h
  have hstart : AnswersInv P T (Served.start P.base mem) := answersInv_start mem
  refine ⟨fun pre post hpre => ?_, along_of_inv hstep ?_ hstart hlegal⟩
  · rw [hpre] at hlegal
    obtain ⟨hbefore, -⟩ := along_append.mp hlegal
    exact (inv_run hstep hstart hbefore).stable
  · exact fun s op inv h => inv.takesSpaceOnce hcoll h

/-- A run in which every operation occurs, and the strings `"a"` and `"ab"` are repeated. -/
theorem ltCachedStr_stable_run :
    let ops : List CacheOp := [.string [97], .alloc 3 [(1, [120])], .view [97, 98],
      .hash ⟨List.replicate 20 0, rfl⟩, .write 0 [(0, [121, 122])], .view [97], .string [97, 98]]
    let start := Served.start Placement.low.base fun _ => 0
    (∀ pre post, ops = pre ++ post →
        Stable Placement.low (run (serveStep Target.x64 .fifteenInObject) start pre)) ∧
      Along (serveStep Target.x64 .fifteenInObject)
        (TakesSpaceOnce Target.x64 .fifteenInObject) start ops := by
  intro ops start
  exact ltCachedStr_stable Placement.low .fifteenInObject _ ops (by decide +kernel)
    (by decide +kernel)

/-! ### Collisions -/

/-- A call returns its own text: the pointer reads it, and is not that of another text. -/
def OwnText (P : Placement t) (pol : StreamPolicy) (s : Served) (op : CacheOp) : Prop :=
  op.Correct P s.cache ∧ ∀ x ∈ op.text, ∀ a ∈ s.answers, ∀ y ∈ a.op.text, y ≠ x →
    op.returned t pol s.cache ≠ some a.ptr

/-- Every call is answered. -/
theorem texts_serveStep (s : Served) (op : CacheOp) :
    (serveStep t pol s op).texts = s.texts ∪ {x | x ∈ op.text} := by
  ext x
  constructor
  · rintro ⟨a, ha, hx⟩
    rcases mem_answers_serveStep.mp ha with hold | ⟨rfl, -⟩
    · exact Or.inl ⟨a, hold, hx⟩
    · exact Or.inr hx
  · rintro (⟨a, ha, hx⟩ | hx)
    · exact ⟨a, mem_answers_serveStep.mpr (Or.inl ha), hx⟩
    · obtain ⟨-, hreturned, -⟩ := cacheStep_text t pol s.cache hx
      exact ⟨⟨op, _⟩, mem_answers_serveStep.mpr (Or.inr ⟨rfl, hreturned⟩), hx⟩

theorem texts_run (s : Served) (ops : List CacheOp) :
    (run (serveStep t pol) s ops).texts = s.texts ∪ {x | some x ∈ ops.map CacheOp.text} := by
  induction ops generalizing s with
  | nil => simp
  | cons op ops ih =>
      rw [run_cons, ih, texts_serveStep, Set.union_assoc]
      congr 1
      ext x
      simp [eq_comm]

/-- While calls return their own texts, no two of the texts answered collide. -/
theorem injOn_step (hfound : Found t s) (hinj : Set.InjOn (boostHash t) s.texts)
    (hown : OwnText P pol s op) : Set.InjOn (boostHash t) (serveStep t pol s op).texts := by
  have hnew : ∀ y ∈ s.texts, ∀ x ∈ op.text, boostHash t y = boostHash t x → y = x := by
    rintro y ⟨a, ha, hy⟩ x hx hhash
    by_contra hne
    have hentry := hfound a ha y hy
    rw [hhash] at hentry
    exact hown.2 x hx a ha y hy hne (returned_of_hit hx hentry)
  rw [texts_serveStep]
  rintro x (hx | hx) y (hy | hy) hhash
  · exact hinj hx hy hhash
  · exact hnew x hx y hy hhash
  · exact (hnew y hy x hx hhash.symm).symm
  · exact Option.some.inj (Eq.trans (Eq.symm hx) hy)

theorem writesInside_of_text (h : op.text.isSome) : op.WritesInside st := by
  cases op with
  | alloc n ws => exact absurd h Bool.false_ne_true
  | write i ws => exact absurd h Bool.false_ne_true
  | _ => trivial

/-- Without collisions a call returns its own text. -/
theorem AnswersInv.ownText (inv : AnswersInv P T s) (hinj : Set.InjOn (boostHash t) T)
    (h : BetweenResets t pol T s op) : OwnText P pol s op := by
  have hstable : Stable P (serveStep t pol s op) := (answersInv_step inv hinj h).stable
  have hnew : ∀ q, op.returned t pol s.cache = some q →
      ⟨op, q⟩ ∈ (serveStep t pol s op).answers :=
    fun q hq => mem_answers_serveStep.mpr (Or.inr ⟨rfl, hq⟩)
  have hreturned : ∀ x, op.text = some x → Returned P x (ltCachedStrImpl t x s.cache.g) := by
    intro x hx
    obtain ⟨hg, hptr, -, -⟩ := cacheStep_text t pol s.cache hx
    have hmem : (serveStep t pol s op).cache.g.mem = (ltCachedStrImpl t x s.cache.g).2.mem :=
      congrArg StrState.mem hg
    have hreads := hstable.reads _ (hnew _ hptr) x (content_of_text hx)
    rwa [hmem] at hreads
  constructor
  · cases op with
    | string x => exact hreturned x rfl
    | view x => exact hreturned x rfl
    | _ => trivial
  · intro x hx a ha y hy hne hq
    have hold : a ∈ (serveStep t pol s op).answers := mem_answers_serveStep.mpr (Or.inl ha)
    refine hstable.apart a hold _ (hnew a.ptr hq) y (content_of_text hy) x (content_of_text hx)
      hne ?_
    rw [Span.overlaps_iff]
    exact ⟨a.ptr, by simp [stringSpan, Span.stop]⟩

/-- **Only strings that do not collide have their own entries.** In a run of `lt_cached_str` on
strings and string views during which the arena is not reset, every call returns its own text if
and only if `boost::hash` has no collision on the strings of the run. -/
theorem ltCachedStr_own_iff (P : Placement t) (pol : StreamPolicy) (mem : Mem UInt8)
    (ops : List CacheOp) (htext : ∀ op ∈ ops, op.text.isSome)
    (hreset : Along (serveStep t pol) (fun s op => op.NoReset t pol s.cache)
      (Served.start P.base mem) ops) :
    Along (serveStep t pol) (OwnText P pol) (Served.start P.base mem) ops ↔
      NoCollisions t ops := by
  constructor
  · intro hown
    have hstep : ∀ (s : Served) (op : CacheOp),
        (Found t s ∧ Set.InjOn (boostHash t) s.texts) → OwnText P pol s op →
        (Found t (serveStep t pol s op) ∧
          Set.InjOn (boostHash t) (serveStep t pol s op).texts) :=
      fun s op inv h => ⟨found_step inv.1 op, injOn_step inv.1 inv.2 h⟩
    have hstart : Found t (Served.start P.base mem) ∧
        Set.InjOn (boostHash t) (Served.start P.base mem).texts := by
      refine ⟨found_start _ _, ?_⟩
      rw [texts_start]
      exact Set.injOn_empty _
    have hinj := (inv_run hstep hstart hown).2
    rw [texts_run] at hinj
    exact hinj.mono Set.subset_union_right
  · intro hcoll
    set T : Set Bytes := {x | some x ∈ ops.map CacheOp.text} with hT
    have hrun := (along_and.mpr ⟨hreset, along_of_forall_mem htext⟩).mono fun s op h =>
      (⟨h.1, writesInside_of_text h.2⟩ : op.NoReset t pol s.cache ∧ op.WritesInside s.cache)
    have hlegal : Along (serveStep t pol) (BetweenResets t pol T) (Served.start P.base mem) ops :=
      along_betweenResets hrun
    have hstart : AnswersInv P T (Served.start P.base mem) := answersInv_start mem
    have hstep : ∀ (s : Served) (op : CacheOp), AnswersInv P T s → BetweenResets t pol T s op →
        AnswersInv P T (serveStep t pol s op) := fun s op inv h => answersInv_step inv hcoll h
    exact along_of_inv hstep (fun s op inv h => inv.ownText hcoll h) hstart hlegal

/-- A run with a hit and two misses. -/
theorem ltCachedStr_own_small :
    let ops : List CacheOp := [.string [97], .view [97, 98], .view [97]]
    Along (serveStep Target.x64 .fifteenInObject) (OwnText Placement.low .fifteenInObject)
        (Served.start Placement.low.base fun _ => 0) ops ↔
      NoCollisions Target.x64 ops := by
  intro ops
  exact ltCachedStr_own_iff Placement.low .fifteenInObject _ ops (by decide) (by decide +kernel)

/-- **A collision.** `"bVXTpq-O3Xc"` and `"CkvFAAcLCYm"` have the same `boost::hash` on a 64-bit
target: the call for the second returns the pointer of the first, and does not read the text it
was asked for. -/
theorem ltCachedStr_collision :
    let ops : List CacheOp :=
      [.string [98, 86, 88, 84, 112, 113, 45, 79, 51, 88, 99],
        .string [67, 107, 118, 70, 65, 65, 99, 76, 67, 89, 109]]
    let start := Served.start Placement.low.base fun _ => 0
    Along (serveStep Target.x64 .fifteenInObject)
        (fun s op => op.NoReset Target.x64 .fifteenInObject s.cache) start ops ∧
      ¬ Along (serveStep Target.x64 .fifteenInObject)
        (fun s op => op.Correct Placement.low s.cache) start ops ∧
      (run (serveStep Target.x64 .fifteenInObject) start ops).answers.map Answer.ptr =
        [Placement.low.base, Placement.low.base] := by
  decide +kernel

end DartTorrent
