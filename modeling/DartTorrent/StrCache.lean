import DartTorrent.Str
import DartTorrent.Basis.GuardedRun

/-!
# The String Cache Across Resets

Runs of the arena's users: `lt_cached_str` on strings, string views and hashes, and the
other clients of `lt_allocate`, which write what they like into the blocks they receive,
when they receive them and later. `g_str_cache` is never cleared, so after a reset of the
cursor it still answers with the pointers of copies whose bytes later blocks were placed
over. The run keeps a ghost record of the copies: for each, whether a later block or a
client's write has fallen on it.

## Main results

* `cacheStep_frame`: an operation writes only to the blocks it is handed or was handed before.
* `cacheInv_step`: every copy that nothing has fallen on is held where the cache points.
* `ltCachedStr_correct_of_not_overwritten`: in every run in which no text is requested
  after its copy was overwritten, every call returns the text it was asked for.
* `ltCachedStr_wrong_after_reset`: a run in which it does not.
-/

open ByteStore BumpArena GuardedRun

namespace DartTorrent

/-! ### Runs -/

/-- One use of the arena. A client of `lt_allocate` stores each of `ws` at its offset in
the block it receives, or in a block it received before. -/
inductive CacheOp
  | string (s : Bytes)
  | view (s : Bytes)
  | hash (h : Sha1Hash)
  | alloc (n : ℕ) (ws : List (ℕ × Bytes))
  | write (i : ℕ) (ws : List (ℕ × Bytes))

/-- The text that an operation asks the cache for. -/
def CacheOp.text : CacheOp → Option Bytes
  | .string s => some s
  | .view s => some s
  | _ => none

/-- A copy that `g_str_cache` points to, and whether a block handed out later or a client's
write has fallen on its bytes. -/
structure Copy where
  text : Bytes
  ptr : ℕ
  overwritten : Bool
deriving DecidableEq, Repr

/-- The copy's bytes with their NUL. -/
def Copy.span (c : Copy) : Span := stringSpan c.ptr c.text

/-- The copy after the spans `bs` were handed out or written to. -/
def Copy.touch (bs : List Span) (c : Copy) : Copy :=
  { c with overwritten := c.overwritten || bs.any fun b => b.Overlaps c.span }

/-- The globals, the blocks that other clients hold, and the record of the copies. -/
structure CacheState where
  g : StrState
  blocks : List Span
  copies : List Copy

/-- The state at start-up: the arena at `base`, both caches empty. -/
def CacheState.start (base : ℕ) (mem : Mem UInt8) : CacheState where
  g := ⟨ltInitStrCache base, mem, fun _ => none, fun _ => none⟩
  blocks := []
  copies := []

section Run

variable (t : Target) (pol : StreamPolicy)

/-- The requests that an operation makes to `lt_allocate`. -/
def CacheOp.requests (g : StrState) : CacheOp → List ℕ
  | .string s | .view s => if (g.gStrCache (boostHash t s)).isSome then [] else [s.length + 1]
  | .hash h => if (g.gHashCache h).isSome then [] else pol.requests
  | .alloc n _ => [n]
  | .write _ _ => []

/-- The spans that an operation is handed or writes to. -/
def CacheOp.touched (st : CacheState) (op : CacheOp) : List Span :=
  blocksFrom st.g.block.gMemBlock st.g.block.gMemBlockEnd st.g.block.gMemBlockLast
      (op.requests t pol st.g) ++
    match op with
    | .write i _ => st.blocks[i]?.toList
    | _ => []

/-- The record after a call that asked for `s`: a miss adds its copy. -/
def recordCopy (s : Bytes) (st : CacheState) (out : ℕ × StrState) (copies : List Copy) :
    CacheState where
  g := out.2
  blocks := st.blocks
  copies := if (st.g.gStrCache (boostHash t s)).isSome then copies else ⟨s, out.1, false⟩ :: copies

/-- One operation. -/
def cacheStep (st : CacheState) (op : CacheOp) : CacheState :=
  let copies := st.copies.map (Copy.touch (op.touched t pol st))
  match op with
  | .string s => recordCopy t s st (ltCachedStrString t s st.g) copies
  | .view s => recordCopy t s st (ltCachedStrView t s st.g) copies
  | .hash h => { st with g := (ltCachedStrHash t pol h st.g).2, copies := copies }
  | .alloc n ws =>
      let (p, block) := ltAllocate t n st.g.block
      { g := { st.g with block := block, mem := writePieces st.g.mem p ws }
        blocks := st.blocks ++ [⟨p, n⟩]
        copies := copies }
  | .write i ws =>
      match st.blocks[i]? with
      | some b => { st with g.mem := writePieces st.g.mem b.start ws, copies := copies }
      | none => { st with copies := copies }

end Run

/-! ### What is assumed, what is asked -/

/-- Every request is of at most `MEM_BLOCK_SIZE` bytes, and a client writes inside the
block it received. -/
def CacheOp.Fits (st : CacheState) : CacheOp → Prop
  | .string s | .view s => s.length + 1 ≤ memBlockSize
  | .hash _ => True
  | .alloc n ws => n ≤ memBlockSize ∧ ∀ w ∈ ws, w.1 + w.2.length ≤ n
  | .write i ws => ∀ b ∈ st.blocks[i]?, ∀ w ∈ ws, w.1 + w.2.length ≤ b.len

instance (st : CacheState) (op : CacheOp) : Decidable (op.Fits st) :=
  match op with
  | .string _ | .view _ => inferInstanceAs (Decidable (_ ≤ _))
  | .hash _ => isTrue trivial
  | .alloc _ _ => inferInstanceAs (Decidable (_ ∧ ∀ _ ∈ _, _))
  | .write _ _ => inferInstanceAs (Decidable (∀ _ ∈ _, _))

/-- A client writes only inside the block it was given. -/
def CacheOp.WritesInside (st : CacheState) : CacheOp → Prop
  | .alloc n ws => ∀ w ∈ ws, w.1 + w.2.length ≤ n
  | .write i ws => ∀ b ∈ st.blocks[i]?, ∀ w ∈ ws, w.1 + w.2.length ≤ b.len
  | _ => True

instance (st : CacheState) (op : CacheOp) : Decidable (op.WritesInside st) :=
  match op with
  | .string _ | .view _ | .hash _ => isTrue trivial
  | .alloc _ _ | .write _ _ => inferInstanceAs (Decidable (∀ _ ∈ _, _))

/-- A call returned the text it was asked for: a pointer into the arena to exactly the
bytes of `s` and a NUL. -/
def Returned {t : Target} (P : Placement t) (s : Bytes) (out : ℕ × StrState) : Prop :=
  (stringSpan out.1 s).Within P.base P.stop ∧ Holds 0 out.2.mem out.1 s

/-- What a call of `lt_cached_str` on a string or a string view owes. -/
def CacheOp.Correct {t : Target} (P : Placement t) (st : CacheState) : CacheOp → Prop
  | .string s => Returned P s (ltCachedStrString t s st.g)
  | .view s => Returned P s (ltCachedStrView t s st.g)
  | _ => True

instance {t : Target} (P : Placement t) (st : CacheState) (op : CacheOp) :
    Decidable (op.Correct P st) :=
  match op with
  | .string _ | .view _ => inferInstanceAs (Decidable (_ ∧ _))
  | .hash _ | .alloc _ _ | .write _ _ => isTrue trivial

/-- The text asked for has no copy that was overwritten. -/
def CacheOp.NotOverwritten (st : CacheState) (op : CacheOp) : Prop :=
  ∀ s ∈ op.text, ∀ c ∈ st.copies, c.text = s → c.overwritten = false

/-- `boost::hash` has no collision on the strings of the run. -/
def NoCollisions (t : Target) (ops : List CacheOp) : Prop :=
  Set.InjOn (boostHash t) {s | some s ∈ ops.map CacheOp.text}

theorem noCollisions_iff {t : Target} {ops : List CacheOp} :
    NoCollisions t ops ↔ ∀ x ∈ ops.filterMap CacheOp.text, ∀ y ∈ ops.filterMap CacheOp.text,
      boostHash t x = boostHash t y → x = y := by
  have htexts : {s | some s ∈ ops.map CacheOp.text} = {s | s ∈ ops.filterMap CacheOp.text} := by
    ext s
    simp
  rw [NoCollisions, htexts]
  rfl

instance (t : Target) (ops : List CacheOp) : Decidable (NoCollisions t ops) :=
  decidable_of_iff _ noCollisions_iff.symm

/-! ### The invariant -/

variable {t : Target} {P : Placement t} {T : Set Bytes}

/-- The record is right: the copies are texts of the run, they are what the cache points
to, they lie in the arena, and the arena holds those that nothing has fallen on. -/
structure CopiesOk (P : Placement t) (T : Set Bytes) (g : StrState) (copies : List Copy) :
    Prop where
  text_mem : ∀ c ∈ copies, c.text ∈ T
  cached : ∀ c ∈ copies, g.gStrCache (boostHash t c.text) = some c.ptr
  within : ∀ c ∈ copies, c.span.Within P.base P.stop
  holds : ∀ c ∈ copies, c.overwritten = false → Holds 0 g.mem c.ptr c.text
  recorded : ∀ h p, g.gStrCache h = some p → ∃ c ∈ copies, boostHash t c.text = h ∧ c.ptr = p

/-- The invariant of a run. `g_hash_cache` stays empty: nothing ever stores to it. -/
structure CacheInv (P : Placement t) (T : Set Bytes) (st : CacheState) : Prop where
  block : ∃ c : P.Cursor, st.g.block = P.block c
  hash_miss : ∀ h, st.g.gHashCache h = none
  copies : CopiesOk P T st.g st.copies

theorem cacheInv_start (mem : Mem UInt8) : CacheInv P T (CacheState.start P.base mem) :=
  ⟨⟨P.start, P.ltInitStrCache_eq⟩, fun _ => rfl, by simp [CacheState.start],
    by simp [CacheState.start], by simp [CacheState.start], by simp [CacheState.start],
    by simp [CacheState.start]⟩

/-- A change confined to the spans `bs` keeps the record right once they are entered. -/
theorem CopiesOk.touch {g g' : StrState} {copies : List Copy} (h : CopiesOk P T g copies)
    {bs : List Span} (hmem : AgreesOff bs g.mem g'.mem) (hcache : g'.gStrCache = g.gStrCache) :
    CopiesOk P T g' (copies.map (Copy.touch bs)) where
  text_mem := List.forall_mem_map.mpr h.text_mem
  cached := List.forall_mem_map.mpr fun c hc => hcache ▸ h.cached c hc
  within := List.forall_mem_map.mpr h.within
  holds := List.forall_mem_map.mpr fun c hc hover => by
    obtain ⟨hover, hbs⟩ := Bool.or_eq_false_iff.mp hover
    refine (h.holds c hc hover).of_agreesOff hmem fun b hb => ?_
    change ¬ b.Overlaps c.span
    simpa using List.any_eq_false.mp hbs b hb
  recorded k p hk := by
    obtain ⟨c, hc, hhash, hptr⟩ := h.recorded k p (hcache ▸ hk)
    exact ⟨c.touch bs, List.mem_map_of_mem hc, hhash, hptr⟩

/-- A copy of a text whose hash was not cached joins the record. -/
theorem CopiesOk.add {g : StrState} {copies : List Copy} (h : CopiesOk P T g copies)
    {s : Bytes} {p : ℕ} (hs : s ∈ T) (hmiss : g.gStrCache (boostHash t s) = none)
    (hin : (stringSpan p s).Within P.base P.stop) (hholds : Holds 0 g.mem p s) :
    CopiesOk P T { g with gStrCache := Function.update g.gStrCache (boostHash t s) (some p) }
      (⟨s, p, false⟩ :: copies) where
  text_mem := List.forall_mem_cons.mpr ⟨hs, h.text_mem⟩
  cached := List.forall_mem_cons.mpr ⟨Function.update_self .., fun c hc => by
    have hne : boostHash t c.text ≠ boostHash t s := fun heq => by
      have hc := h.cached c hc
      rw [heq, hmiss] at hc
      exact absurd hc (by simp)
    exact (Function.update_of_ne hne _ _).trans (h.cached c hc)⟩
  within := List.forall_mem_cons.mpr ⟨hin, h.within⟩
  holds := List.forall_mem_cons.mpr ⟨fun _ => hholds, h.holds⟩
  recorded k q hk := by
    dsimp only at hk
    by_cases hks : k = boostHash t s
    · subst hks
      rw [Function.update_self] at hk
      exact ⟨_, List.mem_cons_self, rfl, Option.some.inj hk⟩
    · rw [Function.update_of_ne hks] at hk
      obtain ⟨c, hc, hhash, hptr⟩ := h.recorded k q hk
      exact ⟨c, List.mem_cons_of_mem _ hc, hhash, hptr⟩

/-! ### What an operation does to the arena -/

/-- Formatting a hash leaves both maps alone, wherever the cursor stands. -/
theorem caches_ltCachedStrHash (t : Target) (pol : StreamPolicy) (hash : Sha1Hash)
    (g : StrState) :
    (ltCachedStrHash t pol hash g).2.gStrCache = g.gStrCache ∧
      (ltCachedStrHash t pol hash g).2.gHashCache = g.gHashCache := by
  have hput : ∀ (digits : Bytes) (growths : List (ℕ × ℕ)) (b : StreamBuf) (g : StrState),
      (streamPut t digits growths b g).2.gStrCache = g.gStrCache ∧
        (streamPut t digits growths b g).2.gHashCache = g.gHashCache := by
    intro digits growths
    induction growths with
    | nil => exact fun _ _ => ⟨rfl, rfl⟩
    | cons y growths ih => exact fun b g => ih _ _
  cases hcache : g.gHashCache hash with
  | some q =>
      have hout : ltCachedStrHash t pol hash g = (q, g) := by rw [ltCachedStrHash, hcache]
      rw [hout]
      exact ⟨rfl, rfl⟩
  | none =>
      rw [ltCachedStrHash_of_miss pol hcache]
      exact hput _ _ _ _

section Frame

variable {pol : StreamPolicy} {st : CacheState} {op : CacheOp} {c : P.Cursor}

/-- What a hash requests is within the arena. -/
theorem StreamPolicy.requests_le (pol : StreamPolicy) : ∀ n ∈ pol.requests, n ≤ memBlockSize := by
  intro n hn
  have htotal := pol.total_lt
  rcases List.mem_append.mp hn with hgrow | hlast
  · have hle := List.le_sum_of_mem hgrow
    omega
  · rcases List.mem_pair.mp hlast with rfl | rfl
    · omega
    · exact Nat.le_of_lt (Nat.lt_trans (by omega) two_pow_lt_memBlockSize)

/-- The requests of an operation that fits are within the arena. -/
theorem CacheOp.Fits.requests_le (pol : StreamPolicy) (h : op.Fits st) :
    ∀ n ∈ op.requests t pol st.g, n ≤ memBlockSize := by
  intro n hn
  cases op with
  | string s | view s =>
      rw [CacheOp.requests] at hn
      split at hn
      · exact absurd hn List.not_mem_nil
      · exact (List.mem_singleton.mp hn).trans_le h
  | hash hash =>
      rw [CacheOp.requests] at hn
      split at hn
      · exact absurd hn List.not_mem_nil
      · exact pol.requests_le n hn
  | alloc k ws => exact (List.mem_singleton.mp hn).trans_le h.1
  | write i ws => exact absurd hn List.not_mem_nil

/-- The clients of an operation that fits write inside their blocks. -/
theorem CacheOp.Fits.writesInside (h : op.Fits st) : op.WritesInside st := by
  cases op with
  | alloc n ws => exact h.2
  | write i ws => exact h
  | _ => exact trivial

/-- An operation touches its new blocks, or the block that it writes to. -/
theorem mem_touched (hc : st.g.block = P.block c) {b : Span} (hb : b ∈ op.touched t pol st) :
    b ∈ blocksFrom P.base P.stop c.pos (op.requests t pol st.g) ∨
      ∃ i ws, op = .write i ws ∧ b ∈ st.blocks[i]? := by
  cases op with
  | write i ws => exact Or.inr ⟨i, ws, rfl, Option.mem_toList.mp hb⟩
  | _ =>
      refine Or.inl ?_
      simpa [CacheOp.touched, hc, Placement.block] using hb

/-- The new blocks of an operation are among what it touches. -/
theorem blocksFrom_subset_touched (pol : StreamPolicy) (op : CacheOp)
    (hc : st.g.block = P.block c) :
    blocksFrom P.base P.stop c.pos (op.requests t pol st.g) ⊆ op.touched t pol st := by
  unfold CacheOp.touched
  rw [hc]
  exact List.subset_append_left _ _

/-- A call on a string requests a block if the string is not cached, and writes to that only. -/
theorem cachedStr_frame (pol : StreamPolicy) (hc : st.g.block = P.block c) {s : Bytes}
    (hrequests : ∀ n ∈ (CacheOp.string s).requests t pol st.g, n ≤ memBlockSize) :
    (∃ c' : P.Cursor, (ltCachedStrImpl t s st.g).2.block = P.block c' ∧
        c'.pos = after P.base P.stop c.pos ((CacheOp.string s).requests t pol st.g)) ∧
      AgreesOff (blocksFrom P.base P.stop c.pos ((CacheOp.string s).requests t pol st.g))
        st.g.mem (ltCachedStrImpl t s st.g).2.mem := by
  cases hcache : st.g.gStrCache (boostHash t s) with
  | some p =>
      have hnone : (CacheOp.string s).requests t pol st.g = [] := by
        simp [CacheOp.requests, hcache]
      rw [ltCachedStrImpl_of_hit hcache, hnone]
      exact ⟨⟨c, hc, rfl⟩, AgreesOff.refl _ _⟩
  | none =>
      have hone : (CacheOp.string s).requests t pol st.g = [s.length + 1] := by
        simp [CacheOp.requests, hcache]
      rw [hone] at hrequests ⊢
      have hfit : s.length + 1 ≤ memBlockSize := hrequests _ (List.mem_singleton_self _)
      obtain ⟨mem, hout, -, hframe⟩ :=
        ltCachedStrImpl_miss_spec P c hc hcache (P.request (s.length + 1) hfit) rfl
      rw [hout]
      exact ⟨⟨_, rfl, rfl⟩, hframe⟩

/-- **An operation makes its requests**, and writes only to what it is handed or was handed
before. -/
theorem cacheStep_frame (pol : StreamPolicy) (hc : st.g.block = P.block c)
    (hmiss : ∀ h, st.g.gHashCache h = none)
    (hrequests : ∀ n ∈ op.requests t pol st.g, n ≤ memBlockSize) (hinside : op.WritesInside st) :
    (∃ c' : P.Cursor, (cacheStep t pol st op).g.block = P.block c' ∧
        c'.pos = after P.base P.stop c.pos (op.requests t pol st.g)) ∧
      AgreesOff (op.touched t pol st) st.g.mem (cacheStep t pol st op).g.mem := by
  have hsubset := blocksFrom_subset_touched (t := t) pol op hc
  cases op with
  | string s =>
      obtain ⟨hcursor, hframe⟩ := cachedStr_frame pol hc hrequests
      exact ⟨hcursor, hframe.mono hsubset⟩
  | view s =>
      obtain ⟨hcursor, hframe⟩ := cachedStr_frame pol hc hrequests
      exact ⟨hcursor, hframe.mono hsubset⟩
  | hash h =>
      obtain ⟨c', hpos, hblock, -, -, -, hframe, -, -⟩ :=
        ltCachedStrHash_spec P c hc pol h (hmiss h)
      have hpolicy : (CacheOp.hash h).requests t pol st.g = pol.requests := by
        simp [CacheOp.requests, hmiss h]
      rw [hpolicy] at hsubset ⊢
      exact ⟨⟨c', hblock, hpos⟩, hframe.mono hsubset⟩
  | alloc n ws =>
      have hn : n ≤ memBlockSize := hrequests n (List.mem_singleton_self n)
      have halloc : ltAllocate t n st.g.block = _ :=
        hc ▸ ltAllocate_eq P c (P.request n hn)
      have hframe : AgreesOff [c.block (P.request n hn)] st.g.mem
          (writePieces st.g.mem (c.block (P.request n hn)).start ws) :=
        agreesOff_writePieces hinside
      rw [cacheStep, halloc]
      exact ⟨⟨_, rfl, rfl⟩, hframe.mono hsubset⟩
  | write i ws =>
      cases hb : st.blocks[i]? with
      | none =>
          rw [cacheStep, hb]
          exact ⟨⟨c, hc, rfl⟩, (AgreesOff.refl [] _).mono (List.nil_subset _)⟩
      | some b =>
          rw [CacheOp.touched, cacheStep, hb]
          exact ⟨⟨c, hc, rfl⟩, agreesOff_writePieces (hinside b hb)⟩

/-- The blocks that the clients hold after an operation are old ones or new ones. -/
theorem mem_blocks_cacheStep (hc : st.g.block = P.block c)
    (hrequests : ∀ n ∈ op.requests t pol st.g, n ≤ memBlockSize) {i : ℕ} {b : Span}
    (hb : b ∈ (cacheStep t pol st op).blocks[i]?) :
    b ∈ st.blocks[i]? ∨ b ∈ blocksFrom P.base P.stop c.pos (op.requests t pol st.g) := by
  cases op with
  | alloc n ws =>
      have hn : n ≤ memBlockSize := hrequests n (List.mem_singleton_self n)
      have halloc : ltAllocate t n st.g.block = _ :=
        hc ▸ ltAllocate_eq P c (P.request n hn)
      have hb : b ∈ (st.blocks ++ [⟨(ltAllocate t n st.g.block).1, n⟩])[i]? := hb
      rw [halloc] at hb
      rcases Nat.lt_or_ge i st.blocks.length with hold | hnew
      · rw [List.getElem?_append_left hold] at hb
        exact Or.inl hb
      · rw [List.getElem?_append_right hnew] at hb
        exact Or.inr (List.mem_of_getElem? hb)
  | write j ws =>
      refine Or.inl ?_
      rw [cacheStep] at hb
      split at hb <;> exact hb
  | _ => exact Or.inl hb

end Frame

/-! ### One call, one step -/

section Step

variable {pol : StreamPolicy} {st : CacheState} {s : Bytes}

/-- A call whose text is not cached returns the pointer of a copy in a block of the arena. -/
theorem CacheInv.returned_of_miss (inv : CacheInv P T st) (hfit : s.length + 1 ≤ memBlockSize)
    (hmiss : st.g.gStrCache (boostHash t s) = none) : Returned P s (ltCachedStrImpl t s st.g) := by
  obtain ⟨c, hc⟩ := inv.block
  obtain ⟨mem, hout, hholds, -⟩ :=
    ltCachedStrImpl_miss_spec P c hc hmiss (P.request (s.length + 1) hfit) rfl
  rw [hout]
  exact ⟨c.block_within _, hholds⟩

/-- A call whose text is not cached enters its copy in the record. -/
theorem CacheInv.miss (inv : CacheInv P T st) (hs : s ∈ T) (hfit : s.length + 1 ≤ memBlockSize)
    (hmiss : st.g.gStrCache (boostHash t s) = none) :
    CacheInv P T (recordCopy t s st (ltCachedStrImpl t s st.g)
      (st.copies.map (Copy.touch ((CacheOp.string s).touched t pol st)))) := by
  obtain ⟨c, hc⟩ := inv.block
  obtain ⟨mem, hout, hholds, hframe⟩ :=
    ltCachedStrImpl_miss_spec P c hc hmiss (P.request (s.length + 1) hfit) rfl
  set r := P.request (s.length + 1) hfit with hr
  have htouched : (CacheOp.string s).touched t pol st = [c.block r] := by
    simp [CacheOp.touched, CacheOp.requests, hmiss, hc, Placement.block, Cursor.block, hr]
  have hcopies : CopiesOk P T { st.g with block := P.block (c.alloc r), mem := mem }
      (st.copies.map (Copy.touch [c.block r])) := inv.copies.touch hframe rfl
  rw [hout, htouched, recordCopy, hmiss]
  exact ⟨⟨c.alloc r, rfl⟩, inv.hash_miss, hcopies.add hs hmiss (c.block_within r) hholds⟩

/-- A call whose text is cached changes nothing. -/
theorem CacheInv.hit (inv : CacheInv P T st) {p : ℕ}
    (hhit : st.g.gStrCache (boostHash t s) = some p) :
    CacheInv P T (recordCopy t s st (ltCachedStrImpl t s st.g)
      (st.copies.map (Copy.touch ((CacheOp.string s).touched t pol st)))) := by
  have htouched : (CacheOp.string s).touched t pol st = [] := by
    simp [CacheOp.touched, CacheOp.requests, hhit]
  rw [htouched, ltCachedStrImpl_of_hit hhit, recordCopy, hhit]
  exact ⟨inv.block, inv.hash_miss, inv.copies.touch (AgreesOff.refl _ _) rfl⟩

/-- A cached text is returned when nothing has fallen on its copy: without collisions the
cached pointer is that of its own copy. -/
theorem CacheInv.returned_of_hit (inv : CacheInv P T st) (hinj : Set.InjOn (boostHash t) T)
    (hs : s ∈ T) (hover : ∀ c ∈ st.copies, c.text = s → c.overwritten = false) {p : ℕ}
    (hhit : st.g.gStrCache (boostHash t s) = some p) : Returned P s (ltCachedStrImpl t s st.g) := by
  obtain ⟨c, hc, hhash, rfl⟩ := inv.copies.recorded _ _ hhit
  obtain rfl : c.text = s := hinj (inv.copies.text_mem c hc) hs hhash
  rw [ltCachedStrImpl_of_hit hhit]
  exact ⟨inv.copies.within c hc, inv.copies.holds c hc (hover c hc rfl)⟩

/-- A call of either overload keeps the invariant. -/
theorem CacheInv.cachedStr (pol : StreamPolicy) (inv : CacheInv P T st) (hs : s ∈ T)
    (hfit : s.length + 1 ≤ memBlockSize) :
    CacheInv P T (recordCopy t s st (ltCachedStrImpl t s st.g)
      (st.copies.map (Copy.touch ((CacheOp.string s).touched t pol st)))) := by
  cases hcache : st.g.gStrCache (boostHash t s) with
  | none => exact inv.miss hs hfit hcache
  | some p => exact inv.hit hcache

/-- A call of either overload returns its text unless the text's copy was overwritten. -/
theorem CacheInv.cachedStr_returned (inv : CacheInv P T st) (hinj : Set.InjOn (boostHash t) T)
    (hs : s ∈ T) (hfit : s.length + 1 ≤ memBlockSize)
    (hover : ∀ c ∈ st.copies, c.text = s → c.overwritten = false) :
    Returned P s (ltCachedStrImpl t s st.g) := by
  cases hcache : st.g.gStrCache (boostHash t s) with
  | none => exact inv.returned_of_miss hfit hcache
  | some p => exact inv.returned_of_hit hinj hs hover hcache

/-- **Every operation keeps the invariant.** -/
theorem cacheInv_step (inv : CacheInv P T st) {op : CacheOp} (hfit : op.Fits st)
    (hT : ∀ s ∈ op.text, s ∈ T) : CacheInv P T (cacheStep t pol st op) := by
  obtain ⟨c, hc⟩ := inv.block
  obtain ⟨⟨c', hblock, -⟩, hframe⟩ :=
    cacheStep_frame pol hc inv.hash_miss (hfit.requests_le pol) hfit.writesInside
  cases op with
  | string s => exact inv.cachedStr pol (hT s rfl) hfit
  | view s => exact inv.cachedStr pol (hT s rfl) hfit
  | hash h =>
      obtain ⟨hstr, hhash⟩ := caches_ltCachedStrHash t pol h st.g
      exact ⟨⟨c', hblock⟩, fun k => (congrFun hhash k).trans (inv.hash_miss k),
        inv.copies.touch hframe hstr⟩
  | alloc n ws => exact ⟨⟨c', hblock⟩, inv.hash_miss, inv.copies.touch hframe rfl⟩
  | write i ws =>
      have hrest : (cacheStep t pol st (.write i ws)).g.gStrCache = st.g.gStrCache ∧
          (cacheStep t pol st (.write i ws)).g.gHashCache = st.g.gHashCache ∧
          (cacheStep t pol st (.write i ws)).copies =
            st.copies.map (Copy.touch ((CacheOp.write i ws).touched t pol st)) := by
        rw [cacheStep]
        split <;> exact ⟨rfl, rfl, rfl⟩
      obtain ⟨hstr, hhash, hcopies⟩ := hrest
      refine ⟨⟨c', hblock⟩, fun k => (congrFun hhash k).trans (inv.hash_miss k), ?_⟩
      rw [hcopies]
      exact inv.copies.touch hframe hstr

/-- Every call returns its text unless the text's copy was overwritten. -/
theorem CacheInv.correct (inv : CacheInv P T st) (hinj : Set.InjOn (boostHash t) T)
    {op : CacheOp} (hfit : op.Fits st) (hT : ∀ s ∈ op.text, s ∈ T)
    (hover : op.NotOverwritten st) : op.Correct P st := by
  cases op with
  | string s => exact inv.cachedStr_returned hinj (hT s rfl) hfit (hover s rfl)
  | view s => exact inv.cachedStr_returned hinj (hT s rfl) hfit (hover s rfl)
  | _ => trivial

end Step

/-! ### Every run -/

theorem cacheInv_run (pol : StreamPolicy) (mem : Mem UInt8) {ops : List CacheOp}
    (hfit : Along (cacheStep t pol) (fun st op => op.Fits st) (CacheState.start P.base mem) ops)
    (hT : ∀ op ∈ ops, ∀ s ∈ op.text, s ∈ T) :
    CacheInv P T (run (cacheStep t pol) (CacheState.start P.base mem) ops) := by
  have hstart : CacheInv P T (CacheState.start P.base mem) := cacheInv_start mem
  have hstep : ∀ (st : CacheState) (op : CacheOp), CacheInv P T st →
      (op.Fits st ∧ ∀ s ∈ op.text, s ∈ T) → CacheInv P T (cacheStep t pol st op) :=
    fun st op inv hG => cacheInv_step inv hG.1 hG.2
  exact inv_run hstep hstart (along_and.mpr ⟨hfit, along_of_forall_mem hT⟩)

/-- **The cache is right until a copy is overwritten.** In every run from start-up whose
requests fit the arena, `boost::hash` having no collision on its strings, every call of
`lt_cached_str` on a string or a string view returns a pointer into the arena to exactly its
bytes and a NUL, as long as no block handed out later and no client's write has fallen on
the copy that the cache holds of that text. -/
theorem ltCachedStr_correct_of_not_overwritten (P : Placement t) (pol : StreamPolicy)
    (mem : Mem UInt8) (ops : List CacheOp) (hcoll : NoCollisions t ops)
    (hfit : Along (cacheStep t pol) (fun st op => op.Fits st) (CacheState.start P.base mem) ops) :
    Along (cacheStep t pol) (fun st op => op.NotOverwritten st → op.Correct P st)
      (CacheState.start P.base mem) ops := by
  set T : Set Bytes := {s | some s ∈ ops.map CacheOp.text} with hT
  have hmem : ∀ op ∈ ops, ∀ s ∈ op.text, s ∈ T := fun op hop s hs =>
    List.mem_map.mpr ⟨op, hop, hs⟩
  have hlegal := along_and.mpr ⟨hfit, along_of_forall_mem hmem⟩
  have hstart : CacheInv P T (CacheState.start P.base mem) := cacheInv_start mem
  refine along_of_inv ?_ ?_ hstart hlegal
  · exact fun st op inv hL => cacheInv_step inv hL.1 hL.2
  · exact fun st op inv hL => inv.correct hcoll hL.1 hL.2

/-- The arena is reset between two calls for `"a"`. The copy of the first call stands behind a block
of 64 bytes, and what is handed out after the reset ends before it: the second call returns the
cached pointer, and it is right. -/
theorem ltCachedStr_correct_run :
    let step := cacheStep Target.x64 .fifteenInObject
    let start := CacheState.start 4096 fun _ => 0
    let untilFull : List CacheOp := [.alloc 64 [], .string [97], .alloc (memBlockSize - 67) []]
    let ops := untilFull ++ [.alloc 3 [(1, [120])], .view [97, 98]]
    (run step start ops).g.block.gMemBlockLast < (run step start untilFull).g.block.gMemBlockLast ∧
      Along step (fun st op => op.NotOverwritten st → op.Correct Placement.low st) start
        (ops ++ [.string [97]]) ∧
      (CacheOp.string [97]).Correct Placement.low (run step start ops) := by
  intro step start untilFull ops
  have hall := ltCachedStr_correct_of_not_overwritten Placement.low .fifteenInObject (fun _ => 0)
    (ops ++ [.string [97]]) (by decide +kernel) (by decide +kernel)
  refine ⟨by decide +kernel, hall, (along_append.mp hall).2.1 ?_⟩
  have hintact : ∀ c ∈ (run step start ops).copies, c.text = [97] → c.overwritten = false := by
    decide +kernel
  rintro _ ⟨⟩
  exact hintact

/-- **The cache is wrong after a reset.** `"a"` is cached at the base of the arena; a client
receives a block of `MEM_BLOCK_SIZE` bytes, for which the cursor goes back to the base, and
stores `"x"` there; the next call for `"a"` returns the cached pointer, which now points to
`"x"`. -/
theorem ltCachedStr_wrong_after_reset :
    let ops : List CacheOp := [.string [97], .alloc memBlockSize [(0, [120])], .string [97]]
    let start := CacheState.start 4096 fun _ => 0
    NoCollisions Target.x64 ops ∧
      Along (cacheStep Target.x64 .fifteenInObject) (fun st op => op.Fits st) start ops ∧
      ¬ Along (cacheStep Target.x64 .fifteenInObject)
        (fun st op => op.Correct Placement.low st) start ops := by
  decide +kernel

end DartTorrent
