import DartTorrent.Answers
import DartTorrent.Requests
import Mathlib.Algebra.BigOperators.Group.Finset.Basic
import Mathlib.Algebra.Order.BigOperators.Group.Finset

/-!
# Repeated Requests

What repeated calls of `lt_cached_str` cost. A string that was requested before is found in
`g_str_cache`; a hash is looked up in `g_hash_cache`, to which nothing is ever stored, so it is
formatted again, in new blocks of the arena. The runs here are arbitrary: the arena may be
reset, and a string may be longer than it.

## Main results

* `repeatFree_iff`: a call repeats an earlier one for free unless it asks for the same hash.
* `sum_requestsAlong`: what a run without a repeated hash requests, against the size of its
  distinct values.
* `ltCachedStr_repeats_iff`: when repeated requests are free and the values of a run that fit
  in the arena never reset it. `ltCachedStr_hash_repeated` is a run that pays twice.
-/

open ByteStore BumpArena GuardedRun

namespace DartTorrent

variable {t : Target} {pol : StreamPolicy} {P : Placement t}

/-! ### The requests of an operation -/

theorem block_streamPut (t : Target) (digits : Bytes) (growths : List (ℕ × ℕ)) (b : StreamBuf)
    (g : StrState) :
    (streamPut t digits growths b g).2.block = allocs t (growths.map Prod.fst) g.block := by
  induction growths generalizing b g with
  | nil => rfl
  | cons x growths ih =>
      obtain ⟨size, upTo⟩ := x
      rw [streamPut, ih]
      rfl

/-- The stream has written all digits after its growths. -/
theorem len_streamPut (t : Target) (digits : Bytes) {growths : List (ℕ × ℕ)} {b : StreamBuf}
    (h : GrowthOk b.len growths) (g : StrState) :
    (streamPut t digits growths b g).1.len = 40 := by
  induction growths generalizing b g with
  | nil => exact h
  | cons x growths ih =>
      obtain ⟨size, upTo⟩ := x
      rw [streamPut]
      exact ih h.2.2 _

/-- Formatting a hash requests the blocks of the stream, of `str()` and of the copy. -/
theorem block_ltCachedStrHash_of_miss (pol : StreamPolicy) {hash : Sha1Hash} {g : StrState}
    (hmiss : g.gHashCache hash = none) :
    (ltCachedStrHash t pol hash g).2.block = allocs t pol.requests g.block := by
  have hput := block_streamPut t (hexText hash) pol.growths ⟨none, pol.inObject⟩ g
  have hlen := len_streamPut t (hexText hash) (b := ⟨none, pol.inObject⟩) pol.growths_ok g
  rw [ltCachedStrHash_of_miss pol hmiss, StreamPolicy.requests, allocs_append, ← hput]
  simp only [streamStr, ltStrdup, StringLike.length, hlen]
  rfl

/-- **An operation makes its requests**, in any state. -/
theorem block_cacheStep (st : CacheState) (op : CacheOp) :
    (cacheStep t pol st op).g.block = allocs t (op.requests t pol st.g) st.g.block := by
  have htext : ∀ x, op.text = some x →
      (cacheStep t pol st op).g.block = allocs t (op.requests t pol st.g) st.g.block := by
    intro x hx
    obtain ⟨hg, -, hrequests, -⟩ := cacheStep_text t pol st hx
    rw [hg, hrequests]
    cases hcache : st.g.gStrCache (boostHash t x) with
    | some p => rw [ltCachedStrImpl_of_hit hcache]; rfl
    | none => rw [ltCachedStrImpl_of_miss hcache]; rfl
  cases op with
  | string s => exact htext s rfl
  | view s => exact htext s rfl
  | hash h =>
      cases hcache : st.g.gHashCache h with
      | some p =>
          have hrequests : (CacheOp.hash h).requests t pol st.g = [] := by
            simp [CacheOp.requests, hcache]
          rw [hrequests, cacheStep, ltCachedStrHash, hcache]
          rfl
      | none =>
          have hrequests : (CacheOp.hash h).requests t pol st.g = pol.requests := by
            simp [CacheOp.requests, hcache]
          rw [hrequests]
          exact block_ltCachedStrHash_of_miss pol hcache
  | alloc n ws => rfl
  | write i ws =>
      rw [cacheStep]
      split <;> rfl

/-! ### Repeats -/

/-- The value that a call looks up, and in which of the two maps. -/
def CacheOp.key : CacheOp → Option (Bytes ⊕ Sha1Hash)
  | .string s => some (.inl s)
  | .view s => some (.inl s)
  | .hash h => some (.inr h)
  | _ => none

/-- The hash that an operation asks for. -/
def CacheOp.hashArg : CacheOp → Option Sha1Hash
  | .hash h => some h
  | _ => none

/-- A call for a value that was requested before, from the same map, returns the pointer that
was returned then, and leaves `lt_cache_used` unchanged. -/
def RepeatFree (t : Target) (pol : StreamPolicy) (s : Served) (op : CacheOp) : Prop :=
  ∀ a ∈ s.answers, a.op.key = op.key → op.returned t pol s.cache = some a.ptr ∧
    ltCacheUsed (serveStep t pol s op).cache.g.block = ltCacheUsed s.cache.g.block

instance (s : Served) (op : CacheOp) : Decidable (RepeatFree t pol s op) :=
  inferInstanceAs (Decidable (∀ _ ∈ _, _ → _))

/-- The hashes that were answered, in order. -/
def Served.hashes (s : Served) : List Sha1Hash := s.answers.filterMap fun a => a.op.hashArg

/-- A call does not ask for a hash again. -/
def FreshHash (s : Served) (op : CacheOp) : Prop := ∀ h ∈ op.hashArg, h ∉ s.hashes

/-- What holds in every state of every run: the map has the texts that were answered, no hash is
cached, and the globals delimit the arena. -/
structure RunInv (P : Placement t) (s : Served) : Prop where
  found : Found t s
  cached : Cached t s
  hash_miss : ∀ h, s.cache.g.gHashCache h = none
  delimits : Delimits P s.cache.g.block

variable {s : Served} {op : CacheOp}

theorem runInv_start (mem : Mem UInt8) : RunInv P (Served.start P.base mem) where
  found := found_start _ _
  cached := cached_start _ _
  hash_miss := fun _ => rfl
  delimits := by
    have hroom := P.room
    exact ⟨rfl, rfl, by simp only [Served.start, CacheState.start, ltInitStrCache]; omega⟩

/-- **Every operation keeps it.** -/
theorem runInv_step (inv : RunInv P s) (op : CacheOp) : RunInv P (serveStep t pol s op) where
  found := found_step inv.found op
  cached := cached_step inv.cached op
  hash_miss := hash_miss_cacheStep inv.hash_miss op
  delimits := by
    have hblock : (serveStep t pol s op).cache.g.block = _ := block_cacheStep s.cache op
    rw [hblock]
    exact delimits_allocs inv.delimits _

theorem hashes_serveStep (t : Target) (pol : StreamPolicy) (s : Served) (op : CacheOp) :
    (serveStep t pol s op).hashes = s.hashes ++ op.hashArg.toList := by
  cases op <;> simp [Served.hashes, serveStep, CacheOp.returned, CacheOp.hashArg]

/-- What formatting a hash takes, in bytes. -/
theorem sum_requests_bounds (pol : StreamPolicy) :
    0 < pol.requests.sum ∧ 2 * pol.requests.sum < memBlockSize := by
  have htotal := pol.total_lt
  have hsum : pol.requests.sum = (pol.growths.map Prod.fst).sum + pol.strSize + 41 := by
    simp [StreamPolicy.requests, Nat.add_assoc]
  have hsize : memBlockSize = 8388608 := rfl
  omega

theorem key_eq_inl_iff {x : Bytes} : op.key = some (.inl x) ↔ op.text = some x := by
  cases op <;> simp [CacheOp.key, CacheOp.text]

theorem key_eq_inr_iff {h : Sha1Hash} : op.key = some (.inr h) ↔ op.hashArg = some h := by
  cases op <;> simp [CacheOp.key, CacheOp.hashArg]

/-- A string that was answered is answered for free. -/
theorem repeatFree_text (inv : RunInv P s) {x : Bytes} (hx : op.text = some x) :
    RepeatFree t pol s op := by
  intro a ha hkey
  rw [key_eq_inl_iff.mpr hx, key_eq_inl_iff] at hkey
  have hhit := inv.found a ha x hkey
  refine ⟨returned_of_hit hx hhit, ?_⟩
  obtain ⟨hg, -⟩ := cacheStep_text t pol s.cache hx
  have hg : (serveStep t pol s op).cache.g = _ := hg
  rw [hg, ltCachedStrImpl_of_hit hhit]

/-- A hash is formatted whenever it is asked for. -/
theorem requests_hash (inv : RunInv P s) {h : Sha1Hash} (hh : op.hashArg = some h) :
    op.requests t pol s.cache.g = pol.requests := by
  cases op with
  | hash h' => simp [CacheOp.requests, inv.hash_miss]
  | _ => exact absurd hh (by simp [CacheOp.hashArg])

/-- **A hash is never answered for free.** -/
theorem ltCacheUsed_serveStep_hash (inv : RunInv P s) {h : Sha1Hash} (hh : op.hashArg = some h) :
    ltCacheUsed (serveStep t pol s op).cache.g.block ≠ ltCacheUsed s.cache.g.block := by
  obtain ⟨hpos, hsmall⟩ := sum_requests_bounds pol
  have hblock : (serveStep t pol s op).cache.g.block = _ := block_cacheStep s.cache op
  have hne := last_allocs_ne inv.delimits hpos hsmall
  rw [hblock, requests_hash inv hh, ltCacheUsed, ltCacheUsed,
    (delimits_allocs inv.delimits pol.requests).base, inv.delimits.base]
  omega

/-- **A repeated request is free unless it is for a hash.** -/
theorem repeatFree_iff (inv : RunInv P s) (hop : op.key.isSome) :
    RepeatFree t pol s op ↔ FreshHash s op := by
  obtain ⟨key, hkey⟩ := Option.isSome_iff_exists.mp hop
  cases key with
  | inl x =>
      have hx := key_eq_inl_iff.mp hkey
      refine iff_of_true (repeatFree_text inv hx) fun h hh => ?_
      rw [key_eq_inr_iff.mpr hh] at hkey
      exact absurd hkey (by simp)
  | inr h =>
      have hh := key_eq_inr_iff.mp hkey
      constructor
      · intro hfree h' hh' hmem
        obtain ⟨a, ha, hah⟩ := List.mem_filterMap.mp hmem
        have hsame : a.op.key = op.key := by
          rw [key_eq_inr_iff.mpr hah, key_eq_inr_iff.mpr hh']
        exact ltCacheUsed_serveStep_hash inv hh (hfree a ha hsame).2
      · intro hfresh a ha hsame
        have hah := key_eq_inr_iff.mp (hsame.trans hkey)
        exact absurd (List.mem_filterMap.mpr ⟨a, ha, hah⟩) (hfresh h hh)

/-- No hash is asked for again exactly when the hashes of the run differ. -/
theorem along_freshHash_iff {ops : List CacheOp} (hs : s.hashes.Nodup) :
    Along (serveStep t pol) FreshHash s ops ↔
      (s.hashes ++ ops.filterMap CacheOp.hashArg).Nodup := by
  induction ops generalizing s with
  | nil => simpa using hs
  | cons op ops ih =>
      have hnext := hashes_serveStep t pol s op
      rw [along_cons]
      cases hop : op.hashArg with
      | none =>
          rw [hop, Option.toList_none, List.append_nil] at hnext
          rw [ih (hnext ▸ hs), hnext, List.filterMap_cons_none hop]
          exact and_iff_right fun h hh => absurd (hop.symm.trans hh) (by simp)
      | some h =>
          rw [hop, Option.toList_some] at hnext
          have hfresh : FreshHash s op ↔ (s.hashes ++ [h]).Nodup := by
            rw [FreshHash, hop, List.nodup_append']
            simp [hs]
          have hsplit : s.hashes ++ (op :: ops).filterMap CacheOp.hashArg =
              (s.hashes ++ [h]) ++ ops.filterMap CacheOp.hashArg := by
            rw [List.filterMap_cons_some hop, List.append_assoc, List.singleton_append]
          rw [hfresh, hsplit]
          constructor
          · rintro ⟨hnodup, hrest⟩
            rwa [ih (hnext ▸ hnodup), hnext] at hrest
          · intro hall
            have hnodup := (List.nodup_append'.mp hall).1
            exact ⟨hnodup, by rwa [ih (hnext ▸ hnodup), hnext]⟩

/-! ### Space -/

/-- All requests of the operations `ops` from `s`, in order. -/
def requestsAlong (t : Target) (pol : StreamPolicy) : Served → List CacheOp → List ℕ
  | _, [] => []
  | s, op :: ops =>
      op.requests t pol s.cache.g ++ requestsAlong t pol (serveStep t pol s op) ops

theorem requestsAlong_concat (s : Served) (ops : List CacheOp) (op : CacheOp) :
    requestsAlong t pol s (ops ++ [op]) =
      requestsAlong t pol s ops ++ op.requests t pol (run (serveStep t pol) s ops).cache.g := by
  induction ops generalizing s with
  | nil => simp [requestsAlong]
  | cons op' ops ih =>
      rw [List.cons_append, requestsAlong, ih, requestsAlong, List.append_assoc, run_cons]

/-- **No reset** along a run of calls: all its requests together are served without one. -/
theorem along_noReset_iff {c : P.Cursor} {ops : List CacheOp}
    (hc : s.cache.g.block = P.block c) (hmiss : ∀ h, s.cache.g.gHashCache h = none)
    (hcalls : ∀ op ∈ ops, op.key.isSome) :
    Along (serveStep t pol) (fun s op => op.NoReset t pol s.cache) s ops ↔
      Straight P.stop c.pos (requestsAlong t pol s ops) := by
  induction ops generalizing s c with
  | nil => exact iff_of_true trivial trivial
  | cons op ops ih =>
      rw [along_cons, requestsAlong, straight_append]
      have hop : op.NoReset t pol s.cache ↔
          Straight P.stop c.pos (op.requests t pol s.cache.g) := by
        rw [CacheOp.NoReset, hc]
        rfl
      rw [← hop]
      refine and_congr_right fun hreset => ?_
      have hinside : op.WritesInside s.cache := by
        have hcall := hcalls op List.mem_cons_self
        cases op with
        | alloc n ws => exact absurd hcall Bool.false_ne_true
        | write i ws => exact absurd hcall Bool.false_ne_true
        | _ => trivial
      obtain ⟨c', hblock, hpos⟩ := (cacheStep_serves hc hmiss hreset hinside).cursor
      rw [← hpos]
      exact ih hblock (hash_miss_cacheStep hmiss op) fun op' hop' =>
        hcalls op' (List.mem_cons_of_mem _ hop')

/-- The strings of a run. -/
def textsOf (ops : List CacheOp) : Finset Bytes := (ops.filterMap CacheOp.text).toFinset

/-- What the distinct values of a run take: each string with its NUL, and for each hash the
blocks of one conversion. -/
def distinctSize (pol : StreamPolicy) (ops : List CacheOp) : ℕ :=
  ∑ x ∈ textsOf ops, (x.length + 1) +
    (ops.filterMap CacheOp.hashArg).toFinset.card * pol.requests.sum

theorem mem_textsOf {ops : List CacheOp} {x : Bytes} :
    x ∈ textsOf ops ↔ some x ∈ ops.map CacheOp.text := by
  simp [textsOf]

theorem noCollisions_iff_textsOf {ops : List CacheOp} :
    NoCollisions t ops ↔ Set.InjOn (boostHash t) (textsOf ops) := by
  have htexts : {s | some s ∈ ops.map CacheOp.text} = (textsOf ops : Set Bytes) := by
    ext x
    exact mem_textsOf.symm
  rw [NoCollisions, htexts]

theorem textsOf_concat_text {ops : List CacheOp} {x : Bytes} (hx : op.text = some x) :
    textsOf (ops ++ [op]) = insert x (textsOf ops) := by
  ext y
  simp [mem_textsOf, hx, eq_comm, or_comm]

theorem textsOf_concat_hash {ops : List CacheOp} {h : Sha1Hash} (hh : op.hashArg = some h) :
    textsOf (ops ++ [op]) = textsOf ops := by
  have htext : op.text = none := by
    cases op with
    | hash h' => rfl
    | _ => exact absurd hh (by simp [CacheOp.hashArg])
  ext y
  simp [mem_textsOf, htext]

theorem hashArg_of_text {x : Bytes} (hx : op.text = some x) : op.hashArg = none := by
  cases op with
  | hash h => exact absurd hx (by simp [CacheOp.text])
  | _ => rfl

theorem distinctSize_concat_old {ops : List CacheOp} {x : Bytes} (hx : op.text = some x)
    (hold : x ∈ textsOf ops) : distinctSize pol (ops ++ [op]) = distinctSize pol ops := by
  have hhashes : (ops ++ [op]).filterMap CacheOp.hashArg = ops.filterMap CacheOp.hashArg := by
    simp [hashArg_of_text hx]
  rw [distinctSize, textsOf_concat_text hx, Finset.insert_eq_of_mem hold, hhashes, distinctSize]

theorem distinctSize_concat_text {ops : List CacheOp} {x : Bytes} (hx : op.text = some x)
    (hnew : x ∉ textsOf ops) :
    distinctSize pol (ops ++ [op]) = distinctSize pol ops + (x.length + 1) := by
  have hhashes : (ops ++ [op]).filterMap CacheOp.hashArg = ops.filterMap CacheOp.hashArg := by
    simp [hashArg_of_text hx]
  rw [distinctSize, textsOf_concat_text hx, Finset.sum_insert hnew, hhashes, distinctSize]
  ring

theorem distinctSize_concat_hash {ops : List CacheOp} {h : Sha1Hash} (hh : op.hashArg = some h)
    (hnew : h ∉ ops.filterMap CacheOp.hashArg) :
    distinctSize pol (ops ++ [op]) = distinctSize pol ops + pol.requests.sum := by
  have hhashes : ((ops ++ [op]).filterMap CacheOp.hashArg).toFinset =
      insert h (ops.filterMap CacheOp.hashArg).toFinset := by
    ext h'
    simp [hh, eq_comm]
  rw [distinctSize, textsOf_concat_hash hh, hhashes,
    Finset.card_insert_of_notMem (by simpa using hnew), distinctSize]
  ring

/-- The state that a run of calls reaches. -/
theorem runInv_run (mem : Mem UInt8) (ops : List CacheOp) :
    RunInv P (run (serveStep t pol) (Served.start P.base mem) ops) := by
  have hstep : ∀ (s : Served) (op : CacheOp), RunInv P s → True →
      RunInv P (serveStep t pol s op) := fun s op inv _ => runInv_step inv op
  have hstart : RunInv P (Served.start P.base mem) := runInv_start mem
  exact inv_run hstep hstart (along_of_forall_mem fun _ _ => trivial)

/-- `n` bytes are what a run of `ops` requests, if it does not repeat a hash: no more than its
distinct values take, and less exactly when two of its strings collide. -/
def Accounts (t : Target) (pol : StreamPolicy) (n : ℕ) (ops : List CacheOp) : Prop :=
  n ≤ distinctSize pol ops ∧ (n = distinctSize pol ops ↔ NoCollisions t ops)

/-- A call for a string: one that was requested before takes nothing, a new one that collides
with an earlier one takes nothing either, and any other its length and the NUL. -/
theorem Accounts.text {ops : List CacheOp} {n : ℕ} {x : Bytes} (h : Accounts t pol n ops)
    (inv : RunInv P s) (htexts : s.texts = textsOf ops) (hx : op.text = some x) :
    Accounts t pol (n + (op.requests t pol s.cache.g).sum) (ops ++ [op]) := by
  obtain ⟨hle, heq⟩ := h
  obtain ⟨-, -, hrequests, -⟩ := cacheStep_text t pol s.cache hx
  have hhit := isSome_gStrCache_iff (x := x) inv.found inv.cached
  rw [htexts] at hhit
  rw [noCollisions_iff_textsOf] at heq
  rw [Accounts, noCollisions_iff_textsOf, hrequests, textsOf_concat_text hx]
  by_cases hold : x ∈ textsOf ops
  · rw [if_pos (hhit.mpr ⟨x, hold, rfl⟩), distinctSize_concat_old hx hold,
      Finset.insert_eq_of_mem hold, List.sum_nil, Nat.add_zero]
    exact ⟨hle, heq⟩
  · have hinsert : Set.InjOn (boostHash t) (insert x (textsOf ops) : Finset Bytes) ↔
        Set.InjOn (boostHash t) (textsOf ops) ∧
          ¬ (s.cache.g.gStrCache (boostHash t x)).isSome := by
      rw [Finset.coe_insert, Set.injOn_insert (by simpa using hold), hhit]
      rfl
    rw [distinctSize_concat_text hx hold, hinsert, ← heq]
    by_cases hsome : (s.cache.g.gStrCache (boostHash t x)).isSome
    · rw [if_pos hsome, List.sum_nil, Nat.add_zero]
      exact ⟨by omega, by omega, fun hboth => absurd hsome hboth.2⟩
    · rw [if_neg hsome, List.sum_singleton, Nat.add_right_cancel_iff]
      exact ⟨Nat.add_le_add_right hle _, fun hn => ⟨hn, hsome⟩, fun hboth => hboth.1⟩

/-- A call for a new hash takes the blocks of one conversion. -/
theorem Accounts.hash {ops : List CacheOp} {n : ℕ} {h : Sha1Hash} (haccounts : Accounts t pol n ops)
    (inv : RunInv P s) (hh : op.hashArg = some h) (hnew : h ∉ ops.filterMap CacheOp.hashArg) :
    Accounts t pol (n + (op.requests t pol s.cache.g).sum) (ops ++ [op]) := by
  obtain ⟨hle, heq⟩ := haccounts
  rw [noCollisions_iff_textsOf] at heq
  rw [Accounts, noCollisions_iff_textsOf, requests_hash inv hh, textsOf_concat_hash hh,
    distinctSize_concat_hash hh hnew, Nat.add_right_cancel_iff]
  exact ⟨Nat.add_le_add_right hle _, heq⟩

/-- **What a run requests**, if it does not repeat a hash. The induction is on the run from its
end: each call is accounted for in the state that the calls before it reach. -/
theorem sum_requestsAlong (P : Placement t) (pol : StreamPolicy) (mem : Mem UInt8)
    {ops : List CacheOp} (hcalls : ∀ op ∈ ops, op.key.isSome)
    (hnodup : (ops.filterMap CacheOp.hashArg).Nodup) :
    Accounts t pol (requestsAlong t pol (Served.start P.base mem) ops).sum ops := by
  induction ops using List.reverseRecOn with
  | nil => simp [Accounts, requestsAlong, distinctSize, textsOf, NoCollisions]
  | append_singleton ops op ih =>
      rw [List.filterMap_append, List.nodup_append'] at hnodup
      obtain ⟨hbefore, -, hdisj⟩ := hnodup
      have haccounts := ih (fun op' hop' => hcalls op' (List.mem_append_left _ hop')) hbefore
      have inv : RunInv P (run (serveStep t pol) (Served.start P.base mem) ops) :=
        runInv_run mem ops
      have htexts : (run (serveStep t pol) (Served.start P.base mem) ops).texts = textsOf ops := by
        rw [texts_run, texts_start, Set.empty_union]
        ext x
        exact mem_textsOf.symm
      rw [requestsAlong_concat, List.sum_append]
      obtain ⟨key, hkey⟩ := Option.isSome_iff_exists.mp
        (hcalls op (List.mem_append_right _ List.mem_cons_self))
      cases key with
      | inl x => exact haccounts.text inv htexts (key_eq_inl_iff.mp hkey)
      | inr h =>
          have hh : op.hashArg = some h := key_eq_inr_iff.mp hkey
          exact haccounts.hash inv hh fun hmem => hdisj hmem (by simp [hh])

/-- A run of calls whose requests are less than the arena, and only such a run, has no reset. -/
theorem along_noReset_start_iff {mem : Mem UInt8} {ops : List CacheOp}
    (hcalls : ∀ op ∈ ops, op.key.isSome) :
    Along (serveStep t pol) (fun s op => op.NoReset t pol s.cache) (Served.start P.base mem) ops ↔
      (requestsAlong t pol (Served.start P.base mem) ops).sum < memBlockSize := by
  have hstart : (Served.start P.base mem).cache.g.block = P.block P.start := P.ltInitStrCache_eq
  rw [along_noReset_iff hstart (fun _ => rfl) hcalls, straight_iff]
  simp only [Placement.start, Placement.stop, Nat.add_lt_add_iff_left]
  constructor
  · rintro (hnil | hsum)
    · rw [hnil]
      exact memBlockSize_pos
    · exact hsum
  · exact Or.inr

/-- **When repeats cost nothing.** Take a run of `lt_cached_str` on strings, string views and
hashes. Every call for a value that was requested before, from the same map, returns the pointer
returned then and leaves `lt_cache_used` unchanged, and the arena is not reset if the distinct
values fit in it with one conversion for each hash, if and only if no hash is requested twice
and the distinct values do not fill the arena to the last byte without a collision. -/
theorem ltCachedStr_repeats_iff (P : Placement t) (pol : StreamPolicy) (mem : Mem UInt8)
    (ops : List CacheOp) (hcalls : ∀ op ∈ ops, op.key.isSome) :
    (Along (serveStep t pol) (RepeatFree t pol) (Served.start P.base mem) ops ∧
        (distinctSize pol ops ≤ memBlockSize →
          Along (serveStep t pol) (fun s op => op.NoReset t pol s.cache)
            (Served.start P.base mem) ops)) ↔
      (ops.filterMap CacheOp.hashArg).Nodup ∧
        ¬ (distinctSize pol ops = memBlockSize ∧ NoCollisions t ops) := by
  have hstep : ∀ (s : Served) (op : CacheOp), RunInv P s → op.key.isSome → FreshHash s op →
      RunInv P (serveStep t pol s op) := fun s op inv _ _ => runInv_step inv op
  have hstart : RunInv P (Served.start P.base mem) := runInv_start mem
  have hfree : Along (serveStep t pol) (RepeatFree t pol) (Served.start P.base mem) ops ↔
      (ops.filterMap CacheOp.hashArg).Nodup := by
    rw [along_iff_of_inv hstep (fun s op inv hop => repeatFree_iff inv hop) hstart
      (along_of_forall_mem hcalls)]
    exact along_freshHash_iff (s := Served.start P.base mem) List.nodup_nil
  rw [hfree, along_noReset_start_iff hcalls]
  refine and_congr_right fun hnodup => ?_
  obtain ⟨hle, heq⟩ := sum_requestsAlong P pol mem hcalls hnodup
  rw [← heq]
  omega

/-- A run with each kind of call, in which only strings are repeated. -/
theorem ltCachedStr_repeats_small :
    let ops : List CacheOp :=
      [.string [97], .hash ⟨List.replicate 20 0, rfl⟩, .view [97], .view [97, 98], .string [97, 98]]
    let start := Served.start Placement.low.base fun _ => 0
    (Along (serveStep Target.x64 .fifteenInObject) (RepeatFree Target.x64 .fifteenInObject)
          start ops ∧
        (distinctSize .fifteenInObject ops ≤ memBlockSize →
          Along (serveStep Target.x64 .fifteenInObject)
            (fun s op => op.NoReset Target.x64 .fifteenInObject s.cache) start ops)) ↔
      (ops.filterMap CacheOp.hashArg).Nodup ∧
        ¬ (distinctSize .fifteenInObject ops = memBlockSize ∧ NoCollisions Target.x64 ops) := by
  intro ops start
  exact ltCachedStr_repeats_iff Placement.low .fifteenInObject _ ops (by decide)

/-- **A hash pays twice.** The second request of one hash returns another pointer than the
first, and takes as much of the arena again. -/
theorem ltCachedStr_hash_repeated :
    let h : Sha1Hash := ⟨List.replicate 20 0, rfl⟩
    let start := Served.start Placement.low.base fun _ => 0
    let step := serveStep Target.x64 .fifteenInObject
    ¬ Along step (RepeatFree Target.x64 .fifteenInObject) start [.hash h, .hash h] ∧
      (run step start [.hash h, .hash h]).answers.map (fun a => a.ptr - Placement.low.base) =
        [554, 1149] ∧
      [run step start [.hash h], run step start [.hash h, .hash h]].map
          (fun s => ltCacheUsed s.cache.g.block) = [595, 1190] := by
  decide +kernel

end DartTorrent
