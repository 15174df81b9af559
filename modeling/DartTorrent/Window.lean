import DartTorrent.Repeats

/-!
# How Long a String Stays

Everything that uses the arena makes requests of it, and writes to the blocks it is handed. What a
string in the arena has to fear of later users is in these two: which requests they make, and that
they write nowhere else. This module states both as one relation between two states of the arena,
`Spends`, shows it of every run of the cache and its clients, and says how long a string stays.

## Main results

* `Spends.trans`: requests add up.
* `spends_serve`: a run of the cache and of clients that write to blocks handed out in it only.
* `Spends.kept`: a string right below the cursor stays as long as the later requests, with the
  largest of them once more, are within the budget of the arena together with it.
-/

open ByteStore BumpArena GuardedRun

namespace DartTorrent

/-- A client writes to no block handed out before the `k`-th. -/
def CacheOp.WritesFrom (k : ℕ) : CacheOp → Prop
  | .write i _ => k ≤ i
  | _ => True

variable {t : Target} {pol : StreamPolicy} {P : Placement t} {g g' g'' : StrState}
  {ns ns' : List ℕ}

/-! ### Requests and their blocks -/

/-- The requests `ns` take the arena from `g` to `g'`: the cursor is where they leave it, only
their blocks were written to, and `g_hash_cache` is as it was. -/
structure Spends (P : Placement t) (ns : List ℕ) (g g' : StrState) : Prop where
  cursor : ∀ c : P.Cursor, g.block = P.block c →
    ∃ c' : P.Cursor, g'.block = P.block c' ∧ c'.pos = after P.base P.stop c.pos ns
  frame : ∀ c : P.Cursor, g.block = P.block c →
    AgreesOff (blocksFrom P.base P.stop c.pos ns) g.mem g'.mem
  hash_cache : g'.gHashCache = g.gHashCache

theorem Spends.refl (P : Placement t) (g : StrState) : Spends P [] g g :=
  ⟨fun c hc => ⟨c, hc, rfl⟩, fun _ _ => AgreesOff.refl _ _, rfl⟩

/-- **Requests add up.** -/
theorem Spends.trans (h : Spends P ns g g') (h' : Spends P ns' g' g'') :
    Spends P (ns ++ ns') g g'' := by
  refine ⟨fun c hc => ?_, fun c hc => ?_, h'.hash_cache.trans h.hash_cache⟩
  · obtain ⟨c', hc', hpos'⟩ := h.cursor c hc
    obtain ⟨c'', hc'', hpos''⟩ := h'.cursor c' hc'
    exact ⟨c'', hc'', by rw [hpos'', hpos', after_append]⟩
  · obtain ⟨c', hc', hpos'⟩ := h.cursor c hc
    have hlater := h'.frame c' hc'
    rw [hpos'] at hlater
    rw [blocksFrom_append]
    exact (h.frame c hc).trans hlater

/-- Requests leave the cursor in the arena, and `g_hash_cache` empty. -/
theorem Spends.block (h : Spends P ns g g') (hg : ∃ c : P.Cursor, g.block = P.block c) :
    ∃ c : P.Cursor, g'.block = P.block c := by
  obtain ⟨c, hc⟩ := hg
  obtain ⟨c', hc', -⟩ := h.cursor c hc
  exact ⟨c', hc'⟩

theorem Spends.hash_miss (h : Spends P ns g g') (hmiss : ∀ hash, g.gHashCache hash = none) :
    ∀ hash, g'.gHashCache hash = none :=
  fun hash => (congrFun h.hash_cache hash).trans (hmiss hash)

/-- **A string right below the cursor is kept** by requests that the arena could hold together
with it, the largest of them twice. -/
theorem Spends.kept (h : Spends P ns g g') {c : P.Cursor} (hc : g.block = P.block c) {p : ℕ}
    {x : Bytes} (hheld : Holds 0 g.mem p x) (hlast : p + (x.length + 1) = c.pos) {m : ℕ}
    (hmax : ∀ n ∈ ns, n ≤ m) (hbudget : x.length + 1 + ns.sum + m ≤ memBlockSize) :
    Holds 0 g'.mem p x := by
  refine hheld.of_agreesOff (h.frame c hc) fun b hb => ?_
  exact not_overlaps_of_budget hlast hmax (by rw [Placement.stop]; omega) hb

/-! ### Runs of the cache and its clients -/

section Run

variable {c : P.Cursor} {s : Served} {ops : List CacheOp} {k : ℕ} {W : List Span}

/-- An operation touches its new blocks, or a block from the `k`-th on. -/
theorem touched_subset {st : CacheState} {op : CacheOp} (hc : st.g.block = P.block c)
    (hop : op.WritesFrom k) (hW : ∀ i, k ≤ i → ∀ b ∈ st.blocks[i]?, b ∈ W) :
    op.touched t pol st ⊆ W ++ blocksFrom P.base P.stop c.pos (op.requests t pol st.g) := by
  intro b hb
  rcases mem_touched hc hb with hnew | ⟨i, ws, rfl, hold⟩
  · exact List.mem_append_right _ hnew
  · exact List.mem_append_left _ (hW i hop b hold)

variable (t pol) in
/-- The requests of the operation are ones that the arena could hold, and a client writes inside
its block. -/
def CacheOp.Servable (s : Served) (op : CacheOp) : Prop :=
  (∀ n ∈ op.requests t pol s.cache.g, n ≤ memBlockSize) ∧ op.WritesInside s.cache

/-- **A run writes to the blocks of its requests, and to no others**, but for the blocks `W` that
the clients hold already. -/
theorem run_frame (hc : s.cache.g.block = P.block c) (hmiss : ∀ h, s.cache.g.gHashCache h = none)
    (hserved : Along (serveStep t pol) (fun s op => op.Servable t pol s) s ops)
    (hwrites : ∀ op ∈ ops, op.WritesFrom k) (hW : ∀ i, k ≤ i → ∀ b ∈ s.cache.blocks[i]?, b ∈ W) :
    let s' := run (serveStep t pol) s ops
    (∃ c' : P.Cursor, s'.cache.g.block = P.block c' ∧
        c'.pos = after P.base P.stop c.pos (requestsAlong t pol s ops)) ∧
      AgreesOff (W ++ blocksFrom P.base P.stop c.pos (requestsAlong t pol s ops)) s.cache.g.mem
        s'.cache.g.mem := by
  induction ops generalizing s c W with
  | nil => exact ⟨⟨c, hc, rfl⟩, (AgreesOff.refl [] _).mono (List.nil_subset _)⟩
  | cons op ops ih =>
      obtain ⟨hop, hrest⟩ := List.forall_mem_cons.mp hwrites
      obtain ⟨⟨hrequests, hinside⟩, hlater⟩ := hserved
      obtain ⟨⟨c', hc', hpos⟩, hframe⟩ := cacheStep_frame pol hc hmiss hrequests hinside
      have hW' : ∀ i, k ≤ i → ∀ b ∈ (serveStep t pol s op).cache.blocks[i]?,
          b ∈ W ++ blocksFrom P.base P.stop c.pos (op.requests t pol s.cache.g) := by
        intro i hi b hb
        rcases mem_blocks_cacheStep hc hrequests hb with hold | hnew
        · exact List.mem_append_left _ (hW i hi b hold)
        · exact List.mem_append_right _ hnew
      obtain ⟨⟨c'', hc'', hpos'⟩, hrun⟩ :=
        ih hc' (hash_miss_cacheStep hmiss op) hlater hrest hW'
      rw [requestsAlong, blocksFrom_append, after_append, ← hpos, ← List.append_assoc]
      have hstep := hframe.mono (touched_subset hc hop hW)
      exact ⟨⟨c'', hc'', hpos'⟩, (hstep.mono (List.subset_append_left _ _)).trans_same hrun⟩

theorem gHashCache_run (s : Served) (ops : List CacheOp) :
    (run (serveStep t pol) s ops).cache.g.gHashCache = s.cache.g.gHashCache := by
  induction ops generalizing s with
  | nil => rfl
  | cons op ops ih =>
      rw [run_cons, ih]
      exact gHashCache_cacheStep t pol s.cache op

/-- **A run of the cache and its clients spends its requests**, if the clients write to blocks only
that were handed out in it. -/
theorem spends_serve (P : Placement t) (s : Served) (ops : List CacheOp)
    (hmiss : ∀ h, s.cache.g.gHashCache h = none)
    (hserved : Along (serveStep t pol) (fun s op => op.Servable t pol s) s ops)
    (hwrites : ∀ op ∈ ops, op.WritesFrom s.cache.blocks.length) :
    Spends P (requestsAlong t pol s ops) s.cache.g (run (serveStep t pol) s ops).cache.g := by
  have hnone : ∀ i, s.cache.blocks.length ≤ i → ∀ b ∈ s.cache.blocks[i]?, b ∈ ([] : List Span) :=
    fun i hi b hb => absurd (List.getElem?_eq_none hi ▸ hb) (by simp)
  refine ⟨fun c hc => ?_, fun c hc => ?_, gHashCache_run s ops⟩
  · exact (run_frame hc hmiss hserved hwrites hnone).1
  · exact (run_frame hc hmiss hserved hwrites hnone).2

end Run

/-! ### Calls of `lt_cached_str` -/

/-- One operation that writes to no block but its own. -/
theorem spends_cacheStep (P : Placement t) (pol : StreamPolicy) (op : CacheOp)
    (hmiss : ∀ h, g.gHashCache h = none) (hop : op.WritesFrom 0)
    (hfits : ∀ n ∈ op.requests t pol g, n ≤ memBlockSize) (hinside : op.WritesInside ⟨g, [], []⟩) :
    Spends P (op.requests t pol g) g (cacheStep t pol ⟨g, [], []⟩ op).g := by
  have hrun := spends_serve P ⟨⟨g, [], []⟩, []⟩ [op] hmiss
    ⟨⟨hfits, hinside⟩, trivial⟩ (List.forall_mem_singleton.mpr hop)
  rwa [requestsAlong, requestsAlong, List.append_nil] at hrun

/-- **A call of `lt_cached_str`** requests a block if its string is not cached. -/
theorem spends_cachedStr (P : Placement t) (pol : StreamPolicy) {x : Bytes}
    (hmiss : ∀ h, g.gHashCache h = none)
    (hfits : ∀ n ∈ (CacheOp.string x).requests t pol g, n ≤ memBlockSize) :
    Spends P ((CacheOp.string x).requests t pol g) g (ltCachedStrImpl t x g).2 :=
  spends_cacheStep P pol (.string x) hmiss trivial hfits trivial

/-- **The text of a hash** makes the requests of the stream. -/
theorem spends_ltHashStr (P : Placement t) (pol : StreamPolicy) (hash : Sha1Hash)
    (hmiss : ∀ h, g.gHashCache h = none) : Spends P pol.requests g (ltHashStr t pol hash g).2 := by
  have hrequests : (CacheOp.hash hash).requests t pol g = pol.requests := by
    simp [CacheOp.requests, hmiss]
  have hspends := spends_cacheStep P pol (.hash hash) hmiss trivial
    (hrequests ▸ pol.requests_le) trivial
  rwa [hrequests] at hspends

end DartTorrent
