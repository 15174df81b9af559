import DartTorrent.LoadErrors
import DartTorrent.Lives

/-!
# Rows That Belong to No Torrent

The code names a row by the text of a hash, when it replaces the row and when it deletes it. A save
during which the arena wraps may bind another text (`ltUpdateResumeData_key_lost`), and a database
may hold such a row for other reasons. No later call can name it.

## Main results

* `orphan_of_wrap`: a save that leaves such a row.
* `orphan_permanent`: the row outlives every later life of the process, and every start that can
  read the rows before it comes to it. If its resume data cannot be read, no torrent saved from
  then on is ever restored.
-/

open ByteStore BumpArena GuardedRun

namespace DartTorrent

/-- The key of the row is not the text of a hash. -/
def Orphan (e : KeyedTable.Entry Bytes StoredRow) : Prop := ∀ hash, e.key ≠ hexText hash

variable {t : Target} {env : LoadEnv} {table : Table} {e : KeyedTable.Entry Bytes StoredRow}

/-- **A save that wraps leaves an orphan**, if the byte that comes to stand on the first digit of
the text is neither NUL nor a hex digit. -/
theorem orphan_of_wrap (P : Placement t) (c : P.Cursor) {g : StrState}
    (hg : g.block = P.block c) (pol : StreamPolicy) (codec : ResumeCodec) (hash : Sha1Hash)
    (hmiss : g.gHashCache hash = none) (params : AddTorrentParams) {db : Conn}
    (hdb : db.openTxn = none) (hlo : 2 ^ 21 < (codec.writeResumeData params).length)
    (hhi : (codec.writeResumeData params).length ≤ 2 ^ 22)
    (hc : after P.base P.stop c.pos pol.requests + 2 ^ 22 ≤ P.stop) {b : UInt8}
    (hb : (codec.writeResumeData params)[after P.base P.stop c.pos pol.requests - 41 - P.base]? =
      some b)
    (hnul : b ≠ 0) (hhex : ¬ ((48 ≤ b ∧ b ≤ 57) ∨ (97 ≤ b ∧ b ≤ 102))) :
    ∃ e ∈ (ltUpdateResumeData t pol codec {} hash params ⟨g, db⟩).db.table.rows, Orphan e := by
  have hover := mem_text_of_wrap P c hg pol hash hmiss hlo hhi hc hb
  rw [ltUpdateResumeData_db, storeStep_of_succeeded hdb (succeeded_update _ _)]
  exact ⟨_, KeyedTable.mem_rows_replace.mpr (Or.inr rfl),
    fun hash' => boundText_ne_hexText (t := t) hover hnul hhex hash'⟩

/-- The operations of the code leave an orphan where it is, and what stands before it afterwards
was not operated on. -/
theorem rows_of_orphan (codec : ResumeCodec) (he : e ∈ table.rows) (horphan : Orphan e)
    (ops : List StoreOp) :
    e ∈ (table.applyAll (ops.map (StoreOp.tableOp codec))).rows ∧
      ∀ f ∈ (table.applyAll (ops.map (StoreOp.tableOp codec))).rows, f.rowid < e.rowid →
        f ∈ table.rows ∧ ∀ op ∈ ops, f.key ≠ hexText op.hash := by
  have hkeys : ∀ op ∈ ops.map (StoreOp.tableOp codec), op.key ≠ e.key := by
    intro op hop
    obtain ⟨op, -, rfl⟩ := List.mem_map.mp hop
    exact (key_tableOp op).trans_ne (horphan op.hash).symm
  obtain ⟨hkept, hbefore⟩ := KeyedTable.rows_applyAll_of_key_ne he hkeys
  refine ⟨hkept, fun f hf hlt => ?_⟩
  obtain ⟨hf, hne⟩ := hbefore f hf hlt
  refine ⟨hf, fun op hop => ?_⟩
  exact (hne _ (List.mem_map_of_mem hop)).symm.trans_eq (key_tableOp op)

/-- A scan that has a row it cannot read ahead, and only rows it can read before it, is left at that
row. -/
theorem loadLoop_of_split {l : LoadState} {seen pre rest : List (KeyedTable.Entry Bytes StoredRow)}
    (inv : ScanInv env table l seen (pre ++ e :: rest)) (hrun : l.status = .running)
    (hpre : ∀ f ∈ pre, ¬ Throws env f) (hthrows : Throws env e) {fuel : ℕ}
    (hfuel : pre.length < fuel) :
    (loadLoop env table fuel l).status = .threw ∧
      (loadLoop env table fuel l).submitted = (seen ++ pre).filterMap (submission env) := by
  induction pre generalizing l seen fuel with
  | nil =>
      obtain ⟨fuel, rfl⟩ := Nat.exists_eq_succ_of_ne_zero (Nat.ne_of_gt hfuel)
      rcases loadStep_of_next env hrun (inv.ahead hrun) with ⟨hreads, -⟩ | ⟨-, hstep⟩
      · exact absurd hthrows hreads
      · rw [loadLoop, hstep, loadLoop_of_ne_running (by simp), List.append_nil]
        exact ⟨rfl, inv.submitted⟩
  | cons f pre ih =>
      obtain ⟨fuel, rfl⟩ := Nat.exists_eq_succ_of_ne_zero (Nat.ne_zero_of_lt hfuel)
      obtain ⟨hf, hrest⟩ := List.forall_mem_cons.mp hpre
      rcases loadStep_of_next env hrun (inv.ahead hrun) with ⟨-, hstep⟩ | ⟨hbad, -⟩
      · have hloop := ih (inv.read hrun hf) hrun hrest (Nat.lt_of_succ_lt_succ hfuel)
        rw [loadLoop, hstep, List.append_cons]
        exact hloop
      · exact absurd hbad hf

/-- A load that comes upon a row that it cannot read is left there: what it submits stands before
the row. -/
theorem load_of_throws (he : e ∈ table.rows) (hthrows : Throws env e) :
    let l := ltInitSessionDb env {} table
    l.status = .threw ∧
      ∀ x ∈ l.submitted, ∃ f ∈ table.rows, f.rowid < e.rowid ∧ submission env f = some x := by
  classical
  intro l
  -- the first row that cannot be read
  obtain ⟨e', hfind⟩ : ∃ e', table.rows.find? (fun f => Throws env f) = some e' := by
    rw [← Option.isSome_iff_exists, List.find?_isSome]
    exact ⟨e, he, decide_eq_true hthrows⟩
  obtain ⟨hfirst, pre, rest, hrows, hpre⟩ := List.find?_eq_some_iff_append.mp hfind
  have hpre : ∀ f ∈ pre, ¬ Throws env f := fun f hf => by simpa using hpre f hf
  have hinv : ScanInv env table .start [] (pre ++ e' :: rest) := hrows ▸ scanInv_start env table
  have hfuel : pre.length < table.rows.length + 1 := by
    rw [hrows, List.length_append]
    omega
  obtain ⟨hthrew, hsub⟩ := loadLoop_of_split hinv rfl hpre (of_decide_eq_true hfirst) hfuel
  refine ⟨hthrew, fun x hx => ?_⟩
  have hsub : l.submitted = pre.filterMap (submission env) := hsub
  obtain ⟨f, hf, hx⟩ := List.mem_filterMap.mp (hsub ▸ hx)
  have hsorted := hrows ▸ table.rowid_lt
  have hlt : ∀ g ∈ e' :: rest, f.rowid < g.rowid := (List.pairwise_append.mp hsorted).2.2 f hf
  have hbehind : e ∈ e' :: rest := (List.mem_append.mp (hrows ▸ he)).resolve_left
    fun hmem => hpre e hmem hthrows
  exact ⟨f, hrows ▸ List.mem_append_left _ hf, hlt e hbehind, hx⟩

/-- **An orphan is permanent.** After any number of later lives of the process, with calls of the
resume store on any hashes and any results of their SQLite calls, the text of each hash being
intact while it is bound, the row is still where it was: every row before it stood there already,
and no operation has touched its torrent since. If the rows before it could be read, every later
start submits what it has. If it cannot be read itself, every later start is left by an exception
before it has submitted any row from this one on, so that no torrent saved from then on is ever
restored. -/
theorem orphan_permanent (t : Target) (pol : StreamPolicy) (env : LoadEnv) (table : Table)
    {e : KeyedTable.Entry Bytes StoredRow} (he : e ∈ table.rows) (horphan : Orphan e)
    (lives : List (Life t))
    (hlives : Along (leavesOnDisk t pol env.codec)
      (fun table life => life.Intact pol env.codec table) table lives) :
    let table' := run (leavesOnDisk t pol env.codec) table lives
    let l := ltInitSessionDb env {} table'
    e ∈ table'.rows ∧
      (∀ f ∈ table'.rows, f.rowid < e.rowid →
        f ∈ table.rows ∧ ∀ op ∈ lives.flatMap Life.onDisk, f.key ≠ hexText op.hash) ∧
      ((∀ f ∈ table.rows, f.rowid < e.rowid → ¬ Throws env f) →
        ∀ x ∈ submission env e, x ∈ l.submitted) ∧
      (Throws env e → l.status = .threw ∧ ∀ x ∈ l.submitted,
        (∃ f ∈ table.rows, f.rowid < e.rowid ∧ submission env f = some x) ∧
          ∀ op ∈ lives.flatMap Life.onDisk, x.key ≠ hexText op.hash) := by
  intro table' l
  have htable : table' = table.applyAll
      ((lives.flatMap Life.onDisk).map (StoreOp.tableOp env.codec)) := table_of_lives hlives
  obtain ⟨hkept, hbefore⟩ := rows_of_orphan env.codec he horphan (lives.flatMap Life.onDisk)
  rw [← htable] at hkept hbefore
  refine ⟨hkept, hbefore, fun hreads => ?_, fun hthrows => ?_⟩
  · exact mem_submitted_of_before hkept fun f hf hlt => hreads f (hbefore f hf hlt).1 hlt
  · obtain ⟨hthrew, hsub⟩ := load_of_throws hkept hthrows
    refine ⟨hthrew, fun x hx => ?_⟩
    obtain ⟨f, hf, hlt, hfx⟩ := hsub x hx
    obtain ⟨hf, hne⟩ := hbefore f hf hlt
    obtain ⟨params, -, rfl⟩ := Option.map_eq_some_iff.mp hfx
    exact ⟨⟨f, hf, hlt, hfx⟩, hne⟩

/-- The text of a hash has 40 digits. -/
theorem orphan_of_length_ne (h : e.key.length ≠ 40) : Orphan e := by
  intro hash hkey
  rw [hkey, length_hexText] at h
  exact h rfl

/-- Two orphans, and the lives of the sample: at the next start the resume data under the key `a` is
submitted, and the start is left at the unreadable row behind it. -/
theorem orphan_permanent_small :
    let env : LoadEnv := ⟨netstringCodec, none⟩
    let saved := storedRow netstringCodec (sampleParams 3)
    let bad : StoredRow := ⟨[0], [], []⟩
    let table : Table := (KeyedTable.empty.replace [97] saved).replace [98] bad
    let table' := run (leavesOnDisk Target.x64 .fifteenInObject env.codec) table sampleLives
    let l := ltInitSessionDb env {} table'
    ⟨1, [97], restored env (sampleParams 3)⟩ ∈ l.submitted ∧
      ⟨2, [98], bad⟩ ∈ table'.rows ∧ l.status = .threw ∧
        ∀ x ∈ l.submitted, ∀ op ∈ sampleLives.flatMap Life.onDisk, x.key ≠ hexText op.hash := by
  intro env saved bad table table' l
  obtain ⟨-, -, hsubmitted, -⟩ := orphan_permanent Target.x64 .fifteenInObject env table
    (e := ⟨1, [97], saved⟩) (by decide +kernel) (orphan_of_length_ne (by decide)) sampleLives
    (sampleLives_intact _)
  obtain ⟨hkept, -, -, hleft⟩ := orphan_permanent Target.x64 .fifteenInObject env table
    (e := ⟨2, [98], bad⟩) (by decide +kernel) (orphan_of_length_ne (by decide)) sampleLives
    (sampleLives_intact _)
  obtain ⟨hthrew, hold⟩ := hleft ⟨_, rfl⟩
  refine ⟨hsubmitted (fun f hf hlt => ?_) _ ?_, hkept, hthrew, fun x hx => (hold x hx).2⟩
  · exact absurd (table.rowid_pos f hf) (Nat.not_lt.mpr (Nat.le_of_lt_succ hlt))
  · have hrow : loadRow env saved = .submitted (restored env (sampleParams 3)) :=
      loadRow_storedRow _
    simp only [submission, loadedParams, hrow]
    rfl

end DartTorrent
