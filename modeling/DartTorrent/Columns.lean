import DartTorrent.Restore
import DartTorrent.LoadErrors
import Mathlib.Data.List.Infix

/-!
# The Text Columns

`lt_update_resume_data` binds name and save path with their lengths. `lt_init_session_db`
tests the length of a column, but builds the string from the pointer to its text, which ends
at the first NUL; an empty column leaves the value that the resume data itself has. On iOS
the save path is put behind the new home directory, from the first `/Documents/` on.

## Main results

* `textColumns_survive_iff`: what is submitted for a saved torrent has its name and its save
  path if and only if the name has no NUL, and every other row can be read.
* `savePath_rebased_iff`: which save paths below `Documents` are put behind the new home
  directory, and that other save paths are kept.
* `name_truncated_at_nul`, `documents_itself_not_rebased`: a name and a save path that do not
  survive.
-/

open ByteStore GuardedRun

namespace DartTorrent

/-! ### Strings and their pointers -/

/-- A string is itself as a C string exactly when it has no NUL. -/
theorem stdString_eq_self_iff {s : Bytes} : stdString s = s ↔ (0 : UInt8) ∉ s := by
  refine ⟨fun h h0 => ?_, stdString_of_nul_notMem⟩
  have hne := List.takeWhile_eq_self_iff.mp h 0 h0
  exact absurd hne (by decide)

theorem stdString_append {s s' : Bytes} (h : (0 : UInt8) ∉ s) :
    stdString (s ++ s') = s ++ stdString s' := by
  refine List.takeWhile_append_of_pos fun b hb => ?_
  have hne : b ≠ 0 := fun h0 => h (h0 ▸ hb)
  simpa using hne

/-- As a C string, a string with a NUL ends before it, whatever follows. -/
theorem stdString_append_of_mem {s s' : Bytes} (h : (0 : UInt8) ∈ s) :
    stdString (s ++ s') = stdString s := by
  induction s with
  | nil => exact absurd h List.not_mem_nil
  | cons b s ih =>
      rw [List.cons_append]
      by_cases hb : b = 0
      · simp [stdString, hb]
      · have hs : (0 : UInt8) ∈ s := (List.mem_cons.mp h).resolve_left (Ne.symm hb)
        have hrest := ih hs
        simp only [stdString] at hrest ⊢
        rw [List.takeWhile_cons_of_pos (by simpa using hb), hrest,
          List.takeWhile_cons_of_pos (by simpa using hb)]

theorem stdString_isPrefix (s : Bytes) : stdString s <+: s := List.takeWhile_prefix _

/-! ### The first occurrence -/

/-- What holds at `0` first holds there. -/
theorem some_zero_eq_iff {p : ℕ → Prop} (h : p 0) {i : ℕ} :
    some 0 = some i ↔ p i ∧ ∀ j < i, ¬ p j := by
  constructor
  · intro heq
    obtain rfl : 0 = i := Option.some.inj heq
    exact ⟨h, fun j hj => absurd hj (Nat.not_lt_zero j)⟩
  · rintro ⟨-, hfirst⟩
    rcases Nat.eq_zero_or_pos i with rfl | hi
    · rfl
    · exact absurd h (hfirst 0 hi)

/-- **`find` returns the first occurrence.** -/
theorem findSub_eq_some_iff {pat s : Bytes} {i : ℕ} :
    findSub pat s = some i ↔ pat <+: s.drop i ∧ ∀ j < i, ¬ pat <+: s.drop j := by
  induction s generalizing i with
  | nil =>
      rw [findSub, List.drop_nil, List.prefix_nil]
      split
      · next hpat =>
          rw [some_zero_eq_iff (p := fun j => pat <+: [].drop j) (by simp [hpat])]
          simp
      · next hpat => exact iff_of_false (by simp) fun h => hpat h.1
  | cons b s ih =>
      rw [findSub]
      by_cases hhere : pat.isPrefixOf (b :: s) = true
      · rw [if_pos hhere]
        have hpre : pat <+: (b :: s).drop 0 := List.isPrefixOf_iff_prefix.mp hhere
        exact some_zero_eq_iff (p := fun j => pat <+: (b :: s).drop j) hpre
      · rw [if_neg hhere]
        have hpre : ¬ pat <+: b :: s := fun h => hhere (List.isPrefixOf_iff_prefix.mpr h)
        cases i with
        | zero => exact iff_of_false (by simp) fun h => hpre h.1
        | succ i =>
            rw [Option.map_eq_some_iff]
            constructor
            · rintro ⟨k, hk, hki⟩
              obtain rfl : k = i := Nat.succ.inj hki
              obtain ⟨hmatch, hfirst⟩ := ih.mp hk
              refine ⟨hmatch, fun j hj => ?_⟩
              cases j with
              | zero => exact hpre
              | succ j => exact hfirst j (Nat.lt_of_succ_lt_succ hj)
            · rintro ⟨hmatch, hfirst⟩
              exact ⟨i, ih.mpr ⟨hmatch, fun j hj => hfirst (j + 1) (Nat.succ_lt_succ hj)⟩, rfl⟩

/-- A string occurs in another when it stands at some place in it. -/
theorem infix_iff_exists_drop {pat s : Bytes} : pat <:+: s ↔ ∃ i, pat <+: s.drop i := by
  constructor
  · rintro ⟨a, b, rfl⟩
    refine ⟨a.length, b, ?_⟩
    rw [List.append_assoc, List.drop_left]
  · rintro ⟨i, hi⟩
    exact hi.isInfix.trans (List.drop_suffix i s).isInfix

/-- **`find` finds nothing exactly where nothing occurs.** -/
theorem findSub_eq_none_iff {pat s : Bytes} : findSub pat s = none ↔ ¬ pat <:+: s := by
  rw [infix_iff_exists_drop]
  constructor
  · rintro h hoccurs
    have hmin : findSub pat s = some (Nat.find hoccurs) :=
      findSub_eq_some_iff.mpr ⟨Nat.find_spec hoccurs, fun j hj => Nat.find_min hoccurs hj⟩
    exact absurd (h.symm.trans hmin) (by simp)
  · intro h
    cases hfind : findSub pat s with
    | none => rfl
    | some i => exact absurd ⟨i, (findSub_eq_some_iff.mp hfind).1⟩ h

/-! ### The save path on iOS -/

/-- `"/Documents"`: the directory itself, with nothing behind it. -/
def documents : Bytes := [47, 68, 111, 99, 117, 109, 101, 110, 116, 115]

/-- `c` is one of the parts that the slashes of a path delimit. -/
def IsComponent (c path : Bytes) : Prop :=
  ∃ a b, path = a ++ (c ++ b) ∧ (a = [] ∨ ∃ a', a = a' ++ [47]) ∧ (b = [] ∨ ∃ b', b = 47 :: b')

/-- `"Documents"`. -/
def documentsName : Bytes := documents.tail

/-- A path that goes through `/Documents/` has a component `Documents`. -/
theorem isComponent_of_isInfix {path : Bytes} (h : documentsDir <:+: path) :
    IsComponent documentsName path := by
  obtain ⟨a, b, rfl⟩ := h
  have hsplit : documentsDir = [47] ++ (documentsName ++ [47]) := rfl
  refine ⟨a ++ [47], 47 :: b, ?_, Or.inr ⟨a, rfl⟩, Or.inr ⟨b, rfl⟩⟩
  rw [hsplit]
  simp only [List.append_assoc, List.cons_append, List.nil_append]

section Rebase

variable {codec : ResumeCodec} {home oldHome : Bytes}

/-- Without `/Documents/` a path is kept. -/
theorem restoredPath_of_not_infix (env : LoadEnv) {path : Bytes}
    (h : ¬ documentsDir <:+: path) : restoredPath env path = path := by
  rw [restoredPath]
  split
  · rfl
  · rw [findSub_eq_none_iff.mpr h]

/-- **Behind a home directory, the first `/Documents/` is the one of the app**: an earlier one
would lie in the home directory and its `/Documents`. -/
theorem findSub_home (hfirst : ¬ documentsDir <:+: oldHome ++ documents) (rest : Bytes) :
    findSub documentsDir (oldHome ++ (documentsDir ++ rest)) = some oldHome.length := by
  have hsplit : oldHome ++ (documentsDir ++ rest) = (oldHome ++ documents) ++ (47 :: rest) := by
    rw [List.append_assoc]
    rfl
  refine findSub_eq_some_iff.mpr ⟨?_, fun j hj hmatch => hfirst ?_⟩
  · rw [List.drop_left]
    exact List.prefix_append _ _
  · have hlen : (oldHome ++ documents).length = oldHome.length + 10 := List.length_append
    have hshort : documentsDir.length = 11 := rfl
    have hinside : (oldHome ++ documents).drop j <+:
        (oldHome ++ (documentsDir ++ rest)).drop j := by
      have hdrop : ((oldHome ++ documents) ++ 47 :: rest).drop j =
          (oldHome ++ documents).drop j ++ 47 :: rest :=
        List.drop_append_of_le_length (by omega)
      rw [hsplit, hdrop]
      exact List.prefix_append _ _
    have hpre : documentsDir <+: (oldHome ++ documents).drop j :=
      List.prefix_of_prefix_length_le hmatch hinside (by rw [List.length_drop]; omega)
    exact infix_iff_exists_drop.mpr ⟨j, hpre⟩

/-- A path that goes on below `Documents` is put behind the new home directory. -/
theorem restoredPath_below (hfirst : ¬ documentsDir <:+: oldHome ++ documents) (rest : Bytes) :
    restoredPath ⟨codec, some home⟩ (oldHome ++ (documentsDir ++ rest)) =
      home ++ (documentsDir ++ rest) := by
  simp only [restoredPath, findSub_home hfirst, List.drop_left]

/-- What becomes of a stored save path that is not empty. -/
theorem savePath_restored {env : LoadEnv} {params : AddTorrentParams}
    (hne : params.savePath ≠ []) :
    (restored env params).savePath = restoredPath env (stdString params.savePath) := by
  rw [restored, withSavePath, if_neg hne]

/-- When a save path below the old home directory is put behind the new one. Paths have no
NUL: then it is, unless it is `Documents` itself and the home directory has changed. If the
old home directory has a NUL, what stands before the NUL is restored as it is. -/
def Rebases (home oldHome rest : Bytes) : Prop :=
  ((0 : UInt8) ∉ oldHome ∧ (0 : UInt8) ∉ rest ∧ (rest = [] → home = oldHome)) ∨
    ((0 : UInt8) ∈ oldHome ∧ stdString oldHome = home ++ (documents ++ rest))

theorem nul_notMem_documents : (0 : UInt8) ∉ documents := by decide

/-- Below an old home directory without a NUL. -/
theorem restoredPath_home_iff (hfirst : ¬ documentsDir <:+: oldHome ++ documents) {rest : Bytes}
    (hrest : rest = [] ∨ ∃ rest', rest = 47 :: rest') (hnul : (0 : UInt8) ∉ oldHome) :
    restoredPath ⟨codec, some home⟩ (stdString (oldHome ++ (documents ++ rest))) =
        home ++ (documents ++ rest) ↔
      (0 : UInt8) ∉ rest ∧ (rest = [] → home = oldHome) := by
  rw [stdString_append hnul, stdString_append nul_notMem_documents]
  rcases hrest with rfl | ⟨rest', rfl⟩
  · have hnil : stdString [] = [] := rfl
    rw [hnil, List.append_nil, restoredPath_of_not_infix _ hfirst]
    constructor
    · intro h
      exact ⟨List.not_mem_nil, fun _ => (List.append_cancel_right h).symm⟩
    · rintro ⟨-, h⟩
      rw [h rfl]
  · have hslash : stdString (47 :: rest') = 47 :: stdString rest' :=
      List.takeWhile_cons_of_pos (by decide)
    have hdir : ∀ s : Bytes, documents ++ 47 :: s = documentsDir ++ s := fun _ => rfl
    rw [hslash, hdir, hdir, restoredPath_below hfirst]
    constructor
    · intro h
      have hself := List.append_cancel_left (List.append_cancel_left h)
      have hnot := stdString_eq_self_iff.mp hself
      exact ⟨fun h0 => hnot ((List.mem_cons.mp h0).resolve_left (by decide)),
        fun hnil => absurd hnil (List.cons_ne_nil _ _)⟩
    · rintro ⟨h, -⟩
      rw [stdString_of_nul_notMem fun h0 => h (List.mem_cons_of_mem _ h0)]

/-- The save path that is submitted for a saved torrent. -/
theorem submitted_savePath_iff {env : LoadEnv} {params : AddTorrentParams} {path : Bytes} :
    (∃ q, loadRow env (storedRow env.codec params) = .submitted q ∧ q.savePath = path) ↔
      (restored env params).savePath = path := by
  have hrow : loadRow env (storedRow env.codec params) = .submitted _ := loadRow_storedRow params
  rw [hrow]
  constructor
  · rintro ⟨q, hq, hpath⟩
    obtain rfl := RowOutcome.submitted.inj hq
    exact hpath
  · intro hpath
    exact ⟨_, rfl, hpath⟩

/-- **Which save paths are rebased.** With `HOME` set to `home` on iOS. For every old home
directory with no `/Documents/` in it and its `/Documents`, and every rest that is empty or
begins with a slash, whatever further `/Documents/` it has: a torrent saved with the save
path below the old home directory's `/Documents` is submitted with the one below the new home
directory's, if and only if `Rebases` holds. And a torrent saved with a save path that has no
component `Documents` is submitted with that save path if and only if it has no NUL. -/
theorem savePath_rebased_iff (codec : ResumeCodec) (home : Bytes) :
    (∀ (oldHome rest : Bytes) (params : AddTorrentParams),
      ¬ documentsDir <:+: oldHome ++ documents → (rest = [] ∨ ∃ rest', rest = 47 :: rest') →
      params.savePath = oldHome ++ (documents ++ rest) →
        ((∃ q, loadRow ⟨codec, some home⟩ (storedRow codec params) = .submitted q ∧
          q.savePath = home ++ (documents ++ rest)) ↔ Rebases home oldHome rest)) ∧
    ∀ params : AddTorrentParams, ¬ IsComponent documentsName params.savePath →
      ((∃ q, loadRow ⟨codec, some home⟩ (storedRow codec params) = .submitted q ∧
        q.savePath = params.savePath) ↔ (0 : UInt8) ∉ params.savePath) := by
  have hload : ∀ (params : AddTorrentParams) (path : Bytes),
      (∃ q, loadRow ⟨codec, some home⟩ (storedRow codec params) = .submitted q ∧
        q.savePath = path) ↔ (restored ⟨codec, some home⟩ params).savePath = path :=
    fun _ _ => submitted_savePath_iff
  constructor
  · intro oldHome rest params hfirst hrest hpath
    have hne : params.savePath ≠ [] := by
      rw [hpath]
      exact List.append_ne_nil_of_right_ne_nil _ (List.cons_ne_nil _ _)
    rw [hload, savePath_restored hne, hpath, Rebases]
    by_cases hnul : (0 : UInt8) ∈ oldHome
    · have hhome : ¬ documentsDir <:+: stdString oldHome := fun h =>
        hfirst (h.trans ((stdString_isPrefix oldHome).isInfix.trans
          (List.prefix_append oldHome documents).isInfix))
      rw [stdString_append_of_mem hnul, restoredPath_of_not_infix _ hhome]
      exact ⟨fun h => Or.inr ⟨hnul, h⟩, fun h => h.elim (fun h => absurd hnul h.1) And.right⟩
    · rw [restoredPath_home_iff hfirst hrest hnul]
      exact ⟨fun h => Or.inl ⟨hnul, h⟩, fun h => h.elim And.right fun h => absurd h.1 hnul⟩
  · intro params hcomp
    rw [hload]
    by_cases hempty : params.savePath = []
    · rw [restored, withSavePath, if_pos hempty, withName]
      refine iff_of_true ?_ (by rw [hempty]; exact List.not_mem_nil)
      split <;> rfl
    · have hkept : ¬ documentsDir <:+: stdString params.savePath := fun h =>
        hcomp (isComponent_of_isInfix (h.trans (stdString_isPrefix _).isInfix))
      rw [savePath_restored hempty, restoredPath_of_not_infix _ hkept, stdString_eq_self_iff]

end Rebase

/-- `/a/Documents/Documents/d` is submitted as `/b/Documents/Documents/d` when `HOME` is `/b`, and
`/a/d` as it is. -/
theorem savePath_rebased_small :
    let env : LoadEnv := ⟨netstringCodec, some [47, 98]⟩
    let below (home : Bytes) : Bytes := home ++ (documents ++ (documentsDir ++ [100]))
    let params (path : Bytes) : AddTorrentParams := { sampleParams 3 with savePath := path }
    let other : Bytes := [47, 97, 47, 100]
    (∃ q, loadRow env (storedRow netstringCodec (params (below [47, 97]))) = .submitted q ∧
        q.savePath = below [47, 98]) ∧
      ∃ q, loadRow env (storedRow netstringCodec (params other)) = .submitted q ∧
        q.savePath = other := by
  intro env below params other
  obtain ⟨hbelow, hother⟩ := savePath_rebased_iff netstringCodec [47, 98]
  have hrebases : Rebases [47, 98] [47, 97] (documentsDir ++ [100]) :=
    Or.inl ⟨by decide, by decide, by decide⟩
  have hcomp : ¬ IsComponent documentsName (params other).savePath := by
    rintro ⟨a, b, hpath, -, -⟩
    have hinfix : documentsName <:+: other := ⟨a, b, by rw [List.append_assoc]; exact hpath.symm⟩
    exact absurd hinfix (by decide)
  refine ⟨?_, (hother (params other) hcomp).mpr (by decide)⟩
  exact (hbelow [47, 97] (documentsDir ++ [100]) (params (below [47, 97])) (by decide)
    (Or.inr ⟨documentsDir.tail ++ [100], rfl⟩) rfl).mpr hrebases

/-- **`Documents` itself is not rebased.** A torrent is saved to `/a/Documents` and `HOME` is
`/b` at the next start: it is submitted with the save path in the old home directory. -/
theorem documents_itself_not_rebased :
    let oldHome : Bytes := [47, 97]
    let home : Bytes := [47, 98]
    let params := { sampleParams 3 with savePath := oldHome ++ documents }
    ¬ documentsDir <:+: oldHome ++ documents ∧
      loadRow ⟨netstringCodec, some home⟩ (storedRow netstringCodec params) =
        .submitted params ∧
      params.savePath ≠ home ++ documents := by
  decide +kernel

/-! ### Both columns outside iOS -/

section Columns

variable {t : Target}

/-- The resume data that `lt_update_resume_data` binds: the bytes of its vector, as they stand
in the arena. -/
def boundResume (t : Target) (pol : StreamPolicy) (codec : ResumeCodec) (hash : Sha1Hash)
    (params : AddTorrentParams) (p : Process) : Bytes :=
  charsOf (pushAll t (codec.writeResumeData params) (ltHashStr t pol hash p.str).2)

/-- The key that `lt_update_resume_data` binds: what stands at the address of the hash's text
once the resume data is built. -/
def boundKey (t : Target) (pol : StreamPolicy) (codec : ResumeCodec) (hash : Sha1Hash)
    (params : AddTorrentParams) (p : Process) : Bytes :=
  let hashed := ltHashStr t pol hash p.str
  boundText t (pushAll t (codec.writeResumeData params) hashed.2).2.mem hashed.1

/-- The row that `lt_update_resume_data` writes, all its SQLite calls succeeding. -/
theorem ltUpdateResumeData_table (pol : StreamPolicy) (codec : ResumeCodec) (hash : Sha1Hash)
    (params : AddTorrentParams) {p : Process} (hdb : p.db.openTxn = none) :
    (ltUpdateResumeData t pol codec {} hash params p).db.table =
      p.db.table.replace (boundKey t pol codec hash params p)
        ⟨boundResume t pol codec hash params p, params.name, params.savePath⟩ := by
  rw [ltUpdateResumeData_db]
  exact congrArg Conn.table (storeStep_of_succeeded hdb (succeeded_update _ _))

/-- The vector has as many bytes as were pushed, whatever the arena did to them. -/
theorem boundResume_ne_nil (pol : StreamPolicy) (codec : ResumeCodec) (hash : Sha1Hash)
    (params : AddTorrentParams) (p : Process) : boundResume t pol codec hash params p ≠ [] := by
  have hpos : 0 < (codec.writeResumeData params).length :=
    List.length_pos_iff.mpr (codec.write_ne_nil params)
  have hlen : (boundResume t pol codec hash params p).length =
      0 + (codec.writeResumeData params).length :=
    (length_readBytes _ _ _).trans (size_pushAll _ _)
  exact List.length_pos_iff.mp (by omega)

/-- What a name column makes of the name. -/
theorem name_restored_iff {env : LoadEnv} {params : AddTorrentParams} :
    (restored env params).name = params.name ↔ (0 : UInt8) ∉ params.name := by
  have hname : (restored env params).name = (withName params.name params).name := by
    rw [restored, withSavePath]
    split <;> rfl
  rw [hname, withName]
  split
  · next hempty => exact iff_of_true rfl (by rw [hempty]; exact List.not_mem_nil)
  · exact stdString_eq_self_iff

section Replaced

variable {env : LoadEnv} {table : Table} {key : Bytes} {row : StoredRow} {q : AddTorrentParams}

/-- What is submitted for the row of `key` once it is replaced, all other rows being readable. -/
theorem submitted_of_replace (hrows : ∀ e ∈ table.rows, e.key ≠ key → Accepted env e.val)
    (haccepted : Accepted env row) (hloaded : loadRow env row = .submitted q) :
    ((ltInitSessionDb env {} (table.replace key row)).submitted.filter
        fun x => x.key = key).map KeyedTable.Entry.val = [q] := by
  have hsafe : ∀ e ∈ (table.replace key row).rows, ¬ Throws env e := by
    intro e he
    rw [not_throws_iff_accepted]
    rcases KeyedTable.mem_rows_replace.mp he with ⟨hold, hkey⟩ | rfl
    · exact hrows e hold hkey
    · exact haccepted
  obtain ⟨-, hsub, -⟩ := loadLoop_submitted env (table.replace key row) hsafe
  have hsub : (ltInitSessionDb env {} (table.replace key row)).submitted = _ := hsub
  rw [hsub, submitted_of_key, KeyedTable.map_val_filter_key, KeyedTable.lookup_replace,
    if_pos rfl]
  simp [loadedParams, hloaded]

/-- Rows that come before an unreadable one are not the row that was stored last. -/
theorem key_ne_of_before {e : KeyedTable.Entry Bytes StoredRow}
    {seen rest : List (KeyedTable.Entry Bytes StoredRow)} (haccepted : Accepted env row)
    (hrows : (table.replace key row).rows = seen ++ e :: rest) (hthrows : Throws env e) :
    ∀ x ∈ seen, x.key ≠ key := by
  intro x hx
  rw [KeyedTable.rows_replace] at hrows
  rcases List.eq_nil_or_concat rest with rfl | ⟨rest', last, rfl⟩
  · obtain ⟨-, hlast⟩ := List.append_inj' hrows rfl
    obtain rfl := List.singleton_inj.mp hlast
    exact absurd hthrows ((not_throws_iff_accepted _).mpr haccepted)
  · rw [List.concat_eq_append, ← List.cons_append, ← List.append_assoc] at hrows
    obtain ⟨hothers, -⟩ := List.append_inj' hrows rfl
    have hmem : x ∈ table.rows.filter fun e => e.key ≠ key := by
      rw [hothers]
      exact List.mem_append_left _ hx
    simpa using (List.mem_filter.mp hmem).2

/-- **The row that was stored last is loaded only if every other row can be read**: it comes
last in the scan. -/
theorem accepted_of_submitted (haccepted : Accepted env row)
    (h : ((ltInitSessionDb env {} (table.replace key row)).submitted.filter
        fun x => x.key = key).map KeyedTable.Entry.val = [q]) :
    ∀ e ∈ table.rows, e.key ≠ key → Accepted env e.val := by
  intro e he hkey
  rw [← not_throws_iff_accepted]
  have hmem : e ∈ (table.replace key row).rows :=
    KeyedTable.mem_rows_replace.mpr (Or.inl ⟨he, hkey⟩)
  have hstart := scanInv_start env (table.replace key row)
  obtain ⟨seen, rest, inv, hend⟩ := loadLoop_scanInv hstart (Nat.lt_succ_self _)
  rcases inv.status with hrun | hfin | ⟨hthrew, -⟩
  · exact absurd hrun hend
  · exact loadLoop_finished env _ hfin e hmem
  · obtain ⟨seen', e', rest', hrows, hthrows, hsub⟩ := loadLoop_threw hstart rfl hthrew
    have hsub : (ltInitSessionDb env {} (table.replace key row)).submitted = _ := hsub
    have hnone : (seen'.filter fun x => x.key = key) = [] :=
      List.filter_eq_nil_iff.mpr (by simpa using key_ne_of_before haccepted hrows hthrows)
    rw [hsub, submitted_of_key, hnone] at h
    exact absurd h (by simp)

end Replaced

/-- **Name and save path survive exactly when the name has no NUL.** From every state of the
arena and every table: parameters with any name and a save path without a NUL are stored by
`lt_update_resume_data`, and the resume data stored is read back as the parameters. Outside iOS,
what `lt_init_session_db` then submits for the row has the same name and the same save path if
and only if the name has no NUL, and every other row of the table can be read. -/
theorem textColumns_survive_iff (pol : StreamPolicy) (env : LoadEnv) (hios : env.iosHome = none)
    (hash : Sha1Hash) (params : AddTorrentParams) (hpath : (0 : UInt8) ∉ params.savePath)
    (p : Process) (hdb : p.db.openTxn = none)
    (hread : env.codec.readResumeData (boundResume t pol env.codec hash params p) = .ok params) :
    let key := boundKey t pol env.codec hash params p
    let l := ltInitSessionDb env {} (ltUpdateResumeData t pol env.codec {} hash params p).db.table
    (∃ q, (l.submitted.filter fun x => x.key = key).map KeyedTable.Entry.val = [q] ∧
      q.name = params.name ∧ q.savePath = params.savePath) ↔
      (0 : UInt8) ∉ params.name ∧ ∀ e ∈ p.db.table.rows, e.key ≠ key → Accepted env e.val := by
  intro key l
  set row : StoredRow :=
    ⟨boundResume t pol env.codec hash params p, params.name, params.savePath⟩ with hrow
  have htable := ltUpdateResumeData_table (t := t) pol env.codec hash params hdb
  have hl : l = ltInitSessionDb env {} (p.db.table.replace key row) :=
    congrArg (ltInitSessionDb env {}) htable
  have haccepted : Accepted env row := Or.inr ⟨params, hread⟩
  have hloaded : loadRow env row = .submitted (restored env params) := by
    rw [loadRow, if_neg (boundResume_ne_nil pol env.codec hash params p), hrow, hread]
    rfl
  have hsavePath : (restored env params).savePath = params.savePath := by
    rw [restored, withSavePath]
    split
    · rw [withName]
      split <;> rfl
    · rw [stdString_of_nul_notMem hpath, restoredPath, hios]
  have hnul : (restored env params).name = params.name ↔ (0 : UInt8) ∉ params.name :=
    name_restored_iff
  rw [← hnul, hl]
  constructor
  · rintro ⟨q, hq, hname, -⟩
    have hrows := accepted_of_submitted haccepted hq
    rw [submitted_of_replace hrows haccepted hloaded] at hq
    rw [List.singleton_inj.mp hq]
    exact ⟨hname, hrows⟩
  · rintro ⟨hname, hrows⟩
    exact ⟨_, submitted_of_replace hrows haccepted hloaded, hname, hsavePath⟩

/-- Resume data that overwrites nothing while it grows is bound as it was written. -/
theorem boundResume_of_growsUntouched {pol : StreamPolicy} {codec : ResumeCodec}
    {hash : Sha1Hash} {params : AddTorrentParams} {p : Process}
    (h : GrowsUntouched t pol hash (codec.writeResumeData params) p.str) :
    boundResume t pol codec hash params p = codec.writeResumeData params :=
  chars_pushAll (along_and.mp h).2

end Columns

/-- A torrent saved from an empty arena to a table with a row without resume data. -/
theorem textColumns_survive_small :
    let params := { sampleParams 3 with name := [97], savePath := [47, 98] }
    let hash := params.infoHashes.getBest
    let env : LoadEnv := ⟨netstringCodec, none⟩
    let p : Process :=
      ⟨StrState.start Placement.low.base, ⟨KeyedTable.empty.replace [98] ⟨[], [], []⟩, none, 0⟩⟩
    let key := boundKey Target.x64 .fifteenInObject env.codec hash params p
    let l := ltInitSessionDb env {} (ltUpdateResumeData Target.x64 .fifteenInObject
      env.codec {} hash params p).db.table
    (∃ q, (l.submitted.filter fun x => x.key = key).map KeyedTable.Entry.val = [q] ∧
      q.name = params.name ∧ q.savePath = params.savePath) ↔
      (0 : UInt8) ∉ params.name ∧ ∀ e ∈ p.db.table.rows, e.key ≠ key → Accepted env e.val := by
  intro params hash env p
  have hgrow : GrowsUntouched Target.x64 .fifteenInObject hash
      (netstringCodec.writeResumeData params) p.str := by
    refine (growsUntouched_iff Placement.low Placement.low.start rfl _ _ rfl _).mpr ?_
    decide +kernel
  have hbound := boundResume_of_growsUntouched hgrow
  have hread : env.codec.readResumeData (boundResume Target.x64 .fifteenInObject
      env.codec hash params p) = .ok params :=
    (congrArg netstringCodec.readResumeData hbound).trans (netstringCodec.read_write params)
  exact textColumns_survive_iff .fifteenInObject env rfl hash params (by decide) p rfl hread

/-- **A name is truncated at its NUL.** A torrent named `"a"`, NUL, `"b"` is saved; at the next
start it is submitted with the name `"a"`. -/
theorem name_truncated_at_nul :
    let params := { sampleParams 3 with name := [97, 0, 98], savePath := [47, 98] }
    let op : StoreOp := .update params.infoHashes.getBest params
    let env : LoadEnv := ⟨netstringCodec, none⟩
    let l := ltInitSessionDb env {} (run (storeOpStep Target.x64 .fifteenInObject env.codec)
      (Process.start Placement.low.base fun _ => 0) [op]).db.table
    l.submitted.map KeyedTable.Entry.val = [{ params with name := [97] }] ∧
      params.name ≠ [97] := by
  intro params op env
  have hop : TextIntact Target.x64 .fifteenInObject env.codec
      (Process.start Placement.low.base fun _ => 0) op := by
    refine textIntact_of_growsUntouched ?_
    refine (growsUntouched_iff Placement.low Placement.low.start rfl _ _ rfl _).mpr ?_
    decide +kernel
  have hrestored : restored env params = { params with name := [97] } := by decide
  have hloaded := submitted_of_update Placement.low .fifteenInObject env _ params rfl hop
  rw [hrestored] at hloaded
  refine ⟨hloaded, ?_⟩
  decide

end DartTorrent
