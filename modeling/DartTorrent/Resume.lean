import DartTorrent.CharV
import DartTorrent.Sql

/-!
# Writing Resume Data

`lt_update_resume_data` and `lt_remove_resume_data` as a whole: the text of the info hash is
taken from the arena, the bencoded resume data is appended to a `lt_char_v` in the same
arena, and both are bound to the statement of `DartTorrent.Sql` where they stand.

## Main results

* `ltUpdateResumeData_row`: if the growth of the resume data overwrites nothing, the row
  written is exact.
* `ltUpdateResumeData_exact_iff`: the row is exact and nothing live is overwritten if and
  only if the buffer fits behind the text of the hash.
* `ltUpdateResumeData_wrong_key`: resume data of 2MB, written from an empty arena, goes to a
  row whose key is not the text of the hash.
-/

open ByteStore BumpArena GuardedRun

namespace DartTorrent

/-- The globals of the arena and of the string cache, and the database connection. -/
structure Process where
  str : StrState
  db : Conn

/-- The resume data as the code builds it: `bencode` pushes its bytes one by one. -/
def pushAll (t : Target) (bs : Bytes) (g : StrState) : CharV × StrState :=
  run (pushStep t) (CharV.empty, g) bs

/-- The text that `strlen` and a bind of that length find at `p`. -/
def boundText (t : Target) (mem : Mem UInt8) (p : ℕ) : Bytes := cString 0 mem p (2 ^ t.width)

/-- `lt_update_resume_data`. The values are bound without a copy (`SQLITE_STATIC`): the
statement reads them from the arena when it is stepped. -/
def ltUpdateResumeData (t : Target) (pol : StreamPolicy) (codec : ResumeCodec)
    (r : UpdateResults) (hash : Sha1Hash) (params : AddTorrentParams) (p : Process) : Process :=
  let (hashStr, g) := ltHashStr t pol hash p.str
  let (buf, g) := pushAll t (codec.writeResumeData params) g
  let row : StoredRow := ⟨readBytes g.mem buf.data buf.size, params.name, params.savePath⟩
  ⟨g, storeStep p.db (.update r (boundText t g.mem hashStr) row)⟩

/-- `lt_remove_resume_data`. -/
def ltRemoveResumeData (t : Target) (pol : StreamPolicy) (r : RemoveResults) (hash : Sha1Hash)
    (p : Process) : Process :=
  let (hashStr, g) := ltHashStr t pol hash p.str
  ⟨g, storeStep p.db (.remove r (boundText t g.mem hashStr))⟩

/-- The row that the parameters are to be saved in. -/
def storedRow (codec : ResumeCodec) (params : AddTorrentParams) : StoredRow :=
  ⟨codec.writeResumeData params, params.name, params.savePath⟩

/-- No push of the resume data overwrites the text of the hash, taken just before, or a byte
already appended. -/
def GrowsUntouched (t : Target) (pol : StreamPolicy) (hash : Sha1Hash) (bs : Bytes)
    (g : StrState) : Prop :=
  let hashed := ltHashStr t pol hash g
  Along (pushStep t) (fun s _ => Untouched t ⟨hashed.1, 41⟩ s) (CharV.empty, hashed.2) bs

/-- Row fidelity of `lt_update_resume_data`, all its SQLite calls succeeding: it writes
exactly the row of the hash, and overwrites nothing live while the resume data grows. -/
structure RowFidelity (t : Target) (pol : StreamPolicy) (codec : ResumeCodec)
    (hash : Sha1Hash) (params : AddTorrentParams) (g : StrState) (db : Conn) : Prop where
  row : (ltUpdateResumeData t pol codec {} hash params ⟨g, db⟩).db =
    { db with table := db.table.replace (hexText hash) (storedRow codec params) }
  untouched : GrowsUntouched t pol hash (codec.writeResumeData params) g

/-! ### What is bound -/

variable {t : Target}

/-- The process with its cursor in the arena and `g_hash_cache` empty; a transaction may be
open. -/
structure ArenaReady (P : Placement t) (p : Process) : Prop where
  block : ∃ c : P.Cursor, p.str.block = P.block c
  hash_miss : ∀ hash, p.str.gHashCache hash = none

/-- A held text is what a bind of its address finds. -/
theorem boundText_of_holds {mem : Mem UInt8} {p : ℕ} {hash : Sha1Hash}
    (h : Holds 0 mem p (hexText hash)) : boundText t mem p = hexText hash := by
  refine cString_of_holds h (nul_notMem_hexText hash) ?_
  rw [length_hexText, Target.width]
  split <;> decide

/-- The text of a hash that is not cached, with the cursor right behind it. -/
theorem ltHashStr_spec (P : Placement t) (c : P.Cursor) {g : StrState} (hg : g.block = P.block c)
    (pol : StreamPolicy) (hash : Sha1Hash) (hmiss : g.gHashCache hash = none) :
    let out := ltHashStr t pol hash g
    ∃ c' : P.Cursor, c'.pos = after P.base P.stop c.pos pol.requests ∧
      out.2.block = P.block c' ∧ out.1 + 41 = c'.pos ∧ P.base + 41 ≤ c'.pos ∧ c'.pos < P.stop ∧
      Holds 0 out.2.mem out.1 (hexText hash) ∧ out.2.gHashCache = g.gHashCache := by
  intro out
  obtain ⟨c', hpos, hblock, hend, hbase, hholds, -, -, hcache⟩ :=
    ltCachedStrHash_spec P c hg pol hash hmiss
  refine ⟨c', hpos, hblock, hend, ?_, ?_, hholds, hcache⟩
  · exact hend ▸ Nat.add_le_add_right hbase 41
  · rw [hpos, StreamPolicy.requests, List.append_cons _ pol.strSize, after_concat]
    exact place_add_lt (by simp only [Placement.stop, memBlockSize]; omega)

/-- **Removal deletes the row of its hash**, wherever the cursor stands. -/
theorem ltRemoveResumeData_db (P : Placement t) (c : P.Cursor) {p : Process}
    (hg : p.str.block = P.block c) (pol : StreamPolicy) (r : RemoveResults) (hash : Sha1Hash)
    (hmiss : p.str.gHashCache hash = none) :
    (ltRemoveResumeData t pol r hash p).db = storeStep p.db (.remove r (hexText hash)) := by
  obtain ⟨-, -, -, -, -, -, hholds, -⟩ := ltHashStr_spec P c hg pol hash hmiss
  exact congrArg (fun text => storeStep p.db (.remove r text)) (boundText_of_holds hholds)

/-- What the update binds: the text at the hash's address and the bytes of the vector, both
as the arena has them once the resume data is built. -/
theorem ltUpdateResumeData_db (pol : StreamPolicy) (codec : ResumeCodec) (r : UpdateResults)
    (hash : Sha1Hash) (params : AddTorrentParams) (p : Process) :
    (ltUpdateResumeData t pol codec r hash params p).db =
      let hashed := ltHashStr t pol hash p.str
      let out := pushAll t (codec.writeResumeData params) hashed.2
      storeStep p.db (.update r (boundText t out.2.mem hashed.1)
        ⟨charsOf out, params.name, params.savePath⟩) := rfl

/-- **The row is exact if the growth overwrites nothing**: neither the text of the hash nor
a byte already appended. -/
theorem ltUpdateResumeData_row (P : Placement t) (c : P.Cursor) {p : Process}
    (hg : p.str.block = P.block c) (pol : StreamPolicy) (codec : ResumeCodec)
    (r : UpdateResults) (hash : Sha1Hash) (hmiss : p.str.gHashCache hash = none)
    (params : AddTorrentParams)
    (hoff : GrowsUntouched t pol hash (codec.writeResumeData params) p.str) :
    (ltUpdateResumeData t pol codec r hash params p).db =
      storeStep p.db (.update r (hexText hash) (storedRow codec params)) := by
  obtain ⟨-, -, -, -, -, -, hholds, -⟩ := ltHashStr_spec P c hg pol hash hmiss
  obtain ⟨htext, hlive⟩ := along_and.mp hoff
  set hashed := ltHashStr t pol hash p.str with hhashed
  set out := pushAll t (codec.writeResumeData params) hashed.2 with hout
  have hresume : charsOf out = codec.writeResumeData params := chars_pushAll hlive
  have hread : readBytes out.2.mem hashed.1 41 = readBytes hashed.2.mem hashed.1 41 :=
    readBytes_pushAll htext
  have hheld : Holds 0 out.2.mem hashed.1 (hexText hash) := by
    rw [Holds, length_hexText] at hholds ⊢
    exact hread.trans hholds
  rw [ltUpdateResumeData_db]
  dsimp only
  rw [boundText_of_holds hheld, hresume, storedRow]

/-! ### When the row is exact -/

/-- **The growth overwrites nothing exactly when the buffer fits** behind the text. -/
theorem growsUntouched_iff (P : Placement t) (c : P.Cursor) {g : StrState}
    (hg : g.block = P.block c) (pol : StreamPolicy) (hash : Sha1Hash)
    (hmiss : g.gHashCache hash = none) (bs : Bytes) :
    GrowsUntouched t pol hash bs g ↔
      BufferFits (after P.base P.stop c.pos pol.requests - P.base) bs.length := by
  obtain ⟨c', hpos, hblock, hend, hbase, hstop, -⟩ := ltHashStr_spec P c hg pol hash hmiss
  have htext : (Span.mk (ltHashStr t pol hash g).1 41).stop = c'.pos := hend
  rw [← hpos]
  exact pushAll_untouched_iff c' hstop hbase htext rfl hblock bs

/-- **The row of the resume data is exact exactly when the buffer fits.** From every cursor
position, for every hash, every name, save path and resume data of any length, with all
SQLite calls succeeding: the call writes exactly the row of the hash, and neither the text
of the hash nor a byte already appended is overwritten while the resume data grows, if and
only if the buffer fits behind the text. -/
theorem ltUpdateResumeData_exact_iff (P : Placement t) (c : P.Cursor) {g : StrState}
    (hg : g.block = P.block c) (pol : StreamPolicy) (codec : ResumeCodec) (hash : Sha1Hash)
    (hmiss : g.gHashCache hash = none) (params : AddTorrentParams) {db : Conn}
    (hdb : db.openTxn = none) :
    RowFidelity t pol codec hash params g db ↔
      BufferFits (after P.base P.stop c.pos pol.requests - P.base)
        (codec.writeResumeData params).length := by
  rw [← growsUntouched_iff P c hg pol hash hmiss]
  refine ⟨fun h => h.untouched, fun hoff => ⟨?_, hoff⟩⟩
  rw [ltUpdateResumeData_row P c hg pol codec {} hash hmiss params hoff]
  exact storeStep_of_succeeded hdb (succeeded_update _ _)

/-- An address with a byte that is neither NUL nor a hex digit is not the text of a hash. -/
theorem boundText_ne_hexText {mem : Mem UInt8} {p : ℕ} {b : UInt8} (hb : mem p = b)
    (hnul : b ≠ 0) (hhex : ¬ ((48 ≤ b ∧ b ≤ 57) ∨ (97 ≤ b ∧ b ≤ 102))) (hash : Sha1Hash) :
    boundText t mem p ≠ hexText hash := by
  intro heq
  obtain ⟨fuel, hfuel⟩ := Nat.exists_eq_add_of_le' (Nat.two_pow_pos t.width)
  have hhead : b ∈ boundText t mem p := by
    rw [boundText, hfuel, cString_of_ne (hb ▸ hnul), hb]
    exact List.mem_cons_self
  exact hhex (mem_hexText (heq ▸ hhead))

/-- Resume data of 2MB to 4MB that starts growing in the first half of the arena ends up at
its base, over the text of its hash. -/
theorem mem_text_of_wrap (P : Placement t) (c : P.Cursor) {g : StrState}
    (hg : g.block = P.block c) (pol : StreamPolicy) (hash : Sha1Hash)
    (hmiss : g.gHashCache hash = none) {bs : Bytes} (hlo : 2 ^ 21 < bs.length)
    (hhi : bs.length ≤ 2 ^ 22) (hc : after P.base P.stop c.pos pol.requests + 2 ^ 22 ≤ P.stop)
    {b : UInt8} (hb : bs[after P.base P.stop c.pos pol.requests - 41 - P.base]? = some b) :
    (pushAll t bs (ltHashStr t pol hash g).2).2.mem (ltHashStr t pol hash g).1 = b := by
  obtain ⟨c', hpos, hblock, hend, hbase, -, -⟩ := ltHashStr_spec P c hg pol hash hmiss
  rw [← hpos] at hc hb
  obtain ⟨hi, -⟩ := List.getElem?_eq_some_iff.mp hb
  have hstored := mem_pushAll_of_wrap c' hc (by omega) hblock hlo hhi hi
  have hp : (ltHashStr t pol hash g).1 = P.base + (c'.pos - 41 - P.base) := by omega
  rw [hb] at hstored
  rw [hp]
  exact (Option.some.inj hstored).symm

/-- **The key is overwritten**: such resume data, when the byte that comes to stand on the
first digit is not a hex digit, goes to a row with another key. -/
theorem ltUpdateResumeData_key_lost (P : Placement t) (c : P.Cursor) {g : StrState}
    (hg : g.block = P.block c) (pol : StreamPolicy) (codec : ResumeCodec) (hash : Sha1Hash)
    (hmiss : g.gHashCache hash = none) (params : AddTorrentParams) {db : Conn}
    (hdb : db.openTxn = none) (hnew : db.table.lookup (hexText hash) = none)
    (hlo : 2 ^ 21 < (codec.writeResumeData params).length)
    (hhi : (codec.writeResumeData params).length ≤ 2 ^ 22)
    (hc : after P.base P.stop c.pos pol.requests + 2 ^ 22 ≤ P.stop) {b : UInt8}
    (hb : (codec.writeResumeData params)[after P.base P.stop c.pos pol.requests - 41 - P.base]? =
      some b)
    (hnul : b ≠ 0) (hhex : ¬ ((48 ≤ b ∧ b ≤ 57) ∨ (97 ≤ b ∧ b ≤ 102))) :
    (ltUpdateResumeData t pol codec {} hash params ⟨g, db⟩).db.table.lookup (hexText hash) =
      none := by
  have hover := mem_text_of_wrap P c hg pol hash hmiss hlo hhi hc hb
  have hne := boundText_ne_hexText (t := t) hover hnul hhex hash
  rw [ltUpdateResumeData_db, storeStep_of_succeeded hdb (succeeded_update _ _)]
  exact KeyedTable.lookup_replace.trans ((if_neg hne.symm).trans hnew)

/-- A call that leaves the hash without a row is not faithful. -/
theorem not_rowFidelity_of_lookup {pol : StreamPolicy} {codec : ResumeCodec} {hash : Sha1Hash}
    {params : AddTorrentParams} {g : StrState} {db : Conn}
    (h : (ltUpdateResumeData t pol codec {} hash params ⟨g, db⟩).db.table.lookup (hexText hash) =
      none) : ¬ RowFidelity t pol codec hash params g db := by
  intro hrow
  rw [hrow.row, KeyedTable.lookup_replace, if_pos rfl] at h
  exact absurd h (by simp)

/-- The arena at start-up, in a memory of zeros. -/
def StrState.start (base : ℕ) : StrState :=
  ⟨ltInitStrCache base, fun _ => 0, fun _ => none, fun _ => none⟩

/-- A torrent whose info hash is zero and whose metadata is `n` times `"x"`. -/
def sampleParams (n : ℕ) : AddTorrentParams where
  infoHashes := ⟨⟨List.replicate 20 0, rfl⟩, none⟩
  ti := some (List.replicate n 120)

/-- A small torrent saved from an empty arena. -/
theorem ltUpdateResumeData_exact_small :
    RowFidelity Target.x64 .fifteenInObject netstringCodec (sampleParams 3).infoHashes.getBest
      (sampleParams 3) (StrState.start 4096) ⟨.empty, none, 0⟩ :=
  (ltUpdateResumeData_exact_iff Placement.low Placement.low.start rfl _ _ _ rfl _ rfl).mpr
    (by decide +kernel)

/-- **A row under a wrong key.** Resume data with 2MB of metadata, saved from an empty arena:
the last growth of the buffer puts it at the base of the arena, over the text of the hash.
The hash has no row afterwards. -/
theorem ltUpdateResumeData_wrong_key :
    (ltUpdateResumeData Target.x64 .fifteenInObject netstringCodec {}
        (sampleParams (2 ^ 21)).infoHashes.getBest (sampleParams (2 ^ 21))
        ⟨StrState.start 4096, .empty, none, 0⟩).db.table.lookup
          (hexText (sampleParams (2 ^ 21)).infoHashes.getBest) = none ∧
      ¬ RowFidelity Target.x64 .fifteenInObject netstringCodec
        (sampleParams (2 ^ 21)).infoHashes.getBest (sampleParams (2 ^ 21))
        (StrState.start 4096) ⟨.empty, none, 0⟩ := by
  obtain ⟨pre, post, hsplit, hpre, hpost⟩ :=
    writeNetstrings_info ⟨List.replicate 20 0, rfl⟩ (2 ^ 21) 120
  have hpre : pre.length = 35 := hpre.trans (by decide +kernel)
  have hshape : netstringCodec.writeResumeData (sampleParams (2 ^ 21)) =
      pre ++ (List.replicate (2 ^ 21) 120 ++ post) := hsplit
  generalize sampleParams (2 ^ 21) = params at hshape
  have hlen : (netstringCodec.writeResumeData params).length = 2 ^ 21 + 42 := by
    rw [hshape, List.length_append, List.length_append, List.length_replicate, hpre, hpost]
    omega
  -- byte 554 of the resume data is one of the metadata's, and the text stands at 554
  have hbyte : (netstringCodec.writeResumeData params)[554]? = some 120 := by
    rw [hshape, List.getElem?_append_right (by omega),
      List.getElem?_append_left (by rw [List.length_replicate]; omega),
      List.getElem?_replicate_of_lt (by omega)]
  have hnone := ltUpdateResumeData_key_lost Placement.low Placement.low.start
    (g := StrState.start 4096) rfl .fifteenInObject netstringCodec params.infoHashes.getBest rfl
    params (rfl : (⟨.empty, none, 0⟩ : Conn).openTxn = none) rfl (by omega) (by omega) (by decide)
    hbyte (by decide) (by decide)
  exact ⟨hnone, not_rowFidelity_of_lookup hnone⟩

end DartTorrent
