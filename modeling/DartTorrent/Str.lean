import DartTorrent.Memory
import DartTorrent.Torrent
import Mathlib.Logic.Function.Basic
import Mathlib.Algebra.Order.BigOperators.Group.List

/-!
# The String Cache

The model of `str.cpp`: `lt_strdup` copies a string into the arena, `_lt_cached_str` keeps
the copies of `std::string` and `string_view` arguments in `g_str_cache`, keyed by their
`boost::hash` alone, and `lt_cached_str(sha1_hash)` looks a hash up in `g_hash_cache` and
otherwise formats it through a `lt_stringsteam` whose buffers come from the same arena.

`boost::hash` is the vendored one of boost 1.78: the fold of `hash_combine` over the bytes.
The standard string stream is not part of the repository; `StreamPolicy` is what the model
needs to know of it: after how many digits it requests a block, and of what size.

## Main results

* `ltStrdup_heap_holds`: a copied string is held at the returned address.
* `ltCachedStrHash_spec`: wherever the cursor stands, a hash that is not cached is returned
  as its forty digits and a NUL, in the block that was handed out last, and the conversion
  writes only inside the blocks it was handed.
* `ltCachedStrHash_text`: what a client reads at the pointer of a hash.
-/

open ByteStore BumpArena

namespace DartTorrent

/-! ### `boost::hash` -/

/-- `hash_combine_impl<64>::fn`. -/
def hashCombine64 (h k : UInt64) : UInt64 :=
  let m : UInt64 := ((0xc6a4a793 : UInt64) <<< 32) + 0x5bd1e995
  let k := k * m
  let k := k ^^^ (k >>> 47)
  let k := k * m
  let h := h ^^^ k
  let h := h * m
  h + 0xe6546b64

/-- `hash_combine_impl<32>::fn`. -/
def hashCombine32 (h1 k1 : UInt32) : UInt32 :=
  let k1 := k1 * 0xcc9e2d51
  let k1 := (k1 <<< 15) ||| (k1 >>> 17)
  let k1 := k1 * 0x1b873593
  let h1 := h1 ^^^ k1
  let h1 := (h1 <<< 13) ||| (h1 >>> 19)
  h1 * 5 + 0xe6546b64

/-- `hash_value(char)`: the character cast to `size_t`, sign-extended where `char` is
signed. -/
def hashValueChar (t : Target) (b : UInt8) : ℕ :=
  if t.charSigned ∧ 128 ≤ b then 2 ^ t.width - 256 + b.toNat else b.toNat

/-- `boost::hash` of a string or string view: `hash_range` over its characters. -/
def boostHash (t : Target) (s : Bytes) : ℕ :=
  if t.is64 then
    (s.foldl (fun seed b => hashCombine64 seed (UInt64.ofNat (hashValueChar t b))) 0).toNat
  else
    (s.foldl (fun seed b => hashCombine32 seed (UInt32.ofNat (hashValueChar t b))) 0).toNat

/-! ### The globals and `lt_strdup` -/

/-- The globals of `memory.cpp` and `str.cpp`, and the memory they point into. -/
structure StrState where
  block : MemBlock
  mem : Mem UInt8
  gStrCache : ℕ → Option ℕ
  gHashCache : Sha1Hash → Option ℕ

/-- The two kinds of argument that `lt_strdup` is instantiated with: strings whose bytes
lie outside the arena, and a `lt_string`, whose bytes lie in it. -/
inductive StringLike
  | heap (bytes : Bytes)
  | arena (ptr len : ℕ)

/-- `length()`. -/
def StringLike.length : StringLike → ℕ
  | .heap bytes => bytes.length
  | .arena _ len => len

/-- `memcpy(dst, lt_c_str(str), str.length())`. -/
def StringLike.copyTo (mem : Mem UInt8) (dst : ℕ) : StringLike → Mem UInt8
  | .heap bytes => writeBytes mem dst bytes
  | .arena ptr len => copyBytes mem dst ptr len

/-- `lt_strdup`. -/
def ltStrdup (t : Target) (str : StringLike) (g : StrState) : ℕ × StrState :=
  let len := str.length
  let (cachedStr, block) := ltAllocate t (len + 1) g.block
  let mem := str.copyTo g.mem cachedStr
  let mem := writeBytes mem (cachedStr + len) [0]
  (cachedStr, { g with block := block, mem := mem })

/-- `_lt_cached_str`, for the overloads whose argument lies outside the arena. -/
def ltCachedStrImpl (t : Target) (str : Bytes) (g : StrState) : ℕ × StrState :=
  let hash := boostHash t str
  match g.gStrCache hash with
  | some cachedStr => (cachedStr, g)
  | none =>
      let (cachedStr, g) := ltStrdup t (.heap str) g
      (cachedStr, { g with gStrCache := Function.update g.gStrCache hash (some cachedStr) })

/-- `lt_cached_str(const std::string&)`. -/
def ltCachedStrString (t : Target) (str : Bytes) (g : StrState) : ℕ × StrState :=
  ltCachedStrImpl t str g

/-- `lt_cached_str(const boost::string_view&)`. -/
def ltCachedStrView (t : Target) (str : Bytes) (g : StrState) : ℕ × StrState :=
  ltCachedStrImpl t str g

/-! ### Hashes -/

/-- The stream has written `k` digits and its remaining growths are the pairs of a block
size and the number of digits written when it grows again; the last number is forty. -/
def GrowthOk : ℕ → List (ℕ × ℕ) → Prop
  | k, [] => k = 40
  | k, (size, upTo) :: growths => k ≤ upTo ∧ upTo ≤ size ∧ GrowthOk upTo growths

/-- How the standard string stream sizes its buffers while forty digits are written: the
digits it keeps inside the stream object, its later blocks, each with its size and the
number of digits written when it is left, and the size of the block that `str()` copies
the digits to. All of them together take less than a quarter of the arena. -/
structure StreamPolicy where
  inObject : ℕ
  growths : List (ℕ × ℕ)
  strSize : ℕ
  growths_ok : GrowthOk inObject growths
  strSize_ge : 40 ≤ strSize
  total_lt : 4 * ((growths.map Prod.fst).sum + strSize) < memBlockSize

/-- One such policy: fifteen digits inside the stream object, then a block of 513 bytes,
and a block of 41 for `str()`. -/
def StreamPolicy.fifteenInObject : StreamPolicy where
  inObject := 15
  growths := [(513, 40)]
  strSize := 41
  growths_ok := ⟨by decide, by decide, rfl⟩
  strSize_ge := by decide
  total_lt := by decide

/-- The buffer of the stream: inside the stream object, or in a block of the arena, and
the number of digits in it. -/
structure StreamBuf where
  ptr : Option ℕ
  len : ℕ

/-- The digits in the buffer. -/
def StreamBuf.chars (mem : Mem UInt8) (digits : Bytes) (b : StreamBuf) : Bytes :=
  match b.ptr with
  | none => digits.take b.len
  | some p => readBytes mem p b.len

/-- Copy the digits in the buffer to `dst`. -/
def StreamBuf.copyTo (mem : Mem UInt8) (digits : Bytes) (dst : ℕ) (b : StreamBuf) :
    Mem UInt8 :=
  match b.ptr with
  | none => writeBytes mem dst (digits.take b.len)
  | some p => copyBytes mem dst p b.len

/-- The stream grows: it requests a block, copies the digits it has to it, and goes on
writing digits there. -/
def streamGrow (t : Target) (digits : Bytes) (size upTo : ℕ) (b : StreamBuf) (g : StrState) :
    StreamBuf × StrState :=
  let (p, block) := ltAllocate t size g.block
  let mem := b.copyTo g.mem digits p
  let mem := writeBytes mem (p + b.len) ((digits.drop b.len).take (upTo - b.len))
  (⟨some p, upTo⟩, { g with block := block, mem := mem })

/-- `ss << hash`, the growths of the stream one after the other. -/
def streamPut (t : Target) (digits : Bytes) :
    List (ℕ × ℕ) → StreamBuf → StrState → StreamBuf × StrState
  | [], b, g => (b, g)
  | (size, upTo) :: growths, b, g =>
      let (b, g) := streamGrow t digits size upTo b g
      streamPut t digits growths b g

/-- `ss.str()`: a `lt_string` with the digits. -/
def streamStr (t : Target) (digits : Bytes) (strSize : ℕ) (b : StreamBuf) (g : StrState) :
    StringLike × StrState :=
  let (p, block) := ltAllocate t strSize g.block
  (.arena p b.len, { g with block := block, mem := b.copyTo g.mem digits p })

/-- `lt_cached_str(sha1_hash)`. -/
def ltCachedStrHash (t : Target) (pol : StreamPolicy) (hash : Sha1Hash) (g : StrState) :
    ℕ × StrState :=
  match g.gHashCache hash with
  | some p => (p, g)
  | none =>
      let digits := hexText hash
      let (b, g) := streamPut t digits pol.growths ⟨none, pol.inObject⟩ g
      let (str, g) := streamStr t digits pol.strSize b g
      ltStrdup t str g

/-- `lt_hash_str(sha1_hash)`. -/
def ltHashStr (t : Target) (pol : StreamPolicy) (hash : Sha1Hash) (g : StrState) :
    ℕ × StrState :=
  ltCachedStrHash t pol hash g

/-! ### `lt_strdup` in the arena -/

variable {t : Target}

/-- `lt_strdup` when the block is an arena: the string goes to the block of one request. -/
theorem ltStrdup_eq (P : Placement t) (c : P.Cursor) {g : StrState} (hg : g.block = P.block c)
    (str : StringLike) (r : P.Request) (hr : r.val = str.length + 1) :
    ltStrdup t str g =
      ((c.block r).start,
        { g with
          block := P.block (c.alloc r)
          mem := writeBytes (str.copyTo g.mem (c.block r).start)
            ((c.block r).start + str.length) [0] }) := by
  have halloc := ltAllocate_eq P c r
  rw [hr] at halloc
  rw [ltStrdup, hg]
  exact congrArg (fun q : ℕ × MemBlock => (q.1, { g with
    block := q.2
    mem := writeBytes (str.copyTo g.mem q.1) (q.1 + str.length) [0] })) halloc

/-- **A copied string is held at the returned address**, and only its block changes. -/
theorem ltStrdup_heap_holds (P : Placement t) (c : P.Cursor) {g : StrState}
    (hg : g.block = P.block c) (s : Bytes) (r : P.Request) (hr : r.val = s.length + 1) :
    ∃ mem, ltStrdup t (.heap s) g =
        ((c.block r).start, { g with block := P.block (c.alloc r), mem := mem }) ∧
      Holds 0 mem (c.block r).start s ∧ AgreesOff [c.block r] g.mem mem := by
  have hread : readBytes (writeBytes g.mem (c.block r).start s) (c.block r).start s.length = s :=
    readBytes_writeBytes _ _ _
  have hstop : (c.block r).start + s.length + 1 = (c.block r).stop := by
    rw [Cursor.block_start, Cursor.block_stop]
    omega
  have hcopy : AgreesOff [c.block r] g.mem (writeBytes g.mem (c.block r).start s) :=
    agreesOff_writeBytes le_rfl (by omega)
  refine ⟨_, ltStrdup_eq P c hg (.heap s) r hr, holds_of_readBytes hread,
    hcopy.trans_same (agreesOff_writeBytes (Nat.le_add_right _ _) ?_)⟩
  rw [StringLike.length, List.length_singleton]
  omega

/-- A cache hit returns the cached pointer and changes nothing. -/
theorem ltCachedStrImpl_of_hit {s : Bytes} {g : StrState} {p : ℕ}
    (hhit : g.gStrCache (boostHash t s) = some p) : ltCachedStrImpl t s g = (p, g) := by
  rw [ltCachedStrImpl, hhit]

/-- A cache miss copies the string and stores the pointer of the copy under its hash. -/
theorem ltCachedStrImpl_of_miss {s : Bytes} {g : StrState}
    (hmiss : g.gStrCache (boostHash t s) = none) :
    ltCachedStrImpl t s g =
      let out := ltStrdup t (.heap s) g
      (out.1, { out.2 with
        gStrCache := Function.update out.2.gStrCache (boostHash t s) (some out.1) }) := by
  rw [ltCachedStrImpl, hmiss]

/-- **A cache miss** returns the pointer of a copy that the arena holds. -/
theorem ltCachedStrImpl_miss_spec (P : Placement t) (c : P.Cursor) {g : StrState}
    (hg : g.block = P.block c) {s : Bytes} (hmiss : g.gStrCache (boostHash t s) = none)
    (r : P.Request) (hr : r.val = s.length + 1) :
    ∃ mem, ltCachedStrImpl t s g =
        ((c.block r).start,
          { g with
            block := P.block (c.alloc r)
            mem := mem
            gStrCache := Function.update g.gStrCache (boostHash t s)
              (some (c.block r).start) }) ∧
      Holds 0 mem (c.block r).start s ∧ AgreesOff [c.block r] g.mem mem := by
  obtain ⟨mem, hdup, hholds, hframe⟩ := ltStrdup_heap_holds P c hg s r hr
  refine ⟨mem, ?_, hholds, hframe⟩
  rw [ltCachedStrImpl_of_miss hmiss, hdup]

/-! ### The text of a hash in the arena -/

theorem growthOk_le {k : ℕ} {growths : List (ℕ × ℕ)} (h : GrowthOk k growths) : k ≤ 40 := by
  induction growths generalizing k with
  | nil => exact h.le
  | cons x growths ih => exact h.1.trans (ih h.2.2)

/-- The invariant of the stream: its buffer holds the digits written so far, and a buffer
in the arena is the block that was handed out last. -/
structure StreamInv (P : Placement t) (c : P.Cursor) (digits : Bytes) (b : StreamBuf)
    (g : StrState) : Prop where
  block : g.block = P.block c
  len_le : b.len ≤ digits.length
  chars : b.chars g.mem digits = digits.take b.len
  last : ∀ p, b.ptr = some p →
    ∃ size, p + size = c.pos ∧ b.len ≤ size ∧ 4 * size ≤ memBlockSize

section Stream

variable {P : Placement t} {c : P.Cursor} {digits : Bytes} {b : StreamBuf} {g : StrState}

/-- Copying the buffer to the next block carries the digits over: source and destination
are disjoint, wherever the cursor stands. -/
theorem StreamInv.copyTo (inv : StreamInv P c digits b g) (r : P.Request) (hr : b.len ≤ r.val)
    (hsmall : 4 * r.val ≤ memBlockSize) :
    readBytes (b.copyTo g.mem digits (c.block r).start) (c.block r).start b.len =
        digits.take b.len ∧
      AgreesOff [c.block r] g.mem (b.copyTo g.mem digits (c.block r).start) := by
  obtain ⟨ptr, len⟩ := b
  have htake : (digits.take len).length = len := List.length_take_of_le inv.len_le
  cases ptr with
  | none =>
      constructor
      · have hback := readBytes_writeBytes g.mem (c.block r).start (digits.take len)
        rwa [htake] at hback
      · refine agreesOff_writeBytes le_rfl ?_
        rw [htake, Cursor.block_start, Cursor.block_stop]
        exact Nat.add_le_add_left hr _
  | some p =>
      obtain ⟨size, hpos, hlen, hsize⟩ := inv.last p rfl
      have hnext : ¬ (Span.mk p size).Overlaps ⟨place P.base P.stop (p + size) r.val, r.val⟩ :=
        not_overlaps_next (by simp only [Placement.stop]; omega)
      have hdisj : ¬ (Span.mk p len).Overlaps ⟨(c.block r).start, len⟩ := by
        rw [Cursor.block_start, ← hpos]
        simp only [Span.Overlaps, Span.stop] at hnext ⊢
        simp only at hlen hr
        omega
      constructor
      · exact (readBytes_copyBytes hdisj).trans inv.chars
      · refine agreesOff_copyBytes le_rfl ?_
        rw [Cursor.block_start, Cursor.block_stop]
        exact Nat.add_le_add_left hr _

/-- One growth of the stream keeps the invariant and writes only to its new block. -/
theorem StreamInv.grow (inv : StreamInv P c digits b g) (r : P.Request) {upTo : ℕ}
    (hb : b.len ≤ upTo) (hr : upTo ≤ r.val) (hdigits : upTo ≤ digits.length)
    (hsmall : 4 * r.val ≤ memBlockSize) :
    let out := streamGrow t digits r.val upTo b g
    StreamInv P (c.alloc r) digits out.1 out.2 ∧ out.1.len = upTo ∧
      AgreesOff [c.block r] g.mem out.2.mem ∧
      out.2.gStrCache = g.gStrCache ∧ out.2.gHashCache = g.gHashCache := by
  intro out
  obtain ⟨hcopied, hframe⟩ := inv.copyTo r (hb.trans hr) hsmall
  set p := (c.block r).start with hp
  set rest := (digits.drop b.len).take (upTo - b.len) with hrest
  have hlen : rest.length = upTo - b.len := by
    rw [hrest, List.length_take, List.length_drop]
    omega
  have hout : out = (⟨some p, upTo⟩, { g with
      block := P.block (c.alloc r)
      mem := writeBytes (b.copyTo g.mem digits p) (p + b.len) rest }) := by
    have halloc := ltAllocate_eq P c r
    simp only [out, streamGrow, inv.block, halloc]
    rfl
  have hsplit : digits.take upTo = digits.take b.len ++ rest := by
    rw [hrest, ← List.take_add]
    congr 1
    omega
  have hupTo : upTo = b.len + rest.length := by omega
  rw [hout]
  refine ⟨⟨rfl, hdigits, ?_, ?_⟩, rfl, ?_, rfl, rfl⟩
  · calc readBytes (writeBytes (b.copyTo g.mem digits p) (p + b.len) rest) p upTo
      _ = readBytes (b.copyTo g.mem digits p) p b.len ++ rest :=
          (congrArg _ hupTo).trans (readBytes_writeBytes_append _ _ _ _)
      _ = digits.take b.len ++ rest := by rw [hcopied]
      _ = digits.take upTo := hsplit.symm
  · rintro q hq
    obtain rfl : p = q := Option.some.inj hq
    exact ⟨r.val, rfl, hr, hsmall⟩
  · refine hframe.trans_same (agreesOff_writeBytes (Nat.le_add_right _ _) ?_)
    rw [hp, Cursor.block_start, Cursor.block_stop]
    omega

/-- All growths of the stream: the forty digits are in its buffer, and only the blocks it
was handed have changed. -/
theorem StreamInv.put {growths : List (ℕ × ℕ)} (inv : StreamInv P c digits b g)
    (hdigits : digits.length = 40) (hok : GrowthOk b.len growths)
    (hsmall : ∀ x ∈ growths, 4 * x.1 ≤ memBlockSize) :
    let out := streamPut t digits growths b g
    ∃ c' : P.Cursor, c'.pos = after P.base P.stop c.pos (growths.map Prod.fst) ∧
      StreamInv P c' digits out.1 out.2 ∧ out.1.len = 40 ∧
      AgreesOff (blocksFrom P.base P.stop c.pos (growths.map Prod.fst)) g.mem out.2.mem ∧
      out.2.gStrCache = g.gStrCache ∧ out.2.gHashCache = g.gHashCache := by
  induction growths generalizing b g c with
  | nil => exact ⟨c, rfl, inv, hok, AgreesOff.refl _ _, rfl, rfl⟩
  | cons x growths ih =>
      obtain ⟨size, upTo⟩ := x
      obtain ⟨hb, hr, hrest⟩ := hok
      have hsize : 4 * size ≤ memBlockSize := hsmall _ List.mem_cons_self
      have hupTo : upTo ≤ digits.length := hdigits ▸ growthOk_le hrest
      obtain ⟨inv', hlen, hframe, hstr, hhash⟩ :=
        inv.grow (P.request size (by omega)) hb hr hupTo hsize
      rw [Placement.request_val] at inv' hlen hframe hstr hhash
      obtain ⟨c', hc', hinv', hlen', hframe', hstr', hhash'⟩ :=
        ih inv' (hlen.symm ▸ hrest) fun y hy => hsmall y (List.mem_cons_of_mem _ hy)
      exact ⟨c', hc', hinv', hlen', hframe.trans hframe', hstr'.trans hstr, hhash'.trans hhash⟩

/-- `str()` keeps the digits: they are in its block, and only that block has changed. -/
theorem StreamInv.str (inv : StreamInv P c digits b g) (r : P.Request) (hr : b.len ≤ r.val)
    (hsmall : 4 * r.val ≤ memBlockSize) :
    let p := (c.block r).start
    ∃ mem, streamStr t digits r.val b g =
        (.arena p b.len, { g with block := P.block (c.alloc r), mem := mem }) ∧
      readBytes mem p b.len = digits.take b.len ∧ AgreesOff [c.block r] g.mem mem := by
  intro p
  refine ⟨b.copyTo g.mem digits p, ?_, inv.copyTo r hr hsmall⟩
  have halloc := ltAllocate_eq P c r
  simp only [streamStr, inv.block, halloc]
  rfl

end Stream

/-- `lt_strdup` of a string in the block handed out just before: a copy to a new block,
which does not overlap the string's. -/
theorem ltStrdup_arena_holds (P : Placement t) (c : P.Cursor) {g : StrState}
    (hg : g.block = P.block c) {p n : ℕ} {s : Bytes} (hpos : p + n = c.pos)
    (hread : readBytes g.mem p s.length = s) (hlen : s.length ≤ n)
    (r : P.Request) (hr : r.val = s.length + 1) (hroom : n + 2 * r.val ≤ memBlockSize) :
    ∃ mem, ltStrdup t (.arena p s.length) g =
        ((c.block r).start, { g with block := P.block (c.alloc r), mem := mem }) ∧
      Holds 0 mem (c.block r).start s ∧ AgreesOff [c.block r] g.mem mem := by
  set q := (c.block r).start with hq
  have hnext : ¬ (Span.mk p n).Overlaps ⟨place P.base P.stop (p + n) r.val, r.val⟩ :=
    not_overlaps_next (by simp only [Placement.stop]; omega)
  have hdisj : ¬ (Span.mk p s.length).Overlaps ⟨q, s.length⟩ := by
    rw [hq, Cursor.block_start, ← hpos]
    simp only [Span.Overlaps, Span.stop] at hnext ⊢
    omega
  have hcopied : readBytes (copyBytes g.mem q p s.length) q s.length = s :=
    (readBytes_copyBytes hdisj).trans hread
  have hstop : q + s.length + 1 = (c.block r).stop := by
    rw [hq, Cursor.block_start, Cursor.block_stop]
    omega
  have hcopy : AgreesOff [c.block r] g.mem (copyBytes g.mem q p s.length) :=
    agreesOff_copyBytes le_rfl (by omega)
  refine ⟨_, ltStrdup_eq P c hg (.arena p s.length) r hr, holds_of_readBytes hcopied,
    hcopy.trans_same (agreesOff_writeBytes ?_ ?_)⟩
  · exact Nat.le_add_right _ _
  · rw [StringLike.length, List.length_singleton]
    omega

/-- The requests that formatting a hash makes: those of the stream, the block of `str()`
and the block of `lt_strdup`. -/
def StreamPolicy.requests (pol : StreamPolicy) : List ℕ :=
  pol.growths.map Prod.fst ++ [pol.strSize, 41]

theorem ltCachedStrHash_of_miss (pol : StreamPolicy) {hash : Sha1Hash} {g : StrState}
    (hmiss : g.gHashCache hash = none) :
    ltCachedStrHash t pol hash g =
      let put := streamPut t (hexText hash) pol.growths ⟨none, pol.inObject⟩ g
      let str := streamStr t (hexText hash) pol.strSize put.1 put.2
      ltStrdup t str.1 str.2 := by
  rw [ltCachedStrHash, hmiss]

/-- **The text of a hash is right wherever the arena wraps.** A hash that is not cached is
returned as its forty digits and a NUL, in the block handed out last; only the blocks
handed out have changed, and neither cache has. -/
theorem ltCachedStrHash_spec (P : Placement t) (c : P.Cursor) {g : StrState}
    (hg : g.block = P.block c) (pol : StreamPolicy) (hash : Sha1Hash)
    (hmiss : g.gHashCache hash = none) :
    let out := ltCachedStrHash t pol hash g
    ∃ c' : P.Cursor, c'.pos = after P.base P.stop c.pos pol.requests ∧
      out.2.block = P.block c' ∧ out.1 + 41 = c'.pos ∧ P.base ≤ out.1 ∧
      Holds 0 out.2.mem out.1 (hexText hash) ∧
      AgreesOff (blocksFrom P.base P.stop c.pos pol.requests) g.mem out.2.mem ∧
      out.2.gStrCache = g.gStrCache ∧ out.2.gHashCache = g.gHashCache := by
  intro out
  have hsum : 4 * ((pol.growths.map Prod.fst).sum + pol.strSize) < memBlockSize := pol.total_lt
  have hgrow : ∀ x ∈ pol.growths, 4 * x.1 ≤ memBlockSize := fun x hx => by
    have hle : x.1 ≤ (pol.growths.map Prod.fst).sum :=
      List.le_sum_of_mem (List.mem_map_of_mem hx)
    omega
  have hstart : StreamInv P c (hexText hash) ⟨none, pol.inObject⟩ g :=
    ⟨hg, (growthOk_le pol.growths_ok).trans (length_hexText hash).ge, rfl, by simp⟩
  have hput := hstart.put (length_hexText hash) pol.growths_ok hgrow
  have hout := ltCachedStrHash_of_miss (t := t) pol hmiss
  generalize streamPut t (hexText hash) pol.growths ⟨none, pol.inObject⟩ g = q at hput hout
  obtain ⟨⟨ptr, len⟩, g₁⟩ := q
  obtain ⟨c₁, hc₁, inv, rfl, hframe₁, hstr₁, hhash₁⟩ := hput
  have hge := pol.strSize_ge
  have htake : (hexText hash).take 40 = hexText hash :=
    List.take_of_length_le (length_hexText hash).le
  -- the block of `str()`
  set r₂ : P.Request := P.request pol.strSize (by omega) with hr₂
  obtain ⟨mem₂, hstr, hread, hframe₂⟩ := inv.str r₂ hge (by rw [hr₂, Placement.request_val]; omega)
  rw [htake] at hread
  -- the block of `lt_strdup`
  set r₃ : P.Request := P.request 41 (by decide) with hr₃
  have hlen := length_hexText hash
  obtain ⟨mem₃, hdup, hholds, hframe₃⟩ :=
    ltStrdup_arena_holds (s := hexText hash) P (c₁.alloc r₂)
      (g := ⟨P.block (c₁.alloc r₂), mem₂, g₁.gStrCache, g₁.gHashCache⟩) rfl (n := pol.strSize)
      rfl (hlen.symm ▸ hread) (hlen.symm ▸ hge) r₃ (by rw [hlen]; rfl)
      (by rw [hr₃, Placement.request_val]; omega)
  rw [hlen] at hdup
  dsimp only at hout
  rw [show streamStr t (hexText hash) pol.strSize ⟨ptr, 40⟩ g₁ = _ from hstr] at hout
  rw [show out = _ from hout.trans hdup]
  have hframe := hframe₁.trans (hframe₂.trans hframe₃)
  refine ⟨(c₁.alloc r₂).alloc r₃, ?_, rfl, rfl, ?_, hholds, ?_, hstr₁, hhash₁⟩
  · rw [StreamPolicy.requests, after_append, ← hc₁]
    rfl
  · exact ((c₁.alloc r₂).block_within r₃).1
  · rw [StreamPolicy.requests, blocksFrom_append, ← hc₁]
    exact hframe

/-- **The client reads the digits of the hash.** From every cursor position, with an empty
`g_hash_cache`: a hash is returned as a pointer to exactly its forty hex digits and a NUL,
inside the arena, and what a client reads there differs from what it reads for any other
hash, wherever the cursor stood for that one. -/
theorem ltCachedStrHash_text (P : Placement t) (c : P.Cursor) {g : StrState}
    (hg : g.block = P.block c) (hempty : ∀ h, g.gHashCache h = none) (pol : StreamPolicy)
    (hash : Sha1Hash) :
    let out := ltCachedStrHash t pol hash g
    (stringSpan out.1 (hexText hash)).Within P.base P.stop ∧
      Holds 0 out.2.mem out.1 (hexText hash) ∧
      ∀ (c' : P.Cursor) (g' : StrState) (hash' : Sha1Hash), g'.block = P.block c' →
        (∀ h, g'.gHashCache h = none) → hash' ≠ hash →
        let out' := ltCachedStrHash t pol hash' g'
        cString 0 out'.2.mem out'.1 41 ≠ cString 0 out.2.mem out.1 41 := by
  have hread : ∀ {m : Mem UInt8} {p : ℕ} {h : Sha1Hash}, Holds 0 m p (hexText h) →
      cString 0 m p 41 = hexText h := by
    intro m p h hholds
    exact cString_of_holds hholds (nul_notMem_hexText h) (length_hexText h ▸ Nat.lt_succ_self _)
  obtain ⟨d, -, -, hend, hbase, hholds, -⟩ := ltCachedStrHash_spec P c hg pol hash (hempty hash)
  refine ⟨⟨hbase, ?_⟩, hholds, fun c' g' hash' hg' hempty' hne => ?_⟩
  · rw [stringSpan, Span.stop, length_hexText]
    exact hend.trans_le d.pos_le_hi
  · obtain ⟨-, -, -, -, -, hholds', -⟩ :=
      ltCachedStrHash_spec P c' hg' pol hash' (hempty' hash')
    intro out' heq
    rw [hread hholds, hread hholds'] at heq
    exact hne (hexText_injective heq)

/-- A cursor a hundred bytes before the end of the arena: the stream's second buffer is the
first request that does not fit. -/
theorem ltCachedStrHash_text_at_end :
    let P := Placement.low
    let c := P.cursorAt (memBlockSize - 100) (Nat.sub_le _ _)
    let g : StrState := ⟨P.block c, fun _ => 0, fun _ => none, fun _ => none⟩
    let hash : Sha1Hash := ⟨List.replicate 20 171, rfl⟩
    let out := ltCachedStrHash Target.x64 .fifteenInObject hash g
    (stringSpan out.1 (hexText hash)).Within P.base P.stop ∧
      Holds 0 out.2.mem out.1 (hexText hash) ∧
      ∀ (c' : P.Cursor) (g' : StrState) (hash' : Sha1Hash), g'.block = P.block c' →
        (∀ h, g'.gHashCache h = none) → hash' ≠ hash →
        let out' := ltCachedStrHash Target.x64 .fifteenInObject hash' g'
        cString 0 out'.2.mem out'.1 41 ≠ cString 0 out.2.mem out.1 41 := by
  intro P c g hash
  have hg : g.block = P.block c := rfl
  exact ltCachedStrHash_text P c hg (fun _ => rfl) .fifteenInObject hash

end DartTorrent
