import DartTorrent.Answers
import DartTorrent.Basis.FoldHash

/-!
# Which Strings Share a Cache Entry

`g_str_cache` is keyed by `boost::hash` alone. The results about the cache say what happens to
strings with one hash and to strings with different hashes; this module says which strings these
are. `hash_combine` is a bijection of the seed for every character, and tells characters apart for
every seed, so `boost::hash` is a fold of the kind of `DartTorrent.Basis.FoldHash`.

## Main results

* `boostHash_append_iff`: strings with a common ending collide exactly when they do without it.
* `boostHash_ne_of_one_byte`: strings that differ in one byte do not collide.
* `ltCachedStr_own_of_family`: strings that differ in one byte are told apart by the cache.
* `ltCachedStr_shared`: there are strings of every length above the width of a hash that the cache
  answers with one pointer, whatever common ending they are given.
-/

open ByteStore BumpArena GuardedRun

namespace DartTorrent

/-! ### `hash_combine` -/

/-- A factor with an inverse modulo `2 ^ 64` loses nothing. -/
theorem mul_injective64 {m n : UInt64} (hm : m * n = 1) :
    Function.Injective fun x : UInt64 => x * m := by
  intro x y h
  have h := congrArg (· * n) h
  simpa only [UInt64.mul_assoc, hm, UInt64.mul_one] using h

/-- Nor does a factor with an inverse modulo `2 ^ 32`. -/
theorem mul_injective32 {m n : UInt32} (hm : m * n = 1) :
    Function.Injective fun x : UInt32 => x * m := by
  intro x y h
  have h := congrArg (· * n) h
  simpa only [UInt32.mul_assoc, hm, UInt32.mul_one] using h

/-- Adding the high bits to the low ones is its own inverse. -/
theorem xor_shift_injective : Function.Injective fun k : UInt64 => k ^^^ (k >>> 47) := by
  have hinverse : Function.LeftInverse (fun k : UInt64 => k ^^^ (k >>> 47))
      fun k : UInt64 => k ^^^ (k >>> 47) := by
    intro k
    have hgone : k >>> 47 >>> 47 = 0 := by
      refine UInt64.toBitVec_inj.mp ?_
      have hzero : k.toBitVec >>> 94 = 0#64 := BitVec.ushiftRight_eq_zero (by decide)
      simpa [← BitVec.shiftRight_add] using hzero
    simp only [UInt64.shiftRight_xor, hgone, UInt64.xor_zero, UInt64.xor_assoc, UInt64.xor_self]
  exact hinverse.injective

/-- A rotation loses no bit. -/
theorem rotate_injective {w n : ℕ} (hn : n ≤ w) :
    Function.Injective fun x : BitVec w => x <<< n ||| x >>> (w - n) := by
  intro x y h
  refine BitVec.eq_of_getElem_eq fun i hi => ?_
  rcases Nat.lt_or_ge i (w - n) with hlow | hhigh
  · have hbit := congrArg (fun v : BitVec w => v.getLsbD (i + n)) h
    have hin : i + n < w := by omega
    have hout : w ≤ w - n + (i + n) := by omega
    simpa [hin, BitVec.getLsbD_of_ge _ _ hout] using hbit
  · have hbit := congrArg (fun v : BitVec w => v.getLsbD (i - (w - n))) h
    have hin : i - (w - n) < n := by omega
    have hback : w - n + (i - (w - n)) = i := by omega
    simpa [hin, hback, BitVec.getLsbD_eq_getElem hi] using hbit

theorem rotate15_injective : Function.Injective fun k : UInt32 => (k <<< 15) ||| (k >>> 17) := by
  intro x y h
  have h := congrArg UInt32.toBitVec h
  exact UInt32.toBitVec_inj.mp (rotate_injective (w := 32) (n := 15) (by decide) (by simpa using h))

theorem rotate13_injective : Function.Injective fun k : UInt32 => (k <<< 13) ||| (k >>> 19) := by
  intro x y h
  have h := congrArg UInt32.toBitVec h
  exact UInt32.toBitVec_inj.mp (rotate_injective (w := 32) (n := 13) (by decide) (by simpa using h))

/-- **`hash_combine` on 64 bits** is injective in the seed and in the value. -/
theorem hashCombine64_injective (k h : UInt64) :
    (Function.Injective fun h => hashCombine64 h k) ∧ Function.Injective (hashCombine64 h) := by
  have hm := mul_injective64 (m := ((0xc6a4a793 : UInt64) <<< 32) + 0x5bd1e995)
    (n := 0x5f7a0ea7e59b19bd) (by decide)
  constructor
  · intro x y heq
    simp only [hashCombine64, UInt64.add_left_inj] at heq
    exact (UInt64.xor_left_inj _).mp (hm heq)
  · intro x y heq
    simp only [hashCombine64, UInt64.add_left_inj] at heq
    exact hm (xor_shift_injective (hm ((UInt64.xor_right_inj _).mp (hm heq))))

/-- **`hash_combine` on 32 bits** is injective in the seed and in the value. -/
theorem hashCombine32_injective (k h : UInt32) :
    (Function.Injective fun h => hashCombine32 h k) ∧ Function.Injective (hashCombine32 h) := by
  have hm := mul_injective32 (m := 0xcc9e2d51) (n := 0xdee13bb1) (by decide)
  have hm' := mul_injective32 (m := 0x1b873593) (n := 0x56ed309b) (by decide)
  have h5 := mul_injective32 (m := 5) (n := 0xcccccccd) (by decide)
  constructor
  · intro x y heq
    simp only [hashCombine32, UInt32.add_left_inj] at heq
    exact (UInt32.xor_left_inj _).mp (rotate13_injective (h5 heq))
  · intro x y heq
    simp only [hashCombine32, UInt32.add_left_inj] at heq
    exact hm (rotate15_injective (hm' ((UInt32.xor_right_inj _).mp (rotate13_injective (h5 heq)))))

/-! ### `boost::hash` -/

/-- Different characters have different hash values, all below `2 ^ width`. -/
theorem hashValueChar_injective (t : Target) :
    Function.Injective (hashValueChar t) ∧ ∀ b, hashValueChar t b < 2 ^ t.width := by
  have hwide : 256 < 2 ^ t.width := by
    rw [Target.width]
    split <;> decide
  constructor
  · intro a b h
    have ha := a.toNat_lt
    have hb := b.toNat_lt
    refine UInt8.toNat_inj.mp ?_
    have hle : ∀ c : UInt8, 128 ≤ c ↔ 128 ≤ c.toNat := fun c => UInt8.le_iff_toNat_le
    simp only [hashValueChar, hle] at h
    cases hsigned : t.charSigned <;> simp only [hsigned, true_and, false_and, if_false,
      Bool.false_eq_true] at h
    · exact h
    · split at h <;> split at h <;> omega
  · intro b
    have hb := b.toNat_lt
    rw [hashValueChar]
    split <;> omega

/-- The step of the fold, on hashes as numbers. -/
def hashStep64 (t : Target) (seed : UInt64) (b : UInt8) : UInt64 :=
  hashCombine64 seed (UInt64.ofNat (hashValueChar t b))

/-- The step of the fold where `size_t` has 32 bits. -/
def hashStep32 (t : Target) (seed : UInt32) (b : UInt8) : UInt32 :=
  hashCombine32 seed (UInt32.ofNat (hashValueChar t b))

theorem boostHash_of_is64 {t : Target} (ht : t.is64 = true) (x : Bytes) :
    boostHash t x = (x.foldl (hashStep64 t) 0).toNat := if_pos ht

theorem boostHash_of_not_is64 {t : Target} (ht : ¬ t.is64 = true) (x : Bytes) :
    boostHash t x = (x.foldl (hashStep32 t) 0).toNat := if_neg ht

theorem keepsState64 (t : Target) : FoldHash.KeepsState (hashStep64 t) :=
  fun b => (hashCombine64_injective (UInt64.ofNat (hashValueChar t b)) 0).1

theorem keepsState32 (t : Target) : FoldHash.KeepsState (hashStep32 t) :=
  fun b => (hashCombine32_injective (UInt32.ofNat (hashValueChar t b)) 0).1

theorem keepsLetter64 {t : Target} (ht : t.is64 = true) : FoldHash.KeepsLetter (hashStep64 t) := by
  intro seed a b h
  obtain ⟨hinj, hlt⟩ := hashValueChar_injective t
  rw [Target.width, if_pos ht] at hlt
  have hvalue := congrArg UInt64.toNat ((hashCombine64_injective 0 seed).2 h)
  rw [UInt64.toNat_ofNat_of_lt' (hlt a), UInt64.toNat_ofNat_of_lt' (hlt b)] at hvalue
  exact hinj hvalue

theorem keepsLetter32 {t : Target} (ht : ¬ t.is64 = true) :
    FoldHash.KeepsLetter (hashStep32 t) := by
  intro seed a b h
  obtain ⟨hinj, hlt⟩ := hashValueChar_injective t
  rw [Target.width, if_neg ht] at hlt
  have hvalue := congrArg UInt32.toNat ((hashCombine32_injective 0 seed).2 h)
  rw [UInt32.toNat_ofNat_of_lt' (hlt a), UInt32.toNat_ofNat_of_lt' (hlt b)] at hvalue
  exact hinj hvalue

/-- **A common ending neither makes nor mends a collision**: on every target, strings with a common
ending have the same `boost::hash` if and only if they have it without the ending. -/
theorem boostHash_append_iff (t : Target) (x y ending : Bytes) :
    boostHash t (x ++ ending) = boostHash t (y ++ ending) ↔ boostHash t x = boostHash t y := by
  by_cases ht : t.is64 = true
  · simp only [boostHash_of_is64 ht, UInt64.toNat_inj]
    exact FoldHash.fold_append_right_iff (keepsState64 t) 0 x y ending
  · simp only [boostHash_of_not_is64 ht, UInt32.toNat_inj]
    exact FoldHash.fold_append_right_iff (keepsState32 t) 0 x y ending

/-- **Strings that differ in one byte do not collide**, whatever stands before and behind it. -/
theorem boostHash_ne_of_one_byte (t : Target) (start ending : Bytes) {a b : UInt8} (hab : a ≠ b) :
    boostHash t (start ++ a :: ending) ≠ boostHash t (start ++ b :: ending) := by
  by_cases ht : t.is64 = true
  · simp only [boostHash_of_is64 ht, ne_eq, UInt64.toNat_inj]
    exact FoldHash.fold_ne_of_one_letter (keepsState64 t) (keepsLetter64 ht) 0 start ending hab
  · simp only [boostHash_of_not_is64 ht, ne_eq, UInt32.toNat_inj]
    exact FoldHash.fold_ne_of_one_letter (keepsState32 t) (keepsLetter32 ht) 0 start ending hab

theorem boostHash_lt (t : Target) (x : Bytes) : boostHash t x < 2 ^ t.width := by
  rw [boostHash, Target.width]
  split
  · exact UInt64.toNat_lt _
  · exact UInt32.toNat_lt _

/-- **Strings of one length collide** once they have more bits than a hash. -/
theorem exists_boostHash_collision (t : Target) {n : ℕ} (hn : t.width < 8 * n) :
    ∃ x y : Bytes, x.length = n ∧ y.length = n ∧ x ≠ y ∧ boostHash t x = boostHash t y := by
  have hletter : Function.Injective fun i : Fin 256 => UInt8.ofNat i := by
    intro i j h
    have hnat := congrArg UInt8.toNat h
    rw [UInt8.toNat_ofNat_of_lt' i.isLt, UInt8.toNat_ofNat_of_lt' j.isLt] at hnat
    exact Fin.ext hnat
  have hcard : Fintype.card (Fin (2 ^ t.width)) < Fintype.card (Fin 256) ^ n := by
    rw [Fintype.card_fin, Fintype.card_fin, show 256 = 2 ^ 8 from rfl, ← Nat.pow_mul]
    exact Nat.pow_lt_pow_right Nat.one_lt_two hn
  obtain ⟨x, y, hx, hy, hne, heq⟩ := FoldHash.exists_collision
    (fun x => (⟨boostHash t x, boostHash_lt t x⟩ : Fin (2 ^ t.width))) hletter hcard
  exact ⟨x, y, hx, hy, hne, congrArg Fin.val heq⟩

/-! ### The cache -/

section Cache

variable {t : Target}

/-- The strings that have `start` in front of some byte and `ending` behind it. -/
def oneByteApart (start ending : Bytes) : Set Bytes := {x | ∃ a, x = start ++ a :: ending}

theorem injOn_oneByteApart (t : Target) (start ending : Bytes) :
    Set.InjOn (boostHash t) (oneByteApart start ending) := by
  rintro x ⟨a, rfl⟩ y ⟨b, rfl⟩ hhash
  by_cases hab : a = b
  · rw [hab]
  · exact absurd hhash (boostHash_ne_of_one_byte t start ending hab)

/-- **Strings that differ in one byte are told apart**, with nothing assumed of `boost::hash`. Take
a run of the arena's users in which the arena is not reset and the clients write inside the blocks
they were given, and in which all strings asked for are the same up to one byte. Then every call
of `lt_cached_str` returns its own text. -/
theorem ltCachedStr_own_of_family (P : Placement t) (pol : StreamPolicy) (mem : Mem UInt8)
    (start ending : Bytes) (ops : List CacheOp)
    (hfamily : ∀ op ∈ ops, ∀ x ∈ op.text, ∃ a, x = start ++ a :: ending)
    (hrun : Along (serveStep t pol)
      (fun s op => op.NoReset t pol s.cache ∧ op.WritesInside s.cache)
      (Served.start P.base mem) ops) :
    Along (serveStep t pol) (OwnText P pol) (Served.start P.base mem) ops := by
  have hinj := injOn_oneByteApart t start ending
  have hlegal : Along (serveStep t pol) (BetweenResets t pol (oneByteApart start ending))
      (Served.start P.base mem) ops := by
    refine (along_and.mpr ⟨hrun, along_of_forall_mem hfamily⟩).mono fun s op hop => ?_
    obtain ⟨⟨hreset, hinside⟩, hmem⟩ := hop
    exact ⟨hreset, hinside, hmem⟩
  have hstart : AnswersInv P (oneByteApart start ending) (Served.start P.base mem) :=
    answersInv_start mem
  exact along_of_inv (fun s op inv h => answersInv_step inv hinj h)
    (fun s op inv h => inv.ownText hinj h) hstart hlegal

/-- The parts `"a1"`, `"a2"` and `"a3"`, and a client between them. -/
theorem ltCachedStr_own_of_family_small :
    Along (serveStep Target.x64 .fifteenInObject) (OwnText Placement.low .fifteenInObject)
      (Served.start Placement.low.base fun _ => 0)
      [.string [97, 49], .view [97, 50], .alloc 3 [(1, [120])], .string [97, 51],
        .view [97, 49]] := by
  refine ltCachedStr_own_of_family Placement.low .fifteenInObject _ [97] [] _ ?_
    (by decide +kernel)
  simp [CacheOp.text]

/-- No operation changes or removes an entry of `g_str_cache`. -/
theorem gStrCache_kept {pol : StreamPolicy} {st : CacheState} {k p : ℕ}
    (h : st.g.gStrCache k = some p) (op : CacheOp) :
    (cacheStep t pol st op).g.gStrCache k = some p := by
  rw [gStrCache_cacheStep]
  cases htext : op.text with
  | none => exact h
  | some x =>
      by_cases hkey : k = boostHash t x
      · subst hkey
        rw [returned_of_hit htext h]
        exact Function.update_self ..
      · exact (Function.update_of_ne hkey _ _).trans h

theorem gStrCache_kept_run (t : Target) (pol : StreamPolicy) {st : CacheState} {k p : ℕ}
    (h : st.g.gStrCache k = some p) (ops : List CacheOp) :
    (run (cacheStep t pol) st ops).g.gStrCache k = some p := by
  induction ops generalizing st with
  | nil => exact h
  | cons op ops ih => exact ih (gStrCache_kept h op)

/-- A call leaves the pointer that it returns in the map. -/
theorem gStrCache_of_returned {pol : StreamPolicy} {st : CacheState} {op : CacheOp} {x : Bytes}
    (h : op.text = some x) :
    (cacheStep t pol st op).g.gStrCache (boostHash t x) = op.returned t pol st := by
  rw [gStrCache_cacheStep, h]
  exact Function.update_self ..

/-- **No length is safe.** On every target and for every length of more bits than a hash has, there
are two strings of this length that share their entry for good, and so do their extensions by any
common ending: once the cache was asked for one, it answers the other with the same pointer, from
every state and whatever is asked, allocated and written in between, resets included. -/
theorem ltCachedStr_shared (t : Target) (pol : StreamPolicy) {n : ℕ} (hn : t.width < 8 * n) :
    ∃ x y : Bytes, x.length = n ∧ y.length = n ∧ x ≠ y ∧
      ∀ (ending : Bytes) (st : CacheState) (first : CacheOp) (between : List CacheOp)
        (later : CacheOp), first.text = some (x ++ ending) → later.text = some (y ++ ending) →
          later.returned t pol (run (cacheStep t pol) st (first :: between)) =
            first.returned t pol st := by
  obtain ⟨x, y, hx, hy, hne, hhash⟩ := exists_boostHash_collision t hn
  refine ⟨x, y, hx, hy, hne, fun ending st first between later hfirst hlater => ?_⟩
  have hsame : boostHash t (x ++ ending) = boostHash t (y ++ ending) :=
    (boostHash_append_iff t x y ending).mpr hhash
  obtain ⟨-, hreturned, -⟩ := cacheStep_text t pol st hfirst
  have hentered : (cacheStep t pol st first).g.gStrCache (boostHash t (x ++ ending)) =
      first.returned t pol st := gStrCache_of_returned hfirst
  rw [hreturned] at hentered ⊢
  have hkept := gStrCache_kept_run t pol hentered between
  rw [hsame] at hkept
  exact returned_of_hit hlater hkept

/-- On a 64-bit target strings of nine bytes are long enough. -/
theorem ltCachedStr_shared_nine : ∃ x y : Bytes, x.length = 9 ∧ y.length = 9 ∧ x ≠ y ∧
    ∀ (ending : Bytes) (st : CacheState) (first : CacheOp) (between : List CacheOp)
      (later : CacheOp), first.text = some (x ++ ending) → later.text = some (y ++ ending) →
        later.returned Target.x64 .fifteenInObject
            (run (cacheStep Target.x64 .fifteenInObject) st (first :: between)) =
          first.returned Target.x64 .fifteenInObject st :=
  ltCachedStr_shared Target.x64 .fifteenInObject (by decide)

end Cache

end DartTorrent
