import DartTorrent.Str
import DartTorrent.Basis.GuardedRun

/-!
# `lt_char_v` in the Arena

`lt_char_v` is a `std::vector<char>` whose allocator is `lt_allocate` and whose
`deallocate` does nothing. Resume data is appended to it byte by byte. When the vector is
full it requests a block of twice its capacity, stores the pushed byte and then the old
bytes in it, and drops the old block, which stays where it was.

The module follows the addresses that the pushes store to (`pushSpans`). Two live spans
stand in the same arena while the vector grows: the text of a hash, handed out just
before, and the vector's old block.

## Main results

* `chars_pushAll`: if no push stores to the bytes already appended, the vector ends up
  with the bytes pushed.
* `pushAll_untouched_iff`: the growth stores neither to the text just below the cursor nor
  to the bytes already appended if and only if the buffer fits (`BufferFits`): the cursor
  does not go back, or it goes back so early that what is stored from the base on ends
  below the text.
-/

open ByteStore BumpArena GuardedRun

namespace DartTorrent

/-! ### The vector -/

/-- `lt_char_v`: `data()`, `size()` and `capacity()`. -/
structure CharV where
  data : ℕ
  size : ℕ
  capacity : ℕ
deriving DecidableEq, Repr

/-- A vector without a block. -/
def CharV.empty : CharV := ⟨0, 0, 0⟩

/-- The bytes already appended. -/
def CharV.live (v : CharV) : Span := ⟨v.data, v.size⟩

/-- The bytes of the vector, as the memory has them. -/
def charsOf (s : CharV × StrState) : Bytes := readBytes s.2.mem s.1.data s.1.size

/-- The capacity that a full vector requests. -/
def CharV.nextCapacity (v : CharV) : ℕ := max 1 (2 * v.capacity)

/-- `push_back`. The old block is released after the copy: `deallocate` does nothing. -/
def pushBack (t : Target) (b : UInt8) (v : CharV) (g : StrState) : CharV × StrState :=
  if v.size < v.capacity then
    (⟨v.data, v.size + 1, v.capacity⟩, { g with mem := writeBytes g.mem (v.data + v.size) [b] })
  else
    let (p, block) := ltAllocate t v.nextCapacity g.block
    let mem := writeBytes g.mem (p + v.size) [b]
    let mem := copyBytes mem p v.data v.size
    (⟨p, v.size + 1, v.nextCapacity⟩, { g with block := block, mem := mem })

/-- One step of the `back_inserter`. -/
def pushStep (t : Target) (s : CharV × StrState) (b : UInt8) : CharV × StrState :=
  pushBack t b s.1 s.2

/-- The spans that the next `push_back` stores to. -/
def pushSpans (t : Target) (s : CharV × StrState) : List Span :=
  if s.1.size < s.1.capacity then [⟨s.1.data + s.1.size, 1⟩]
  else
    let p := (ltAllocate t s.1.nextCapacity s.2.block).1
    [⟨p + s.1.size, 1⟩, ⟨p, s.1.size⟩]

/-- The next `push_back` does not store to the span `sp`. -/
def StoresOff (t : Target) (sp : Span) (s : CharV × StrState) : Prop :=
  ∀ b ∈ pushSpans t s, ¬ b.Overlaps sp

/-- The next `push_back` overwrites neither the text nor a byte already appended. -/
def Untouched (t : Target) (text : Span) (s : CharV × StrState) : Prop :=
  StoresOff t text s ∧ StoresOff t s.1.live s

variable {t : Target}

/-! ### What a push stores -/

theorem pushStep_of_room {s : CharV × StrState} (h : s.1.size < s.1.capacity) (b : UInt8) :
    pushStep t s b = (⟨s.1.data, s.1.size + 1, s.1.capacity⟩,
      { s.2 with mem := writeBytes s.2.mem (s.1.data + s.1.size) [b] }) := if_pos h

theorem pushStep_of_full {s : CharV × StrState} (h : ¬ s.1.size < s.1.capacity) (b : UInt8)
    {p : ℕ} {block : MemBlock} (halloc : ltAllocate t s.1.nextCapacity s.2.block = (p, block)) :
    pushStep t s b = (⟨p, s.1.size + 1, s.1.nextCapacity⟩,
      { s.2 with
        block := block
        mem := copyBytes (writeBytes s.2.mem (p + s.1.size) [b]) p s.1.data s.1.size }) := by
  rw [pushStep, pushBack, if_neg h, halloc]

@[simp] theorem size_pushStep (s : CharV × StrState) (b : UInt8) :
    (pushStep t s b).1.size = s.1.size + 1 := by
  rw [pushStep, pushBack]
  split <;> rfl

/-- **A push changes the spans it stores to** and nothing else. -/
theorem agreesOff_pushStep (s : CharV × StrState) (b : UInt8) :
    AgreesOff (pushSpans t s) s.2.mem (pushStep t s b).2.mem := by
  rw [pushSpans, pushStep, pushBack]
  split
  · exact agreesOff_writeBytes le_rfl le_rfl
  · set last := (ltAllocate t s.1.nextCapacity s.2.block).1 + s.1.size
    have hpushed : AgreesOff [⟨last, 1⟩] s.2.mem (writeBytes s.2.mem last [b]) :=
      agreesOff_writeBytes le_rfl le_rfl
    exact hpushed.trans (agreesOff_copyBytes le_rfl le_rfl)

/-- A push that does not store to the bytes already appended appends its byte to them. -/
theorem chars_pushStep {s : CharV × StrState} (hlive : StoresOff t s.1.live s) (b : UInt8) :
    charsOf (pushStep t s b) = charsOf s ++ [b] := by
  rw [charsOf, size_pushStep, charsOf]
  obtain ⟨v, g⟩ := s
  unfold StoresOff pushSpans at hlive
  rw [pushStep, pushBack]
  dsimp only at hlive ⊢
  split
  · next hroom =>
      exact readBytes_writeBytes_append _ _ _ [b]
  · next hfull =>
      rw [if_neg hfull, List.forall_mem_cons, List.forall_mem_singleton] at hlive
      generalize (ltAllocate t v.nextCapacity g.block).1 = p at hlive
      obtain ⟨hpushed, hcopied⟩ := hlive
      have hkept : AgreesOff [⟨p, v.size⟩] (writeBytes g.mem (p + v.size) [b])
          (copyBytes (writeBytes g.mem (p + v.size) [b]) p v.data v.size) :=
        agreesOff_copyBytes le_rfl le_rfl
      have hafter : ∀ sp ∈ [Span.mk p v.size], ¬ sp.Overlaps ⟨p + v.size, 1⟩ :=
        List.forall_mem_singleton.mpr (Span.not_overlaps_of_stop_le le_rfl)
      have hlast : readBytes (writeBytes g.mem (p + v.size) [b]) (p + v.size) 1 = [b] :=
        readBytes_writeBytes _ _ [b]
      rw [readBytes_add, hkept.readBytes_eq hafter, hlast,
        readBytes_copyBytes fun h => hcopied h.symm, readBytes_writeBytes_of_disjoint hpushed]

/-! ### What a run of pushes stores -/

/-- Pushes leave the caches alone. -/
theorem gHashCache_pushAll (s : CharV × StrState) (bs : Bytes) :
    (run (pushStep t) s bs).2.gHashCache = s.2.gHashCache := by
  induction bs generalizing s with
  | nil => rfl
  | cons b bs ih =>
      rw [run_cons, ih]
      rw [pushStep, pushBack]
      split <;> rfl

theorem size_pushAll (s : CharV × StrState) (bs : Bytes) :
    (run (pushStep t) s bs).1.size = s.1.size + bs.length := by
  induction bs generalizing s with
  | nil => rfl
  | cons b bs ih =>
      rw [run_cons, ih, size_pushStep, List.length_cons]
      omega

/-- **The vector holds the bytes pushed** if no push stores to those already appended. -/
theorem chars_pushAll {s : CharV × StrState} {bs : Bytes}
    (hlive : Along (pushStep t) (fun s _ => StoresOff t s.1.live s) s bs) :
    charsOf (run (pushStep t) s bs) = charsOf s ++ bs := by
  induction bs generalizing s with
  | nil => simp
  | cons b bs ih =>
      obtain ⟨hhead, hrest⟩ := hlive
      rw [run_cons, ih hrest, chars_pushStep hhead, List.append_assoc, List.singleton_append]

/-- A span that no push stores to reads as before. -/
theorem readBytes_pushAll {s : CharV × StrState} {bs : Bytes} {sp : Span}
    (hoff : Along (pushStep t) (fun s _ => StoresOff t sp s) s bs) :
    readBytes (run (pushStep t) s bs).2.mem sp.start sp.len =
      readBytes s.2.mem sp.start sp.len := by
  induction bs generalizing s with
  | nil => rfl
  | cons b bs ih =>
      obtain ⟨hhead, hrest⟩ := hoff
      rw [run_cons, ih hrest]
      exact (agreesOff_pushStep s b).readBytes_eq hhead

/-! ### Where the vector stands -/

/-- The number of growths that a vector of `n` bytes has gone through. -/
def growths (n : ℕ) : ℕ := if n = 0 then 0 else Nat.clog 2 n + 1

/-- The vector after pushes from the cursor `c`: its capacity is the least power of two
that holds its bytes, and it stands where the last growth put it. -/
structure VecInv (P : Placement t) (c : P.Cursor) (s : CharV × StrState) : Prop where
  block : ∃ c' : P.Cursor, s.2.block = P.block c' ∧
    c'.pos = grownCursor P.base P.stop c.pos (growths s.1.size)
  capacity : s.1.capacity = if s.1.size = 0 then 0 else 2 ^ Nat.clog 2 s.1.size
  data : s.1.size ≠ 0 →
    s.1.data = growthStart P.base P.stop c.pos (Nat.clog 2 s.1.size)

/-- A vector with room keeps its growth. -/
theorem clog_succ_of_lt {n : ℕ} (h : n < 2 ^ Nat.clog 2 n) :
    Nat.clog 2 (n + 1) = Nat.clog 2 n :=
  le_antisymm (Nat.clog_le_of_le_pow h) (Nat.clog_mono_right 2 (Nat.le_succ n))

/-- A full vector comes to its next growth. -/
theorem clog_succ_of_eq {n : ℕ} (h : n = 2 ^ Nat.clog 2 n) :
    Nat.clog 2 (n + 1) = Nat.clog 2 n + 1 := by
  have hpow : 2 ^ (Nat.clog 2 n + 1) = 2 ^ Nat.clog 2 n + 2 ^ Nat.clog 2 n := by ring
  have hpos : 0 < 2 ^ Nat.clog 2 n := Nat.two_pow_pos _
  refine le_antisymm (Nat.clog_le_of_le_pow (by omega)) ?_
  exact (Nat.lt_clog_iff_pow_lt Nat.one_lt_two).mpr (by omega)

section Growth

variable {P : Placement t} {c : P.Cursor} {s : CharV × StrState}

/-- A full vector grows to the capacity of the growth that its next byte needs. -/
theorem VecInv.nextCapacity (inv : VecInv P c s) (hfull : ¬ s.1.size < s.1.capacity) :
    s.1.nextCapacity = 2 ^ Nat.clog 2 (s.1.size + 1) ∧
      growths s.1.size = Nat.clog 2 (s.1.size + 1) := by
  have hcap := inv.capacity
  by_cases h0 : s.1.size = 0
  · rw [if_pos h0] at hcap
    rw [CharV.nextCapacity, hcap, h0, growths]
    simp
  · rw [if_neg h0] at hcap
    have hle : s.1.size ≤ 2 ^ Nat.clog 2 s.1.size := Nat.le_pow_clog Nat.one_lt_two _
    have hpos : 0 < 2 ^ Nat.clog 2 s.1.size := Nat.two_pow_pos _
    have hpow : 2 ^ (Nat.clog 2 s.1.size + 1) = 2 * 2 ^ Nat.clog 2 s.1.size := by ring
    rw [clog_succ_of_eq (by omega), growths, if_neg h0, CharV.nextCapacity, hcap]
    omega

/-- A growth of a vector of fewer than `MEM_BLOCK_SIZE` bytes is a request that the arena
could hold. -/
theorem two_pow_clog_le {n : ℕ} (h : n < memBlockSize) :
    2 ^ Nat.clog 2 (n + 1) ≤ memBlockSize := by
  rw [memBlockSize_eq] at h ⊢
  exact Nat.pow_le_pow_right Nat.two_pos (Nat.clog_le_of_le_pow h)

/-- The block of a growth. -/
theorem VecInv.allocate (inv : VecInv P c s) (hfull : ¬ s.1.size < s.1.capacity)
    (hsize : s.1.size < memBlockSize) :
    ∃ c' : P.Cursor,
      ltAllocate t s.1.nextCapacity s.2.block =
        (growthStart P.base P.stop c.pos (Nat.clog 2 (s.1.size + 1)), P.block c') ∧
      c'.pos = grownCursor P.base P.stop c.pos (growths (s.1.size + 1)) := by
  obtain ⟨c', hblock, hpos⟩ := inv.block
  obtain ⟨hcap, hgrowths⟩ := inv.nextCapacity hfull
  rw [hgrowths] at hpos
  have hle : s.1.nextCapacity ≤ memBlockSize := hcap ▸ two_pow_clog_le hsize
  have halloc := ltAllocate_eq P c' (P.request s.1.nextCapacity hle)
  rw [Placement.request_val, ← hblock] at halloc
  refine ⟨_, halloc.trans (Prod.ext ?_ rfl), ?_⟩
  · simp only [Cursor.block_start, Placement.request_val, hpos, hcap, growthStart]
  · rw [Cursor.alloc_pos, Placement.request_val, hpos, hcap, growths,
      if_neg (Nat.succ_ne_zero _), grownCursor_succ]

/-- **A push keeps the invariant.** -/
theorem VecInv.push (inv : VecInv P c s) (hsize : s.1.size < memBlockSize) (b : UInt8) :
    VecInv P c (pushStep t s b) := by
  by_cases hroom : s.1.size < s.1.capacity
  · have hcap := inv.capacity
    have h0 : s.1.size ≠ 0 := by
      intro h0
      rw [if_pos h0] at hcap
      omega
    rw [if_neg h0] at hcap
    have hclog : Nat.clog 2 (s.1.size + 1) = Nat.clog 2 s.1.size :=
      clog_succ_of_lt (hcap ▸ hroom)
    obtain ⟨c', hblock, hpos⟩ := inv.block
    rw [pushStep_of_room hroom]
    refine ⟨⟨c', hblock, ?_⟩, ?_, fun _ => ?_⟩
    · rw [hpos, growths, growths, if_neg h0, if_neg (Nat.succ_ne_zero _), hclog]
    · rw [if_neg (Nat.succ_ne_zero _), hclog, hcap]
    · rw [hclog, inv.data h0]
  · obtain ⟨c', halloc, hpos⟩ := inv.allocate hroom hsize
    rw [pushStep_of_full hroom b halloc]
    refine ⟨⟨c', rfl, hpos⟩, ?_, fun _ => rfl⟩
    rw [if_neg (Nat.succ_ne_zero _)]
    exact (inv.nextCapacity hroom).1

/-- A vector without a block meets the invariant. -/
theorem vecInv_empty {g : StrState} (hg : g.block = P.block c) : VecInv P c (CharV.empty, g) :=
  ⟨⟨c, hg, rfl⟩, rfl, fun h => absurd rfl h⟩

/-- A run of pushes keeps the invariant, up to `MEM_BLOCK_SIZE` bytes. -/
theorem VecInv.pushAll {bs : Bytes} (inv : VecInv P c s)
    (hsize : s.1.size + bs.length ≤ memBlockSize) : VecInv P c (run (pushStep t) s bs) := by
  induction bs generalizing s with
  | nil => exact inv
  | cons b bs ih =>
      rw [List.length_cons] at hsize
      refine ih (inv.push (by omega) b) ?_
      rw [size_pushStep]
      omega

/-- A vector with room has its bytes in the block of the growth its next byte needs. -/
theorem VecInv.data_of_room (inv : VecInv P c s) (hroom : s.1.size < s.1.capacity) :
    s.1.data = growthStart P.base P.stop c.pos (Nat.clog 2 (s.1.size + 1)) := by
  have hcap := inv.capacity
  have h0 : s.1.size ≠ 0 := by
    intro h0
    rw [if_pos h0] at hcap
    omega
  rw [if_neg h0] at hcap
  rw [clog_succ_of_lt (hcap ▸ hroom), inv.data h0]

/-- **What a push stores to**: the place of its byte in the block of the growth it needs
and, when it grows, the places of the old bytes there. -/
theorem VecInv.pushSpans_eq (inv : VecInv P c s) (hsize : s.1.size < memBlockSize) :
    let start := growthStart P.base P.stop c.pos (Nat.clog 2 (s.1.size + 1))
    pushSpans t s = ⟨start + s.1.size, 1⟩ ::
      if s.1.size < s.1.capacity then [] else [⟨start, s.1.size⟩] := by
  intro start
  rw [pushSpans]
  split
  · next hroom => rw [inv.data_of_room hroom]
  · next hfull =>
      obtain ⟨c', halloc, -⟩ := inv.allocate hfull hsize
      rw [halloc]

end Growth

/-! ### When the buffer fits -/

/-- A vector that grows to `len` bytes beside a text of 41 bytes that ends at the cursor,
`used` bytes into the arena, with `k` its last growth. Either the cursor does not go back,
or it goes back at growth `i` and what is stored from the base on, in the growths before
the last and in the last, ends below the text. -/
def BufferFits (used len : ℕ) : Prop :=
  let k := Nat.clog 2 len
  used + 2 ^ (k + 1) ≤ memBlockSize ∨
    ∃ i < k + 1, used + 2 ^ i ≤ memBlockSize ∧ memBlockSize < used + 2 ^ (i + 1) ∧
      2 ^ k + len + 41 ≤ used + 2 ^ i

instance (used len : ℕ) : Decidable (BufferFits used len) :=
  inferInstanceAs (Decidable (_ ∨ ∃ i < _, _))

/-- A buffer that fits has at most `MEM_BLOCK_SIZE` bytes. -/
theorem BufferFits.le {used len : ℕ} (h : BufferFits used len) : len ≤ memBlockSize := by
  have hlen : len ≤ 2 ^ Nat.clog 2 len := Nat.le_pow_clog Nat.one_lt_two len
  rcases h with h | ⟨i, -, hi, -, hend⟩
  · rw [pow_succ] at h
    omega
  · omega

/-- What fits at the end fits at every growth `j`: the cursor has not gone back, or it went
back at growth `i` and the place of byte `n` ends below the text. -/
theorem BufferFits.at_growth {used len j n : ℕ} (h : BufferFits used len)
    (hn : n < len) (hj : j = Nat.clog 2 (n + 1)) :
    used + 2 ^ (j + 1) ≤ memBlockSize ∨
      ∃ i ≤ j, used + 2 ^ i ≤ memBlockSize ∧ memBlockSize < used + 2 ^ (i + 1) ∧
        2 ^ j + n + 42 ≤ used + 2 ^ i ∧ j < 23 := by
  simp only [BufferFits] at h
  set k := Nat.clog 2 len with hk
  have hjk : j ≤ k := hj ▸ Nat.clog_mono_right 2 hn
  have hnj : n + 1 ≤ 2 ^ j := hj ▸ Nat.le_pow_clog Nat.one_lt_two (n + 1)
  have hlen : len ≤ 2 ^ k := Nat.le_pow_clog Nat.one_lt_two len
  rcases h with h | ⟨i, -, hi, hwrap, hend⟩
  · have hpow : 2 ^ (j + 1) ≤ 2 ^ (k + 1) := Nat.pow_le_pow_right Nat.two_pos (by omega)
    exact Or.inl (by omega)
  · by_cases hij : i ≤ j
    · refine Or.inr ⟨i, hij, hi, hwrap, ?_, ?_⟩
      · rcases hjk.eq_or_lt with rfl | hlt
        · omega
        · have hpow : 2 ^ (j + 1) ≤ 2 ^ k := Nat.pow_le_pow_right Nat.two_pos hlt
          rw [pow_succ] at hpow
          omega
      · have hpow : 2 ^ j ≤ 2 ^ k := Nat.pow_le_pow_right Nat.two_pos hjk
        rw [memBlockSize_eq] at hi
        exact (Nat.pow_lt_pow_iff_right Nat.one_lt_two).mp (by omega : 2 ^ j < 2 ^ 23)
    · have hpow : 2 ^ (j + 1) ≤ 2 ^ i := Nat.pow_le_pow_right Nat.two_pos (by omega)
      exact Or.inl (by omega)

section Fits

variable {P : Placement t} {c : P.Cursor} {s : CharV × StrState} {text : Span}

/-- A vector that holds bytes stands at the growth its last byte needs, and has them in a
block of that growth. -/
theorem VecInv.live_of_full (inv : VecInv P c s) (hfull : ¬ s.1.size < s.1.capacity)
    (h0 : s.1.size ≠ 0) :
    ∃ j, Nat.clog 2 (s.1.size + 1) = j + 1 ∧ s.1.size = 2 ^ j ∧
      s.1.data = growthStart P.base P.stop c.pos j := by
  have hcap := inv.capacity
  rw [if_neg h0] at hcap
  have hle : s.1.size ≤ 2 ^ Nat.clog 2 s.1.size := Nat.le_pow_clog Nat.one_lt_two _
  have heq : s.1.size = 2 ^ Nat.clog 2 s.1.size := by omega
  exact ⟨Nat.clog 2 s.1.size, clog_succ_of_eq heq, heq, inv.data h0⟩

/-- The place of byte `n` in the block of growth `j`: above the text while the cursor has
not gone back, below it after that. -/
theorem growthStart_of_fits (c : P.Cursor) {j n : ℕ}
    (h : c.pos - P.base + 2 ^ (j + 1) ≤ memBlockSize ∨
      ∃ i ≤ j, c.pos - P.base + 2 ^ i ≤ memBlockSize ∧
        memBlockSize < c.pos - P.base + 2 ^ (i + 1) ∧
        2 ^ j + n + 42 ≤ c.pos - P.base + 2 ^ i ∧ j < 23) :
    (growthStart P.base P.stop c.pos j + 1 = c.pos + 2 ^ j ∧ c.pos + 2 ^ (j + 1) ≤ P.stop) ∨
      ∃ i ≤ j, c.pos + 2 ^ i ≤ P.stop ∧
        growthStart P.base P.stop c.pos j + 2 ^ i = P.base + 2 ^ j ∧
        P.stop < c.pos + 2 ^ (i + 1) ∧ growthStart P.base P.stop c.pos j + n + 42 ≤ c.pos ∧
        j < 23 := by
  have hlo := c.lo_le_pos
  have hstop : P.stop = P.base + memBlockSize := rfl
  rcases h with h | ⟨i, hij, hi, hwrap, hend, hj⟩
  · exact Or.inl ⟨growthStart_of_lt P.base (by omega), by omega⟩
  · have hroom : P.base + 2 ^ (j + 1) < P.stop + 2 ^ i := by
      have hpow : 2 ^ (j + 1) ≤ 2 ^ 23 := Nat.pow_le_pow_right Nat.two_pos hj
      have hpos : 0 < 2 ^ i := Nat.two_pow_pos i
      rw [hstop, memBlockSize_eq]
      omega
    have hstart : growthStart P.base P.stop c.pos j + 2 ^ i = P.base + 2 ^ j :=
      growthStart_of_wrap (by omega) (by omega) hij hroom
    exact Or.inr ⟨i, hij, by omega, hstart, by omega, by omega, hj⟩

/-- When a full vector of up to 2MB grows, its old block ends where the new one starts, or
the cursor has just gone back and the new bytes end below the old block. -/
theorem VecInv.live_of_grow (inv : VecInv P c s) (hc : c.pos < P.stop)
    (hbase : P.base + 2 ≤ c.pos) (hn : s.1.size < 2 ^ 22)
    (hfull : ¬ s.1.size < s.1.capacity) (h0 : s.1.size ≠ 0) :
    let start := growthStart P.base P.stop c.pos (Nat.clog 2 (s.1.size + 1))
    s.1.data + s.1.size = start ∨ start + s.1.size + 1 ≤ s.1.data := by
  intro start
  obtain ⟨j, hclog, hsize, hdata⟩ := inv.live_of_full hfull h0
  have hj : j < 22 := (Nat.pow_lt_pow_iff_right Nat.one_lt_two).mp (hsize ▸ hn)
  have hpow : 2 ^ (j + 1) = 2 ^ j + 2 ^ j := by ring
  have hpow' : 2 ^ (j + 2) = 2 ^ (j + 1) + 2 ^ (j + 1) := by ring
  simp only [start]
  rw [hclog, hdata, hsize]
  rcases Nat.lt_or_ge P.stop (c.pos + 2 ^ (j + 2)) with hroom | hwrap
  · obtain ⟨i, hij, hi, hwrap⟩ := exists_wrap hc hroom
    have hsum : P.base + 2 ^ (j + 2) < P.stop + 2 ^ i := by
      have hle : 2 ^ (j + 2) ≤ 2 ^ 23 := Nat.pow_le_pow_right Nat.two_pos (by omega)
      have hpos : 0 < 2 ^ i := Nat.two_pow_pos i
      simp only [Placement.stop, memBlockSize_eq]
      omega
    have hnew := growthStart_of_wrap hi hwrap hij hsum
    rcases hij.eq_or_lt with rfl | hlt
    · -- the reset falls on this growth
      have hold := growthStart_of_lt P.base hi
      exact Or.inr (by omega)
    · -- the reset fell earlier
      have hsum' : P.base + 2 ^ (j + 1) < P.stop + 2 ^ i := by omega
      have hold := growthStart_of_wrap hi hwrap (Nat.le_of_lt_succ hlt) hsum'
      exact Or.inl (by omega)
  · -- no reset up to this growth: the blocks follow one another
    have hnew := growthStart_of_lt P.base hwrap
    have hroom : c.pos + 2 ^ (j + 1) ≤ P.stop := by omega
    have hold := growthStart_of_lt P.base hroom
    exact Or.inl (by omega)

/-- What a push stores to lies in the block of the growth that its byte needs. -/
theorem VecInv.pushSpans_within (inv : VecInv P c s) (hsize : s.1.size < memBlockSize) :
    let start := growthStart P.base P.stop c.pos (Nat.clog 2 (s.1.size + 1))
    ∀ b ∈ pushSpans t s, b.Within start (start + s.1.size + 1) := by
  intro start
  rw [inv.pushSpans_eq hsize]
  refine List.forall_mem_cons.mpr ⟨⟨Nat.le_add_right _ _, le_rfl⟩, ?_⟩
  split
  · exact List.forall_mem_nil _
  · exact List.forall_mem_singleton.mpr ⟨le_rfl, Nat.le_succ _⟩

/-- **Appended bytes are safe up to 4MB**: wherever the cursor goes back, no push stores to
the bytes already appended. -/
theorem VecInv.storesOff_live (inv : VecInv P c s) (hc : c.pos < P.stop)
    (hbase : P.base + 2 ≤ c.pos) (hn : s.1.size < 2 ^ 22) : StoresOff t s.1.live s := by
  have hsize : s.1.size < memBlockSize := hn.trans two_pow_lt_memBlockSize
  by_cases hcap : s.1.size < s.1.capacity
  · rw [StoresOff, inv.pushSpans_eq hsize, if_pos hcap, List.forall_mem_singleton]
    exact Span.not_overlaps_of_le_start (by rw [CharV.live, Span.stop, inv.data_of_room hcap])
  · intro b hb
    obtain ⟨hlo, hhi⟩ := inv.pushSpans_within hsize b hb
    by_cases h0 : s.1.size = 0
    · exact Span.not_overlaps_of_empty h0
    · rcases inv.live_of_grow hc hbase hn hcap h0 with hold | hold
      · exact Span.not_overlaps_of_le_start (hold.trans_le hlo)
      · exact Span.not_overlaps_of_stop_le (hhi.trans hold)

/-- The bytes of a vector that fits are fewer than 4MB. -/
theorem BufferFits.lt {used len : ℕ} (hused : 41 ≤ used) (h : BufferFits used len) :
    len ≤ 2 ^ 22 := by
  have hlen : len ≤ 2 ^ Nat.clog 2 len := Nat.le_pow_clog Nat.one_lt_two len
  have hk : Nat.clog 2 len ≤ 22 := by
    refine Nat.lt_succ_iff.mp ((Nat.pow_lt_pow_iff_right Nat.one_lt_two).mp ?_)
    rcases h with h | ⟨i, -, hi, -, hend⟩ <;> rw [memBlockSize_eq] at *
    · rw [pow_succ] at h
      omega
    · omega
  exact hlen.trans (Nat.pow_le_pow_right Nat.two_pos hk)

/-- **A buffer that fits overwrites nothing**: each push stores to its own growth's block,
above the text or below it, and clear of the bytes already appended. -/
theorem VecInv.untouched_of_fits (inv : VecInv P c s) {len : ℕ} (hc : c.pos < P.stop)
    (hbase : P.base + 41 ≤ c.pos) (hfit : BufferFits (c.pos - P.base) len)
    (hn : s.1.size < len) (htext : text.stop = c.pos) (hlen : text.len = 41) :
    Untouched t text s := by
  have hlen22 := hfit.lt (by omega)
  refine ⟨fun b hb => ?_, inv.storesOff_live hc (by omega) (by omega)⟩
  have hsize : s.1.size < memBlockSize := hn.trans_le (hlen22.trans two_pow_lt_memBlockSize.le)
  obtain ⟨hlo, hhi⟩ := inv.pushSpans_within hsize b hb
  have htextstart : text.start + 41 = c.pos := by rw [← hlen]; exact htext
  rcases growthStart_of_fits c (hfit.at_growth hn rfl) with ⟨hstart, -⟩ | ⟨i, -, -, -, -, hend, -⟩
  · have hpos : 0 < 2 ^ Nat.clog 2 (s.1.size + 1) := Nat.two_pow_pos _
    exact Span.not_overlaps_of_le_start (htext.trans_le (le_trans (by omega) hlo))
  · exact Span.not_overlaps_of_stop_le (hhi.trans (by omega))

/-- The growth of byte `n`, from bounds on `n`. -/
theorem clog_succ_eq {n j : ℕ} (hlt : n < 2 ^ j) (hle : 2 ^ j ≤ 2 * n ∨ j = 0) :
    Nat.clog 2 (n + 1) = j := by
  refine le_antisymm (Nat.clog_le_of_le_pow hlt) ?_
  cases j with
  | zero => exact Nat.zero_le _
  | succ j =>
      have hpow : 2 ^ (j + 1) = 2 * 2 ^ j := by ring
      exact (Nat.lt_clog_iff_pow_lt Nat.one_lt_two).mpr (by omega)

/-- When the buffer does not fit, some growth up to the last covers the start of the text:
its block, after the cursor went back, has the text's first byte at offset `o`, and the
bytes of the buffer reach that offset. -/
theorem exists_growth_on_text (c : P.Cursor) {len : ℕ} (hc : c.pos < P.stop)
    (hbase : P.base + 41 ≤ c.pos) (hnot : ¬ BufferFits (c.pos - P.base) len) :
    ∃ j o, j ≤ Nat.clog 2 len ∧ j < 23 ∧ o < 2 ^ j ∧ (j = Nat.clog 2 len → o < len) ∧
      growthStart P.base P.stop c.pos j + o + 41 = c.pos := by
  simp only [BufferFits, not_or, not_exists, not_and, not_le] at hnot
  obtain ⟨hfirst, hend⟩ := hnot
  have hstop : P.stop = P.base + memBlockSize := rfl
  obtain ⟨i, hik, hi, hwrap⟩ := exists_wrap (k := Nat.clog 2 len) hc (by omega)
  have hend := hend i (by omega) (by omega) (by omega)
  obtain ⟨j, hij, hj, hj'⟩ := exists_growth_covering i (c.pos - P.base - 41)
  have hlen : len ≤ 2 ^ Nat.clog 2 len := Nat.le_pow_clog Nat.one_lt_two len
  have hj23 : j < 23 := by
    rw [memBlockSize_eq] at hstop
    exact (Nat.pow_lt_pow_iff_right Nat.one_lt_two).mp (by omega : 2 ^ j < 2 ^ 23)
  have hjk : j ≤ Nat.clog 2 len := by
    have hpow : 2 ^ (Nat.clog 2 len + 1) = 2 * 2 ^ Nat.clog 2 len := by ring
    exact Nat.lt_succ_iff.mp
      ((Nat.pow_lt_pow_iff_right Nat.one_lt_two).mp (by omega : 2 ^ j < 2 ^ (Nat.clog 2 len + 1)))
  have hroom : P.base + 2 ^ (j + 1) < P.stop + 2 ^ i := by
    have hle : 2 ^ (j + 1) ≤ 2 ^ 23 := Nat.pow_le_pow_right Nat.two_pos hj23
    have hpos : 0 < 2 ^ i := Nat.two_pow_pos i
    rw [hstop, memBlockSize_eq]
    omega
  have hstart := growthStart_of_wrap hi hwrap hij hroom
  refine ⟨j, c.pos - P.base - 41 + 2 ^ i - 2 ^ j, hjk, hj23, ?_, ?_, by omega⟩
  · rw [pow_succ] at hj'
    omega
  · rintro rfl
    omega

/-- When the buffer does not fit, some push stores to the text. -/
theorem exists_push_on_text (c : P.Cursor) {len : ℕ} (hc : c.pos < P.stop)
    (hbase : P.base + 41 ≤ c.pos) (htext : text.stop = c.pos) (hlen : text.len = 41)
    (hnot : ¬ BufferFits (c.pos - P.base) len) :
    ∃ m < len, m < memBlockSize ∧
      ∀ s : CharV × StrState, VecInv P c s → s.1.size = m → ¬ StoresOff t text s := by
  obtain ⟨j, o, hjk, hj, ho, holen, hstart⟩ := exists_growth_on_text c hc hbase hnot
  have htextstart : text.start + 41 = c.pos := by rw [← hlen]; exact htext
  have hj22 : 2 ^ j ≤ memBlockSize := by
    rw [memBlockSize_eq]
    exact Nat.pow_le_pow_right Nat.two_pos (by omega)
  have hlast : ∀ i < j, 2 ^ i < len := fun i hi =>
    (Nat.lt_clog_iff_pow_lt Nat.one_lt_two).mp (hi.trans_le hjk)
  by_cases hown : 2 ^ j ≤ 2 * o ∨ j = 0
  · -- byte `o` itself is stored on the text
    have holen : o < len := by
      rcases hjk.eq_or_lt with heq | hlt
      · exact holen heq
      · exact ho.trans ((Nat.lt_clog_iff_pow_lt Nat.one_lt_two).mp hlt)
    refine ⟨o, holen, by omega, fun s inv hsize hoff => ?_⟩
    have hspans := inv.pushSpans_eq (hsize ▸ (by omega : o < memBlockSize))
    rw [hsize, clog_succ_eq ho hown] at hspans
    refine hoff _ (hspans ▸ List.mem_cons_self) (Span.overlaps_iff.mpr ⟨text.start, ?_, ?_⟩) <;>
      simp only [Span.stop] <;> omega
  · -- byte `o` is copied onto the text when the vector grows
    obtain ⟨hown, hj0⟩ := not_or.mp hown
    obtain ⟨i, rfl⟩ : ∃ i, j = i + 1 := ⟨j - 1, by omega⟩
    have hpow : 2 ^ (i + 1) = 2 * 2 ^ i := by ring
    have hpos : 0 < 2 ^ i := Nat.two_pow_pos i
    refine ⟨2 ^ i, hlast i (Nat.lt_succ_self i), by omega, fun s inv hsize hoff => ?_⟩
    have hspans := inv.pushSpans_eq (hsize ▸ (by omega : 2 ^ i < memBlockSize))
    have hcap := inv.capacity
    rw [hsize, if_neg hpos.ne', Nat.clog_pow 2 i Nat.one_lt_two] at hcap
    have hfull : ¬ s.1.size < s.1.capacity := by omega
    dsimp only at hspans
    rw [if_neg hfull, hsize, clog_succ_eq (by omega) (Or.inl (by omega : 2 ^ (i + 1) ≤ _))]
      at hspans
    refine hoff ⟨_, 2 ^ i⟩ (hspans ▸ List.mem_cons_of_mem _ List.mem_cons_self)
      (Span.overlaps_iff.mpr ⟨text.start, ?_, ?_⟩) <;> simp only [Span.stop] <;> omega

/-- A vector built from the cursor, byte by byte. -/
theorem vecInv_of_pushAll (c : P.Cursor) {g : StrState} (hg : g.block = P.block c) {bs : Bytes}
    (hle : bs.length ≤ memBlockSize) :
    VecInv P c (run (pushStep t) (CharV.empty, g) bs) ∧
      (run (pushStep t) (CharV.empty, g) bs).1.size = bs.length := by
  refine ⟨(vecInv_empty hg).pushAll ((Nat.zero_add _).trans_le hle), ?_⟩
  rw [size_pushAll]
  exact Nat.zero_add _

/-- If the growth leaves the text alone, the buffer fits. -/
theorem fits_of_storesOff (c : P.Cursor) (hc : c.pos < P.stop) (hbase : P.base + 41 ≤ c.pos)
    (htext : text.stop = c.pos) (hlen : text.len = 41) {g : StrState} (hg : g.block = P.block c)
    {bs : Bytes} (h : Along (pushStep t) (fun s _ => StoresOff t text s) (CharV.empty, g) bs) :
    BufferFits (c.pos - P.base) bs.length := by
  by_contra hnot
  obtain ⟨m, hm, hsize, htouch⟩ := exists_push_on_text (t := t) c hc hbase htext hlen hnot
  obtain ⟨inv, hpresize⟩ :=
    vecInv_of_pushAll (t := t) c hg ((List.length_take_le m bs).trans hsize.le)
  rw [List.length_take_of_le hm.le] at hpresize
  refine htouch _ inv hpresize (along_iff_split.mp h (bs.take m) bs[m] (bs.drop (m + 1)) ?_)
  rw [List.getElem_cons_drop, List.take_append_drop]

/-- **The growth of the vector overwrites nothing if and only if the buffer fits.** -/
theorem pushAll_untouched_iff (c : P.Cursor) (hc : c.pos < P.stop) (hbase : P.base + 41 ≤ c.pos)
    (htext : text.stop = c.pos) (hlen : text.len = 41) {g : StrState} (hg : g.block = P.block c)
    (bs : Bytes) :
    Along (pushStep t) (fun s _ => Untouched t text s) (CharV.empty, g) bs ↔
      BufferFits (c.pos - P.base) bs.length := by
  constructor
  · intro h
    exact fits_of_storesOff c hc hbase htext hlen hg (along_and.mp h).1
  · intro hfit
    refine along_iff_split.mpr fun pre b post heq => ?_
    have hpre : pre.length < bs.length := by
      rw [heq, List.length_append, List.length_cons]
      omega
    obtain ⟨inv, hpresize⟩ := vecInv_of_pushAll (t := t) c hg (hpre.le.trans hfit.le)
    exact inv.untouched_of_fits hc hbase hfit (hpresize.trans_lt hpre) htext hlen

/-- A buffer of 2MB to 4MB that starts growing in the first half of the arena ends up at its
base: its last growth is the one at which the cursor goes back. -/
theorem mem_pushAll_of_wrap (c : P.Cursor) (hc : c.pos + 2 ^ 22 ≤ P.stop)
    (hbase : P.base + 2 ≤ c.pos) {g : StrState} (hg : g.block = P.block c) {bs : Bytes}
    (hlo : 2 ^ 21 < bs.length) (hhi : bs.length ≤ 2 ^ 22) {i : ℕ} (hi : i < bs.length) :
    bs[i]? = some ((run (pushStep t) (CharV.empty, g) bs).2.mem (P.base + i)) := by
  have hlive : Along (pushStep t) (fun s _ => StoresOff t s.1.live s) (CharV.empty, g) bs := by
    refine along_iff_split.mpr fun pre b post heq => ?_
    have hpre : pre.length < bs.length := by
      rw [heq, List.length_append, List.length_cons]
      omega
    obtain ⟨inv, hpresize⟩ :=
      vecInv_of_pushAll (t := t) c hg (hpre.le.trans (hhi.trans two_pow_lt_memBlockSize.le))
    exact inv.storesOff_live (by omega) hbase (by omega)
  obtain ⟨inv, hsize⟩ := vecInv_of_pushAll (t := t) c hg (hhi.trans two_pow_lt_memBlockSize.le)
  have hclog : Nat.clog 2 bs.length = 22 :=
    le_antisymm (Nat.clog_le_of_le_pow hhi) ((Nat.lt_clog_iff_pow_lt Nat.one_lt_two).mpr hlo)
  have hdata : (run (pushStep t) (CharV.empty, g) bs).1.data = P.base := by
    have hafter : P.stop < c.pos + 2 ^ (22 + 1) := by
      simp only [Placement.stop, memBlockSize]
      omega
    have hroom : P.base + 2 ^ (22 + 1) < P.stop + 2 ^ 22 := by
      simp only [Placement.stop, memBlockSize]
      omega
    have hwrap := growthStart_of_wrap hc hafter le_rfl hroom
    rw [inv.data (by omega), hsize, hclog]
    omega
  have hchars : charsOf (run (pushStep t) (CharV.empty, g) bs) = bs := chars_pushAll hlive
  rw [charsOf, hdata, hsize] at hchars
  exact (readBytes_eq_iff.mp hchars).2 i hi

end Fits

end DartTorrent
