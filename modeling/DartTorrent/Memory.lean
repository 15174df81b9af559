import DartTorrent.Basis.BumpArena

/-!
# The String Arena

The model of `memory.cpp` and `memory.hpp`: one block of 8MB, allocated at start-up, from
which `lt_allocate` hands out blocks by advancing a cursor. When a request reaches the end
of the block the cursor goes back to the base; nothing is ever freed, and
`lt_allocator::deallocate` does nothing. Pointer arithmetic is modulo the address width of
the target, as the code computes it.

The model is at the level of the three global pointers. `ltAllocate_eq` connects it to the
bump arena of `DartTorrent.Basis.BumpArena`: for a block that lies in the address space
with room above it, and requests up to the size of the block, the two agree. Without the
room they agree where the sum of cursor and request does not wrap around
(`Allocated.ltAllocate_of_lt`).
-/

open ByteStore BumpArena

namespace DartTorrent

/-- `MEM_BLOCK_SIZE`: 8MB. -/
def memBlockSize : ℕ := 8 * 1024 * 1024

theorem memBlockSize_eq : memBlockSize = 2 ^ 23 := rfl

theorem memBlockSize_pos : 0 < memBlockSize := Nat.two_pow_pos 23

/-- Half the arena. -/
theorem two_pow_lt_memBlockSize : 2 ^ 22 < memBlockSize :=
  Nat.pow_lt_pow_right Nat.one_lt_two (Nat.lt_succ_self 22)

/-- What the model needs to know of a build target: the width of `size_t` and of pointers,
and whether `char` is signed. -/
structure Target where
  is64 : Bool
  charSigned : Bool
deriving DecidableEq, Repr

/-- The width of `size_t` and of pointers, in bits. -/
def Target.width (t : Target) : ℕ := if t.is64 then 64 else 32

/-- The globals of `memory.cpp`. -/
structure MemBlock where
  gMemBlock : ℕ
  gMemBlockLast : ℕ
  gMemBlockEnd : ℕ
deriving DecidableEq, Repr

/-- `lt_init_str_cache`: the globals after start-up, `malloc` having returned `p`. -/
def ltInitStrCache (p : ℕ) : MemBlock := ⟨p, p, p + memBlockSize⟩

/-- `lt_cache_used`. -/
def ltCacheUsed (m : MemBlock) : ℤ := m.gMemBlockLast - m.gMemBlock

/-- `lt_allocate`: the block's address and the globals after the call. -/
def ltAllocate (t : Target) (n : ℕ) (m : MemBlock) : ℕ × MemBlock :=
  let last :=
    if (m.gMemBlockLast + n) % 2 ^ t.width ≥ m.gMemBlockEnd then m.gMemBlock
    else m.gMemBlockLast
  (last, { m with gMemBlockLast := (last + n) % 2 ^ t.width })

/-- What `malloc` promises of the arena: it is not at the null address, and its end is an
address. -/
structure Allocated (t : Target) where
  base : ℕ
  base_pos : 0 < base
  fits : base + memBlockSize < 2 ^ t.width

namespace Allocated

variable {t : Target} (A : Allocated t)

/-- The first address after the arena. -/
def stop : ℕ := A.base + memBlockSize

/-- The globals with the cursor at `c`. -/
def block (c : BumpArena.Cursor A.base A.stop) : MemBlock := ⟨A.base, c.pos, A.stop⟩

/-- The cursor at start-up. -/
def start : BumpArena.Cursor A.base A.stop := ⟨A.base, le_rfl, Nat.le_add_right _ _⟩

theorem ltInitStrCache_eq : ltInitStrCache A.base = A.block A.start := rfl

/-- **Where the sum of cursor and request does not wrap around**, `lt_allocate` is the
arena's `alloc`. -/
theorem ltAllocate_of_lt (c : BumpArena.Cursor A.base A.stop)
    (n : BumpArena.Request A.base A.stop) (h : c.pos + n < 2 ^ t.width) :
    ltAllocate t n (A.block c) = ((c.block n).start, A.block (c.alloc n)) := by
  obtain ⟨n, hn⟩ := n
  dsimp only at h
  have hsum : (c.pos + n) % 2 ^ t.width = c.pos + n := Nat.mod_eq_of_lt h
  have hplace : place A.base A.stop c.pos n ≤ c.pos := by
    rcases place_cases A.base A.stop c.pos n with ⟨-, h⟩ | ⟨-, h⟩
    · exact h.le
    · exact h.trans_le c.lo_le_pos
  have hadv : (place A.base A.stop c.pos n + n) % 2 ^ t.width =
      place A.base A.stop c.pos n + n := Nat.mod_eq_of_lt (by omega)
  have hlast : (if (c.pos + n) % 2 ^ t.width ≥ A.stop then A.base else c.pos) =
      place A.base A.stop c.pos n := by rw [hsum]; rfl
  rw [ltAllocate, block]
  dsimp only
  rw [hlast, hadv]
  rfl

/-- `lt_cache_used` of a cursor in the arena is between `0` and `MEM_BLOCK_SIZE`. -/
theorem ltCacheUsed_bounds (c : BumpArena.Cursor A.base A.stop) :
    0 ≤ ltCacheUsed (A.block c) ∧ ltCacheUsed (A.block c) ≤ memBlockSize := by
  have hlo := c.lo_le_pos
  have hhi := c.pos_le_hi
  simp only [stop] at hhi
  simp only [ltCacheUsed, block]
  omega

end Allocated

/-- Where `malloc` put the arena: not at the null address, and with as much address space
above it as the arena takes, so that a cursor plus a request of at most `MEM_BLOCK_SIZE`
does not wrap around. -/
structure Placement (t : Target) where
  base : ℕ
  base_pos : 0 < base
  room : base + 2 * memBlockSize < 2 ^ t.width

/-- A 64-bit target with signed characters. -/
def Target.x64 : Target := ⟨true, true⟩

/-- An arena low in the address space of `Target.x64`. -/
def Placement.low : Placement Target.x64 := ⟨4096, by decide, by decide⟩

namespace Placement

variable {t : Target}

/-- The first address after the arena. -/
def stop (P : Placement t) : ℕ := P.base + memBlockSize

/-- A cursor of the arena: any value of `g_mem_block_last` from its base to its end. -/
abbrev Cursor (P : Placement t) := BumpArena.Cursor P.base P.stop

/-- A request of at most `MEM_BLOCK_SIZE` bytes. -/
abbrev Request (P : Placement t) := BumpArena.Request P.base P.stop

/-- A request from its bound. -/
def request (P : Placement t) (n : ℕ) (h : n ≤ memBlockSize) : P.Request :=
  ⟨n, Nat.add_le_add_left h _⟩

@[simp] theorem request_val (P : Placement t) {n : ℕ} (h : n ≤ memBlockSize) :
    (P.request n h).val = n := rfl

/-- The globals with the cursor at `c`. -/
def block (P : Placement t) (c : P.Cursor) : MemBlock := ⟨P.base, c.pos, P.stop⟩

/-- The cursor at start-up. -/
def start (P : Placement t) : P.Cursor := ⟨P.base, le_rfl, Nat.le_add_right _ _⟩

/-- The cursor `used` bytes into the arena. -/
def cursorAt (P : Placement t) (used : ℕ) (h : used ≤ memBlockSize) : P.Cursor :=
  ⟨P.base + used, Nat.le_add_right _ _, Nat.add_le_add_left h _⟩

theorem ltInitStrCache_eq (P : Placement t) : ltInitStrCache P.base = P.block P.start := rfl

/-- An arena with room above it. -/
def allocated (P : Placement t) : Allocated t where
  base := P.base
  base_pos := P.base_pos
  fits := by
    have hroom := P.room
    omega

end Placement

variable {t : Target}

/-- **`lt_allocate` is the bump arena**: for a request of at most `MEM_BLOCK_SIZE` bytes the
sum of cursor and request does not wrap around, and the call is the arena's `alloc`. -/
theorem ltAllocate_eq (P : Placement t) (c : P.Cursor) (n : P.Request) :
    ltAllocate t n (P.block c) = ((c.block n).start, P.block (c.alloc n)) := by
  obtain ⟨n, hn⟩ := n
  have hroom := P.room
  have hpos := c.pos_le_hi
  simp only [Placement.stop] at hn hpos
  exact P.allocated.ltAllocate_of_lt c ⟨n, hn⟩ (show c.pos + n < 2 ^ t.width by omega)

/-- `lt_cache_used` stays between `0` and `MEM_BLOCK_SIZE`. -/
theorem ltCacheUsed_bounds (P : Placement t) (c : P.Cursor) :
    0 ≤ ltCacheUsed (P.block c) ∧ ltCacheUsed (P.block c) ≤ memBlockSize :=
  P.allocated.ltCacheUsed_bounds c

end DartTorrent
