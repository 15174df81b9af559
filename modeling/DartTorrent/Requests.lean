import DartTorrent.Memory
import DartTorrent.Basis.GuardedRun

/-!
# Sequences of Requests

What `lt_allocate` does over a sequence of requests. Its callers do not look at the size:
`lt_allocator::allocate` passes on what a container asks for, and `lt_strdup` asks for the
length of its string and one. The one test in `lt_allocate` is of the sum of cursor and
request, and it is not made again after the cursor has gone back to the base.

## Main results

* `last_allocs_ne`: requests of less than half the arena move the cursor, wherever it stands.
* `arena_inBounds_iff`: every request of a run gets a block inside the arena, and leaves the
  cursor there, if and only if none is larger than the arena or wraps around the address space.
  With room above the arena the sizes alone decide (`arena_inBounds_iff_le`).
* `arena_overrun`: a request of one byte more than the arena.
* `blocks_of_budget`: the blocks of requests whose total and largest one fit in the arena
  together are inside it and disjoint, and the arena is reset at most once.
-/

open ByteStore BumpArena GuardedRun

namespace DartTorrent

/-! ### Any sequence of requests -/

/-- The globals after the requests `ns`. -/
def allocs (t : Target) (ns : List ℕ) (m : MemBlock) : MemBlock :=
  ns.foldl (fun m n => (ltAllocate t n m).2) m

@[simp] theorem allocs_nil (t : Target) (m : MemBlock) : allocs t [] m = m := rfl

@[simp] theorem allocs_cons (t : Target) (n : ℕ) (ns : List ℕ) (m : MemBlock) :
    allocs t (n :: ns) m = allocs t ns (ltAllocate t n m).2 := rfl

theorem allocs_append (t : Target) (ns ns' : List ℕ) (m : MemBlock) :
    allocs t (ns ++ ns') m = allocs t ns' (allocs t ns m) :=
  List.foldl_append

variable {t : Target} {P : Placement t} {m : MemBlock}

/-- The globals delimit the arena, and the cursor is any address. -/
structure Delimits (P : Placement t) (m : MemBlock) : Prop where
  base : m.gMemBlock = P.base
  stop : m.gMemBlockEnd = P.stop
  last_lt : m.gMemBlockLast < 2 ^ t.width

theorem delimits_ltAllocate (h : Delimits P m) (n : ℕ) : Delimits P (ltAllocate t n m).2 :=
  ⟨h.base, h.stop, Nat.mod_lt _ (Nat.two_pow_pos _)⟩

theorem delimits_allocs (h : Delimits P m) (ns : List ℕ) : Delimits P (allocs t ns m) := by
  induction ns generalizing m with
  | nil => exact h
  | cons n ns ih => exact ih (delimits_ltAllocate h n)

/-- The cursor after one request. -/
theorem last_ltAllocate (h : Delimits P m) (n : ℕ) :
    (m.gMemBlockLast + n) % 2 ^ t.width < P.stop ∧
        (ltAllocate t n m).2.gMemBlockLast = (m.gMemBlockLast + n) % 2 ^ t.width ∨
      P.stop ≤ (m.gMemBlockLast + n) % 2 ^ t.width ∧
        (ltAllocate t n m).2.gMemBlockLast = (P.base + n) % 2 ^ t.width := by
  rw [ltAllocate, h.base, h.stop]
  by_cases hreset : (m.gMemBlockLast + n) % 2 ^ t.width ≥ P.stop
  · exact Or.inr ⟨hreset, by rw [if_pos hreset]⟩
  · exact Or.inl ⟨not_le.mp hreset, by rw [if_neg hreset]⟩

/-- Requests of less than the arena add up, or leave the cursor near the base. -/
theorem last_allocs (h : Delimits P m) {ns : List ℕ} (hsum : ns.sum < memBlockSize) :
    (allocs t ns m).gMemBlockLast = (m.gMemBlockLast + ns.sum) % 2 ^ t.width ∨
      (P.base ≤ (allocs t ns m).gMemBlockLast ∧
        (allocs t ns m).gMemBlockLast ≤ P.base + ns.sum) := by
  induction ns generalizing m with
  | nil => exact Or.inl (Nat.mod_eq_of_lt h.last_lt).symm
  | cons n ns ih =>
      rw [List.sum_cons] at hsum ⊢
      have hroom := P.room
      rw [allocs_cons]
      have hrest := ih (delimits_ltAllocate h n) (by omega)
      rcases last_ltAllocate h n with ⟨-, hlast⟩ | ⟨-, hlast⟩
      · rw [hlast, Nat.mod_add_mod, Nat.add_assoc] at hrest
        rcases hrest with hrest | ⟨hge, hle⟩
        · exact Or.inl hrest
        · exact Or.inr ⟨hge, by omega⟩
      · rw [hlast, Nat.mod_add_mod, Nat.mod_eq_of_lt (by omega)] at hrest
        rcases hrest with hrest | ⟨hge, hle⟩
        · exact Or.inr ⟨by omega, by omega⟩
        · exact Or.inr ⟨hge, by omega⟩

/-- Requests that end below the end of the arena add up. -/
theorem last_allocs_of_lt (h : Delimits P m) {ns : List ℕ}
    (hlt : m.gMemBlockLast + ns.sum < P.stop) :
    (allocs t ns m).gMemBlockLast = m.gMemBlockLast + ns.sum := by
  induction ns generalizing m with
  | nil => rfl
  | cons n ns ih =>
      rw [List.sum_cons] at hlt ⊢
      have hroom := P.room
      have hstop : P.stop = P.base + memBlockSize := rfl
      have hmod : (m.gMemBlockLast + n) % 2 ^ t.width = m.gMemBlockLast + n :=
        Nat.mod_eq_of_lt (by omega)
      rcases last_ltAllocate h n with ⟨-, hlast⟩ | ⟨hge, -⟩
      · rw [hmod] at hlast
        rw [allocs_cons, ih (delimits_ltAllocate h n) (by omega), hlast, Nat.add_assoc]
      · omega

/-- **Requests move the cursor**: at least one byte, and less than half of the arena, wherever
the cursor stands and wherever a reset falls. -/
theorem last_allocs_ne (h : Delimits P m) {ns : List ℕ} (hpos : 0 < ns.sum)
    (hsum : 2 * ns.sum < memBlockSize) :
    (allocs t ns m).gMemBlockLast ≠ m.gMemBlockLast := by
  intro heq
  have hroom := P.room
  have hlt := h.last_lt
  have hstop : P.stop = P.base + memBlockSize := rfl
  have hless : ns.sum < memBlockSize := by omega
  rcases last_allocs h hless with hlast | ⟨-, hlast⟩
  · rw [heq] at hlast
    rcases Nat.lt_or_ge (m.gMemBlockLast + ns.sum) (2 ^ t.width) with hfits | hwraps
    · rw [Nat.mod_eq_of_lt hfits] at hlast
      omega
    · rw [Nat.mod_eq_sub_mod hwraps, Nat.mod_eq_of_lt (by omega)] at hlast
      omega
  · have hstraight := last_allocs_of_lt h (show m.gMemBlockLast + ns.sum < P.stop by omega)
    omega

/-! ### Bounds -/

/-- The globals after a request. -/
def allocStep (t : Target) (m : MemBlock) (n : ℕ) : MemBlock := (ltAllocate t n m).2

/-- A difference of pointers as a `ptrdiff_t`. -/
def ptrdiff (t : Target) (d : ℤ) : ℤ := d.bmod (2 ^ t.width)

/-- A request is served in bounds: `lt_allocate` fails visibly, with a null pointer, or returns
a block inside the arena, and `lt_cache_used` is between `0` and `MEM_BLOCK_SIZE` afterwards.
It has no other way to fail: it throws nothing. -/
def InBounds (A : Allocated t) (m : MemBlock) (n : ℕ) : Prop :=
  ((ltAllocate t n m).1 = 0 ∨ (Span.mk (ltAllocate t n m).1 n).Within A.base A.stop) ∧
    0 ≤ ptrdiff t (ltCacheUsed (allocStep t m n)) ∧
    ptrdiff t (ltCacheUsed (allocStep t m n)) ≤ memBlockSize

instance (A : Allocated t) (m : MemBlock) (n : ℕ) : Decidable (InBounds A m n) :=
  inferInstanceAs (Decidable (_ ∧ _))

/-- The request is not larger than the arena, and the sum of cursor and request does not wrap
around the address space. -/
def Servable (t : Target) (m : MemBlock) (n : ℕ) : Prop :=
  n ≤ memBlockSize ∧ m.gMemBlockLast + n < 2 ^ t.width

theorem two_mul_memBlockSize_lt (t : Target) : 2 * memBlockSize < 2 ^ t.width := by
  have hwidth : 24 < t.width := by
    rw [Target.width]
    split <;> omega
  calc 2 * memBlockSize = 2 ^ 24 := rfl
    _ < 2 ^ t.width := Nat.pow_lt_pow_right Nat.one_lt_two hwidth

section Bounds

variable {A : Allocated t} {c : BumpArena.Cursor A.base A.stop} {n : ℕ}

/-- `lt_cache_used` of a cursor in the arena is the same as a `ptrdiff_t`. -/
theorem ptrdiff_ltCacheUsed (c : BumpArena.Cursor A.base A.stop) :
    ptrdiff t (ltCacheUsed (A.block c)) = ltCacheUsed (A.block c) := by
  obtain ⟨hnonneg, hle⟩ := A.ltCacheUsed_bounds c
  have hsize : 2 * (memBlockSize : ℤ) < (2 ^ t.width : ℕ) := by
    exact_mod_cast two_mul_memBlockSize_lt t
  exact Int.bmod_eq_of_le_mul_two (by omega) (by omega)

/-- What a servable request gets and leaves: a block of the arena, and the cursor at its end. -/
theorem ltAllocate_of_servable (h : Servable t (A.block c) n) :
    ∃ r : BumpArena.Request A.base A.stop, r.val = n ∧
      ltAllocate t n (A.block c) = ((c.block r).start, A.block (c.alloc r)) :=
  ⟨⟨n, Nat.add_le_add_left h.1 _⟩, rfl, A.ltAllocate_of_lt c ⟨n, _⟩ h.2⟩

/-- A request of at most the arena whose sum with the cursor wraps around passes the test: its
block starts at the cursor. -/
theorem ltAllocate_of_wrap (hn : n ≤ memBlockSize) (h : 2 ^ t.width ≤ c.pos + n) :
    (ltAllocate t n (A.block c)).1 = c.pos := by
  have hfits := A.fits
  have hhi := c.pos_le_hi
  have hstop : A.stop = A.base + memBlockSize := rfl
  have hsum : (c.pos + n) % 2 ^ t.width = c.pos + n - 2 ^ t.width := by
    rw [Nat.mod_eq_sub_mod h, Nat.mod_eq_of_lt (by omega)]
  have hreset : ¬ (c.pos + n) % 2 ^ t.width ≥ A.stop := by omega
  rw [ltAllocate, Allocated.block]
  exact if_neg hreset

/-- A block starts at the cursor or at the base of the arena. -/
theorem ltAllocate_fst (t : Target) (n : ℕ) (m : MemBlock) :
    (ltAllocate t n m).1 = m.gMemBlock ∨ (ltAllocate t n m).1 = m.gMemBlockLast := by
  rw [ltAllocate]
  dsimp only
  split
  · exact Or.inl rfl
  · exact Or.inr rfl

/-- No block starts at the null address. -/
theorem ltAllocate_ne_zero (A : Allocated t) (c : BumpArena.Cursor A.base A.stop) (n : ℕ) :
    (ltAllocate t n (A.block c)).1 ≠ 0 := by
  have hbase := A.base_pos
  have hlo := c.lo_le_pos
  rcases ltAllocate_fst t n (A.block c) with h | h <;> rw [h, Allocated.block] <;> dsimp only <;>
    omega

/-- **One request** is served in bounds exactly when it is servable. -/
theorem inBounds_iff : InBounds A (A.block c) n ↔ Servable t (A.block c) n := by
  constructor
  · rintro ⟨hblock, -⟩
    obtain ⟨hstart, hstop⟩ := hblock.resolve_left (ltAllocate_ne_zero A c n)
    have hsize : A.stop = A.base + memBlockSize := rfl
    have hn : n ≤ memBlockSize := by
      simp only [Span.stop] at hstart hstop
      omega
    refine ⟨hn, Nat.lt_of_not_le fun hwrap => ?_⟩
    have hfits := A.fits
    have hwrap : 2 ^ t.width ≤ c.pos + n := hwrap
    rw [Span.stop, ltAllocate_of_wrap hn hwrap] at hstop
    dsimp only at hstop
    omega
  · intro h
    obtain ⟨r, rfl, halloc⟩ := ltAllocate_of_servable h
    rw [InBounds, allocStep, halloc, ptrdiff_ltCacheUsed]
    exact ⟨Or.inr (c.block_within r), A.ltCacheUsed_bounds _⟩

/-- The cursor is in the arena. -/
def InArena (A : Allocated t) (m : MemBlock) : Prop := ∃ c, m = A.block c

/-- A servable request leaves the cursor in the arena. -/
theorem inArena_step {m : MemBlock} (inv : InArena A m) (h : Servable t m n) :
    InArena A (allocStep t m n) := by
  obtain ⟨c, rfl⟩ := inv
  obtain ⟨r, -, halloc⟩ := ltAllocate_of_servable h
  exact ⟨c.alloc r, congrArg Prod.snd halloc⟩

end Bounds

/-- **Every request of a run is served in bounds exactly when all are servable.** For every
sequence of requests of any size from start-up, wherever `malloc` has put the arena and with
pointer arithmetic modulo the address width: each `lt_allocate` fails visibly or returns a block
inside the arena, and `lt_cache_used` is between `0` and `MEM_BLOCK_SIZE` after each, if and only
if no request is larger than the arena or wraps around the address space. -/
theorem arena_inBounds_iff (A : Allocated t) (ns : List ℕ) :
    Along (allocStep t) (InBounds A) (ltInitStrCache A.base) ns ↔
      Along (allocStep t) (Servable t) (ltInitStrCache A.base) ns := by
  have hstep : ∀ m n, InArena A m → True → Servable t m n → InArena A (allocStep t m n) :=
    fun m n inv _ h => inArena_step inv h
  have hbounds : ∀ m n, InArena A m → True → (InBounds A m n ↔ Servable t m n) := by
    rintro _ n ⟨c, rfl⟩ -
    exact inBounds_iff
  exact along_iff_of_inv hstep hbounds ⟨A.start, A.ltInitStrCache_eq⟩
    (along_of_forall_mem fun _ _ => trivial)

/-- **A request of one byte more than the arena** is served from its base: the block runs out of
the arena, and so does the cursor. -/
theorem arena_overrun :
    let A := Placement.low.allocated
    let m := ltInitStrCache A.base
    (ltAllocate Target.x64 (memBlockSize + 1) m).1 = A.base ∧
      ltCacheUsed (allocStep Target.x64 m (memBlockSize + 1)) = memBlockSize + 1 ∧
      ¬ Along (allocStep Target.x64) (InBounds A) m [memBlockSize + 1] := by
  intro A m
  refine ⟨by decide +kernel, by decide +kernel, fun h => ?_⟩
  obtain ⟨hn, -⟩ := (inBounds_iff (A := A) (c := A.start)).mp h.1
  exact Nat.not_succ_le_self _ hn

/-- With as much address space above the arena as it takes, the sizes alone decide. -/
theorem arena_inBounds_iff_le (P : Placement t) (ns : List ℕ) :
    Along (allocStep t) (InBounds P.allocated) (ltInitStrCache P.base) ns ↔
      ∀ n ∈ ns, n ≤ memBlockSize := by
  have hservable : ∀ m n, InArena P.allocated m → (Servable t m n ↔ n ≤ memBlockSize) := by
    rintro _ n ⟨c, rfl⟩
    refine and_iff_left_of_imp fun hn => ?_
    have hroom := P.room
    have hhi : c.pos ≤ P.base + memBlockSize := c.pos_le_hi
    show c.pos + n < 2 ^ t.width
    omega
  have hstep : ∀ m n, InArena P.allocated m → True → n ≤ memBlockSize →
      InArena P.allocated (allocStep t m n) :=
    fun m n inv _ hn => inArena_step inv ((hservable m n inv).mpr hn)
  have hbounds : ∀ m n, InArena P.allocated m → True →
      (InBounds P.allocated m n ↔ n ≤ memBlockSize) := by
    intro m n inv _
    obtain ⟨c, rfl⟩ := inv
    exact inBounds_iff.trans (hservable _ n ⟨c, rfl⟩)
  rw [← along_event_iff]
  exact along_iff_of_inv hstep hbounds ⟨P.allocated.start, rfl⟩
    (along_of_forall_mem fun _ _ => trivial)

/-! ### The blocks of a sequence of requests -/

/-- The blocks that the requests `ns` get. -/
def allocSpans (t : Target) : List ℕ → MemBlock → List Span
  | [], _ => []
  | n :: ns, m => ⟨(ltAllocate t n m).1, n⟩ :: allocSpans t ns (allocStep t m n)

/-- How often the test of `lt_allocate` resets the arena. -/
def resets (t : Target) : List ℕ → MemBlock → ℕ
  | [], _ => 0
  | n :: ns, m =>
      (if (m.gMemBlockLast + n) % 2 ^ t.width ≥ m.gMemBlockEnd then 1 else 0) +
        resets t ns (allocStep t m n)

/-- **The blocks are those of the bump arena**, for requests that it could hold, and so are the
resets. -/
theorem allocSpans_eq (P : Placement t) (c : P.Cursor) {ns : List ℕ}
    (hns : ∀ n ∈ ns, n ≤ memBlockSize) :
    allocSpans t ns (P.block c) = blocksFrom P.base P.stop c.pos ns ∧
      resets t ns (P.block c) = wraps P.base P.stop c.pos ns := by
  induction ns generalizing c with
  | nil => exact ⟨rfl, rfl⟩
  | cons n ns ih =>
      obtain ⟨hn, hrest⟩ := List.forall_mem_cons.mp hns
      have halloc := ltAllocate_eq P c (P.request n hn)
      have hstep : allocStep t (P.block c) n = P.block (c.alloc (P.request n hn)) :=
        congrArg Prod.snd halloc
      have hstart : (ltAllocate t n (P.block c)).1 = place P.base P.stop c.pos n :=
        congrArg Prod.fst halloc
      obtain ⟨hspans, hresets⟩ := ih (c.alloc (P.request n hn)) hrest
      have hroom := P.room
      have hhi : c.pos ≤ P.base + memBlockSize := c.pos_le_hi
      have hsum : (c.pos + n) % 2 ^ t.width = c.pos + n := Nat.mod_eq_of_lt (by omega)
      rw [allocSpans, resets, hstep, hstart, hspans, hresets, wraps, Placement.block]
      dsimp only
      rw [hsum]
      exact ⟨rfl, rfl⟩

/-- **Blocks stay valid within the budget of the arena.** From every cursor, for every sequence
of requests whose total and largest one fit in the arena together: the blocks lie inside the
arena and are disjoint, wherever the arena is reset, and it is reset at most once. A string in
one of them stays whatever is written to those handed out after it. -/
theorem blocks_of_budget (P : Placement t) (c : P.Cursor) (ns : List ℕ) (m : ℕ)
    (hmax : ∀ n ∈ ns, n ≤ m) (hbudget : ns.sum + m ≤ memBlockSize) :
    let bs := allocSpans t ns (P.block c)
    (∀ b ∈ bs, b.Within P.base P.stop) ∧ (bs.Pairwise fun b b' => ¬ b.Overlaps b') ∧
      resets t ns (P.block c) ≤ 1 ∧
      ∀ pre b post, bs = pre ++ b :: post → ∀ (mem mem' : Mem UInt8) (s : List UInt8),
        s.length + 1 ≤ b.len → Holds 0 mem b.start s → AgreesOff post mem mem' →
          Holds 0 mem' b.start s := by
  intro bs
  have hregion : P.base < P.stop := Nat.lt_add_of_pos_right memBlockSize_pos
  have hns : ∀ n ∈ ns, n ≤ memBlockSize := fun n hn => by
    have hle := hmax n hn
    omega
  have hroom : P.base + ns.sum + m ≤ P.stop := by
    rw [Placement.stop]
    omega
  obtain ⟨hspans, hresets⟩ := allocSpans_eq P c hns
  have hdisjoint : bs.Pairwise fun b b' => ¬ b.Overlaps b' := by
    rw [show bs = _ from hspans]
    exact pairwise_of_budget c.pos hmax hroom
  refine ⟨fun b hb => ?_, hdisjoint, ?_, fun pre b post hbs mem mem' s hlen hheld hagree => ?_⟩
  · rw [show bs = _ from hspans] at hb
    exact within_of_mem_blocksFrom c (fun n hn => Nat.add_le_add_left (hns n hn) _) hb
  · rw [hresets]
    exact wraps_le_one c.pos hregion hmax hroom
  · exact Holds.of_pairwise (hbs ▸ hdisjoint) hheld hlen hagree

/-- Requests eight bytes before the end of the arena. -/
theorem blocks_of_budget_at_end :
    let c := Placement.low.cursorAt (memBlockSize - 8) (Nat.sub_le _ _)
    let bs := allocSpans Target.x64 [4, 16, 3] (Placement.low.block c)
    (∀ b ∈ bs, b.Within Placement.low.base Placement.low.stop) ∧
      (bs.Pairwise fun b b' => ¬ b.Overlaps b') ∧
      resets Target.x64 [4, 16, 3] (Placement.low.block c) ≤ 1 ∧
      ∀ pre b post, bs = pre ++ b :: post → ∀ (mem mem' : Mem UInt8) (s : List UInt8),
        s.length + 1 ≤ b.len → Holds 0 mem b.start s → AgreesOff post mem mem' →
          Holds 0 mem' b.start s := by
  intro c
  exact blocks_of_budget Placement.low c [4, 16, 3] 16 (by decide) (by decide +kernel)

end DartTorrent
