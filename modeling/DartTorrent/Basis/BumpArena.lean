import DartTorrent.Basis.ByteStore
import Mathlib.Data.Nat.Log
import Mathlib.Order.MinMax
import Mathlib.Tactic.Ring

/-!
# A Bump Arena That Wraps

A bump arena hands out blocks of a fixed region `[lo, hi)` by advancing a cursor. When a
request does not fit strictly below `hi`, the cursor first goes back to `lo`; nothing is
ever freed. A `Cursor` carries the proof that it lies in the region, and a `Request` the
proof that the region could hold it, so that every block handed out lies inside.

## Main results

* `block_within`: every block lies inside the region.
* `not_overlaps_next`: two blocks handed out one after the other are disjoint when the
  region has room for the first and twice the second, wherever the cursor stood.
* `straight_iff` / `after_of_straight`: requests that are served without a wrap.
* `not_overlaps_of_budget` / `pairwise_of_budget` / `wraps_le_one`: requests whose total and
  largest one the region could hold together get disjoint blocks, and the cursor goes back at
  most once.
* `growthStart_of_lt` / `growthStart_of_wrap`: where a buffer that doubles its capacity
  `1, 2, 4, …` stands in the arena, before and after the cursor went back.
* `sum_growthRequests` / `growth_mem_blocksFrom`: what the growths take, and where.
* `exists_wrap`: the growth at which the cursor goes back.
* `exists_growth_covering`: the growth whose block covers a given address.
-/

namespace BumpArena

open ByteStore

/-- Where a block of `n` cells starts when the cursor stands at `pos`. -/
def place (lo hi pos n : ℕ) : ℕ := if hi ≤ pos + n then lo else pos

theorem place_of_lt {lo hi pos n : ℕ} (h : pos + n < hi) : place lo hi pos n = pos :=
  if_neg (by omega)

theorem place_of_le {lo hi pos n : ℕ} (h : hi ≤ pos + n) : place lo hi pos n = lo :=
  if_pos h

/-- A block starts at the cursor or at the base of the region. -/
theorem place_cases (lo hi pos n : ℕ) :
    (pos + n < hi ∧ place lo hi pos n = pos) ∨ (hi ≤ pos + n ∧ place lo hi pos n = lo) := by
  by_cases h : hi ≤ pos + n
  · exact Or.inr ⟨h, place_of_le h⟩
  · exact Or.inl ⟨by omega, place_of_lt (by omega)⟩

/-- A request that the empty region could serve leaves the cursor below its end. -/
theorem place_add_lt {lo hi pos n : ℕ} (h : lo + n < hi) : place lo hi pos n + n < hi := by
  rcases place_cases lo hi pos n with ⟨hlt, hp⟩ | ⟨-, hp⟩ <;> omega

/-- A cursor of the region `[lo, hi)`. -/
structure Cursor (lo hi : ℕ) where
  pos : ℕ
  lo_le_pos : lo ≤ pos
  pos_le_hi : pos ≤ hi

/-- A request that the region could hold. -/
abbrev Request (lo hi : ℕ) := { n : ℕ // lo + n ≤ hi }

variable {lo hi : ℕ}

/-- The block that a request gets. -/
def Cursor.block (c : Cursor lo hi) (n : Request lo hi) : Span := ⟨place lo hi c.pos n, n⟩

@[simp] theorem Cursor.block_start (c : Cursor lo hi) (n : Request lo hi) :
    (c.block n).start = place lo hi c.pos n := rfl

@[simp] theorem Cursor.block_stop (c : Cursor lo hi) (n : Request lo hi) :
    (c.block n).stop = place lo hi c.pos n + n := rfl

/-- **Every block lies inside the region.** -/
theorem Cursor.block_within (c : Cursor lo hi) (n : Request lo hi) :
    (c.block n).Within lo hi := by
  obtain ⟨n, hn⟩ := n
  have hc := c.lo_le_pos
  rcases place_cases lo hi c.pos n with ⟨h, hp⟩ | ⟨h, hp⟩ <;>
    simp only [Cursor.block, Span.Within, Span.stop, hp] <;> omega

/-- The cursor after a request: at the end of the block it got. -/
def Cursor.alloc (c : Cursor lo hi) (n : Request lo hi) : Cursor lo hi where
  pos := (c.block n).stop
  lo_le_pos := (c.block_within n).1.trans (Nat.le_add_right _ _)
  pos_le_hi := (c.block_within n).2

@[simp] theorem Cursor.alloc_pos (c : Cursor lo hi) (n : Request lo hi) :
    (c.alloc n).pos = place lo hi c.pos n + n := rfl

/-- **Two blocks in a row are disjoint** when the region has room for the first and twice
the second: if the cursor went back in between, the first block stood near the end. -/
theorem not_overlaps_next {p a b : ℕ} (hroom : lo + a + 2 * b ≤ hi) :
    ¬ (Span.mk p a).Overlaps ⟨place lo hi (p + a) b, b⟩ := by
  rcases place_cases lo hi (p + a) b with ⟨h, hp⟩ | ⟨h, hp⟩ <;>
    simp only [Span.Overlaps, Span.stop, hp] <;> omega

/-! ### Sequences of requests -/

/-- The cursor after the requests `ns`, served in order from `pos`. -/
def after (lo hi pos : ℕ) (ns : List ℕ) : ℕ :=
  ns.foldl (fun pos n => place lo hi pos n + n) pos

@[simp] theorem after_nil (lo hi pos : ℕ) : after lo hi pos [] = pos := rfl

@[simp] theorem after_cons (lo hi pos n : ℕ) (ns : List ℕ) :
    after lo hi pos (n :: ns) = after lo hi (place lo hi pos n + n) ns := rfl

theorem after_append (lo hi pos : ℕ) (ns ns' : List ℕ) :
    after lo hi pos (ns ++ ns') = after lo hi (after lo hi pos ns) ns' :=
  List.foldl_append

theorem after_concat (lo hi pos : ℕ) (ns : List ℕ) (n : ℕ) :
    after lo hi pos (ns ++ [n]) =
      place lo hi (after lo hi pos ns) n + n := by
  rw [after_append, after_cons, after_nil]

/-- The blocks that the requests `ns` get, served in order from `pos`. -/
def blocksFrom (lo hi : ℕ) : ℕ → List ℕ → List Span
  | _, [] => []
  | pos, n :: ns =>
      ⟨place lo hi pos n, n⟩ :: blocksFrom lo hi (place lo hi pos n + n) ns

@[simp] theorem blocksFrom_nil (lo hi pos : ℕ) : blocksFrom lo hi pos [] = [] := rfl

@[simp] theorem blocksFrom_cons (lo hi pos n : ℕ) (ns : List ℕ) :
    blocksFrom lo hi pos (n :: ns) =
      ⟨place lo hi pos n, n⟩ :: blocksFrom lo hi (place lo hi pos n + n) ns := rfl

theorem blocksFrom_append (lo hi pos : ℕ) (ns ns' : List ℕ) :
    blocksFrom lo hi pos (ns ++ ns') =
      blocksFrom lo hi pos ns ++ blocksFrom lo hi (after lo hi pos ns) ns' := by
  induction ns generalizing pos with
  | nil => rfl
  | cons n ns ih => rw [List.cons_append, blocksFrom_cons, ih, blocksFrom_cons]; rfl

/-! ### Requests without a wrap -/

/-- The requests `ns` are served from `pos` without the cursor going back. -/
def Straight (hi : ℕ) : ℕ → List ℕ → Prop
  | _, [] => True
  | pos, n :: ns => pos + n < hi ∧ Straight hi (pos + n) ns

instance (hi : ℕ) : ∀ (pos : ℕ) (ns : List ℕ), Decidable (Straight hi pos ns)
  | _, [] => isTrue trivial
  | pos, n :: ns =>
      have : Decidable (Straight hi (pos + n) ns) := instDecidableStraight hi (pos + n) ns
      inferInstanceAs (Decidable (pos + n < hi ∧ Straight hi (pos + n) ns))

theorem straight_append {pos : ℕ} {ns ns' : List ℕ} :
    Straight hi pos (ns ++ ns') ↔ Straight hi pos ns ∧ Straight hi (pos + ns.sum) ns' := by
  induction ns generalizing pos with
  | nil => simp [Straight]
  | cons n ns ih =>
      rw [List.cons_append, Straight, ih, Straight, List.sum_cons, Nat.add_assoc, and_assoc]

/-- **No wrap**: the requests end below the end of the region, if there are any. -/
theorem straight_iff {pos : ℕ} {ns : List ℕ} :
    Straight hi pos ns ↔ ns = [] ∨ pos + ns.sum < hi := by
  induction ns generalizing pos with
  | nil => simp [Straight]
  | cons n ns ih =>
      rw [Straight, ih, List.sum_cons]
      constructor
      · rintro ⟨hn, rfl | hrest⟩
        · exact Or.inr (by simpa using hn)
        · exact Or.inr (by omega)
      · rintro (hnil | hsum)
        · exact absurd hnil (List.cons_ne_nil _ _)
        · exact ⟨by omega, Or.inr (by omega)⟩

/-- Without a wrap the cursor advances by the sum of the requests. -/
theorem after_of_straight (lo : ℕ) {pos : ℕ} {ns : List ℕ} (h : Straight hi pos ns) :
    after lo hi pos ns = pos + ns.sum := by
  induction ns generalizing pos with
  | nil => rfl
  | cons n ns ih => rw [after_cons, place_of_lt h.1, ih h.2, List.sum_cons, Nat.add_assoc]

/-- Without a wrap the blocks start at the cursor or behind it. -/
theorem le_start_of_straight {pos : ℕ} {ns : List ℕ} (h : Straight hi pos ns) {b : Span}
    (hb : b ∈ blocksFrom lo hi pos ns) : pos ≤ b.start := by
  induction ns generalizing pos with
  | nil => exact absurd hb List.not_mem_nil
  | cons n ns ih =>
      rw [blocksFrom_cons, place_of_lt h.1] at hb
      rcases List.mem_cons.mp hb with rfl | hb
      · exact le_rfl
      · exact (Nat.le_add_right _ _).trans (ih h.2 hb)

/-- Without a wrap the blocks lie between the cursor before the requests and after them. -/
theorem within_of_straight {pos : ℕ} {ns : List ℕ} (h : Straight hi pos ns) {b : Span}
    (hb : b ∈ blocksFrom lo hi pos ns) : b.Within pos (pos + ns.sum) := by
  induction ns generalizing pos with
  | nil => exact absurd hb List.not_mem_nil
  | cons n ns ih =>
      rw [blocksFrom_cons, place_of_lt h.1] at hb
      rw [List.sum_cons, ← Nat.add_assoc]
      rcases List.mem_cons.mp hb with rfl | hb
      · exact ⟨le_rfl, Nat.le_add_right _ _⟩
      · obtain ⟨hstart, hstop⟩ := ih h.2 hb
        exact ⟨(Nat.le_add_right _ _).trans hstart, hstop⟩

/-! ### Requests with one wrap -/

/-- How often the cursor goes back while the requests `ns` are served from `pos`. -/
def wraps (lo hi : ℕ) : ℕ → List ℕ → ℕ
  | _, [] => 0
  | pos, n :: ns => (if hi ≤ pos + n then 1 else 0) + wraps lo hi (place lo hi pos n + n) ns

theorem wraps_append (lo hi pos : ℕ) (ns ns' : List ℕ) :
    wraps lo hi pos (ns ++ ns') = wraps lo hi pos ns + wraps lo hi (after lo hi pos ns) ns' := by
  induction ns generalizing pos with
  | nil => simp [wraps]
  | cons n ns ih => rw [List.cons_append, wraps, ih, wraps, after_cons, Nat.add_assoc]

theorem wraps_of_straight (lo : ℕ) {pos : ℕ} {ns : List ℕ} (h : Straight hi pos ns) :
    wraps lo hi pos ns = 0 := by
  induction ns generalizing pos with
  | nil => rfl
  | cons n ns ih => rw [wraps, if_neg (by have := h.1; omega), place_of_lt h.1, ih h.2]

/-- Every block of requests that the region could hold lies inside it. -/
theorem within_of_mem_blocksFrom (c : Cursor lo hi) {ns : List ℕ} (hns : ∀ n ∈ ns, lo + n ≤ hi)
    {b : Span} (hb : b ∈ blocksFrom lo hi c.pos ns) : b.Within lo hi := by
  induction ns generalizing c with
  | nil => exact absurd hb List.not_mem_nil
  | cons n ns ih =>
      obtain ⟨hn, hrest⟩ := List.forall_mem_cons.mp hns
      rcases List.mem_cons.mp hb with rfl | hb
      · exact c.block_within ⟨n, hn⟩
      · exact ih (c.alloc ⟨n, hn⟩) hrest hb

/-- The first request at which the cursor goes back, if there is one. -/
theorem straight_or_wrap (hi pos : ℕ) (ns : List ℕ) :
    Straight hi pos ns ∨
      ∃ pre n post, ns = pre ++ n :: post ∧ Straight hi pos pre ∧ hi ≤ pos + pre.sum + n := by
  induction ns generalizing pos with
  | nil => exact Or.inl trivial
  | cons n ns ih =>
      rcases Nat.lt_or_ge (pos + n) hi with hlt | hge
      · rcases ih (pos + n) with hrest | ⟨pre, k, post, rfl, hpre, hk⟩
        · exact Or.inl ⟨hlt, hrest⟩
        · refine Or.inr ⟨n :: pre, k, post, rfl, ⟨hlt, hpre⟩, ?_⟩
          rwa [List.sum_cons, ← Nat.add_assoc]
      · exact Or.inr ⟨[], n, ns, rfl, trivial, hge⟩

section Budget

variable {pos m : ℕ} {ns : List ℕ}

/-- Requests in the budget end below the end of the region when served from its base. -/
theorem sum_lt_of_budget (hregion : lo < hi) (hmax : ∀ n ∈ ns, n ≤ m)
    (hbudget : lo + ns.sum + m ≤ hi) : lo + ns.sum < hi := by
  rcases Nat.eq_zero_or_pos m with rfl | hm
  · have hsum : ns.sum = 0 := List.sum_eq_zero_iff_forall_eq_nat.mpr fun n hn =>
      Nat.le_zero.mp (hmax n hn)
    omega
  · omega

/-- **Requests in the budget are served in at most two straight runs**: the first from the
cursor, the second from the base of the region. -/
theorem straight_runs_of_budget (pos : ℕ) (hregion : lo < hi) (hmax : ∀ n ∈ ns, n ≤ m)
    (hbudget : lo + ns.sum + m ≤ hi) :
    Straight hi pos ns ∨
      ∃ pre n post, ns = pre ++ n :: post ∧ Straight hi pos pre ∧ hi ≤ pos + pre.sum + n ∧
        Straight hi lo (n :: post) := by
  rcases straight_or_wrap hi pos ns with hstraight | ⟨pre, n, post, rfl, hpre, hwrap⟩
  · exact Or.inl hstraight
  · have hlt := sum_lt_of_budget hregion hmax hbudget
    rw [List.sum_append] at hlt
    exact Or.inr ⟨pre, n, post, rfl, hpre, hwrap, straight_iff.mpr (Or.inr (by omega))⟩

/-- A request at which the cursor goes back is served as from the base of the region. -/
theorem blocksFrom_of_wrap {n : ℕ} (h : hi ≤ pos + n) (ns : List ℕ) :
    blocksFrom lo hi pos (n :: ns) = blocksFrom lo hi lo (n :: ns) := by
  have hplace : place lo hi lo n = lo := by
    rcases place_cases lo hi lo n with ⟨-, hp⟩ | ⟨-, hp⟩ <;> exact hp
  rw [blocksFrom_cons, blocksFrom_cons, place_of_le h, hplace]

/-- **The block handed out last is clear of later requests** as long as these are in the budget
together with it. -/
theorem not_overlaps_of_budget {p a : ℕ} (hlast : p + a = pos) (hmax : ∀ n ∈ ns, n ≤ m)
    (hbudget : lo + (a + ns.sum) + m ≤ hi) {b : Span} (hb : b ∈ blocksFrom lo hi pos ns) :
    ¬ b.Overlaps ⟨p, a⟩ := by
  rcases Nat.eq_zero_or_pos a with rfl | ha
  · exact Span.not_overlaps_of_empty rfl
  have hahead : ∀ ns, Straight hi pos ns → b ∈ blocksFrom lo hi pos ns →
      ¬ b.Overlaps ⟨p, a⟩ := fun ns hns hb =>
    Span.not_overlaps_of_le_start (hlast.trans_le (le_start_of_straight hns hb))
  have hregion : lo < hi := by omega
  rcases straight_runs_of_budget pos hregion hmax (by omega) with
    hstraight | ⟨pre, n, post, rfl, hpre, hwrap, hpost⟩
  · exact hahead ns hstraight hb
  · have hn := hmax n (List.mem_append_right _ List.mem_cons_self)
    rw [blocksFrom_append, after_of_straight lo hpre, blocksFrom_of_wrap hwrap] at hb
    rcases List.mem_append.mp hb with hb | hb
    · exact hahead pre hpre hb
    · -- served from the base, and the cursor was at least the block and `pre` below the end
      have hstop := (within_of_straight hpost hb).2
      rw [List.sum_append] at hbudget
      rw [List.sum_cons] at hbudget hstop
      refine Span.not_overlaps_of_stop_le (hstop.trans ?_)
      dsimp only
      omega

/-- **The blocks of requests in the budget are disjoint**, wherever the cursor goes back. -/
theorem pairwise_of_budget (pos : ℕ) (hmax : ∀ n ∈ ns, n ≤ m) (hbudget : lo + ns.sum + m ≤ hi) :
    (blocksFrom lo hi pos ns).Pairwise fun b b' => ¬ b.Overlaps b' := by
  induction ns generalizing pos with
  | nil => exact List.Pairwise.nil
  | cons n ns ih =>
      obtain ⟨-, hrest⟩ := List.forall_mem_cons.mp hmax
      rw [List.sum_cons] at hbudget
      refine List.Pairwise.cons (fun b hb hover => ?_) (ih _ hrest (by omega))
      exact not_overlaps_of_budget rfl hrest hbudget hb hover.symm

/-- **The cursor goes back at most once** while requests in the budget are served. -/
theorem wraps_le_one (pos : ℕ) (hregion : lo < hi) (hmax : ∀ n ∈ ns, n ≤ m)
    (hbudget : lo + ns.sum + m ≤ hi) : wraps lo hi pos ns ≤ 1 := by
  rcases straight_runs_of_budget pos hregion hmax hbudget with
    hstraight | ⟨pre, n, post, rfl, hpre, hwrap, hpost⟩
  · rw [wraps_of_straight lo hstraight]
    exact Nat.zero_le 1
  · rw [wraps_append, wraps_of_straight lo hpre, after_of_straight lo hpre, wraps, if_pos hwrap,
      place_of_le hwrap, wraps_of_straight lo hpost.2]

end Budget

/-! ### A buffer that doubles -/

/-- The cursor after the first `j` growths of a buffer that doubles its capacity: after it
has requested `1, 2, 4, …, 2 ^ (j - 1)` cells in turn. -/
def grownCursor (lo hi pos j : ℕ) : ℕ := after lo hi pos ((List.range j).map (2 ^ ·))

@[simp] theorem grownCursor_zero (lo hi pos : ℕ) : grownCursor lo hi pos 0 = pos := rfl

theorem grownCursor_succ (lo hi pos j : ℕ) :
    grownCursor lo hi pos (j + 1) = place lo hi (grownCursor lo hi pos j) (2 ^ j) + 2 ^ j := by
  rw [grownCursor, List.range_succ, List.map_append, List.map_singleton, after_concat]
  rfl

/-- While the requests fit, the blocks follow one another from the start cursor. -/
theorem grownCursor_eq_of_lt (lo : ℕ) {pos j : ℕ} (h : pos + 2 ^ j ≤ hi) :
    grownCursor lo hi pos j + 1 = pos + 2 ^ j := by
  induction j with
  | zero => simp
  | succ j ih =>
      have hpow : 2 ^ (j + 1) = 2 ^ j + 2 ^ j := by ring
      have hpos : 0 < 2 ^ j := Nat.two_pow_pos j
      have hj := ih (by omega)
      rw [grownCursor_succ, place_of_lt (by omega)]
      omega

/-- After the cursor went back at growth `i`, the blocks follow one another from the base
of the region, as long as their total stays below its size. -/
theorem grownCursor_eq_of_wrap {pos i : ℕ} (hbefore : pos + 2 ^ i ≤ hi)
    (hwrap : hi < pos + 2 ^ (i + 1)) {j : ℕ} (hij : i ≤ j)
    (hroom : lo + 2 ^ (j + 1) < hi + 2 ^ i) :
    grownCursor lo hi pos (j + 1) + 2 ^ i = lo + 2 ^ (j + 1) := by
  induction j, hij using Nat.le_induction with
  | base =>
      have hpow : 2 ^ (i + 1) = 2 ^ i + 2 ^ i := by ring
      have hstart := grownCursor_eq_of_lt lo hbefore
      rw [grownCursor_succ, place_of_le (by omega)]
      omega
  | succ j hij ih =>
      have hpow : 2 ^ (j + 1 + 1) = 2 ^ (j + 1) + 2 ^ (j + 1) := by ring
      have hpos : 0 < 2 ^ j := Nat.two_pow_pos j
      have hj := ih (by omega)
      rw [grownCursor_succ, place_of_lt (by omega)]
      omega

/-- Where growth `j` puts the buffer: the start of its block of `2 ^ j` cells. -/
def growthStart (lo hi pos j : ℕ) : ℕ := place lo hi (grownCursor lo hi pos j) (2 ^ j)

theorem grownCursor_eq_growthStart (lo hi pos j : ℕ) :
    grownCursor lo hi pos (j + 1) = growthStart lo hi pos j + 2 ^ j :=
  grownCursor_succ lo hi pos j

/-- The requests of `k` growths. -/
def growthRequests (k : ℕ) : List ℕ := (List.range k).map (2 ^ ·)

/-- **What the growths take**: one cell less than the growth after them. -/
theorem sum_growthRequests (k : ℕ) : (growthRequests k).sum + 1 = 2 ^ k := by
  induction k with
  | zero => rfl
  | succ k ih =>
      rw [growthRequests, List.range_succ, List.map_append, List.sum_append, ← growthRequests,
        List.map_singleton, List.sum_singleton, pow_succ]
      omega

/-- The block of a growth is among the blocks handed out. -/
theorem growth_mem_blocksFrom (lo hi pos : ℕ) {j k : ℕ} (h : j < k) :
    ⟨growthStart lo hi pos j, 2 ^ j⟩ ∈ blocksFrom lo hi pos (growthRequests k) := by
  induction k with
  | zero => exact absurd h (Nat.not_lt_zero j)
  | succ k ih =>
      rw [growthRequests, List.range_succ, List.map_append, blocksFrom_append, ← growthRequests]
      rcases (Nat.lt_succ_iff.mp h).lt_or_eq with hlt | rfl
      · exact List.mem_append_left _ (ih hlt)
      · exact List.mem_append_right _ List.mem_cons_self

/-- Before the cursor goes back. -/
theorem growthStart_of_lt (lo : ℕ) {pos j : ℕ} (h : pos + 2 ^ (j + 1) ≤ hi) :
    growthStart lo hi pos j + 1 = pos + 2 ^ j := by
  have hpow : 2 ^ (j + 1) = 2 ^ j + 2 ^ j := by ring
  have hpos : 0 < 2 ^ j := Nat.two_pow_pos j
  have hcursor := grownCursor_eq_of_lt lo h
  rw [grownCursor_eq_growthStart] at hcursor
  omega

/-- After the cursor went back at growth `i`. -/
theorem growthStart_of_wrap {pos i : ℕ} (hbefore : pos + 2 ^ i ≤ hi)
    (hwrap : hi < pos + 2 ^ (i + 1)) {j : ℕ} (hij : i ≤ j)
    (hroom : lo + 2 ^ (j + 1) < hi + 2 ^ i) :
    growthStart lo hi pos j + 2 ^ i = lo + 2 ^ j := by
  have hpow : 2 ^ (j + 1) = 2 ^ j + 2 ^ j := by ring
  have hcursor := grownCursor_eq_of_wrap hbefore hwrap hij hroom
  rw [grownCursor_eq_growthStart] at hcursor
  omega

/-- If growth `k` no longer fits, the cursor went back at some growth up to `k`. -/
theorem exists_wrap {pos k : ℕ} (hpos : pos < hi) (hk : hi < pos + 2 ^ (k + 1)) :
    ∃ i ≤ k, pos + 2 ^ i ≤ hi ∧ hi < pos + 2 ^ (i + 1) := by
  induction k with
  | zero => exact ⟨0, le_rfl, hpos, hk⟩
  | succ k ih =>
      by_cases hprev : pos + 2 ^ (k + 1) ≤ hi
      · exact ⟨k + 1, le_rfl, hprev, hk⟩
      · obtain ⟨i, hik, hi⟩ := ih (by omega)
        exact ⟨i, hik.trans (Nat.le_succ k), hi⟩

/-- The growths after the one at `i` cover every offset of the region from its base: the
one that covers offset `h` starts at `2 ^ j - 2 ^ i`. -/
theorem exists_growth_covering (i h : ℕ) :
    ∃ j, i ≤ j ∧ 2 ^ j ≤ h + 2 ^ i ∧ h + 2 ^ i < 2 ^ (j + 1) := by
  have hpos : 0 < 2 ^ i := Nat.two_pow_pos i
  refine ⟨Nat.log 2 (h + 2 ^ i), ?_, Nat.pow_log_le_self 2 (by omega),
    Nat.lt_pow_succ_log_self Nat.one_lt_two _⟩
  exact Nat.le_log_of_pow_le Nat.one_lt_two (Nat.le_add_left _ _)

end BumpArena
