import Mathlib.Data.List.Nodup
import Mathlib.Data.List.Basic
import Mathlib.Data.List.Induction
import Mathlib.Order.Nat

/-!
# Tables With a Primary Key, Kept in Rowid Order

A `KeyedTable κ α` is a table whose rows carry a rowid, a primary key of type `κ` and a
value of type `α`. The structure carries its own well-formedness: rowids are positive and
strictly increasing, and no key occurs twice. `replace` deletes the row of a key and
inserts the new row above all others; `delete` deletes the row of a key.

A table is at once a finite map from keys to values (`lookup`) and a sequence that a
cursor reads in rowid order (`ahead`, `next`). The lemmas give both readings of both
operations.

## Main results

* `lookup_replace` / `lookup_delete`: the operations on the map.
* `ahead_replace`: a replaced row is ahead of every cursor position of the table.
* `length_ahead_le_replace`: it leaves a cursor no fewer rows to read.
* `ahead_of_next`: a cursor that has read the next row has the rest ahead of it.
* `map_replace` / `map_delete`: mapping the values commutes with the operations.
* `countP_ahead_applyAll_le`: operations bring ahead of a cursor at most what they insert.
* `lookup_applyAll`: after any sequence of operations, the table maps every key to what the
  last operation on it left there (`lastWrite`).
-/

/-- A row of a keyed table. -/
structure KeyedTable.Entry (κ α : Type*) where
  rowid : ℕ
  key : κ
  val : α
deriving DecidableEq

/-- A table with a primary key, in rowid order. -/
@[ext] structure KeyedTable (κ α : Type*) where
  rows : List (KeyedTable.Entry κ α)
  rowid_pos : ∀ e ∈ rows, 0 < e.rowid
  rowid_lt : rows.Pairwise fun e f => e.rowid < f.rowid
  key_nodup : (rows.map KeyedTable.Entry.key).Nodup

namespace KeyedTable

variable {κ α β : Type*}

/-- The table without rows. -/
def empty : KeyedTable κ α := ⟨[], by simp, List.Pairwise.nil, List.nodup_nil⟩

/-- The largest rowid in use, `0` in the table without rows. -/
def maxRowid (t : KeyedTable κ α) : ℕ := t.rows.foldr (fun e m => max e.rowid m) 0

/-- The rows whose rowid is above `last`. -/
def ahead (t : KeyedTable κ α) (last : ℕ) : List (Entry κ α) :=
  t.rows.filter fun e => last < e.rowid

/-- The row that a cursor standing at rowid `last` reads next. -/
def next (t : KeyedTable κ α) (last : ℕ) : Option (Entry κ α) := (t.ahead last).head?

private theorem rowid_le_foldr {e : Entry κ α} {rows : List (Entry κ α)} (he : e ∈ rows) :
    e.rowid ≤ rows.foldr (fun e m => max e.rowid m) 0 := by
  induction rows with
  | nil => exact absurd he List.not_mem_nil
  | cons f rest ih =>
      rcases List.mem_cons.mp he with rfl | hrest
      · exact le_max_left _ _
      · exact (ih hrest).trans (le_max_right _ _)

theorem rowid_le_maxRowid {t : KeyedTable κ α} {e : Entry κ α} (he : e ∈ t.rows) :
    e.rowid ≤ t.maxRowid := rowid_le_foldr he

/-! ### Cursors -/

@[simp] theorem ahead_zero (t : KeyedTable κ α) : t.ahead 0 = t.rows :=
  List.filter_eq_self.mpr fun e he => by simpa using t.rowid_pos e he

theorem mem_ahead {t : KeyedTable κ α} {last : ℕ} {e : Entry κ α} :
    e ∈ t.ahead last ↔ e ∈ t.rows ∧ last < e.rowid := by
  simp [ahead]

theorem next_eq_none_iff {t : KeyedTable κ α} {last : ℕ} :
    t.next last = none ↔ t.ahead last = [] := List.head?_eq_none_iff

theorem next_eq_some_iff {t : KeyedTable κ α} {last : ℕ} {e : Entry κ α} :
    t.next last = some e ↔ ∃ rest, t.ahead last = e :: rest := by
  rw [next]
  constructor
  · intro h
    exact ⟨_, List.eq_cons_of_mem_head? h⟩
  · rintro ⟨rest, h⟩
    rw [h, List.head?_cons]

/-- **A cursor advances**: once it has read the next row, the rest is ahead of it. -/
theorem ahead_of_next {t : KeyedTable κ α} {last : ℕ} {e : Entry κ α}
    {rest : List (Entry κ α)} (h : t.ahead last = e :: rest) : t.ahead e.rowid = rest := by
  have hlast : last < e.rowid := (mem_ahead.mp (h ▸ List.mem_cons_self)).2
  have hsorted : (e :: rest).Pairwise fun e f => e.rowid < f.rowid :=
    h ▸ t.rowid_lt.filter _
  have htwice : t.ahead e.rowid = (t.ahead last).filter fun f => e.rowid < f.rowid := by
    simp only [ahead]
    rw [List.filter_filter]
    refine List.filter_congr fun f _ => ?_
    by_cases hf : e.rowid < f.rowid
    · simp [hf, hlast.trans hf]
    · simp [hf]
  rw [htwice, h, List.filter_cons_of_neg (by simp)]
  exact List.filter_eq_self.mpr fun f hf => by
    simpa using (List.pairwise_cons.mp hsorted).1 f hf

/-- A row before the one that a cursor reads next is behind the cursor. -/
theorem rowid_le_of_next {t : KeyedTable κ α} {last : ℕ} {e f : Entry κ α}
    {rest : List (Entry κ α)} (h : t.ahead last = f :: rest) (he : e ∈ t.rows) (hne : e ≠ f)
    (hle : e.rowid ≤ f.rowid) : e.rowid ≤ last := by
  refine Nat.le_of_not_lt fun hlt => ?_
  have hmem : e ∈ f :: rest := h ▸ mem_ahead.mpr ⟨he, hlt⟩
  have hafter := mem_ahead.mp (ahead_of_next h ▸ (List.mem_cons.mp hmem).resolve_left hne)
  exact absurd hafter.2 (Nat.not_lt.mpr hle)

/-! ### The operations -/

section Operations

variable [DecidableEq κ]

/-- `DELETE … WHERE key = k`. -/
def delete (t : KeyedTable κ α) (k : κ) : KeyedTable κ α where
  rows := t.rows.filter fun e => e.key ≠ k
  rowid_pos e he := t.rowid_pos e (List.mem_of_mem_filter he)
  rowid_lt := t.rowid_lt.filter _
  key_nodup := t.key_nodup.sublist (List.filter_sublist.map _)

/-- `REPLACE INTO …`: the row of the key goes, the new row comes above all others. -/
def replace (t : KeyedTable κ α) (k : κ) (v : α) : KeyedTable κ α where
  rows := (t.rows.filter fun e => e.key ≠ k) ++ [⟨t.maxRowid + 1, k, v⟩]
  rowid_pos e he := by
    rcases List.mem_append.mp he with he | he
    · exact t.rowid_pos e (List.mem_of_mem_filter he)
    · rw [List.mem_singleton.mp he]
      exact Nat.succ_pos _
  rowid_lt := by
    refine List.pairwise_append.mpr ⟨t.rowid_lt.filter _, List.pairwise_singleton _ _, ?_⟩
    intro e he f hf
    rw [List.mem_singleton.mp hf]
    exact Nat.lt_succ_of_le (rowid_le_maxRowid (List.mem_of_mem_filter he))
  key_nodup := by
    rw [List.map_append, List.map_singleton, List.nodup_append]
    refine ⟨t.key_nodup.sublist (List.filter_sublist.map _), List.nodup_singleton _, ?_⟩
    intro k' hk' k'' hk''
    obtain ⟨e, he, rfl⟩ := List.mem_map.mp hk'
    rw [List.mem_singleton.mp hk'']
    simpa using (List.mem_filter.mp he).2

/-- The value stored under a key. -/
def lookup (t : KeyedTable κ α) (k : κ) : Option α :=
  (t.rows.find? fun e => e.key = k).map Entry.val

theorem rows_replace (t : KeyedTable κ α) (k : κ) (v : α) :
    (t.replace k v).rows =
      (t.rows.filter fun e => e.key ≠ k) ++ [⟨t.maxRowid + 1, k, v⟩] := rfl

theorem mem_rows_delete {t : KeyedTable κ α} {k : κ} {e : Entry κ α} :
    e ∈ (t.delete k).rows ↔ e ∈ t.rows ∧ e.key ≠ k := by
  simp [delete]

theorem mem_rows_replace {t : KeyedTable κ α} {k : κ} {v : α} {e : Entry κ α} :
    e ∈ (t.replace k v).rows ↔
      (e ∈ t.rows ∧ e.key ≠ k) ∨ e = ⟨t.maxRowid + 1, k, v⟩ := by
  simp [replace]

omit [DecidableEq κ] in
/-- Two rows with one key are one row. -/
theorem eq_of_key_eq {t : KeyedTable κ α} {e f : Entry κ α} (he : e ∈ t.rows)
    (hf : f ∈ t.rows) (hkey : e.key = f.key) : e = f :=
  List.inj_on_of_nodup_map t.key_nodup he hf hkey

theorem lookup_eq_some_iff {t : KeyedTable κ α} {k : κ} {v : α} :
    t.lookup k = some v ↔ ∃ e ∈ t.rows, e.key = k ∧ e.val = v := by
  rw [lookup]
  constructor
  · intro h
    obtain ⟨e, hfind, hval⟩ := Option.map_eq_some_iff.mp h
    exact ⟨e, List.mem_of_find?_eq_some hfind, by simpa using List.find?_some hfind, hval⟩
  · rintro ⟨e, he, hkey, hval⟩
    obtain ⟨f, hfind⟩ : ∃ f, t.rows.find? (fun e => e.key = k) = some f := by
      rw [← Option.isSome_iff_exists, List.find?_isSome]
      exact ⟨e, he, by simpa using hkey⟩
    have hfkey : f.key = k := by simpa using List.find?_some hfind
    have hef : f = e := eq_of_key_eq (List.mem_of_find?_eq_some hfind) he (hfkey.trans hkey.symm)
    rw [hfind, Option.map_some, hef, hval]

theorem lookup_eq_none_iff {t : KeyedTable κ α} {k : κ} :
    t.lookup k = none ↔ ∀ e ∈ t.rows, e.key ≠ k := by
  simp [lookup]

/-- **`REPLACE` on the map.** -/
theorem lookup_replace {t : KeyedTable κ α} {k k' : κ} {v : α} :
    (t.replace k v).lookup k' = if k' = k then some v else t.lookup k' := by
  refine Option.ext fun w => ?_
  rw [lookup_eq_some_iff]
  split
  · next heq =>
      subst heq
      constructor
      · rintro ⟨e, he, hkey, rfl⟩
        rcases mem_rows_replace.mp he with ⟨-, hne⟩ | rfl
        · exact absurd hkey hne
        · rfl
      · rintro ⟨⟩
        exact ⟨_, mem_rows_replace.mpr (Or.inr rfl), rfl, rfl⟩
  · next hne =>
      rw [lookup_eq_some_iff]
      constructor
      · rintro ⟨e, he, hkey, hval⟩
        rcases mem_rows_replace.mp he with ⟨he, -⟩ | rfl
        · exact ⟨e, he, hkey, hval⟩
        · exact absurd hkey.symm hne
      · rintro ⟨e, he, hkey, hval⟩
        exact ⟨e, mem_rows_replace.mpr (Or.inl ⟨he, hkey.trans_ne hne⟩), hkey, hval⟩

/-- **`DELETE` on the map.** -/
theorem lookup_delete {t : KeyedTable κ α} {k k' : κ} :
    (t.delete k).lookup k' = if k' = k then none else t.lookup k' := by
  refine Option.ext fun w => ?_
  rw [lookup_eq_some_iff]
  split
  · next heq =>
      simp only [mem_rows_delete, reduceCtorEq, iff_false]
      rintro ⟨e, ⟨-, hne⟩, hkey, -⟩
      exact hne (hkey.trans heq)
  · next hne =>
      rw [lookup_eq_some_iff]
      constructor
      · rintro ⟨e, he, hkey, hval⟩
        exact ⟨e, (mem_rows_delete.mp he).1, hkey, hval⟩
      · rintro ⟨e, he, hkey, hval⟩
        exact ⟨e, mem_rows_delete.mpr ⟨he, hkey.trans_ne hne⟩, hkey, hval⟩

/-- **`REPLACE` under a cursor**: at a position the table has reached, the row of the key
goes from the rows ahead and the new row comes last. -/
theorem ahead_replace {t : KeyedTable κ α} {k : κ} {v : α} {last : ℕ}
    (hlast : last ≤ t.maxRowid) :
    (t.replace k v).ahead last =
      ((t.ahead last).filter fun e => e.key ≠ k) ++ [⟨t.maxRowid + 1, k, v⟩] := by
  simp only [ahead, replace]
  rw [List.filter_append, List.filter_filter, List.filter_filter]
  congr 1
  · refine List.filter_congr fun e _ => Bool.and_comm _ _
  · rw [List.filter_cons_of_pos (by simpa using Nat.lt_succ_of_le hlast), List.filter_nil]

/-- The row of a key is at most one of the rows ahead. -/
theorem length_ahead_le (t : KeyedTable κ α) (k : κ) (last : ℕ) :
    (t.ahead last).length ≤ ((t.ahead last).filter fun e => e.key ≠ k).length + 1 := by
  have hnodup : ((t.ahead last).map Entry.key).Nodup :=
    t.key_nodup.sublist (List.filter_sublist.map _)
  have hcount : (t.ahead last).countP (fun e => e.key = k) ≤ 1 := by
    have hle := List.nodup_iff_count_le_one.mp hnodup k
    rw [List.count, List.countP_map] at hle
    refine (List.countP_mono_left fun e _ he => ?_).trans hle
    simpa using he
  have hsplit := List.length_eq_countP_add_countP (fun e => decide (Entry.key e = k))
    (l := t.ahead last)
  rw [← List.countP_eq_length_filter]
  simp only [decide_not, Bool.decide_eq_true] at hsplit ⊢
  omega

/-- **`REPLACE` leaves a cursor as many rows** ahead at least. -/
theorem length_ahead_le_replace {t : KeyedTable κ α} {last : ℕ} (hlast : last ≤ t.maxRowid)
    (k : κ) (v : α) : (t.ahead last).length ≤ ((t.replace k v).ahead last).length := by
  rw [ahead_replace hlast, List.length_append, List.length_singleton]
  exact t.length_ahead_le k last

/-- If the row of the key is not ahead, `REPLACE` leaves the cursor one row more. -/
theorem length_ahead_replace_of_notMem {t : KeyedTable κ α} {last : ℕ}
    (hlast : last ≤ t.maxRowid) {k : κ} (hk : ∀ e ∈ t.ahead last, e.key ≠ k) (v : α) :
    ((t.replace k v).ahead last).length = (t.ahead last).length + 1 := by
  have hkeep : (t.ahead last).filter (fun e => e.key ≠ k) = t.ahead last :=
    List.filter_eq_self.mpr fun e he => by simpa using hk e he
  rw [ahead_replace hlast, hkeep, List.length_append, List.length_singleton]

theorem maxRowid_lt_replace (t : KeyedTable κ α) (k : κ) (v : α) :
    t.maxRowid < (t.replace k v).maxRowid :=
  rowid_le_maxRowid (e := ⟨t.maxRowid + 1, k, v⟩) (mem_rows_replace.mpr (Or.inr rfl))

/-! ### Sequences of operations -/

/-- An operation on a table. -/
inductive Op (κ α : Type*)
  | replace (k : κ) (v : α)
  | delete (k : κ)

/-- The key that an operation is about. -/
def Op.key : Op κ α → κ
  | .replace k _ => k
  | .delete k => k

/-- The value that an operation leaves under its key. -/
def Op.val : Op κ α → Option α
  | .replace _ v => some v
  | .delete _ => none

/-- One operation. -/
def apply (t : KeyedTable κ α) : Op κ α → KeyedTable κ α
  | .replace k v => t.replace k v
  | .delete k => t.delete k

/-- A sequence of operations. -/
def applyAll (t : KeyedTable κ α) (ops : List (Op κ α)) : KeyedTable κ α := ops.foldl apply t

/-- What the last operation on a key leaves there: only the operations on that key count. -/
def lastWrite (ops : List (Op κ α)) (k : κ) : Option α :=
  (ops.filter fun op => op.key = k).getLast?.bind Op.val

theorem lookup_apply (t : KeyedTable κ α) (op : Op κ α) (k : κ) :
    (t.apply op).lookup k = if op.key = k then op.val else t.lookup k := by
  cases op with
  | replace k' v => simp only [apply, lookup_replace, Op.key, Op.val, eq_comm]
  | delete k' => simp only [apply, lookup_delete, Op.key, Op.val, eq_comm]

/-- **The table is a last-writer-wins map.** -/
theorem lookup_applyAll (ops : List (Op κ α)) (k : κ) :
    (empty.applyAll ops).lookup k = lastWrite ops k := by
  induction ops using List.reverseRecOn with
  | nil => rfl
  | append_singleton ops op ih =>
      rw [applyAll, List.foldl_append, List.foldl_cons, List.foldl_nil, ← applyAll, lookup_apply,
        lastWrite, List.filter_append]
      by_cases hk : op.key = k
      · simp [hk]
      · simp [hk, ih, lastWrite]

/-- Every key of the table is the key of an operation. -/
theorem exists_key_of_mem_applyAll {ops : List (Op κ α)} {e : Entry κ α}
    (he : e ∈ (empty.applyAll ops).rows) : ∃ op ∈ ops, op.key = e.key := by
  have hsome : (empty.applyAll ops).lookup e.key = some e.val :=
    lookup_eq_some_iff.mpr ⟨e, he, rfl, rfl⟩
  rw [lookup_applyAll, lastWrite] at hsome
  obtain ⟨op, hop, -⟩ := Option.bind_eq_some_iff.mp hsome
  have hmem := List.mem_filter.mp (List.mem_of_getLast? hop)
  exact ⟨op, hmem.1, by simpa using hmem.2⟩

/-- **One operation** on another key leaves a row where it is, and brings nothing before it. -/
theorem rows_apply_of_key_ne {t : KeyedTable κ α} {e : Entry κ α} (he : e ∈ t.rows) {op : Op κ α}
    (hop : op.key ≠ e.key) :
    e ∈ (t.apply op).rows ∧
      ∀ f ∈ (t.apply op).rows, f.rowid < e.rowid → f ∈ t.rows ∧ op.key ≠ f.key := by
  cases op with
  | replace k v =>
      refine ⟨mem_rows_replace.mpr (Or.inl ⟨he, hop.symm⟩), fun f hf hlt => ?_⟩
      rcases mem_rows_replace.mp hf with ⟨hf, hk⟩ | rfl
      · exact ⟨hf, hk.symm⟩
      · exact absurd (hlt.trans_le (rowid_le_maxRowid he)) (by simp)
  | delete k =>
      refine ⟨mem_rows_delete.mpr ⟨he, hop.symm⟩, fun f hf _ => ?_⟩
      exact ⟨(mem_rows_delete.mp hf).1, (mem_rows_delete.mp hf).2.symm⟩

/-- **Operations on other keys** leave a row where it is, and what stands before it afterwards
stood there from the start and was not operated on. -/
theorem rows_applyAll_of_key_ne {t : KeyedTable κ α} {e : Entry κ α} (he : e ∈ t.rows)
    {ops : List (Op κ α)} (hops : ∀ op ∈ ops, op.key ≠ e.key) :
    e ∈ (t.applyAll ops).rows ∧
      ∀ f ∈ (t.applyAll ops).rows, f.rowid < e.rowid → f ∈ t.rows ∧ ∀ op ∈ ops, op.key ≠ f.key := by
  induction ops generalizing t with
  | nil => exact ⟨he, fun f hf _ => ⟨hf, by simp⟩⟩
  | cons op ops ih =>
      obtain ⟨hop, hrest⟩ := List.forall_mem_cons.mp hops
      obtain ⟨hkeep, hbefore⟩ := rows_apply_of_key_ne he hop
      obtain ⟨hkept, hall⟩ := ih hkeep hrest
      refine ⟨hkept, fun f hf hlt => ?_⟩
      obtain ⟨hf, hne⟩ := hall f hf hlt
      obtain ⟨hf, hk⟩ := hbefore f hf hlt
      exact ⟨hf, List.forall_mem_cons.mpr ⟨hk, hne⟩⟩

/-- What an operation leaves was there, or is what it writes. -/
theorem mem_rows_of_apply {t : KeyedTable κ α} {op : Op κ α} {e : Entry κ α}
    (he : e ∈ (t.apply op).rows) : e ∈ t.rows ∨ op = .replace e.key e.val := by
  cases op with
  | replace k v =>
      rcases mem_rows_replace.mp he with ⟨he, -⟩ | rfl
      · exact Or.inl he
      · exact Or.inr rfl
  | delete k => exact Or.inl (mem_rows_delete.mp he).1

theorem mem_rows_of_applyAll {t : KeyedTable κ α} {ops : List (Op κ α)} {e : Entry κ α}
    (he : e ∈ (t.applyAll ops).rows) : e ∈ t.rows ∨ .replace e.key e.val ∈ ops := by
  induction ops generalizing t with
  | nil => exact Or.inl he
  | cons op ops ih =>
      rcases ih he with he | he
      · rcases mem_rows_of_apply he with he | rfl
        · exact Or.inl he
        · exact Or.inr List.mem_cons_self
      · exact Or.inr (List.mem_cons_of_mem _ he)

/-- The operation inserts a row under a key of the kind `q`. -/
def Op.inserts (q : κ → Bool) : Op κ α → Bool
  | .replace k _ => q k
  | .delete _ => false

/-- **An operation under a cursor**: it brings ahead at most the row that it inserts. -/
theorem countP_ahead_apply_le (t : KeyedTable κ α) (op : Op κ α) (last : ℕ) (q : κ → Bool) :
    ((t.apply op).ahead last).countP (fun e => q e.key) ≤
      (t.ahead last).countP (fun e => q e.key) + (op.inserts q).toNat := by
  have hkeep : ∀ k, ((t.rows.filter fun e => e.key ≠ k).filter fun e => last < e.rowid).countP
      (fun e => q e.key) ≤ (t.ahead last).countP fun e => q e.key := fun k =>
    (List.filter_sublist.filter _).countP_le
  cases op with
  | delete k => exact hkeep k
  | replace k v =>
      simp only [apply, ahead, replace, List.filter_append, List.countP_append] at hkeep ⊢
      refine Nat.add_le_add (hkeep k) ?_
      refine (List.filter_sublist.countP_le).trans_eq ?_
      cases hq : q k <;> simp [Op.inserts, hq]

theorem countP_ahead_applyAll_le (t : KeyedTable κ α) (ops : List (Op κ α)) (last : ℕ)
    (q : κ → Bool) :
    ((t.applyAll ops).ahead last).countP (fun e => q e.key) ≤
      (t.ahead last).countP (fun e => q e.key) + ops.countP (Op.inserts q) := by
  induction ops generalizing t with
  | nil => exact Nat.le_refl _
  | cons op ops ih =>
      have hop := t.countP_ahead_apply_le op last q
      have hrest := ih (t.apply op)
      rw [applyAll, List.foldl_cons, ← applyAll, List.countP_cons]
      cases hins : op.inserts q <;> simp only [hins, Bool.toNat_true, Bool.toNat_false] at hop ⊢ <;>
        simp <;> omega

/-- The rows of one key: the value stored under it, if there is one. -/
theorem map_val_filter_key (t : KeyedTable κ α) (k : κ) :
    (t.rows.filter fun e => e.key = k).map Entry.val = (t.lookup k).toList := by
  have hnodup : (t.rows.filter fun e => e.key = k).Nodup := by
    have hrows : t.rows.Nodup := t.key_nodup.of_map
    exact hrows.filter _
  have hall : ∀ e ∈ t.rows.filter (fun e => e.key = k), ∀ f ∈ t.rows.filter (fun e => e.key = k),
      e = f := fun e he f hf => by
    obtain ⟨he, hek⟩ := List.mem_filter.mp he
    obtain ⟨hf, hfk⟩ := List.mem_filter.mp hf
    exact eq_of_key_eq he hf (by simp_all)
  cases hrow : t.rows.filter (fun e => e.key = k) with
  | nil =>
      have hnone : t.lookup k = none := lookup_eq_none_iff.mpr fun e he hk => by
        have hmem : e ∈ t.rows.filter (fun e => e.key = k) := List.mem_filter.mpr ⟨he, by simpa⟩
        rw [hrow] at hmem
        exact absurd hmem List.not_mem_nil
      rw [hnone]
      rfl
  | cons e rest =>
      rw [hrow] at hnodup hall
      have hrest : rest = [] := List.eq_nil_iff_forall_not_mem.mpr fun f hf => by
        have heq := hall e List.mem_cons_self f (List.mem_cons_of_mem _ hf)
        exact (List.nodup_cons.mp hnodup).1 (heq ▸ hf)
      have hmem : e ∈ t.rows.filter (fun e => e.key = k) := hrow ▸ List.mem_cons_self
      obtain ⟨he, hk⟩ := List.mem_filter.mp hmem
      have hsome : t.lookup k = some e.val :=
        lookup_eq_some_iff.mpr ⟨e, he, by simpa using hk, rfl⟩
      rw [hsome, hrest]
      rfl

/-! ### Mapping the values -/

/-- Apply `f` to every value. -/
def map (f : α → β) (t : KeyedTable κ α) : KeyedTable κ β where
  rows := t.rows.map fun e => ⟨e.rowid, e.key, f e.val⟩
  rowid_pos e he := by
    obtain ⟨e', he', rfl⟩ := List.mem_map.mp he
    exact t.rowid_pos e' he'
  rowid_lt := List.pairwise_map.mpr t.rowid_lt
  key_nodup := by
    rw [List.map_map]
    exact t.key_nodup

omit [DecidableEq κ] in
theorem maxRowid_map (f : α → β) (t : KeyedTable κ α) : (t.map f).maxRowid = t.maxRowid := by
  simp [map, maxRowid, List.foldr_map]

theorem map_delete (f : α → β) (t : KeyedTable κ α) (k : κ) :
    (t.delete k).map f = (t.map f).delete k := by
  ext1
  simp [map, delete, List.filter_map, Function.comp_def]

theorem map_replace (f : α → β) (t : KeyedTable κ α) (k : κ) (v : α) :
    (t.replace k v).map f = (t.map f).replace k (f v) := by
  ext1
  have hmax := maxRowid_map f t
  simp only [map] at hmax
  simp [map, replace, hmax, List.filter_map, Function.comp_def]

end Operations

end KeyedTable
