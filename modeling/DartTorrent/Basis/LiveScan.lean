import DartTorrent.Basis.KeyedTable
import DartTorrent.Basis.GuardedRun

/-!
# Scans of a Table That Is Written To

A `LiveScan` reads a keyed table with a cursor, one row at a time, while others replace and
delete rows. It sees the table of the moment, not the table of its start: a row that is replaced
moves ahead of the cursor, and a row that is deleted before its turn is not read. The scan ends
when no row is ahead, and a row that its reader cannot take stops it.

## Main results

* `countP_read_le`: of the rows with a given kind of key, the scan reads no more than there were,
  and one for each replacement under such a key.
* `length_read_of_reading`: a scan that still reads has read a row in each of its steps.
* `untouched_run`: a row that nobody writes to is read at most once, and exactly once by a scan
  that ends.
* `source_run`: what is read was there at the start or has been written since.
* `fresh_run`: without deletions, of the rows behind the cursor each is the latest version read.
* `ordered_run`: it is read in increasing rowid, so no version of a row is read twice.
-/

open GuardedRun

/-- Where a scan stands: in the table, at its end, or at a row that stopped it. -/
inductive LiveScan.Status
  | reading
  | ended
  | stopped
deriving DecidableEq

/-- The table of the moment, the rowid of the cursor, and the rows read so far. -/
structure LiveScan (κ α : Type*) where
  table : KeyedTable κ α
  last : ℕ
  read : List (KeyedTable.Entry κ α)
  status : LiveScan.Status

namespace LiveScan

variable {κ α : Type*}

/-- A step of the scan, or writes between two steps. -/
inductive Event (κ α : Type*)
  | advance
  | write (ops : List (KeyedTable.Op κ α))

/-- The scan before its first step. -/
def start (t : KeyedTable κ α) : LiveScan κ α := ⟨t, 0, [], .reading⟩

/-- The scan reads the row ahead of the cursor, if there is one. -/
def advance (stops : α → Bool) (s : LiveScan κ α) : LiveScan κ α :=
  match s.status with
  | .reading =>
      match s.table.next s.last with
      | none => { s with status := .ended }
      | some e =>
          { s with
            last := e.rowid
            read := s.read ++ [e]
            status := if stops e.val then .stopped else .reading }
  | _ => s

variable [DecidableEq κ]

/-- One event. -/
def step (stops : α → Bool) (s : LiveScan κ α) : Event κ α → LiveScan κ α
  | .advance => s.advance stops
  | .write ops => { s with table := s.table.applyAll ops }

omit [DecidableEq κ] in
/-- The operations that an event writes. -/
def Event.ops : Event κ α → List (KeyedTable.Op κ α)
  | .advance => []
  | .write ops => ops

omit [DecidableEq κ] in
/-- All operations written meanwhile, in order. -/
def writes (events : List (Event κ α)) : List (KeyedTable.Op κ α) := events.flatMap Event.ops

omit [DecidableEq κ] in
/-- The steps of the scan. -/
def advances (events : List (Event κ α)) : ℕ :=
  events.countP fun e => match e with
    | .advance => true
    | .write _ => false

variable {stops : α → Bool} {s : LiveScan κ α} {t : KeyedTable κ α}

/-! ### One step -/

omit [DecidableEq κ] in
theorem advance_of_ne_reading (h : s.status ≠ .reading) : s.advance stops = s := by
  cases hs : s.status with
  | reading => exact absurd hs h
  | _ => simp only [advance, hs]

omit [DecidableEq κ] in
/-- **What a step does**: nothing after the scan, the end if no row is ahead, or the next row. -/
theorem advance_cases (stops : α → Bool) (s : LiveScan κ α) :
    (s.status ≠ .reading ∧ s.advance stops = s) ∨
      (s.status = .reading ∧ s.table.ahead s.last = [] ∧
        s.advance stops = { s with status := .ended }) ∨
      (s.status = .reading ∧ ∃ e rest, s.table.ahead s.last = e :: rest ∧
        s.advance stops =
          { s with
            last := e.rowid
            read := s.read ++ [e]
            status := if stops e.val then .stopped else .reading }) := by
  by_cases hread : s.status = .reading
  · cases hahead : s.table.ahead s.last with
    | nil =>
        have hnext := KeyedTable.next_eq_none_iff.mpr hahead
        exact Or.inr (Or.inl ⟨hread, rfl, by simp only [advance, hread, hnext]⟩)
    | cons e rest =>
        have hnext := KeyedTable.next_eq_some_iff.mpr ⟨rest, hahead⟩
        exact Or.inr (Or.inr ⟨hread, e, rest, rfl, by simp only [advance, hread, hnext]⟩)
  · exact Or.inl ⟨hread, advance_of_ne_reading hread⟩

/-! ### How much is read -/

/-- **One event**, counted: a step moves a row from those ahead to those read, and a replacement
brings one row ahead. -/
theorem countP_read_step_le (stops : α → Bool) (s : LiveScan κ α) (q : κ → Bool)
    (e : Event κ α) :
    let s' := step stops s e
    s'.read.countP (fun x => q x.key) + (s'.table.ahead s'.last).countP (fun x => q x.key) ≤
      s.read.countP (fun x => q x.key) + (s.table.ahead s.last).countP (fun x => q x.key) +
        e.ops.countP (KeyedTable.Op.inserts q) := by
  cases e with
  | write ops =>
      have hops := KeyedTable.countP_ahead_applyAll_le s.table ops s.last q
      simp only [step, Event.ops]
      omega
  | advance =>
      simp only [step, Event.ops, List.countP_nil, Nat.add_zero]
      rcases advance_cases stops s with ⟨-, h⟩ | ⟨-, -, h⟩ | ⟨-, e, rest, hahead, h⟩
      · rw [h]
      · rw [h]
      · rw [h]
        simp only [KeyedTable.ahead_of_next hahead, hahead, List.countP_append,
          List.countP_cons, List.countP_nil]
        omega

/-- **The scan reads no more than there was and was written.** -/
theorem countP_read_run_le (stops : α → Bool) (s : LiveScan κ α) (q : κ → Bool)
    (events : List (Event κ α)) :
    let s' := run (step stops) s events
    s'.read.countP (fun x => q x.key) + (s'.table.ahead s'.last).countP (fun x => q x.key) ≤
      s.read.countP (fun x => q x.key) + (s.table.ahead s.last).countP (fun x => q x.key) +
        (writes events).countP (KeyedTable.Op.inserts q) := by
  induction events generalizing s with
  | nil => exact Nat.le_refl _
  | cons e events ih =>
      have hstep := countP_read_step_le stops s q e
      have hrest := ih (step stops s e)
      simp only [run_cons, writes, List.flatMap_cons, List.countP_append] at hstep hrest ⊢
      omega

theorem countP_read_le (stops : α → Bool) (t : KeyedTable κ α) (q : κ → Bool)
    (events : List (Event κ α)) :
    (run (step stops) (start t) events).read.countP (fun x => q x.key) ≤
      t.rows.countP (fun x => q x.key) + (writes events).countP (KeyedTable.Op.inserts q) := by
  have h := countP_read_run_le stops (start t) q events
  simp only [start, List.countP_nil, KeyedTable.ahead_zero, Nat.zero_add] at h
  exact (Nat.le_add_right _ _).trans h

/-- A scan that does not read any more does not read again. -/
theorem status_run_of_ne_reading (h : s.status ≠ .reading) (events : List (Event κ α)) :
    (run (step stops) s events).status = s.status := by
  induction events generalizing s with
  | nil => rfl
  | cons e events ih =>
      have hkeep : (step stops s e).status = s.status := by
        cases e with
        | write ops => rfl
        | advance => exact congrArg status (advance_of_ne_reading h)
      exact (ih (hkeep ▸ h)).trans hkeep

/-- **While it reads, each step has read a row.** -/
theorem length_read_of_reading {events : List (Event κ α)}
    (h : (run (step stops) s events).status = .reading) :
    (run (step stops) s events).read.length = s.read.length + advances events := by
  induction events generalizing s with
  | nil => rfl
  | cons e events ih =>
      have hnow : (step stops s e).status = .reading := by
        by_contra hne
        exact hne ((status_run_of_ne_reading hne events).symm.trans h)
      have hrest := ih h
      rw [run_cons, hrest]
      cases e with
      | write ops => rfl
      | advance =>
          have hlen : (s.advance stops).read.length = s.read.length + 1 := by
            simp only [step] at hnow
            rcases advance_cases stops s with ⟨hne, hs⟩ | ⟨-, -, hs⟩ | ⟨-, e, rest, -, hs⟩
            · exact absurd (hs ▸ hnow) hne
            · exact absurd (hs ▸ hnow) (by simp)
            · rw [hs, List.length_append, List.length_singleton]
          simp only [step, hlen, advances, List.countP_cons_of_pos]
          omega

/-- **A scan ends**, at the latest one step after it has read all that there was and was
written. -/
theorem ne_reading_of_lt {events : List (Event κ α)}
    (h : t.rows.length + (writes events).countP (KeyedTable.Op.inserts fun _ => true) <
      advances events) :
    (run (step stops) (start t) events).status ≠ .reading := by
  intro hread
  have hlen := length_read_of_reading hread
  have hle := countP_read_le stops t (fun _ => true) events
  simp only [List.countP_true, start, List.length_nil] at hlen hle
  omega

/-! ### Rows that nobody writes to -/

/-- The row is in the table. It has not been read if it is ahead of the cursor, and has been
read once, with no other version, if it is not. -/
structure Untouched (e : KeyedTable.Entry κ α) (s : LiveScan κ α) : Prop where
  row : e ∈ s.table.rows
  ahead : s.last < e.rowid → s.status ≠ .ended ∧ (s.read.filter fun x => x.key = e.key) = []
  behind : e.rowid ≤ s.last → (s.read.filter fun x => x.key = e.key) = [e]

theorem untouched_start {e : KeyedTable.Entry κ α} (he : e ∈ t.rows) : Untouched e (start t) where
  row := he
  ahead _ := ⟨by simp [start], rfl⟩
  behind h := absurd (t.rowid_pos e he) (Nat.not_lt.mpr h)

/-- A step of the scan. -/
theorem Untouched.advance {e : KeyedTable.Entry κ α} (h : Untouched e s) :
    Untouched e (s.advance stops) := by
  rcases advance_cases stops s with ⟨-, hs⟩ | ⟨-, hnil, hs⟩ | ⟨hread, f, rest, hahead, hs⟩
  · rwa [hs]
  · have hbehind : e.rowid ≤ s.last := by
      by_contra hlt
      have hmem := KeyedTable.mem_ahead.mpr ⟨h.row, Nat.lt_of_not_le hlt⟩
      exact absurd (hnil ▸ hmem) List.not_mem_nil
    rw [hs]
    exact ⟨h.row, fun hlt => absurd hbehind (Nat.not_le.mpr hlt), h.behind⟩
  · have hf := KeyedTable.mem_ahead.mp (hahead ▸ List.mem_cons_self)
    rw [hs]
    by_cases hfe : f = e
    · -- The row is read.
      subst hfe
      refine ⟨h.row, fun hlt => absurd hlt (Nat.lt_irrefl _), fun _ => ?_⟩
      rw [List.filter_append, (h.ahead hf.2).2, List.filter_cons_of_pos (by simp)]
      rfl
    · -- Another row is read, which has another key.
      have hkey : f.key ≠ e.key := fun hk => hfe (KeyedTable.eq_of_key_eq hf.1 h.row hk)
      have hsame : ((s.read ++ [f]).filter fun x => x.key = e.key) =
          s.read.filter fun x => x.key = e.key := by
        rw [List.filter_append, List.filter_cons_of_neg (by simpa using hkey), List.filter_nil,
          List.append_nil]
      refine ⟨h.row, fun hlt => ⟨?_, ?_⟩, fun hle => ?_⟩
      · cases stops f.val <;> simp
      · rw [hsame]
        exact (h.ahead (hf.2.trans hlt)).2
      · rw [hsame]
        exact h.behind (KeyedTable.rowid_le_of_next hahead h.row (Ne.symm hfe) hle)

/-- **A row that nobody writes to** is read once at most, and once by a scan that ends. -/
theorem untouched_run {e : KeyedTable.Entry κ α} (h : Untouched e s) {events : List (Event κ α)}
    (hops : ∀ op ∈ writes events, op.key ≠ e.key) : Untouched e (run (step stops) s events) := by
  induction events generalizing s with
  | nil => exact h
  | cons ev events ih =>
      obtain ⟨hhere, hrest⟩ := List.forall_mem_append.mp hops
      refine ih ?_ hrest
      cases ev with
      | advance => exact h.advance
      | write ops => exact ⟨(KeyedTable.rows_applyAll_of_key_ne h.row hhere).1, h.ahead, h.behind⟩

/-- At the end of the scan such a row has been read. -/
theorem Untouched.of_ended {e : KeyedTable.Entry κ α} (h : Untouched e s)
    (hend : s.status = .ended) : (s.read.filter fun x => x.key = e.key) = [e] :=
  h.behind (Nat.le_of_not_lt fun hlt => (h.ahead hlt).1 hend)

/-! ### Where the rows come from -/

/-- The row was in the table at the start, or has been written since. -/
def FromStartOr (t : KeyedTable κ α) (ops : List (KeyedTable.Op κ α))
    (e : KeyedTable.Entry κ α) : Prop :=
  e ∈ t.rows ∨ KeyedTable.Op.replace e.key e.val ∈ ops

/-- **What is read was there or was written**, and so is the table. -/
theorem source_run (stops : α → Bool) (t : KeyedTable κ α) (events : List (Event κ α)) :
    let s := run (step stops) (start t) events
    (∀ e ∈ s.read, FromStartOr t (writes events) e) ∧
      ∀ e ∈ s.table.rows, FromStartOr t (writes events) e := by
  induction events using List.reverseRecOn with
  | nil => exact ⟨by simp [start], fun e he => Or.inl he⟩
  | append_singleton events ev ih =>
      obtain ⟨hread, hrows⟩ := ih
      have hmono : ∀ {e}, FromStartOr t (writes events) e →
          FromStartOr t (writes (events ++ [ev])) e := by
        refine fun h => h.imp_right fun hmem => ?_
        rw [writes, List.flatMap_append]
        exact List.mem_append_left _ hmem
      simp only [run_concat]
      cases ev with
      | write ops =>
          refine ⟨fun e he => hmono (hread e he), fun e he => ?_⟩
          rcases KeyedTable.mem_rows_of_applyAll he with he | he
          · exact hmono (hrows e he)
          · refine Or.inr ?_
            rw [writes, List.flatMap_append]
            exact List.mem_append_right _ (by simpa [Event.ops] using he)
      | advance =>
          simp only [step]
          rcases advance_cases stops (run (step stops) (start t) events) with
            ⟨-, hs⟩ | ⟨-, -, hs⟩ | ⟨-, f, rest, hahead, hs⟩
          · rw [hs]
            exact ⟨fun e he => hmono (hread e he), fun e he => hmono (hrows e he)⟩
          · rw [hs]
            exact ⟨fun e he => hmono (hread e he), fun e he => hmono (hrows e he)⟩
          · rw [hs]
            refine ⟨fun e he => ?_, fun e he => hmono (hrows e he)⟩
            rcases List.mem_append.mp he with he | he
            · exact hmono (hread e he)
            · rw [List.mem_singleton.mp he]
              exact hmono (hrows f (KeyedTable.mem_ahead.mp (hahead ▸ List.mem_cons_self)).1)

/-! ### Order -/

/-- The rows read so far are in order, and the cursor is at or behind none of them. -/
structure Ordered (s : LiveScan κ α) : Prop where
  rowid_lt : s.read.Pairwise fun e f => e.rowid < f.rowid
  rowid_le : ∀ e ∈ s.read, e.rowid ≤ s.last

/-- **The scan reads in increasing rowid**, whatever is written. -/
theorem ordered_run (stops : α → Bool) (t : KeyedTable κ α) (events : List (Event κ α)) :
    Ordered (run (step stops) (start t) events) := by
  induction events using List.reverseRecOn with
  | nil => exact ⟨List.Pairwise.nil, by simp [start]⟩
  | append_singleton events ev ih =>
      rw [run_concat]
      cases ev with
      | write ops => exact ⟨ih.rowid_lt, ih.rowid_le⟩
      | advance =>
          rw [step]
          rcases advance_cases stops (run (step stops) (start t) events) with
            ⟨-, hs⟩ | ⟨-, -, hs⟩ | ⟨-, f, rest, hahead, hs⟩
          · rwa [hs]
          · rw [hs]
            exact ⟨ih.rowid_lt, ih.rowid_le⟩
          · have hlast := (KeyedTable.mem_ahead.mp (hahead ▸ List.mem_cons_self)).2
            have hbelow : ∀ e ∈ (run (step stops) (start t) events).read, e.rowid < f.rowid :=
              fun e he => (ih.rowid_le e he).trans_lt hlast
            rw [hs]
            refine ⟨List.pairwise_append.mpr ⟨ih.rowid_lt, List.pairwise_singleton _ _, ?_⟩, ?_⟩
            · exact fun e he g hg => List.mem_singleton.mp hg ▸ hbelow e he
            · refine List.forall_mem_append.mpr ⟨fun e he => (hbelow e he).le, ?_⟩
              exact List.forall_mem_singleton.mpr (Nat.le_refl _)

/-! ### Without deletions -/

/-- The cursor is within the table, and of the rows behind it each is what has been read last
under its key. -/
structure Fresh (s : LiveScan κ α) : Prop where
  last_le : s.last ≤ s.table.maxRowid
  latest : ∀ e ∈ s.table.rows, e.rowid ≤ s.last →
    (s.read.filter fun x => x.key = e.key).getLast? = some e

/-- A step of the scan. -/
theorem Fresh.advance (h : Fresh s) : Fresh (s.advance stops) := by
  rcases advance_cases stops s with ⟨-, hs⟩ | ⟨-, -, hs⟩ | ⟨-, f, rest, hahead, hs⟩
  · rwa [hs]
  · rw [hs]
    exact ⟨h.last_le, h.latest⟩
  · have hf := KeyedTable.mem_ahead.mp (hahead ▸ List.mem_cons_self)
    rw [hs]
    refine ⟨KeyedTable.rowid_le_maxRowid hf.1, fun e he hle => ?_⟩
    rw [List.filter_append]
    by_cases hfe : f = e
    · rw [List.filter_cons_of_pos (by simp [hfe]), List.filter_nil, List.getLast?_append, hfe]
      rfl
    · have hkey : f.key ≠ e.key := fun hk => hfe (KeyedTable.eq_of_key_eq hf.1 he hk)
      rw [List.filter_cons_of_neg (by simpa using hkey), List.filter_nil, List.append_nil]
      exact h.latest e he (KeyedTable.rowid_le_of_next hahead he (Ne.symm hfe) hle)

/-- A replacement: the new row is ahead of the cursor. -/
theorem Fresh.replace (h : Fresh s) (k : κ) (v : α) :
    Fresh { s with table := s.table.replace k v } where
  last_le := h.last_le.trans (KeyedTable.maxRowid_lt_replace _ _ _).le
  latest e he hle := by
    rcases KeyedTable.mem_rows_replace.mp he with ⟨he, -⟩ | rfl
    · exact h.latest e he hle
    · exact absurd (hle.trans h.last_le) (by simp)

/-- A scan is stopped by a row that it has read, and no other row it has read stops one. -/
theorem stopped_run (stops : α → Bool) (t : KeyedTable κ α) (events : List (Event κ α)) :
    (run (step stops) (start t) events).status = .stopped ↔
      ∃ e ∈ (run (step stops) (start t) events).read, stops e.val = true := by
  induction events using List.reverseRecOn with
  | nil => simp [start]
  | append_singleton events ev ih =>
      simp only [run_concat]
      cases ev with
      | write ops => exact ih
      | advance =>
          simp only [step]
          rcases advance_cases stops (run (step stops) (start t) events) with
            ⟨-, hs⟩ | ⟨hread, -, hs⟩ | ⟨hread, f, rest, -, hs⟩
          · rwa [hs]
          · rw [hs, ← ih, hread]
            simp
          · rw [hs]
            have hnone : ¬ ∃ e ∈ (run (step stops) (start t) events).read, stops e.val = true := by
              rw [← ih, hread]
              simp
            cases hf : stops f.val with
            | true => simp [hf]
            | false =>
                simp only [Bool.false_eq_true, if_false, reduceCtorEq, false_iff]
                rintro ⟨e, he, hstop⟩
                rcases List.mem_append.mp he with he | he
                · exact hnone ⟨e, he, hstop⟩
                · rw [List.mem_singleton.mp he, hf] at hstop
                  exact absurd hstop (by simp)

end LiveScan
