import DartTorrent.Basis.GuardedRun
import Mathlib.Data.List.Infix

/-!
# Statements in Transactions

A `TxnStore` is a value as its connection sees it, with the value that an open transaction
began with. A `TxnBracket` is one statement with what is done around it: it may begin a
transaction, it may have an effect, and it may close the open transaction with a commit or a
rollback. A bracket that does not close the transaction leaves it to those after it, and one
that runs outside a transaction is committed at once.

What is *durable* at the end of a run is said by looking ahead: an effect survives if it ran
outside a transaction, or if the first bracket from its own on that closes the transaction
commits it.

## Main results

* `durable_run`: the durable value is that of the survivors, applied in order.
* `survivors_sublist`: a run makes nothing durable that did not run.
* `survivors_isPrefix`: without rollbacks it loses only the last effects.
* `survivors_eq_executed`: and none if the last bracket commits.
-/

open GuardedRun

/-- How a transaction is closed. -/
inductive TxnEnd
  | commit
  | rollback
deriving DecidableEq, Repr

/-- A statement and what is done around it. -/
structure TxnBracket (ε : Type*) where
  begins : Bool
  effect : Option ε
  closes : Option TxnEnd

/-- A value as its connection sees it, and the value that the open transaction began with. -/
structure TxnStore (τ : Type*) where
  value : τ
  saved : Option τ

namespace TxnStore

variable {τ ε : Type*}

/-- What a crash leaves. -/
def durable (s : TxnStore τ) : τ := s.saved.getD s.value

/-- A transaction begins, unless one is open. -/
def begin (s : TxnStore τ) : TxnStore τ := { s with saved := some s.durable }

/-- The open transaction, if any, is closed. -/
def close (s : TxnStore τ) : TxnEnd → TxnStore τ
  | .commit => ⟨s.value, none⟩
  | .rollback => ⟨s.durable, none⟩

/-- One bracket, `act` being what an effect does to the value. -/
def step (act : τ → ε → τ) (s : TxnStore τ) (b : TxnBracket ε) : TxnStore τ :=
  let s := if b.begins then s.begin else s
  let s := { s with value := b.effect.toList.foldl act s.value }
  match b.closes with
  | none => s
  | some e => s.close e

/-- How the first bracket that closes the transaction does it. -/
def firstClose (bs : List (TxnBracket ε)) : Option TxnEnd := bs.findSome? TxnBracket.closes

/-- The effects that a run makes durable, a transaction being open at its start or not. -/
def survivors : Bool → List (TxnBracket ε) → List ε
  | _, [] => []
  | opened, b :: bs =>
      let opened := opened || b.begins
      (if !opened || firstClose (b :: bs) = some .commit then b.effect.toList else []) ++
        survivors (opened && b.closes.isNone) bs

/-- The effects of the brackets whose statement ran. -/
def executed (bs : List (TxnBracket ε)) : List ε := bs.filterMap TxnBracket.effect

@[simp] theorem survivors_nil (opened : Bool) :
    survivors opened ([] : List (TxnBracket ε)) = [] := rfl

variable {act : τ → ε → τ}

@[simp] theorem durable_begin (s : TxnStore τ) : s.begin.durable = s.durable := rfl

/-- What becomes durable of a value that has not been committed. -/
def settled (s : TxnStore τ) (e : Option TxnEnd) : τ :=
  if s.saved.isSome ∧ e ≠ some .commit then s.durable else s.value

@[simp] theorem settled_commit (s : TxnStore τ) : s.settled (some .commit) = s.value := by
  simp [settled]

theorem settled_of_ne (s : TxnStore τ) {e : Option TxnEnd} (h : e ≠ some .commit) :
    s.settled e = s.durable := by
  cases hs : s.saved with
  | none => simp [settled, durable, hs]
  | some v => simp [settled, hs, h]

/-! ### One bracket -/

theorem firstClose_cons (b : TxnBracket ε) (bs : List (TxnBracket ε)) :
    firstClose (b :: bs) = b.closes.or (firstClose bs) := by
  rw [firstClose, List.findSome?_cons]
  cases b.closes <;> rfl

/-- The store after the statement of a bracket, before anything is closed. -/
theorem step_eq (s : TxnStore τ) (b : TxnBracket ε) :
    step act s b =
      let s' : TxnStore τ := ⟨b.effect.toList.foldl act s.value,
        if b.begins then some s.durable else s.saved⟩
      match b.closes with
      | none => s'
      | some e => s'.close e := by
  rw [step]
  cases b.begins <;> rfl

/-- A transaction is open after a bracket if it was, or the bracket began it, and the bracket
did not close it. -/
theorem saved_step (s : TxnStore τ) (b : TxnBracket ε) :
    (step act s b).saved.isSome = ((s.saved.isSome || b.begins) && b.closes.isNone) := by
  rw [step_eq]
  cases hb : b.begins <;> cases hc : b.closes with
  | none => simp
  | some e => cases e <;> simp [close]

/-- **One bracket**: what it makes of the value that will become durable. -/
theorem settled_step (s : TxnStore τ) (b : TxnBracket ε) (bs : List (TxnBracket ε)) :
    (step act s b).settled (firstClose bs) =
      (if !(s.saved.isSome || b.begins) || firstClose (b :: bs) = some .commit then
        b.effect.toList else []).foldl act (s.settled (firstClose (b :: bs))) := by
  rw [step_eq, firstClose_cons]
  cases hc : b.closes with
  | some e =>
      -- the bracket closes the transaction: what comes after it does not matter
      cases e with
      | commit => simp [close, settled]
      | rollback =>
          cases hb : b.begins <;> cases hs : s.saved <;>
            simp [close, settled, durable, hs]
  | none =>
      by_cases hcommit : firstClose bs = some .commit
      · simp [hcommit, settled]
      · cases hb : b.begins <;> cases hs : s.saved <;>
          simp [settled, durable, hcommit, hs]

/-! ### Runs -/

/-- **What a crash leaves**: the value with the survivors applied in order. A transaction open at
the start counts if the run commits it. -/
theorem durable_run (s : TxnStore τ) (bs : List (TxnBracket ε)) :
    (run (step act) s bs).durable =
      (survivors s.saved.isSome bs).foldl act (s.settled (firstClose bs)) := by
  induction bs generalizing s with
  | nil => exact (s.settled_of_ne (by simp [firstClose])).symm
  | cons b bs ih => rw [run_cons, ih, saved_step, settled_step, survivors, List.foldl_append]

/-- From outside a transaction. -/
theorem durable_run_of_closed (v : τ) (bs : List (TxnBracket ε)) :
    (run (step act) ⟨v, none⟩ bs).durable = (survivors false bs).foldl act v := by
  rw [durable_run]
  rfl

theorem executed_cons (b : TxnBracket ε) (bs : List (TxnBracket ε)) :
    executed (b :: bs) = b.effect.toList ++ executed bs := by
  rw [executed, List.filterMap_cons]
  cases b.effect <;> rfl

/-- **Nothing survives that did not run**, and the survivors keep their order. -/
theorem survivors_sublist (opened : Bool) (bs : List (TxnBracket ε)) :
    (survivors opened bs).Sublist (executed bs) := by
  induction bs generalizing opened with
  | nil => exact List.Sublist.refl _
  | cons b bs ih =>
      rw [executed_cons, survivors]
      refine List.Sublist.append ?_ (ih _)
      split
      · exact List.Sublist.refl _
      · exact List.nil_sublist _

/-- In an open transaction that nothing closes, nothing survives. -/
theorem survivors_of_firstClose_none {bs : List (TxnBracket ε)} (h : firstClose bs = none) :
    survivors true bs = [] := by
  induction bs with
  | nil => rfl
  | cons b bs ih =>
      rw [firstClose_cons] at h
      obtain ⟨hb, hbs⟩ := Option.or_eq_none_iff.mp h
      simp [survivors, firstClose_cons, hb, hbs, ih hbs]

theorem firstClose_of_no_rollback {bs : List (TxnBracket ε)}
    (h : ∀ b ∈ bs, b.closes ≠ some .rollback) :
    firstClose bs = none ∨ firstClose bs = some .commit := by
  rcases hclose : firstClose bs with _ | e
  · exact Or.inl rfl
  · obtain ⟨b, hb, hbe⟩ := List.exists_of_findSome?_eq_some hclose
    cases e with
    | commit => exact Or.inr rfl
    | rollback => exact absurd hbe (h b hb)

/-- **Without rollbacks a crash loses only the last effects**: what survives is an initial part of
what ran. -/
theorem survivors_isPrefix {bs : List (TxnBracket ε)}
    (h : ∀ b ∈ bs, b.closes ≠ some .rollback) (opened : Bool) :
    survivors opened bs <+: executed bs := by
  induction bs generalizing opened with
  | nil => exact List.prefix_rfl
  | cons b bs ih =>
      obtain ⟨hb, hbs⟩ := List.forall_mem_cons.mp h
      rw [executed_cons, survivors]
      by_cases hkept : (!(opened || b.begins) || firstClose (b :: bs) = some .commit) = true
      · rw [if_pos hkept]
        exact (List.prefix_append_right_inj _).mpr (ih hbs _)
      · -- the transaction is never closed from here on: nothing after this survives either
        rw [if_neg hkept]
        rw [Bool.or_eq_true, not_or, Bool.not_eq_true', decide_eq_true_eq,
          Bool.not_eq_false] at hkept
        obtain ⟨hopen, hcommit⟩ := hkept
        have hnone := (firstClose_of_no_rollback h).resolve_right hcommit
        rw [firstClose_cons] at hnone
        obtain ⟨hclose, hrest⟩ := Option.or_eq_none_iff.mp hnone
        have hnil : survivors (true && (none : Option TxnEnd).isNone) bs = [] :=
          survivors_of_firstClose_none hrest
        rw [hopen, hclose, hnil]
        exact List.nil_prefix

/-- What a commit closes has not been rolled back. -/
theorem firstClose_concat {bs : List (TxnBracket ε)} {b : TxnBracket ε}
    (h : ∀ b ∈ bs, b.closes ≠ some .rollback) (hb : b.closes = some .commit) :
    firstClose (bs ++ [b]) = some .commit := by
  have happend : firstClose (bs ++ [b]) = (firstClose bs).or (some .commit) := by
    rw [firstClose, List.findSome?_append, List.findSome?_singleton, hb]
    rfl
  rw [happend]
  rcases firstClose_of_no_rollback h with hnone | hcommit
  · rw [hnone, Option.none_or]
  · rw [hcommit, Option.some_or]

/-- **A commit settles everything before it**: without rollbacks, and the last bracket committing,
all that ran survives. -/
theorem survivors_eq_executed {bs : List (TxnBracket ε)} {b : TxnBracket ε}
    (h : ∀ b ∈ bs, b.closes ≠ some .rollback) (hb : b.closes = some .commit) (opened : Bool) :
    survivors opened (bs ++ [b]) = executed (bs ++ [b]) := by
  induction bs generalizing opened with
  | nil =>
      rw [List.nil_append, survivors, executed_cons, firstClose_cons, hb]
      simp [executed]
  | cons a bs ih =>
      have hrest := ih (List.forall_mem_cons.mp h).2
      have hclose : firstClose (a :: (bs ++ [b])) = some .commit := firstClose_concat h hb
      rw [List.cons_append, survivors, executed_cons, hrest, hclose]
      simp

end TxnStore
