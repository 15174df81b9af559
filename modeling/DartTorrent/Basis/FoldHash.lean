import Mathlib.Data.Fintype.BigOperators
import Mathlib.Data.Fintype.Pigeonhole
import Mathlib.Data.List.OfFn

/-!
# Hashes That Fold a Step

A hash of a string that folds one step over its letters, from a seed. Many steps in use are
bijections of the state for each letter, and tell letters apart in each state. Then a difference
in one letter is never lost: whatever follows it, the two states stay apart. For the same reason a
collision is never lost either: it is a collision with every common ending, and the collisions
with a common ending are no others.

## Main results

* `fold_append_right_iff`: a common ending neither makes nor mends a collision.
* `fold_ne_of_one_letter`: strings that differ in one letter do not collide.
* `exists_collision`: strings of one length collide as soon as there are more of them than hashes.
-/

namespace FoldHash

variable {α σ : Type*} {step : σ → α → σ}

/-- The step is injective in the state. -/
def KeepsState (step : σ → α → σ) : Prop := ∀ a, Function.Injective fun s => step s a

/-- The step tells letters apart. -/
def KeepsLetter (step : σ → α → σ) : Prop := ∀ s, Function.Injective (step s)

/-- States that differ stay apart. -/
theorem fold_injective (hstep : KeepsState step) (ending : List α) :
    Function.Injective fun s => ending.foldl step s := by
  induction ending with
  | nil => exact Function.injective_id
  | cons a ending ih => exact fun s s' h => hstep a (ih h)

/-- **A common ending** neither makes nor mends a collision. -/
theorem fold_append_right_iff (hstep : KeepsState step) (seed : σ) (x y ending : List α) :
    (x ++ ending).foldl step seed = (y ++ ending).foldl step seed ↔
      x.foldl step seed = y.foldl step seed := by
  rw [List.foldl_append, List.foldl_append]
  exact (fold_injective hstep ending).eq_iff

/-- **One letter**: strings that differ in it, and nowhere else, do not collide. -/
theorem fold_ne_of_one_letter (hstep : KeepsState step) (hletter : KeepsLetter step) (seed : σ)
    (start ending : List α) {a b : α} (hab : a ≠ b) :
    (start ++ a :: ending).foldl step seed ≠ (start ++ b :: ending).foldl step seed := by
  intro h
  rw [List.append_cons, List.append_cons start b, fold_append_right_iff hstep,
    List.foldl_append, List.foldl_append] at h
  exact hab (hletter _ h)

/-- **Collisions of one length**: more strings than hashes. `letter` numbers letters that are told
apart. -/
theorem exists_collision {ι : Type*} [Fintype ι] [Fintype σ] (hash : List α → σ) {letter : ι → α}
    (hletter : Function.Injective letter) {n : ℕ} (hn : Fintype.card σ < Fintype.card ι ^ n) :
    ∃ x y : List α, x.length = n ∧ y.length = n ∧ x ≠ y ∧ hash x = hash y := by
  have hcard : Fintype.card σ < Fintype.card (Fin n → ι) := by
    rwa [Fintype.card_fun, Fintype.card_fin]
  obtain ⟨f, g, hne, heq⟩ := Fintype.exists_ne_map_eq_of_card_lt
    (fun f : Fin n → ι => hash (List.ofFn fun i => letter (f i))) hcard
  refine ⟨_, _, List.length_ofFn, List.length_ofFn, fun h => hne ?_, heq⟩
  exact funext fun i => hletter (congrFun (List.ofFn_injective h) i)

end FoldHash
