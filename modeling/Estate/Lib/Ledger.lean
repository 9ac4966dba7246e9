import Mathlib.Algebra.BigOperators.Group.List.Basic
import Mathlib.Algebra.Order.Group.Multiset

/-!
# Ledgers

What a program takes and gives back, as a run over the multiset of what it holds. A run fails where
something is given back that is not held, so that a run that succeeds gives nothing back twice. A
run that succeeds does so whatever else is held (`Spends.frame`).
-/

namespace Estate.Lib

/-- Something is taken or given back. -/
inductive Op (α : Type*)
  | take (a : α)
  | give (a : α)

variable {α β : Type*} [DecidableEq α]

def Op.step (held : Multiset α) : Op α → Option (Multiset α)
  | take a => some (a ::ₘ held)
  | give a => if a ∈ held then some (held.erase a) else none

/-- What is held before and after. -/
def Spends (held : Multiset α) (ops : List (Op α)) (left : Multiset α) : Prop :=
  ops.foldlM Op.step held = some left

namespace Spends

variable {m m' m'' : Multiset α} {ops ops' : List (Op α)}

theorem nil : Spends m [] m := rfl

theorem append (h : Spends m ops m') (h' : Spends m' ops' m'') : Spends m (ops ++ ops') m'' := by
  rw [Spends, List.foldlM_append, h]
  exact h'

theorem cons {o : Op α} (h : Spends m [o] m') (h' : Spends m' ops m'') : Spends m (o :: ops) m'' :=
  h.append h'

theorem take (a : α) : Spends m [.take a] (a ::ₘ m) := rfl

theorem give (a : α) : Spends (a ::ₘ m) [.give a] m := by
  have hstep : Op.step (a ::ₘ m) (.give a) = some m := by
    rw [Op.step, if_pos (Multiset.mem_cons_self a m), Multiset.erase_cons_head]
  rw [Spends, List.foldlM_cons, hstep]
  rfl

theorem unique (h : Spends m ops m') (h' : Spends m ops m'') : m' = m'' :=
  Option.some.inj (h.symm.trans h')

theorem step_frame {o : Op α} (h : o.step m = some m') (r : Multiset α) :
    o.step (m + r) = some (m' + r) := by
  cases o with
  | take a =>
    obtain rfl := Option.some.inj h
    rw [Op.step, Multiset.cons_add]
  | give a =>
    rw [Op.step] at h
    split_ifs at h with ha
    obtain rfl := Option.some.inj h
    rw [Op.step, if_pos (Multiset.mem_add.2 (.inl ha)), Multiset.erase_add_left_pos r ha]

/-- What is held besides stays. -/
theorem frame (h : Spends m ops m') (r : Multiset α) : Spends (m + r) ops (m' + r) := by
  induction ops generalizing m with
  | nil => rw [Option.some.inj h]; exact nil
  | cons o ops ih =>
    rw [Spends, List.foldlM_cons] at h
    rcases hm : o.step m with _ | m₁
    · rw [hm] at h
      cases h
    · rw [hm] at h
      rw [Spends, List.foldlM_cons, step_frame hm r]
      exact ih h

/-- What is taken in two runs. -/
theorem both (h : Spends 0 ops m) (h' : Spends 0 ops' m') : Spends 0 (ops ++ ops') (m + m') := by
  have hframe := h'.frame m
  rw [zero_add, add_comm] at hframe
  exact h.append hframe

/-- What is given back in two runs. -/
theorem clear (h : Spends m ops 0) (h' : Spends m' ops' 0) : Spends (m + m') (ops ++ ops') 0 := by
  have hframe := h.frame m'
  rw [zero_add] at hframe
  exact hframe.append h'

/-- What is taken is given back. -/
theorem bracket {mid : List (Op α)} (h : Spends 0 ops m) (hmid : Spends 0 mid m')
    (h' : Spends m ops' 0) : Spends 0 (ops ++ (mid ++ ops')) m' := by
  have hheld := hmid.frame m
  have hframe := h'.frame m'
  rw [zero_add, add_comm] at hheld
  rw [zero_add] at hframe
  exact h.append (hheld.append hframe)

theorem takes (l : List α) : Spends 0 (l.map .take) (l : Multiset α) := by
  induction l with
  | nil => exact nil
  | cons a l ih => exact both (take a) ih

theorem gives (l : List α) : Spends (l : Multiset α) (l.map .give) 0 := by
  induction l with
  | nil => exact nil
  | cons a l ih => exact clear (give a) ih

section Flat

variable {f : β → Multiset α} {g : β → List (Op α)} {l l' : List β}

theorem flatMap_take (h : ∀ x ∈ l, Spends 0 (g x) (f x)) :
    Spends 0 (l.flatMap g) (l.map f).sum := by
  induction l with
  | nil => exact nil
  | cons x l ih =>
    rw [List.flatMap_cons, List.map_cons, List.sum_cons]
    exact both (h x List.mem_cons_self) (ih fun y hy => h y (List.mem_cons_of_mem x hy))

/-- All is given back, in any order. -/
theorem flatMap_give (h : ∀ x ∈ l, Spends (f x) (g x) 0) (hperm : l.Perm l') :
    Spends (l'.map f).sum (l.flatMap g) 0 := by
  rw [← (hperm.map f).sum_eq]
  clear hperm
  induction l with
  | nil => exact nil
  | cons x l ih =>
    rw [List.flatMap_cons, List.map_cons, List.sum_cons]
    exact clear (h x List.mem_cons_self) (ih fun y hy => h y (List.mem_cons_of_mem x hy))

end Flat

end Spends

end Estate.Lib
