import Mathlib.Data.List.Sort

/-!
# The contract of `qsort`

What the C standard promises of a sort: where the comparison is an order of the elements, the
result holds them in that order. Nothing is promised for a comparison that is none. Elements that
no two of compare equal come out strictly increasing (`Qsort.increasing`).
-/

namespace Estate.Lib

section Order

variable {α : Type}

/-- The comparison is an order of the elements of a list. -/
structure Orders (cmp : α → α → ℤ) (xs : List α) : Prop where
  antisymm : ∀ x ∈ xs, ∀ y ∈ xs, cmp x y < 0 ↔ 0 < cmp y x
  trans : ∀ x ∈ xs, ∀ y ∈ xs, ∀ z ∈ xs, cmp x y ≤ 0 → cmp y z ≤ 0 → cmp x z ≤ 0

theorem Orders.total {cmp : α → α → ℤ} {xs : List α} (h : Orders cmp xs) {x y : α} (hx : x ∈ xs)
    (hy : y ∈ xs) : cmp x y ≤ 0 ∨ cmp y x ≤ 0 := by
  have := h.antisymm y hy x hx
  omega

/-- A comparison by keys is an order. -/
theorem Orders.of_key {κ : Type*} [LinearOrder κ] {cmp : α → α → ℤ} {xs : List α} {key : α → κ}
    (h : ∀ x ∈ xs, ∀ y ∈ xs, (cmp x y < 0 ↔ key x < key y) ∧ (0 < cmp x y ↔ key y < key x)) :
    Orders cmp xs where
  antisymm := by
    intro x hx y hy
    rw [(h x hx y hy).1, (h y hy x hx).2]
  trans := by
    intro x hx y hy z hz hxy hyz
    have hxy' := mt (h x hx y hy).2.2 (not_lt.2 hxy)
    have hyz' := mt (h y hy z hz).2.2 (not_lt.2 hyz)
    exact not_lt.1 (mt (h x hx z hz).2.1 (not_lt.2 ((not_lt.1 hxy').trans (not_lt.1 hyz'))))

/-- Insertion keeps a list in order, if the comparison orders all of it. -/
theorem pairwise_insertionSort_of_orders {cmp : α → α → ℤ} {xs : List α} (h : Orders cmp xs) :
    (xs.insertionSort fun x y => cmp x y ≤ 0).Pairwise fun x y => cmp x y ≤ 0 := by
  let le : {x // x ∈ xs} → {x // x ∈ xs} → Prop := fun x y => cmp x.1 y.1 ≤ 0
  have : Std.Total le := ⟨fun x y => h.total x.2 y.2⟩
  have : IsTrans _ le := ⟨fun x y z => h.trans x.1 x.2 y.1 y.2 z.1 z.2⟩
  have hmap : (xs.attach.insertionSort le).map Subtype.val
      = xs.insertionSort fun x y => cmp x y ≤ 0 := by
    rw [List.map_insertionSort le (fun x y => cmp x y ≤ 0) Subtype.val xs.attach
      (fun _ _ _ _ => Iff.rfl), List.attach_map_subtype_val]
  rw [← hmap, List.pairwise_map]
  exact List.pairwise_insertionSort le xs.attach

end Order

/-- A `qsort`. -/
structure Qsort where
  sort : ∀ {α : Type}, (α → α → ℤ) → List α → List α
  perm : ∀ {α : Type} (cmp : α → α → ℤ) (xs : List α), Orders cmp xs → (sort cmp xs).Perm xs
  sorted : ∀ {α : Type} (cmp : α → α → ℤ) (xs : List α), Orders cmp xs →
    (sort cmp xs).Pairwise fun x y => cmp x y ≤ 0

/-- Insertion sort is one. -/
def Qsort.insertion : Qsort where
  sort := fun cmp xs => xs.insertionSort fun x y => cmp x y ≤ 0
  perm := fun _ xs _ => List.perm_insertionSort _ xs
  sorted := fun _ _ h => pairwise_insertionSort_of_orders h

/-- Where only equal elements compare equal, different elements come out strictly increasing. -/
theorem Qsort.increasing (qs : Qsort) {α : Type} {cmp : α → α → ℤ} {xs : List α}
    (h : Orders cmp xs) (hd : xs.Pairwise fun x y => cmp x y ≠ 0) :
    (qs.sort cmp xs).Pairwise fun x y => cmp x y < 0 ∧ 0 < cmp y x := by
  have hperm := qs.perm cmp xs h
  have hboth : xs.Pairwise fun x y => cmp x y ≠ 0 ∧ cmp y x ≠ 0 := by
    refine hd.imp_of_mem ?_
    intro x y hx hy hne
    have := h.antisymm x hx y hy
    have := h.antisymm y hy x hx
    omega
  have hne : (qs.sort cmp xs).Pairwise fun x y => cmp x y ≠ 0 ∧ cmp y x ≠ 0 :=
    hperm.symm.pairwise hboth fun hxy => ⟨hxy.2, hxy.1⟩
  refine List.Pairwise.imp_of_mem ?_ ((qs.sorted cmp xs h).and hne)
  rintro x y hx hy ⟨hle, hne⟩
  have := h.antisymm x (hperm.mem_iff.1 hx) y (hperm.mem_iff.1 hy)
  omega

end Estate.Lib
