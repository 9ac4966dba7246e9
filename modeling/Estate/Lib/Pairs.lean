import Mathlib.Data.List.Perm.Subperm
import Mathlib.Data.List.Count
import Mathlib.Tactic.Linarith

/-!
# Two optional keys

Objects that hold up to two keys each, released by a function that gives the second key of each
object with a first one back twice, and no key of the others. What was taken, with some more on the
side, is what is given back exactly when there is nothing on the side, no object has a single key,
and the first keys are the second ones in another order (`pairs_balance_iff`).
-/

namespace Estate.Lib

variable {ι α : Type*} {l : List ι} {fst snd : ι → Option α}

/-- The second keys of the objects with a first one. -/
def seconds (l : List ι) (fst snd : ι → Option α) : List α :=
  (l.filter fun i => (fst i).isSome).filterMap snd

theorem seconds_sublist : (seconds l fst snd).Sublist (l.filterMap snd) :=
  List.filter_sublist.filterMap snd

theorem seconds_length_le : (seconds l fst snd).length ≤ (l.filterMap fst).length := by
  rw [List.length_filterMap_eq_countP, List.countP_eq_length_filter]
  exact List.length_filterMap_le _ _

/-- Of objects with both keys or none, all second keys are counted. -/
theorem seconds_eq (h : ∀ i ∈ l, fst i = none ↔ snd i = none) :
    seconds l fst snd = l.filterMap snd := by
  unfold seconds
  rw [List.filterMap_filter]
  refine List.filterMap_congr fun i hi => ?_
  cases hf : fst i
  · simp [(h i hi).1 hf]
  · simp

/-- Where as many second keys are counted as there are first ones, and as there are second ones,
objects have both keys or none. -/
theorem both_of_length (hf : (seconds l fst snd).length = (l.filterMap fst).length)
    (hs : (seconds l fst snd).length = (l.filterMap snd).length) :
    ∀ i ∈ l, fst i = none ↔ snd i = none := by
  simp only [seconds, List.length_filterMap_eq_countP] at hf hs
  have hboth : (l.filter fun i => (fst i).isSome).countP (fun i => (snd i).isSome) =
      (l.filter fun i => (fst i).isSome).length := by
    rw [hf, List.countP_eq_length_filter]
  rw [List.countP_eq_length] at hboth
  rw [List.countP_eq_countP_filter_add l _ fun i => (fst i).isSome] at hs
  have hrest := List.countP_eq_zero.1 (Nat.add_eq_left.1 hs.symm)
  intro i hi
  rcases hfi : fst i with _ | a
  · have := hrest i (List.mem_filter.2 ⟨hi, by simp [hfi]⟩)
    simpa using this
  · have := hboth i (List.mem_filter.2 ⟨hi, by simp [hfi]⟩)
    simpa [Option.isSome_iff_ne_none] using this

section Listed

variable {κ : Type*} {is : List κ} {a : κ → ι} {fst' snd' : κ → Option α}

/-- The keys of objects that are listed in another way. -/
theorem filterMap_listed (hperm : l.Perm (is.map a)) (hfst : ∀ i ∈ is, fst (a i) = fst' i) :
    (l.filterMap fst).Perm (is.filterMap fst') := by
  refine (hperm.filterMap fst).trans ?_
  rw [List.filterMap_map]
  exact List.Perm.of_eq (List.filterMap_congr hfst)

theorem seconds_listed (hperm : l.Perm (is.map a)) (hfst : ∀ i ∈ is, fst (a i) = fst' i)
    (hsnd : ∀ i ∈ is, snd (a i) = snd' i) : (seconds l fst snd).Perm (seconds is fst' snd') := by
  unfold seconds
  rw [List.filterMap_filter, List.filterMap_filter]
  refine filterMap_listed hperm fun i hi => ?_
  rw [hfst i hi, hsnd i hi]

end Listed

theorem pairs_balance_iff [BEq α] [LawfulBEq α] (side : α → ℕ) :
    (∀ k, side k + (l.filterMap fst).count k + (l.filterMap snd).count k =
        2 * (seconds l fst snd).count k) ↔
      (∀ k, side k = 0) ∧ (∀ i ∈ l, fst i = none ↔ snd i = none) ∧
        (l.filterMap fst).Perm (l.filterMap snd) := by
  constructor
  · intro h
    have hle : ∀ k, (seconds l fst snd).count k ≤ (l.filterMap snd).count k :=
      fun k => seconds_sublist.count_le k
    -- No key comes first more often than it is counted, so the first keys are the counted ones.
    have hsub : (l.filterMap fst).Subperm (seconds l fst snd) := by
      rw [List.subperm_ext_iff]
      intro k _
      have := h k
      have := hle k
      omega
    have hfirst := hsub.perm_of_length_le seconds_length_le
    have hsecond : (seconds l fst snd).Perm (l.filterMap snd) := by
      rw [List.perm_iff_count]
      intro k
      have := h k
      have := hle k
      have := hfirst.count_eq k
      omega
    refine ⟨fun k => ?_, both_of_length hfirst.length_eq.symm hsecond.length_eq,
      hfirst.trans hsecond⟩
    have := h k
    have := hfirst.count_eq k
    have := hsecond.count_eq k
    omega
  · rintro ⟨hside, hboth, hperm⟩ k
    rw [seconds_eq hboth, hside k, hperm.count_eq k]
    omega

end Estate.Lib
