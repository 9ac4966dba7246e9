import Mathlib.Data.List.Sort
import Mathlib.Order.Basic

/-!
# The halving search

The loop of `bsearch`: it keeps a range of indices, asks a three-way comparison about the middle
one and goes on in one half. It finds every element of a list under its own key exactly when the
keys increase along the list (`search_finds_all_iff`): an element on the wrong side of one middle
it is compared with is never reached.
-/

namespace Estate.Lib

variable {α κ : Type*}

/-- The search between two indices, at most `fuel` times around. `cmp x` is negative when what is
searched lies before `x`, positive when it lies after. -/
def searchIn (cmp : α → ℤ) (xs : List α) : ℕ → ℕ → ℕ → Option α
  | 0, _, _ => none
  | fuel + 1, l, u =>
    if l < u then
      match xs[(l + u) / 2]? with
      | none => none
      | some x =>
        if cmp x < 0 then searchIn cmp xs fuel l ((l + u) / 2)
        else if 0 < cmp x then searchIn cmp xs fuel ((l + u) / 2 + 1) u
        else some x
    else none

/-- Every round halves the range, so the length is fuel enough. -/
def search (cmp : α → ℤ) (xs : List α) : Option α :=
  searchIn cmp xs xs.length 0 xs.length

/-- What a search returns is in its range and compares equal. -/
theorem searchIn_some {cmp : α → ℤ} {xs : List α} {x : α} :
    ∀ {fuel l u : ℕ}, searchIn cmp xs fuel l u = some x →
      (∃ i, l ≤ i ∧ i < u ∧ xs[i]? = some x) ∧ cmp x = 0
  | 0, l, u, h => by simp [searchIn] at h
  | fuel + 1, l, u, h => by
    unfold searchIn at h
    split_ifs at h with hlu
    split at h
    · simp at h
    · rename_i y hy
      split_ifs at h with hneg hpos
      · obtain ⟨⟨i, hli, hiu, hi⟩, hx⟩ := searchIn_some h
        exact ⟨⟨i, hli, by omega, hi⟩, hx⟩
      · obtain ⟨⟨i, hli, hiu, hi⟩, hx⟩ := searchIn_some h
        exact ⟨⟨i, by omega, hiu, hi⟩, hx⟩
      · simp only [Option.some.injEq] at h
        subst h
        exact ⟨⟨_, by omega, by omega, hy⟩, by omega⟩

theorem search_some {cmp : α → ℤ} {xs : List α} {x : α} (h : search cmp xs = some x) :
    x ∈ xs ∧ cmp x = 0 := by
  obtain ⟨⟨i, -, -, hi⟩, hx⟩ := searchIn_some h
  exact ⟨List.mem_of_getElem? hi, hx⟩

theorem searchIn_congr {cmp cmp' : α → ℤ} {xs : List α} (h : ∀ x ∈ xs, cmp x = cmp' x) :
    ∀ fuel l u : ℕ, searchIn cmp xs fuel l u = searchIn cmp' xs fuel l u
  | 0, _, _ => rfl
  | fuel + 1, l, u => by
    unfold searchIn
    rcases hx : xs[(l + u) / 2]? with _ | x
    · rfl
    · simp only [h x (List.mem_of_getElem? hx), searchIn_congr h fuel]

/-- A search looks at nothing but how the elements compare. -/
theorem search_congr {cmp cmp' : α → ℤ} {xs : List α} (h : ∀ x ∈ xs, cmp x = cmp' x) :
    search cmp xs = search cmp' xs := searchIn_congr h _ _ _

/-- Where what is searched lies after all before an element and before all after it, it is found
there. -/
theorem searchIn_of_parted {cmp : α → ℤ} {xs : List α} {x : α} {i : ℕ} (hi : xs[i]? = some x)
    (hx : cmp x = 0) (hbelow : ∀ (j : ℕ) (y : α), j < i → xs[j]? = some y → 0 < cmp y)
    (habove : ∀ (j : ℕ) (y : α), i < j → xs[j]? = some y → cmp y < 0) :
    ∀ {fuel l u : ℕ}, u ≤ l + fuel → u ≤ xs.length → l ≤ i → i < u →
      searchIn cmp xs fuel l u = some x
  | 0, l, u, hf, hu, hli, hiu => by omega
  | fuel + 1, l, u, hf, hu, hli, hiu => by
    have hm : (l + u) / 2 < xs.length := by omega
    obtain ⟨y, hy⟩ : ∃ y, xs[(l + u) / 2]? = some y := ⟨_, List.getElem?_eq_getElem hm⟩
    unfold searchIn
    rw [if_pos (by omega), hy]
    simp only []
    rcases lt_trichotomy i ((l + u) / 2) with hlt | heq | hgt
    · rw [if_pos (habove _ _ hlt hy)]
      exact searchIn_of_parted hi hx hbelow habove (by omega) (by omega) hli hlt
    · subst heq
      rw [show y = x from Option.some.inj (hy.symm.trans hi), if_neg (by omega), if_neg (by omega)]
    · have := hbelow _ _ hgt hy
      rw [if_neg (by omega), if_pos this]
      exact searchIn_of_parted hi hx hbelow habove (by omega) hu (by omega) hiu

theorem search_of_parted {cmp : α → ℤ} {xs : List α} {x : α} (hx : x ∈ xs) (hzero : cmp x = 0)
    (h : xs.Pairwise fun y z => (z = x → 0 < cmp y) ∧ (y = x → cmp z < 0)) :
    search cmp xs = some x := by
  obtain ⟨i, hi, rfl⟩ := List.mem_iff_getElem.1 hx
  rw [List.pairwise_iff_getElem] at h
  refine searchIn_of_parted (List.getElem?_eq_getElem hi) hzero ?_ ?_ (by omega) le_rfl
    (Nat.zero_le _) hi
  · intro j y hji hy
    obtain ⟨hj, rfl⟩ := List.getElem?_eq_some_iff.1 hy
    exact (h j i hj hi hji).1 rfl
  · intro j y hij hy
    obtain ⟨hj, rfl⟩ := List.getElem?_eq_some_iff.1 hy
    exact (h i j hi hj hij).2 rfl

section Keys

variable [LinearOrder κ] (key : α → κ)

/-- The comparison orders a searched key and the elements as the keys are ordered. -/
def Compares (cmp : κ → α → ℤ) (xs : List α) (k : κ) : Prop :=
  ∀ x ∈ xs, (cmp k x < 0 ↔ k < key x) ∧ (0 < cmp k x ↔ key x < k)

variable {key} {cmp : κ → α → ℤ} {xs : List α}

/-- Where every element of a range is found under its key, the keys increase along the range. -/
theorem increasing_of_searchIn
    (hd : ∀ (i j : ℕ) (x y : α), xs[i]? = some x → xs[j]? = some y → key x = key y → i = j)
    (hc : ∀ x ∈ xs, Compares key cmp xs (key x)) :
    ∀ {fuel l u : ℕ}, u ≤ l + fuel → u ≤ xs.length →
      (∀ (i : ℕ) (x : α), l ≤ i → i < u → xs[i]? = some x →
        searchIn (cmp (key x)) xs fuel l u = some x) →
      ∀ (i j : ℕ) (x y : α), l ≤ i → i < j → j < u → xs[i]? = some x → xs[j]? = some y → key x < key y
  | 0, l, u, hf, hu, _ => by
    intro i j x y hli hij hju
    omega
  | fuel + 1, l, u, hf, hu, hall => by
    intro i j x y hli hij hju hi hj
    have hm : (l + u) / 2 < xs.length := by omega
    obtain ⟨z, hz⟩ : ∃ z, xs[(l + u) / 2]? = some z := ⟨_, List.getElem?_eq_getElem hm⟩
    -- An element on the left of the middle must lie below it, or the search leaves it behind.
    have hleft : ∀ (n : ℕ) (w : α), l ≤ n → n < (l + u) / 2 → xs[n]? = some w →
        key w < key z ∧ searchIn (cmp (key w)) xs fuel l ((l + u) / 2) = some w := by
      intro n w hln hnm hw
      obtain ⟨hneg, hpos⟩ := hc w (List.mem_of_getElem? hw) z (List.mem_of_getElem? hz)
      have h := hall n w hln (by omega) hw
      unfold searchIn at h
      rw [if_pos (by omega), hz] at h
      simp only [] at h
      split_ifs at h with h1 h2
      · exact ⟨hneg.1 h1, h⟩
      · obtain ⟨⟨n', hn', -, hw'⟩, -⟩ := searchIn_some h
        have := hd _ _ _ _ hw hw' rfl
        omega
      · have := hd _ _ _ _ hw hz (le_antisymm (not_lt.1 fun h => h2 (hpos.2 h))
          (not_lt.1 fun h => h1 (hneg.2 h)))
        omega
    have hright : ∀ (n : ℕ) (w : α), (l + u) / 2 < n → n < u → xs[n]? = some w →
        key z < key w ∧ searchIn (cmp (key w)) xs fuel ((l + u) / 2 + 1) u = some w := by
      intro n w hmn hnu hw
      obtain ⟨hneg, hpos⟩ := hc w (List.mem_of_getElem? hw) z (List.mem_of_getElem? hz)
      have h := hall n w (by omega) hnu hw
      unfold searchIn at h
      rw [if_pos (by omega), hz] at h
      simp only [] at h
      split_ifs at h with h1 h2
      · obtain ⟨⟨n', -, hn', hw'⟩, -⟩ := searchIn_some h
        have := hd _ _ _ _ hw hw' rfl
        omega
      · exact ⟨hpos.1 h2, h⟩
      · have := hd _ _ _ _ hw hz (le_antisymm (not_lt.1 fun h => h2 (hpos.2 h))
          (not_lt.1 fun h => h1 (hneg.2 h)))
        omega
    rcases lt_trichotomy j ((l + u) / 2) with hjm | hjm | hjm
    · exact increasing_of_searchIn hd hc (u := (l + u) / 2) (by omega) (by omega)
        (fun n w hln hnm hw => (hleft n w hln hnm hw).2) i j x y hli hij hjm hi hj
    · subst hjm
      rw [show y = z from Option.some.inj (hj.symm.trans hz)]
      exact (hleft i x hli hij hi).1
    · rcases lt_trichotomy i ((l + u) / 2) with him | him | him
      · exact (hleft i x hli him hi).1.trans (hright j y hjm hju hj).1
      · subst him
        rw [show x = z from Option.some.inj (hi.symm.trans hz)]
        exact (hright j y hjm hju hj).1
      · exact increasing_of_searchIn hd hc (l := (l + u) / 2 + 1) (by omega) hu
          (fun n w hmn hnu hw => (hright n w hmn hnu hw).2) i j x y him hij hju hi hj

/-- A list finds all its elements, each under its own key, exactly when the keys increase. -/
theorem search_finds_all_iff (hd : xs.Pairwise fun x y => key x ≠ key y)
    (hc : ∀ x ∈ xs, Compares key cmp xs (key x)) :
    (∀ x ∈ xs, search (cmp (key x)) xs = some x) ↔ xs.Pairwise fun x y => key x < key y := by
  have hd' : ∀ (i j : ℕ) (x y : α), xs[i]? = some x → xs[j]? = some y → key x = key y → i = j := by
    intro i j x y hi hj he
    obtain ⟨hil, rfl⟩ := List.getElem?_eq_some_iff.1 hi
    obtain ⟨hjl, rfl⟩ := List.getElem?_eq_some_iff.1 hj
    rcases lt_trichotomy i j with h | h | h
    · exact absurd he (List.pairwise_iff_getElem.1 hd i j hil hjl h)
    · exact h
    · exact absurd he.symm (List.pairwise_iff_getElem.1 hd j i hjl hil h)
  constructor
  · intro hall
    rw [List.pairwise_iff_getElem]
    intro i j hi hj hij
    exact increasing_of_searchIn hd' hc (by omega) le_rfl
      (fun n w _ _ hw => hall w (List.mem_of_getElem? hw)) i j _ _ (Nat.zero_le _) hij hj
      (List.getElem?_eq_getElem hi) (List.getElem?_eq_getElem hj)
  · intro hs x hx
    have hself : cmp (key x) x = 0 := by
      obtain ⟨hneg, hpos⟩ := hc x hx x hx
      have := mt hneg.1 (lt_irrefl _)
      have := mt hpos.1 (lt_irrefl _)
      omega
    refine search_of_parted hx hself (hs.imp_of_mem ?_)
    intro y z hy hz hlt
    refine ⟨?_, ?_⟩
    · rintro rfl
      exact (hc z hx y hy).2.2 hlt
    · rintro rfl
      exact (hc y hx z hz).1.2 hlt

/-- Of two orders, where the keys increase in one they increase in the other exactly when the two
agree on the elements. -/
theorem increasing_iff_agree {κ' : Type*} [LinearOrder κ'] {key' : α → κ'}
    (h : xs.Pairwise fun x y => key x < key y) : (xs.Pairwise fun x y => key' x < key' y) ↔
      ∀ x ∈ xs, ∀ y ∈ xs, key x < key y ↔ key' x < key' y := by
  constructor
  · intro h' x hx y hy
    obtain ⟨i, hi, rfl⟩ := List.mem_iff_getElem.1 hx
    obtain ⟨j, hj, rfl⟩ := List.mem_iff_getElem.1 hy
    rw [List.pairwise_iff_getElem] at h h'
    rcases lt_trichotomy i j with hij | rfl | hij
    · exact iff_of_true (h i j hi hj hij) (h' i j hi hj hij)
    · exact iff_of_false (lt_irrefl _) (lt_irrefl _)
    · exact iff_of_false (lt_asymm (h j i hj hi hij)) (lt_asymm (h' j i hj hi hij))
  · intro hag
    refine List.Pairwise.imp_of_mem ?_ h
    intro x y hx hy hlt
    exact (hag x hx y hy).1 hlt

end Keys

end Estate.Lib
