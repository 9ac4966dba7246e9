import Estate.Lib.Sort
import Estate.Proofs.Defer
import Estate.Proofs.Order

/-!
# Looking a transition up

`_compare_cb` and `estate_state_sort_transitions_cb` keep the lower 32 bits of the difference of two
addresses, so they do not tell addresses apart that lie a multiple of `2 ^ 32` bytes from each other.
Where they are orders of the names, as they are of names in one window of `2 ^ 31` bytes, a
stringshare is looked up rightly exactly when no other name is an alias of it. Wherever the names
lie, some stringshare that is none of them finds a transition (`findTransition_exact_iff`).
-/

namespace Estate

open Lib

variable {W : Type}

/-- Two addresses that the comparisons do not tell apart. -/
def Alias (a b : BitVec 64) : Prop := a.toNat % 2 ^ 32 = b.toNat % 2 ^ 32

instance (a b : BitVec 64) : Decidable (Alias a b) := inferInstanceAs (Decidable (_ = _))

theorem ptrDiffInt_eq_zero {a b : BitVec 64} : ptrDiffInt a b = 0 ↔ Alias a b := by
  unfold ptrDiffInt Alias
  rw [BitVec.toInt_setWidth, BitVec.toNat_sub, Int.bmod_def]
  have := a.isLt
  have := b.isLt
  norm_num at *
  split_ifs <;> omega

theorem ptrDiffInt_alias {a b : BitVec 64} (h : Alias a b) (c : BitVec 64) :
    ptrDiffInt a c = ptrDiffInt b c := by
  unfold ptrDiffInt Alias at *
  rw [BitVec.toInt_setWidth, BitVec.toInt_setWidth, BitVec.toNat_sub, BitVec.toNat_sub]
  have := a.isLt
  have := b.isLt
  have := c.isLt
  have hmod : (((2 ^ 64 - c.toNat + a.toNat) % 2 ^ 64 : ℕ) : ℤ) % ((2 ^ 32 : ℕ) : ℤ)
      = (((2 ^ 64 - c.toNat + b.toNat) % 2 ^ 64 : ℕ) : ℤ) % ((2 ^ 32 : ℕ) : ℤ) := by omega
  simp only [Int.bmod_def, hmod]

/-- The addresses of a list lie within `2 ^ 31` bytes. -/
def Window (addrs : List (BitVec 64)) : Prop :=
  ∃ base : ℕ, ∀ a ∈ addrs, base ≤ a.toNat ∧ a.toNat < base + 2 ^ 31

theorem Window.eq_of_alias {addrs : List (BitVec 64)} (h : Window addrs) {a b : BitVec 64}
    (ha : a ∈ addrs) (hb : b ∈ addrs) (hab : Alias a b) : a = b := by
  obtain ⟨base, hw⟩ := h
  have := hw a ha
  have := hw b hb
  unfold Alias at hab
  exact BitVec.eq_of_toNat_eq (by omega)

section Lookup

variable (env : Env W) (p : Process W)

/-- Where the name of a transition lies. -/
def nameAddr (t : Addr) : BitVec 64 := ((p.transition t).name.map env.addr).getD 0

theorem compareCb_eq (shr : Stringshare) (t : Addr) :
    compareCb env p shr t = ptrDiffInt (env.addr shr) (nameAddr env p t) := rfl

theorem stateSortTransitionsCb_eq (t₁ t₂ : Addr) :
    stateSortTransitionsCb env p t₁ t₂ = ptrDiffInt (nameAddr env p t₁) (nameAddr env p t₂) := rfl

variable {env p} {array : List Addr}

/-- Over names in one window the comparison is that of their addresses. -/
theorem orders_of_window (hw : Window (array.map (nameAddr env p))) {t u : Addr} (ht : t ∈ array)
    (hu : u ∈ array) :
    (stateSortTransitionsCb env p t u < 0 ↔
        (nameAddr env p t).toNat < (nameAddr env p u).toNat) ∧
      (0 < stateSortTransitionsCb env p t u ↔
        (nameAddr env p u).toNat < (nameAddr env p t).toNat) := by
  obtain ⟨base, hbase⟩ := hw
  have := ptrDiffInt_eq (hbase _ (List.mem_map_of_mem ht)) (hbase _ (List.mem_map_of_mem hu))
  rw [stateSortTransitionsCb_eq, this]
  omega

/-- The transitions of an array stand in the order of the comparison. -/
def Ascending (env : Env W) (p : Process W) (array : List Addr) : Prop :=
  array.Pairwise fun t u => stateSortTransitionsCb env p t u < 0 ∧
    0 < stateSortTransitionsCb env p u t

/-- In an ascending array a search ends at the transition whose name is an alias of what is
searched, and nowhere if there is none. -/
theorem search_some_iff (hs : Ascending env p array) (shr : Stringshare) (t : Addr) :
    search (compareCb env p shr) array = some t ↔
      t ∈ array ∧ Alias (nameAddr env p t) (env.addr shr) := by
  constructor
  · intro h
    obtain ⟨hmem, hzero⟩ := search_some h
    exact ⟨hmem, (ptrDiffInt_eq_zero.1 hzero).symm⟩
  · rintro ⟨hmem, halias⟩
    -- What is searched compares with every transition as this one does.
    have hcmp : ∀ u, compareCb env p shr u = stateSortTransitionsCb env p t u :=
      fun u => (ptrDiffInt_alias halias _).symm
    refine search_of_parted hmem (ptrDiffInt_eq_zero.2 halias.symm) (hs.imp ?_)
    rintro u v ⟨huv, hvu⟩
    refine ⟨?_, ?_⟩
    · rintro rfl
      rwa [hcmp]
    · rintro rfl
      rwa [hcmp]

/-- A search returns the transition whose name lies where the requested stringshare does, and NULL
if there is none. -/
def Exact (env : Env W) (p : Process W) (trs : List Addr) (shr : Stringshare)
    (found : Option Addr) : Prop :=
  ∀ t, found = some t ↔ t ∈ trs ∧ nameAddr env p t = env.addr shr

/-- In an ascending array, a request is answered exactly when it has no alias but itself. -/
theorem exact_iff_of_ascending (hs : Ascending env p array) (shr : Stringshare) :
    Exact env p array shr (search (compareCb env p shr) array) ↔
      ∀ t ∈ array, Alias (nameAddr env p t) (env.addr shr) → nameAddr env p t = env.addr shr := by
  simp only [Exact, search_some_iff hs]
  constructor
  · intro h t ht halias
    exact ((h t).1 ⟨ht, halias⟩).2
  · intro h t
    refine and_congr_right fun ht => ⟨h t ht, ?_⟩
    intro heq
    rw [heq]
    rfl

/-- The array of the current state is what a sort of some transitions leaves. -/
structure Sorted (qs : Qsort) (env : Env W) (p : Process W) (trs : List Addr) : Prop where
  array : (p.state p.mach.currentState).transit = qs.sort (stateSortTransitionsCb env p) trs
  count : (p.state p.mach.currentState).transitCount.toNat = trs.length

/-- No two names of some transitions are aliases, and the comparison is an order of them. -/
structure Ordered (env : Env W) (p : Process W) (trs : List Addr) : Prop where
  orders : Orders (stateSortTransitionsCb env p) trs
  apart : trs.Pairwise fun t u => ¬ Alias (nameAddr env p t) (nameAddr env p u)

/-- It is so for different names in one window. -/
theorem Ordered.of_window {trs : List Addr} (hd : (trs.map (nameAddr env p)).Nodup)
    (hw : Window (trs.map (nameAddr env p))) : Ordered env p trs where
  orders := .of_key fun _ ht _ hu => orders_of_window hw ht hu
  apart := by
    rw [List.Nodup, List.pairwise_map] at hd
    refine hd.imp_of_mem ?_
    intro t u ht hu hne halias
    exact hne (hw.eq_of_alias (List.mem_map_of_mem ht) (List.mem_map_of_mem hu) halias)

variable {qs : Qsort} {trs : List Addr}

/-- The array of the current state is searched as an ascending one. -/
theorem Sorted.ascending (h : Sorted qs env p trs) (ho : Ordered env p trs) :
    ∃ array : List Addr, array.Perm trs ∧ Ascending env p array ∧
      ∀ shr, findTransition env p shr = search (compareCb env p shr) array := by
  have hperm := qs.perm _ trs ho.orders
  have hne : trs.Pairwise fun t u => stateSortTransitionsCb env p t u ≠ 0 :=
    ho.apart.imp fun hna => mt ptrDiffInt_eq_zero.1 hna
  refine ⟨_, hperm, qs.increasing ho.orders hne, fun shr => ?_⟩
  rw [findTransition, h.array, h.count, ← hperm.length_eq, List.take_length]

/-- A stringshare that is the name of none of some transitions, at an alias of the address of a
given one. -/
theorem exists_alias (env : Env W) (p : Process W) (trs : List Addr) (n : Stringshare) :
    ∃ (addr : Placement) (m : Stringshare),
      (∀ t ∈ trs, nameAddr { env with addr := addr } p t = nameAddr env p t) ∧
        Alias (addr m) (env.addr n) ∧ addr m ≠ env.addr n := by
  obtain ⟨m, hm⟩ := Infinite.exists_notMem_finset
    (trs.filterMap fun t => (p.transition t).name).toFinset
  let addr := Function.update env.addr m (env.addr n + BitVec.ofNat 64 (2 ^ 32))
  have hself : addr m = env.addr n + BitVec.ofNat 64 (2 ^ 32) := Function.update_self ..
  refine ⟨addr, m, ?_, ?_, ?_⟩
  · intro t ht
    rcases hname : (p.transition t).name with _ | k
    · simp only [nameAddr, hname, Option.map_none, Option.getD_none]
    · have hkm : k ≠ m := by
        rintro rfl
        exact hm (List.mem_toFinset.2 (List.mem_filterMap.2 ⟨t, ht, hname⟩))
      simp only [nameAddr, hname, Option.map_some, Option.getD_some, addr,
        Function.update_of_ne hkm]
  · rw [hself, Alias, BitVec.toNat_add, BitVec.toNat_ofNat]
    omega
  · rw [hself]
    intro heq
    have := congrArg BitVec.toNat heq
    rw [BitVec.toNat_add, BitVec.toNat_ofNat] at this
    have := (env.addr n).isLt
    omega

/-- No nonempty set of transitions is searched exactly under every request. Where the comparison is
an order of the names, a request is answered exactly when no name but its own lies a multiple of
`2 ^ 32` bytes from it. -/
theorem findTransition_exact_iff (h : Sorted qs env p trs)
    (hn : ∀ t ∈ trs, (p.transition t).name ≠ none) :
    ((∀ addr : Placement, (∀ t ∈ trs, nameAddr { env with addr := addr } p t = nameAddr env p t) →
        ∀ shr, Exact { env with addr := addr } p trs shr
          (findTransition { env with addr := addr } p shr)) ↔ trs = []) ∧
      (Ordered env p trs → ∀ shr, Exact env p trs shr (findTransition env p shr) ↔
        ∀ t ∈ trs, Alias (nameAddr env p t) (env.addr shr) → nameAddr env p t = env.addr shr) := by
  refine ⟨⟨fun hall => ?_, ?_⟩, fun ho shr => ?_⟩
  · by_contra hne
    obtain ⟨t, ht⟩ := List.exists_mem_of_ne_nil trs hne
    obtain ⟨n, hname⟩ := Option.ne_none_iff_exists'.1 (hn t ht)
    have hfound : findTransition env p n = some t := by
      refine (hall env.addr (fun _ _ => rfl) n t).2 ⟨ht, ?_⟩
      simp only [nameAddr, hname, Option.map_some, Option.getD_some]
    obtain ⟨addr, m, haddr, hm⟩ := exists_alias env p
      (trs ++ (p.state p.mach.currentState).transit) n
    have hfound' : findTransition { env with addr := addr } p m = some t := by
      rw [← hfound]
      refine search_congr fun u hu => ?_
      rw [compareCb_eq, compareCb_eq, haddr u (List.mem_append_right _ (List.mem_of_mem_take hu))]
      exact ptrDiffInt_alias hm.1 _
    obtain ⟨-, heq⟩ := (hall addr (fun u hu => haddr u (List.mem_append_left _ hu)) m t).1 hfound'
    rw [haddr t (List.mem_append_left _ ht)] at heq
    simp only [nameAddr, hname, Option.map_some, Option.getD_some] at heq
    exact hm.2 heq.symm
  · rintro rfl addr - shr t
    simp [findTransition, h.count, search, searchIn]
  · obtain ⟨array, hperm, hs, hfind⟩ := h.ascending ho
    have hexact := exact_iff_of_ascending hs shr
    simp only [Exact, hperm.mem_iff] at hexact
    rw [hfind]
    exact hexact

end Lookup

/-! ## Two names `2 ^ 32` bytes apart -/

/-- A caller whose names `a`, `b` and `c` lie side by side, and all others `2 ^ 32` bytes above `a`. -/
def distant : Env Unit where
  addr s :=
    if s = ['a'] then 4096 else if s = ['b'] then 4128 else if s = ['c'] then 4160 else 4294971392
  deref _ t := if t = 20 then ['a'] else ['z']
  hashAdds _ := true
  callback _ _ _ _ _ := .ret () cbOk
  errorCallback _ _ _ _ := .ret () 0

/-- The machine of `forwarding` with three transitions that leave its initial state. -/
def distantProcess : Process Unit :=
  { forwardingProcess with
    state := fun a =>
      if a = 1 then { name := some ['x'], transit := [3, 4, 5], transitCount := 3 }
      else if a = 2 then { name := some ['y'] }
      else {}
    transition := fun a =>
      if a = 3 then { name := some ['a'], fromState := 1, toState := 2 }
      else if a = 4 then { name := some ['b'], fromState := 1, toState := 1 }
      else if a = 5 then { name := some ['c'], fromState := 1, toState := 2 }
      else {} }

theorem distant_sorted : Sorted .insertion distant distantProcess [5, 3, 4] :=
  ⟨by decide, by decide⟩

theorem distant_named : ∀ t ∈ [5, 3, 4], (distantProcess.transition t).name ≠ none := by decide

theorem distant_ordered : Ordered distant distantProcess [5, 3, 4] :=
  .of_window (by decide) ⟨4096, by simp [distant, distantProcess, nameAddr]⟩

/-- In the initial state, which `a`, `b` and `c` leave, the name `z` finds `a`. -/
theorem alias_found : Sorted .insertion distant distantProcess [5, 3, 4] ∧
    findTransition distant distantProcess ['z'] = some 3 ∧
    nameAddr distant distantProcess 3 ≠ distant.addr ['z'] ∧
    ¬ Exact distant distantProcess [5, 3, 4] ['z']
      (findTransition distant distantProcess ['z']) := by
  have hfound : findTransition distant distantProcess ['z'] = some 3 := by decide
  have hne : nameAddr distant distantProcess 3 ≠ distant.addr ['z'] := by decide
  exact ⟨distant_sorted, hfound, hne, fun h => hne ((h 3).1 hfound).2⟩

/-- These three are found, each by its own name. -/
theorem distant_exact :
    ¬ (∀ addr : Placement, (∀ t ∈ [5, 3, 4], nameAddr { distant with addr := addr } distantProcess t
          = nameAddr distant distantProcess t) →
        ∀ shr, Exact { distant with addr := addr } distantProcess [5, 3, 4] shr
          (findTransition { distant with addr := addr } distantProcess shr)) ∧
      ∀ shr ∈ [['a'], ['b'], ['c']],
        Exact distant distantProcess [5, 3, 4] shr (findTransition distant distantProcess shr) := by
  obtain ⟨hall, hone⟩ := findTransition_exact_iff distant_sorted distant_named
  refine ⟨mt hall.1 (by simp), fun shr hshr => (hone distant_ordered shr).2 ?_⟩
  revert shr
  decide

end Estate
