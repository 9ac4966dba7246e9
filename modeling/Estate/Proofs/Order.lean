import Estate.Cc.Load
import Estate.Proofs.Check
import Estate.Proofs.Machines
import Mathlib.Tactic.NormNum

/-!
# The order of the transitions of a state

The generator sorts the names of the transitions that leave a state by their addresses. In another
process these arrays are increasing exactly when it places the names in the same order
(`sameOrder_iff`).
-/

namespace Estate

/-- Between addresses of one window, the difference that fits an `int` is the difference. -/
theorem ptrDiffInt_eq {a b : BitVec 64} {base : ℕ}
    (ha : base ≤ a.toNat ∧ a.toNat < base + 2 ^ 31)
    (hb : base ≤ b.toNat ∧ b.toNat < base + 2 ^ 31) :
    ptrDiffInt a b = (a.toNat : ℤ) - b.toNat := by
  unfold ptrDiffInt
  rw [BitVec.toInt_setWidth, BitVec.toNat_sub, Int.bmod_def]
  have := a.isLt
  have := b.isLt
  norm_num at *
  split_ifs <;> omega

namespace Cc

open Lib

section Placed

variable {addr : Placement} {names : List Stringshare}

/-- The comparison of two names, as the C code makes it. -/
theorem Placed.ptrDiffInt_eq (h : Placed addr names) {x y : Stringshare} (hx : x ∈ names)
    (hy : y ∈ names) :
    ptrDiffInt (addr x) (addr y) = ((addr x).toNat : ℤ) - (addr y).toNat := by
  obtain ⟨base, hw⟩ := h.window
  exact Estate.ptrDiffInt_eq (hw x hx) (hw y hy)

theorem Placed.mono {names' : List Stringshare} (h : Placed addr names)
    (hs : ∀ x ∈ names', x ∈ names) : Placed addr names' where
  injective x hx y hy := h.injective x (hs x hx) y (hs y hy)
  window := by
    obtain ⟨base, hw⟩ := h.window
    exact ⟨base, fun x hx => hw x (hs x hx)⟩

theorem qsort_perm (compar : Stringshare → Stringshare → ℤ) :
    (qsort compar names).Perm names :=
  List.perm_insertionSort _ names

/-- The addresses increase along a sorted array of different names. -/
theorem Placed.increasing_qsort (h : Placed addr names) (hd : names.Nodup) :
    (qsort (sortCb addr) names).Pairwise fun x y => (addr x).toNat < (addr y).toNat := by
  have hperm := @qsort_perm names (sortCb addr)
  have hmap : (qsort (sortCb addr) names).map (fun x => (addr x).toNat)
      = (names.map fun x => (addr x).toNat).insertionSort fun a b => a ≤ b := by
    refine List.map_insertionSort _ _ _ _ ?_
    intro x hx y hy
    rw [sortCb, h.ptrDiffInt_eq hx hy]
    omega
  have hle : (qsort (sortCb addr) names).Pairwise fun x y => (addr x).toNat ≤ (addr y).toNat := by
    rw [← @List.pairwise_map _ _ (fun x => (addr x).toNat) (fun a b => a ≤ b), hmap]
    exact List.pairwise_insertionSort _ _
  refine List.Pairwise.imp_of_mem ?_ (hle.and (hperm.nodup_iff.2 hd))
  rintro x y hx hy ⟨hxy, hne⟩
  exact lt_of_le_of_ne hxy fun he =>
    hne (h.injective x (hperm.mem_iff.1 hx) y (hperm.mem_iff.1 hy) (BitVec.eq_of_toNat_eq he))

end Placed

section Outgoing

variable {ord : HashOrder} {gen : Placement} {f : Fsm}

/-- The array of the transitions that leave a state. -/
def outgoing (ord : HashOrder) (gen : Placement) (f : Fsm) (x : Stringshare) : List Stringshare :=
  qsort (sortCb gen)
    (((ord.foreach f.transitions).filter fun t => t.fromState = some x).map Transit.name)

theorem mem_outgoing {x n : Stringshare} :
    n ∈ outgoing ord gen f x ↔ ∃ t ∈ f.transits, t.fromState = some x ∧ t.name = n := by
  simp only [outgoing, (qsort_perm _).mem_iff, List.mem_map, List.mem_filter,
    (foreach_transitions_perm ord f).mem_iff, decide_eq_true_eq, and_assoc]

/-- Every transition of the FSM lies in its hash under its own name. -/
theorem transits_names (hn : ∀ e ∈ f.transitions.entries, e.2.name = e.1) :
    f.transits.map Transit.name = f.transitions.keys := by
  simp only [Fsm.transits, AList.keys, List.keys, List.map_map]
  exact List.map_congr_left hn

theorem transits_names_nodup (hn : ∀ e ∈ f.transitions.entries, e.2.name = e.1) :
    (f.transits.map Transit.name).Nodup := by
  rw [transits_names hn]
  exact f.transitions.keys_nodup

theorem leaving_sublist (x : Stringshare) :
    (((ord.foreach f.transitions).filter fun t => t.fromState = some x).map
      Transit.name).Sublist ((ord.foreach f.transitions).map Transit.name) :=
  (List.filter_sublist).map _

theorem leaving_nodup (hn : ∀ e ∈ f.transitions.entries, e.2.name = e.1) (x : Stringshare) :
    (((ord.foreach f.transitions).filter fun t => t.fromState = some x).map
      Transit.name).Nodup :=
  (((foreach_transitions_perm ord f).map Transit.name).nodup_iff.2
    (transits_names_nodup hn)).sublist (leaving_sublist x)

theorem outgoing_nodup (hn : ∀ e ∈ f.transitions.entries, e.2.name = e.1) (x : Stringshare) :
    (outgoing ord gen f x).Nodup :=
  (qsort_perm _).nodup_iff.2 (leaving_nodup hn x)

theorem increasing_outgoing (hn : ∀ e ∈ f.transitions.entries, e.2.name = e.1)
    (hg : Placed gen (f.transits.map Transit.name)) (x : Stringshare) :
    (outgoing ord gen f x).Pairwise fun m n => (gen m).toNat < (gen n).toNat := by
  refine (hg.mono fun n hn' => ?_).increasing_qsort (leaving_nodup hn x)
  exact ((foreach_transitions_perm ord f).map Transit.name).mem_iff.1
    ((leaving_sublist x).subset hn')

/-- The arrays of the generator are increasing in another process exactly when the transitions of
each state lie in the same order there. -/
theorem sameOrder_iff {run : Placement} (hn : ∀ e ∈ f.transitions.entries, e.2.name = e.1)
    (hg : Placed gen (f.transits.map Transit.name)) (hf : ∀ t ∈ f.transits, t.fromState ≠ none) :
    f.SameOrder gen run ↔
      ∀ x, (outgoing ord gen f x).Pairwise fun m n => (run m).toNat < (run n).toNat := by
  have hagree : ∀ x, ((outgoing ord gen f x).Pairwise fun m n => (run m).toNat < (run n).toNat) ↔ _
    := fun x => Lib.increasing_iff_agree (increasing_outgoing hn hg x)
  simp only [hagree]
  constructor
  · intro h x m hm n hn'
    obtain ⟨t, ht, htx, rfl⟩ := mem_outgoing.1 hm
    obtain ⟨u, hu, hux, rfl⟩ := mem_outgoing.1 hn'
    exact h t ht u hu (htx.trans hux.symm)
  · intro h t ht u hu htu
    obtain ⟨x, hx⟩ := Option.ne_none_iff_exists'.1 (hf t ht)
    exact h x _ (mem_outgoing.2 ⟨t, ht, hx, rfl⟩) _
      (mem_outgoing.2 ⟨u, hu, htu.symm.trans hx, rfl⟩)

end Outgoing

/-! ## The states with their arrays -/

section Gather

variable {ord : HashOrder} {gen : Placement} {f : Fsm}

/-- The machines the generator is made for: every entry lies under its own name, and no state has
its transitions yet. -/
structure Fsm.Named (f : Fsm) : Prop where
  transit_name : ∀ e ∈ f.transitions.entries, e.2.name = e.1
  state_name : ∀ e ∈ f.states.entries, e.2.name = e.1
  state_trs : ∀ e ∈ f.states.entries, e.2.trs = []

/-- A traversal meets each name of the hash once. -/
theorem foreach_names {α : Type} {h : EinaHash α} {name : α → Stringshare}
    (hn : ∀ e ∈ h.entries, name e.2 = e.1) (ord : HashOrder) :
    ((ord.foreach h).map name).Perm h.keys := by
  have hkeys : (h.entries.map Sigma.snd).map name = h.keys := by
    simp only [AList.keys, List.keys, List.map_map]
    exact List.map_congr_left hn
  exact hkeys ▸ (foreach_perm ord h).map name

theorem mem_foreach {α : Type} {h : EinaHash α} {ord : HashOrder} {a : α} :
    a ∈ ord.foreach h ↔ ∃ x, h.lookup x = some a := by
  rw [(foreach_perm ord h).mem_iff, List.mem_map]
  constructor
  · rintro ⟨e, he, rfl⟩
    exact ⟨e.1, mem_entries_iff.1 he⟩
  · rintro ⟨x, hx⟩
    exact ⟨⟨x, a⟩, mem_entries_iff.2 hx, rfl⟩

theorem foldl_eachTransitionsGcFromCacheCb : ∀ (ts : List Transit) (s : State),
    ts.foldl eachTransitionsGcFromCacheCb s =
      { s with trs := s.trs ++ (ts.filter fun t => t.fromState = some s.name).map Transit.name }
  | [], s => by simp
  | t :: ts, s => by
    rw [List.foldl_cons, foldl_eachTransitionsGcFromCacheCb]
    by_cases ht : t.fromState = some s.name
    · simp [eachTransitionsGcFromCacheCb, ht]
    · simp [eachTransitionsGcFromCacheCb, ht]

theorem gatherTrs_eq {s : State} (hs : s.trs = []) :
    gatherTrs ord gen f s = { s with trs := outgoing ord gen f s.name } := by
  simp only [gatherTrs, foldl_eachTransitionsGcFromCacheCb, hs, List.nil_append, outgoing]

/-- Writing to several entries of a hash, each of them once. -/
theorem lookup_foldl_hashModify {α : Type} {g : α → α} {x : Stringshare} :
    ∀ {names : List Stringshare} {h : EinaHash α}, names.Nodup →
      (names.foldl (fun h n => hashModify h n g) h).lookup x =
        if x ∈ names then (h.lookup x).map g else h.lookup x
  | [], h, _ => by simp
  | n :: names, h, hd => by
    obtain ⟨hn, hd⟩ := List.nodup_cons.1 hd
    rw [List.foldl_cons, lookup_foldl_hashModify hd, lookup_hashModify]
    by_cases hx : x = n
    · subst hx
      simp [hn]
    · simp [hx]

theorem lookup_gatheredStates (hf : f.Named) {x : Stringshare} :
    (gatheredStates ord gen f).lookup x =
      (f.states.lookup x).map fun s => { s with trs := outgoing ord gen f x } := by
  have hperm := foreach_names hf.state_name ord
  have hfold : gatheredStates ord gen f =
      ((ord.foreach f.states).map State.name).foldl
        (fun h n => hashModify h n (gatherTrs ord gen f)) f.states := by
    rw [List.foldl_map]
    rfl
  rw [hfold, lookup_foldl_hashModify (hperm.nodup_iff.2 f.states.keys_nodup)]
  rcases hl : f.states.lookup x with _ | s
  · simp
  · have he : (⟨x, s⟩ : Σ _ : Stringshare, State) ∈ f.states.entries := mem_entries_iff.2 hl
    have hname : s.name = x := hf.state_name _ he
    rw [if_pos (hperm.mem_iff.2 (mem_of_lookup hl)), Option.map_some, Option.map_some,
      gatherTrs_eq (hf.state_trs _ he), hname]

/-- The states as they are printed. -/
theorem mem_foreach_gatheredStates (hf : f.Named) {s : State} :
    s ∈ ord.foreach (gatheredStates ord gen f) →
      s.name ∈ f.states ∧ s.trs = outgoing ord gen f s.name := by
  rw [mem_foreach]
  rintro ⟨x, hx⟩
  rw [lookup_gatheredStates hf] at hx
  obtain ⟨s', hl, rfl⟩ := Option.map_eq_some_iff.1 hx
  have hname : s'.name = x := hf.state_name _ (mem_entries_iff.2 hl)
  simp only [hname]
  exact ⟨mem_of_lookup hl, trivial⟩

/-- They are the states of the FSM, each with its transitions. -/
theorem gathered_mem (hf : f.Named) {s : State} (hs : s ∈ f.stateList) :
    { s with trs := outgoing ord gen f s.name } ∈ ord.foreach (gatheredStates ord gen f) := by
  obtain ⟨e, he, rfl⟩ := List.mem_map.1 hs
  refine mem_foreach.2 ⟨e.1, ?_⟩
  rw [lookup_gatheredStates hf, mem_entries_iff.1 he, Option.map_some, hf.state_name e he]

theorem gathered_of_mem (hf : f.Named) {s : State}
    (hs : s ∈ ord.foreach (gatheredStates ord gen f)) :
    ∃ u ∈ f.stateList, s = { u with trs := outgoing ord gen f u.name } := by
  obtain ⟨x, hx⟩ := mem_foreach.1 hs
  rw [lookup_gatheredStates hf] at hx
  obtain ⟨u, hu, rfl⟩ := Option.map_eq_some_iff.1 hx
  have he := mem_entries_iff.2 hu
  exact ⟨u, List.mem_map_of_mem (f := Sigma.snd) he, by rw [hf.state_name _ he]⟩

theorem gatheredStates_names (hf : f.Named) :
    ((ord.foreach (gatheredStates ord gen f)).map State.name).Nodup ∧
      ∀ x, x ∈ (ord.foreach (gatheredStates ord gen f)).map State.name ↔ x ∈ f.states := by
  have hname : ∀ e ∈ (gatheredStates ord gen f).entries, e.2.name = e.1 := by
    intro e he
    have hl := mem_entries_iff.1 he
    rw [lookup_gatheredStates hf] at hl
    obtain ⟨s', hl', hs'⟩ := Option.map_eq_some_iff.1 hl
    rw [← hs']
    exact hf.state_name _ (mem_entries_iff.2 hl')
  have hperm := foreach_names hname ord
  refine ⟨hperm.nodup_iff.2 (AList.keys_nodup _), fun x => ?_⟩
  rw [hperm.mem_iff]
  show x ∈ gatheredStates ord gen f ↔ x ∈ f.states
  rw [← AList.lookup_isSome, lookup_gatheredStates hf, Option.isSome_map, AList.lookup_isSome]

theorem checkedFsm_named (hp : f.Parsed) : (checkedFsm ord f).Named where
  transit_name := hp.transit_name
  state_name e he := (deducedStates_entry hp (mem_entries_iff.1 he)).1
  state_trs e he := by
    rw [lookup_touchAll_some (mem_entries_iff.1 he)]
    rcases hl : f.states.lookup e.1 with _ | s
    · rfl
    · exact (hp.state_fresh _ (mem_entries_iff.2 hl)).2.2

end Gather

end Cc

end Estate
