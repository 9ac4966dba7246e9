import Estate.Proofs.Calls
import Estate.Proofs.Keys
import Estate.Proofs.Rebuild

/-!
# The whole life of a generated machine

A machine that `estate_cc` has generated is loaded, locked, run in any way, and freed. Of each string
the library keeps one reference for each of its bindings, and for the data of the callbacks of the
states what `estate_state_deinit` forgets, less what it gives back twice. So what a run of the
library leaves is decided by the file the machine was generated from (`generated_balances_iff`).
-/

namespace Estate.Cc

open Lib

variable {W : Type} {heap : Heap} {prog : Program} {ord : HashOrder} {gen : Placement}
  {beyond : ℕ → Char} {f : Fsm} {shares : Stringshare → ℤ} {w : W} {l : Loading W}

/-- Every machine of a file that is accepted as a whole. -/
theorem accepted_of_file {src : List Char} (hv : (checkStates ord beyond (parserParse src)).1 = true)
    (hf : f ∈ (checkStates ord beyond (parserParse src)).2) : Accepted f := by
  have hparsed := parserParse_parsed src
  rw [checkStates_eq hparsed hv] at hf
  obtain ⟨g, hg, rfl⟩ := List.mem_map.1 hf
  have hp := hparsed g hg
  have hs := parserParse_spelled src g hg
  have hadmissible : g.Admissible beyond := (admissible_of_checkLoop hparsed hv).1 g hg
  refine ⟨checkedFsm_named hp, checkedFsm_init_mem hp hadmissible,
    fun x hx => (mem_deducedStates ord).2 (.inr hx), checkedFsm_spelled hs, ?_,
    parserParse_bare src g hg⟩
  exact mem_transits_of_lookup fun n t hl => (hs.transits n t hl).cb

/-- A loader that runs to its end has only keys that fit. -/
theorem keysFit_of_run (ha : Accepted f) (h : (loader ord gen f).run heap prog shares w = some l) :
    f.KeysFit := by
  obtain ⟨mach, hmach, l₁, l₂, l₃, h₁, h₂, h₃, h₄⟩ := run_batches h
  have hallocated := allocated_of_run ha.named hmach h₁ h₂
  obtain ⟨-, -, hstates, -, htransits⟩ := inits_of_allocated ha.named hallocated h₃ h₄
  constructor
  · intro s hs
    have hinit := hstates _ (gathered_mem ha.named hs)
    obtain ⟨e, he, -⟩ := hinit.enterer
    obtain ⟨x, hx, -⟩ := hinit.exiter
    obtain ⟨henterer, hexiter⟩ := ha.states_spelled s hs
    exact ⟨fits_of_ctor henterer he, fits_of_ctor hexiter hx⟩
  · intro t ht
    obtain ⟨c, hc, -⟩ := (htransits t ht).cb
    obtain ⟨henterer, hexiter⟩ := ha.bare t ht
    have hempty : ({} : Cb).Fits := fun key hkey => by simp at hkey
    exact ⟨fits_of_ctor (ha.transits_spelled t ht) hc, henterer ▸ hempty, hexiter ▸ hempty⟩

/-- The states of a loaded machine have the keys of the FSM. -/
theorem run_keys (ha : Accepted f) (hprog : prog.Links (loader ord gen f))
    (h : (loader ord gen f).run heap prog shares w = some l) :
    ∀ s ∈ f.stateList, enterers l.proc ((l.stateVar s.name).getD 0) = s.enterer.data ∧
      exiters l.proc ((l.stateVar s.name).getD 0) = s.exiter.data := by
  intro s hs
  have hk := keysFit_of_run ha h
  obtain ⟨mach, hmach, l₁, l₂, l₃, h₁, h₂, h₃, h₄⟩ := run_batches h
  have hallocated := allocated_of_run ha.named hmach h₁ h₂
  obtain ⟨hsv, -, hstates, -, -⟩ := inits_of_allocated ha.named hallocated h₃ h₄
  have hinit := hstates _ (gathered_mem ha.named hs)
  obtain ⟨e, he, hen⟩ := hinit.enterer
  obtain ⟨x, hx, hex⟩ := hinit.exiter
  obtain ⟨e', he', -, hekey, -⟩ := state_ctors_ok ha hk hprog hs (.inl rfl)
  obtain ⟨x', hx', -, hxkey, -⟩ := state_ctors_ok ha hk hprog hs (.inr rfl)
  obtain rfl := Option.some.inj (he.symm.trans he')
  obtain rfl := Option.some.inj (hx.symm.trans hx')
  rw [hsv]
  exact ⟨(congrArg CbWrapper.key hen).trans hekey, (congrArg CbWrapper.key hex).trans hxkey⟩

/-! ## The end of the machine -/

/-- The states of an FSM have data for both their callbacks or for none, and the data of the
enterers are those of the exiters in another order. -/
structure Fsm.DataPaired (f : Fsm) : Prop where
  both : ∀ s ∈ f.stateList, s.enterer.data = none ↔ s.exiter.data = none
  data : (f.stateList.filterMap fun s => s.enterer.data).Perm
    (f.stateList.filterMap fun s => s.exiter.data)

/-- What is left of a string, by the file. -/
theorem generated_count {env : Env W} {p q : Process W} (ha : Accepted f)
    (hprog : prog.Links (loader ord gen f))
    (hload : (loader ord gen f).load heap prog shares w = some p) (hl : p.mach.locked = true)
    (hrun : Run env p q) (k : Stringshare) :
    (machineFree heap.sizes q).shares k - shares k = boundCount q k +
      ((f.stateList.filterMap fun s => s.enterer.data).count k : ℕ) +
      ((f.stateList.filterMap fun s => s.exiter.data).count k : ℕ) -
      2 * ((seconds f.stateList (fun s => s.enterer.data) fun s => s.exiter.data).count k : ℕ) := by
  simp only [Loader.load, Option.bind_eq_bind, Option.bind_eq_some_iff, Option.some.injEq] at hload
  obtain ⟨l, hloaded, current, -, rfl⟩ := hload
  obtain ⟨mach, calls, hnew, hbuild, honce, hslots⟩ := run_built ha.named hloaded
  have hkeys := run_keys ha hprog hloaded
  -- The slots are those of the states of the FSM, listed in the order of a hash.
  have hlisted : (slots heap mach.mempool calls .state).Perm
      (f.stateList.map fun s => (l.stateVar s.name).getD 0) := by
    refine hslots.symm.trans ?_
    have hgathered := (@gathered_perm ord gen f ha.named).map fun s =>
      (l.stateVar s.name).getD 0
    rwa [List.map_map] at hgathered
  have henterers := filterMap_listed hlisted fun s hs => (hkeys s hs).1
  have hexiters := filterMap_listed hlisted fun s hs => (hkeys s hs).2
  have hseconds := seconds_listed hlisted (fun s hs => (hkeys s hs).1) fun s hs => (hkeys s hs).2
  rw [machineFree_count hnew hbuild honce hl hrun, henterers.count_eq, hexiters.count_eq,
    hseconds.count_eq]

/-- Once a machine of an accepted file is loaded, locked, run in any way and freed, all counts of
references are back where they were exactly when nothing is bound, each state of the file has data
for both its callbacks or for none, and the data of the enterers are those of the exiters in another
order. -/
theorem generated_balances_iff {src : List Char} {env : Env W} {p q : Process W}
    (hv : (checkStates ord beyond (parserParse src)).1 = true)
    (hf : f ∈ (checkStates ord beyond (parserParse src)).2)
    (hprog : prog.Links (loader ord gen f))
    (hload : (loader ord gen f).load heap prog shares w = some p) (hl : p.mach.locked = true)
    (hrun : Run env p q) :
    (∀ k, (machineFree heap.sizes q).shares k = shares k) ↔
      (∀ key, hashFind q.mach.data (some key) = none) ∧ f.DataPaired := by
  obtain ⟨bound, hbound⟩ : ∃ bound : Stringshare → ℕ, ∀ k, boundCount q k = (bound k : ℕ) ∧
      (bound k = 0 ↔ hashFind q.mach.data (some k) = none) := by
    refine ⟨fun k => (hashFind q.mach.data (some k)).toList.length, fun k => ?_⟩
    unfold boundCount
    rcases hfind : hashFind q.mach.data (some k) with _ | value <;> simp [hfind]
  have hcount : ∀ k, (machineFree heap.sizes q).shares k = shares k ↔
      bound k + (f.stateList.filterMap fun s => s.enterer.data).count k +
        (f.stateList.filterMap fun s => s.exiter.data).count k =
      2 * (seconds f.stateList (fun s => s.enterer.data) fun s => s.exiter.data).count k := by
    intro k
    have hleft := generated_count (accepted_of_file hv hf) hprog hload hl hrun k
    rw [(hbound k).1] at hleft
    omega
  rw [forall_congr' hcount, pairs_balance_iff bound, forall_congr' fun k => (hbound k).2]
  exact ⟨fun ⟨hnone, hboth, hdata⟩ => ⟨hnone, hboth, hdata⟩,
    fun ⟨hnone, hpaired⟩ => ⟨hnone, hpaired.both, hpaired.data⟩⟩

/-! ## A state with data for its exiter alone -/

def oneSided : List Char :=
  "m\x7bstates\x7ba@init\x7bexiter\x7bfunc:f;data:bell;\x7d\x7db\x7b\x7d\x7d".toList ++
  "transitions\x7bmodel\x7bt:a>b;\x7d\x7d\x7d".toList

def oneSidedChecked : Bool × List Fsm :=
  checkStates .newestFirst (fun _ => '\x00') (parserParse oneSided)

def oneSidedFsm : Fsm := oneSidedChecked.2.headD (fsmNew [])

def oneSidedLoad : Option (Process Unit) :=
  (loader .newestFirst (fun _ => 0) oneSidedFsm).load plainHeap plainProgram (fun _ => 0) ()

theorem oneSided_made : (oneSidedChecked.1 = true ∧ oneSidedChecked.2.length = 1) ∧
    (oneSidedFsm.stateList.map fun s => (s.enterer.data, s.exiter.data)) =
      [(none, none), (none, some "bell".toList)] ∧
    oneSidedLoad.map (fun p => p.mach.locked) = some true := by
  decide +kernel

/-- The reference of that data is never given back. -/
theorem oneSided_leaks : ∃ p, oneSidedLoad = some p ∧ p.mach.locked = true ∧
    ¬ ∀ k, (machineFree plainHeap.sizes p).shares k = 0 := by
  obtain ⟨⟨hv, hlength⟩, hdata, hlocked⟩ := oneSided_made
  obtain ⟨p, hp, hl⟩ := Option.map_eq_some_iff.1 hlocked
  refine ⟨p, hp, hl, fun hbalanced => ?_⟩
  have hrun : Run (callsX fun _ => 0) p p := .start
  obtain ⟨-, hpaired⟩ := (generated_balances_iff hv (headD_mem hlength _)
    (plainProgram_links _) hp hl hrun).1 hbalanced
  have hmem : (none, some "bell".toList) ∈
      oneSidedFsm.stateList.map fun s => (s.enterer.data, s.exiter.data) := by
    rw [hdata]
    simp
  obtain ⟨s, hs, he⟩ := List.mem_map.1 hmem
  obtain ⟨hnone, hsome⟩ := Prod.mk.inj he
  simp [(hpaired.both s hs).1 hnone] at hsome

end Estate.Cc
