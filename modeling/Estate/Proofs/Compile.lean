import Estate.Proofs.Bare
import Estate.Proofs.Forward

/-!
# Which loaders compile

What the parser and the check leave of a machine has every name in its place. Its loader compiles
exactly when every transition has both its states, and no variable of the loader hides a callback
(`compiles_iff`).
-/

namespace Estate.Cc

open Lib

section Ctor

variable {prog : Program} {c : Cb}

theorem ctorText_none (h : c.data = none) : (ctorText c).key = "NULL".toList := by
  simp only [ctorText, h, stringizeData, snprintf]
  decide

theorem ctorText_some {key : Stringshare} (h : c.data = some key) (hfit : c.Fits) :
    (ctorText c).key = '\x22' :: (key ++ ['\x22']) ∧ (ctorText c).keyLen = key.length := by
  have hlen := hfit key h
  simp only [ctorText, h, stringizeData, snprintf]
  refine ⟨List.take_of_length_le ?_, ?_⟩
  · simp only [List.length_cons, List.length_append, List.length_nil]
    omega
  · simp

/-- What the compiler makes of a callback: its function, and the whole of its key. -/
theorem ctor_ok (hlit : ∀ s, Spelled s → prog.literal s = some s)
    (hfunc : ∀ n, c.func = some n → (prog.func n).isSome = true) (hs : c.Spelled)
    (hfit : c.Fits) : ∃ k, prog.ctor (ctorText c) = some k ∧
      prog.funcValue (c.func.getD "NULL".toList) = some k.func ∧
      k.shared k.keyLen = c.data ∧ (c.data = none → k.key = none) := by
  obtain ⟨a, ha⟩ : ∃ a, prog.funcValue (c.func.getD "NULL".toList) = some a := by
    unfold Program.funcValue
    split_ifs with hn
    · exact ⟨0, rfl⟩
    · rcases hf : c.func with _ | n
      · simp [hf] at hn
      · exact Option.isSome_iff_exists.1 (hfunc n hf)
  rcases hd : c.data with _ | key
  · have hkey : prog.keyValue (ctorText c).key = some none := by
      rw [ctorText_none hd, Program.keyValue, if_pos rfl]
    refine ⟨⟨a, none, UInt32.ofNat (ctorText c).keyLen⟩, ?_, ha, rfl, fun _ => rfl⟩
    simp only [Program.ctor, hkey, Option.bind_eq_bind, Option.bind_some]
    rw [show (ctorText c).func = c.func.getD "NULL".toList from rfl, ha]
    rfl
  · obtain ⟨htext, hlen⟩ := ctorText_some hd hfit
    have hkey : prog.keyValue (ctorText c).key = some (some key) := by
      have hne : '\x22' :: (key ++ ['\x22']) ≠ "NULL".toList := by simp
      rw [htext, Program.keyValue, if_neg hne, if_pos (by simp)]
      simp [hlit key (hs.data key hd)]
    refine ⟨⟨a, some key, UInt32.ofNat (ctorText c).keyLen⟩, ?_, ha, ?_, by simp⟩
    · simp only [Program.ctor, hkey, Option.bind_eq_bind, Option.bind_some]
      rw [show (ctorText c).func = c.func.getD "NULL".toList from rfl, ha]
      rfl
    · have hsmall := hfit key hd
      simp only [CbCtor.shared, hlen, toNat_ofNat_small (n := key.length) (by omega),
        List.takeD_eq_take _ le_rfl, List.take_length, Option.map_some]

end Ctor

/-! ## Accepted machines -/

/-- What the parser and the check leave of a machine. -/
structure Accepted (f : Fsm) : Prop where
  named : f.Named
  init : ∃ i, f.init = some i ∧ i ∈ f.states
  touched : ∀ x, Touched f.transits x → x ∈ f.states
  states_spelled : ∀ s ∈ f.stateList, s.enterer.Spelled ∧ s.exiter.Spelled
  transits_spelled : ∀ t ∈ f.transits, t.cb.Spelled
  bare : ∀ t ∈ f.transits, t.enterer = {} ∧ t.exiter = {}

section Accepted

variable {src : List Char} {ord : HashOrder} {beyond : ℕ → Char} {f g : Fsm}

theorem checkedFsm_init_mem (hp : f.Parsed) (ha : f.Admissible beyond) :
    ∃ i, (checkedFsm ord f).init = some i ∧ i ∈ (checkedFsm ord f).states := by
  rcases (initDetermined_iff ord hp).1 ha.init with ⟨x, hx, -⟩ | ⟨hnone, hi⟩
  · have hmem : x ∈ sources ord f := by simp [hx]
    exact ⟨x, by simp [checkedFsm, hx], (mem_deducedStates ord).2 ((mem_sources ord hp).1 hmem).1⟩
  · obtain ⟨i, hi⟩ := Option.ne_none_iff_exists'.1 hi
    exact ⟨i, by simp [checkedFsm, hnone, hi],
      (mem_deducedStates ord).2 (.inl (hp.init_mem i hi))⟩

theorem checkedFsm_spelled (hs : f.Spelled) :
    ∀ s ∈ (checkedFsm ord f).stateList, s.enterer.Spelled ∧ s.exiter.Spelled := by
  intro s hmem
  obtain ⟨e, he, rfl⟩ := List.mem_map.1 hmem
  rw [lookup_touchAll_some (mem_entries_iff.1 he)]
  rcases hl : f.states.lookup e.1 with _ | u
  · exact ⟨spelled_cb, spelled_cb⟩
  · exact ⟨(hs.states _ _ hl).enterer, (hs.states _ _ hl).exiter⟩

theorem accepted_of_check (hf : f ∈ parserParse src)
    (hv : (checkStates ord beyond [f]).1 = true) (hg : g ∈ (checkStates ord beyond [f]).2) :
    Accepted g := by
  have hp := parserParse_parsed src f hf
  have hs := parserParse_spelled src f hf
  have hsingle : ∀ h ∈ [f], h.Parsed := by simpa using hp
  have heq : g = checkedFsm ord f := by
    rw [checkStates_eq hsingle hv] at hg
    simpa using hg
  rw [heq]
  refine ⟨checkedFsm_named hp, checkedFsm_init_mem hp ((checkStates_singleton_iff hp).1 hv),
    fun x hx => (mem_deducedStates ord).2 (.inr hx), checkedFsm_spelled hs, ?_,
    parserParse_bare src f hf⟩
  exact mem_transits_of_lookup fun n t hl => (hs.transits n t hl).cb

end Accepted

section Loader

variable {W : Type} {heap : Heap} {prog : Program} {ord : HashOrder} {gen : Placement} {f : Fsm}
  {shares : Stringshare → ℤ} {w : W}

theorem state_ctors_ok (ha : Accepted f) (hk : f.KeysFit) (hprog : prog.Links (loader ord gen f))
    {s : State} (hs : s ∈ f.stateList) {c : Cb} (hc : c = s.enterer ∨ c = s.exiter) :
    ∃ k, prog.ctor (ctorText c) = some k ∧
      prog.funcValue (c.func.getD "NULL".toList) = some k.func ∧
      k.shared k.keyLen = c.data ∧ (c.data = none → k.key = none) := by
  have hproto : ∀ n, c.func = some n → n ∈ (loader ord gen f).protos := by
    intro n hn
    refine List.mem_append_left _ (List.mem_flatMap.2 ⟨s, (foreach_perm ord _).mem_iff.2 hs, ?_⟩)
    rcases hc with rfl | rfl <;> simp [hn]
  refine ctor_ok hprog.literal (fun n hn => hprog.func n (hproto n hn)) ?_ ?_
  · rcases hc with rfl | rfl
    · exact (ha.states_spelled s hs).1
    · exact (ha.states_spelled s hs).2
  · rcases hc with rfl | rfl
    · exact (hk.1 s hs).1
    · exact (hk.1 s hs).2

theorem transit_ctor_ok (ha : Accepted f) (hk : f.KeysFit)
    (hprog : prog.Links (loader ord gen f)) {t : Transit} (ht : t ∈ f.transits) :
    ∃ k, prog.ctor (ctorText t.cb) = some k ∧
      prog.funcValue (t.cb.func.getD "NULL".toList) = some k.func ∧
      k.shared k.keyLen = t.cb.data ∧ (t.cb.data = none → k.key = none) := by
  refine ctor_ok hprog.literal (fun n hn => hprog.func n ?_) (ha.transits_spelled t ht)
    (hk.2 t ht).1
  refine List.mem_append_right _ (List.mem_flatMap.2
    ⟨t, (foreach_perm ord _).mem_iff.2 ht, by simp [hn]⟩)

theorem empty_ctor_ok (hprog : prog.Links (loader ord gen f)) :
    ∃ k, prog.ctor (ctorText {}) = some k ∧ prog.funcValue "NULL".toList = some k.func ∧
      k.shared k.keyLen = none ∧ k.key = none := by
  obtain ⟨k, hk, hfunc, hkey, hnone⟩ := @ctor_ok prog {} hprog.literal (by simp) spelled_cb
    (by simp [Cb.Fits])
  exact ⟨k, hk, hfunc, hkey, hnone rfl⟩

/-! ## The statements -/

theorem null_not_mem (states transitions : List Stringshare) :
    "NULL".toList ∉ blockVars ++ loaderVars states transitions := by
  simp [blockVars, loaderVars]

theorem mem_loader_states (hf : f.Named) {x : Stringshare} :
    x ∈ (loader ord gen f).states ↔ x ∈ f.states.keys :=
  (foreach_names hf.state_name ord).mem_iff

theorem mem_loader_transitions (hf : f.Named) {x : Stringshare} :
    x ∈ (loader ord gen f).transitions ↔ x ∈ f.transitions.keys :=
  (foreach_names hf.transit_name ord).mem_iff

theorem mem_loaderVars (hf : f.Named) {name : List Char} :
    name ∈ loaderVars (loader ord gen f).states (loader ord gen f).transitions ↔
      name ∈ loaderVars f.states.keys f.transitions.keys := by
  simp only [loaderVars, List.mem_append, List.mem_map, mem_loader_states hf,
    mem_loader_transitions hf]

theorem transit_declared {t : Transit} (ht : t ∈ f.transits) :
    t.name ∈ (loader ord gen f).transitions :=
  List.mem_map_of_mem ((foreach_transitions_perm ord f).mem_iff.2 ht)

/-- A callback that has its constants compiles where its function is visible. -/
theorem ctorText_compiles {scope scope' : List (List Char)} {c : Cb} (hnull : "NULL".toList ∉ scope)
    (hscope : ∀ name, name ∈ scope ↔ name ∈ scope') (hc : ∃ k, prog.ctor (ctorText c) = some k) :
    (ctorText c).compiles prog scope = true ↔ c.Visible scope' := by
  obtain ⟨k, hk⟩ := hc
  have hfunc : (ctorText c).func = c.func.getD "NULL".toList := rfl
  simp only [CtorText.compiles, hk, hfunc, Option.isSome_some, Bool.and_true, Bool.not_eq_true',
    ← Bool.not_eq_true, List.contains_iff_mem]
  rcases hn : c.func with _ | name
  · exact ⟨fun _ n h => by simp [hn] at h, fun _ => hnull⟩
  · rw [Option.getD_some, hscope]
    refine ⟨fun h n hn' => ?_, fun h => h name hn⟩
    obtain rfl := Option.some.inj (hn.symm.trans hn')
    exact h

/-- A state is initialised where its callbacks are visible. -/
theorem stateInit_compiles (ha : Accepted f) (hk : f.KeysFit) (hprog : prog.Links (loader ord gen f))
    {s : State} (hs : s ∈ f.stateList) :
    (eachStatesGcInitCb { s with trs := outgoing ord gen f s.name }).compiles prog
        (loader ord gen f) = true ↔
      s.enterer.Visible (blockVars ++ loaderVars f.states.keys f.transitions.keys) ∧
        s.exiter.Visible (blockVars ++ loaderVars f.states.keys f.transitions.keys) := by
  obtain ⟨e, he, -⟩ := state_ctors_ok ha hk hprog hs (.inl rfl)
  obtain ⟨x, hx, -⟩ := state_ctors_ok ha hk hprog hs (.inr rfl)
  have hscope : ∀ name, name ∈ blockVars ++
      loaderVars (loader ord gen f).states (loader ord gen f).transitions ↔
        name ∈ blockVars ++ loaderVars f.states.keys f.transitions.keys := by
    intro name
    rw [List.mem_append, List.mem_append, mem_loaderVars ha.named]
  have hmem : s.name ∈ (loader ord gen f).states := by
    obtain ⟨u, hu, rfl⟩ := List.mem_map.1 hs
    rw [ha.named.state_name u hu]
    exact (mem_loader_states ha.named).2 (mem_of_lookup (mem_entries_iff.1 hu))
  have htrs : ∀ n ∈ outgoing ord gen f s.name, n ∈ (loader ord gen f).transitions := by
    intro n hn
    obtain ⟨t, ht, -, rfl⟩ := mem_outgoing.1 hn
    exact transit_declared ht
  simp only [eachStatesGcInitCb, Stmt.compiles, Bool.and_eq_true, List.contains_iff_mem,
    List.all_eq_true, ctorText_compiles (null_not_mem _ _) hscope ⟨e, he⟩,
    ctorText_compiles (null_not_mem _ _) hscope ⟨x, hx⟩, and_assoc]
  exact ⟨fun h => h.2.2, fun h => ⟨hmem, htrs, h⟩⟩

/-- A transition is initialised where it has its states and its callback is visible. -/
theorem transitInit_compiles (ha : Accepted f) (hk : f.KeysFit)
    (hprog : prog.Links (loader ord gen f)) {t : Transit} (ht : t ∈ f.transits) :
    (eachTransitionsGcInitCb t).compiles prog (loader ord gen f) = true ↔
      t.Filled ∧ t.cb.Visible (loaderVars f.states.keys f.transitions.keys) := by
  obtain ⟨c, hc, -⟩ := transit_ctor_ok ha hk hprog ht
  obtain ⟨e, he, -⟩ := empty_ctor_ok hprog
  obtain ⟨hen, hex⟩ := ha.bare t ht
  have hnull : "NULL".toList ∉ loaderVars (loader ord gen f).states (loader ord gen f).transitions :=
    fun h => null_not_mem _ _ (List.mem_append_right _ h)
  have hempty : ({} : Cb).Visible (loaderVars f.states.keys f.transitions.keys) := by
    intro name h
    simp at h
  have hend : ∀ o, o = t.fromState ∨ o = t.toState →
      (o.any (loader ord gen f).states.contains = true ↔ o ≠ none) := by
    intro o ho
    rcases o with _ | x
    · simp
    · have hx := ha.touched x ⟨t, ht, ho.imp Eq.symm Eq.symm⟩
      simpa using (mem_loader_states ha.named).2 hx
  simp only [eachTransitionsGcInitCb, Stmt.compiles, Bool.and_eq_true, List.contains_iff_mem, hen,
    hex, ctorText_compiles hnull (fun _ => mem_loaderVars ha.named) ⟨c, hc⟩,
    ctorText_compiles hnull (fun _ => mem_loaderVars ha.named) ⟨e, he⟩, hempty, and_true,
    hend _ (.inl rfl), hend _ (.inr rfl), transit_declared ht, true_and]
  rfl

/-- The loader of an accepted machine compiles exactly when it can be printed. -/
theorem compiles_iff (ha : Accepted f) (hk : f.KeysFit) (hprog : prog.Links (loader ord gen f)) :
    (loader ord gen f).compiles prog = true ↔ f.Printable := by
  constructor
  · intro h
    obtain ⟨hbody, -⟩ := Bool.and_eq_true_iff.1 h
    have hstates : ∀ s ∈ f.stateList, _ := fun s hs =>
      (stateInit_compiles ha hk hprog hs).1 (List.all_eq_true.1 hbody _
        (List.mem_append_right _ (List.mem_append_right _ (List.mem_append_left _
          (List.mem_map_of_mem (gathered_mem ha.named hs))))))
    have htransits : ∀ t ∈ f.transits, _ := fun t ht =>
      (transitInit_compiles ha hk hprog ht).1 (List.all_eq_true.1 hbody _
        (List.mem_append_right _ (List.mem_append_right _ (List.mem_append_right _
          (List.mem_map_of_mem ((foreach_transitions_perm ord f).mem_iff.2 ht))))))
    exact ⟨fun t ht => (htransits t ht).1, hstates, fun t ht => (htransits t ht).2⟩
  · intro h
    refine Bool.and_eq_true_iff.2 ⟨List.all_eq_true.2 fun stmt hstmt => ?_, ?_⟩
    · simp only [loader, List.mem_append, List.mem_map] at hstmt
      rcases hstmt with ⟨s, hs, rfl⟩ | ⟨t, ht, rfl⟩ | ⟨s, hs, rfl⟩ | ⟨t, ht, rfl⟩
      · have hs : s.name ∈ (loader ord gen f).states := List.mem_map_of_mem hs
        simpa [eachStatesGcAllocCb, Stmt.compiles, gatherTrs_name] using hs
      · have ht := (foreach_transitions_perm ord f).mem_iff.1 ht
        simpa [eachTransitionsGcAllocCb, Stmt.compiles] using transit_declared ht
      · obtain ⟨u, hu, rfl⟩ := gathered_of_mem ha.named hs
        exact (stateInit_compiles ha hk hprog hu).2 (h.states u hu)
      · have ht := (foreach_transitions_perm ord f).mem_iff.1 ht
        exact (transitInit_compiles ha hk hprog ht).2 ⟨h.filled t ht, h.transits t ht⟩
    · obtain ⟨i, hinit, hi⟩ := ha.init
      show (loader ord gen f).init.any _ = true
      rw [show (loader ord gen f).init = some i from hinit]
      simpa using (mem_loader_states ha.named).2 hi

theorem loadable (ha : Accepted f) (hk : f.KeysFit) (hprog : prog.Links (loader ord gen f))
    (hne : f.transits ≠ []) (hfilled : ∀ t ∈ f.transits, t.Filled)
    (hs : f.states.entries.length < 2 ^ 32) (ht : f.transitions.entries.length < 2 ^ 32) :
    Loadable prog f := by
  refine ⟨hs, ht, hne, fun t ht => ?_, fun t ht => ?_, fun s hs => ?_, fun t ht => ?_⟩
  · obtain ⟨x, hx⟩ := Option.ne_none_iff_exists'.1 (hfilled t ht).1
    exact ⟨x, ha.touched x ⟨t, ht, .inl hx⟩, hx⟩
  · obtain ⟨x, hx⟩ := Option.ne_none_iff_exists'.1 (hfilled t ht).2
    exact ⟨x, ha.touched x ⟨t, ht, .inr hx⟩, hx⟩
  · obtain ⟨e, he, -⟩ := state_ctors_ok ha hk hprog hs (.inl rfl)
    obtain ⟨x, hx, -⟩ := state_ctors_ok ha hk hprog hs (.inr rfl)
    exact ⟨⟨e, he⟩, x, hx⟩
  · obtain ⟨c, hc, -⟩ := transit_ctor_ok ha hk hprog ht
    obtain ⟨k, hk, -⟩ := empty_ctor_ok hprog
    rw [(ha.bare t ht).1, (ha.bare t ht).2]
    exact ⟨⟨c, hc⟩, ⟨k, hk⟩, k, hk⟩

end Loader

end Estate.Cc
