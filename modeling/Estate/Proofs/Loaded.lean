import Estate.Proofs.Load

/-!
# When a loaded machine fires its transitions

`estate_machine_transition_do` halves the array of the current state by the addresses that the names
have in its own process, and the array is in the order of the generator. Every transition of every
state is found exactly when the two processes agree on that order (`load_fires_iff`), and they need
not agree (`load_misses`).
-/

namespace Estate.Cc

open Lib

variable {W : Type}

section Image

variable {f : Fsm} {array : Stringshare → List Stringshare} {st tr : Stringshare → Addr}
  {p : Process W} {env : Env W}

/-- A comparison of the search, between names of the FSM. -/
theorem Image.compareCb_eq (h : Image f array st tr p)
    (hr : Placed env.addr (f.transits.map Transit.name)) {t u : Transit} (ht : t ∈ f.transits)
    (hu : u ∈ f.transits) : compareCb env p t.name (tr u.name) =
      ((env.addr t.name).toNat : ℤ) - (env.addr u.name).toNat := by
  rw [compareCb, h.transit u hu]
  exact hr.ptrDiffInt_eq (List.mem_map_of_mem ht) (List.mem_map_of_mem hu)

/-- The transitions of an array are found under their names exactly when the array increases. -/
theorem Image.finds_iff (h : Image f array st tr p)
    (hr : Placed env.addr (f.transits.map Transit.name)) {names : List Stringshare}
    (hd : names.Nodup) (hn : ∀ n ∈ names, ∃ t ∈ f.transits, t.name = n) :
    (∀ n ∈ names, search (compareCb env p n) (names.map tr) = some (tr n)) ↔
      names.Pairwise fun m n => (env.addr m).toNat < (env.addr n).toNat := by
  -- The search as one over numbers: where the names of the transitions lie.
  let key : Addr → ℕ := fun a => (((p.transition a).name.map env.addr).getD 0).toNat
  let cmp : ℕ → Addr → ℤ := fun k a =>
    ptrDiffInt (BitVec.ofNat 64 k) (((p.transition a).name.map env.addr).getD 0)
  have hkey : ∀ n ∈ names, key (tr n) = (env.addr n).toNat := by
    intro n hmem
    obtain ⟨t, ht, rfl⟩ := hn n hmem
    simp only [key, h.transit t ht, Option.map_some, Option.getD_some]
  have hcmp : ∀ n ∈ names, cmp (key (tr n)) = compareCb env p n := by
    intro n hmem
    funext a
    simp only [cmp, hkey n hmem, BitVec.ofNat_toNat, BitVec.setWidth_eq, compareCb]
  have hdiff : (names.map tr).Pairwise fun a b => key a ≠ key b := by
    rw [List.pairwise_map]
    refine List.Pairwise.imp_of_mem ?_ hd
    intro m n hm hn' hne he
    obtain ⟨t, ht, rfl⟩ := hn m hm
    obtain ⟨u, hu, rfl⟩ := hn n hn'
    rw [hkey _ hm, hkey _ hn'] at he
    exact hne (hr.injective _ (List.mem_map_of_mem ht) _ (List.mem_map_of_mem hu)
      (BitVec.eq_of_toNat_eq he))
  have hcompares : ∀ a ∈ names.map tr, Compares key cmp (names.map tr) (key a) := by
    intro a ha b hb
    obtain ⟨m, hm, rfl⟩ := List.mem_map.1 ha
    obtain ⟨n, hn', rfl⟩ := List.mem_map.1 hb
    rw [hcmp m hm, hkey m hm, hkey n hn']
    obtain ⟨t, ht, rfl⟩ := hn m hm
    obtain ⟨u, hu, rfl⟩ := hn n hn'
    rw [h.compareCb_eq hr ht hu]
    omega
  have hfinds := search_finds_all_iff hdiff hcompares
  rw [List.pairwise_map] at hfinds
  have hleft : (∀ n ∈ names, search (compareCb env p n) (names.map tr) = some (tr n)) ↔
      ∀ a ∈ names.map tr, search (cmp (key a)) (names.map tr) = some a := by
    rw [List.forall_mem_map]
    exact forall₂_congr fun n hmem => by rw [hcmp n hmem]
  rw [hleft, hfinds]
  exact ⟨fun hp => hp.imp_of_mem fun hm hn' hlt => by rwa [hkey _ hm, hkey _ hn'] at hlt,
    fun hp => hp.imp_of_mem fun hm hn' hlt => by rwa [hkey _ hm, hkey _ hn']⟩

/-- In a state of the image, the search goes over the array of that state. -/
theorem Image.findTransition_eq (h : Image f array st tr p) {x n : Stringshare} (hx : x ∈ f.states)
    (hcur : p.mach.currentState = st x) :
    findTransition env p n = search (compareCb env p n) ((array x).map tr) := by
  rw [findTransition, hcur, h.array x hx]

/-- What a search finds is the transition of that name. -/
theorem Image.found_eq (h : Image f array st tr p)
    (hr : Placed env.addr (f.transits.map Transit.name)) {names : List Stringshare}
    (hn : ∀ n ∈ names, ∃ t ∈ f.transits, t.name = n) {n : Stringshare} (hmem : n ∈ names) {a : Addr}
    (ha : search (compareCb env p n) (names.map tr) = some a) : a = tr n := by
  obtain ⟨hin, hzero⟩ := search_some ha
  obtain ⟨m, hm, rfl⟩ := List.mem_map.1 hin
  obtain ⟨t, ht, rfl⟩ := hn n hmem
  obtain ⟨u, hu, rfl⟩ := hn m hm
  rw [h.compareCb_eq hr ht hu] at hzero
  rw [hr.injective _ (List.mem_map_of_mem ht) _ (List.mem_map_of_mem hu)
    (BitVec.eq_of_toNat_eq (by omega))]

theorem increasing_nodup {addr : Placement} {names : List Stringshare}
    (h : names.Pairwise fun m n => (addr m).toNat < (addr n).toNat) : names.Nodup := by
  refine h.imp ?_
  rintro m n hlt rfl
  exact lt_irrefl _ hlt

/-- Where the arrays increase, every transition of the FSM fires. -/
theorem Image.fires (h : Image f array st tr p) (hi : Idle p) (hq : Quiet env)
    (hr : Placed env.addr (f.transits.map Transit.name))
    (harray : ∀ x n, n ∈ array x ↔ ∃ t ∈ f.transits, t.fromState = some x ∧ t.name = n)
    (hs : ∀ x, (array x).Pairwise fun m n => (env.addr m).toNat < (env.addr n).toNat) :
    f.Fires env p := by
  intro t ht arg harg hderef _ hname
  obtain ⟨x, hx, htx, hsrc⟩ := h.source t ht
  obtain ⟨y, hy, hty, hdst⟩ := h.target t ht
  obtain ⟨-, hcur⟩ := h.only _ x (hname.trans htx)
  have hnames : ∀ n ∈ array x, ∃ t ∈ f.transits, t.name = n := by
    intro n hn
    obtain ⟨t, ht, -, rfl⟩ := (harray x n).1 hn
    exact ⟨t, ht, rfl⟩
  have hd : (array x).Nodup := increasing_nodup (hs x)
  have hfind : findTransition env p t.name = some (tr t.name) := by
    rw [h.findTransition_eq hx hcur]
    exact (h.finds_iff hr hd hnames).2 (hs x) t.name ((harray x _).2 ⟨t, ht, htx, rfl⟩)
  obtain ⟨q, hrun, hshape, hcur'⟩ := transitionDo_fires hq hi harg (hderef ▸ hfind)
    (hsrc.trans hcur.symm) 0
  refine ⟨1, q, hrun, ?_⟩
  rw [hcur', hdst, (hshape.state _).1, h.named y hy, hty]

end Image

section Loaded

variable {ord : HashOrder} {beyond : ℕ → Char} {heap : Heap} {prog : Program}
  {gen run : Placement} {f : Fsm} {shares : Stringshare → ℤ} {w : W} {p : Process W}

/-- What a loader that ends leaves: the image of its FSM, idle, and ready to be locked again in any
of its states. -/
theorem load_image (hf : f.Named) (h : (loader ord gen f).load heap prog shares w = some p)
    (hl : p.mach.locked = true) :
    Idle p ∧ ∃ st tr, Image f (outgoing ord gen f) st tr p ∧
      ∀ x ∈ f.states, (machineLock p (st x)).mach.currentState = st x := by
  simp only [Loader.load, Option.bind_eq_bind, Option.bind_eq_some_iff, Option.some.injEq] at h
  obtain ⟨l, hrun, current, -, rfl⟩ := h
  obtain ⟨hb, hset, tr, himage⟩ := run_image hf hrun
  obtain ⟨hstate, htr, -, hcb, hdefer⟩ := machineLock_frame l.proc current
  have hshape : SameShape l.proc (machineLock l.proc current) := .of_eq hstate htr
  refine ⟨⟨hl, hcb.trans hb.inCb, hdefer.trans hb.cbDefer⟩, _, tr, himage.of_shape hshape, ?_⟩
  intro x hx
  obtain ⟨a, ha, hne⟩ := hset x hx
  rw [machineLock_again hb.locked hl _ (by rw [ha]; exact hne)]

/-- After any run of a loaded machine whose callbacks make no call, every transition of its FSM
fires in the state it leaves, exactly when the generator and the process place the names of the
transitions of each state in the same order. -/
theorem load_fires_iff {fsms : List Fsm} (hp : ∀ g ∈ fsms, g.Parsed)
    (hv : (checkStates ord beyond fsms).1 = true) (hf : f ∈ (checkStates ord beyond fsms).2)
    (hload : (loader ord gen f).load heap prog shares w = some p) (hl : p.mach.locked = true)
    (hg : Placed gen (f.transits.map Transit.name))
    (hr : Placed run (f.transits.map Transit.name)) :
    (∀ env : Env W, env.addr = run → Quiet env → ∀ q, Run env p q → f.Fires env q) ↔
      f.SameOrder gen run := by
  have hnamed : f.Named := by
    rw [checkStates_eq hp hv] at hf
    obtain ⟨g, hmem, rfl⟩ := List.mem_map.1 hf
    exact checkedFsm_named (hp g hmem)
  obtain ⟨hi, st, tr, himage, hlock⟩ := load_image hnamed hload hl
  have hfrom : ∀ t ∈ f.transits, t.fromState ≠ none := by
    intro t ht
    obtain ⟨x, -, hx, -⟩ := himage.source t ht
    simp [hx]
  rw [sameOrder_iff hnamed.transit_name hg hfrom]
  constructor
  · intro hfires x
    by_cases hx : x ∈ f.states
    · -- A caller that names the transitions of this state, and has it as the current one.
      let env : Env W :=
        { addr := run
          deref := fun _ arg => (outgoing ord gen f x).getD (arg - 1) []
          hashAdds := fun _ => true
          callback := fun _ _ _ _ p => .ret p.world cbOk
          errorCallback := fun _ _ _ p => .ret p.world cbOk }
      have hq : Quiet env := fun _ _ _ _ p => ⟨p.world, cbOk, rfl⟩
      have hrun : Run env p (machineLock p (st x)) :=
        .call (c := .lock (st x)) (b := true) .start (show apiCall env (machineTransitionDo env 0) p _ = _
          from rfl)
      obtain ⟨hi', hshape⟩ := hrun.keeps hq hi
      have himage' := himage.of_shape hshape
      have hnames : ∀ n ∈ outgoing ord gen f x, ∃ t ∈ f.transits, t.name = n := by
        intro n hn
        obtain ⟨t, ht, -, rfl⟩ := mem_outgoing.1 hn
        exact ⟨t, ht, rfl⟩
      have hd : (outgoing ord gen f x).Nodup :=
        increasing_nodup (increasing_outgoing hnamed.transit_name hg x)
      refine (@Image.finds_iff _ _ _ _ _ _ env himage' hr _ hd hnames).1 ?_
      intro n hn
      obtain ⟨i, hi₀, hget⟩ := List.mem_iff_getElem.1 hn
      obtain ⟨t, ht, htx, rfl⟩ := mem_outgoing.1 hn
      have hderef : env.deref (machineLock p (st x)).world (i + 1) = t.name := by
        rw [← hget]
        simp only [env, Nat.add_sub_cancel, List.getD, List.getElem?_eq_getElem hi₀,
          Option.getD_some]
      obtain ⟨fuel, q, hdo, -⟩ := hfires env rfl hq _ hrun t ht (i + 1) (Nat.succ_ne_zero i) hderef
        hi'.inCb (by rw [hlock x hx, himage'.named x hx, htx])
      obtain ⟨a, ha⟩ := found_of_transitionDo hq hi' (Nat.succ_ne_zero i) hdo
      rw [hderef, himage'.findTransition_eq hx (hlock x hx)] at ha
      rw [ha, @Image.found_eq _ _ _ _ _ _ env himage' hr _ hnames _ hn _ ha]
    · have hnone : outgoing ord gen f x = [] := by
        refine List.eq_nil_iff_forall_not_mem.2 fun n hn => ?_
        obtain ⟨t, ht, htx, -⟩ := mem_outgoing.1 hn
        obtain ⟨y, hy, hty, -⟩ := himage.source t ht
        exact hx (Option.some.inj (htx.symm.trans hty) ▸ hy)
      rw [hnone]
      exact List.Pairwise.nil
  · rintro hs env rfl hq q hrun
    obtain ⟨hi', hshape⟩ := hrun.keeps hq hi
    exact (himage.of_shape hshape).fires hi' hq hr (fun x n => mem_outgoing) hs

end Loaded

/-! ## Two placements -/

/-- A file whose initial state has two transitions. -/
def fork : List Char := "m\x7btransitions\x7bmodel\x7bx:a>b;y:a>c;\x7d\x7d\x7d".toList

def forkChecked : Bool × List Fsm :=
  checkStates .newestFirst (fun _ => '\x00') (parserParse fork)

def forkFsm : Fsm := forkChecked.2.headD (fsmNew [])

/-- One name below all the others. -/
def lowest (first : Stringshare) (base : BitVec 64) : Placement := fun s =>
  if s = first then base else base + 1

def plainHeap : Heap where
  sizes := lp64
  malloc := fun _ => some 4096
  calloc := fun _ _ => true
  hashNew := true

def plainProgram : Program where
  func := fun _ => some 1
  literal := some

/-- The loader of `fork`, as a generator makes it that places `x` below `y`. -/
def forkLoad : Option (Process Unit) :=
  (loader .newestFirst (lowest ['x'] 1) forkFsm).load plainHeap plainProgram (fun _ => 0) ()

/-- A caller that has the name `x`, and callbacks that do nothing. -/
def callsX (addr : Placement) : Env Unit where
  addr := addr
  deref := fun _ _ => ['x']
  hashAdds := fun _ => true
  callback := fun _ _ _ _ _ => .ret () cbOk
  errorCallback := fun _ _ _ _ => .ret () cbOk

theorem callsX_quiet (addr : Placement) : Quiet (callsX addr) := fun _ _ _ _ _ => ⟨(), cbOk, rfl⟩

theorem headD_mem {α : Type*} {xs : List α} (h : xs.length = 1) (a : α) : xs.headD a ∈ xs := by
  obtain ⟨x, rfl⟩ := List.length_eq_one_iff.1 h
  exact List.mem_singleton.2 rfl

theorem forkFsm_accepted : forkChecked.1 = true ∧ forkFsm ∈ forkChecked.2 := by
  have h : forkChecked.1 = true ∧ forkChecked.2.length = 1 := by decide_cbv
  exact ⟨h.1, headD_mem h.2 _⟩

theorem forkFsm_names : forkFsm.transits.map Transit.name = [['y'], ['x']] := by
  decide_cbv

theorem forkFsm_transits_ne : forkFsm.transits ≠ [] := by
  intro h
  simpa [h] using forkFsm_names

/-- A machine without data keys has none that is too long. -/
theorem keysFit_of_none {f : Fsm}
    (hf : (f.stateList.all fun s => s.enterer.data = none ∧ s.exiter.data = none) ∧
      f.transits.all fun t => t.cb.data = none ∧ t.enterer.data = none ∧ t.exiter.data = none) :
    f.KeysFit := by
  have hfits : ∀ {c : Cb}, c.data = none → c.Fits := fun h key hk => by simp [h] at hk
  simp only [List.all_eq_true, decide_eq_true_eq] at hf
  exact ⟨fun s hs => ⟨hfits (hf.1 s hs).1, hfits (hf.1 s hs).2⟩,
    fun t ht => ⟨hfits (hf.2 t ht).1, hfits (hf.2 t ht).2.1, hfits (hf.2 t ht).2.2⟩⟩

theorem forkFsm_keysFit : forkFsm.KeysFit := keysFit_of_none (by decide_cbv)

theorem lowest_placed (first : Stringshare) (hf : first = ['x'] ∨ first = ['y']) (base : BitVec 64)
    (hb : base.toNat + 1 < 2 ^ 64) :
    Placed (lowest first base) (forkFsm.transits.map Transit.name) := by
  have hsucc : (base + 1).toNat = base.toNat + 1 := by
    rw [BitVec.toNat_add]
    exact Nat.mod_eq_of_lt hb
  rw [forkFsm_names]
  constructor
  · rcases hf with rfl | rfl <;> simp [lowest]
  · refine ⟨base.toNat, fun x _ => ?_⟩
    unfold lowest
    split_ifs <;> omega

theorem forkLoad_locked : ∃ p, forkLoad = some p ∧ p.mach.locked = true := by
  have h : forkLoad.map (fun p => p.mach.locked) = some true := by decide_cbv
  obtain ⟨p, hp, hl⟩ := Option.map_eq_some_iff.1 h
  exact ⟨p, hp, hl⟩

/-- A process that places `y` below `x` does not find `x` in the initial state. -/
theorem load_misses : forkChecked.1 = true ∧ forkFsm ∈ forkChecked.2 ∧ forkFsm.transits ≠ [] ∧
    forkFsm.KeysFit ∧ Placed (lowest ['x'] 1) (forkFsm.transits.map Transit.name) ∧
    Placed (lowest ['y'] 1) (forkFsm.transits.map Transit.name) ∧
    ∃ p, forkLoad = some p ∧ p.mach.locked = true ∧
      ∃ env : Env Unit, env.addr = lowest ['y'] 1 ∧ Quiet env ∧ ¬ forkFsm.Fires env p := by
  obtain ⟨p, hp, hl⟩ := forkLoad_locked
  refine ⟨forkFsm_accepted.1, forkFsm_accepted.2, forkFsm_transits_ne, forkFsm_keysFit,
    lowest_placed _ (.inl rfl) 1 (by decide), lowest_placed _ (.inr rfl) 1 (by decide), p, hp, hl,
    callsX (lowest ['y'] 1), rfl, callsX_quiet _, fun hfires => ?_⟩
  -- The call fails with one unit of fuel, so it does not succeed with any other.
  have hrun : forkLoad.map (fun p => (p.mach.inCb, (p.state p.mach.currentState).name,
      (machineTransitionDo (callsX (lowest ['y'] 1)) 1 p 1).2)) =
      some (cbUnlocked, some ['a'], some false) := by
    decide +kernel
  rw [hp] at hrun
  obtain ⟨hin, hname, hdo⟩ : p.mach.inCb = cbUnlocked ∧ (p.state p.mach.currentState).name = some ['a']
      ∧ (machineTransitionDo (callsX (lowest ['y'] 1)) 1 p 1).2 = some false := by
    simpa using hrun
  have hx : ∃ t ∈ forkFsm.transits, t.name = ['x'] ∧ t.fromState = some ['a'] := by decide +kernel
  obtain ⟨t, ht, htn, htf⟩ := hx
  obtain ⟨fuel, q, hq, -⟩ := hfires t ht 1 one_ne_zero (htn ▸ rfl) hin (hname.trans htf.symm)
  have h₁ := machineTransitionDo_mono (callsX (lowest ['y'] 1)) (Nat.le_add_left 1 fuel) p 1
    (machineTransitionDo (callsX (lowest ['y'] 1)) 1 p 1).1 false (Prod.ext rfl hdo)
  have h₂ := machineTransitionDo_mono (callsX (lowest ['y'] 1)) (Nat.le_add_right fuel 1) p 1 q true hq
  exact absurd (Prod.mk.inj (h₁.symm.trans h₂)).2 (by simp)

/-- Two processes that both place `x` below `y`. -/
theorem load_fires_fork : ∃ p, forkLoad = some p ∧ ∀ env : Env Unit, env.addr = lowest ['x'] 8 →
    Quiet env → ∀ q, Run env p q → forkFsm.Fires env q := by
  obtain ⟨p, hp, hl⟩ := forkLoad_locked
  have hparsed : ∀ g ∈ parserParse fork, g.Parsed := parserParse_parsed fork
  have horder : forkFsm.SameOrder (lowest ['x'] 1) (lowest ['x'] 8) := by
    intro t ht u hu _
    have hname : ∀ v ∈ forkFsm.transits, v.name = ['y'] ∨ v.name = ['x'] := by
      intro v hv
      simpa [forkFsm_names] using List.mem_map_of_mem (f := Transit.name) hv
    rcases hname t ht with h | h <;> rcases hname u hu with h' | h' <;> rw [h, h'] <;> decide
  exact ⟨p, hp, (load_fires_iff hparsed forkFsm_accepted.1 forkFsm_accepted.2 hp hl
    (lowest_placed _ (.inl rfl) 1 (by decide)) (lowest_placed _ (.inl rfl) 8 (by decide))).2 horder⟩

end Estate.Cc
