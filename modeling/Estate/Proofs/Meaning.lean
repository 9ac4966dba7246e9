import Estate.Cc.Meaning
import Estate.Proofs.Frozen
import Estate.Proofs.Loaded

/-!
# A loaded machine does what its FSM means

What a loader leaves in memory carries the whole FSM: the image of its states and transitions, and
the functions of their callbacks (`load_embodies`). While the callbacks make no call, each request
made of it shows what the automaton of the FSM does and leads where it goes (`standing_follows`), so
any run of requests is a run of the automaton (`loaded_follows`).
-/

namespace Estate.Cc

open Lib

variable {W : Type}

/-- The machine of an FSM in memory, with the functions of its callbacks. -/
structure Embodies (prog : Program) (f : Fsm) (array : Stringshare → List Stringshare)
    (st tr : Stringshare → Addr) (p : Process W) : Prop extends Image f array st tr p where
  exiter : ∀ x ∈ f.states, (p.state (st x)).exiter.func = (f.exiter x).callee prog
  enterer : ∀ x ∈ f.states, (p.state (st x)).enterer.func = (f.enterer x).callee prog
  cb : ∀ t ∈ f.transits, (p.transition (tr t.name)).cb.func = t.cb.callee prog

section Embodies

variable {prog : Program} {f : Fsm} {array : Stringshare → List Stringshare}
  {st tr : Stringshare → Addr} {p q : Process W}

theorem Embodies.of_frozen (h : Embodies prog f array st tr p) (hs : SameShape p q)
    (hc : SameCallbacks p q) : Embodies prog f array st tr q where
  toImage := h.toImage.of_shape hs
  exiter x hx := (hc.wrapper (.exiter (st x))).1.trans (h.exiter x hx)
  enterer x hx := (hc.wrapper (.enterer (st x))).1.trans (h.enterer x hx)
  cb t ht := (hc.wrapper (.cb (tr t.name))).1.trans (h.cb t ht)

/-! ## What a loader leaves -/

theorem ctor_callee {c : Cb} {k : CbCtor} (h : prog.ctor (ctorText c) = some k) :
    k.func = c.callee prog := by
  simp only [Program.ctor, Option.bind_eq_bind, Option.bind_eq_some_iff, Option.some.injEq] at h
  obtain ⟨func, hfunc, key, -, rfl⟩ := h
  simp only [ctorText] at hfunc
  rw [Cb.callee, hfunc, Option.getD_some]

variable {ord : HashOrder} {heap : Heap} {gen : Placement} {shares : Stringshare → ℤ} {w : W}
  {l : Loading W}

/-- A state of the FSM as it is initialised, with its callbacks. -/
theorem exists_gathered_callbacks (hf : f.Named) {x : Stringshare} (hx : x ∈ f.states) :
    ∃ s ∈ ord.foreach (gatheredStates ord gen f), s.name = x ∧ s.exiter = f.exiter x ∧
      s.enterer = f.enterer x := by
  obtain ⟨s, hs⟩ := Option.isSome_iff_exists.1 (AList.lookup_isSome.2 hx)
  have hmem := mem_entries_iff.2 hs
  obtain rfl : s.name = x := hf.state_name _ hmem
  refine ⟨_, gathered_mem hf (List.mem_map_of_mem (f := Sigma.snd) hmem), rfl, ?_, ?_⟩
  · rw [Fsm.exiter, hs]
    rfl
  · rw [Fsm.enterer, hs]
    rfl

theorem run_embodies (hf : f.Named) (h : (loader ord gen f).run heap prog shares w = some l) :
    Building l.proc.mach ∧ (∀ x a, l.stateVar x = some a → x ∈ f.states) ∧
      ∃ tr, Embodies prog f (outgoing ord gen f) (fun x => (l.stateVar x).getD 0) tr l.proc := by
  obtain ⟨mach, hmach, l₁, l₂, l₃, h₁, h₂, h₃, h₄⟩ := run_batches h
  have ha := allocated_of_run hf hmach h₁ h₂
  obtain ⟨-, -, hstates, -, htransits⟩ := inits_of_allocated hf ha h₃ h₄
  obtain ⟨hsv, hb, himage⟩ := image_of_allocated hf ha h₃ h₄
  rw [hsv]
  refine ⟨hb, ha.states_only, _, himage, fun x hx => ?_, fun x hx => ?_, fun t ht => ?_⟩
  · obtain ⟨s, hs, rfl, hexiter, -⟩ := exists_gathered_callbacks hf hx
    obtain ⟨c, hc, hw⟩ := (hstates s hs).exiter
    rw [hw, ← hexiter]
    exact ctor_callee hc
  · obtain ⟨s, hs, rfl, -, henterer⟩ := exists_gathered_callbacks hf hx
    obtain ⟨c, hc, hw⟩ := (hstates s hs).enterer
    rw [hw, ← henterer]
    exact ctor_callee hc
  · obtain ⟨c, hc, hholds⟩ := (htransits t ht).cb
    rw [hholds.1]
    exact ctor_callee hc

/-- What a loader that ends leaves: its FSM in memory, idle and in its initial state. -/
theorem load_embodies (hf : f.Named) (h : (loader ord gen f).load heap prog shares w = some p)
    (hl : p.mach.locked = true) :
    Idle p ∧ ∃ st tr i, Embodies prog f (outgoing ord gen f) st tr p ∧ f.init = some i ∧
      i ∈ f.states ∧ p.mach.currentState = st i := by
  simp only [Loader.load, Option.bind_eq_bind, Option.bind_eq_some_iff, Option.some.injEq] at h
  obtain ⟨l, hrun, current, ⟨i, hi, hcur⟩, rfl⟩ := h
  obtain ⟨hb, honly, tr, hembodies⟩ := run_embodies hf hrun
  obtain ⟨hstate, htr, -, hcb, hdefer⟩ := machineLock_frame l.proc current
  obtain ⟨hc, hs, ht⟩ := complete_of_machineLock hb.locked hl
  refine ⟨⟨hl, hcb.trans hb.inCb, hdefer.trans hb.cbDefer⟩, _, tr, i,
    hembodies.of_frozen (.of_eq hstate htr) (.of_eq hstate htr), hi, honly i current hcur, ?_⟩
  rw [machineLock_complete hc hs ht, hcur]
  rfl

end Embodies

/-! ## One request -/

/-- The process stands for a state of the automaton. -/
structure Standing (prog : Program) (f : Fsm) (array : Stringshare → List Stringshare)
    (st tr : Stringshare → Addr) (errors : Bool) (p : Process W) (x : Stringshare) : Prop where
  embodies : Embodies prog f array st tr p
  idle : Idle p
  mem : x ∈ f.states
  current : p.mach.currentState = st x
  errors : p.mach.errorCb = 0 ↔ errors = false

section Step

variable {prog : Program} {f : Fsm} {array : Stringshare → List Stringshare}
  {st tr : Stringshare → Addr} {errors : Bool} {p q : Process W} {x n : Stringshare} {t : Transit}
  {env : Env W} {asked : List Stringshare}

theorem Standing.setWorld (h : Standing prog f array st tr errors p x) (w : W) :
    Standing prog f array st tr errors (p.setWorld w) x where
  embodies := h.embodies.of_frozen (.of_eq rfl rfl) (.of_eq rfl rfl)
  idle := ⟨h.idle.locked, h.idle.inCb, h.idle.cbDefer⟩
  mem := h.mem
  current := h.current
  errors := h.errors

theorem Standing.name (h : Standing prog f array st tr errors p x) :
    (p.state p.mach.currentState).name = some x := by
  rw [h.current]
  exact h.embodies.named x h.mem

/-- A name that leaves a state is the name of a transition of the FSM that leaves it. -/
theorem Fsm.exit_some (hn : f.Named) :
    f.exit x n = some t ↔ t ∈ f.transits ∧ t.fromState = some x ∧ t.name = n := by
  rw [Fsm.exit, Option.filter_eq_some_iff]
  constructor
  · rintro ⟨hl, hx⟩
    have he := mem_entries_iff.2 hl
    exact ⟨List.mem_map_of_mem (f := Sigma.snd) he, by simpa using hx, hn.transit_name _ he⟩
  · rintro ⟨ht, hx, rfl⟩
    obtain ⟨e, he, rfl⟩ := List.mem_map.1 ht
    exact ⟨hn.transit_name e he ▸ mem_entries_iff.1 he, by simpa using hx⟩

/-- How the arrays of a machine have to lie for its searches. -/
structure Searchable (f : Fsm) (array : Stringshare → List Stringshare) (run : Placement)
    (asked : List Stringshare) : Prop where
  placed : Placed run (f.transits.map Transit.name ++ asked)
  leaving : ∀ x n, n ∈ array x ↔ ∃ t ∈ f.transits, t.fromState = some x ∧ t.name = n
  increasing : ∀ x, (array x).Pairwise fun m n => (run m).toNat < (run n).toNat

/-- A name is found in a state exactly when it leaves it. -/
theorem Embodies.find_eq (h : Embodies prog f array st tr p) (hx : x ∈ f.states)
    (hcur : p.mach.currentState = st x) (hf : f.Named) (hs : Searchable f array env.addr asked)
    (hn : n ∈ asked) : findTransition env p n = (f.exit x n).map fun t => tr t.name := by
  have hfind : findTransition env p n = search (compareCb env p n) ((array x).map tr) :=
    h.toImage.findTransition_eq hx hcur
  have htransits : Placed env.addr (f.transits.map Transit.name) :=
    hs.placed.mono fun _ => List.mem_append_left _
  rcases hexit : f.exit x n with _ | t
  · rw [hfind, Option.map_none]
    by_contra hne
    obtain ⟨a, ha⟩ := Option.ne_none_iff_exists'.1 hne
    obtain ⟨hin, hzero⟩ := search_some ha
    obtain ⟨m, hm, rfl⟩ := List.mem_map.1 hin
    obtain ⟨u, hu, hux, rfl⟩ := (hs.leaving x m).1 hm
    have hmu := List.mem_append_left asked (List.mem_map_of_mem (f := Transit.name) hu)
    rw [compareCb, h.transit u hu, Option.map_some, Option.getD_some,
      hs.placed.ptrDiffInt_eq (List.mem_append_right _ hn) hmu] at hzero
    have hsame := hs.placed.injective _ (List.mem_append_right _ hn) _ hmu
      (BitVec.eq_of_toNat_eq (by omega))
    rw [(Fsm.exit_some hf).2 ⟨hu, hux, hsame.symm⟩] at hexit
    exact absurd hexit (by simp)
  · obtain ⟨ht, htx, rfl⟩ := (Fsm.exit_some hf).1 hexit
    have hnames : ∀ n ∈ array x, ∃ t ∈ f.transits, t.name = n := by
      intro n hn
      obtain ⟨t, ht, -, rfl⟩ := (hs.leaving x n).1 hn
      exact ⟨t, ht, rfl⟩
    rw [hfind, Option.map_some]
    exact (h.toImage.finds_iff htransits (increasing_nodup (hs.increasing x)) hnames).2
      (hs.increasing x) _ ((hs.leaving x _).2 ⟨t, ht, htx, rfl⟩)

theorem heard_present {type : CbType} {c : Cb} {a : Addr} (ha : (p.state a).name = some x) :
    (present type (c.callee prog) a).map (heardAs env p) = c.heard prog type x := by
  unfold present Cb.heard
  split_ifs
  · rfl
  · rw [List.map_singleton, heardAs, ha]

/-- The callbacks of a transition as they are heard. -/
theorem Standing.heard_callbacksOf (h : Standing prog f array st tr errors p x) (ht : t ∈ f.transits)
    (htx : t.fromState = some x) :
    (callbacksOf p (tr t.name)).map (heardAs env p) = f.heardOf prog x t := by
  obtain ⟨x', -, htx', hsrc⟩ := h.embodies.source t ht
  obtain rfl := Option.some.inj (htx.symm.trans htx')
  obtain ⟨y, hy, hty, hdst⟩ := h.embodies.target t ht
  simp only [callbacksOf, hsrc, hdst, h.embodies.exiter x h.mem, h.embodies.enterer y hy,
    h.embodies.cb t ht, List.map_append, Fsm.heardOf, hty, Option.toList_some,
    List.flatMap_cons, List.flatMap_nil, List.append_nil,
    heard_present (h.embodies.named x h.mem), heard_present (h.embodies.named y hy)]

/-- A request of a name of `asked` ends, with the answer of the automaton. -/
theorem Standing.request (h : Standing prog f array st tr errors p x) (hf : f.Named)
    (hs : Searchable f array env.addr asked) (hq : Quiet env) (hsilent : ErrorSilent env)
    {arg : CStr} (harg : arg ≠ 0) (hn : env.deref p.world arg ∈ asked) (fuel : ℕ) :
    ∃ q, machineTransitionDo env (fuel + 1) p arg =
        (q, some ((f.automaton prog errors).next x (env.deref p.world arg)).isSome) ∧
      heard env p q = (f.automaton prog errors).out x (env.deref p.world arg) ∧
      q.mach.currentState = st ((f.automaton prog errors).after x (env.deref p.world arg)) ∧
      (f.automaton prog errors).after x (env.deref p.world arg) ∈ f.states ∧
      q.mach.errorCb = p.mach.errorCb := by
  have hfind := h.embodies.find_eq h.mem h.current hf hs hn
  have hdo : machineTransitionDo env (fuel + 1) p arg =
      transitionRun env (machineTransitionDo env fuel) p arg := transitionEnter_idle h.idle harg
  rcases hexit : f.exit x (env.deref p.world arg) with _ | t
  · rw [hexit] at hfind
    obtain ⟨q, hrun, hrejects⟩ := transitionRun_rejects hsilent (machineTransitionDo env fuel) hfind
    have hnext : (f.automaton prog errors).next x (env.deref p.world arg) = none := by
      simp [Fsm.automaton, hexit]
    refine ⟨q, ?_, ?_, ?_, ?_, ?_⟩
    · rw [hnext]
      exact hdo.trans hrun
    · rw [heard, hrejects.invoked]
      simp only [Fsm.automaton, hexit]
      by_cases he : p.mach.errorCb = 0
      · simp [he, h.errors.1 he]
      · simp [he, heardAs, Bool.eq_true_of_not_eq_false (mt h.errors.2 he)]
    · rw [Automaton.after_none hnext, hrejects.mach, h.current]
    · rw [Automaton.after_none hnext]
      exact h.mem
    · rw [hrejects.mach]
  · obtain ⟨ht, htx, hname⟩ := (Fsm.exit_some hf).1 hexit
    obtain ⟨x', -, htx', hsrc⟩ := h.embodies.source t ht
    obtain rfl := Option.some.inj (htx.symm.trans htx')
    obtain ⟨y, hy, hty, hdst⟩ := h.embodies.target t ht
    rw [hexit] at hfind
    obtain ⟨q, hrun, hperforms⟩ := transitionRun_performs hq (machineTransitionDo env fuel) h.idle
      hfind (hsrc.trans h.current.symm)
    have hnext : (f.automaton prog errors).next x (env.deref p.world arg) = some y := by
      simp [Fsm.automaton, hexit, hty]
    refine ⟨q, ?_, ?_, ?_, ?_, ?_⟩
    · rw [hnext]
      exact hdo.trans hrun
    · rw [heard, hperforms.invoked, h.heard_callbacksOf ht htx]
      simp only [Fsm.automaton, hexit]
    · rw [Automaton.after_some hnext, hperforms.mach, hdst]
    · rw [Automaton.after_some hnext]
      exact hy
    · rw [hperforms.mach]

/-- While the callbacks make no call, the process follows the automaton of its FSM. -/
theorem standing_follows (hf : f.Named) (hs : Searchable f array env.addr asked) (hq : Quiet env)
    (hsilent : ErrorSilent env) :
    Mirrors (f.automaton prog errors) {n | n ∈ asked} (Asks env)
      (Standing prog f array st tr errors) := by
  rintro p x _ q hn h ⟨harg, hdo⟩
  rename_i w arg fuel b
  have h' := h.setWorld w
  cases fuel with
  | zero =>
    rw [show machineTransitionDo env 0 (p.setWorld w) arg = (p.setWorld w, none) from
      transitionEnter_idle h'.idle harg] at hdo
    simp at hdo
  | succ fuel =>
    obtain ⟨q', hdo', hheard, hcur, hmem, herr⟩ := h'.request hf hs hq hsilent harg hn fuel
    obtain ⟨rfl, hb⟩ := Prod.mk.inj (hdo'.symm.trans hdo)
    have hfrozen := (frozen_preserves env).transitionDo (frozen_fires env).found _ _ _ _ _ hdo
    obtain ⟨hidle, -⟩ := transitionDo_keeps hq _ _ _ _ _ h'.idle hdo
    refine ⟨?_, h'.embodies.of_frozen hfrozen.shape hfrozen.callbacks, hidle, hmem, hcur, ?_⟩
    · rw [Automaton.see, Seen.mk.injEq]
      exact ⟨rfl, (Option.some.inj hb).symm, hheard⟩
    · rw [herr]
      exact h'.errors

theorem Standing.behaves (h : Standing prog f array st tr errors p x) (hf : f.Named)
    (hs : Searchable f array env.addr asked) (hq : Quiet env) (hsilent : ErrorSilent env) :
    Behaves env (f.automaton prog errors) asked p x := by
  intro es q hrun hasked
  obtain ⟨hes, hq'⟩ := (standing_follows hf hs hq hsilent).steps hasked h hrun
  refine ⟨hes, ?_, fun w arg harg hn => ?_⟩
  · rw [machineCurrentStateGet, if_pos hq'.idle.locked]
    exact hq'.name
  · obtain ⟨q', hdo, -⟩ := (hq'.setWorld w).request hf hs hq hsilent harg hn 0
    exact ⟨_, q', rfl, .intro harg hdo⟩

end Step

section Loaded

variable {ord : HashOrder} {beyond : ℕ → Char} {heap : Heap} {prog : Program} {gen : Placement}
  {f : Fsm} {shares : Stringshare → ℤ} {w : W} {p : Process W} {env : Env W}
  {asked : List Stringshare}

/-- The arrays of a generator that agrees with the process on the order of the names. -/
theorem searchable_of_sameOrder (hf : f.Named) (hg : Placed gen (f.transits.map Transit.name))
    (hr : Placed env.addr (f.transits.map Transit.name ++ asked))
    (hfrom : ∀ t ∈ f.transits, t.fromState ≠ none) (hsame : f.SameOrder gen env.addr) :
    Searchable f (outgoing ord gen f) env.addr asked :=
  ⟨hr, fun _ _ => mem_outgoing, (sameOrder_iff hf.transit_name hg hfrom).1 hsame⟩

theorem accepted_named {fsms : List Fsm} (hp : ∀ g ∈ fsms, g.Parsed)
    (hv : (checkStates ord beyond fsms).1 = true) (hf : f ∈ (checkStates ord beyond fsms).2) :
    f.Named := by
  rw [checkStates_eq hp hv] at hf
  obtain ⟨g, hmem, rfl⟩ := List.mem_map.1 hf
  exact checkedFsm_named (hp g hmem)

/-- A machine that a loader has made stands in the initial state of its FSM, whatever its error
callback. -/
theorem load_standing (hf : f.Named) (h : (loader ord gen f).load heap prog shares w = some p)
    (hl : p.mach.locked = true) (errorCb : Addr) :
    (∀ t ∈ f.transits, t.fromState ≠ none) ∧ ∃ st tr i, f.init = some i ∧
      Standing prog f (outgoing ord gen f) st tr (decide (errorCb ≠ 0)) (machineErrorCbSet p errorCb)
        i := by
  obtain ⟨hi, st, tr, i, hembodies, hinit, hmem, hcur⟩ := load_embodies hf h hl
  refine ⟨fun t ht => ?_, st, tr, i, hinit, hembodies.of_frozen (.of_eq rfl rfl) (.of_eq rfl rfl),
    ⟨hi.locked, hi.inCb, hi.cbDefer⟩, hmem, hcur, ?_⟩
  · obtain ⟨x, -, hx, -⟩ := hembodies.source t ht
    simp [hx]
  · simp [machineErrorCbSet]

/-- A machine that is generated, loaded and locked answers any sequence of requests as the automaton
of its FSM does from the initial state. -/
theorem loaded_follows {fsms : List Fsm} (hp : ∀ g ∈ fsms, g.Parsed)
    (hv : (checkStates ord beyond fsms).1 = true) (hf : f ∈ (checkStates ord beyond fsms).2)
    (hload : (loader ord gen f).load heap prog shares w = some p) (hl : p.mach.locked = true)
    (hg : Placed gen (f.transits.map Transit.name))
    (hr : Placed env.addr (f.transits.map Transit.name ++ asked))
    (hsame : f.SameOrder gen env.addr) (hq : Quiet env) (hsilent : ErrorSilent env)
    (errorCb : Addr) :
    ∃ i, f.init = some i ∧ Behaves env (f.automaton prog (decide (errorCb ≠ 0))) asked
      (machineErrorCbSet p errorCb) i := by
  have hnamed := accepted_named hp hv hf
  obtain ⟨hfrom, st, tr, i, hinit, hstanding⟩ := load_standing hnamed hload hl errorCb
  have hsearch : Searchable f (outgoing ord gen f) env.addr asked :=
    searchable_of_sameOrder hnamed hg hr hfrom hsame
  exact ⟨i, hinit, hstanding.behaves hnamed hsearch hq hsilent⟩

end Loaded

theorem callsX_silent (addr : Placement) : ErrorSilent (callsX addr) := fun _ _ _ _ => ⟨(), cbOk, rfl⟩

theorem fork_sameOrder : forkFsm.SameOrder (lowest ['x'] 1) (lowest ['x'] 8) := by
  have hname : ∀ v ∈ forkFsm.transits, v.name = ['y'] ∨ v.name = ['x'] := by
    intro v hv
    simpa [forkFsm_names] using List.mem_map_of_mem (f := Transit.name) hv
  intro t ht u hu _
  rcases hname t ht with h | h <;> rcases hname u hu with h' | h' <;> rw [h, h'] <;> decide

theorem fork_placed :
    Placed (lowest ['x'] 8) (forkFsm.transits.map Transit.name ++ [['x']]) := by
  refine (lowest_placed _ (.inl rfl) 8 (by decide)).mono ?_
  simp [forkFsm_names]

/-- The loader of `fork` in a process that places `x` below `y` too. -/
theorem fork_follows : ∃ p i, forkLoad = some p ∧ forkFsm.init = some i ∧
    Behaves (callsX (lowest ['x'] 8)) (forkFsm.automaton plainProgram true) [['x']]
      (machineErrorCbSet p 5) i := by
  obtain ⟨p, hp, hl⟩ := forkLoad_locked
  obtain ⟨i, hi, hfollows⟩ : ∃ i, forkFsm.init = some i ∧ Behaves (callsX (lowest ['x'] 8))
      (forkFsm.automaton plainProgram true) [['x']] (machineErrorCbSet p 5) i :=
    loaded_follows (parserParse_parsed fork) forkFsm_accepted.1 forkFsm_accepted.2 hp hl
    (lowest_placed _ (.inl rfl) 1 (by decide)) fork_placed fork_sameOrder (callsX_quiet _)
    (callsX_silent _) 5
  exact ⟨p, i, hp, hi, hfollows⟩

end Estate.Cc
