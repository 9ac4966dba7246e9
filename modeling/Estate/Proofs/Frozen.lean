import Estate.Proofs.Caching

/-!
# What no run changes

A locked machine is a machine whose shape is given: whatever its callbacks do, every call that ends
leaves the names, the arrays and the ends of its states and transitions, and the function and the
key of each of their callbacks. It keeps what has been bound to a key, and the global data once
there is one (`locked_keeps`).
-/

namespace Estate

variable {W : Type}

/-- The function and the key of every wrapper are those it had. -/
structure SameCallbacks (p q : Process W) : Prop where
  wrapper : ∀ r, (q.wrapper r).func = (p.wrapper r).func ∧ (q.wrapper r).key = (p.wrapper r).key
  stEnterer : ∀ a, (q.transition a).stEnterer = (p.transition a).stEnterer
  stExiter : ∀ a, (q.transition a).stExiter = (p.transition a).stExiter

theorem SameCallbacks.of_eq {p q : Process W} (hs : q.state = p.state)
    (ht : q.transition = p.transition) : SameCallbacks p q where
  wrapper r := by cases r <;> simp [Process.wrapper, hs, ht]
  stEnterer a := by rw [ht]
  stExiter a := by rw [ht]

theorem SameCallbacks.trans {p q r : Process W} (h : SameCallbacks p q) (h' : SameCallbacks q r) :
    SameCallbacks p r where
  wrapper w := ⟨(h'.wrapper w).1.trans (h.wrapper w).1, (h'.wrapper w).2.trans (h.wrapper w).2⟩
  stEnterer a := (h'.stEnterer a).trans (h.stEnterer a)
  stExiter a := (h'.stExiter a).trans (h.stExiter a)

/-- A wrapper that is written keeps its function and its key. -/
theorem setWrapper_callbacks {p : Process W} {r : WrapperRef} {w : CbWrapper}
    (hf : w.func = (p.wrapper r).func) (hk : w.key = (p.wrapper r).key) :
    SameCallbacks p (p.setWrapper r w) where
  wrapper r' := by
    rw [setWrapper_wrapper]
    split_ifs with h
    · exact ⟨by rw [hf, h], by rw [hk, h]⟩
    · exact ⟨rfl, rfl⟩
  stEnterer a := by
    cases r with
    | cb tr => by_cases ha : a = tr <;> simp [Process.setWrapper, ha]
    | _ => rfl
  stExiter a := by
    cases r with
    | cb tr => by_cases ha : a = tr <;> simp [Process.setWrapper, ha]
    | _ => rfl

/-- What a machine has been given once and for all. -/
structure GivenOnce (m m' : Machine) : Prop where
  data : ∀ key value, m.data.lookup key = some value → m'.data.lookup key = some value
  globalData : m.globalData ≠ 0 → m'.globalData = m.globalData
  locked : m.locked = true → m'.locked = true ∧ m'.mempool = m.mempool
  counts : m'.statesCount = m.statesCount ∧ m'.transitCount = m.transitCount

theorem GivenOnce.trans {m m' m'' : Machine} (h : GivenOnce m m') (h' : GivenOnce m' m'') : GivenOnce m m'' where
  data key value hk := h'.data key value (h.data key value hk)
  globalData hg := by
    have hg' := h.globalData hg
    rw [h'.globalData (by rw [hg']; exact hg), hg']
  locked hl := by
    obtain ⟨hl', hmp⟩ := h.locked hl
    obtain ⟨hl'', hmp'⟩ := h'.locked hl'
    exact ⟨hl'', hmp'.trans hmp⟩
  counts := ⟨h'.counts.1.trans h.counts.1, h'.counts.2.trans h.counts.2⟩

/-- A machine that differs in none of this. -/
theorem GivenOnce.of_eq {m m' : Machine} (hd : m'.data = m.data) (hg : m'.globalData = m.globalData)
    (hl : m'.locked = m.locked) (hmp : m'.mempool = m.mempool)
    (hs : m'.statesCount = m.statesCount) (ht : m'.transitCount = m.transitCount) : GivenOnce m m' where
  data key value hk := by rw [hd, hk]
  globalData _ := hg
  locked h := ⟨hl.trans h, hmp⟩
  counts := ⟨hs, ht⟩

theorem GivenOnce.refl (m : Machine) : GivenOnce m m := .of_eq rfl rfl rfl rfl rfl rfl

/-- Two moments of one run. -/
structure Frozen (p q : Process W) : Prop where
  shape : SameShape p q
  callbacks : SameCallbacks p q
  machine : GivenOnce p.mach q.mach

theorem Frozen.trans {p q r : Process W} (h : Frozen p q) (h' : Frozen q r) : Frozen p r :=
  ⟨h.shape.trans h'.shape, h.callbacks.trans h'.callbacks, h.machine.trans h'.machine⟩

theorem Frozen.of_mach {p q : Process W} (hs : q.state = p.state)
    (ht : q.transition = p.transition) (hm : GivenOnce p.mach q.mach) : Frozen p q :=
  ⟨.of_eq hs ht, .of_eq hs ht, hm⟩

theorem Frozen.bracket {p q : Process W} {s : Stringshare} (h : Frozen (p.share s) q) :
    Frozen p (q.unshare s) where
  shape := (SameShape.of_eq (p := p) (q := p.share s) rfl rfl).trans
    (h.shape.trans (.of_eq rfl rfl))
  callbacks := (SameCallbacks.of_eq (p := p) (q := p.share s) rfl rfl).trans
    (h.callbacks.trans (.of_eq rfl rfl))
  machine := h.machine

/-- Global data is set once. -/
theorem apiCall_globalData {env : Env W} {run : Process W → CStr → Process W × Option Bool}
    {p q : Process W} {c : Call} {b : Bool} (hc : ∀ t, c ≠ .transitionDo t)
    (h : apiCall env run p c = (q, some b)) (hg : p.mach.globalData ≠ 0) :
    q.mach.globalData = p.mach.globalData := by
  cases c with
  | transitionDo t => exact absurd rfl (hc t)
  | globalDataSet data =>
    obtain ⟨rfl, -⟩ := Prod.mk.inj h
    rw [machineGlobalDataSet, if_pos hg]
  | dataSet key value =>
    obtain ⟨rfl, -⟩ := Prod.mk.inj h
    unfold machineDataSet
    simp only []
    split_ifs
    · rfl
    · rfl
    · rfl
    · split <;> rfl
    · split <;> rfl
  | lock current =>
    obtain ⟨rfl, -⟩ := Prod.mk.inj h
    unfold machineLock
    split_ifs <;> rfl
  | stateAdd state =>
    obtain ⟨rfl, -⟩ := Prod.mk.inj h
    unfold machineStateAdd
    simp only []
    split_ifs <;> rfl
  | transitionAdd tr =>
    obtain ⟨rfl, -⟩ := Prod.mk.inj h
    unfold machineTransitionAdd
    simp only []
    split_ifs <;> rfl
  | errorCbSet func =>
    obtain ⟨rfl, -⟩ := Prod.mk.inj h
    rfl

/-- A call that is no transition binds new keys only. -/
theorem apiCall_frozen {env : Env W} {run : Process W → CStr → Process W × Option Bool}
    {p q : Process W} {c : Call} {b : Bool} (hc : ∀ t, c ≠ .transitionDo t)
    (h : apiCall env run p c = (q, some b)) : Frozen p q := by
  have hglobal := apiCall_globalData hc h
  cases apiCall_step env hc h with
  | same => exact .of_mach rfl rfl ⟨fun _ _ hk => hk, hglobal, fun hl => ⟨hl, rfl⟩, rfl, rfl⟩
  | refused shr =>
    exact .of_mach rfl rfl ⟨fun _ _ hk => hk, hglobal, fun hl => ⟨hl, rfl⟩, rfl, rfl⟩
  | bound shr value hnone =>
    refine .of_mach rfl rfl ⟨fun key value hk => ?_, hglobal, fun hl => ⟨hl, rfl⟩, rfl, rfl⟩
    have hne : key ≠ shr := by
      rintro rfl
      exact absurd (hk.symm.trans hnone) (by simp)
    exact (AList.lookup_insert_ne hne).trans hk
  | locked current _ =>
    exact .of_mach rfl rfl ⟨fun _ _ hk => hk, hglobal, fun _ => ⟨rfl, rfl⟩, rfl, rfl⟩
  | registered mp hopen =>
    exact .of_mach rfl rfl ⟨fun _ _ hk => hk, hglobal,
      fun hl => absurd (hl.symm.trans hopen) (by simp), rfl, rfl⟩
  | globalData data =>
    exact .of_mach rfl rfl ⟨fun _ _ hk => hk, hglobal, fun hl => ⟨hl, rfl⟩, rfl, rfl⟩
  | errorCb func =>
    exact .of_mach rfl rfl ⟨fun _ _ hk => hk, hglobal, fun hl => ⟨hl, rfl⟩, rfl, rfl⟩

theorem frozen_preserves (env : Env W) : Preserves env Frozen where
  refl _ := .of_mach rfl rfl (.refl _)
  trans := Frozen.trans
  world _ _ := .of_mach rfl rfl (.refl _)
  log _ _ _ := .of_mach rfl rfl (.refl _)
  call := apiCall_frozen
  defer _ _ := .of_mach rfl rfl (.of_eq rfl rfl rfl rfl rfl rfl)
  bracket := Frozen.bracket

/-- Around a callback only the data and the result of its wrapper are written. -/
theorem frozen_pieces : Pieces (Frozen (W := W)) where
  chosen _ _ := .of_mach rfl rfl (.of_eq rfl rfl rfl rfl rfl rfl)
  entering p wrp type tr := by
    obtain ⟨hf, hk, -⟩ := miscCbCache_frame p.mach (p.wrapper wrp)
    have hset := setWrapper_callbacks hf hk
    refine ⟨entering_shape p wrp type tr, hset.trans (.of_eq rfl rfl), ?_⟩
    rw [entering_mach]
    exact .of_eq rfl rfl rfl rfl rfl rfl
  leaving p wrp type tr result := by
    have hset : SameCallbacks p (p.setWrapper wrp { p.wrapper wrp with result := result }) :=
      setWrapper_callbacks rfl rfl
    refine ⟨leaving_shape p wrp type tr result, hset.trans (.of_eq rfl rfl), ?_⟩
    rw [leaving_mach]
    exact .of_eq rfl rfl rfl rfl rfl rfl
  moved _ _ := .of_mach rfl rfl (.of_eq rfl rfl rfl rfl rfl rfl)

theorem frozen_fires (env : Env W) : Fires env Frozen := .of_pieces (frozen_preserves env) frozen_pieces

theorem Frozen.of_run {env : Env W} {p q : Process W} (h : Run env p q) : Frozen p q :=
  (frozen_preserves env).run (frozen_fires env) h

/-- From any moment of a run of a machine that was built and locked to a later one, whatever its
callbacks do, it stays locked with all that was registered, its states and transitions keep their
names, arrays, ends and callbacks, and what has been bound to a key, or set as the global data,
stays. -/
theorem locked_keeps {env : Env W} {heap : Heap} {p₀ p q : Process W} (hp : BuiltLocked heap p₀)
    (h₀ : Run env p₀ p) (h : Run env p q) :
    (q.mach.locked = true ∧ q.mach.mempool = p.mach.mempool ∧
      q.mach.statesCount = p.mach.statesCount ∧ q.mach.transitCount = p.mach.transitCount) ∧
    (∀ a, (q.state a).name = (p.state a).name ∧ (q.state a).transit = (p.state a).transit ∧
      (q.state a).transitCount = (p.state a).transitCount) ∧
    (∀ a, (q.transition a).name = (p.transition a).name ∧
      (q.transition a).fromState = (p.transition a).fromState ∧
      (q.transition a).toState = (p.transition a).toState) ∧
    (∀ r, (q.wrapper r).func = (p.wrapper r).func ∧ (q.wrapper r).key = (p.wrapper r).key) ∧
    (∀ key value, p.mach.data.lookup key = some value → q.mach.data.lookup key = some value) ∧
    (p.mach.globalData ≠ 0 → machineGlobalDataGet q = machineGlobalDataGet p) := by
  obtain ⟨hshape, hcallbacks, hgiven⟩ := Frozen.of_run h
  obtain ⟨hl, -⟩ := (Frozen.of_run h₀).machine.locked hp.locked
  obtain ⟨hl', hmp⟩ := hgiven.locked hl
  exact ⟨⟨hl', hmp, hgiven.counts⟩, hshape.state, hshape.transition, hcallbacks.wrapper,
    hgiven.data, hgiven.globalData⟩

/-- The machine of `keyed` performs its transition. -/
theorem keyed_keeps : ∃ p, build roomyHeap (.fresh newMachine.mach (fun _ => 0) ()) keyed = some p ∧
    let q := (machineTransitionDo ringing 1 (machineLock p 4224) 20).1
    q.mach.currentState = 4312 ∧ q.mach.locked = true ∧
      ∀ a, (q.state a).name = ((machineLock p 4224).state a).name := by
  obtain ⟨p, hb, hlocked⟩ := keyed_locked
  obtain ⟨hdo, hat⟩ : (machineTransitionDo ringing 1 (machineLock p 4224) 20).2 = some true ∧
      (machineTransitionDo ringing 1 (machineLock p 4224) 20).1.mach.currentState = 4312 := by
    obtain rfl := Option.some.inj hb
    exact ⟨rfl, rfl⟩
  have hrun : Run ringing (machineLock p 4224)
      (machineTransitionDo ringing 1 (machineLock p 4224) 20).1 :=
    @Run.call _ _ _ _ _ 1 (.transitionDo 20) true .start (Prod.ext rfl hdo)
  obtain ⟨⟨hl, -⟩, hstates, -⟩ := locked_keeps hlocked .start hrun
  exact ⟨p, hb, hat, hl, fun a => (hstates a).1⟩

end Estate
