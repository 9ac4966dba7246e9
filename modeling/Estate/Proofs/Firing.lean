import Estate.Proofs.Defer

/-!
# A machine whose callbacks make no call

Its states and transitions keep their names, arrays and ends over any run, and between two calls
nothing is deferred (`Run.keeps`). A transition that is found goes through (`transitionDo_fires`),
and one that goes through was found (`found_of_transitionDo`).
-/

namespace Estate

variable {W : Type}

/-- The states and the transitions of two processes differ at most in their wrappers. -/
structure SameShape (p q : Process W) : Prop where
  state : ∀ a, (q.state a).name = (p.state a).name ∧ (q.state a).transit = (p.state a).transit
    ∧ (q.state a).transitCount = (p.state a).transitCount
  transition : ∀ a, (q.transition a).name = (p.transition a).name
    ∧ (q.transition a).fromState = (p.transition a).fromState
    ∧ (q.transition a).toState = (p.transition a).toState

theorem SameShape.of_eq {p q : Process W} (hs : q.state = p.state)
    (ht : q.transition = p.transition) : SameShape p q where
  state := by simp [hs]
  transition := by simp [ht]

theorem SameShape.trans {p q r : Process W} (h₁ : SameShape p q) (h₂ : SameShape q r) :
    SameShape p r where
  state := by
    intro a
    obtain ⟨h1, h2, h3⟩ := h₁.state a
    obtain ⟨h1', h2', h3'⟩ := h₂.state a
    exact ⟨h1'.trans h1, h2'.trans h2, h3'.trans h3⟩
  transition := by
    intro a
    obtain ⟨h1, h2, h3⟩ := h₁.transition a
    obtain ⟨h1', h2', h3'⟩ := h₂.transition a
    exact ⟨h1'.trans h1, h2'.trans h2, h3'.trans h3⟩

theorem setWrapper_shape (p : Process W) (r : WrapperRef) (w : CbWrapper) :
    SameShape p (p.setWrapper r w) := by
  have hstate : ∀ (st : Addr) (s : State), s.name = (p.state st).name →
      s.transit = (p.state st).transit → s.transitCount = (p.state st).transitCount →
      SameShape p (p.setState st s) := by
    intro st s h1 h2 h3
    refine ⟨fun a => ?_, fun a => ⟨rfl, rfl, rfl⟩⟩
    by_cases ha : a = st
    · subst ha
      simp [h1, h2, h3]
    · simp [ha]
  cases r with
  | enterer st => exact hstate st _ rfl rfl rfl
  | exiter st => exact hstate st _ rfl rfl rfl
  | cb tr =>
    refine ⟨fun a => ⟨rfl, rfl, rfl⟩, fun a => ?_⟩
    by_cases ha : a = tr
    · subst ha
      simp [Process.setWrapper]
    · simp [Process.setWrapper, ha]

/-- A wrapper that is written is the only one that changes. -/
theorem setWrapper_wrapper (p : Process W) (r : WrapperRef) (w : CbWrapper) (r' : WrapperRef) :
    (p.setWrapper r w).wrapper r' = if r' = r then w else p.wrapper r' := by
  cases r <;> cases r' <;> simp only [Process.setWrapper, Process.wrapper, Process.setState,
    Process.setTransition, Function.update_apply, WrapperRef.enterer.injEq,
    WrapperRef.exiter.injEq, WrapperRef.cb.injEq, reduceCtorEq, if_false] <;>
    split_ifs with h <;> first | rfl | rw [h]

theorem setWrapper_func {p : Process W} {r : WrapperRef} {w : CbWrapper}
    (hw : w.func = (p.wrapper r).func) (r' : WrapperRef) :
    ((p.setWrapper r w).wrapper r').func = (p.wrapper r').func := by
  rw [setWrapper_wrapper]
  split_ifs with h
  · rw [hw, h]
  · rfl

/-- Only the data of a wrapper is cached. -/
theorem miscCbCache_frame (m : Machine) (w : CbWrapper) : (miscCbCache m w).1.func = w.func ∧
    (miscCbCache m w).1.key = w.key ∧ (miscCbCache m w).1.result = w.result := by
  unfold miscCbCache
  split
  · exact ⟨rfl, rfl, rfl⟩
  · split_ifs
    · split <;> exact ⟨rfl, rfl, rfl⟩
    · exact ⟨rfl, rfl, rfl⟩

theorem miscCbCache_func (m : Machine) (w : CbWrapper) : (miscCbCache m w).1.func = w.func :=
  (miscCbCache_frame m w).1

theorem setWrapper_history (p : Process W) (r : WrapperRef) (w : CbWrapper) :
    (p.setWrapper r w).history = p.history := by
  cases r <;> rfl

theorem entering_history (p : Process W) (wrp : WrapperRef) (type : CbType) (tr : Addr) :
    (p.entering wrp type tr).history = p.history ++
      [.invoked (miscCbCache p.mach (p.wrapper wrp)).1.key
        (miscCbCache p.mach (p.wrapper wrp)).1.data
        (hashFind p.mach.data (miscCbCache p.mach (p.wrapper wrp)).1.key) p.mach.currentState] := by
  simp [Process.entering, setWrapper_history]

theorem leaving_history (p : Process W) (wrp : WrapperRef) (type : CbType) (tr : Addr)
    (result : ℤ) : (p.leaving wrp type tr result).history = p.history := by
  simp [Process.leaving, setWrapper_history]

/-- Before a callback only its own wrapper changes. -/
theorem entering_wrapper (p : Process W) (wrp : WrapperRef) (type : CbType) (tr : Addr)
    (r : WrapperRef) : (p.entering wrp type tr).wrapper r =
      if r = wrp then (miscCbCache p.mach (p.wrapper wrp)).1 else p.wrapper r := by
  rw [← setWrapper_wrapper]
  cases r <;> rfl

/-- What a callback returns goes to its wrapper. -/
theorem leaving_wrapper (p : Process W) (wrp : WrapperRef) (type : CbType) (tr : Addr)
    (result : ℤ) (r : WrapperRef) : (p.leaving wrp type tr result).wrapper r =
      if r = wrp then { p.wrapper wrp with result := result } else p.wrapper r := by
  rw [← setWrapper_wrapper]
  cases r <;> rfl

theorem entering_shape (p : Process W) (wrp : WrapperRef) (type : CbType) (tr : Addr) :
    SameShape p (p.entering wrp type tr) :=
  (setWrapper_shape p wrp _).trans (.of_eq rfl rfl)

theorem leaving_shape (p : Process W) (wrp : WrapperRef) (type : CbType) (tr : Addr)
    (result : ℤ) : SameShape p (p.leaving wrp type tr result) :=
  (setWrapper_shape p wrp _).trans (.of_eq rfl rfl)

section Quiet

variable {env : Env W} (hq : Quiet env) (run : Process W → CStr → Process W × Option Bool)

include hq in
theorem miscCbCall_quiet {p : Process W} (hc : p.mach.inCb = cbUnlocked) (wrp : WrapperRef)
    (type : CbType) (tr : Addr) :
    ∃ q, miscCbCall env run p wrp type tr = (q, some ()) ∧ q.mach = p.mach ∧ SameShape p q := by
  by_cases hf : (p.wrapper wrp).func = 0
  · refine ⟨p, ?_, rfl, .of_eq rfl rfl⟩
    unfold miscCbCall
    rw [if_pos hf]
  obtain ⟨w, result, hw⟩ := hq (miscCbCache p.mach (p.wrapper wrp)).1.func
    (miscCbCache p.mach (p.wrapper wrp)).1.data type tr (p.entering wrp type tr)
  rw [miscCbCall_eq env run type tr hf, hw]
  refine ⟨((p.entering wrp type tr).setWorld w).leaving wrp type tr result, rfl, ?_, ?_⟩
  · rw [leaving_mach, Process.setWorld, entering_mach, ← hc]
  · have hworld : SameShape (p.entering wrp type tr) ((p.entering wrp type tr).setWorld w) :=
      .of_eq rfl rfl
    exact ((entering_shape p wrp type tr).trans hworld).trans (leaving_shape _ wrp type tr result)

include hq in
theorem fire_quiet {p : Process W} (hc : p.mach.inCb = cbUnlocked) (tr : Addr) :
    ∃ q, fire env run p tr = (q, some ()) ∧ SameShape p q ∧ q.mach =
      { p.mach with currentTransition := tr, currentState := (p.transition tr).toState } := by
  obtain ⟨p₀, hp₀⟩ : ∃ p₀, p₀ = p.setMach { p.mach with currentTransition := tr } := ⟨_, rfl⟩
  have hs₀ : SameShape p p₀ := .of_eq (by simp [hp₀]) (by simp [hp₀])
  obtain ⟨p₁, hrun₁, hm₁, hs₁⟩ := miscCbCall_quiet hq run (p := p₀) (by simpa [hp₀] using hc)
    (.exiter (p₀.transition tr).fromState) .exiter tr
  obtain ⟨p₂, hrun₂, hm₂, hs₂⟩ := miscCbCall_quiet hq run (p := p₁)
    (by rw [hm₁, hp₀]; exact hc) (.cb tr) .transition tr
  obtain ⟨p₃, hp₃⟩ : ∃ p₃, p₃ = (p₂.setMach
      { p₂.mach with currentState := (p₂.transition tr).toState }).record (.moved tr) := ⟨_, rfl⟩
  have hs₃ : SameShape p₂ p₃ := .of_eq (by simp [hp₃]) (by simp [hp₃])
  obtain ⟨p₄, hrun₃, hm₃, hs₄⟩ := miscCbCall_quiet hq run (p := p₃)
    (by rw [hp₃, Process.setMach, hm₂, hm₁, hp₀]; exact hc)
    (.enterer (p₃.transition tr).toState) .enterer tr
  have hto : (p₂.transition tr).toState = (p.transition tr).toState :=
    (((hs₀.trans hs₁).trans hs₂).transition tr).2.2
  refine ⟨p₄, ?_, (((hs₀.trans hs₁).trans hs₂).trans hs₃).trans hs₄, ?_⟩
  · unfold fire
    simp only [← hp₀, stateCbCall, hrun₁, hrun₂, ← hp₃, hrun₃]
  · rw [hm₃, hp₃, Process.setMach, hm₂, hm₁, hp₀, hto]
    rfl

/-! ## What a call keeps -/

/-- Calls that end leave an idle process of the same shape. -/
def Keeps (run : Process W → CStr → Process W × Option Bool) : Prop :=
  ∀ (p q : Process W) (t : CStr) (b : Bool), Idle p → run p t = (q, some b) →
    Idle q ∧ SameShape p q

variable {run}

theorem apiCall_keeps (hr : Keeps run) {p q : Process W} {c : Call} {b : Bool} (hi : Idle p)
    (h : apiCall env run p c = (q, some b)) : Idle q ∧ SameShape p q := by
  by_cases hdo : ∃ t, c = .transitionDo t
  · obtain ⟨t, rfl⟩ := hdo
    exact hr _ _ _ _ hi h
  · obtain ⟨-, hd, hc, hl, hs, ht⟩ := (apiCall_step env (fun t hc => hdo ⟨t, hc⟩) h).frame
    exact ⟨⟨hl hi.locked, hc.trans hi.inCb, hd.trans hi.cbDefer⟩, .of_eq hs ht⟩

theorem runProg_keeps (hr : Keeps run) (prog : CbProg W) :
    ∀ {p q : Process W} {result : ℤ}, Idle p → runProg env run prog p = (q, some result) →
      Idle q ∧ SameShape p q := by
  induction prog with
  | ret w r =>
    intro p q result hi h
    obtain ⟨rfl, -⟩ := Prod.mk.inj h
    exact ⟨⟨hi.locked, hi.inCb, hi.cbDefer⟩, .of_eq rfl rfl⟩
  | call w c k ih =>
    intro p q result hi h
    simp only [runProg] at h
    rcases hc : apiCall env run (p.setWorld w) c with ⟨p', _ | b⟩ <;> rw [hc] at h
    · simp at h
    · obtain ⟨hi', hs'⟩ := apiCall_keeps hr (p := p.setWorld w)
        ⟨hi.locked, hi.inCb, hi.cbDefer⟩ hc
      obtain ⟨hiq, hsq⟩ := ih p' b hi' h
      exact ⟨hiq, (SameShape.of_eq (p := p) (q := p.setWorld w) rfl rfl).trans (hs'.trans hsq)⟩

theorem transitionFail_keeps (hr : Keeps run) {p q : Process W} {t : CStr} {shr : Stringshare}
    {msg : List Char} {b : Bool} (hi : Idle p)
    (h : transitionFail env run p t shr msg = (q, some b)) :
    b = false ∧ Idle q ∧ SameShape p q := by
  unfold transitionFail at h
  by_cases he : p.mach.errorCb = 0
  · rw [if_pos he] at h
    obtain ⟨rfl, hb⟩ := Prod.mk.inj h
    exact ⟨(Option.some.inj hb).symm, ⟨hi.locked, hi.inCb, hi.cbDefer⟩, .of_eq rfl rfl⟩
  · rw [if_neg he] at h
    simp only [] at h
    split at h
    · simp at h
    · rename_i p' result heq
      obtain ⟨hi', hs'⟩ := runProg_keeps hr _ (p := p.log (.errorCb t msg))
        ⟨hi.locked, hi.inCb, hi.cbDefer⟩ heq
      obtain ⟨rfl, hb⟩ := Prod.mk.inj h
      refine ⟨(Option.some.inj hb).symm, ⟨hi'.locked, hi'.inCb, hi'.cbDefer⟩, ?_⟩
      exact (SameShape.of_eq (p := p) (q := p.log (.errorCb t msg)) rfl rfl).trans
        (hs'.trans (.of_eq rfl rfl))

section Run

variable {p : Process W} {t : CStr}

/-- What is found is what the state of the process before the call holds. -/
theorem findTransition_log_share (e : Event) (shr key : Stringshare) :
    findTransition env ((p.log e).share shr) key = findTransition env p key := rfl

variable (run) in
include hq in
/-- A transition that is found, and that leaves the current state, goes through. -/
theorem transitionRun_found (hi : Idle p) {tr : Addr}
    (hf : findTransition env p (env.deref p.world t) = some tr)
    (hfrom : (p.transition tr).fromState = p.mach.currentState) :
    ∃ q, transitionRun env run p t = (q, some true) ∧ Idle q ∧ SameShape p q
      ∧ q.mach.currentState = (p.transition tr).toState := by
  obtain ⟨p₁, hp₁⟩ : ∃ p₁, p₁ = (p.log (.attempt t (env.deref p.world t))).share
      (env.deref p.world t) := ⟨_, rfl⟩
  have hs₁ : SameShape p p₁ := .of_eq (by simp [hp₁]) (by simp [hp₁])
  have hm₁ : p₁.mach = p.mach := by simp [hp₁]
  obtain ⟨p₂, hfire, hs₂, hm₂⟩ := fire_quiet hq run (p := p₁) (by rw [hm₁]; exact hi.inCb) tr
  have hdefer : p₂.mach.cbDefer = [] := by rw [hm₂, hm₁]; exact hi.cbDefer
  refine ⟨(p₂.unshare (env.deref p.world t)).setMach { p₂.mach with cbDefer := [] }, ?_, ?_,
    (hs₁.trans hs₂).trans (.of_eq rfl rfl), ?_⟩
  · unfold transitionRun
    simp only [← hp₁]
    rw [show findTransition env p₁ (env.deref p.world t) = some tr by rw [hp₁]; exact hf]
    simp only []
    rw [if_neg (by rw [hm₁, (hs₁.transition tr).2.1]; exact not_not.2 hfrom), hfire]
    simp only [Process.unshare, hdefer, drain]
  · refine ⟨?_, ?_, rfl⟩
    · simp only [Process.setMach, hm₂, hm₁]
      exact hi.locked
    · simp only [Process.setMach, hm₂, hm₁]
      exact hi.inCb
  · simp only [Process.setMach, hm₂]
    exact (hs₁.transition tr).2.2

/-- One call past its guards: it fails and says so, or it fires a transition it has found. -/
theorem transitionRun_cases (hr : Keeps run) (hi : Idle p) {q : Process W} {b : Bool}
    (h : transitionRun env run p t = (q, some b)) :
    (b = false ∧ Idle q ∧ SameShape p q) ∨
      ∃ tr, findTransition env p (env.deref p.world t) = some tr ∧
        (p.transition tr).fromState = p.mach.currentState := by
  have hfail : ∀ {e e' : Event} {msg : List Char},
      transitionFail env run (((p.log e).share (env.deref p.world t)).log e') t
        (env.deref p.world t) msg = (q, some b) → b = false ∧ Idle q ∧ SameShape p q := by
    intro e e' msg h
    have hi₁ : Idle (((p.log e).share (env.deref p.world t)).log e') :=
      ⟨hi.locked, hi.inCb, hi.cbDefer⟩
    obtain ⟨hb, hi', hs'⟩ := transitionFail_keeps hr hi₁ h
    refine ⟨hb, hi', .trans (.of_eq ?_ ?_) hs'⟩ <;> rfl
  unfold transitionRun at h
  simp only [findTransition_log_share] at h
  rcases hf : findTransition env p (env.deref p.world t) with _ | tr <;> rw [hf] at h
  · exact .inl (hfail h)
  · by_cases hfrom : (p.transition tr).fromState = p.mach.currentState
    · exact .inr ⟨tr, rfl, hfrom⟩
    · simp only [] at h
      rw [if_pos (by exact hfrom)] at h
      exact .inl (hfail h)

include hq in
theorem transitionRun_keeps (hr : Keeps run) : Keeps (transitionRun env run) := by
  intro p q t b hi h
  rcases transitionRun_cases hr hi h with ⟨-, hiq, hsq⟩ | ⟨tr, hf, hfrom⟩
  · exact ⟨hiq, hsq⟩
  · obtain ⟨q', hrun, hi', hs', -⟩ := transitionRun_found hq run hi hf hfrom
    rw [hrun] at h
    obtain ⟨rfl, -⟩ := Prod.mk.inj h
    exact ⟨hi', hs'⟩

theorem transitionEnter_keeps (hr : Keeps run) : Keeps (transitionEnter env run) := by
  intro p q t b hi h
  unfold transitionEnter at h
  split_ifs at h with h1 h2 h3
  · obtain ⟨rfl, -⟩ := Prod.mk.inj h
    exact ⟨hi, .of_eq rfl rfl⟩
  · simp [hi.locked] at h2
  · exact absurd hi.inCb h3
  · exact hr _ _ _ _ hi h

include hq in
theorem transitionDo_keeps : ∀ fuel, Keeps (machineTransitionDo env fuel)
  | 0 => transitionEnter_keeps (by intro p q t b _ h; simp at h)
  | fuel + 1 => transitionEnter_keeps (transitionRun_keeps hq (transitionDo_keeps fuel))

/-- Outside a callback, a locked machine takes the call. -/
theorem transitionEnter_run (hl : p.mach.locked = true) (hc : p.mach.inCb = cbUnlocked)
    (ht : t ≠ 0) : transitionEnter env run p t = run p t := by
  unfold transitionEnter
  rw [if_neg ht, if_neg (by simp [hl]), if_neg (not_not.2 hc)]

theorem transitionEnter_idle (hi : Idle p) (ht : t ≠ 0) :
    transitionEnter env run p t = run p t :=
  transitionEnter_run hi.locked hi.inCb ht

include hq in
theorem transitionDo_fires (hi : Idle p) (ht : t ≠ 0) {tr : Addr}
    (hf : findTransition env p (env.deref p.world t) = some tr)
    (hfrom : (p.transition tr).fromState = p.mach.currentState) (fuel : ℕ) :
    ∃ q, machineTransitionDo env (fuel + 1) p t = (q, some true) ∧ SameShape p q
      ∧ q.mach.currentState = (p.transition tr).toState := by
  obtain ⟨q, hrun, -, hs, hcur⟩ := transitionRun_found hq (machineTransitionDo env fuel) hi hf hfrom
  exact ⟨q, (transitionEnter_idle hi ht).trans hrun, hs, hcur⟩

include hq in
theorem found_of_transitionDo (hi : Idle p) (ht : t ≠ 0) {fuel : ℕ} {q : Process W}
    (h : machineTransitionDo env fuel p t = (q, some true)) :
    ∃ tr, findTransition env p (env.deref p.world t) = some tr := by
  cases fuel with
  | zero =>
    rw [show machineTransitionDo env 0 p t = (p, none) from transitionEnter_idle hi ht] at h
    simp at h
  | succ fuel =>
    rcases transitionRun_cases (transitionDo_keeps hq fuel) hi
      ((transitionEnter_idle hi ht).symm.trans h) with ⟨hb, -⟩ | ⟨tr, hf, -⟩
    · exact absurd hb (by decide)
    · exact ⟨tr, hf⟩

end Run

/-! ## A whole run -/

include hq in
theorem Run.keeps {p q : Process W} (hi : Idle p) (h : Run env p q) : Idle q ∧ SameShape p q := by
  induction h with
  | start => exact ⟨hi, .of_eq rfl rfl⟩
  | call _ hc ih =>
    obtain ⟨hi', hs'⟩ := apiCall_keeps (transitionDo_keeps hq _) ih.1 hc
    exact ⟨hi', ih.2.trans hs'⟩
  | world _ w ih =>
    exact ⟨⟨ih.1.locked, ih.1.inCb, ih.1.cbDefer⟩, ih.2.trans (.of_eq rfl rfl)⟩

end Quiet

end Estate
