import Estate.Proofs.Firing
import Estate.Proofs.Lookup

/-!
# One step of the machine

A machine is meant as an FSM: in its current state, a name either names a transition that leaves it,
which is then performed, or nothing happens but an error. With callbacks that make no call on the
machine, this is what `estate_machine_transition_do` does exactly when the name has no alias among
the other names that leave the state (`transitionDo_steps_iff`).
-/

namespace Estate

open Lib

variable {W : Type}

/-- A callback of the caller that is called. -/
inductive Invocation
  | callback (type : CbType) (func current : Addr)
  | error (arg : CStr)
  deriving DecidableEq, Repr

def Event.invocation : Event → Option Invocation
  | .cbEnter type _ func _ current => some (.callback type func current)
  | .errorCb arg _ => some (.error arg)
  | _ => none

/-- The callbacks called by a run, in order. -/
def invocations (p q : Process W) : List Invocation := (since p q).filterMap Event.invocation

/-- The call of a callback, if there is one. -/
def present (type : CbType) (func current : Addr) : List Invocation :=
  if func = 0 then [] else [.callback type func current]

/-- The callbacks of a transition: the first two in the state it leaves, the last in the state it
enters. -/
def callbacksOf (p : Process W) (tr : Addr) : List Invocation :=
  let src := (p.transition tr).fromState
  let dst := (p.transition tr).toState
  present .exiter (p.state src).exiter.func src ++
    (present .transition (p.transition tr).cb.func src ++
      present .enterer (p.state dst).enterer.func dst)

/-- The array of the current state. -/
def exits (p : Process W) : List Addr :=
  let st := p.state p.mach.currentState
  st.transit.take st.transitCount.toNat

/-- A transition is performed. -/
structure Performs (p : Process W) (tr : Addr) (q : Process W) : Prop where
  invoked : invocations p q = callbacksOf p tr
  mach : q.mach =
    { p.mach with currentTransition := tr, currentState := (p.transition tr).toState }

/-- No transition is performed, and the error callback hears of it. -/
structure Rejects (p : Process W) (arg : CStr) (q : Process W) : Prop where
  invoked : invocations p q = if p.mach.errorCb = 0 then [] else [.error arg]
  mach : q.mach = p.mach
  state : q.state = p.state
  transition : q.transition = p.transition

/-- A step of the FSM: a name of a transition that leaves the current state has it performed, and
any other name is rejected. -/
def StepsAs (env : Env W) (p : Process W) (arg : CStr) : Prop :=
  ∀ fuel,
    (∀ tr ∈ exits p, (p.transition tr).name = some (env.deref p.world arg) →
      ∃ q, machineTransitionDo env (fuel + 1) p arg = (q, some true) ∧ Performs p tr q) ∧
    ((∀ tr ∈ exits p, (p.transition tr).name ≠ some (env.deref p.world arg)) →
      ∃ q, machineTransitionDo env (fuel + 1) p arg = (q, some false) ∧ Rejects p arg q)

/-- The array of the current state holds transitions that leave it, in the order of their names, all
of these in one window. -/
structure ExitsSorted (env : Env W) (p : Process W) : Prop where
  fromState : ∀ tr ∈ exits p, (p.transition tr).fromState = p.mach.currentState
  increasing : (exits p).Pairwise fun t u => (nameAddr env p t).toNat < (nameAddr env p u).toNat
  window : Window ((exits p).map (nameAddr env p))

/-! ## The callbacks of a transition -/

/-- What callbacks that make no call leave: wrappers with the same functions, and their calls on the
trace. -/
structure Invokes (p q : Process W) (invs : List Invocation) : Prop where
  shape : SameShape p q
  func : ∀ r, (q.wrapper r).func = (p.wrapper r).func
  trace : ∃ evs, q.trace = p.trace ++ evs ∧ evs.filterMap Event.invocation = invs

theorem Invokes.of_eq {p q : Process W} (evs : List Event) (hs : q.state = p.state)
    (ht : q.transition = p.transition) (htr : q.trace = p.trace ++ evs) :
    Invokes p q (evs.filterMap Event.invocation) where
  shape := .of_eq hs ht
  func := by
    intro r
    cases r <;> simp [Process.wrapper, hs, ht]
  trace := ⟨evs, htr, rfl⟩

theorem Invokes.trans {p q r : Process W} {invs invs' : List Invocation} (h : Invokes p q invs)
    (h' : Invokes q r invs') : Invokes p r (invs ++ invs') where
  shape := h.shape.trans h'.shape
  func := fun w => (h'.func w).trans (h.func w)
  trace := by
    obtain ⟨evs, ht, rfl⟩ := h.trace
    obtain ⟨evs', ht', rfl⟩ := h'.trace
    exact ⟨evs ++ evs', by rw [ht', ht, List.append_assoc], List.filterMap_append⟩

theorem Invokes.invocations {p q : Process W} {invs : List Invocation} (h : Invokes p q invs) :
    invocations p q = invs := by
  obtain ⟨evs, ht, rfl⟩ := h.trace
  rw [Estate.invocations, since, ht, List.drop_left]

theorem entering_invokes (p : Process W) (wrp : WrapperRef) (type : CbType) (tr : Addr) :
    Invokes p (p.entering wrp type tr)
      [.callback type (p.wrapper wrp).func p.mach.currentState] where
  shape := entering_shape p wrp type tr
  func := setWrapper_func (miscCbCache_func _ _)
  trace := by
    refine ⟨_, entering_trace p wrp type tr, ?_⟩
    simp only [List.filterMap_cons, List.filterMap_nil, Event.invocation, miscCbCache_func]

theorem leaving_invokes (p : Process W) (wrp : WrapperRef) (type : CbType) (tr : Addr)
    (result : ℤ) : Invokes p (p.leaving wrp type tr result) [] where
  shape := leaving_shape p wrp type tr result
  func := by
    refine setWrapper_func ?_
    rfl
  trace := ⟨_, leaving_trace p wrp type tr result, rfl⟩

section Quiet

variable {env : Env W} (hq : Quiet env) (run : Process W → CStr → Process W × Option Bool)

include hq in
theorem miscCbCall_invokes {p : Process W} (hc : p.mach.inCb = cbUnlocked) (wrp : WrapperRef)
    (type : CbType) (tr : Addr) :
    ∃ q, miscCbCall env run p wrp type tr = (q, some ()) ∧ q.mach = p.mach ∧
      Invokes p q (present type (p.wrapper wrp).func p.mach.currentState) := by
  obtain ⟨q, hrun, hm, -⟩ := miscCbCall_quiet hq run hc wrp type tr
  refine ⟨q, hrun, hm, ?_⟩
  by_cases hf : (p.wrapper wrp).func = 0
  · unfold miscCbCall at hrun
    rw [if_pos hf] at hrun
    obtain ⟨rfl, -⟩ := Prod.mk.inj hrun
    rw [present, if_pos hf]
    exact .of_eq [] rfl rfl (List.append_nil _).symm
  · obtain ⟨w, result, hw⟩ := hq (miscCbCache p.mach (p.wrapper wrp)).1.func
      (miscCbCache p.mach (p.wrapper wrp)).1.data type tr (p.entering wrp type tr)
    rw [miscCbCall_eq env run type tr hf, hw] at hrun
    obtain ⟨rfl, -⟩ := Prod.mk.inj hrun
    rw [present, if_neg hf]
    have hworld : Invokes (p.entering wrp type tr) ((p.entering wrp type tr).setWorld w) [] :=
      .of_eq [] rfl rfl (List.append_nil _).symm
    exact ((entering_invokes p wrp type tr).trans hworld).trans (leaving_invokes _ _ _ _ _)

include hq in
theorem fire_invokes {p : Process W} (hc : p.mach.inCb = cbUnlocked) {tr : Addr}
    (hfrom : (p.transition tr).fromState = p.mach.currentState) :
    ∃ q, fire env run p tr = (q, some ()) ∧ Invokes p q (callbacksOf p tr) ∧ q.mach =
      { p.mach with currentTransition := tr, currentState := (p.transition tr).toState } := by
  obtain ⟨p₀, hp₀⟩ : ∃ p₀, p₀ = p.setMach { p.mach with currentTransition := tr } := ⟨_, rfl⟩
  have h₀ : Invokes p p₀ [] := by
    rw [hp₀]
    exact .of_eq [] rfl rfl (List.append_nil _).symm
  have hm₀ : p₀.mach = { p.mach with currentTransition := tr } := by rw [hp₀]; rfl
  obtain ⟨p₁, hrun₁, hm₁, h₁⟩ := miscCbCall_invokes hq run (p := p₀) (by rw [hm₀]; exact hc)
    (.exiter (p₀.transition tr).fromState) .exiter tr
  obtain ⟨p₂, hrun₂, hm₂, h₂⟩ := miscCbCall_invokes hq run (p := p₁)
    (by rw [hm₁, hm₀]; exact hc) (.cb tr) .transition tr
  obtain ⟨p₃, hp₃⟩ : ∃ p₃, p₃ = (p₂.setMach
      { p₂.mach with currentState := (p₂.transition tr).toState }).record (.moved tr) := ⟨_, rfl⟩
  have h₃ : Invokes p₂ p₃ [] := by
    rw [hp₃]
    exact .of_eq [] rfl rfl (List.append_nil _).symm
  have hm₃ : p₃.mach = { p₂.mach with currentState := (p₂.transition tr).toState } := by
    rw [hp₃]
    rfl
  obtain ⟨p₄, hrun₄, hm₄, h₄⟩ := miscCbCall_invokes hq run (p := p₃)
    (by rw [hm₃, hm₂, hm₁, hm₀]; exact hc) (.enterer (p₃.transition tr).toState) .enterer tr
  have hall := (((h₀.trans h₁).trans h₂).trans h₃).trans h₄
  have hto₂ : (p₂.transition tr).toState = (p.transition tr).toState :=
    (((h₀.trans h₁).trans h₂).shape.transition tr).2.2
  have hto₃ : (p₃.transition tr).toState = (p.transition tr).toState :=
    ((((h₀.trans h₁).trans h₂).trans h₃).shape.transition tr).2.2
  refine ⟨p₄, ?_, ?_, ?_⟩
  · unfold fire
    simp only [← hp₀, stateCbCall, hrun₁, hrun₂, ← hp₃, hrun₄]
  · -- Each wrapper has the function it had at the start.
    have hexit : (p₀.wrapper (.exiter (p₀.transition tr).fromState)).func
        = (p.state (p.transition tr).fromState).exiter.func := by
      rw [(h₀.shape.transition tr).2.1, h₀.func]
      rfl
    have hcb : (p₁.wrapper (.cb tr)).func = (p.transition tr).cb.func := by
      rw [(h₀.trans h₁).func]
      rfl
    have henter : (p₃.wrapper (.enterer (p₃.transition tr).toState)).func
        = (p.state (p.transition tr).toState).enterer.func := by
      rw [hto₃, (((h₀.trans h₁).trans h₂).trans h₃).func]
      rfl
    have hcur : p₃.mach.currentState = (p.transition tr).toState := by rw [hm₃]; exact hto₂
    rw [hexit, hcb, henter, hcur, hm₁, hm₀] at hall
    simpa [callbacksOf, hfrom] using hall
  · rw [hm₄, hm₃, hm₂, hm₁, hm₀, hto₂]

include hq in
/-- A transition that is found, and leaves the current state, is performed. -/
theorem transitionRun_performs {p : Process W} {arg : CStr} (hi : Idle p) {tr : Addr}
    (hf : findTransition env p (env.deref p.world arg) = some tr)
    (hfrom : (p.transition tr).fromState = p.mach.currentState) :
    ∃ q, transitionRun env run p arg = (q, some true) ∧ Performs p tr q := by
  obtain ⟨shr, hshr⟩ : ∃ shr, shr = env.deref p.world arg := ⟨_, rfl⟩
  obtain ⟨p₁, hp₁⟩ : ∃ p₁, p₁ = (p.log (.attempt arg shr)).share shr := ⟨_, rfl⟩
  have h₁ : Invokes p p₁ [] := by
    rw [hp₁]
    exact .of_eq [.attempt arg shr] rfl rfl rfl
  have hm₁ : p₁.mach = p.mach := by rw [hp₁]; rfl
  have hsame : callbacksOf p₁ tr = callbacksOf p tr := by rw [hp₁]; rfl
  obtain ⟨p₂, hfire, h₂, hm₂⟩ := fire_invokes hq run (p := p₁)
    (by rw [hm₁]; exact hi.inCb) (by rw [(h₁.shape.transition tr).2.1, hm₁]; exact hfrom)
  have hm₂' : p₂.mach =
      { p.mach with currentTransition := tr, currentState := (p.transition tr).toState } := by
    rw [hm₂, hm₁, (h₁.shape.transition tr).2.2]
  have hdefer : p₂.mach.cbDefer = [] := by rw [hm₂']; exact hi.cbDefer
  refine ⟨(p₂.unshare shr).setMach { p₂.mach with cbDefer := [] }, ?_, ?_, ?_⟩
  · unfold transitionRun
    simp only [← hshr, ← hp₁]
    rw [show findTransition env p₁ shr = some tr by rw [hp₁, hshr]; exact hf]
    simp only []
    rw [if_neg (by rw [hm₁, (h₁.shape.transition tr).2.1]; exact not_not.2 hfrom), hfire]
    simp only [Process.unshare, hdefer, drain]
  · have hlast : Invokes p₂ ((p₂.unshare shr).setMach { p₂.mach with cbDefer := [] }) [] :=
      .of_eq [] rfl rfl (List.append_nil _).symm
    have hall := ((h₁.trans h₂).trans hlast).invocations
    simpa [hsame] using hall
  · simp only [Process.setMach, ← hdefer]
    exact hm₂'

end Quiet

section Reject

variable {env : Env W} (hs : ErrorSilent env) (run : Process W → CStr → Process W × Option Bool)

include hs in
theorem transitionFail_rejects (p : Process W) (arg : CStr) (shr : Stringshare) (msg : List Char) :
    ∃ q, transitionFail env run p arg shr msg = (q, some false) ∧ q.mach = p.mach ∧
      q.state = p.state ∧ q.transition = p.transition ∧
      q.trace = p.trace ++ if p.mach.errorCb = 0 then [] else [.errorCb arg msg] := by
  unfold transitionFail
  by_cases he : p.mach.errorCb = 0
  · rw [if_pos he, if_pos he]
    exact ⟨p.unshare shr, rfl, rfl, rfl, rfl, (List.append_nil _).symm⟩
  · obtain ⟨w, result, hw⟩ := hs p.mach.errorCb arg msg (p.log (.errorCb arg msg))
    rw [if_neg he, if_neg he]
    refine ⟨((p.log (.errorCb arg msg)).setWorld w).unshare shr, ?_, rfl, rfl, rfl, rfl⟩
    simp only [Process.log] at hw ⊢
    rw [hw]
    rfl

include hs in
/-- Where nothing is found, the name is rejected. -/
theorem transitionRun_rejects {p : Process W} {arg : CStr}
    (hf : findTransition env p (env.deref p.world arg) = none) :
    ∃ q, transitionRun env run p arg = (q, some false) ∧ Rejects p arg q := by
  obtain ⟨shr, hshr⟩ : ∃ shr, shr = env.deref p.world arg := ⟨_, rfl⟩
  obtain ⟨p₁, hp₁⟩ : ∃ p₁, p₁ = (p.log (.attempt arg shr)).share shr := ⟨_, rfl⟩
  have hfail : ∀ msg, ∃ q,
      transitionFail env run (p₁.log (.log msg)) arg shr msg = (q, some false) ∧
        Rejects p arg q := by
    intro msg
    obtain ⟨q, hq, hm, hst, htr, htrace⟩ :=
      transitionFail_rejects hs run (p₁.log (.log msg)) arg shr msg
    have hm₁ : (p₁.log (.log msg)).mach = p.mach := by rw [hp₁]; rfl
    have ht₁ : (p₁.log (.log msg)).trace = p.trace ++ [.attempt arg shr, .log msg] := by
      rw [hp₁]
      simp
    rw [hm₁, ht₁, List.append_assoc] at htrace
    refine ⟨q, hq, ?_, hm.trans hm₁, by rw [hst, hp₁]; rfl, by rw [htr, hp₁]; rfl⟩
    rw [invocations, since, htrace, List.drop_left]
    split_ifs <;> rfl
  unfold transitionRun
  simp only [← hshr, ← hp₁]
  rw [show findTransition env p₁ shr = none by rw [hp₁, hshr]; exact hf]
  exact hfail _

end Reject

section Step

variable {env : Env W} {p : Process W} {arg : CStr}

theorem ExitsSorted.ascending (h : ExitsSorted env p) : Ascending env p (exits p) := by
  refine h.increasing.imp_of_mem ?_
  intro t u ht hu hlt
  exact ⟨(orders_of_window h.window ht hu).1.2 hlt, (orders_of_window h.window hu ht).2.2 hlt⟩

/-- What is looked up in the current state is a transition whose name is an alias. -/
theorem ExitsSorted.find_iff (h : ExitsSorted env p) (shr : Stringshare) (tr : Addr) :
    findTransition env p shr = some tr ↔
      tr ∈ exits p ∧ Alias (nameAddr env p tr) (env.addr shr) :=
  search_some_iff h.ascending shr tr

theorem alias_of_name {tr : Addr} {n : Stringshare} (h : (p.transition tr).name = some n) :
    Alias (nameAddr env p tr) (env.addr n) := by
  rw [nameAddr, h]
  rfl

/-- With callbacks that make no call, a machine between two calls steps as the FSM under a name
exactly when no other name that leaves the current state lies a multiple of `2 ^ 32` bytes from it. -/
theorem transitionDo_steps_iff (hq : Quiet env) (hs : ErrorSilent env) (hi : Idle p)
    (hx : ExitsSorted env p) (ht : arg ≠ 0) :
    StepsAs env p arg ↔ ∀ tr ∈ exits p, (p.transition tr).name ≠ some (env.deref p.world arg) →
      ¬ Alias (nameAddr env p tr) (env.addr (env.deref p.world arg)) := by
  obtain ⟨n, hn⟩ : ∃ n, n = env.deref p.world arg := ⟨_, rfl⟩
  have hdo : ∀ fuel, machineTransitionDo env (fuel + 1) p arg =
      transitionRun env (machineTransitionDo env fuel) p arg := fun fuel =>
    transitionEnter_idle hi ht
  simp only [StepsAs, hdo, ← hn]
  constructor
  · intro hsteps tr hmem hname halias
    have hf : findTransition env p n = some tr := (hx.find_iff n tr).2 ⟨hmem, halias⟩
    -- No transition that leaves the state is named so, or the search would have found that one.
    have hnone : ∀ u ∈ exits p, (p.transition u).name ≠ some n := by
      intro u hu hun
      have hfu : findTransition env p n = some u := (hx.find_iff n u).2 ⟨hu, alias_of_name hun⟩
      exact hname (Option.some.inj (hfu.symm.trans hf) ▸ hun)
    obtain ⟨q, hrun, -⟩ := (hsteps 0).2 hnone
    obtain ⟨q', hrun', -⟩ := transitionRun_performs hq (machineTransitionDo env 0) hi (hn ▸ hf)
      (hx.fromState tr hmem)
    exact absurd (Prod.mk.inj (hrun.symm.trans hrun')).2 (by simp)
  · intro hno fuel
    refine ⟨fun tr hmem hname => ?_, fun hnone => ?_⟩
    · have hf : findTransition env p n = some tr :=
        (hx.find_iff n tr).2 ⟨hmem, alias_of_name hname⟩
      exact transitionRun_performs hq _ hi (hn ▸ hf) (hx.fromState tr hmem)
    · have hf : findTransition env p n = none := by
        by_contra hne
        obtain ⟨tr, htr⟩ := Option.ne_none_iff_exists'.1 hne
        obtain ⟨hmem, halias⟩ := (hx.find_iff n tr).1 htr
        exact hno tr hmem (hnone tr hmem) halias
      exact transitionRun_rejects hs _ (hn ▸ hf)

end Step

/-! ## Two names `2 ^ 32` bytes apart -/

theorem distant_quiet : Quiet distant := fun _ _ _ _ _ => ⟨(), cbOk, rfl⟩

theorem distant_silent : ErrorSilent distant := fun _ _ _ _ => ⟨(), 0, rfl⟩

theorem distantProcess_idle : Idle distantProcess := ⟨rfl, rfl, rfl⟩

theorem distantProcess_exits : ExitsSorted distant distantProcess where
  fromState := by decide
  increasing := by decide
  window := ⟨4096, by simp [exits, distant, distantProcess, forwardingProcess, nameAddr]⟩

/-- The name `z` leaves no state, and is taken for `a` in the initial one. -/
theorem alias_performed : Quiet distant ∧ ErrorSilent distant ∧ Idle distantProcess ∧
    ExitsSorted distant distantProcess ∧ distant.deref () 21 = ['z'] ∧
    (∀ tr ∈ exits distantProcess, (distantProcess.transition tr).name ≠ some ['z']) ∧
    (machineTransitionDo distant 1 distantProcess 21).2 = some true ∧
    ¬ StepsAs distant distantProcess 21 := by
  have hnone : ∀ tr ∈ exits distantProcess,
      (distantProcess.transition tr).name ≠ some ['z'] := by decide
  have hdone : (machineTransitionDo distant 1 distantProcess 21).2 = some true := by decide
  refine ⟨distant_quiet, distant_silent, distantProcess_idle, distantProcess_exits, rfl, hnone,
    hdone, fun hsteps => ?_⟩
  obtain ⟨q, hq, -⟩ := (hsteps 0).2 hnone
  rw [hq] at hdone
  simp at hdone

/-- The name `a` has no alias among those that leave the initial state. -/
theorem own_name_steps : StepsAs distant distantProcess 20 :=
  (transitionDo_steps_iff distant_quiet distant_silent distantProcess_idle distantProcess_exits
    (by simp)).2 (by decide)

end Estate
