import Estate.Proofs.Caching
import Estate.Proofs.Travel

/-!
# What the callbacks of the last transition returned

`estate_machine_cb_check` reads results back through `current_state` and `current_transition`. A
result is written where a callback returns, so only by the callbacks of a transition, and these run
one after the other with nothing between them: after a transition the three wrappers hold what its
callbacks returned, and what fails or is deferred behind it writes none. Before the first one
`current_transition` is NULL.
-/

namespace Estate

variable {W : Type}

/-- What a run did and what it left in the trace. -/
def done (p q : Process W) : List Action := q.history.drop p.history.length

/-- The wrappers that a transition calls. -/
def called (p : Process W) (tr : Addr) : CbType → WrapperRef
  | .exiter => .exiter (p.transition tr).fromState
  | .transition => .cb tr
  | .enterer => .enterer (p.transition tr).toState

/-- A callback is called and returns its result, unless there is none. -/
inductive CbRan (func : Addr) (type : CbType) (tr : Addr) : List Event → ℤ → Prop
  | absent : func = 0 → CbRan func type tr [] cbOk
  | ran {evs : List Event} {result : ℤ} (data current : Addr) : func ≠ 0 →
      (∀ e ∈ evs, e.isLeave = false) →
      CbRan func type tr (.cbEnter type tr func data current :: evs ++ [.cbLeave type tr result])
        result

/-- The last transition a run completed, and what its callbacks returned: no other one is performed
behind it, and no other callback returns. -/
structure LastCompleted (q : Process W) (h : List Action) (evs : List Event) (tr : Addr)
    (result : CbType → ℤ) : Prop where
  last : (h.filterMap Action.move).getLast? = some tr
  trace : ∃ (before after : List Event) (cbs : CbType → List Event),
    evs = before ++ (cbs .exiter ++ cbs .transition ++ cbs .enterer) ++ after ∧
      (∀ e ∈ after, e.isLeave = false) ∧
      ∀ type, CbRan (q.wrapper (called q tr type)).func type tr (cbs type) (result type)

/-- `estate_machine_cb_check` is defined, and once a transition is completed it returns what the
callback of its kind returned in the last one. -/
def CheckCurrent (p q : Process W) (type : CbType) : Prop :=
  ∃ v, machineCbCheck q type = some v ∧
    ((∃ tr, .moved tr ∈ done p q) →
      ∃ tr result, LastCompleted q (done p q) (since p q) tr result ∧ v = result type)

/-- A locked machine, whose arrays hold transitions that lead to a state, and whose wrappers hold no
result where there is no callback. -/
structure Ready (p : Process W) : Prop where
  locked : p.mach.locked = true
  current : p.mach.currentState ≠ 0
  linked : ∀ st, ∀ tr ∈ (p.state st).transit.take (p.state st).transitCount.toNat,
    tr ≠ 0 ∧ (p.transition tr).toState ≠ 0
  absent : ∀ r, (p.wrapper r).func = 0 → (p.wrapper r).result = cbOk

section Unique

/-- The results in a trace. -/
def Event.leaveResult : Event → Option ℤ
  | .cbLeave _ _ result => some result
  | _ => none

theorem results_silent {evs : List Event} (h : ∀ e ∈ evs, e.isLeave = false) :
    evs.filterMap Event.leaveResult = [] := by
  rw [List.filterMap_eq_nil_iff]
  intro e he
  have hleave := h e he
  cases e <;> simp_all [Event.isLeave, Event.leaveResult]

theorem CbRan.results {func : Addr} {type : CbType} {tr : Addr} {evs : List Event} {result : ℤ}
    (h : CbRan func type tr evs result) :
    evs.filterMap Event.leaveResult = if func = 0 then [] else [result] := by
  cases h with
  | absent hf => simp [hf]
  | ran data current hf hsilent =>
    simp [hf, List.filterMap_cons, List.filterMap_append, Event.leaveResult,
      results_silent hsilent]

theorem CbRan.result_eq {func : Addr} {type : CbType} {tr : Addr} {evs evs' : List Event}
    {result result' : ℤ} (h : CbRan func type tr evs result) (h' : CbRan func type tr evs' result')
    (hres : evs.filterMap Event.leaveResult = evs'.filterMap Event.leaveResult) :
    result' = result := by
  rw [h.results, h'.results] at hres
  split_ifs at hres with hf
  · cases h <;> cases h' <;> first | rfl | contradiction
  · simpa using hres.symm

/-- The trace and the history say which transition was the last one, and what it returned. -/
theorem LastCompleted.unique {q : Process W} {h : List Action} {evs : List Event} {tr tr' : Addr}
    {result result' : CbType → ℤ} (hl : LastCompleted q h evs tr result)
    (hl' : LastCompleted q h evs tr' result') : tr' = tr ∧ result' = result := by
  obtain rfl : tr' = tr := Option.some.inj (hl'.last.symm.trans hl.last)
  obtain ⟨before, after, cbs, hevs, hafter, hcbs⟩ := hl.trace
  obtain ⟨before', after', cbs', hevs', hafter', hcbs'⟩ := hl'.trace
  have hlen : ∀ type, ((cbs type).filterMap Event.leaveResult).length =
      ((cbs' type).filterMap Event.leaveResult).length := by
    intro type
    rw [(hcbs type).results, (hcbs' type).results]
    split_ifs <;> rfl
  have hres := congrArg (List.filterMap Event.leaveResult) (hevs.symm.trans hevs')
  simp only [List.filterMap_append, results_silent hafter, results_silent hafter',
    List.append_nil] at hres
  -- Behind what came before, each kind has as many results on both sides.
  obtain ⟨-, hcalls⟩ := List.append_inj' hres (by simp [hlen])
  obtain ⟨hfirst, henterer⟩ := List.append_inj' hcalls (hlen _)
  obtain ⟨hexiter, hcb⟩ := List.append_inj' hfirst (hlen _)
  refine ⟨rfl, funext fun type => (hcbs type).result_eq (hcbs' type) ?_⟩
  cases type
  · exact henterer
  · exact hexiter
  · exact hcb

end Unique

section Rest

variable {env : Env W} {p q r : Process W} {h h' : List Action} {evs evs' : List Event}

/-- No transition is completed and no callback returns. -/
structure Rests (p q : Process W) (h : List Action) (evs : List Event) : Prop where
  history : q.history = p.history ++ h
  trace : q.trace = p.trace ++ evs
  moves : h.filterMap Action.move = []
  silent : ∀ e ∈ evs, e.isLeave = false
  locked : p.mach.locked = true → q.mach.locked = true
  inCb : q.mach.inCb = p.mach.inCb
  currentTransition : q.mach.currentTransition = p.mach.currentTransition
  currentState : Steady h → q.mach.currentState = p.mach.currentState
  current : p.mach.currentState ≠ 0 → q.mach.currentState ≠ 0
  state : q.state = p.state
  transition : q.transition = p.transition

theorem Rests.wrapper (hr : Rests p q h evs) : q.wrapper = p.wrapper := by
  funext r
  cases r <;> simp [Process.wrapper, hr.state, hr.transition]

theorem Rests.called (hr : Rests p q h evs) : called q = called p := by
  funext tr type
  cases type <;> simp [Estate.called, hr.transition]

theorem Rests.ready (hr : Rests p q h evs) (hp : Ready p) : Ready q where
  locked := hr.locked hp.locked
  current := hr.current hp.current
  linked := by
    rw [hr.state, hr.transition]
    exact hp.linked
  absent := by
    rw [hr.wrapper]
    exact hp.absent

theorem Rests.trans (hr : Rests p q h evs) (hr' : Rests q r h' evs') :
    Rests p r (h ++ h') (evs ++ evs') where
  history := by rw [hr'.history, hr.history, List.append_assoc]
  trace := by rw [hr'.trace, hr.trace, List.append_assoc]
  moves := by rw [List.filterMap_append, hr.moves, hr'.moves, List.append_nil]
  silent e he := by
    rcases List.mem_append.1 he with he | he
    · exact hr.silent e he
    · exact hr'.silent e he
  locked hl := hr'.locked (hr.locked hl)
  inCb := hr'.inCb.trans hr.inCb
  currentTransition := hr'.currentTransition.trans hr.currentTransition
  currentState hs := (hr'.currentState hs.right).trans (hr.currentState hs.left)
  current hc := hr'.current (hr.current hc)
  state := hr'.state.trans hr.state
  transition := hr'.transition.trans hr.transition

/-- Where the machine is left as it is but for what the check does not read. -/
theorem Rests.of_eq (hh : q.history = p.history) (ht : q.trace = p.trace)
    (hl : q.mach.locked = p.mach.locked) (hi : q.mach.inCb = p.mach.inCb)
    (hct : q.mach.currentTransition = p.mach.currentTransition)
    (hcs : q.mach.currentState = p.mach.currentState) (hst : q.state = p.state)
    (htr : q.transition = p.transition) : Rests p q [] [] where
  history := by rw [hh, List.append_nil]
  trace := by rw [ht, List.append_nil]
  moves := rfl
  silent := by simp
  locked := hl.trans
  inCb := hi
  currentTransition := hct
  currentState _ := hcs
  current hc := hcs ▸ hc
  state := hst
  transition := htr

theorem Rests.bracket {s : Stringshare} (hr : Rests (p.share s) q h evs) :
    Rests p (q.unshare s) h evs :=
  ⟨hr.history, hr.trace, hr.moves, hr.silent, hr.locked, hr.inCb, hr.currentTransition,
    hr.currentState, hr.current, hr.state, hr.transition⟩

/-- A call that is no transition rests, but for another lock. -/
theorem apiCall_rests {run : Process W → CStr → Process W × Option Bool} {c : Call} {b : Bool}
    (hc : ∀ t, c ≠ .transitionDo t) (hcall : apiCall env run p c = (q, some b)) :
    ∃ h evs, Rests p q h evs := by
  cases apiCall_step env hc hcall with
  | same => exact ⟨[], [], .of_eq rfl rfl rfl rfl rfl rfl rfl rfl⟩
  | refused shr => exact ⟨[], [], .of_eq rfl rfl rfl rfl rfl rfl rfl rfl⟩
  | bound shr value _ =>
    refine ⟨[.bound shr value], [], ?_⟩
    constructor <;> simp [Action.move]
  | locked current hne =>
    refine ⟨[.locked p.mach.currentState current], [], ?_⟩
    constructor <;> simp [Action.move, Steady, hne]
  | registered mp _ => exact ⟨[], [], .of_eq rfl rfl rfl rfl rfl rfl rfl rfl⟩
  | globalData data => exact ⟨[], [], .of_eq rfl rfl rfl rfl rfl rfl rfl rfl⟩
  | errorCb func => exact ⟨[], [], .of_eq rfl rfl rfl rfl rfl rfl rfl rfl⟩

/-- Inside a callback a locked machine rests. -/
def RestsIn (p q : Process W) : Prop :=
  p.mach.locked = true → p.mach.inCb ≠ cbUnlocked → ∃ h evs, Rests p q h evs

theorem Rests.log (p : Process W) {e : Event} (he : e.isLeave = false) :
    Rests p (p.log e) [] [e] := by
  constructor <;> simp [he]

theorem restsIn_preserves (env : Env W) : Preserves env RestsIn where
  refl p _ _ := ⟨[], [], .of_eq rfl rfl rfl rfl rfl rfl rfl rfl⟩
  trans := by
    intro p q r hr hr' hl hc
    obtain ⟨h, evs, hr⟩ := hr hl hc
    obtain ⟨h', evs', hr'⟩ := hr' (hr.locked hl) (hr.inCb ▸ hc)
    exact ⟨h ++ h', evs ++ evs', hr.trans hr'⟩
  world p w _ _ := ⟨[], [], .of_eq rfl rfl rfl rfl rfl rfl rfl rfl⟩
  log p e he _ _ := ⟨[], [e], .log p he⟩
  call := fun hc hcall _ _ => apiCall_rests hc hcall
  defer p l _ _ := ⟨[], [], .of_eq rfl rfl rfl rfl rfl rfl rfl rfl⟩
  bracket := by
    intro p q s hr hl hc
    obtain ⟨h, evs, hr⟩ := hr hl hc
    exact ⟨h, evs, hr.bracket⟩

/-- A callback finds the functions and the results as they were. -/
theorem entering_called (p : Process W) (wrp : WrapperRef) (type : CbType) (tr : Addr)
    (r : WrapperRef) : ((p.entering wrp type tr).wrapper r).func = (p.wrapper r).func ∧
      ((p.entering wrp type tr).wrapper r).result = (p.wrapper r).result := by
  obtain ⟨hfunc, -, hresult⟩ := miscCbCache_frame p.mach (p.wrapper wrp)
  rw [entering_wrapper]
  split_ifs with hr
  · rw [hr]
    exact ⟨hfunc, hresult⟩
  · exact ⟨rfl, rfl⟩

theorem leaving_called (p : Process W) (wrp : WrapperRef) (type : CbType) (tr : Addr)
    (result : ℤ) (r : WrapperRef) :
    ((p.leaving wrp type tr result).wrapper r).func = (p.wrapper r).func ∧
      ((p.leaving wrp type tr result).wrapper r).result =
        if r = wrp then result else (p.wrapper r).result := by
  rw [leaving_wrapper]
  split_ifs with hr
  · rw [hr]
    exact ⟨rfl, rfl⟩
  · exact ⟨rfl, rfl⟩

/-- A callback of a transition is called, unless there is none, and nothing else is done. -/
structure Ran (p q : Process W) (wrp : WrapperRef) (type : CbType) (tr : Addr) (h : List Action)
    (evs : List Event) (result : ℤ) : Prop where
  history : q.history = p.history ++ h
  trace : q.trace = p.trace ++ evs
  moves : h.filterMap Action.move = []
  ran : CbRan (p.wrapper wrp).func type tr evs result
  locked : q.mach.locked = true
  inCb : q.mach.inCb = cbUnlocked
  currentTransition : q.mach.currentTransition = p.mach.currentTransition
  currentState : Steady h → q.mach.currentState = p.mach.currentState
  current : p.mach.currentState ≠ 0 → q.mach.currentState ≠ 0
  shape : SameShape p q
  func : ∀ r, (q.wrapper r).func = (p.wrapper r).func
  others : ∀ r, r ≠ wrp → (q.wrapper r).result = (p.wrapper r).result
  result : (q.wrapper wrp).result = result

theorem miscCbCall_ran {fuel : ℕ} {wrp : WrapperRef} {type : CbType} {tr : Addr}
    (hl : p.mach.locked = true) (hc : p.mach.inCb = cbUnlocked)
    (habsent : (p.wrapper wrp).func = 0 → (p.wrapper wrp).result = cbOk)
    (hcall : miscCbCall env (machineTransitionDo env fuel) p wrp type tr = (q, some ())) :
    ∃ h evs result, Ran p q wrp type tr h evs result := by
  by_cases hf : (p.wrapper wrp).func = 0
  · unfold miscCbCall at hcall
    rw [if_pos hf] at hcall
    obtain ⟨rfl, -⟩ := Prod.mk.inj hcall
    exact ⟨[], [], cbOk,
      { history := (List.append_nil _).symm
        trace := (List.append_nil _).symm
        moves := rfl
        ran := .absent hf
        locked := hl
        inCb := hc
        currentTransition := rfl
        currentState := fun _ => rfl
        current := id
        shape := .of_eq rfl rfl
        func := fun _ => rfl
        others := fun _ _ => rfl
        result := habsent hf }⟩
  · rw [miscCbCall_eq env _ type tr hf] at hcall
    split at hcall
    · simp at hcall
    · rename_i p' result hprog
      obtain ⟨rfl, -⟩ := Prod.mk.inj hcall
      obtain ⟨h, evs, hr⟩ := (restsIn_preserves env).runProg
        (fun _ _ _ _ hdo hl hc => (restsIn_preserves env).transitionDo_in_cb hl hc hdo hl hc) _
        hprog (by simpa using hl) (by simpa using type.code_ne)
      have hentered := entering_called p wrp type tr
      have hleft := leaving_called p' wrp type tr result
      exact ⟨_, _, result,
        { history := by
            simp only [leaving_history, hr.history, entering_history, List.append_assoc]
            rfl
          trace := by
            simp only [leaving_trace, hr.trace, entering_trace, List.append_assoc,
              (miscCbCache_frame p.mach (p.wrapper wrp)).1]
            rfl
          moves := by
            rw [List.filterMap_append, hr.moves]
            rfl
          ran := .ran _ _ hf hr.silent
          locked := by simpa using hr.locked (by simpa using hl)
          inCb := by simp
          currentTransition := by simp [hr.currentTransition]
          currentState := fun hs => by simp [hr.currentState hs.right]
          current := fun hne => by simpa using hr.current (by simpa using hne)
          shape := ((entering_shape p wrp type tr).trans (.of_eq hr.state hr.transition)).trans
            (leaving_shape p' wrp type tr result)
          func := fun r => by rw [(hleft r).1, hr.wrapper, (hentered r).1]
          others := fun r hne => by rw [(hleft r).2, if_neg hne, hr.wrapper, (hentered r).2]
          result := by rw [(hleft wrp).2, if_pos rfl] }⟩

theorem Ran.absent {wrp : WrapperRef} {type : CbType} {tr : Addr} {result : ℤ}
    (hr : Ran p q wrp type tr h evs result)
    (hp : ∀ r, (p.wrapper r).func = 0 → (p.wrapper r).result = cbOk) (r : WrapperRef)
    (hf : (q.wrapper r).func = 0) : (q.wrapper r).result = cbOk := by
  rw [hr.func r] at hf
  by_cases hw : r = wrp
  · subst hw
    rw [hr.result]
    cases hr.ran with
    | absent _ => rfl
    | ran _ _ hne _ => exact absurd hf hne
  · rw [hr.others r hw]
    exact hp r hf

/-- A transition has been completed, and the wrappers hold what its callbacks returned. -/
structure Completed (p q : Process W) (h : List Action) (evs : List Event) (tr : Addr)
    (result : CbType → ℤ) : Prop where
  history : q.history = p.history ++ h
  trace : q.trace = p.trace ++ evs
  ready : Ready q
  last : LastCompleted q h evs tr result
  currentTransition : q.mach.currentTransition = tr
  currentState : Steady h → q.mach.currentState = (q.transition tr).toState
  result : ∀ type, (q.wrapper (called q tr type)).result = result type
  real : tr ≠ 0 ∧ (q.transition tr).fromState ≠ 0

theorem SameShape.called (hs : SameShape p q) : called q = called p := by
  funext tr type
  cases type <;> simp [Estate.called, hs.transition]

theorem fire_completed {fuel : ℕ} {tr : Addr} (hp : Ready p) (hc : p.mach.inCb = cbUnlocked)
    (hreal : tr ≠ 0 ∧ (p.transition tr).toState ≠ 0)
    (hfrom : (p.transition tr).fromState = p.mach.currentState)
    (hfire : fire env (machineTransitionDo env fuel) p tr = (q, some ())) :
    ∃ h evs result, Completed p q h evs tr result := by
  obtain ⟨p₀, hp₀⟩ : ∃ p₀, p₀ = p.setMach { p.mach with currentTransition := tr } := ⟨_, rfl⟩
  have hw₀ : p₀.wrapper = p.wrapper := by
    rw [hp₀]
    funext r
    cases r <;> rfl
  unfold fire at hfire
  simp only [stateCbCall, ← hp₀] at hfire
  split at hfire
  · simp at hfire
  · rename_i p₁ hrun₁
    split at hfire
    · simp at hfire
    · rename_i p₂ hrun₂
      obtain ⟨p₃, hp₃⟩ : ∃ p₃, p₃ = (p₂.setMach
        { p₂.mach with currentState := (p₂.transition tr).toState }).record (.moved tr) := ⟨_, rfl⟩
      have hw₃ : p₃.wrapper = p₂.wrapper := by
        rw [hp₃]
        funext r
        cases r <;> rfl
      simp only [← hp₃] at hfire
      obtain ⟨h₁, evs₁, r₁, hr₁⟩ := miscCbCall_ran (by simpa [hp₀] using hp.locked)
        (by simpa [hp₀] using hc) (by rw [hw₀]; exact hp.absent _) hrun₁
      have habsent₁ := hr₁.absent (by rw [hw₀]; exact hp.absent)
      obtain ⟨h₂, evs₂, r₂, hr₂⟩ := miscCbCall_ran hr₁.locked hr₁.inCb (habsent₁ _) hrun₂
      have habsent₃ : ∀ r, (p₃.wrapper r).func = 0 → (p₃.wrapper r).result = cbOk := by
        rw [hw₃]
        exact hr₂.absent habsent₁
      obtain ⟨h₃, evs₃, r₃, hr₃⟩ := miscCbCall_ran (by simpa [hp₃] using hr₂.locked)
        (by simpa [hp₃] using hr₂.inCb) (habsent₃ _) hfire
      have hs₀ : SameShape p p₀ := .of_eq (by simp [hp₀]) (by simp [hp₀])
      have hs₂ : SameShape p₀ p₂ := hr₁.shape.trans hr₂.shape
      have hs₃ : SameShape p₀ p₃ := hs₂.trans (.of_eq (by simp [hp₃]) (by simp [hp₃]))
      have hshape : SameShape p q := (hs₀.trans hs₃).trans hr₃.shape
      have hcalled : called q = called p := hshape.called
      -- The wrappers of the three calls are three different ones.
      have hwrp₁ : WrapperRef.exiter (p₀.transition tr).fromState = called p tr .exiter := by
        rw [called, (hs₀.transition tr).2.1]
      have hwrp₃ : WrapperRef.enterer (p₃.transition tr).toState = called p tr .enterer := by
        rw [called, ((hs₀.trans hs₃).transition tr).2.2]
      have hfunc : ∀ r, (q.wrapper r).func = (p.wrapper r).func := fun r => by
        rw [hr₃.func, hw₃, hr₂.func, hr₁.func, hw₀]
      obtain ⟨result, hresult⟩ : ∃ result : CbType → ℤ, result = fun
        | .exiter => r₁
        | .transition => r₂
        | .enterer => r₃ := ⟨_, rfl⟩
      obtain ⟨cbs, hcbs⟩ : ∃ cbs : CbType → List Event, cbs = fun
        | .exiter => evs₁
        | .transition => evs₂
        | .enterer => evs₃ := ⟨_, rfl⟩
      have hran : ∀ type, CbRan (q.wrapper (called q tr type)).func type tr (cbs type)
          (result type) := by
        intro type
        rw [hcalled, hfunc, hresult, hcbs]
        cases type with
        | exiter => rw [← hwrp₁, ← hw₀]; exact hr₁.ran
        | transition => rw [← hw₀, ← hr₁.func]; exact hr₂.ran
        | enterer => rw [← hwrp₃, ← hw₀, ← hr₁.func, ← hr₂.func, ← hw₃]; exact hr₃.ran
      have hto : p₃.mach.currentState = (p.transition tr).toState := by
        rw [← ((hs₀.trans hs₂).transition tr).2.2, hp₃]
        rfl
      have hcurrent : p₁.mach.currentTransition = tr := by
        rw [hr₁.currentTransition, hp₀]
        rfl
      refine ⟨h₁ ++ h₂ ++ .moved tr :: h₃, evs₁ ++ evs₂ ++ evs₃, result,
        { history := ?_, trace := ?_, ready := ⟨hr₃.locked, ?_, ?_, ?_⟩, last := ⟨?_, ?_⟩,
          currentTransition := ?_, currentState := ?_, result := ?_, real := ⟨hreal.1, ?_⟩ }⟩
      · simp [hr₃.history, hp₃, hr₂.history, hr₁.history, hp₀]
      · simp [hr₃.trace, hp₃, hr₂.trace, hr₁.trace, hp₀]
      · exact hr₃.current (hto ▸ hreal.2)
      · intro st tr' hmem
        rw [(hshape.state st).2.1, (hshape.state st).2.2] at hmem
        rw [(hshape.transition tr').2.2]
        exact hp.linked st tr' hmem
      · exact hr₃.absent habsent₃
      · simp [List.filterMap_append, hr₁.moves, hr₂.moves, hr₃.moves, Action.move]
      · exact ⟨[], [], cbs, by simp [hcbs], by simp, hran⟩
      · rw [hr₃.currentTransition, hp₃, ← hcurrent]
        exact hr₂.currentTransition
      · intro hs
        have hs' : Steady h₃ := fun x y hmem => hs x y (by simp [hmem])
        rw [hr₃.currentState hs', hto, (hshape.transition tr).2.2]
      · intro type
        rw [hcalled, hresult]
        cases type with
        | exiter => rw [hr₃.others _ (by simp [called]), hw₃, hr₂.others _ (by simp [called]),
            ← hwrp₁, hr₁.result]
        | transition => rw [hr₃.others _ (by simp [called]), hw₃]; exact hr₂.result
        | enterer => rw [← hwrp₃]; exact hr₃.result
      · rw [(hshape.transition tr).2.1, hfrom]
        exact hp.current

/-- What is done to a machine that is ready: it rests, or a transition has been completed. -/
def KeepsChecked (p q : Process W) : Prop :=
  Ready p → (∃ h evs, Rests p q h evs) ∨ ∃ h evs tr result, Completed p q h evs tr result

theorem LastCompleted.prefix {tr : Addr} {result : CbType → ℤ}
    (hc : LastCompleted q h' evs' tr result) (h : List Action) (evs : List Event) :
    LastCompleted q (h ++ h') (evs ++ evs') tr result where
  last := by
    rw [List.filterMap_append, List.getLast?_append, hc.last]
    rfl
  trace := by
    obtain ⟨before, after, cbs, rfl, hafter, hcbs⟩ := hc.trace
    exact ⟨evs ++ before, after, cbs, by simp, hafter, hcbs⟩

/-- What rests behind a transition leaves what it returned. -/
theorem Completed.rests {tr : Addr} {result : CbType → ℤ} (hc : Completed p q h evs tr result)
    (hr : Rests q r h' evs') : Completed p r (h ++ h') (evs ++ evs') tr result where
  history := by rw [hr.history, hc.history, List.append_assoc]
  trace := by rw [hr.trace, hc.trace, List.append_assoc]
  ready := hr.ready hc.ready
  last := by
    obtain ⟨before, after, cbs, rfl, hafter, hcbs⟩ := hc.last.trace
    refine ⟨?_, before, after ++ evs', cbs, by simp, ?_, ?_⟩
    · rw [List.filterMap_append, hr.moves, List.append_nil, hc.last.last]
    · intro e he
      rcases List.mem_append.1 he with he | he
      · exact hafter e he
      · exact hr.silent e he
    · rw [hr.wrapper, hr.called]
      exact hcbs
  currentTransition := hr.currentTransition.trans hc.currentTransition
  currentState hs := by
    rw [hr.currentState hs.right, hc.currentState hs.left, hr.transition]
  result := by
    rw [hr.wrapper, hr.called]
    exact hc.result
  real := by
    rw [hr.transition]
    exact hc.real

theorem Completed.prefix {tr : Addr} {result : CbType → ℤ} (hc : Completed q r h' evs' tr result)
    (hh : q.history = p.history ++ h) (ht : q.trace = p.trace ++ evs) :
    Completed p r (h ++ h') (evs ++ evs') tr result where
  history := by rw [hc.history, hh, List.append_assoc]
  trace := by rw [hc.trace, ht, List.append_assoc]
  ready := hc.ready
  last := hc.last.prefix h evs
  currentTransition := hc.currentTransition
  currentState hs := hc.currentState hs.right
  result := hc.result
  real := hc.real

theorem KeepsChecked.trans (hk : KeepsChecked p q) (hk' : KeepsChecked q r) : KeepsChecked p r := by
  intro hp
  rcases hk hp with ⟨h, evs, hr⟩ | ⟨h, evs, tr, result, hc⟩
  · rcases hk' (hr.ready hp) with ⟨h', evs', hr'⟩ | ⟨h', evs', tr, result, hc⟩
    · exact .inl ⟨_, _, hr.trans hr'⟩
    · exact .inr ⟨_, _, tr, result, hc.prefix hr.history hr.trace⟩
  · rcases hk' hc.ready with ⟨h', evs', hr'⟩ | ⟨h', evs', tr', result', hc'⟩
    · exact .inr ⟨_, _, tr, result, hc.rests hr'⟩
    · exact .inr ⟨_, _, tr', result', hc'.prefix hc.history hc.trace⟩

theorem keepsChecked_preserves (env : Env W) : Preserves env KeepsChecked where
  refl p _ := .inl ⟨[], [], .of_eq rfl rfl rfl rfl rfl rfl rfl rfl⟩
  trans := KeepsChecked.trans
  world p w _ := .inl ⟨[], [], .of_eq rfl rfl rfl rfl rfl rfl rfl rfl⟩
  log p e he _ := .inl ⟨[], [e], .log p he⟩
  call := fun hc hcall _ => .inl (apiCall_rests hc hcall)
  defer p l _ := .inl ⟨[], [], .of_eq rfl rfl rfl rfl rfl rfl rfl rfl⟩
  bracket := by
    intro p q s hk hp
    rcases hk ⟨hp.locked, hp.current, hp.linked, hp.absent⟩ with
      ⟨h, evs, hr⟩ | ⟨h, evs, tr, result, hc⟩
    · exact .inl ⟨h, evs, hr.bracket⟩
    · have hc' : Completed p q ([] ++ h) ([] ++ evs) tr result :=
        hc.prefix (List.append_nil _).symm (List.append_nil _).symm
      exact .inr ⟨_, _, tr, result, hc'.rests (.of_eq rfl rfl rfl rfl rfl rfl rfl rfl)⟩

/-- A transition that is found is one of the array of the current state. -/
theorem mem_of_findTransition {shr : Stringshare} {tr : Addr}
    (hfound : findTransition env p shr = some tr) :
    tr ∈ (p.state p.mach.currentState).transit.take
      (p.state p.mach.currentState).transitCount.toNat :=
  (Lib.search_some hfound).1

theorem keepsChecked_fires (env : Env W) : FiresFound env KeepsChecked := by
  rintro fuel p tr q - - hc ⟨shr, hfound⟩ hfrom hfire hp
  obtain ⟨h, evs, result, hdone⟩ :=
    fire_completed hp hc (hp.linked _ tr (mem_of_findTransition hfound)) hfrom hfire
  exact .inr ⟨h, evs, tr, result, hdone⟩

end Rest

section Check

variable {env : Env W} {p q : Process W} {h : List Action} {evs : List Event}

theorem mem_moves {tr : Addr} : tr ∈ h.filterMap Action.move ↔ .moved tr ∈ h := by
  rw [List.mem_filterMap]
  constructor
  · rintro ⟨a, ha, hm⟩
    cases a <;> simp only [Action.move, reduceCtorEq, Option.some.injEq] at hm
    exact hm ▸ ha
  · intro hmem
    exact ⟨_, hmem, rfl⟩

theorem done_eq (hh : q.history = p.history ++ h) : done p q = h := by
  rw [done, hh, List.drop_left]

theorem since_eq (ht : q.trace = p.trace ++ evs) : since p q = evs := by
  rw [since, ht, List.drop_left]

theorem Rests.not_moved (hr : Rests p q h evs) : ¬ ∃ tr, Action.moved tr ∈ done p q := by
  rintro ⟨tr, hmem⟩
  rw [done_eq hr.history, ← mem_moves, hr.moves] at hmem
  simp at hmem

/-- Before the first transition `current_transition` is NULL. -/
theorem Rests.check (hr : Rests p q h evs) (hp : Ready p) (hnew : p.mach.currentTransition = 0)
    (type : CbType) : CheckCurrent p q type ↔ type = .enterer := by
  have hq := hr.ready hp
  have hnull : q.mach.currentTransition = 0 := hr.currentTransition.trans hnew
  cases type with
  | enterer =>
    refine iff_of_true ⟨(q.state q.mach.currentState).enterer.result, ?_,
      fun hmoved => absurd hmoved hr.not_moved⟩ rfl
    simp [machineCbCheck, hq.locked, hq.current]
  | _ =>
    refine iff_of_false ?_ (by decide)
    rintro ⟨v, hv, -⟩
    simp [machineCbCheck, hq.locked, hnull] at hv

theorem Completed.check {tr : Addr} {result : CbType → ℤ} (hc : Completed p q h evs tr result)
    (hs : Steady h) (type : CbType) : CheckCurrent p q type := by
  refine ⟨result type, ?_, fun _ => ⟨tr, result, ?_, rfl⟩⟩
  · have hl := hc.ready.locked
    have hresult := hc.result type
    cases type with
    | enterer =>
      have hto := hc.currentState hs
      simp only [called, Process.wrapper, ← hto] at hresult
      simp [machineCbCheck, hl, hc.ready.current, hresult]
    | transition =>
      simp only [called, Process.wrapper] at hresult
      simp [machineCbCheck, hl, hc.currentTransition, hc.real.1, hresult]
    | exiter =>
      simp only [called, Process.wrapper] at hresult
      simp [machineCbCheck, hl, hc.currentTransition, hc.real.1, hc.real.2, hresult]
  · rw [done_eq hc.history, since_eq hc.trace]
    exact hc.last

/-- From a machine that is ready and has performed no transition yet. -/
theorem Ready.check_iff (hp : Ready p) (hnew : p.mach.currentTransition = 0) (hrun : Run env p q)
    (hs : Steady (done p q)) (type : CbType) :
    CheckCurrent p q type ↔ type = .enterer ∨ ∃ tr, .moved tr ∈ done p q := by
  rcases (keepsChecked_preserves env).run_found (keepsChecked_fires env) hrun hp with
    ⟨h, evs, hr⟩ | ⟨h, evs, tr, result, hc⟩
  · rw [hr.check hp hnew type, or_iff_left hr.not_moved]
  · have hdone : done p q = h := done_eq hc.history
    refine iff_of_true (hc.check (hdone ▸ hs) type) (.inr ⟨tr, ?_⟩)
    rw [hdone, ← mem_moves]
    exact List.mem_of_getLast? hc.last.last

end Check

/-! ## A machine that is built and locked -/

/-- The arrays of the states hold transitions that lead to a state. -/
def Linked (p : Process W) : Prop :=
  ∀ st, ∀ tr ∈ (p.state st).transit.take (p.state st).transitCount.toNat,
    tr ≠ 0 ∧ (p.transition tr).toState ≠ 0

/-- A machine that was built and locked has no results yet. -/
theorem BuiltLocked.ready {heap : Heap} {p : Process W} (h : BuiltLocked heap p) (hlinked : Linked p) :
    Ready p ∧ p.mach.currentTransition = 0 := by
  obtain @⟨_, _, mach, _, _, _, p, s₀, hnew, hb, -, hl⟩ := h
  obtain ⟨mp, hmp⟩ := build_mach hb
  obtain ⟨hopen, hnone⟩ : mach.locked = false ∧ mach.currentTransition = 0 := by
    unfold machineNew at hnew
    split at hnew
    · simp at hnew
    · split_ifs at hnew
      rw [← Option.some.inj hnew]
      exact ⟨rfl, rfl⟩
  have hpl : p.mach.locked = false := by rw [hmp]; exact hopen
  obtain ⟨hs₀, hsreg, htreg⟩ := complete_of_machineLock hpl hl
  have hlock := machineLock_complete hs₀ hsreg htreg
  obtain ⟨hstate, htr, -⟩ := machineLock_frame p s₀
  have hresults : ∀ r, ((machineLock p s₀).wrapper r).result = cbOk :=
    same_wrappers (P := fun w => w.result = cbOk)
      (build_wrappers (P := fun w => w.result = cbOk) (fun _ => rfl) (fun _ _ _ hw => hw) hb
        (fun r => by cases r <;> rfl)) hstate htr
  refine ⟨⟨hl, ?_, hlinked, fun r _ => hresults r⟩, ?_⟩
  · rw [hlock]
    exact hs₀
  · rw [hlock]
    show p.mach.currentTransition = 0
    rw [hmp]
    exact hnone

/-- From a machine that was built and locked, whatever is called from outside or from its callbacks,
as long as it is not locked into another state: the check of a kind is defined, and current, exactly
for the enterer or when a transition has been completed. -/
theorem cbCheck_iff {env : Env W} {heap : Heap} {p q : Process W} (hp : BuiltLocked heap p)
    (hlinked : Linked p) (hrun : Run env p q) (hs : Steady (done p q)) (type : CbType) :
    CheckCurrent p q type ↔ type = .enterer ∨ ∃ tr, .moved tr ∈ done p q := by
  obtain ⟨hready, hnew⟩ := hp.ready hlinked
  exact hready.check_iff hnew hrun hs type

/-! ## A machine that is locked and turned -/

theorem keyed_linked {p : Process Unit}
    (hb : build roomyHeap (.fresh newMachine.mach (fun _ => 0) ()) keyed = some p) :
    Linked (machineLock p 4224) := by
  -- Only the two states are written.
  obtain ⟨s₁, s₂, s₃, s₄, hstate⟩ : ∃ s₁ s₂ s₃ s₄, p.state = Function.update (Function.update
      (Function.update (Function.update (fun _ => {}) 4224 s₁) 4312 s₂) 4224 s₃) 4312 s₄ := by
    obtain rfl := Option.some.inj hb
    exact ⟨_, _, _, _, rfl⟩
  intro st tr hmem
  rw [(machineLock_frame p 4224).1] at hmem
  by_cases h₁ : st = 4224
  · obtain rfl := Option.some.inj hb
    subst h₁
    obtain rfl : tr = 4400 := List.mem_singleton.1 hmem
    exact ⟨by decide, by decide⟩
  by_cases h₂ : st = 4312
  · obtain rfl := Option.some.inj hb
    subst h₂
    exact absurd hmem List.not_mem_nil
  · simp [hstate, h₁, h₂] at hmem

/-- Right after it is locked, a machine has no transition to check. -/
theorem opened_unchecked : ∃ p,
    build roomyHeap (.fresh newMachine.mach (fun _ => 0) ()) keyed = some p ∧
    BuiltLocked roomyHeap (machineLock p 4224) ∧ Linked (machineLock p 4224) ∧
    Run ringing (machineLock p 4224) (machineLock p 4224) ∧
    machineCbCheck (machineLock p 4224) .transition = none ∧
    ¬ CheckCurrent (machineLock p 4224) (machineLock p 4224) .transition := by
  obtain ⟨p, hb, hlocked⟩ := keyed_locked
  have hnone : machineCbCheck (machineLock p 4224) .transition = none := by
    obtain rfl := Option.some.inj hb
    rfl
  refine ⟨p, hb, hlocked, keyed_linked hb, .start, hnone, ?_⟩
  rintro ⟨v, hv, -⟩
  simp [hnone] at hv

/-- It has one after the transition. -/
theorem turned_current : ∃ p,
    build roomyHeap (.fresh newMachine.mach (fun _ => 0) ()) keyed = some p ∧
    CheckCurrent (machineLock p 4224) (machineTransitionDo ringing 1 (machineLock p 4224) 20).1
      .transition := by
  obtain ⟨p, hb, hlocked⟩ := keyed_locked
  obtain ⟨hdo, hdone⟩ : (machineTransitionDo ringing 1 (machineLock p 4224) 20).2 = some true ∧
      done (machineLock p 4224) (machineTransitionDo ringing 1 (machineLock p 4224) 20).1 =
        [.invoked (some "bell".toList) 0 none 4224, .moved 4400] := by
    obtain rfl := Option.some.inj hb
    exact ⟨rfl, rfl⟩
  have hrun : Run ringing (machineLock p 4224)
      (machineTransitionDo ringing 1 (machineLock p 4224) 20).1 :=
    @Run.call _ _ _ _ _ 1 (.transitionDo 20) true .start (Prod.ext rfl hdo)
  refine ⟨p, hb, (cbCheck_iff hlocked (keyed_linked hb) hrun ?_ .transition).2 (.inr ⟨4400, ?_⟩)⟩
  · rw [hdone]
    simp [Steady]
  · rw [hdone]
    exact List.mem_cons_of_mem _ List.mem_cons_self

end Estate
