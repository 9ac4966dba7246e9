import Estate.Proofs.Fuel
import Estate.Lib.Agenda

/-!
# Deferred transitions

While a callback runs, `in_cb` is not `CB_UNLOCKED` and `estate_machine_transition_do` only
appends to `cb_defer` (`runProg_defers`). Between two callbacks it is `CB_UNLOCKED` again, so the
queue is exactly what the callbacks of one transition asked for when it is detached and drained,
and each recursive call finds it empty. A run that exhausts its fuel has issued at least one
request per level, so finitely many requests terminate.
-/

namespace Estate

open Lib

variable {W : Type}

def Event.requested : Event → Option CStr
  | .request t _ => some t
  | _ => none

/-- The events a run added. -/
def since (p q : Process W) : List Event := q.trace.drop p.trace.length

/-- A locked machine between two calls: no callback runs and nothing is deferred. -/
structure Idle (p : Process W) : Prop where
  locked : p.mach.locked = true
  inCb : p.mach.inCb = cbUnlocked
  cbDefer : p.mach.cbDefer = []

/-- The error callbacks make no call. -/
def ErrorSilent (env : Env W) : Prop :=
  ∀ func arg msg p, ∃ w result, env.errorCallback func arg msg p = .ret w result

/-- Only requests were made, and they wait at the end of the queue. -/
structure Defers (env : Env W) (p q : Process W) (evs : List Event) : Prop where
  trace : q.trace = p.trace ++ evs
  requests : ∀ e ∈ evs, ∃ t w, t ≠ 0 ∧ e = .request t (env.deref w t)
  cbDefer : q.mach.cbDefer = p.mach.cbDefer ++ evs.filterMap Event.requested
  inCb : q.mach.inCb = p.mach.inCb
  locked : q.mach.locked = true

theorem Defers.refl {env : Env W} {p q : Process W} (ht : q.trace = p.trace)
    (hd : q.mach.cbDefer = p.mach.cbDefer) (hc : q.mach.inCb = p.mach.inCb)
    (hl : q.mach.locked = true) : Defers env p q [] :=
  ⟨by simp [ht], by simp, by simp [hd], hc, hl⟩

theorem Defers.trans {env : Env W} {p q r : Process W} {evs₁ evs₂ : List Event}
    (h₁ : Defers env p q evs₁) (h₂ : Defers env q r evs₂) : Defers env p r (evs₁ ++ evs₂) where
  trace := by rw [h₂.trace, h₁.trace, List.append_assoc]
  requests := by
    intro e he
    rcases List.mem_append.1 he with he | he
    · exact h₁.requests e he
    · exact h₂.requests e he
  cbDefer := by rw [h₂.cbDefer, h₁.cbDefer, List.filterMap_append, List.append_assoc]
  inCb := h₂.inCb.trans h₁.inCb
  locked := h₂.locked

section Callbacks

variable (env : Env W)

/-- Inside a callback a transition is only deferred, whatever the fuel. -/
theorem transitionDo_in_cb {p : Process W} {t : CStr} (hl : p.mach.locked = true)
    (hc : p.mach.inCb ≠ cbUnlocked) (fuel : ℕ) :
    ∃ q b evs, machineTransitionDo env fuel p t = (q, some b) ∧ Defers env p q evs := by
  have hrun : ∀ run, ∃ q b evs, transitionEnter env run p t = (q, some b) ∧ Defers env p q evs := by
    intro run
    unfold transitionEnter
    by_cases ht : t = 0
    · exact ⟨p, false, [], by simp [ht], Defers.refl rfl rfl rfl hl⟩
    · refine ⟨_, true, [.request t (env.deref p.world t)], by
        rw [if_neg ht, if_neg (by simp [hl]), if_pos hc], ?_⟩
      refine ⟨by simp, ?_, by simp [Event.requested], by simp, by simpa using hl⟩
      intro e he
      exact ⟨t, p.world, ht, List.mem_singleton.1 he⟩
  cases fuel <;> exact hrun _

/-- What a call that is no transition does. -/
inductive ApiStep (p : Process W) : Process W → Prop
  | same : ApiStep p p
  | refused (shr : Stringshare) : ApiStep p ((p.share shr).unshare shr)
  | bound (shr : Stringshare) (value : Addr) : hashFind p.mach.data (some shr) = none →
      ApiStep p (((p.share shr).setMach
        { p.mach with data := hashAdd p.mach.data (some shr) value }).record (.bound shr value))
  | locked (current : Addr) : current ≠ 0 →
      ApiStep p ((p.setMach { p.mach with currentState := current, locked := true }).record
        (.locked p.mach.currentState current))
  | registered (mp : Mempool) : p.mach.locked = false →
      ApiStep p (p.setMach { p.mach with mempool := mp })
  | globalData (data : Addr) : ApiStep p (p.setMach { p.mach with globalData := data })
  | errorCb (func : Addr) : ApiStep p (p.setMach { p.mach with errorCb := func })

theorem machineDataSet_step (p : Process W) (key : CStr) (value : Addr) :
    ApiStep p (machineDataSet env p key value).1 := by
  unfold machineDataSet
  split_ifs
  · exact .same
  · exact .same
  · exact .same
  · simp only []
    split
    · exact .refused _
    · rename_i hnone
      split_ifs
      · exact .bound _ _ hnone
      · exact .refused _

/-- What a lock leaves as it is, whether it takes effect or not. -/
theorem machineLock_frame (p : Process W) (current : Addr) :
    (machineLock p current).state = p.state ∧ (machineLock p current).transition = p.transition ∧
      (machineLock p current).mach.data = p.mach.data ∧
      (machineLock p current).mach.inCb = p.mach.inCb ∧
      (machineLock p current).mach.cbDefer = p.mach.cbDefer := by
  unfold machineLock
  split_ifs <;> exact ⟨rfl, rfl, rfl, rfl, rfl⟩

theorem apiCall_step {run : Process W → CStr → Process W × Option Bool} {p q : Process W}
    {c : Call} {b : Bool} (hc : ∀ t, c ≠ .transitionDo t)
    (hcall : apiCall env run p c = (q, some b)) : ApiStep p q := by
  cases c with
  | transitionDo t => exact absurd rfl (hc t)
  | dataSet key value =>
    obtain ⟨rfl, -⟩ := Prod.mk.inj hcall
    exact machineDataSet_step env p key value
  | lock current =>
    obtain ⟨rfl, -⟩ := Prod.mk.inj hcall
    unfold machineLock
    split_ifs with h
    · exact .same
    · exact .same
    · exact .same
    · exact .locked current h
  | stateAdd state =>
    obtain ⟨rfl, -⟩ := Prod.mk.inj hcall
    unfold machineStateAdd
    simp only []
    split_ifs with _ h
    · exact .same
    · exact .same
    · exact .registered _ (by simpa using h)
    · exact .registered _ (by simpa using h)
  | transitionAdd tr =>
    obtain ⟨rfl, -⟩ := Prod.mk.inj hcall
    unfold machineTransitionAdd
    simp only []
    split_ifs with _ h
    · exact .same
    · exact .same
    · exact .registered _ (by simpa using h)
    · exact .registered _ (by simpa using h)
  | globalDataSet data =>
    obtain ⟨rfl, -⟩ := Prod.mk.inj hcall
    unfold machineGlobalDataSet
    split_ifs
    · exact .same
    · exact .globalData data
  | errorCbSet errorCb =>
    obtain ⟨rfl, -⟩ := Prod.mk.inj hcall
    exact .errorCb errorCb

theorem apiCall_ends (run : Process W → CStr → Process W × Option Bool) (p : Process W) {c : Call}
    (hc : ∀ t, c ≠ .transitionDo t) : ∃ q b, apiCall env run p c = (q, some b) := by
  cases c with
  | transitionDo t => exact absurd rfl (hc t)
  | _ => exact ⟨_, _, rfl⟩

/-- A locked machine stays locked, and only its transitions are put on record. -/
theorem ApiStep.frame {p q : Process W} (h : ApiStep p q) :
    q.trace = p.trace ∧ q.mach.cbDefer = p.mach.cbDefer ∧ q.mach.inCb = p.mach.inCb ∧
      (p.mach.locked = true → q.mach.locked = true) ∧ q.state = p.state ∧
      q.transition = p.transition := by
  cases h <;> simp

theorem apiCall_defers {p : Process W} (hl : p.mach.locked = true)
    (hc : p.mach.inCb ≠ cbUnlocked) (fuel : ℕ) (c : Call) :
    ∃ q b evs, apiCall env (machineTransitionDo env fuel) p c = (q, some b) ∧
      Defers env p q evs := by
  by_cases hdo : ∃ t, c = .transitionDo t
  · obtain ⟨t, rfl⟩ := hdo
    exact transitionDo_in_cb env hl hc fuel
  · have hne : ∀ t, c ≠ .transitionDo t := fun t ht => hdo ⟨t, ht⟩
    obtain ⟨q, b, hq⟩ := apiCall_ends env (machineTransitionDo env fuel) p hne
    obtain ⟨h1, h2, h3, h4, -⟩ := (apiCall_step env hne hq).frame
    exact ⟨q, b, [], hq, Defers.refl h1 h2 h3 (h4 hl)⟩

/-- A callback returns, and all it did to the queue is append its requests. -/
theorem runProg_defers (fuel : ℕ) (prog : CbProg W) :
    ∀ {p : Process W}, p.mach.locked = true → p.mach.inCb ≠ cbUnlocked →
      ∃ q result evs, runProg env (machineTransitionDo env fuel) prog p = (q, some result)
        ∧ Defers env p q evs := by
  induction prog with
  | ret w result =>
    intro p hl _
    exact ⟨_, result, [], rfl, Defers.refl rfl rfl rfl hl⟩
  | call w c k ih =>
    intro p hl hc
    obtain ⟨q, b, evs₁, hq, hd⟩ := apiCall_defers env (p := p.setWorld w) hl hc fuel c
    obtain ⟨r, result, evs₂, hr, hd'⟩ := ih q b hd.locked (by rw [hd.inCb]; exact hc)
    refine ⟨r, result, evs₁ ++ evs₂, ?_, ?_⟩
    · simp only [runProg, hq, hr]
    · exact Defers.trans ⟨hd.trace, hd.requests, hd.cbDefer, hd.inCb, hd.locked⟩ hd'

/-- What calling one wrapper leaves: nothing, or the callback and its requests. -/
inductive CbSegment (type : CbType) (tr : Addr) : List Event → Prop
  | absent : CbSegment type tr []
  | called {evs : List Event} (func data current : Addr) (result : ℤ)
      (requests : ∀ e ∈ evs, ∃ t w, t ≠ 0 ∧ e = .request t (env.deref w t)) :
      CbSegment type tr (.cbEnter type tr func data current :: evs ++ [.cbLeave type tr result])

/-- The machine between two callbacks of a transition. -/
structure BetweenCbs (p q : Process W) (evs : List Event) : Prop where
  trace : q.trace = p.trace ++ evs
  cbDefer : q.mach.cbDefer = p.mach.cbDefer ++ evs.filterMap Event.requested
  inCb : q.mach.inCb = cbUnlocked
  locked : q.mach.locked = true

theorem BetweenCbs.trans {p q r : Process W} {evs₁ evs₂ : List Event} (h₁ : BetweenCbs p q evs₁)
    (h₂ : BetweenCbs q r evs₂) : BetweenCbs p r (evs₁ ++ evs₂) where
  trace := by rw [h₂.trace, h₁.trace, List.append_assoc]
  cbDefer := by rw [h₂.cbDefer, h₁.cbDefer, List.filterMap_append, List.append_assoc]
  inCb := h₂.inCb
  locked := h₂.locked

@[simp] theorem setWrapper_frame (p : Process W) (r : WrapperRef) (w : CbWrapper) :
    (p.setWrapper r w).mach = p.mach ∧ (p.setWrapper r w).trace = p.trace
      ∧ (p.setWrapper r w).world = p.world := by
  cases r <;> simp [Process.setWrapper]

/-- A process as a callback finds it: marked as running one. -/
def Process.entering (p : Process W) (wrp : WrapperRef) (type : CbType) (tr : Addr) : Process W :=
  let w := (miscCbCache p.mach (p.wrapper wrp)).1
  let p := p.setWrapper wrp w
  let p := p.setMach { p.mach with inCb := type.code }
  (p.log (.cbEnter type tr w.func w.data p.mach.currentState)).record
    (.invoked w.key w.data (hashFind p.mach.data w.key) p.mach.currentState)

/-- A process after a callback has returned. -/
def Process.leaving (p : Process W) (wrp : WrapperRef) (type : CbType) (tr : Addr) (result : ℤ) :
    Process W :=
  let p := p.setWrapper wrp { p.wrapper wrp with result := result }
  (p.setMach { p.mach with inCb := cbUnlocked }).log (.cbLeave type tr result)

@[simp] theorem entering_mach (p : Process W) (wrp : WrapperRef) (type : CbType) (tr : Addr) :
    (p.entering wrp type tr).mach = { p.mach with inCb := type.code } := by
  simp [Process.entering]

theorem entering_trace (p : Process W) (wrp : WrapperRef) (type : CbType) (tr : Addr) :
    (p.entering wrp type tr).trace = p.trace ++
      [.cbEnter type tr (miscCbCache p.mach (p.wrapper wrp)).1.func
        (miscCbCache p.mach (p.wrapper wrp)).1.data p.mach.currentState] := by
  simp [Process.entering]

@[simp] theorem leaving_mach (p : Process W) (wrp : WrapperRef) (type : CbType) (tr : Addr)
    (result : ℤ) : (p.leaving wrp type tr result).mach = { p.mach with inCb := cbUnlocked } := by
  simp [Process.leaving]

theorem leaving_trace (p : Process W) (wrp : WrapperRef) (type : CbType) (tr : Addr)
    (result : ℤ) :
    (p.leaving wrp type tr result).trace = p.trace ++ [.cbLeave type tr result] := by
  simp [Process.leaving]

/-- A callback that exists is run between `entering` and `leaving`. -/
theorem miscCbCall_eq (run : Process W → CStr → Process W × Option Bool) {p : Process W}
    {wrp : WrapperRef} (type : CbType) (tr : Addr) (hf : (p.wrapper wrp).func ≠ 0) :
    miscCbCall env run p wrp type tr =
      match runProg env run (env.callback (miscCbCache p.mach (p.wrapper wrp)).1.func
        (miscCbCache p.mach (p.wrapper wrp)).1.data type tr (p.entering wrp type tr))
        (p.entering wrp type tr) with
      | (q, none) => (q, none)
      | (q, some result) => (q.leaving wrp type tr result, some ()) := by
  unfold miscCbCall
  rw [if_neg hf]
  rfl

theorem CbType.code_ne (type : CbType) : type.code ≠ cbUnlocked := by cases type <;> decide

theorem miscCbCall_between {p : Process W} (hl : p.mach.locked = true)
    (hc : p.mach.inCb = cbUnlocked) (fuel : ℕ) (wrp : WrapperRef) (type : CbType) (tr : Addr) :
    ∃ q evs, miscCbCall env (machineTransitionDo env fuel) p wrp type tr = (q, some ())
      ∧ BetweenCbs p q evs ∧ CbSegment env type tr evs := by
  by_cases hf : (p.wrapper wrp).func = 0
  · refine ⟨p, [], ?_, ⟨by simp, by simp, hc, hl⟩, .absent⟩
    unfold miscCbCall
    rw [if_pos hf]
  obtain ⟨q, result, evs, hq, hd⟩ := runProg_defers env fuel
    (env.callback (miscCbCache p.mach (p.wrapper wrp)).1.func
      (miscCbCache p.mach (p.wrapper wrp)).1.data type tr (p.entering wrp type tr))
    (p := p.entering wrp type tr) (by simpa using hl) (by simpa using type.code_ne)
  rw [miscCbCall_eq env _ type tr hf, hq]
  refine ⟨_, _, rfl, ⟨?_, ?_, ?_, ?_⟩, .called (miscCbCache p.mach (p.wrapper wrp)).1.func
    (miscCbCache p.mach (p.wrapper wrp)).1.data p.mach.currentState result hd.requests⟩
  · simp [leaving_trace, hd.trace, entering_trace]
  · simp [hd.cbDefer, Event.requested, List.filterMap_append, List.filterMap_cons]
  · simp
  · simp [hd.locked]

/-- The events of one attempt and what its callbacks request: it fails, or it runs its three
callbacks one after the other. -/
inductive AttemptBlock : CStr → List Event → List CStr → Prop
  | failed {t : CStr} {evs : List Event} (w : W)
      (silent : ∀ e ∈ evs, (∃ fmt, e = .log fmt) ∨ ∃ arg msg, e = .errorCb arg msg) :
      AttemptBlock t (.attempt t (env.deref w t) :: evs) []
  | fired {t : CStr} {evs₁ evs₂ evs₃ : List Event} (w : W) (tr : Addr)
      (exiter : CbSegment env .exiter tr evs₁) (cb : CbSegment env .transition tr evs₂)
      (enterer : CbSegment env .enterer tr evs₃) :
      AttemptBlock t (.attempt t (env.deref w t) :: (evs₁ ++ evs₂ ++ evs₃))
        ((evs₁ ++ evs₂ ++ evs₃).filterMap Event.requested)

theorem fire_between {p : Process W} (hl : p.mach.locked = true) (hc : p.mach.inCb = cbUnlocked)
    (fuel : ℕ) (tr : Addr) :
    ∃ q evs₁ evs₂ evs₃, fire env (machineTransitionDo env fuel) p tr = (q, some ())
      ∧ BetweenCbs p q (evs₁ ++ evs₂ ++ evs₃) ∧ CbSegment env .exiter tr evs₁
      ∧ CbSegment env .transition tr evs₂ ∧ CbSegment env .enterer tr evs₃ := by
  obtain ⟨p₀, hp₀⟩ : ∃ p₀, p₀ = p.setMach { p.mach with currentTransition := tr } := ⟨_, rfl⟩
  have h₀ : BetweenCbs p p₀ [] := by constructor <;> simp [hp₀, hl, hc]
  obtain ⟨p₁, evs₁, hrun₁, h₁, hseg₁⟩ := miscCbCall_between env (p := p₀) h₀.locked h₀.inCb fuel
    (.exiter (p₀.transition tr).fromState) .exiter tr
  obtain ⟨p₂, evs₂, hrun₂, h₂, hseg₂⟩ := miscCbCall_between env (p := p₁) h₁.locked h₁.inCb fuel
    (.cb tr) .transition tr
  obtain ⟨p₃, hp₃⟩ : ∃ p₃, p₃ = (p₂.setMach
      { p₂.mach with currentState := (p₂.transition tr).toState }).record (.moved tr) := ⟨_, rfl⟩
  have h₃ : BetweenCbs p₂ p₃ [] := by constructor <;> simp [hp₃, h₂.locked, h₂.inCb]
  obtain ⟨p₄, evs₃, hrun₄, h₄, hseg₃⟩ := miscCbCall_between env (p := p₃) h₃.locked h₃.inCb fuel
    (.enterer (p₃.transition tr).toState) .enterer tr
  refine ⟨p₄, evs₁, evs₂, evs₃, ?_, ?_, hseg₁, hseg₂, hseg₃⟩
  · unfold fire
    simp only [← hp₀, stateCbCall, hrun₁, hrun₂, ← hp₃, hrun₄]
  · simpa using (((h₀.trans h₁).trans h₂).trans h₃).trans h₄

theorem transitionFail_silent (hs : ErrorSilent env) {p : Process W} (hi : Idle p) (fuel : ℕ)
    (t : CStr) (shr : Stringshare) (msg : List Char) :
    ∃ q evs, transitionFail env (machineTransitionDo env fuel) p t shr msg = (q, some false)
      ∧ q.trace = p.trace ++ evs ∧ (∀ e ∈ evs, ∃ arg msg, e = .errorCb arg msg) ∧ Idle q := by
  unfold transitionFail
  by_cases he : p.mach.errorCb = 0
  · exact ⟨_, [], if_pos he, by simp, by simp, ⟨hi.locked, hi.inCb, hi.cbDefer⟩⟩
  · obtain ⟨w, result, hw⟩ := hs (p.log (.errorCb t msg)).mach.errorCb t msg (p.log (.errorCb t msg))
    have hrun : runProg env (machineTransitionDo env fuel)
        (env.errorCallback (p.log (.errorCb t msg)).mach.errorCb t msg (p.log (.errorCb t msg)))
        (p.log (.errorCb t msg)) = ((p.log (.errorCb t msg)).setWorld w, some result) := by
      rw [hw]
      rfl
    refine ⟨((p.log (.errorCb t msg)).setWorld w).unshare shr, [.errorCb t msg],
      by rw [if_neg he]; simp only [hrun], by simp, ?_, ?_⟩
    · intro e hmem
      exact ⟨t, msg, List.mem_singleton.1 hmem⟩
    · exact ⟨hi.locked, hi.inCb, hi.cbDefer⟩

/-- A run that ends has worked the agenda off; one that ran out of fuel has issued a request for
each level of it. -/
def RunSpec (fuel : ℕ) (p : Process W) (agenda : List CStr) (q : Process W) (finished : Bool) :
    Prop :=
  ∃ evs, q.trace = p.trace ++ evs ∧
    if finished then Agenda (AttemptBlock env) agenda evs ∧ Idle q
    else fuel ≤ (evs.filterMap Event.requested).length

theorem drain_spec {fuel : ℕ}
    (hdo : ∀ (p : Process W) (t : CStr), Idle p → t ≠ 0 →
      RunSpec env fuel p [t] (machineTransitionDo env fuel p t).1
        (machineTransitionDo env fuel p t).2.isSome) :
    ∀ (deferred : List CStr) (p : Process W), Idle p → (∀ t ∈ deferred, t ≠ 0) →
      RunSpec env fuel p deferred (drain (machineTransitionDo env fuel) deferred p).1
        (drain (machineTransitionDo env fuel) deferred p).2.isSome
  | [], p, hi, _ => ⟨[], by simp [drain], by simpa [drain] using ⟨.nil, hi⟩⟩
  | t :: deferred, p, hi, hne => by
    obtain ⟨evs₁, ht₁, h₁⟩ := hdo p t hi (hne t List.mem_cons_self)
    rcases hr : machineTransitionDo env fuel p t with ⟨q, _ | b⟩ <;> rw [hr] at ht₁ h₁
    · refine ⟨evs₁, by simpa [drain, hr] using ht₁, by simpa [drain, hr] using h₁⟩
    · simp only [Option.isSome_some, if_true] at h₁
      obtain ⟨hag, hiq⟩ := h₁
      obtain ⟨evs₂, ht₂, h₂⟩ := drain_spec hdo deferred q hiq
        (fun t' ht' => hne t' (List.mem_cons_of_mem _ ht'))
      have hd : drain (machineTransitionDo env fuel) (t :: deferred) p
          = drain (machineTransitionDo env fuel) deferred q := by simp [drain, hr]
      rw [hd]
      refine ⟨evs₁ ++ evs₂, by rw [ht₂, ht₁, List.append_assoc], ?_⟩
      split_ifs at h₂ ⊢ with hb
      · obtain ⟨hag₂, hi₂⟩ := h₂
        refine ⟨?_, hi₂⟩
        cases hag with
        | cons hblock hnew hnil =>
          cases hnil
          simpa using Agenda.cons hblock hnew hag₂
      · rw [List.filterMap_append, List.length_append]
        omega

theorem requested_some {e : Event} {t : CStr} (h : e.requested = some t) :
    ∃ name, e = .request t name := by
  cases e with
  | request u name =>
    obtain rfl := Option.some.inj h
    exact ⟨name, rfl⟩
  | _ => cases h

/-- A request is one for what its argument points to. -/
theorem CbSegment.request {type : CbType} {tr : Addr} {evs : List Event}
    (h : CbSegment env type tr evs) :
    ∀ e ∈ evs, ∀ u name, e = .request u name → u ≠ 0 ∧ ∃ w, name = env.deref w u := by
  cases h with
  | absent => simp
  | called func data current result hreq =>
    rintro e he u name rfl
    simp only [List.cons_append, List.mem_cons, List.mem_append, List.not_mem_nil, or_false,
      reduceCtorEq, false_or] at he
    obtain ⟨t, w, hne, heq⟩ := hreq _ he
    obtain ⟨rfl, rfl⟩ := Event.request.inj heq
    exact ⟨hne, w, rfl⟩

theorem CbSegment.requested_ne {type : CbType} {tr : Addr} {evs : List Event}
    (h : CbSegment env type tr evs) : ∀ t ∈ evs.filterMap Event.requested, t ≠ 0 := by
  intro t ht
  obtain ⟨e, he, hreq⟩ := List.mem_filterMap.1 ht
  obtain ⟨name, rfl⟩ := requested_some hreq
  exact (h.request env _ he t name rfl).1

theorem transitionRun_spec (hs : ErrorSilent env) {fuel : ℕ}
    (hdo : ∀ (p : Process W) (t : CStr), Idle p → t ≠ 0 →
      RunSpec env fuel p [t] (machineTransitionDo env fuel p t).1
        (machineTransitionDo env fuel p t).2.isSome)
    {p : Process W} {t : CStr} (hi : Idle p) :
    RunSpec env (fuel + 1) p [t] (transitionRun env (machineTransitionDo env fuel) p t).1
      (transitionRun env (machineTransitionDo env fuel) p t).2.isSome := by
  obtain ⟨p₁, hp₁⟩ : ∃ p₁, p₁ = (p.log (.attempt t (env.deref p.world t))).share
      (env.deref p.world t) := ⟨_, rfl⟩
  have hi₁ : Idle p₁ := by rw [hp₁]; exact ⟨hi.locked, hi.inCb, hi.cbDefer⟩
  have ht₁ : p₁.trace = p.trace ++ [.attempt t (env.deref p.world t)] := by simp [hp₁]
  -- Both failures log a message and go on past the label `fail`.
  have hfail : ∀ msg, RunSpec env (fuel + 1) p [t]
      (transitionFail env (machineTransitionDo env fuel) (p₁.log (.log msg)) t
        (env.deref p.world t) msg).1
      (transitionFail env (machineTransitionDo env fuel) (p₁.log (.log msg)) t
        (env.deref p.world t) msg).2.isSome := by
    intro msg
    obtain ⟨q, evs, hq, htr, hev, hiq⟩ := transitionFail_silent env hs
      (p := p₁.log (.log msg)) ⟨hi₁.locked, hi₁.inCb, hi₁.cbDefer⟩ fuel t (env.deref p.world t) msg
    rw [hq]
    refine ⟨.attempt t (env.deref p.world t) :: .log msg :: evs, by simp [htr, ht₁], ?_⟩
    simp only [Option.isSome_some, if_true]
    refine ⟨?_, hiq⟩
    have hblock : AttemptBlock env t (.attempt t (env.deref p.world t) :: .log msg :: evs) [] := by
      refine .failed _ fun e he => ?_
      rcases List.mem_cons.1 he with rfl | he
      · exact .inl ⟨_, rfl⟩
      · exact .inr (hev e he)
    simpa using Agenda.cons hblock .nil .nil
  unfold transitionRun
  simp only [← hp₁]
  split
  · exact hfail _
  rename_i tr _
  split_ifs with hfrom
  · exact hfail _
  obtain ⟨p₂, evs₁, evs₂, evs₃, hfire, hb, hseg₁, hseg₂, hseg₃⟩ :=
    fire_between env hi₁.locked hi₁.inCb fuel tr
  rw [hfire]
  simp only []
  have hdefer : p₂.mach.cbDefer = (evs₁ ++ evs₂ ++ evs₃).filterMap Event.requested := by
    rw [hb.cbDefer, hi₁.cbDefer, List.nil_append]
  obtain ⟨p₃, hp₃⟩ : ∃ p₃, p₃ = (p₂.unshare (env.deref p.world t)).setMach
      { (p₂.unshare (env.deref p.world t)).mach with cbDefer := [] } := ⟨_, rfl⟩
  have hi₃ : Idle p₃ := by rw [hp₃]; exact ⟨hb.locked, hb.inCb, rfl⟩
  have ht₃ : p₃.trace = p.trace ++ .attempt t (env.deref p.world t) :: (evs₁ ++ evs₂ ++ evs₃) := by
    rw [hp₃]
    simp [hb.trace, ht₁]
  have hne : ∀ t' ∈ (evs₁ ++ evs₂ ++ evs₃).filterMap Event.requested, t' ≠ 0 := by
    intro t' ht'
    simp only [List.filterMap_append, List.mem_append] at ht'
    rcases ht' with (h | h) | h
    · exact hseg₁.requested_ne env t' h
    · exact hseg₂.requested_ne env t' h
    · exact hseg₃.requested_ne env t' h
  obtain ⟨evs, htd, hd⟩ := drain_spec env hdo _ p₃ hi₃ hne
  have hdef : (p₂.unshare (env.deref p.world t)).mach.cbDefer
      = (evs₁ ++ evs₂ ++ evs₃).filterMap Event.requested := hdefer
  rw [hdef, ← hp₃]
  have hblock : AttemptBlock env t (.attempt t (env.deref p.world t) :: (evs₁ ++ evs₂ ++ evs₃))
      ((evs₁ ++ evs₂ ++ evs₃).filterMap Event.requested) := .fired _ tr hseg₁ hseg₂ hseg₃
  rcases hr : drain (machineTransitionDo env fuel)
      ((evs₁ ++ evs₂ ++ evs₃).filterMap Event.requested) p₃ with ⟨q, _ | u⟩ <;>
    rw [hr] at htd hd <;> replace htd : q.trace = p₃.trace ++ evs := htd
  · refine ⟨.attempt t (env.deref p.world t) :: (evs₁ ++ evs₂ ++ evs₃) ++ evs, ?_, ?_⟩
    · simp [htd, ht₃]
    · -- The queue was not empty, or nothing would have been called again.
      have hpos : 0 < ((evs₁ ++ evs₂ ++ evs₃).filterMap Event.requested).length := by
        rcases hq : (evs₁ ++ evs₂ ++ evs₃).filterMap Event.requested with _ | ⟨t', ts⟩
        · rw [hq] at hr
          simp [drain] at hr
        · simp
      simp only [Option.isSome_none, Bool.false_eq_true, if_false] at hd ⊢
      rw [List.filterMap_append, List.length_append, List.filterMap_cons]
      simp only [Event.requested]
      omega
  · refine ⟨.attempt t (env.deref p.world t) :: (evs₁ ++ evs₂ ++ evs₃) ++ evs, ?_, ?_⟩
    · simp [htd, ht₃]
    · simp only [Option.isSome_some, if_true] at hd ⊢
      refine ⟨?_, hd.2⟩
      simpa using Agenda.cons hblock hd.1 .nil

theorem transitionDo_spec (hs : ErrorSilent env) :
    ∀ (fuel : ℕ) (p : Process W) (t : CStr), Idle p → t ≠ 0 →
      RunSpec env fuel p [t] (machineTransitionDo env fuel p t).1
        (machineTransitionDo env fuel p t).2.isSome
  | 0, p, t, hi, ht => by
    have hrun : machineTransitionDo env 0 p t = (p, none) := by
      simp [machineTransitionDo, transitionEnter, ht, hi.locked, hi.inCb]
    rw [hrun]
    exact ⟨[], by simp, by simp⟩
  | fuel + 1, p, t, hi, ht => by
    have hrun : machineTransitionDo env (fuel + 1) p t
        = transitionRun env (machineTransitionDo env fuel) p t := by
      simp [machineTransitionDo, transitionEnter, ht, hi.locked, hi.inCb]
    rw [hrun]
    exact transitionRun_spec env hs (transitionDo_spec hs fuel) hi

/-! ## Reading a run -/

/-- The callbacks run one at a time: none starts, and no transition is looked up, while one
runs. -/
def flatStep (running : Bool) : Event → Option Bool
  | .attempt _ _ => if running then none else some false
  | .request _ _ => if running then some true else none
  | .cbEnter _ _ _ _ _ => if running then none else some true
  | .cbLeave _ _ _ => if running then some false else none
  | _ => some running

theorem CbSegment.flat {type : CbType} {tr : Addr} {evs : List Event}
    (h : CbSegment env type tr evs) : evs.foldlM flatStep false = some false := by
  cases h with
  | absent => rfl
  | @called evs func data current result hreq =>
    have hin : evs.foldlM flatStep true = some true := by
      clear * - hreq
      induction evs with
      | nil => rfl
      | cons e evs ih =>
        obtain ⟨t, w, -, rfl⟩ := hreq e List.mem_cons_self
        simpa [flatStep] using ih fun e he => hreq e (List.mem_cons_of_mem _ he)
    simp [List.foldlM_append, flatStep, hin]

theorem AttemptBlock.flat {t : CStr} {own : List Event} {new : List CStr}
    (h : AttemptBlock env t own new) : own.foldlM flatStep false = some false := by
  cases h with
  | @failed evs w hsilent =>
    have hin : evs.foldlM flatStep false = some false := by
      clear * - hsilent
      induction evs with
      | nil => rfl
      | cons e evs ih =>
        have ih := ih fun e he => hsilent e (List.mem_cons_of_mem _ he)
        rcases hsilent e List.mem_cons_self with ⟨fmt, rfl⟩ | ⟨arg, msg, rfl⟩ <;>
          simpa [flatStep] using ih
    simp [flatStep, hin]
  | fired w tr h₁ h₂ h₃ => simp [List.foldlM_append, flatStep, h₁.flat, h₂.flat, h₃.flat]

def Event.attemptedName : Event → Option Stringshare
  | .attempt _ name => some name
  | _ => none

def Event.requestedName : Event → Option Stringshare
  | .request _ name => some name
  | _ => none

/-- No name is looked up while the callbacks of a transition run. -/
theorem CbSegment.attemptedName {type : CbType} {tr : Addr} {evs : List Event}
    (h : CbSegment env type tr evs) : ∀ e ∈ evs, e.attemptedName = none := by
  cases h with
  | absent => simp
  | called func data current result hreq =>
    intro e he
    simp only [List.cons_append, List.mem_cons, List.mem_append, List.not_mem_nil, or_false] at he
    rcases he with rfl | he | rfl
    · rfl
    · obtain ⟨t, w, -, rfl⟩ := hreq e he
      rfl
    · rfl

/-- An outermost call whose callbacks issue finitely many requests ends. Its run is the agenda of
the outer transition: each request is worked off exactly once, depth first, in the order asked,
whatever the others return, and the callbacks of two transitions never nest. A request is known here
by the `char const *` it was made with. -/
theorem transitionDo_agenda (hs : ErrorSilent env) {p : Process W} {t : CStr} (hi : Idle p)
    (ht : t ≠ 0)
    (hfin : ∃ n, ∀ fuel,
      ((since p (machineTransitionDo env fuel p t).1).filterMap Event.requested).length ≤ n) :
    ∃ q b evs, (∃ n, ∀ fuel ≥ n, machineTransitionDo env fuel p t = (q, some b))
      ∧ q.trace = p.trace ++ evs
      ∧ Agenda (AttemptBlock env) [t] evs
      ∧ evs.foldlM flatStep false = some false
      ∧ Idle q := by
  obtain ⟨n, hn⟩ := hfin
  obtain ⟨evs, htr, hev⟩ := transitionDo_spec env hs (n + 1) p t hi ht
  have hlen := hn (n + 1)
  rcases hr : machineTransitionDo env (n + 1) p t with ⟨q, _ | b⟩ <;> rw [hr] at htr hev hlen <;>
    replace htr : q.trace = p.trace ++ evs := htr
  · simp only [since, htr, List.drop_left] at hlen
    simp only [Option.isSome_none, Bool.false_eq_true, if_false] at hev
    omega
  · simp only [Option.isSome_some, if_true] at hev
    obtain ⟨hag, hiq⟩ := hev
    exact ⟨q, b, evs, ⟨n + 1, fun fuel hf => machineTransitionDo_mono env hf _ _ _ _ hr⟩, htr, hag,
      hag.foldlM_eq fun _ _ _ h => h.flat, hiq⟩

/-- A call that ends has issued finitely many requests, whatever the fuel. -/
theorem finite_requests {n : ℕ} {p q : Process W} {t : CStr} {b : Bool}
    (h : machineTransitionDo env n p t = (q, some b)) : ∃ m, ∀ fuel,
      ((since p (machineTransitionDo env fuel p t).1).filterMap Event.requested).length ≤ m := by
  refine ⟨(Finset.range (n + 1)).sup fun fuel =>
    ((since p (machineTransitionDo env fuel p t).1).filterMap Event.requested).length,
    fun fuel => ?_⟩
  have hle : ∀ k ≤ n, _ := fun k hk => Finset.le_sup (f := fun fuel =>
    ((since p (machineTransitionDo env fuel p t).1).filterMap Event.requested).length)
    (Finset.mem_range.2 (Nat.lt_succ_of_le hk))
  rcases le_total fuel n with hfuel | hfuel
  · exact hle fuel hfuel
  · rw [machineTransitionDo_mono env hfuel _ _ _ _ h, ← h]
    exact hle n le_rfl

end Callbacks

/-! ## A machine that forwards -/

/-- Two states joined by `a` and `b`; entering the second one asks for `b`. -/
def forwarding : Env Unit where
  addr s := if s = ['a'] then 1 else 2
  deref _ t := if t = 20 then ['a'] else ['b']
  hashAdds _ := true
  callback func _ _ _ _ :=
    if func = 7 then .call () (.transitionDo 21) fun _ _ => .ret () cbOk else .ret () cbOk
  errorCallback _ _ _ _ := .ret () 0

def forwardingProcess : Process Unit where
  mach :=
    { mempool := ⟨0, 0, 0, 0, 2, 2⟩
      currentState := 1
      currentTransition := 0
      errorCb := 0
      data := ∅
      cbDefer := []
      globalData := 0
      statesCount := 2
      transitCount := 2
      inCb := cbUnlocked
      locked := true }
  state a :=
    if a = 1 then { name := some ['x'], transit := [3], transitCount := 1 }
    else if a = 2 then
      { name := some ['y'], transit := [4], transitCount := 1, enterer := { func := 7 } }
    else {}
  transition a :=
    if a = 3 then { name := some ['a'], fromState := 1, toState := 2 }
    else if a = 4 then { name := some ['b'], fromState := 2, toState := 1 }
    else {}
  shares _ := 0
  world := ()
  trace := []

end Estate
