import Estate.Proofs.Runs

/-!
# The name of a deferred transition

A callback that asks for a transition hands over a `char const *`. Outside a callback the string is
read at once; a deferred one is kept as the pointer it came as and read when it is drained, after
the callback has gone on, the other callbacks have run and the requests before it have been done.
-/

namespace Estate

variable {W : Type}

/-- What a callback asks for: the argument, and the string behind it at that moment. -/
def Event.asked : Event → Option (CStr × Stringshare)
  | .request t name => some (t, name)
  | _ => none

/-- The calls that work a queue off. -/
def drainCalls (transitionDo : Process W → CStr → Process W × Option Bool) :
    List CStr → Process W → List (Process W × CStr)
  | [], _ => []
  | t :: deferred, p =>
    (p, t) ::
      match transitionDo p t with
      | (_, none) => []
      | (p, some _) => drainCalls transitionDo deferred p

section Calls

variable (env : Env W)

/-- The process before and the one behind the callbacks of the transition that a call performs, if
it performs one. -/
def performed (transitionDo : Process W → CStr → Process W × Option Bool) (p : Process W)
    (t : CStr) : Option (Process W × Process W) :=
  let shr := env.deref p.world t
  let p := (p.log (.attempt t shr)).share shr
  match findTransition env p shr with
  | none => none
  | some tr =>
    if (p.transition tr).fromState ≠ p.mach.currentState then none
    else
      match fire env transitionDo p tr with
      | (_, none) => none
      | (q, some ()) => some (p, q.unshare shr)

/-- What the callbacks of the transition that a call performs ask for. -/
def askedFor (transitionDo : Process W → CStr → Process W × Option Bool) (p : Process W) (t : CStr) :
    List (CStr × Stringshare) :=
  match performed env transitionDo p t with
  | none => []
  | some (p, q) => (since p q).filterMap Event.asked

/-- The calls that work off what they asked for. -/
def drained (transitionDo : Process W → CStr → Process W × Option Bool) (p : Process W) (t : CStr) :
    List (Process W × CStr) :=
  match performed env transitionDo p t with
  | none => []
  | some (_, q) => drainCalls transitionDo q.mach.cbDefer (q.setMach { q.mach with cbDefer := [] })

/-- The first thing a call does is to look a name up. -/
def Attempts (p : Process W) (t : CStr) (name : Stringshare) : Prop :=
  ∀ fuel, (since p (machineTransitionDo env (fuel + 1) p t).1).head? = some (.attempt t name)

/-- A call made within another one, to work off what callbacks have asked for. -/
inductive Within : ℕ → Process W → CStr → ℕ → Process W → CStr → Prop
  | here {fuel : ℕ} {p : Process W} {t : CStr} : Within fuel p t fuel p t
  | drained {fuel fuel' : ℕ} {p s s' : Process W} {t u u' : CStr} :
      (s, u) ∈ drained env (machineTransitionDo env fuel) p t → Within fuel s u fuel' s' u' →
      Within (fuel + 1) p t fuel' s' u'

/-- Wherever a request is drained in a call, the name attempted is the one it was made with. -/
def DeferralKeeps (fuel : ℕ) (p : Process W) (t : CStr) : Prop :=
  ∀ {n : ℕ} {s : Process W} {u : CStr}, Within env fuel p t (n + 1) s u →
    ∀ {i : ℕ} {s' : Process W} {u' : CStr},
      (drained env (machineTransitionDo env n) s u)[i]? = some (s', u') →
      ∃ name, (askedFor env (machineTransitionDo env n) s u)[i]? = some (u', name) ∧
        Attempts env s' u' name

/-- Wherever a request is about to be drained in a call, its buffer holds what it held when the
request was made. -/
def BuffersKept (fuel : ℕ) (p : Process W) (t : CStr) : Prop :=
  ∀ {n : ℕ} {s : Process W} {u : CStr}, Within env fuel p t (n + 1) s u →
    ∀ {i : ℕ} {s' : Process W} {u' : CStr} {name : Stringshare},
      (drained env (machineTransitionDo env n) s u)[i]? = some (s', u') →
      (askedFor env (machineTransitionDo env n) s u)[i]? = some (u', name) →
      env.deref s'.world u' = name

end Calls

section Idle

variable (env : Env W)

theorem shape_preserves : Preserves env SameShape where
  refl _ := .of_eq rfl rfl
  trans := SameShape.trans
  world _ _ := .of_eq rfl rfl
  log _ _ _ := .of_eq rfl rfl
  call := by
    intro p q run c b hc hcall
    obtain ⟨-, -, -, -, hs, ht⟩ := (apiCall_step env hc hcall).frame
    exact .of_eq hs ht
  defer _ _ := .of_eq rfl rfl
  bracket := by
    intro p q s h
    exact ((SameShape.of_eq (p := p) (q := p.share s) rfl rfl).trans h).trans (.of_eq rfl rfl)

theorem shape_fires : Fires env SameShape :=
  .of_pieces (shape_preserves env)
    { chosen := fun _ _ => .of_eq rfl rfl
      entering := entering_shape
      leaving := leaving_shape
      moved := fun _ _ => .of_eq rfl rfl }

variable {env} {p q : Process W}

theorem drain_idle {run : Process W → CStr → Process W × Option Bool} (hr : Keeps run) :
    ∀ {deferred : List CStr} {p q : Process W}, Idle p → drain run deferred p = (q, some ()) →
      Idle q
  | [], p, q, hi, h => (Prod.mk.inj h).1 ▸ hi
  | t :: deferred, p, q, hi, h => by
    simp only [drain] at h
    rcases hrun : run p t with ⟨p', _ | b⟩ <;> rw [hrun] at h
    · simp at h
    · exact drain_idle hr (hr _ _ _ _ hi hrun).1 h

theorem performed_some {run : Process W → CStr → Process W × Option Bool} {p p₁ p₂ : Process W}
    {t : CStr} (h : performed env run p t = some (p₁, p₂)) :
    ∃ tr q, p₁ = (p.log (.attempt t (env.deref p.world t))).share (env.deref p.world t) ∧
      findTransition env p₁ (env.deref p.world t) = some tr ∧
      ¬ (p₁.transition tr).fromState ≠ p₁.mach.currentState ∧
      fire env run p₁ tr = (q, some ()) ∧ p₂ = q.unshare (env.deref p.world t) := by
  unfold performed at h
  simp only [] at h
  split at h
  · cases h
  · rename_i tr hf
    by_cases hfrom : (p.transition tr).fromState ≠ p.mach.currentState
    · simp [hfrom] at h
    · rw [if_neg (by exact hfrom)] at h
      split at h
      · cases h
      · rename_i q hfire
        obtain ⟨rfl, rfl⟩ := Prod.mk.inj (Option.some.inj h)
        exact ⟨tr, q, rfl, hf, hfrom, hfire, rfl⟩

/-- Then the call works off the queue. -/
theorem transitionRun_of_performed {run : Process W → CStr → Process W × Option Bool}
    {p p₁ p₂ q : Process W} {t : CStr} {b : Bool} (h : performed env run p t = some (p₁, p₂))
    (hrun : transitionRun env run p t = (q, some b)) :
    drain run p₂.mach.cbDefer (p₂.setMach { p₂.mach with cbDefer := [] }) = (q, some ()) := by
  obtain ⟨tr, q', hp₁, hf, hfrom, hfire, rfl⟩ := performed_some h
  unfold transitionRun at hrun
  simp only [← hp₁, hf] at hrun
  rw [if_neg hfrom, hfire] at hrun
  rcases hd : drain run (q'.unshare (env.deref p.world t)).mach.cbDefer
    ((q'.unshare (env.deref p.world t)).setMach
      { (q'.unshare (env.deref p.world t)).mach with cbDefer := [] }) with ⟨r, _ | ⟨⟩⟩
  · simp only [hd] at hrun
    cases hrun
  · simp only [hd] at hrun
    rw [(Prod.mk.inj hrun).1]

/-- A call that ends without having performed a transition has failed. -/
theorem transitionRun_none {run : Process W → CStr → Process W × Option Bool} (hr : Keeps run)
    {p q : Process W} {t : CStr} {b : Bool} (hi : Idle p)
    (h : transitionRun env run p t = (q, some b)) (hnone : performed env run p t = none) :
    Idle q := by
  rcases transitionRun_cases hr hi h with ⟨-, hiq, -⟩ | ⟨tr, hf, hfrom⟩
  · exact hiq
  · exfalso
    have hfrom' : ¬ (p.transition tr).fromState ≠ p.mach.currentState := not_not.2 hfrom
    unfold performed at hnone
    unfold transitionRun at h
    simp only [findTransition_log_share, hf] at hnone h
    rw [if_neg (by exact hfrom')] at hnone h
    rcases hfire : fire env run ((p.log (.attempt t (env.deref p.world t))).share
      (env.deref p.world t)) tr with ⟨q', _ | u⟩ <;> rw [hfire] at hnone h
    · simp at h
    · cases hnone

/-- What the callbacks of a transition leave in the trace and in the queue. -/
theorem performed_between {fuel : ℕ} {p p₁ p₂ : Process W} {t : CStr} (hi : Idle p)
    (h : performed env (machineTransitionDo env fuel) p t = some (p₁, p₂)) :
    ∃ tr evs₁ evs₂ evs₃, BetweenCbs p₁ p₂ (evs₁ ++ evs₂ ++ evs₃) ∧ p₁.mach.cbDefer = [] ∧
      CbSegment env .exiter tr evs₁ ∧ CbSegment env .transition tr evs₂ ∧
      CbSegment env .enterer tr evs₃ := by
  obtain ⟨tr, q, hp₁, -, -, hfire, rfl⟩ := performed_some h
  have hl : p₁.mach.locked = true := by rw [hp₁]; exact hi.locked
  have hc : p₁.mach.inCb = cbUnlocked := by rw [hp₁]; exact hi.inCb
  have hd : p₁.mach.cbDefer = [] := by rw [hp₁]; exact hi.cbDefer
  obtain ⟨q', evs₁, evs₂, evs₃, hfire', hb, hseg⟩ := fire_between env hl hc fuel tr
  obtain ⟨rfl, -⟩ := Prod.mk.inj (hfire.symm.trans hfire')
  exact ⟨tr, evs₁, evs₂, evs₃, ⟨hb.trace, hb.cbDefer, hb.inCb, hb.locked⟩, hd, hseg⟩

/-- While the callbacks of a transition run, no name is looked up, and a request is one for what its
argument points to. -/
theorem performed_events {fuel : ℕ} {p p₁ p₂ : Process W} {t : CStr} (hi : Idle p)
    (h : performed env (machineTransitionDo env fuel) p t = some (p₁, p₂)) :
    p₂.trace = p₁.trace ++ since p₁ p₂ ∧ ∀ e ∈ since p₁ p₂, e.attemptedName = none ∧
      ∀ u name, e = .request u name → u ≠ 0 ∧ ∃ w, name = env.deref w u := by
  obtain ⟨tr, evs₁, evs₂, evs₃, hb, -, hseg₁, hseg₂, hseg₃⟩ := performed_between hi h
  have hsince : since p₁ p₂ = evs₁ ++ evs₂ ++ evs₃ := by rw [since, hb.trace, List.drop_left]
  rw [hsince]
  refine ⟨hb.trace, fun e he => ?_⟩
  rcases List.mem_append.1 he with he | he
  · rcases List.mem_append.1 he with he | he
    · exact ⟨hseg₁.attemptedName env e he, hseg₁.request env e he⟩
    · exact ⟨hseg₂.attemptedName env e he, hseg₂.request env e he⟩
  · exact ⟨hseg₃.attemptedName env e he, hseg₃.request env e he⟩

/-- Behind the callbacks of a transition, the queue holds what they have asked for. -/
theorem performed_queue {fuel : ℕ} {p p₁ p₂ : Process W} {t : CStr} (hi : Idle p)
    (h : performed env (machineTransitionDo env fuel) p t = some (p₁, p₂)) :
    p₂.mach.cbDefer = (since p₁ p₂).filterMap Event.requested ∧
      (∀ u ∈ p₂.mach.cbDefer, u ≠ 0) ∧ Idle (p₂.setMach { p₂.mach with cbDefer := [] }) := by
  obtain ⟨tr, evs₁, evs₂, evs₃, hb, hd, -⟩ := performed_between hi h
  obtain ⟨htrace, hevents⟩ := performed_events hi h
  have hqueue : p₂.mach.cbDefer = (since p₁ p₂).filterMap Event.requested := by
    rw [hb.cbDefer, hd, List.nil_append, since, hb.trace, List.drop_left]
  refine ⟨hqueue, fun u hu => ?_, hb.locked, hb.inCb, rfl⟩
  rw [hqueue] at hu
  obtain ⟨e, he, hreq⟩ := List.mem_filterMap.1 hu
  obtain ⟨name, rfl⟩ := requested_some hreq
  exact ((hevents _ he).2 u name rfl).1

/-- Between two calls nothing is deferred, whatever the callbacks call. -/
theorem transitionDo_idle : ∀ fuel, Keeps (machineTransitionDo env fuel)
  | 0 => transitionEnter_keeps (by intro p q t b _ h; simp at h)
  | fuel + 1 => by
    have ih := transitionDo_idle fuel
    refine transitionEnter_keeps ?_
    intro p q t b hi h
    refine ⟨?_, (shape_preserves env).transitionRun (shape_fires env).found
      ((shape_preserves env).transitionDo (shape_fires env).found fuel) hi.locked hi.inCb h⟩
    rcases hperf : performed env (machineTransitionDo env fuel) p t with _ | ⟨p₁, p₂⟩
    · exact transitionRun_none ih hi h hperf
    · exact drain_idle ih (performed_queue hi hperf).2.2 (transitionRun_of_performed hperf h)

/-- Over any run of a locked machine, nothing is deferred between two calls. -/
theorem Run.idle {p q : Process W} (hi : Idle p) (h : Run env p q) : Idle q := by
  induction h with
  | start => exact hi
  | call _ hc ih => exact (apiCall_keeps (transitionDo_idle _) ih hc).1
  | world _ w ih => exact ⟨ih.locked, ih.inCb, ih.cbDefer⟩

end Idle

section Grows

variable (env : Env W) {run : Process W → CStr → Process W × Option Bool}

/-- Whether a call ends or not, it only adds to the trace. -/
def Grows (run : Process W → CStr → Process W × Option Bool) : Prop :=
  ∀ p t, p.trace <+: (run p t).1.trace

theorem apiCall_grows (hr : Grows run) (p : Process W) (c : Call) :
    p.trace <+: (apiCall env run p c).1.trace := by
  by_cases hdo : ∃ t, c = .transitionDo t
  · obtain ⟨t, rfl⟩ := hdo
    exact hr p t
  · obtain ⟨q, b, hq⟩ := apiCall_ends env run p fun t hc => hdo ⟨t, hc⟩
    rw [hq, (apiCall_step env (fun t hc => hdo ⟨t, hc⟩) hq).frame.1]

theorem runProg_grows (hr : Grows run) (prog : CbProg W) :
    ∀ p : Process W, p.trace <+: (runProg env run prog p).1.trace := by
  induction prog with
  | ret w result => exact fun p => List.prefix_refl _
  | call w c k ih =>
    intro p
    have hcall := apiCall_grows env hr (p.setWorld w) c
    simp only [runProg]
    rcases hc : apiCall env run (p.setWorld w) c with ⟨q, _ | b⟩ <;> rw [hc] at hcall
    · exact hcall
    · exact hcall.trans (ih q b q)

theorem miscCbCall_grows (hr : Grows run) (p : Process W) (wrp : WrapperRef) (type : CbType)
    (tr : Addr) : p.trace <+: (miscCbCall env run p wrp type tr).1.trace := by
  by_cases hf : (p.wrapper wrp).func = 0
  · rw [miscCbCall, if_pos hf]
  · rw [miscCbCall_eq env run type tr hf]
    have hprog := runProg_grows env hr
      (env.callback (miscCbCache p.mach (p.wrapper wrp)).1.func
        (miscCbCache p.mach (p.wrapper wrp)).1.data type tr (p.entering wrp type tr))
      (p.entering wrp type tr)
    have hentered : p.trace <+: (p.entering wrp type tr).trace := by
      rw [entering_trace]
      exact List.prefix_append _ _
    split <;> rename_i hq <;> rw [hq] at hprog
    · exact hentered.trans hprog
    · refine (hentered.trans hprog).trans ?_
      rw [leaving_trace]
      exact List.prefix_append _ _

theorem fire_grows (hr : Grows run) (p : Process W) (tr : Addr) :
    p.trace <+: (fire env run p tr).1.trace := by
  unfold fire
  simp only [stateCbCall]
  have h₁ := miscCbCall_grows env hr
    (p.setMach { p.mach with currentTransition := tr })
    (.exiter ((p.setMach { p.mach with currentTransition := tr }).transition tr).fromState)
    .exiter tr
  split <;> rename_i p₁ hq₁ <;> rw [hq₁] at h₁
  · exact h₁
  · have h₂ := miscCbCall_grows env hr p₁ (.cb tr) .transition tr
    split <;> rename_i p₂ hq₂ <;> rw [hq₂] at h₂
    · exact h₁.trans h₂
    · obtain ⟨p₃, hp₃⟩ : ∃ p₃, p₃ = (p₂.setMach
        { p₂.mach with currentState := (p₂.transition tr).toState }).record (.moved tr) := ⟨_, rfl⟩
      have h₃ : p₂.trace = p₃.trace := by rw [hp₃]; rfl
      rw [← hp₃]
      exact ((h₁.trans h₂).trans (by rw [h₃])).trans (miscCbCall_grows env hr p₃ _ _ _)

theorem drain_grows (hr : Grows run) : ∀ (deferred : List CStr) (p : Process W),
    p.trace <+: (drain run deferred p).1.trace
  | [], p => List.prefix_refl _
  | t :: deferred, p => by
    have h := hr p t
    simp only [drain]
    rcases hrun : run p t with ⟨q, _ | b⟩ <;> rw [hrun] at h
    · exact h
    · exact h.trans (drain_grows hr deferred q)

theorem transitionFail_grows (hr : Grows run) (p : Process W) (t : CStr) (shr : Stringshare)
    (msg : List Char) : p.trace <+: (transitionFail env run p t shr msg).1.trace := by
  unfold transitionFail
  split_ifs
  · exact List.prefix_refl _
  · have h := runProg_grows env hr
      (env.errorCallback (p.log (.errorCb t msg)).mach.errorCb t msg (p.log (.errorCb t msg)))
      (p.log (.errorCb t msg))
    have hlog : p.trace <+: (p.log (.errorCb t msg)).trace := List.prefix_append _ _
    simp only []
    split <;> rename_i hq <;> rw [hq] at h
    · exact hlog.trans h
    · exact hlog.trans h

/-- A call past its guards looks a name up first. -/
theorem transitionRun_grows (hr : Grows run) (p : Process W) (t : CStr) :
    p.trace ++ [.attempt t (env.deref p.world t)] <+: (transitionRun env run p t).1.trace := by
  obtain ⟨p₁, hp₁⟩ : ∃ p₁, p₁ = (p.log (.attempt t (env.deref p.world t))).share
      (env.deref p.world t) := ⟨_, rfl⟩
  have ht₁ : p₁.trace = p.trace ++ [.attempt t (env.deref p.world t)] := by rw [hp₁]; rfl
  rw [← ht₁]
  have hfail : ∀ msg, p₁.trace <+: (transitionFail env run (p₁.log (.log msg)) t
      (env.deref p.world t) msg).1.trace := fun msg =>
    (List.prefix_append p₁.trace [.log msg]).trans
      (transitionFail_grows env hr (p₁.log (.log msg)) t (env.deref p.world t) msg)
  unfold transitionRun
  simp only [← hp₁]
  split
  · exact hfail _
  · rename_i tr _
    split_ifs
    · exact hfail _
    · have hfire := fire_grows env hr p₁ tr
      split <;> rename_i q hq <;> rw [hq] at hfire
      · exact hfire
      · have hdrain := drain_grows hr (q.unshare (env.deref p.world t)).mach.cbDefer
          ((q.unshare (env.deref p.world t)).setMach
            { (q.unshare (env.deref p.world t)).mach with cbDefer := [] })
        split <;> rename_i hq' <;> rw [hq'] at hdrain
        · exact hfire.trans hdrain
        · exact hfire.trans hdrain

theorem transitionEnter_grows (hr : Grows run) : Grows (transitionEnter env run) := by
  intro p t
  unfold transitionEnter
  split_ifs
  · exact List.prefix_refl _
  · exact List.prefix_append _ _
  · exact List.prefix_append _ _
  · exact hr p t

theorem transitionDo_grows : ∀ fuel, Grows (machineTransitionDo env fuel)
  | 0 => transitionEnter_grows env fun _ _ => List.prefix_refl _
  | fuel + 1 => transitionEnter_grows env fun p t =>
      (List.prefix_append _ _).trans (transitionRun_grows env (transitionDo_grows fuel) p t)

end Grows

section Drained

variable {env : Env W} {p : Process W} {t : CStr}

theorem drainCalls_arg {run : Process W → CStr → Process W × Option Bool} :
    ∀ {deferred : List CStr} {p s : Process W} {u : CStr} {i : ℕ},
      (drainCalls run deferred p)[i]? = some (s, u) → deferred[i]? = some u
  | [], p, s, u, i, h => by simp [drainCalls] at h
  | t :: deferred, p, s, u, 0, h => by
    obtain ⟨-, rfl⟩ : p = s ∧ t = u := by simpa [drainCalls] using h
    rfl
  | t :: deferred, p, s, u, i + 1, h => by
    simp only [drainCalls, List.getElem?_cons_succ] at h ⊢
    split at h
    · simp at h
    · exact drainCalls_arg h

theorem drainCalls_idle {run : Process W → CStr → Process W × Option Bool} (hr : Keeps run) :
    ∀ {deferred : List CStr} {p s : Process W} {u : CStr}, Idle p →
      (s, u) ∈ drainCalls run deferred p → Idle s
  | [], p, s, u, _, h => by simp [drainCalls] at h
  | t :: deferred, p, s, u, hi, h => by
    rcases List.mem_cons.1 h with h | h
    · obtain ⟨rfl, -⟩ := Prod.mk.inj h
      exact hi
    · split at h
      · simp at h
      · rename_i p' b hrun
        exact drainCalls_idle hr (hr _ _ _ _ hi hrun).1 h

theorem asked_requested (evs : List Event) :
    (evs.filterMap Event.asked).map Prod.fst = evs.filterMap Event.requested := by
  rw [List.map_filterMap]
  refine List.filterMap_congr fun e _ => ?_
  cases e <;> rfl

/-- The calls that drain a queue take the requests in their order, each with its argument. -/
theorem asked_of_drained {fuel : ℕ} (hi : Idle p) {i : ℕ} {s : Process W} {u : CStr}
    (h : (drained env (machineTransitionDo env fuel) p t)[i]? = some (s, u)) :
    Idle s ∧ u ≠ 0 ∧ ∃ name, (askedFor env (machineTransitionDo env fuel) p t)[i]? =
      some (u, name) := by
  unfold drained at h
  unfold askedFor
  split at h
  · simp at h
  · rename_i p₁ p₂ hperf
    obtain ⟨hqueue, hne, hidle⟩ := performed_queue hi hperf
    have harg := drainCalls_arg h
    refine ⟨drainCalls_idle (transitionDo_idle fuel) hidle (List.mem_of_getElem? h),
      hne u (List.mem_of_getElem? harg), ?_⟩
    rw [hqueue, ← asked_requested, List.getElem?_map] at harg
    obtain ⟨⟨u', name⟩, hget, rfl⟩ := Option.map_eq_some_iff.1 harg
    exact ⟨name, hget⟩

/-- A call outside a callback reads its argument at once. -/
theorem attempts_iff (hi : Idle p) (ht : t ≠ 0) {name : Stringshare} :
    Attempts env p t name ↔ env.deref p.world t = name := by
  have hhead : ∀ fuel, (since p (machineTransitionDo env (fuel + 1) p t).1).head? =
      some (.attempt t (env.deref p.world t)) := by
    intro fuel
    have hdo : machineTransitionDo env (fuel + 1) p t =
        transitionRun env (machineTransitionDo env fuel) p t := transitionEnter_idle hi ht
    obtain ⟨evs, hevs⟩ := transitionRun_grows env (transitionDo_grows env fuel) p t
    rw [hdo, since, ← hevs, List.append_assoc, List.drop_left]
    rfl
  constructor
  · intro h
    have hname := (hhead 0).symm.trans (h 0)
    simpa using hname
  · rintro rfl
    exact hhead

theorem Within.idle {fuel fuel' : ℕ} {s : Process W} {u : CStr} (h : Within env fuel p t fuel' s u)
    (hi : Idle p) : Idle s := by
  induction h with
  | here => exact hi
  | drained hmem _ ih =>
    obtain ⟨i, hget⟩ := List.mem_iff_getElem?.1 hmem
    exact ih (asked_of_drained hi hget).1

/-- In any call of a run of a locked machine, whatever its callbacks do, every deferred request is
attempted under the name it was made with, as it would have been at once, exactly when every buffer
still holds that name then. -/
theorem deferral_keeps_iff {p₀ : Process W} (hi : Idle p₀) (hrun : Run env p₀ p) (fuel : ℕ) :
    DeferralKeeps env fuel p t ↔ BuffersKept env fuel p t := by
  have hp := hrun.idle hi
  constructor
  · intro h n s u hw i s' u' name hdrained hasked
    obtain ⟨hidle, hne, -⟩ := asked_of_drained (hw.idle hp) hdrained
    obtain ⟨name', hasked', hattempts⟩ := h hw hdrained
    obtain rfl : name' = name := by simpa using hasked'.symm.trans hasked
    exact (attempts_iff hidle hne).1 hattempts
  · intro h n s u hw i s' u' hdrained
    obtain ⟨hidle, hne, name, hasked⟩ := asked_of_drained (hw.idle hp) hdrained
    exact ⟨name, hasked, (attempts_iff hidle hne).2 (h hw hdrained hasked)⟩

end Drained

/-! ## A buffer that is used again -/

/-- As `forwarding`, with one buffer behind the argument 21: entering the second state asks for what
is written there, and writes `next` there before it returns. -/
def reusing (next : Stringshare) : Env Stringshare where
  addr s := if s = ['a'] then 1 else 2
  deref w t := if t = 20 then ['a'] else w
  hashAdds _ := true
  callback func _ _ _ _ :=
    if func = 7 then .call ['b'] (.transitionDo 21) fun _ _ => .ret next cbOk else .ret [] cbOk
  errorCallback _ _ _ _ := .ret [] 0

/-- The machine of `forwardingProcess`, with an empty buffer. -/
def bufferProcess : Process Stringshare :=
  { forwardingProcess with world := [] }

theorem bufferProcess_idle : Idle bufferProcess := ⟨rfl, rfl, rfl⟩

/-- What is asked for and where it is drained, when the buffer is written again in between. -/
theorem reusing_drained :
    askedFor (reusing ['a']) (machineTransitionDo (reusing ['a']) 1) bufferProcess 20 = [(21, ['b'])] ∧
      (drained (reusing ['a']) (machineTransitionDo (reusing ['a']) 1) bufferProcess 20).map
        (fun call => (call.1.world, call.2)) = [(['a'], 21)] := by decide

/-- A buffer that is written again before the callback returns: what is attempted is not what was
asked for. -/
theorem reused_not_kept : Idle bufferProcess ∧ Run (reusing ['a']) bufferProcess bufferProcess ∧
    ¬ DeferralKeeps (reusing ['a']) 2 bufferProcess 20 := by
  refine ⟨bufferProcess_idle, .start, fun hkeeps => ?_⟩
  obtain ⟨hasked, hdrained⟩ := reusing_drained
  obtain ⟨⟨s, u⟩, hs⟩ := List.map_eq_singleton_iff.1 hdrained
  obtain ⟨hworld, rfl⟩ : s.world = ['a'] ∧ u = 21 := by simpa using hs.2
  have hget : (drained (reusing ['a']) (machineTransitionDo (reusing ['a']) 1) bufferProcess
      20)[0]? = some (s, 21) := by rw [hs.1]; rfl
  obtain ⟨name, hname, hattempts⟩ := hkeeps .here hget
  rw [hasked] at hname
  obtain rfl : ['b'] = name := by simpa using hname
  obtain ⟨hidle, hne, -⟩ := asked_of_drained bufferProcess_idle hget
  have hderef := (attempts_iff hidle hne).1 hattempts
  rw [show (reusing ['a']).deref s.world 21 = s.world from rfl, hworld] at hderef
  exact absurd hderef (by decide)

/-- A buffer that is left alone. -/
theorem left_kept : DeferralKeeps (reusing ['b']) 1 bufferProcess 20 := by
  refine (deferral_keeps_iff bufferProcess_idle .start 1).2 ?_
  have hasked : askedFor (reusing ['b']) (machineTransitionDo (reusing ['b']) 0) bufferProcess 20 =
      [(21, ['b'])] := by decide
  have hdrained : (drained (reusing ['b']) (machineTransitionDo (reusing ['b']) 0) bufferProcess
      20).map (fun call => (call.1.world, call.2)) = [(['b'], 21)] := by decide
  intro n s u hw i s' u' name hget hname
  cases hw with
  | here =>
    obtain ⟨⟨s₀, u₀⟩, hs⟩ := List.map_eq_singleton_iff.1 hdrained
    obtain ⟨hworld, -⟩ : s₀.world = ['b'] ∧ u₀ = 21 := by simpa using hs.2
    rw [hs.1, List.getElem?_singleton] at hget
    rw [hasked, List.getElem?_singleton] at hname
    split_ifs at hget hname
    obtain ⟨rfl, rfl⟩ := Prod.mk.inj (Option.some.inj hget)
    obtain ⟨rfl, rfl⟩ := Prod.mk.inj (Option.some.inj hname)
    exact hworld
  | drained _ hw => cases hw

end Estate
