import Estate.Proofs.Requests

/-!
# The order of deferred transitions

A call from outside works off what its callbacks ask for, depth first in the order asked. That is so
of the arguments, whatever the callbacks do; of the names behind them it is so exactly when every
buffer still holds its name when the request is drained (`transitionDo_inOrder_iff`).
-/

namespace Estate

open Lib

variable {W : Type}

/-- `replay` of the names that are attempted and asked for. -/
abbrev replayNames : List Stringshare × List Stringshare → Event →
    Option (List Stringshare × List Stringshare) :=
  replay Event.attemptedName Event.requestedName

variable {env : Env W} {p : Process W} {t : CStr}

variable (env p t) in
/-- A call from outside ends. Every name that a callback asks for is attempted exactly once, depth
first in the order asked, behind the name of the call itself: `replay` reads all of them off. No
callbacks run at once, and nothing is deferred behind the call. -/
def InOrder : Prop :=
  ∃ q b evs, (∃ n, ∀ fuel ≥ n, machineTransitionDo env fuel p t = (q, some b)) ∧
    q.trace = p.trace ++ evs ∧
    Agenda (AttemptBlock env) [t] evs ∧
    evs.foldlM replayNames ([env.deref p.world t], []) = some ([], []) ∧
    (evs.filterMap Event.attemptedName).Perm
      (env.deref p.world t :: evs.filterMap Event.requestedName) ∧
    evs.foldlM flatStep false = some false ∧ Idle q

theorem since_append {p q r : Process W} {evs : List Event} (hq : q.trace = p.trace ++ evs)
    (hr : q.trace <+: r.trace) : since p r = evs ++ since q r := by
  obtain ⟨more, hmore⟩ := hr
  rw [since, since, ← hmore, List.drop_left, hq, List.append_assoc, List.drop_left]

/-- The names asked for are those beside the arguments that are queued. -/
theorem asked_names (evs : List Event) :
    (evs.filterMap Event.asked).map Prod.snd = evs.filterMap Event.requestedName := by
  rw [List.map_filterMap]
  refine List.filterMap_congr fun e _ => ?_
  cases e <;> rfl

variable (env) in
/-- The buffers of the calls that drain some requests, and of those that drain theirs. -/
def CallsKept (fuel : ℕ) (calls : List (Process W × CStr)) (asks : List (CStr × Stringshare)) :
    Prop :=
  (∀ {i : ℕ} {s : Process W} {u : CStr} {name : Stringshare}, calls[i]? = some (s, u) →
    asks[i]? = some (u, name) → env.deref s.world u = name) ∧
  ∀ {s : Process W} {u : CStr}, (s, u) ∈ calls → BuffersKept env fuel s u

theorem callsKept_cons {fuel : ℕ} {u : CStr} {x : Stringshare} {calls : List (Process W × CStr)}
    {asks : List (CStr × Stringshare)} : CallsKept env fuel ((p, u) :: calls) ((u, x) :: asks) ↔
      (env.deref p.world u = x ∧ BuffersKept env fuel p u) ∧ CallsKept env fuel calls asks := by
  constructor
  · rintro ⟨hown, hdeep⟩
    exact ⟨⟨hown (i := 0) rfl rfl, hdeep List.mem_cons_self⟩,
      fun {i s v name} hget hname => hown (i := i + 1) hget hname,
      fun hmem => hdeep (List.mem_cons_of_mem _ hmem)⟩
  · rintro ⟨⟨hx, hkept⟩, hown, hdeep⟩
    refine ⟨fun {i s v name} hget hname => ?_, fun {s v} hmem => ?_⟩
    · cases i with
      | zero =>
        obtain ⟨rfl, rfl⟩ := Prod.mk.inj (Option.some.inj hget)
        obtain ⟨-, rfl⟩ := Prod.mk.inj (Option.some.inj hname)
        exact hx
      | succ i => exact hown hget hname
    · rcases List.mem_cons.1 hmem with heq | hmem
      · obtain ⟨rfl, rfl⟩ := Prod.mk.inj heq
        exact hkept
      · exact hdeep hmem

/-- The buffers of a call are those of the calls that drain its requests. -/
theorem buffersKept_succ {fuel : ℕ} : BuffersKept env (fuel + 1) p t ↔
    CallsKept env fuel (drained env (machineTransitionDo env fuel) p t)
      (askedFor env (machineTransitionDo env fuel) p t) := by
  constructor
  · exact fun h => ⟨h .here, fun hmem _ _ _ hw => h (.drained hmem hw)⟩
  · rintro ⟨hown, hdeep⟩ n s u hw
    cases hw with
    | here => exact hown
    | drained hmem hw => exact hdeep hmem hw

/-- The failed call looks its name up, and says that it has failed. -/
theorem performed_none_events (hs : ErrorSilent env) {fuel : ℕ} {q : Process W} {b : Bool}
    (hi : Idle p) (h : transitionRun env (machineTransitionDo env fuel) p t = (q, some b))
    (hnone : performed env (machineTransitionDo env fuel) p t = none) :
    ∃ evs, q.trace = p.trace ++ .attempt t (env.deref p.world t) :: evs ∧
      ∀ e ∈ evs, e.attemptedName = none ∧ e.requestedName = none := by
  obtain ⟨p₁, hp₁⟩ : ∃ p₁, p₁ = (p.log (.attempt t (env.deref p.world t))).share
      (env.deref p.world t) := ⟨_, rfl⟩
  have hfail : ∀ msg, transitionFail env (machineTransitionDo env fuel) (p₁.log (.log msg)) t
      (env.deref p.world t) msg = (q, some b) →
      ∃ evs, q.trace = p.trace ++ .attempt t (env.deref p.world t) :: evs ∧
        ∀ e ∈ evs, e.attemptedName = none ∧ e.requestedName = none := by
    intro msg h
    have hi₁ : Idle (p₁.log (.log msg)) := by
      rw [hp₁]
      exact ⟨hi.locked, hi.inCb, hi.cbDefer⟩
    obtain ⟨q', evs, hq, htrace, hevs, -⟩ :=
      transitionFail_silent env hs hi₁ fuel t (env.deref p.world t) msg
    obtain ⟨rfl, -⟩ := Prod.mk.inj (h.symm.trans hq)
    refine ⟨.log msg :: evs, by simp [htrace, hp₁], fun e he => ?_⟩
    rcases List.mem_cons.1 he with rfl | he
    · exact ⟨rfl, rfl⟩
    · obtain ⟨arg, msg', rfl⟩ := hevs e he
      exact ⟨rfl, rfl⟩
  unfold transitionRun at h
  unfold performed at hnone
  simp only [← hp₁] at h hnone
  split at h
  · exact hfail _ h
  · rename_i tr hf
    simp only [hf] at hnone
    split_ifs at h hnone with hfrom
    · exact hfail _ h
    · rcases hfire : fire env (machineTransitionDo env fuel) p₁ tr with ⟨q', _ | u⟩ <;>
        rw [hfire] at h hnone
      · cases h
      · cases hnone

/-- A call that performs a transition leaves what its callbacks leave, and then what the calls leave
that drain their requests. -/
theorem performed_since {fuel : ℕ} {p₁ p₂ q : Process W} {b : Bool} (hi : Idle p)
    (hperf : performed env (machineTransitionDo env fuel) p t = some (p₁, p₂))
    (h : transitionRun env (machineTransitionDo env fuel) p t = (q, some b)) :
    ∃ p₃, Idle p₃ ∧
      since p q = .attempt t (env.deref p.world t) :: (since p₁ p₂ ++ since p₃ q) ∧
      drain (machineTransitionDo env fuel)
        ((askedFor env (machineTransitionDo env fuel) p t).map Prod.fst) p₃ = (q, some ()) ∧
      drained env (machineTransitionDo env fuel) p t = drainCalls (machineTransitionDo env fuel)
        ((askedFor env (machineTransitionDo env fuel) p t).map Prod.fst) p₃ ∧
      ∀ a ∈ askedFor env (machineTransitionDo env fuel) p t, a.1 ≠ 0 := by
  obtain ⟨tr, q', hp₁, -⟩ := performed_some hperf
  obtain ⟨hqueue, hne, hidle⟩ := performed_queue hi hperf
  obtain ⟨htrace, -⟩ := performed_events hi hperf
  have hdrain := transitionRun_of_performed hperf h
  have hasked : (askedFor env (machineTransitionDo env fuel) p t).map Prod.fst =
      p₂.mach.cbDefer := by
    rw [hqueue, askedFor, hperf]
    exact asked_requested _
  obtain ⟨p₃, hp₃⟩ : ∃ p₃, p₃ = p₂.setMach { p₂.mach with cbDefer := [] } := ⟨_, rfl⟩
  rw [← hp₃] at hidle hdrain
  have htrace₃ : p₃.trace = p.trace ++ .attempt t (env.deref p.world t) :: since p₁ p₂ := by
    have htrace₁ : p₁.trace = p.trace ++ [.attempt t (env.deref p.world t)] := by rw [hp₁]; rfl
    rw [hp₃]
    show p₂.trace = _
    rw [htrace, htrace₁, List.append_assoc]
    rfl
  have hgrows := drain_grows (transitionDo_grows env fuel) p₂.mach.cbDefer p₃
  rw [hdrain] at hgrows
  refine ⟨p₃, hidle, since_append htrace₃ hgrows, by rw [hasked]; exact hdrain, ?_, fun a ha => ?_⟩
  · rw [hasked, drained, hperf, hp₃]
  · exact hne a.1 (hasked ▸ List.mem_map_of_mem ha)

/-- Replaying the calls that work off a queue: all of it is read off exactly when every buffer holds
the name it was asked for with. -/
theorem drain_replay {fuel : ℕ}
    (ih : ∀ {p q : Process W} {t : CStr} {b : Bool} {x : Stringshare}
      {todo new rest : List Stringshare}, Idle p → t ≠ 0 →
      machineTransitionDo env fuel p t = (q, some b) → new ++ todo = x :: rest →
      ∀ r, (since p q).foldlM replayNames (todo, new) = some r ↔
        (env.deref p.world t = x ∧ BuffersKept env fuel p t) ∧ r = (rest, [])) :
    ∀ (asks : List (CStr × Stringshare)) {p q : Process W} {todo : List Stringshare}
      (new rest : List Stringshare), Idle p → (∀ a ∈ asks, a.1 ≠ 0) →
      drain (machineTransitionDo env fuel) (asks.map Prod.fst) p = (q, some ()) →
      new ++ todo = asks.map Prod.snd ++ rest → (asks = [] → new = []) →
      ∀ r, (since p q).foldlM replayNames (todo, new) = some r ↔
        CallsKept env fuel
          (drainCalls (machineTransitionDo env fuel) (asks.map Prod.fst) p) asks ∧ r = (rest, [])
  | [], p, q, todo, new, rest, hi, hne, h, hnew, hnil, r => by
    obtain rfl := (Prod.mk.inj h).1
    obtain rfl := hnil rfl
    obtain rfl : todo = rest := hnew
    have hsince : since p p = [] := List.drop_length ..
    rw [hsince]
    simp [drainCalls, CallsKept, eq_comm]
  | (u, x) :: asks, p, q, todo, new, rest, hi, hne, h, hnew, _, r => by
    simp only [List.map_cons, drain] at h
    rcases hrun : machineTransitionDo env fuel p u with ⟨p', _ | b⟩ <;> simp only [hrun] at h
    · simp at h
    have hidle : Idle p' := (transitionDo_idle fuel _ _ _ _ hi hrun).1
    have hgrows := transitionDo_grows env fuel p u
    rw [hrun] at hgrows
    have hgrows' := drain_grows (transitionDo_grows env fuel) (asks.map Prod.fst) p'
    rw [h] at hgrows'
    have htrace : p'.trace = p.trace ++ since p p' := by
      obtain ⟨evs, hevs⟩ := hgrows
      rw [since, ← hevs, List.drop_left]
    have hhead := @ih p p' u b x todo new (asks.map Prod.snd ++ rest) hi
      (hne _ List.mem_cons_self) hrun hnew
    have htail := drain_replay ih asks [] rest hidle
      (fun a ha => hne a (List.mem_cons_of_mem _ ha)) h rfl (fun _ => rfl) r
    have hcalls : drainCalls (machineTransitionDo env fuel) (((u, x) :: asks).map Prod.fst) p =
        (p, u) :: drainCalls (machineTransitionDo env fuel) (asks.map Prod.fst) p' := by
      simp only [List.map_cons, drainCalls, hrun]
    rw [since_append htrace hgrows', List.foldlM_append, Option.bind_eq_bind,
      Option.bind_eq_some_iff, hcalls, callsKept_cons, and_assoc, ← htail]
    constructor
    · rintro ⟨r₁, hr₁, hr⟩
      obtain ⟨hkept, rfl⟩ := (hhead r₁).1 hr₁
      exact ⟨hkept, hr⟩
    · rintro ⟨hkept, hr⟩
      exact ⟨_, (hhead _).2 ⟨hkept, rfl⟩, hr⟩

/-- Replaying a call that ends: its name and all that its callbacks ask for are read off exactly when
every buffer holds the name it was asked for with. -/
theorem transitionDo_replay (hs : ErrorSilent env) : ∀ {fuel : ℕ} {p q : Process W} {t : CStr}
    {b : Bool} {x : Stringshare} {todo new rest : List Stringshare}, Idle p → t ≠ 0 →
    machineTransitionDo env fuel p t = (q, some b) → new ++ todo = x :: rest →
    ∀ r, (since p q).foldlM replayNames (todo, new) = some r ↔
      (env.deref p.world t = x ∧ BuffersKept env fuel p t) ∧ r = (rest, [])
  | 0, p, q, t, b, x, todo, new, rest, hi, ht, h, hnew, r => by
    have hdo : machineTransitionDo env 0 p t = (p, none) := transitionEnter_idle hi ht
    rw [hdo] at h
    cases h
  | fuel + 1, p, q, t, b, x, todo, new, rest, hi, ht, h, hnew, r => by
    have hdo : machineTransitionDo env (fuel + 1) p t =
        transitionRun env (machineTransitionDo env fuel) p t := transitionEnter_idle hi ht
    rw [hdo] at h
    have hstep : replayNames (todo, new) (.attempt t (env.deref p.world t)) =
        if env.deref p.world t = x then some (rest, []) else none := replay_done rfl hnew
    rcases hperf : performed env (machineTransitionDo env fuel) p t with _ | ⟨p₁, p₂⟩
    · -- nothing is asked for, and nothing is drained
      obtain ⟨evs, htrace, hevs⟩ := performed_none_events hs hi h hperf
      have hasked : evs.filterMap Event.requestedName = [] :=
        List.filterMap_eq_nil_iff.2 fun e he => (hevs e he).2
      have hdrained : drained env (machineTransitionDo env fuel) p t = [] := by
        rw [drained, hperf]
      have hkept : BuffersKept env (fuel + 1) p t := by
        rw [buffersKept_succ, hdrained]
        simp [CallsKept]
      rw [since, htrace, List.drop_left, List.foldlM_cons, hstep]
      split_ifs with hx
      · show evs.foldlM _ (rest, []) = some r ↔ _
        rw [replay_asked rest evs [] fun e he => (hevs e he).1, hasked]
        simp [hx, hkept, eq_comm]
      · simp [hx]
    · -- the requests are drained behind the callbacks
      obtain ⟨p₃, hidle, hsince, hdrain, hdrained, hne⟩ := performed_since hi hperf h
      obtain ⟨-, hevents⟩ := performed_events hi hperf
      have hnames : (askedFor env (machineTransitionDo env fuel) p t).map Prod.snd =
          (since p₁ p₂).filterMap Event.requestedName := by
        rw [askedFor, hperf]
        exact asked_names _
      have hreplay := @drain_replay _ env fuel (transitionDo_replay hs) _ _ _ rest
        ((since p₁ p₂).filterMap Event.requestedName) rest hidle hne hdrain (by rw [hnames])
        (fun hnil => by rw [← hnames, hnil]; rfl) r
      rw [hsince, List.foldlM_cons, hstep, buffersKept_succ, hdrained]
      split_ifs with hx
      · show (since p₁ p₂ ++ _).foldlM _ (rest, []) = some r ↔ _
        rw [List.foldlM_append, replay_asked rest _ [] fun e he => (hevents e he).1]
        exact hreplay.trans (by simp only [hx, true_and])
      · simp [hx]

/-- In a call from outside, whatever the three callbacks do, the names attempted are its own and
those that callbacks ask for, each once and depth first in the order asked, exactly when every
buffer still holds, when its request is drained, what it held when the request was made. -/
theorem transitionDo_inOrder_iff (hs : ErrorSilent env) (hi : Idle p) (ht : t ≠ 0)
    (hfin : ∃ n, ∀ fuel,
      ((since p (machineTransitionDo env fuel p t).1).filterMap Event.requested).length ≤ n) :
    InOrder env p t ↔
      ∀ fuel, (machineTransitionDo env fuel p t).2.isSome → BuffersKept env fuel p t := by
  obtain ⟨q, b, evs, ⟨n, hn⟩, htrace, hagenda, hflat, hidle⟩ := transitionDo_agenda env hs hi ht hfin
  have hsince : since p q = evs := by rw [since, htrace, List.drop_left]
  have hreplay : ∀ {fuel : ℕ} {q' : Process W} {b' : Bool},
      machineTransitionDo env fuel p t = (q', some b') →
      (evs.foldlM replayNames ([env.deref p.world t], []) = some ([], []) ↔
        BuffersKept env fuel p t) := by
    intro fuel q' b' h
    have hmono := machineTransitionDo_mono env (le_max_left fuel n) _ _ _ _ h
    obtain ⟨rfl, -⟩ := Prod.mk.inj (hmono.symm.trans (hn _ (le_max_right fuel n)))
    rw [← hsince]
    exact (transitionDo_replay hs hi ht h rfl _).trans (by simp)
  constructor
  · rintro ⟨q', b', evs', ⟨n', hn'⟩, htrace', -, hnames, -⟩ fuel hsome
    have heq := (hn _ (le_max_left n n')).symm.trans (hn' _ (le_max_right n n'))
    obtain ⟨rfl, -⟩ := Prod.mk.inj heq
    obtain rfl : evs = evs' := List.append_cancel_left (htrace.symm.trans htrace')
    obtain ⟨b', hb'⟩ := Option.isSome_iff_exists.1 hsome
    rw [← hreplay (Prod.ext rfl hb')]
    exact hnames
  · intro hkept
    have hnames := (hreplay (hn n le_rfl)).2 (hkept n (by rw [hn n le_rfl]; rfl))
    refine ⟨q, b, evs, ⟨n, hn⟩, htrace, hagenda, hnames, ?_, hflat, hidle⟩
    exact replay_perm (fun e he => by cases e <;> simp_all [Event.attemptedName,
      Event.requestedName]) hnames

/-- Strings that nobody writes to are kept. -/
theorem still_kept (hstill : ∀ w w' a, env.deref w a = env.deref w' a) (hi : Idle p) (fuel : ℕ) :
    BuffersKept env fuel p t := by
  intro n s u hw i s' u' name _ hasked
  have hmem := List.mem_of_getElem? hasked
  unfold askedFor at hmem
  rcases hperf : performed env (machineTransitionDo env n) s u with _ | ⟨p₁, p₂⟩ <;>
    rw [hperf] at hmem
  · simp at hmem
  · obtain ⟨e, he, hreq⟩ := List.mem_filterMap.1 hmem
    cases e with
    | request v x =>
      obtain ⟨rfl, rfl⟩ := Prod.mk.inj (Option.some.inj hreq)
      obtain ⟨-, w, rfl⟩ := ((performed_events (hw.idle hi) hperf).2 _ he).2 _ _ rfl
      exact hstill _ _ _
    | _ => cases hreq

/-- The forwarded name is attempted behind the one that leads to it. -/
theorem forwarding_inOrder : InOrder forwarding forwardingProcess 20 := by
  have hidle : Idle forwardingProcess := ⟨rfl, rfl, rfl⟩
  have hends : (machineTransitionDo forwarding 2 forwardingProcess 20).2 = some true := by decide
  exact (transitionDo_inOrder_iff (fun _ _ _ _ => ⟨(), 0, rfl⟩) hidle (by decide)
    (finite_requests forwarding (Prod.ext rfl hends))).2
      fun fuel _ => still_kept (fun _ _ _ => rfl) hidle fuel

/-- There `b` is asked for, and `a` is attempted a second time in its place. -/
theorem reused_not_inOrder : Idle bufferProcess ∧ ErrorSilent (reusing ['a']) ∧
    (∀ a, (bufferProcess.state a).transit.length ≤ 1 ∧
      ∀ tr ∈ (bufferProcess.state a).transit, (bufferProcess.transition tr).fromState = a) ∧
    (∃ n, ∀ fuel, ((since bufferProcess (machineTransitionDo (reusing ['a']) fuel bufferProcess
      20).1).filterMap Event.requested).length ≤ n) ∧
    ¬ InOrder (reusing ['a']) bufferProcess 20 := by
  have hends : (machineTransitionDo (reusing ['a']) 2 bufferProcess 20).2 = some true := by decide
  refine ⟨bufferProcess_idle, fun _ _ _ _ => ⟨[], 0, rfl⟩, fun a => ?_,
    finite_requests _ (Prod.ext rfl hends), ?_⟩
  · simp only [bufferProcess, forwardingProcess]
    split_ifs with h₁ h₂ <;> simp [*]
  · rintro ⟨q, b, evs, ⟨n, hn⟩, htrace, -, hnames, -⟩
    have hmono := machineTransitionDo_mono (reusing ['a']) (le_max_left 2 n) bufferProcess 20 _ true
      (Prod.ext rfl hends)
    obtain ⟨rfl, -⟩ := Prod.mk.inj (hmono.symm.trans (hn _ (le_max_right 2 n)))
    obtain rfl : (machineTransitionDo (reusing ['a']) 2 bufferProcess 20).1.trace = evs := htrace
    exact absurd hnames (by decide)

end Estate
