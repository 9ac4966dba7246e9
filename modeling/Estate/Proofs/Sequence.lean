import Estate.Proofs.Meaning
import Estate.Proofs.Travel

/-!
# A loaded machine does what it is asked in order

A callback may ask for transitions, which are deferred, and an error callback may ask for some that
are performed at once, inside the request that has failed. Whatever they ask for, the names that the
library looks up, one after another, are a word that the automaton of the FSM reads: the callbacks
called in between are those it shows, and the machine is where it arrives (`loaded_sequence`).
-/

namespace Estate

variable {W : Type}

/-- What a call that is no transition puts on record. -/
theorem ApiStep.history {p q : Process W} (h : ApiStep p q) :
    ∃ h, q.history = p.history ++ h ∧
      (Steady h → q.mach.currentState = p.mach.currentState) := by
  cases h with
  | bound shr value _ => exact ⟨[.bound shr value], rfl, fun _ => rfl⟩
  | locked current _ =>
    exact ⟨[.locked p.mach.currentState current], rfl, fun hs => hs _ _ List.mem_cons_self⟩
  | _ => exact ⟨[], (List.append_nil _).symm, fun _ => rfl⟩

namespace Cc

open Lib

section Stretches

variable {prog : Program} {f : Fsm} {array : Stringshare → List Stringshare}
  {st tr : Stringshare → Addr} {asked : List Stringshare} {name : Addr → Option Stringshare}
  {p q r : Process W} {x : Stringshare} {evs evs' : List Event} {acts acts' : List Action}

/-- The process has a machine in memory, in a state of it. -/
structure At (prog : Program) (f : Fsm) (array : Stringshare → List Stringshare)
    (st tr : Stringshare → Addr) (name : Addr → Option Stringshare) (p : Process W)
    (x : Stringshare) : Prop where
  embodies : Embodies prog f array st tr p
  names : ∀ a, (p.state a).name = name a
  mem : x ∈ f.states
  current : p.mach.currentState = st x

theorem At.of_frozen (h : At prog f array st tr name p x) (hf : Frozen p q)
    (hc : q.mach.currentState = p.mach.currentState) : At prog f array st tr name q x where
  embodies := h.embodies.of_frozen hf.shape hf.callbacks
  names a := ((hf.shape.state a).1).trans (h.names a)
  mem := h.mem
  current := hc.trans h.current

/-- What a stretch of a run adds to the records of the process. -/
structure Stretch (p q : Process W) (evs : List Event) (acts : List Action) : Prop where
  frozen : Frozen p q
  trace : q.trace = p.trace ++ evs
  history : q.history = p.history ++ acts

theorem Stretch.trans (h : Stretch p q evs acts) (h' : Stretch q r evs' acts') :
    Stretch p r (evs ++ evs') (acts ++ acts') where
  frozen := h.frozen.trans h'.frozen
  trace := by rw [h'.trace, h.trace, List.append_assoc]
  history := by rw [h'.history, h.history, List.append_assoc]

theorem Stretch.of_eq (hf : Frozen p q) (ht : q.trace = p.trace) (hh : q.history = p.history) :
    Stretch p q [] [] :=
  ⟨hf, by rw [ht, List.append_nil], by rw [hh, List.append_nil]⟩

/-- The callbacks of transitions, as sights. -/
def calls (name : Addr → Option Stringshare) (invs : List Invocation) : List Sight :=
  invs.filterMap fun
    | .callback type func current => some (.heard (.callback type func (name current)))
    | .error _ => none

theorem calls_append (name : Addr → Option Stringshare) (invs invs' : List Invocation) :
    calls name (invs ++ invs') = calls name invs ++ calls name invs' := List.filterMap_append

/-- A stretch that looks nothing up and leaves the machine where it is, with the callbacks it
calls. -/
structure Shows (p q : Process W) (evs : List Event) (acts : List Action)
    (invs : List Invocation) : Prop extends Stretch p q evs acts where
  looked : evs.filterMap lookedUp = []
  seen : Steady acts → ∀ name, evs.filterMap (sight name) = calls name invs
  stays : Steady acts → q.mach.currentState = p.mach.currentState

theorem Shows.trans {invs invs' : List Invocation} (h : Shows p q evs acts invs)
    (h' : Shows q r evs' acts' invs') : Shows p r (evs ++ evs') (acts ++ acts') (invs ++ invs') where
  toStretch := h.toStretch.trans h'.toStretch
  looked := by rw [List.filterMap_append, h.looked, h'.looked, List.append_nil]
  seen hs name := by
    rw [List.filterMap_append, h.seen hs.left, h'.seen hs.right, calls_append]
  stays hs := (h'.stays hs.right).trans (h.stays hs.left)

theorem Shows.of_eq (hf : Frozen p q) (ht : q.trace = p.trace) (hh : q.history = p.history)
    (hc : q.mach.currentState = p.mach.currentState) : Shows p q [] [] [] :=
  ⟨.of_eq hf ht hh, rfl, fun _ _ => rfl, fun _ => hc⟩

theorem shows_log (p : Process W) {e : Event} (hl : lookedUp e = none)
    (he : ∀ name, sight name e = none) : Shows p (p.log e) [e] [] [] where
  toStretch := ⟨.of_mach rfl rfl (.refl _), rfl, (List.append_nil _).symm⟩
  looked := by simp [hl]
  seen _ name := by simp [he, calls]
  stays _ := rfl

/-- A stretch that reads a word: its sights are those of the automaton, which it follows. -/
structure Reads (prog : Program) (f : Fsm) (array : Stringshare → List Stringshare)
    (st tr : Stringshare → Addr) (asked : List Stringshare) (name : Addr → Option Stringshare)
    (p q : Process W) (evs : List Event) (acts : List Action) : Prop extends Stretch p q evs acts where
  reads : Steady acts → (∀ n ∈ evs.filterMap lookedUp, n ∈ asked) → ∀ x,
    At prog f array st tr name p x →
      evs.filterMap (sight name) =
        sightsOf ((f.automaton prog false).trace x (evs.filterMap lookedUp)) ∧
      At prog f array st tr name q ((f.automaton prog false).run x (evs.filterMap lookedUp))

theorem Shows.reads (h : Shows p q evs acts []) :
    Reads prog f array st tr asked name p q evs acts where
  toStretch := h.toStretch
  reads hs _ x hat := by
    rw [h.looked, h.seen hs]
    exact ⟨rfl, hat.of_frozen h.frozen (h.stays hs)⟩

theorem Reads.trans (h : Reads prog f array st tr asked name p q evs acts)
    (h' : Reads prog f array st tr asked name q r evs' acts') :
    Reads prog f array st tr asked name p r (evs ++ evs') (acts ++ acts') where
  toStretch := h.toStretch.trans h'.toStretch
  reads hs hn x hat := by
    rw [List.filterMap_append] at hn
    obtain ⟨hsights, hq⟩ := h.reads hs.left (fun n hm => hn n (List.mem_append_left _ hm)) x hat
    obtain ⟨hsights', hr⟩ := h'.reads hs.right (fun n hm => hn n (List.mem_append_right _ hm)) _ hq
    rw [List.filterMap_append, List.filterMap_append, hsights, hsights',
      Automaton.trace_append, Automaton.run_append]
    exact ⟨(List.flatMap_append).symm, hr⟩

end Stretches

section Callbacks

variable {env : Env W} {p q : Process W}

/-- A call that is no transition is seen by nobody. -/
theorem apiCall_shows {run : Process W → CStr → Process W × Option Bool} {c : Call} {b : Bool}
    (hc : ∀ t, c ≠ .transitionDo t) (h : apiCall env run p c = (q, some b)) :
    ∃ acts, Shows p q [] acts [] := by
  have hstep := apiCall_step env hc h
  obtain ⟨acts, hacts, hcur⟩ := hstep.history
  refine ⟨acts, ⟨⟨apiCall_frozen hc h, ?_, hacts⟩, rfl, fun _ _ => rfl, hcur⟩⟩
  rw [hstep.frame.1, List.append_nil]

/-- What a callback does shows no other callback. -/
theorem runProg_shows {fuel : ℕ} {prog : CbProg W} {result : ℤ} (hl : p.mach.locked = true)
    (hc : p.mach.inCb ≠ cbUnlocked)
    (h : runProg env (machineTransitionDo env fuel) prog p = (q, some result)) :
    ∃ evs acts, Shows p q evs acts [] ∧ q.mach.locked = true := by
  obtain ⟨q', result', evs, hrun, hdefers⟩ := runProg_defers env fuel prog hl hc
  obtain ⟨rfl, -⟩ := Prod.mk.inj (h.symm.trans hrun)
  obtain ⟨acts, htravels, hmoves, -⟩ := (stays_preserves env).runProg
    (fun _ _ _ _ => transitionDo_stays fuel) _ h hl hc
  have hfrozen : Frozen p q := (frozen_preserves env).runProg
    (fun _ _ _ _ => (frozen_preserves env).transitionDo (frozen_fires env).found fuel _ _ _ _) _ h
  have hrequest : ∀ e ∈ evs, lookedUp e = none ∧ ∀ name, sight name e = none := by
    intro e he
    obtain ⟨t, w, -, rfl⟩ := hdefers.requests e he
    exact ⟨rfl, fun _ => rfl⟩
  refine ⟨evs, acts, ⟨⟨hfrozen, hdefers.trace, htravels.history⟩, ?_, fun _ name => ?_, fun hs => ?_⟩,
    hdefers.locked⟩
  · exact List.filterMap_eq_nil_iff.2 fun e he => (hrequest e he).1
  · exact List.filterMap_eq_nil_iff.2 fun e he => (hrequest e he).2 name
  · have hpath := htravels.path hs
    rw [hmoves] at hpath
    exact hpath.symm

theorem entering_shows (p : Process W) (wrp : WrapperRef) (type : CbType) (tr : Addr)
    (hf : (p.wrapper wrp).func ≠ 0) :
    ∃ evs acts, Shows p (p.entering wrp type tr) evs acts
      (present type (p.wrapper wrp).func p.mach.currentState) := by
  refine ⟨_, _, ⟨⟨frozen_pieces.entering p wrp type tr, entering_trace p wrp type tr,
    entering_history p wrp type tr⟩, rfl, fun _ name => ?_, fun _ => ?_⟩⟩
  · rw [present, if_neg hf, miscCbCache_func]
    rfl
  · rw [entering_mach]

theorem leaving_shows (p : Process W) (wrp : WrapperRef) (type : CbType) (tr : Addr)
    (result : ℤ) : Shows p (p.leaving wrp type tr result) [.cbLeave type tr result] [] [] where
  toStretch := ⟨frozen_pieces.leaving p wrp type tr result, leaving_trace p wrp type tr result,
    by rw [leaving_history, List.append_nil]⟩
  looked := rfl
  seen _ _ := rfl
  stays _ := by rw [leaving_mach]

/-- Calling a wrapper shows its callback, in the state the machine is in. -/
theorem miscCbCall_shows {fuel : ℕ} (hl : p.mach.locked = true) {wrp : WrapperRef} {type : CbType}
    {tr : Addr} (h : miscCbCall env (machineTransitionDo env fuel) p wrp type tr = (q, some ())) :
    ∃ evs acts, Shows p q evs acts (present type (p.wrapper wrp).func p.mach.currentState) ∧
      q.mach.locked = true := by
  by_cases hf : (p.wrapper wrp).func = 0
  · unfold miscCbCall at h
    rw [if_pos hf] at h
    obtain ⟨rfl, -⟩ := Prod.mk.inj h
    rw [present, if_pos hf]
    exact ⟨[], [], .of_eq ((frozen_preserves env).refl p) rfl rfl rfl, hl⟩
  · rw [miscCbCall_eq env _ type tr hf] at h
    split at h
    · simp at h
    · rename_i q' result hprog
      obtain ⟨rfl, -⟩ := Prod.mk.inj h
      obtain ⟨evs, acts, hin⟩ := entering_shows p wrp type tr hf
      obtain ⟨evs', acts', hrun, hl'⟩ :=
        runProg_shows (by simpa using hl) (by simpa using type.code_ne) hprog
      have hall := (hin.trans hrun).trans (leaving_shows q' wrp type tr result)
      simp only [List.append_nil] at hall
      exact ⟨_, _, hall, by simpa using hl'⟩

/-- Performing a transition shows its callbacks. -/
theorem fire_shows {fuel : ℕ} (hl : p.mach.locked = true) {tr : Addr}
    (hfrom : (p.transition tr).fromState = p.mach.currentState)
    (h : fire env (machineTransitionDo env fuel) p tr = (q, some ())) :
    ∃ evs acts, Stretch p q evs acts ∧ evs.filterMap lookedUp = [] ∧
      (Steady acts → q.mach.currentState = (p.transition tr).toState ∧
        ∀ name, evs.filterMap (sight name) = calls name (callbacksOf p tr)) := by
  obtain ⟨p₀, hp₀⟩ : ∃ p₀, p₀ = p.setMach { p.mach with currentTransition := tr } := ⟨_, rfl⟩
  have h₀ : Shows p p₀ [] [] [] := hp₀ ▸ .of_eq (frozen_pieces.chosen p tr) rfl rfl rfl
  have hl₀ : p₀.mach.locked = true := hp₀ ▸ hl
  unfold fire at h
  simp only [stateCbCall, ← hp₀] at h
  split at h
  · simp at h
  · rename_i p₁ hrun₁
    split at h
    · simp at h
    · rename_i p₂ hrun₂
      obtain ⟨p₃, hp₃⟩ : ∃ p₃, p₃ = (p₂.setMach
        { p₂.mach with currentState := (p₂.transition tr).toState }).record (.moved tr) := ⟨_, rfl⟩
      simp only [← hp₃] at h
      obtain ⟨evs₁, acts₁, h₁, hl₁⟩ := miscCbCall_shows hl₀ hrun₁
      obtain ⟨evs₂, acts₂, h₂, hl₂⟩ := miscCbCall_shows hl₁ hrun₂
      have h₃ : Stretch p₂ p₃ [] [.moved tr] := by
        rw [hp₃]
        exact ⟨frozen_pieces.moved p₂ tr, (List.append_nil _).symm, rfl⟩
      obtain ⟨evs₄, acts₄, h₄, -⟩ := miscCbCall_shows (by rw [hp₃]; exact hl₂) h
      have hall := (((h₀.toStretch.trans h₁.toStretch).trans h₂.toStretch).trans h₃).trans
        h₄.toStretch
      have hto : p₃.mach.currentState = (p.transition tr).toState := by
        rw [hp₃]
        exact ((h₀.frozen.trans h₁.frozen).trans h₂.frozen).shape.transition tr |>.2.2
      refine ⟨_, _, hall, ?_, fun hs => ⟨?_, fun name => ?_⟩⟩
      · simp [List.filterMap_append, h₁.looked, h₂.looked, h₄.looked]
      · rw [h₄.stays hs.right, hto]
      · -- Each wrapper has the function it had, and is called where the machine is meant to be.
        have hs₁ : Steady acts₁ := hs.left.left.left.right
        have hsrc : (p₀.transition tr).fromState = (p.transition tr).fromState :=
          (h₀.frozen.shape.transition tr).2.1
        have hexit : (p₀.wrapper (.exiter (p₀.transition tr).fromState)).func
            = (p.state (p.transition tr).fromState).exiter.func := by
          rw [hsrc]
          exact (h₀.frozen.callbacks.wrapper _).1
        have hcb : (p₁.wrapper (.cb tr)).func = (p.transition tr).cb.func :=
          ((h₀.frozen.trans h₁.frozen).callbacks.wrapper _).1
        have hfrozen₃ := ((h₀.frozen.trans h₁.frozen).trans h₂.frozen).trans h₃.frozen
        have henter : (p₃.wrapper (.enterer (p₃.transition tr).toState)).func
            = (p.state (p.transition tr).toState).enterer.func := by
          rw [(hfrozen₃.shape.transition tr).2.2]
          exact (hfrozen₃.callbacks.wrapper _).1
        have hcur₀ : p₀.mach.currentState = (p.transition tr).fromState :=
          (h₀.stays fun _ _ hm => by simp at hm).trans hfrom.symm
        have hcur₁ : p₁.mach.currentState = (p.transition tr).fromState :=
          (h₁.stays hs₁).trans hcur₀
        simp only [List.nil_append, List.append_nil, List.filterMap_append, h₁.seen hs₁,
          h₂.seen hs.left.left.right, h₄.seen hs.right, hexit, hcb, henter, hcur₀, hcur₁, hto,
          ← calls_append, callbacksOf, List.append_assoc]

end Callbacks

section Requests

variable {env : Env W} {prog : Program} {f : Fsm} {array : Stringshare → List Stringshare}
  {st tr : Stringshare → Addr} {asked : List Stringshare} {name : Addr → Option Stringshare}
  {p q r : Process W} {x n : Stringshare} {t : Transit} {arg : CStr}

/-- The callbacks of a transition are those that the automaton shows. -/
theorem At.calls_callbacksOf (h : At prog f array st tr name p x) (ht : t ∈ f.transits)
    (htx : t.fromState = some x) :
    calls name (callbacksOf p (tr t.name)) = (f.heardOf prog x t).map .heard := by
  have hpresent : ∀ {type : CbType} {c : Cb} {y : Stringshare}, y ∈ f.states →
      calls name (present type (c.callee prog) (st y)) = (c.heard prog type y).map .heard := by
    intro type c y hy
    unfold present Cb.heard
    split_ifs
    · rfl
    · simp only [calls, List.filterMap_cons, List.filterMap_nil, ← h.names, h.embodies.named y hy,
        List.map_cons, List.map_nil]
  obtain ⟨x', -, htx', hsrc⟩ := h.embodies.source t ht
  obtain rfl := Option.some.inj (htx.symm.trans htx')
  obtain ⟨y, hy, hty, hdst⟩ := h.embodies.target t ht
  simp only [callbacksOf, hsrc, hdst, h.embodies.exiter x h.mem, h.embodies.enterer y hy,
    h.embodies.cb t ht, calls_append, hpresent h.mem, hpresent hy, Fsm.heardOf, hty,
    Option.toList_some, List.flatMap_cons, List.flatMap_nil, List.append_nil, List.map_append]

/-- A name is looked up. -/
theorem attempt_stretch (p : Process W) (arg : CStr) (n : Stringshare) :
    Stretch p ((p.log (.attempt arg n)).share n) [.attempt arg n] [] :=
  ⟨.of_mach rfl rfl (.refl _), rfl, (List.append_nil _).symm⟩

/-- A name that is not found is one that the automaton refuses. -/
theorem miss_reads (hf : f.Named) (hs : Searchable f array env.addr asked)
    (hmiss : ∀ a, findTransition env p n = some a →
      (p.transition a).fromState ≠ p.mach.currentState) :
    Reads prog f array st tr asked name p ((p.log (.attempt arg n)).share n) [.attempt arg n] [] where
  toStretch := attempt_stretch p arg n
  reads hsteady hn x hat := by
    have hasked : n ∈ asked := hn n (by simp [lookedUp])
    have hexit : f.exit x n = none := by
      by_contra hne
      obtain ⟨t, ht⟩ := Option.ne_none_iff_exists'.1 hne
      obtain ⟨hmem, htx, -⟩ := (Fsm.exit_some hf).1 ht
      obtain ⟨x', -, htx', hsrc⟩ := hat.embodies.source t hmem
      obtain rfl := Option.some.inj (htx.symm.trans htx')
      have hfind := hat.embodies.find_eq hat.mem hat.current hf hs hasked
      rw [ht, Option.map_some] at hfind
      exact hmiss _ hfind (hsrc.trans hat.current.symm)
    have hnext : (f.automaton prog false).next x n = none := by simp [Fsm.automaton, hexit]
    refine ⟨?_, ?_⟩
    · simp [sight, lookedUp, sightsOf, Automaton.trace, Automaton.see, Fsm.automaton, hexit]
    · simp only [List.filterMap_cons, lookedUp, List.filterMap_nil, Automaton.run_cons,
        Automaton.run_nil, Automaton.after_none hnext]
      exact hat.of_frozen (attempt_stretch p arg n).frozen rfl

/-- A transition that is found and performed is the one that the automaton takes. -/
theorem hit_reads (hf : f.Named) (hs : Searchable f array env.addr asked) {fuel : ℕ} {a : Addr}
    (hl : p.mach.locked = true) (hfound : findTransition env p n = some a)
    (hfrom : (p.transition a).fromState = p.mach.currentState)
    (h : fire env (machineTransitionDo env fuel) ((p.log (.attempt arg n)).share n) a =
      (q, some ())) :
    ∃ evs acts, Reads prog f array st tr asked name p q evs acts := by
  obtain ⟨p₁, hp₁⟩ : ∃ p₁, p₁ = (p.log (.attempt arg n)).share n := ⟨_, rfl⟩
  have h₁ := attempt_stretch p arg n
  rw [← hp₁] at h h₁
  have hcur₁ : p₁.mach.currentState = p.mach.currentState := by rw [hp₁]; rfl
  obtain ⟨evs, acts, hstretch, hlooked, hseen⟩ := fire_shows (by rw [hp₁]; exact hl)
    (by rw [hp₁]; exact hfrom) h
  refine ⟨_, _, h₁.trans hstretch, fun hsteady hn x hat => ?_⟩
  simp only [List.cons_append, List.nil_append, List.filterMap_cons, lookedUp, hlooked] at hn hsteady ⊢
  have hat₁ := hat.of_frozen h₁.frozen hcur₁
  have hfind := hat.embodies.find_eq hat.mem hat.current hf hs (hn n List.mem_cons_self)
  rw [hfound] at hfind
  obtain ⟨t, hexit, rfl⟩ := Option.map_eq_some_iff.1 hfind.symm
  obtain ⟨hmem, htx, -⟩ := (Fsm.exit_some hf).1 hexit
  obtain ⟨y, hy, hty, hdst⟩ := hat₁.embodies.target t hmem
  have hnext : (f.automaton prog false).next x n = some y := by
    simp [Fsm.automaton, hexit, hty]
  obtain ⟨hcur, hsights⟩ := hseen hsteady
  refine ⟨?_, ?_⟩
  · rw [hsights, hat₁.calls_callbacksOf hmem htx]
    simp [sight, sightsOf, Automaton.trace, Automaton.see, Fsm.automaton, hexit]
  · simp only [Automaton.run_cons, Automaton.run_nil, Automaton.after_some hnext]
    exact ⟨(hat₁.embodies.of_frozen hstretch.frozen.shape hstretch.frozen.callbacks),
      fun b => (hstretch.frozen.shape.state b).1.trans (hat₁.names b), hy, hcur.trans hdst⟩

/-- A run that reads a word. -/
def Obeys (prog : Program) (f : Fsm) (array : Stringshare → List Stringshare)
    (st tr : Stringshare → Addr) (asked : List Stringshare) (name : Addr → Option Stringshare)
    (p q : Process W) : Prop :=
  ∃ evs acts, Reads prog f array st tr asked name p q evs acts

theorem Obeys.trans (h : Obeys prog f array st tr asked name p q)
    (h' : Obeys prog f array st tr asked name q r) :
    Obeys prog f array st tr asked name p r := by
  obtain ⟨_, _, h⟩ := h
  obtain ⟨_, _, h'⟩ := h'
  exact ⟨_, _, h.trans h'⟩

/-- Nothing that is seen happens, and the machine stays where it is. -/
theorem Obeys.of_eq (hf : Frozen p q) (ht : q.trace = p.trace) (hh : q.history = p.history)
    (hc : q.mach.currentState = p.mach.currentState) :
    Obeys prog f array st tr asked name p q :=
  ⟨_, _, (Shows.of_eq hf ht hh hc).reads⟩

theorem obeys_log (p : Process W) {e : Event} (hl : lookedUp e = none)
    (he : ∀ name, sight name e = none) : Obeys prog f array st tr asked name p (p.log e) :=
  ⟨_, _, (shows_log p hl he).reads⟩

section Calls

variable {run : Process W → CStr → Process W × Option Bool}
  (hrun : ∀ p t q b, run p t = (q, some b) → Obeys prog f array st tr asked name p q)

include hrun in
theorem apiCall_obeys {c : Call} {b : Bool} (h : apiCall env run p c = (q, some b)) :
    Obeys prog f array st tr asked name p q := by
  cases c with
  | transitionDo t => exact hrun _ _ _ _ h
  | _ =>
    obtain ⟨acts, hshows⟩ := apiCall_shows (by simp) h
    exact ⟨_, _, hshows.reads⟩

include hrun in
theorem runProg_obeys (cb : CbProg W) : ∀ {p q : Process W} {result : ℤ},
    runProg env run cb p = (q, some result) → Obeys prog f array st tr asked name p q := by
  have hworld : ∀ (p : Process W) (w : W), Obeys prog f array st tr asked name p (p.setWorld w) :=
    fun p w => .of_eq ((frozen_preserves env).world p w) rfl rfl rfl
  induction cb with
  | ret w result =>
    intro p q result' h
    obtain ⟨rfl, -⟩ := Prod.mk.inj h
    exact hworld p w
  | call w c k ih =>
    intro p q result h
    simp only [runProg] at h
    rcases hc : apiCall env run (p.setWorld w) c with ⟨p', _ | b⟩ <;> rw [hc] at h
    · simp at h
    · exact (hworld p w).trans ((apiCall_obeys hrun hc).trans (ih _ _ h))

include hrun in
theorem transitionFail_obeys {shr : Stringshare} {msg : List Char} {b : Bool}
    (h : transitionFail env run p arg shr msg = (q, some b)) :
    Obeys prog f array st tr asked name p q := by
  have hunshare : ∀ p : Process W, Obeys prog f array st tr asked name p (p.unshare shr) :=
    fun p => .of_eq (.of_mach rfl rfl (.refl _)) rfl rfl rfl
  unfold transitionFail at h
  by_cases he : p.mach.errorCb = 0
  · rw [if_pos he] at h
    obtain ⟨rfl, -⟩ := Prod.mk.inj h
    exact hunshare p
  · rw [if_neg he] at h
    simp only [] at h
    split at h
    · simp at h
    · rename_i q' result hprog
      obtain ⟨rfl, -⟩ := Prod.mk.inj h
      exact ((obeys_log p rfl fun _ => rfl).trans (runProg_obeys hrun _ hprog)).trans
        (hunshare q')

include hrun in
theorem drain_obeys : ∀ (deferred : List CStr) {p q : Process W},
    drain run deferred p = (q, some ()) → Obeys prog f array st tr asked name p q
  | [], p, q, h => by
    obtain ⟨rfl, -⟩ := Prod.mk.inj h
    exact .of_eq (.of_mach rfl rfl (.refl _)) rfl rfl rfl
  | t :: deferred, p, q, h => by
    simp only [drain] at h
    rcases hr : run p t with ⟨p', _ | b⟩ <;> rw [hr] at h
    · simp at h
    · exact (hrun _ _ _ _ hr).trans (drain_obeys deferred h)

end Calls

/-- One attempt, with all that its callbacks have asked for. -/
theorem transitionRun_obeys (hf : f.Named) (hs : Searchable f array env.addr asked) {fuel : ℕ}
    (hdo : ∀ p t q b, machineTransitionDo env fuel p t = (q, some b) →
      Obeys prog f array st tr asked name p q) {b : Bool} (hl : p.mach.locked = true)
    (h : transitionRun env (machineTransitionDo env fuel) p arg = (q, some b)) :
    Obeys prog f array st tr asked name p q := by
  obtain ⟨n, hn⟩ : ∃ n, n = env.deref p.world arg := ⟨_, rfl⟩
  obtain ⟨p₁, hp₁⟩ : ∃ p₁, p₁ = (p.log (.attempt arg n)).share n := ⟨_, rfl⟩
  have hfail : ∀ {msg : List Char}, (∀ a, findTransition env p n = some a →
        (p.transition a).fromState ≠ p.mach.currentState) →
      transitionFail env (machineTransitionDo env fuel) (p₁.log (.log msg)) arg n msg
        = (q, some b) → Obeys prog f array st tr asked name p q := by
    intro msg hmiss h
    have h₁ : Obeys prog f array st tr asked name p p₁ := hp₁ ▸ ⟨_, _, miss_reads hf hs hmiss⟩
    exact h₁.trans ((obeys_log p₁ rfl fun _ => rfl).trans (transitionFail_obeys hdo h))
  unfold transitionRun at h
  simp only [← hn, ← hp₁] at h
  have hfind : findTransition env p₁ n = findTransition env p n := hp₁ ▸ rfl
  have hsrc : ∀ a, (p₁.transition a).fromState = (p.transition a).fromState := fun _ => hp₁ ▸ rfl
  have hcur : p₁.mach.currentState = p.mach.currentState := hp₁ ▸ rfl
  split at h
  · rename_i hnone
    exact hfail (by rw [← hfind, hnone]; simp) h
  · rename_i a hfound
    split_ifs at h with hfrom
    · refine hfail (fun a' ha' => ?_) h
      obtain rfl := Option.some.inj (ha'.symm.trans (hfind.symm.trans hfound))
      rw [← hsrc, ← hcur]
      exact hfrom
    · split at h
      · simp at h
      · rename_i q₁ hq₁
        rw [not_not, hsrc, hcur] at hfrom
        have h₁ : Obeys prog f array st tr asked name p q₁ :=
          hit_reads hf hs hl (hfind.symm.trans hfound) hfrom (hp₁ ▸ hq₁)
        split at h
        · simp at h
        · rename_i q₂ hq₂
          obtain ⟨rfl, -⟩ := Prod.mk.inj h
          refine h₁.trans (.trans ?_ (drain_obeys hdo _ hq₂))
          exact .of_eq (.of_mach rfl rfl (.of_eq rfl rfl rfl rfl rfl rfl)) rfl rfl rfl

/-- A request reads the names that are looked up for it. -/
theorem transitionDo_obeys (hf : f.Named) (hs : Searchable f array env.addr asked) :
    ∀ (fuel : ℕ) (p : Process W) (t : CStr) (q : Process W) (b : Bool),
      machineTransitionDo env fuel p t = (q, some b) →
        Obeys prog f array st tr asked name p q := by
  have henter : ∀ (run : Process W → CStr → Process W × Option Bool) (p : Process W) (t : CStr)
      (q : Process W) (b : Bool), (p.mach.locked = true → run p t = (q, some b) →
        Obeys prog f array st tr asked name p q) → transitionEnter env run p t = (q, some b) →
        Obeys prog f array st tr asked name p q := by
    intro run p t q b hrun h
    unfold transitionEnter at h
    split_ifs at h with h1 h2 h3
    · obtain ⟨rfl, -⟩ := Prod.mk.inj h
      exact .of_eq (.of_mach rfl rfl (.refl _)) rfl rfl rfl
    · obtain ⟨rfl, -⟩ := Prod.mk.inj h
      exact obeys_log p rfl fun _ => rfl
    · obtain ⟨rfl, -⟩ := Prod.mk.inj h
      have hlog : Obeys prog f array st tr asked name p (p.log (.request t (env.deref p.world t))) :=
        obeys_log p rfl fun _ => rfl
      exact hlog.trans (.of_eq ((frozen_preserves env).defer _ _) rfl rfl rfl)
    · exact hrun (by simpa using h2) h
  intro fuel
  induction fuel with
  | zero =>
    intro p t q b h
    exact henter _ p t q b (fun _ hr => by simp at hr) h
  | succ fuel ih =>
    intro p t q b h
    exact henter _ p t q b (fun hl hr => transitionRun_obeys hf hs ih hl hr) h

/-- So does every run. -/
theorem run_obeys (hf : f.Named) (hs : Searchable f array env.addr asked) (h : Run env p q) :
    Obeys prog f array st tr asked name p q := by
  induction h with
  | start => exact .of_eq (.of_mach rfl rfl (.refl _)) rfl rfl rfl
  | call _ hc ih => exact ih.trans (apiCall_obeys (transitionDo_obeys hf hs _) hc)
  | world _ w ih => exact ih.trans (.of_eq ((frozen_preserves env).world _ w) rfl rfl rfl)

end Requests

section Loaded

variable {ord : HashOrder} {beyond : ℕ → Char} {heap : Heap} {prog : Program} {gen : Placement}
  {f : Fsm} {shares : Stringshare → ℤ} {w : W} {p : Process W} {env : Env W}
  {asked : List Stringshare}

/-- Whatever its callbacks ask for, as long as no lock names another state than the machine is in,
the names that are looked up in a run are a word that the automaton reads from this state: between
two names the callbacks are called that it shows, in the states it shows them in, and the machine is
where it arrives. -/
def InSequence (env : Env W) (M : Automaton Stringshare Stringshare Heard)
    (names : List Stringshare) (p : Process W) (i : Stringshare) : Prop :=
  ∀ q, Run env p q → Steady (actions p q) → (∀ n ∈ lookups p q, n ∈ names) →
    sights p q = sightsOf (M.trace i (lookups p q)) ∧
    (q.state (machineCurrentStateGet q)).name = some (M.run i (lookups p q))

theorem At.inSequence {array : Stringshare → List Stringshare} {st tr : Stringshare → Addr}
    {x : Stringshare} (h : At prog f array st tr (fun a => (p.state a).name) p x)
    (hl : p.mach.locked = true) (hf : f.Named) (hs : Searchable f array env.addr asked) :
    InSequence env (f.automaton prog false) asked p x := by
  intro q hrun hsteady hasked
  obtain ⟨evs, acts, hreads⟩ : Obeys prog f array st tr asked (fun a => (p.state a).name) p q :=
    run_obeys hf hs hrun
  have hevs : since p q = evs := by rw [since, hreads.trace, List.drop_left]
  have hacts : actions p q = acts := by rw [actions, hreads.history, List.drop_left]
  rw [lookups, hevs] at hasked
  obtain ⟨hsights, hat⟩ := hreads.reads (hacts ▸ hsteady) hasked x h
  obtain ⟨hl', -⟩ := (Frozen.of_run hrun).machine.locked hl
  refine ⟨?_, ?_⟩
  · rw [sights, lookups, hevs]
    exact hsights
  · rw [machineCurrentStateGet, if_pos hl', hat.current, lookups, hevs]
    exact hat.embodies.named _ hat.mem

/-- A machine that is generated, loaded and locked does what it is asked in order. -/
theorem loaded_sequence {fsms : List Fsm} (hp : ∀ g ∈ fsms, g.Parsed)
    (hv : (checkStates ord beyond fsms).1 = true) (hf : f ∈ (checkStates ord beyond fsms).2)
    (hload : (loader ord gen f).load heap prog shares w = some p) (hl : p.mach.locked = true)
    (hg : Placed gen (f.transits.map Transit.name))
    (hr : Placed env.addr (f.transits.map Transit.name ++ asked))
    (hsame : f.SameOrder gen env.addr) :
    ∃ i, f.init = some i ∧ InSequence env (f.automaton prog false) asked p i := by
  have hnamed := accepted_named hp hv hf
  obtain ⟨-, st, tr, i, hembodies, hinit, hmem, hcur⟩ := load_embodies hnamed hload hl
  obtain ⟨hfrom, -⟩ := load_standing hnamed hload hl 0
  have hsearch : Searchable f (outgoing ord gen f) env.addr asked :=
    searchable_of_sameOrder hnamed hg hr hfrom hsame
  have hat : At prog f _ st tr (fun a => (p.state a).name) p i :=
    ⟨hembodies, fun _ => rfl, hmem, hcur⟩
  exact ⟨i, hinit, hat.inSequence hl hnamed hsearch⟩

/-- The loader of `fork`, with a caller that has the name `x`. -/
theorem fork_sequence : ∃ p i, forkLoad = some p ∧ forkFsm.init = some i ∧
    InSequence (callsX (lowest ['x'] 8)) (forkFsm.automaton plainProgram false) [['x']] p i := by
  obtain ⟨p, hp, hl⟩ := forkLoad_locked
  obtain ⟨i, hi, hseq⟩ : ∃ i, forkFsm.init = some i ∧ InSequence (callsX (lowest ['x'] 8))
      (forkFsm.automaton plainProgram false) [['x']] p i := loaded_sequence (parserParse_parsed fork)
    forkFsm_accepted.1 forkFsm_accepted.2 hp hl
    (lowest_placed _ (.inl rfl) 1 (by decide)) fork_placed fork_sameOrder
  exact ⟨p, i, hp, hi, hseq⟩

end Loaded

end Cc

end Estate
