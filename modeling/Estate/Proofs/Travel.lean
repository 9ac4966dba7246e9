import Estate.Proofs.Load
import Estate.Proofs.Runs

/-!
# A locked machine moves along its transitions

Once locked a machine stays locked, its registrations do not change, and `current_state` is written
in two places: where a transition is performed, and by another `estate_machine_lock`, which does not
look at `locked`. As long as no lock names another state than the machine is in, every state is
reached from the first one by the transitions performed since (`lock_travels`).
-/

namespace Estate

variable {W : Type}

def Action.move : Action → Option Addr
  | .moved tr => some tr
  | _ => none

/-- Every lock names the state it finds the machine in. -/
def Steady (h : List Action) : Prop := ∀ x y, Action.locked x y ∈ h → y = x

/-- Transitions that lead from one state to another. -/
def IsPath (p : Process W) : Addr → List Addr → Addr → Prop
  | x, [], y => x = y
  | x, tr :: trs, y =>
    (p.transition tr).fromState = x ∧ IsPath p (p.transition tr).toState trs y

theorem IsPath.append {p : Process W} :
    ∀ {x y z : Addr} {trs trs' : List Addr}, IsPath p x trs y → IsPath p y trs' z →
      IsPath p x (trs ++ trs') z
  | x, y, z, [], trs', h, h' => by
    rw [show x = y from h]
    exact h'
  | x, y, z, tr :: trs, trs', h, h' => ⟨h.1, h.2.append h'⟩

theorem IsPath.congr {p q : Process W}
    (h : ∀ a, (q.transition a).fromState = (p.transition a).fromState
      ∧ (q.transition a).toState = (p.transition a).toState) :
    ∀ {x y : Addr} {trs : List Addr}, IsPath q x trs y → IsPath p x trs y
  | _, _, [], hq => hq
  | _, _, tr :: _, hq => ⟨(h tr).1 ▸ hq.1, IsPath.congr h ((h tr).2 ▸ hq.2)⟩

/-- The machine is locked as before, and its transitions lead where they did. -/
structure KeepsLock (p q : Process W) : Prop where
  locked : q.mach.locked = true
  mempool : q.mach.mempool = p.mach.mempool
  counts : q.mach.statesCount = p.mach.statesCount ∧ q.mach.transitCount = p.mach.transitCount
  ends : ∀ a, (q.transition a).fromState = (p.transition a).fromState
    ∧ (q.transition a).toState = (p.transition a).toState

theorem KeepsLock.trans {p q r : Process W} (h : KeepsLock p q) (h' : KeepsLock q r) :
    KeepsLock p r where
  locked := h'.locked
  mempool := h'.mempool.trans h.mempool
  counts := ⟨h'.counts.1.trans h.counts.1, h'.counts.2.trans h.counts.2⟩
  ends a := ⟨(h'.ends a).1.trans (h.ends a).1, (h'.ends a).2.trans (h.ends a).2⟩

/-- The machine is locked as before, and the transitions performed lead from the state it was in to
the one it is in, and to the one each callback found it in, as long as the locks are steady. -/
structure Travels (p q : Process W) (h : List Action) : Prop where
  keeps : KeepsLock p q
  history : q.history = p.history ++ h
  path : Steady h → IsPath p p.mach.currentState (h.filterMap Action.move) q.mach.currentState
  seen : Steady h → ∀ (i : ℕ) (key : Option Stringshare) (data : Addr) (found : Option Addr)
    (current : Addr), h[i]? = some (.invoked key data found current) →
      IsPath p p.mach.currentState ((h.take i).filterMap Action.move) current

theorem Steady.left {h h' : List Action} (hs : Steady (h ++ h')) : Steady h :=
  fun x y hm => hs x y (List.mem_append_left _ hm)

theorem Steady.right {h h' : List Action} (hs : Steady (h ++ h')) : Steady h' :=
  fun x y hm => hs x y (List.mem_append_right _ hm)

theorem Travels.trans {p q r : Process W} {h h' : List Action} (ht : Travels p q h)
    (ht' : Travels q r h') : Travels p r (h ++ h') where
  keeps := ht.keeps.trans ht'.keeps
  history := by rw [ht'.history, ht.history, List.append_assoc]
  path := by
    intro hs
    rw [List.filterMap_append]
    exact (ht.path hs.left).append (IsPath.congr ht.keeps.ends (ht'.path hs.right))
  seen := by
    intro hs i key data found current hi
    rcases entry_append hi with ⟨hi, htake⟩ | ⟨hi, htake⟩ <;> rw [htake]
    · exact ht.seen hs.left i key data found current hi
    · rw [List.filterMap_append]
      exact (ht.path hs.left).append
        (IsPath.congr ht.keeps.ends (ht'.seen hs.right _ key data found current hi))

/-- A stringshare taken and given back. -/
theorem Travels.bracket {p q : Process W} {s : Stringshare} {h : List Action}
    (ht : Travels (p.share s) q h) : Travels p (q.unshare s) h where
  keeps := ⟨ht.keeps.locked, ht.keeps.mempool, ht.keeps.counts, ht.keeps.ends⟩
  history := ht.history
  path hs := IsPath.congr (p := p) (q := p.share s) (fun _ => ⟨rfl, rfl⟩) (ht.path hs)
  seen hs i key data found current hi := IsPath.congr (p := p) (q := p.share s)
    (fun _ => ⟨rfl, rfl⟩) (ht.seen hs i key data found current hi)

/-- Nothing is done to the machine. -/
theorem Travels.of_eq {p q : Process W} (hk : KeepsLock p q) (hh : q.history = p.history)
    (hc : q.mach.currentState = p.mach.currentState) : Travels p q [] :=
  ⟨hk, by rw [hh, List.append_nil], fun _ => hc.symm, fun _ i _ _ _ _ hi => by simp at hi⟩

/-- What is done performs no transition. -/
theorem Travels.of_action {p q : Process W} {a : Action} (hk : KeepsLock p q)
    (hh : q.history = p.history ++ [a]) (hm : a.move = none)
    (hc : Steady [a] → q.mach.currentState = p.mach.currentState)
    (hs : ∀ key data found current, a = .invoked key data found current →
      current = p.mach.currentState) :
    Travels p q [a] where
  keeps := hk
  history := hh
  path := by
    intro hst
    simp only [List.filterMap_cons, hm, List.filterMap_nil]
    exact (hc hst).symm
  seen := by
    intro _ i key data found current hi
    obtain ⟨hlt, ha⟩ := List.getElem?_eq_some_iff.1 hi
    obtain rfl : i = 0 := by simpa using hlt
    exact (hs key data found current ha).symm

/-- A transition performed where the machine has stayed. -/
theorem Travels.moved {p q : Process W} {h : List Action} {tr : Addr} (ht : Travels p q h)
    (hm : h.filterMap Action.move = [])
    (hfrom : (p.transition tr).fromState = p.mach.currentState) :
    Travels p ((q.setMach { q.mach with currentState := (q.transition tr).toState }).record
      (.moved tr)) (h ++ [.moved tr]) where
  keeps := ⟨ht.keeps.locked, ht.keeps.mempool, ht.keeps.counts, ht.keeps.ends⟩
  history := by
    simp only [Process.record, Process.setMach, ht.history, List.append_assoc]
  path := by
    intro _
    rw [List.filterMap_append, hm]
    exact ⟨hfrom, (ht.keeps.ends tr).2.symm⟩
  seen := by
    intro hs i key data found current hi
    rcases entry_append hi with ⟨hi, htake⟩ | ⟨hi, -⟩
    · rw [htake]
      exact ht.seen hs.left i key data found current hi
    · have hmem := List.mem_singleton.1 (List.mem_of_getElem? hi)
      simp at hmem

section Calls

variable {env : Env W} {p q : Process W}

theorem KeepsLock.of_eq (hl : q.mach.locked = true) (hm : q.mach.mempool = p.mach.mempool)
    (hs : q.mach.statesCount = p.mach.statesCount)
    (ht : q.mach.transitCount = p.mach.transitCount) (htr : q.transition = p.transition) :
    KeepsLock p q :=
  ⟨hl, hm, ⟨hs, ht⟩, by simp [htr]⟩

/-- A call that performs no transition. -/
theorem apiCall_travels {run : Process W → CStr → Process W × Option Bool} {c : Call} {b : Bool}
    (hl : p.mach.locked = true) (hc : ∀ t, c ≠ .transitionDo t)
    (hcall : apiCall env run p c = (q, some b)) :
    ∃ h, Travels p q h ∧ h.filterMap Action.move = [] ∧ q.mach.inCb = p.mach.inCb := by
  cases apiCall_step env hc hcall with
  | same => exact ⟨[], .of_eq (.of_eq hl rfl rfl rfl rfl) rfl rfl, rfl, rfl⟩
  | refused shr => exact ⟨[], .of_eq (.of_eq hl rfl rfl rfl rfl) rfl rfl, rfl, rfl⟩
  | bound shr value _ =>
    exact ⟨_, .of_action (.of_eq hl rfl rfl rfl rfl) rfl rfl (fun _ => rfl)
      (fun _ _ _ _ h => by simp at h), rfl, rfl⟩
  | locked current _ =>
    exact ⟨_, .of_action (.of_eq rfl rfl rfl rfl rfl) rfl rfl
      (fun hs => hs _ _ List.mem_cons_self) (fun _ _ _ _ h => by simp at h), rfl, rfl⟩
  | registered mp hopen => simp [hl] at hopen
  | globalData data => exact ⟨[], .of_eq (.of_eq hl rfl rfl rfl rfl) rfl rfl, rfl, rfl⟩
  | errorCb func => exact ⟨[], .of_eq (.of_eq hl rfl rfl rfl rfl) rfl rfl, rfl, rfl⟩

/-- Inside a callback nothing moves the machine. -/
def Stays (p q : Process W) : Prop :=
  p.mach.locked = true → p.mach.inCb ≠ cbUnlocked →
    ∃ h, Travels p q h ∧ h.filterMap Action.move = [] ∧ q.mach.inCb = p.mach.inCb

theorem Stays.of_eq (hl : q.mach.locked = p.mach.locked) (hm : q.mach.mempool = p.mach.mempool)
    (hs : q.mach.statesCount = p.mach.statesCount)
    (ht : q.mach.transitCount = p.mach.transitCount) (htr : q.transition = p.transition)
    (hh : q.history = p.history) (hc : q.mach.currentState = p.mach.currentState)
    (hi : q.mach.inCb = p.mach.inCb) : Stays p q :=
  fun hp _ => ⟨[], .of_eq (.of_eq (hl.trans hp) hm hs ht htr) hh hc, rfl, hi⟩

theorem stays_preserves (env : Env W) : Preserves env Stays where
  refl p := .of_eq rfl rfl rfl rfl rfl rfl rfl rfl
  trans := by
    intro p q r h h' hl hc
    obtain ⟨evs, ht, hm, hi⟩ := h hl hc
    obtain ⟨evs', ht', hm', hi'⟩ := h' ht.keeps.locked (hi ▸ hc)
    exact ⟨evs ++ evs', ht.trans ht', by rw [List.filterMap_append, hm, hm', List.append_nil],
      hi'.trans hi⟩
  world p w := .of_eq rfl rfl rfl rfl rfl rfl rfl rfl
  log p e _ := .of_eq rfl rfl rfl rfl rfl rfl rfl rfl
  call := fun hc hcall hl _ => apiCall_travels hl hc hcall
  defer p l := .of_eq rfl rfl rfl rfl rfl rfl rfl rfl
  bracket := by
    intro p q s h hl hc
    obtain ⟨evs, ht, hm, hi⟩ := h hl hc
    exact ⟨evs, ht.bracket, hm, hi⟩

theorem transitionDo_stays (fuel : ℕ) {t : CStr} {b : Bool}
    (h : machineTransitionDo env fuel p t = (q, some b)) : Stays p q :=
  fun hl hc => (stays_preserves env).transitionDo_in_cb hl hc h hl hc

theorem entering_travels (hl : p.mach.locked = true) (wrp : WrapperRef) (type : CbType)
    (tr : Addr) : ∃ h, Travels p (p.entering wrp type tr) h ∧ h.filterMap Action.move = [] := by
  have hshape := entering_shape p wrp type tr
  refine ⟨[.invoked (miscCbCache p.mach (p.wrapper wrp)).1.key
    (miscCbCache p.mach (p.wrapper wrp)).1.data
    (hashFind p.mach.data (miscCbCache p.mach (p.wrapper wrp)).1.key) p.mach.currentState],
    .of_action ⟨?_, ?_, ?_, fun a => (hshape.transition a).2⟩ ?_ rfl (fun _ => ?_) ?_, rfl⟩
  · simpa using hl
  · simp
  · simp
  · exact entering_history p wrp type tr
  · simp
  · rintro key data found current h
    simp only [Action.invoked.injEq] at h
    exact h.2.2.2.symm

theorem leaving_travels (hl : p.mach.locked = true) (wrp : WrapperRef) (type : CbType)
    (tr : Addr) (result : ℤ) : Travels p (p.leaving wrp type tr result) [] := by
  have hshape := leaving_shape p wrp type tr result
  refine .of_eq ⟨?_, ?_, ?_, fun a => (hshape.transition a).2⟩ ?_ ?_
  · simpa using hl
  · simp
  · simp
  · exact leaving_history p wrp type tr result
  · simp

/-- A callback that is called leaves the machine where it was, as long as its locks are steady. -/
theorem miscCbCall_travels {fuel : ℕ} (hl : p.mach.locked = true) {wrp : WrapperRef}
    {type : CbType} {tr : Addr}
    (h : miscCbCall env (machineTransitionDo env fuel) p wrp type tr = (q, some ())) :
    ∃ evs, Travels p q evs ∧ evs.filterMap Action.move = [] := by
  by_cases hf : (p.wrapper wrp).func = 0
  · unfold miscCbCall at h
    rw [if_pos hf] at h
    obtain ⟨rfl, -⟩ := Prod.mk.inj h
    exact ⟨[], .of_eq (.of_eq hl rfl rfl rfl rfl) rfl rfl, rfl⟩
  · rw [miscCbCall_eq env _ type tr hf] at h
    split at h
    · simp at h
    · rename_i q' result hprog
      obtain ⟨rfl, -⟩ := Prod.mk.inj h
      obtain ⟨evs, ht, hm⟩ := entering_travels hl wrp type tr
      obtain ⟨evs', ht', hm', -⟩ := (stays_preserves env).runProg
        (fun _ _ _ _ => transitionDo_stays fuel) _ hprog ht.keeps.locked (by simpa using type.code_ne)
      refine ⟨_, (ht.trans ht').trans (leaving_travels ht'.keeps.locked wrp type tr result), ?_⟩
      simp [List.filterMap_append, hm, hm']

/-- A transition that leaves the current state is one more step of the path. -/
theorem fire_travels {fuel : ℕ} (hl : p.mach.locked = true) {tr : Addr}
    (hfrom : (p.transition tr).fromState = p.mach.currentState)
    (h : fire env (machineTransitionDo env fuel) p tr = (q, some ())) :
    ∃ evs, Travels p q evs := by
  obtain ⟨p₀, hp₀⟩ : ∃ p₀, p₀ = p.setMach { p.mach with currentTransition := tr } := ⟨_, rfl⟩
  have h₀ : Travels p p₀ [] := by
    rw [hp₀]
    exact .of_eq (.of_eq hl rfl rfl rfl rfl) rfl rfl
  unfold fire at h
  simp only [stateCbCall, ← hp₀] at h
  split at h
  · simp at h
  · rename_i p₁ hrun₁
    split at h
    · simp at h
    · rename_i p₂ hrun₂
      obtain ⟨p₃, hp₃⟩ : ∃ p₃, p₃ = (p₂.setMach
        { p₂.mach with currentState := (p₂.transition tr).toState }).record (.moved tr) := ⟨_, rfl⟩
      simp only [← hp₃] at h
      obtain ⟨evs₁, h₁, hm₁⟩ := miscCbCall_travels h₀.keeps.locked hrun₁
      obtain ⟨evs₂, h₂, hm₂⟩ := miscCbCall_travels h₁.keeps.locked hrun₂
      have h₃ := ((h₀.trans h₁).trans h₂).moved (by simp [List.filterMap_append, hm₁, hm₂]) hfrom
      rw [← hp₃] at h₃
      obtain ⟨evs₄, h₄, -⟩ := miscCbCall_travels h₃.keeps.locked h
      exact ⟨_, h₃.trans h₄⟩

end Calls

/-! ## A run -/

/-- What a run does to a locked machine. -/
def Moves (p q : Process W) : Prop := p.mach.locked = true → ∃ h, Travels p q h

theorem moves_preserves (env : Env W) : Preserves env Moves where
  refl p hl := ⟨[], .of_eq (.of_eq hl rfl rfl rfl rfl) rfl rfl⟩
  trans := by
    intro p q r h h' hl
    obtain ⟨evs, ht⟩ := h hl
    obtain ⟨evs', ht'⟩ := h' ht.keeps.locked
    exact ⟨evs ++ evs', ht.trans ht'⟩
  world p w hl := ⟨[], .of_eq (.of_eq hl rfl rfl rfl rfl) rfl rfl⟩
  log p e _ hl := ⟨[], .of_eq (.of_eq hl rfl rfl rfl rfl) rfl rfl⟩
  call := by
    intro p q run c b hc hcall hl
    obtain ⟨h, ht, -⟩ := apiCall_travels hl hc hcall
    exact ⟨h, ht⟩
  defer p l hl := ⟨[], .of_eq (.of_eq hl rfl rfl rfl rfl) rfl rfl⟩
  bracket := by
    intro p q s h hl
    obtain ⟨evs, ht⟩ := h hl
    exact ⟨evs, ht.bracket⟩

theorem moves_fires (env : Env W) : Fires env Moves :=
  fun _ _ _ _ _ _ _ hfrom hfire hl => fire_travels hl hfrom hfire

/-- From the first lock that takes effect, as long as no later lock names another state than the
machine is in, the machine stays locked with its registrations unchanged, and the transitions
performed since lead from the state it was locked in to its current state, after every call and
wherever a callback was called. -/
theorem lock_travels {env : Env W} {p q : Process W} {s₀ : Addr}
    (hl : p.mach.locked = false) (hs : (machineLock p s₀).mach.locked = true)
    (hrun : Run env (machineLock p s₀) q) :
    q.mach.locked = true ∧ machineCurrentStateGet q = q.mach.currentState ∧
      q.mach.mempool = p.mach.mempool ∧ q.mach.statesCount = p.mach.statesCount ∧
      q.mach.transitCount = p.mach.transitCount ∧
      ∃ h, q.history = (machineLock p s₀).history ++ h ∧
        (Steady h → IsPath q s₀ (h.filterMap Action.move) q.mach.currentState ∧
          ∀ (i : ℕ) (key : Option Stringshare) (data : Addr) (found : Option Addr)
            (current : Addr), h[i]? = some (.invoked key data found current) →
              IsPath q s₀ ((h.take i).filterMap Action.move) current) := by
  obtain ⟨hs₀, hsreg, htreg⟩ := complete_of_machineLock hl hs
  have hlock := machineLock_complete hs₀ hsreg htreg
  obtain ⟨h, ht⟩ := (moves_preserves env).run (moves_fires env) hrun hs
  have hcur : (machineLock p s₀).mach.currentState = s₀ := by rw [hlock]; rfl
  have hends : ∀ a, ((machineLock p s₀).transition a).fromState = (q.transition a).fromState ∧
      ((machineLock p s₀).transition a).toState = (q.transition a).toState :=
    fun a => ⟨(ht.keeps.ends a).1.symm, (ht.keeps.ends a).2.symm⟩
  refine ⟨ht.keeps.locked, ?_, ?_, ?_, ?_, h, ht.history, fun hsteady => ⟨?_, ?_⟩⟩
  · rw [machineCurrentStateGet, if_pos ht.keeps.locked]
  · rw [ht.keeps.mempool, hlock]
    rfl
  · rw [ht.keeps.counts.1, hlock]
    rfl
  · rw [ht.keeps.counts.2, hlock]
    rfl
  · have hpath := ht.path hsteady
    rw [hcur] at hpath
    exact IsPath.congr hends hpath
  · intro i key data found current hi
    have hseen := ht.seen hsteady i key data found current hi
    rw [hcur] at hseen
    exact IsPath.congr hends hseen

/-! ## A machine that is locked twice -/

/-- The machine of `forwardingProcess` before it is locked. -/
def openProcess : Process Unit :=
  forwardingProcess.setMach { forwardingProcess.mach with currentState := 0, locked := false }

/-- Locked in its first state and then, with no transition performed, in its second one. -/
theorem lock_jumps : openProcess.mach.locked = false ∧
    (machineLock openProcess 1).mach.locked = true ∧
    Run forwarding (machineLock openProcess 1) (machineLock (machineLock openProcess 1) 2) ∧
    (machineLock (machineLock openProcess 1) 2).history =
      (machineLock openProcess 1).history ++ [.locked 1 2] ∧
    (machineLock (machineLock openProcess 1) 2).mach.currentState = 2 ∧
    ¬ IsPath (machineLock (machineLock openProcess 1) 2) 1
      ([Action.locked 1 2].filterMap Action.move) 2 := by
  refine ⟨rfl, rfl, @Run.call _ _ _ _ _ 0 (.lock 2) true .start rfl, rfl, rfl, ?_⟩
  intro hpath
  exact absurd (show (1 : Addr) = 2 from hpath) (by simp)

/-- Locked in its first state, and after its transition `a` and what that one asks for. -/
def turned : Process Unit := (machineTransitionDo forwarding 2 (machineLock openProcess 1) 20).1

theorem turned_travels : turned.mach.locked = true ∧
    machineCurrentStateGet turned = turned.mach.currentState ∧
    turned.mach.mempool = openProcess.mach.mempool ∧
    turned.mach.statesCount = openProcess.mach.statesCount ∧
    turned.mach.transitCount = openProcess.mach.transitCount ∧
    ∃ h, turned.history = (machineLock openProcess 1).history ++ h ∧
      (Steady h → IsPath turned 1 (h.filterMap Action.move) turned.mach.currentState ∧
        ∀ (i : ℕ) (key : Option Stringshare) (data : Addr) (found : Option Addr)
          (current : Addr), h[i]? = some (.invoked key data found current) →
            IsPath turned 1 ((h.take i).filterMap Action.move) current) := by
  have hdo : (machineTransitionDo forwarding 2 (machineLock openProcess 1) 20).2 = some true := by
    decide
  have hrun : Run forwarding (machineLock openProcess 1) turned :=
    .call (c := .transitionDo 20) .start (Prod.ext rfl hdo)
  exact lock_travels rfl rfl hrun

end Estate
