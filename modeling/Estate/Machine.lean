import Estate.Eina
import Estate.Mempool
import Estate.Lib.Search

/-!
# The state machine at run time

`src/lib`: the machine, its states and its transitions, in one memory that maps addresses to
structures. A callback is a program that may call the library before it returns; what the rest of
the process holds is a world the callbacks rewrite freely, the strings they hand over included.

`estate_machine_transition_do` calls itself on the transitions deferred by callbacks, so it takes
a fuel that bounds the depth of these calls. What happens is recorded in a trace.
-/

namespace Estate

/-- `Estate_Cb_Type`. -/
inductive CbType
  | enterer
  | exiter
  | transition
  deriving DecidableEq, Repr

def CbType.code : CbType → UInt8
  | .enterer => 0
  | .exiter => 1
  | .transition => 2

/-- `CB_UNLOCKED`: no callback is running. -/
def cbUnlocked : UInt8 := 0xff

/-- `ESTATE_CB_OK`. -/
def cbOk : ℤ := 0

/-- `struct _Estate_Cb_Wrapper`. -/
structure CbWrapper where
  func : Addr := 0
  data : Addr := 0
  key : Option Stringshare := none
  result : ℤ := 0
  deriving DecidableEq, Repr

/-- `struct _Estate_State`. -/
structure State where
  name : Option Stringshare := none
  enterer : CbWrapper := {}
  exiter : CbWrapper := {}
  transit : List Addr := []
  transitCount : UInt32 := 0
  deriving DecidableEq, Repr

/-- `struct _Estate_Transition`. -/
structure Transition where
  name : Option Stringshare := none
  fromState : Addr := 0
  toState : Addr := 0
  cb : CbWrapper := {}
  stEnterer : CbWrapper := {}
  stExiter : CbWrapper := {}
  deriving DecidableEq, Repr

/-- `struct _Estate_Machine`. -/
structure Machine where
  mempool : Mempool
  currentState : Addr
  currentTransition : Addr
  errorCb : Addr
  data : EinaHash Addr
  cbDefer : List CStr
  globalData : Addr
  statesCount : UInt32
  transitCount : UInt32
  inCb : UInt8
  locked : Bool

/-- What a run leaves behind. -/
inductive Event
  /-- `estate_machine_transition_do` looks a transition up. -/
  | attempt (arg : CStr) (name : Stringshare)
  /-- `estate_machine_transition_do` defers a transition. -/
  | request (arg : CStr) (name : Stringshare)
  | cbEnter (type : CbType) (tr func data current : Addr)
  | cbLeave (type : CbType) (tr : Addr) (result : ℤ)
  | errorCb (arg : CStr) (msg : List Char)
  /-- A message handed to the logger as its format. -/
  | log (fmt : List Char)
  /-- `free` on an address. -/
  | freed (a : Addr)
  deriving DecidableEq, Repr

/-- What a machine has done, in order; nothing reads it back. -/
inductive Action
  /-- `estate_machine_lock` has set the current state. -/
  | locked (previous current : Addr)
  /-- `estate_machine_transition_do` has entered the state a transition leads to. -/
  | moved (tr : Addr)
  /-- `estate_machine_data_set` has added a binding. -/
  | bound (key : Stringshare) (value : Addr)
  /-- A callback is called with the data of its wrapper, when the machine holds `found` for its
  key. -/
  | invoked (key : Option Stringshare) (data : Addr) (found : Option Addr) (current : Addr)
  deriving DecidableEq, Repr

/-- The memory the library works on, with the world of the caller. The states and the transitions of
a machine lie in one pool; two maps stand for it, which is right as long as no slot lies on another
(`BuiltApart`). -/
structure Process (W : Type) where
  mach : Machine
  state : Addr → State
  transition : Addr → Transition
  /-- How many references each stringshare holds. -/
  shares : Stringshare → ℤ
  world : W
  trace : List Event
  history : List Action := []

/-- The calls a callback can make on its machine. -/
inductive Call
  | transitionDo (transition : CStr)
  | dataSet (key : CStr) (value : Addr)
  | lock (current : Addr)
  | stateAdd (state : Addr)
  | transitionAdd (tr : Addr)
  | globalDataSet (data : Addr)
  | errorCbSet (errorCb : Addr)
  deriving DecidableEq, Repr

/-- A callback at work: it returns, or it calls the library and goes on with the answer. -/
inductive CbProg (W : Type)
  | ret (w : W) (result : ℤ)
  | call (w : W) (c : Call) (k : Process W → Bool → CbProg W)

/-- What the process brings to the library. -/
structure Env (W : Type) where
  addr : Placement
  /-- The C string at an address. -/
  deref : W → CStr → Stringshare
  /-- Whether `eina_hash_add` finds memory. -/
  hashAdds : W → Bool
  callback : (func data : Addr) → CbType → (tr : Addr) → Process W → CbProg W
  errorCallback : (func : Addr) → (arg : CStr) → (msg : List Char) → Process W → CbProg W

variable {W : Type}

namespace Process

@[simp]
def log (p : Process W) (e : Event) : Process W := { p with trace := p.trace ++ [e] }

@[simp]
def record (p : Process W) (a : Action) : Process W := { p with history := p.history ++ [a] }

/-- `eina_stringshare_add`. -/
@[simp]
def share (p : Process W) (s : Stringshare) : Process W :=
  { p with shares := Function.update p.shares s (p.shares s + 1) }

/-- `eina_stringshare_del`. -/
@[simp]
def unshare (p : Process W) (s : Stringshare) : Process W :=
  { p with shares := Function.update p.shares s (p.shares s - 1) }

@[simp]
def setMach (p : Process W) (m : Machine) : Process W := { p with mach := m }

@[simp]
def setState (p : Process W) (a : Addr) (st : State) : Process W :=
  { p with state := Function.update p.state a st }

@[simp]
def setTransition (p : Process W) (a : Addr) (tr : Transition) : Process W :=
  { p with transition := Function.update p.transition a tr }

@[simp]
def setWorld (p : Process W) (w : W) : Process W := { p with world := w }

end Process

/-! ## Callback wrappers -/

/-- The wrappers that are called: two in a state, one in a transition. -/
inductive WrapperRef
  | enterer (st : Addr)
  | exiter (st : Addr)
  | cb (tr : Addr)
  deriving DecidableEq, Repr

def Process.wrapper (p : Process W) : WrapperRef → CbWrapper
  | .enterer st => (p.state st).enterer
  | .exiter st => (p.state st).exiter
  | .cb tr => (p.transition tr).cb

def Process.setWrapper (p : Process W) (r : WrapperRef) (w : CbWrapper) : Process W :=
  match r with
  | .enterer st => p.setState st { p.state st with enterer := w }
  | .exiter st => p.setState st { p.state st with exiter := w }
  | .cb tr => p.setTransition tr { p.transition tr with cb := w }

/-- `_estate_misc_cb_cache`: the wrapper after it. -/
def miscCbCache (m : Machine) (w : CbWrapper) : CbWrapper × Bool :=
  match w.key with
  | none => (w, true)
  | some key =>
    if w.data = 0 then
      match hashFind m.data (some key) with
      | none => (w, false)
      | some data => ({ w with data := data }, true)
    else (w, true)

/-! ## The machine's functions -/

/-- `estate_machine_state_add`. -/
def machineStateAdd (p : Process W) (state : Addr) : Process W × Bool :=
  if state = 0 then (p, false)
  else if p.mach.locked then (p, false)
  else
    let reg := p.mach.mempool.statesReg + 1
    let p := p.setMach { p.mach with mempool := { p.mach.mempool with statesReg := reg } }
    if reg > p.mach.statesCount then (p, false) else (p, true)

/-- `estate_machine_transition_add`. -/
def machineTransitionAdd (p : Process W) (tr : Addr) : Process W × Bool :=
  if tr = 0 then (p, false)
  else if p.mach.locked then (p, false)
  else
    let reg := p.mach.mempool.transitReg + 1
    let p := p.setMach { p.mach with mempool := { p.mach.mempool with transitReg := reg } }
    if reg > p.mach.transitCount then (p, false) else (p, true)

/-- `estate_machine_lock`. -/
def machineLock (p : Process W) (current : Addr) : Process W :=
  if current = 0 then p
  else if p.mach.mempool.statesReg ≠ p.mach.statesCount then p
  else if p.mach.mempool.transitReg ≠ p.mach.transitCount then p
  else
    (p.setMach { p.mach with currentState := current, locked := true }).record
      (.locked p.mach.currentState current)

/-- `estate_machine_current_state_get`. -/
def machineCurrentStateGet (p : Process W) : Addr := if p.mach.locked then p.mach.currentState else 0

/-- `estate_machine_global_data_get`. -/
def machineGlobalDataGet (p : Process W) : Addr := p.mach.globalData

/-- `estate_machine_data_set`. -/
def machineDataSet (env : Env W) (p : Process W) (key : CStr) (value : Addr) :
    Process W × Bool :=
  if key = 0 then (p, false)
  else if value = 0 then (p, false)
  else if !p.mach.locked then (p, false)
  else
    let shr := env.deref p.world key
    let p := p.share shr
    match hashFind p.mach.data (some shr) with
    | some _ => (p.unshare shr, false)
    | none =>
      if env.hashAdds p.world then
        ((p.setMach { p.mach with data := hashAdd p.mach.data (some shr) value }).record
          (.bound shr value), true)
      else (p.unshare shr, false)

/-- `estate_machine_global_data_set`. -/
def machineGlobalDataSet (p : Process W) (data : Addr) : Process W :=
  if p.mach.globalData ≠ 0 then p else p.setMach { p.mach with globalData := data }

/-- `estate_machine_error_cb_set`. -/
def machineErrorCbSet (p : Process W) (errorCb : Addr) : Process W :=
  p.setMach { p.mach with errorCb := errorCb }

/-- `estate_machine_cb_check`; `none` when it reads through NULL. -/
def machineCbCheck (p : Process W) (type : CbType) : Option ℤ :=
  if !p.mach.locked then some 0
  else
    match type with
    | .enterer =>
      if p.mach.currentState = 0 then none else some (p.state p.mach.currentState).enterer.result
    | .transition =>
      if p.mach.currentTransition = 0 then none
      else some (p.transition p.mach.currentTransition).cb.result
    | .exiter =>
      if p.mach.currentTransition = 0 then none
      else
        let st := (p.transition p.mach.currentTransition).fromState
        if st = 0 then none else some (p.state st).exiter.result

/-! ## Transitions -/

section Transitions

variable (env : Env W)

/-- One call made by a callback; `transitionDo` is the library function called again. -/
def apiCall (transitionDo : Process W → CStr → Process W × Option Bool) (p : Process W) :
    Call → Process W × Option Bool
  | .transitionDo t => transitionDo p t
  | .dataSet key value =>
    ((machineDataSet env p key value).1, some (machineDataSet env p key value).2)
  | .lock current => (machineLock p current, some true)
  | .stateAdd state => ((machineStateAdd p state).1, some (machineStateAdd p state).2)
  | .transitionAdd tr => ((machineTransitionAdd p tr).1, some (machineTransitionAdd p tr).2)
  | .globalDataSet data => (machineGlobalDataSet p data, some true)
  | .errorCbSet errorCb => (machineErrorCbSet p errorCb, some true)

/-- Runs a callback to its end: its result, or `none` when a call it made ran out of fuel. -/
def runProg (transitionDo : Process W → CStr → Process W × Option Bool) :
    CbProg W → Process W → Process W × Option ℤ
  | .ret w result, p => (p.setWorld w, some result)
  | .call w c k, p =>
    match apiCall env transitionDo (p.setWorld w) c with
    | (p, none) => (p, none)
    | (p, some r) => runProg transitionDo (k p r) p

/-- `_estate_misc_cb_call`. -/
def miscCbCall (transitionDo : Process W → CStr → Process W × Option Bool) (p : Process W)
    (wrp : WrapperRef) (type : CbType) (tr : Addr) : Process W × Option Unit :=
  if (p.wrapper wrp).func = 0 then (p, some ())
  else
    let w := (miscCbCache p.mach (p.wrapper wrp)).1
    let p := p.setWrapper wrp w
    let p := p.setMach { p.mach with inCb := type.code }
    let p := p.log (.cbEnter type tr w.func w.data p.mach.currentState)
    let p := p.record (.invoked w.key w.data (hashFind p.mach.data w.key) p.mach.currentState)
    match runProg env transitionDo (env.callback w.func w.data type tr p) p with
    | (p, none) => (p, none)
    | (p, some result) =>
      let p := p.setWrapper wrp { p.wrapper wrp with result := result }
      let p := p.setMach { p.mach with inCb := cbUnlocked }
      (p.log (.cbLeave type tr result), some ())

/-- `_estate_state_cb_call`. -/
def stateCbCall (transitionDo : Process W → CStr → Process W × Option Bool) (p : Process W)
    (st tr : Addr) (type : CbType) : Process W × Option Unit :=
  match type with
  | .enterer => miscCbCall env transitionDo p (.enterer st) type tr
  | .exiter => miscCbCall env transitionDo p (.exiter st) type tr
  | .transition => (p, some ())

/-- `_compare_cb` of a key against one transition of the array. -/
def compareCb (p : Process W) (shr : Stringshare) (t : Addr) : ℤ :=
  ptrDiffInt (env.addr shr) (((p.transition t).name.map env.addr).getD 0)

/-- `estate_state_sort_transitions_cb`. -/
def stateSortTransitionsCb (p : Process W) (t₁ t₂ : Addr) : ℤ :=
  ptrDiffInt (((p.transition t₁).name.map env.addr).getD 0)
    (((p.transition t₂).name.map env.addr).getD 0)

/-- The `bsearch` of `estate_machine_transition_do`. -/
def findTransition (p : Process W) (shr : Stringshare) : Option Addr :=
  let st := p.state p.mach.currentState
  Lib.search (compareCb env p shr) (st.transit.take st.transitCount.toNat)

/-- The tail of a failed `estate_machine_transition_do`, past its label `fail`. -/
def transitionFail (transitionDo : Process W → CStr → Process W × Option Bool) (p : Process W)
    (t : CStr) (shr : Stringshare) (msg : List Char) : Process W × Option Bool :=
  if p.mach.errorCb = 0 then (p.unshare shr, some false)
  else
    let p := p.log (.errorCb t msg)
    match runProg env transitionDo (env.errorCallback p.mach.errorCb t msg p) p with
    | (p, none) => (p, none)
    | (p, some _) => (p.unshare shr, some false)

/-- The transitions deferred by the callbacks, done in order whatever each of them returns. -/
def drain (transitionDo : Process W → CStr → Process W × Option Bool) :
    List CStr → Process W → Process W × Option Unit
  | [], p => (p, some ())
  | t :: deferred, p =>
    match transitionDo p t with
    | (p, none) => (p, none)
    | (p, some _) => drain transitionDo deferred p

/-- The three callbacks of a transition and the change of state between them. -/
def fire (transitionDo : Process W → CStr → Process W × Option Bool) (p : Process W) (tr : Addr) :
    Process W × Option Unit :=
  let p := p.setMach { p.mach with currentTransition := tr }
  match stateCbCall env transitionDo p (p.transition tr).fromState tr .exiter with
  | (p, none) => (p, none)
  | (p, some ()) =>
    match miscCbCall env transitionDo p (.cb tr) .transition tr with
    | (p, none) => (p, none)
    | (p, some ()) =>
      let p := p.setMach { p.mach with currentState := (p.transition tr).toState }
      let p := p.record (.moved tr)
      stateCbCall env transitionDo p (p.transition tr).toState tr .enterer

/-- `estate_machine_transition_do` once it is known not to defer. -/
def transitionRun (transitionDo : Process W → CStr → Process W × Option Bool) (p : Process W)
    (t : CStr) : Process W × Option Bool :=
  let shr := env.deref p.world t
  let p := (p.log (.attempt t shr)).share shr
  match findTransition env p shr with
  | none =>
    let text := "Could not find transition \"".toList ++ shr ++ "\" at current state (".toList
      ++ fmtStr (p.state p.mach.currentState).name ++ ")".toList
    let msg := (snprintf 2048 text).1
    transitionFail env transitionDo (p.log (.log msg)) t shr msg
  | some tr =>
    if (p.transition tr).fromState ≠ p.mach.currentState then
      let text := "Wtf?! Transition \"".toList ++ fmtStr (p.transition tr).name
        ++ "\" is inconsistent".toList
      let msg := (snprintf 2048 text).1
      transitionFail env transitionDo (p.log (.log msg)) t shr msg
    else
      match fire env transitionDo p tr with
      | (p, none) => (p, none)
      | (p, some ()) =>
        let p := p.unshare shr
        let deferred := p.mach.cbDefer
        let p := p.setMach { p.mach with cbDefer := [] }
        match drain transitionDo deferred p with
        | (p, none) => (p, none)
        | (p, some ()) => (p, some true)

/-- The guards of `estate_machine_transition_do`, and what it does past them. -/
def transitionEnter (run : Process W → CStr → Process W × Option Bool) (p : Process W)
    (t : CStr) : Process W × Option Bool :=
  if t = 0 then (p, some false)
  else if !p.mach.locked then
    (p.log (.log "Attempt to do a transition, but the state machine is not locked".toList),
      some false)
  else if p.mach.inCb ≠ cbUnlocked then
    let p := p.log (.request t (env.deref p.world t))
    (p.setMach { p.mach with cbDefer := p.mach.cbDefer ++ [t] }, some true)
  else run p t

/-- `estate_machine_transition_do`; `none` when the fuel was not enough. -/
def machineTransitionDo : ℕ → Process W → CStr → Process W × Option Bool
  | 0 => transitionEnter env fun p _ => (p, none)
  | fuel + 1 => transitionEnter env (transitionRun env (machineTransitionDo fuel))

end Transitions

/-! ## Runs -/

/-- The callbacks make no call on the machine. -/
def Quiet (env : Env W) : Prop :=
  ∀ func data type tr p, ∃ w result, env.callback func data type tr p = .ret w result

/-- What a process may become by calls to the library that end, with the world changing freely
between them. -/
inductive Run (env : Env W) (p : Process W) : Process W → Prop
  | start : Run env p p
  | call {q q' : Process W} {fuel : ℕ} {c : Call} {b : Bool} (h : Run env p q)
      (hc : apiCall env (machineTransitionDo env fuel) q c = (q', some b)) : Run env p q'
  | world {q : Process W} (h : Run env p q) (w : W) : Run env p (q.setWorld w)

end Estate
