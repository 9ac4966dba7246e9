import Estate.Eina

/-!
# What `estate_cc` reads a file into
-/

namespace Estate.Cc

/-- `struct _Cb`. -/
structure Cb where
  func : Option Stringshare := none
  data : Option Stringshare := none
  deriving DecidableEq, Repr

/-- `struct _State`. The transitions of `trs` are known by their names. `check.from` and `check.to`
count transitions of one hash, whose population is an `int`: they do not wrap. -/
structure State where
  name : Stringshare
  enterer : Cb := {}
  exiter : Cb := {}
  checkFrom : ℕ := 0
  checkTo : ℕ := 0
  trs : List Stringshare := []
  deriving DecidableEq, Repr

/-- `struct _Transit`. -/
structure Transit where
  name : Stringshare
  fromState : Option Stringshare := none
  toState : Option Stringshare := none
  cb : Cb := {}
  enterer : Cb := {}
  exiter : Cb := {}
  deriving DecidableEq, Repr

/-- `struct _Fsm`. -/
structure Fsm where
  name : Stringshare
  transitions : EinaHash Transit := ∅
  states : EinaHash State := ∅
  dataKeys : EinaHash Stringshare := ∅
  init : Option Stringshare := none
  deriving DecidableEq

/-- `state_new`. -/
def stateNew (name : Stringshare) : State := { name := name }

/-- `transit_new`. -/
def transitNew (name : Stringshare) : Transit := { name := name }

/-- `fsm_new`. -/
def fsmNew (name : Stringshare) : Fsm := { name := name }

/-- The transitions of an FSM. -/
def Fsm.transits (f : Fsm) : List Transit := f.transitions.entries.map Sigma.snd

/-- The states each transition leads from and to. -/
def Fsm.pairs (f : Fsm) : List (Option Stringshare × Option Stringshare) :=
  f.transits.map fun t => (t.fromState, t.toState)

/-- The states of an FSM. -/
def Fsm.stateList (f : Fsm) : List State := f.states.entries.map Sigma.snd

/-- An FSM as the parser leaves it: every entry lies under its own name, the check has not run,
and the initial state, if given, is described. -/
structure Fsm.Parsed (f : Fsm) : Prop where
  transit_name : ∀ e ∈ f.transitions.entries, e.2.name = e.1
  state_name : ∀ e ∈ f.states.entries, e.2.name = e.1
  state_fresh : ∀ e ∈ f.states.entries, e.2.checkFrom = 0 ∧ e.2.checkTo = 0 ∧ e.2.trs = []
  init_mem : ∀ i, f.init = some i → i ∈ f.states

end Estate.Cc
