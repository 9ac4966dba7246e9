import Estate.Cc.Lexeme
import Estate.Cc.Load

/-!
# What a generated loader is to rebuild

How a loader can end, and the machine it is to leave: every state and every transition of the FSM
initialised once, each transition in the array of the state it leaves, and the machine locked in
its initial state.
-/

namespace Estate

/-- No allocation fails. -/
structure Heap.Plentiful (heap : Heap) : Prop where
  malloc : ∀ size, ∃ a, heap.malloc size = some a ∧ a ≠ 0
  calloc : ∀ a n, heap.calloc a n = true
  hashNew : heap.hashNew = true

namespace Cc

variable {W : Type}

/-! ## How a loader can end -/

section Outcome

variable (prog : Program)

/-- The variables of a loader with those states and transitions. -/
def loaderVars (states transitions : List Stringshare) : List (List Char) :=
  ["fsm".toList, "chk".toList, "cb_ctor".toList, "enterer_ctor".toList, "exiter_ctor".toList] ++
    (states.map ("s_".toList ++ ·) ++ transitions.map ("t_".toList ++ ·))

/-- The variables of the block that initialises a state. -/
def blockVars : List (List Char) := ["trs".toList, "trs_count".toList]

/-- The constants of a callback have values, and its function is not hidden by a variable. -/
def CtorText.compiles (scope : List (List Char)) (c : CtorText) : Bool :=
  !scope.contains c.func && (prog.ctor c).isSome

/-- All variables of a statement are declared, and so are its constants. -/
def Stmt.compiles (l : Loader) : Stmt → Bool
  | .stateNew s _ => l.states.contains s
  | .transitionNew t => l.transitions.contains t
  | .stateInit s trs enterer exiter =>
    let scope := blockVars ++ loaderVars l.states l.transitions
    l.states.contains s && trs.all l.transitions.contains && enterer.compiles prog scope &&
      exiter.compiles prog scope
  | .transitionInit t fromState toState cb enterer exiter =>
    let scope := loaderVars l.states l.transitions
    l.transitions.contains t && fromState.any l.states.contains && toState.any l.states.contains &&
      cb.compiles prog scope && enterer.compiles prog scope && exiter.compiles prog scope

def Loader.compiles (l : Loader) : Bool :=
  l.body.all (Stmt.compiles prog l) && l.init.any l.states.contains

/-- What becomes of a loader. It does not look at what `estate_machine_new` returns, and the first
statement reads the pool of the machine. One that comes to no machine returns NULL, or is cut short
where a state finds no memory for its array. -/
inductive LoadOutcome (W : Type)
  | uncompiled
  | nullMachine
  | noMachine
  | returned (p : Process W)

def Loader.outcome (heap : Heap) (l : Loader) (shares : Stringshare → ℤ) (w : W) : LoadOutcome W :=
  if l.compiles prog then
    match machineNew heap (UInt32.ofNat l.stateCount) (UInt32.ofNat l.transitCount) with
    | none => if l.body = [] then .noMachine else .nullMachine
    | some _ =>
      match l.load heap prog shares w with
      | none => .noMachine
      | some p => .returned p
  else .uncompiled

/-- The functions that a loader declares are defined, and a literal of identifier characters reads
as it is spelled. -/
structure Program.Links (l : Loader) : Prop where
  func : ∀ name ∈ l.protos, (prog.func name).isSome = true
  literal : ∀ s, Spelled s → prog.literal s = some s

end Outcome

/-- No variable in scope has the name of the function of a callback. -/
def Cb.Visible (c : Cb) (scope : List (List Char)) : Prop := ∀ name, c.func = some name → name ∉ scope

/-- The names that a loader prints are names of what is meant: every transition has both its
states, and every function of a callback is visible where it is assigned. -/
structure Fsm.Printable (f : Fsm) : Prop where
  filled : ∀ t ∈ f.transits, t.fromState ≠ none ∧ t.toState ≠ none
  states : ∀ s ∈ f.stateList,
    s.enterer.Visible (blockVars ++ loaderVars f.states.keys f.transitions.keys) ∧
      s.exiter.Visible (blockVars ++ loaderVars f.states.keys f.transitions.keys)
  transits : ∀ t ∈ f.transits, t.cb.Visible (loaderVars f.states.keys f.transitions.keys)

/-! ## The machine rebuilt -/

/-- The state that a statement initialises and adds. -/
def Stmt.stateAdded : Stmt → Option Stringshare
  | .stateInit s _ _ _ => some s
  | .stateNew _ _ | .transitionNew _ | .transitionInit _ _ _ _ _ _ => none

/-- The transition that a statement initialises and adds. -/
def Stmt.transitionAdded : Stmt → Option Stringshare
  | .transitionInit t _ _ _ _ _ => some t
  | .stateNew _ _ | .transitionNew _ | .stateInit _ _ _ _ => none

/-- A wrapper has the function and the key of a callback. -/
structure Cb.Wrapped (prog : Program) (c : Cb) (w : CbWrapper) : Prop where
  func : prog.funcValue (c.func.getD "NULL".toList) = some w.func
  key : w.key = c.data

/-- The FSM in memory, its states and its transitions at addresses of their own. An array is as long
as the call that has made its state says. -/
structure Rebuilt (prog : Program) (f : Fsm) (l : Loader) (st tr : Stringshare → Addr)
    (p : Process W) : Prop where
  states_apart : ∀ x ∈ f.states, st x ≠ 0 ∧ ∀ y ∈ f.states, st x = st y → x = y
  transits_apart : ∀ t ∈ f.transits, tr t.name ≠ 0 ∧
    ∀ u ∈ f.transits, tr t.name = tr u.name → t.name = u.name
  state : ∀ s ∈ f.stateList, (p.state (st s.name)).name = some s.name ∧
    s.enterer.Wrapped prog (p.state (st s.name)).enterer ∧
    s.exiter.Wrapped prog (p.state (st s.name)).exiter
  array : ∀ x ∈ f.states, ∃ names : List Stringshare, names.Nodup ∧
    (∀ n, n ∈ names ↔ ∃ t ∈ f.transits, t.fromState = some x ∧ t.name = n) ∧
    (p.state (st x)).transit = names.map tr ∧
    (p.state (st x)).transitCount.toNat = names.length ∧
    ∀ n, Stmt.stateNew x n ∈ l.body → n = names.length
  transit : ∀ t ∈ f.transits, (p.transition (tr t.name)).name = some t.name ∧
    (∃ x ∈ f.states, t.fromState = some x ∧ (p.transition (tr t.name)).fromState = st x) ∧
    (∃ x ∈ f.states, t.toState = some x ∧ (p.transition (tr t.name)).toState = st x) ∧
    t.cb.Wrapped prog (p.transition (tr t.name)).cb ∧
    t.enterer.Wrapped prog (p.transition (tr t.name)).stEnterer ∧
    t.exiter.Wrapped prog (p.transition (tr t.name)).stExiter

/-- The loader compiles, announces the FSM as it is, initialises and adds every state and every
transition once, comes to its end, and leaves the FSM locked in its initial state. -/
structure Loader.Rebuilds (heap : Heap) (prog : Program) (l : Loader) (f : Fsm)
    (shares : Stringshare → ℤ) (w : W) : Prop where
  compiles : l.compiles prog = true
  states_announced : (UInt32.ofNat l.stateCount).toNat = f.states.entries.length
  transits_announced : (UInt32.ofNat l.transitCount).toNat = f.transitions.entries.length
  states_added : (l.body.filterMap Stmt.stateAdded).Perm f.states.keys
  transits_added : (l.body.filterMap Stmt.transitionAdded).Perm f.transitions.keys
  loads : ∃ p st tr i, l.load heap prog shares w = some p ∧ Rebuilt prog f l st tr p ∧
    f.init = some i ∧ i ∈ f.states ∧ p.mach.locked = true ∧ p.mach.currentState = st i ∧
    p.mach.mempool.statesReg.toNat = f.states.entries.length ∧
    p.mach.mempool.transitReg.toNat = f.transitions.entries.length

end Cc

end Estate
