import Estate.Cc.Load
import Estate.Lib.Automaton
import Estate.Proofs.Stepping

/-!
# What a machine means

An FSM as an automaton over the names of its transitions: a name that leaves the current state leads
where its transition says, and any other name is refused. What is heard of a step are the callbacks
of the file that exist, in their order, each with the state it is called in, or the error callback
with the name that was refused.
-/

namespace Estate.Cc

open Lib

/-- A callback of the process that is called. -/
inductive Heard
  | callback (type : CbType) (func : Addr) (state : Option Stringshare)
  | error (name : Stringshare)
  deriving DecidableEq, Repr

section Fsm

variable (prog : Program) (f : Fsm)

/-- The function of a callback in the process that has compiled the loader, 0 if there is none. -/
def Cb.callee (c : Cb) : Addr := (prog.funcValue (c.func.getD "NULL".toList)).getD 0

/-- The call of a callback in a state. -/
def Cb.heard (c : Cb) (type : CbType) (x : Stringshare) : List Heard :=
  if c.callee prog = 0 then [] else [.callback type (c.callee prog) (some x)]

/-- The transition of that name, if it leaves the state. -/
def Fsm.exit (x n : Stringshare) : Option Transit :=
  (f.transitions.lookup n).filter fun t => t.fromState = some x

def Fsm.exiter (x : Stringshare) : Cb := ((f.states.lookup x).map State.exiter).getD {}

def Fsm.enterer (x : Stringshare) : Cb := ((f.states.lookup x).map State.enterer).getD {}

/-- The exiter and the callback of a transition in the state it leaves, and the enterer in the one it
enters. -/
def Fsm.heardOf (x : Stringshare) (t : Transit) : List Heard :=
  (f.exiter x).heard prog .exiter x ++ (t.cb.heard prog .transition x ++
    t.toState.toList.flatMap fun y => (f.enterer y).heard prog .enterer y)

/-- An FSM at work, with an error callback or without. -/
def Fsm.automaton (errors : Bool) : Automaton Stringshare Stringshare Heard where
  next x n := (f.exit x n).bind Transit.toState
  out x n :=
    match f.exit x n with
    | none => if errors then [.error n] else []
    | some t => f.heardOf prog x t

end Fsm

/-! ## The process -/

variable {W : Type}

def heardAs (env : Env W) (p : Process W) : Invocation → Heard
  | .callback type func current => .callback type func (p.state current).name
  | .error arg => .error (env.deref p.world arg)

/-- What is heard between two moments of a process. -/
def heard (env : Env W) (p q : Process W) : List Heard := (invocations p q).map (heardAs env p)

/-- The caller asks for a transition by its name, after doing what it likes to its own memory. -/
inductive Asks (env : Env W) : Process W → Seen Stringshare Heard → Process W → Prop
  | intro {p q : Process W} {w : W} {arg : CStr} {fuel : ℕ} {b : Bool} (harg : arg ≠ 0)
      (h : machineTransitionDo env fuel (p.setWorld w) arg = (q, some b)) :
      Asks env p ⟨env.deref w arg, b, heard env (p.setWorld w) q⟩ q

/-- From this state on, any requests of these names are answered as the automaton answers them: the
same answers, the same callbacks in the same order and states, and after them the state where the
automaton is. Every further request ends. -/
def Behaves (env : Env W) (M : Automaton Stringshare Stringshare Heard) (names : List Stringshare)
    (p : Process W) (i : Stringshare) : Prop :=
  ∀ es q, Steps (Asks env) p es q → (∀ e ∈ es, e.letter ∈ names) →
    es = M.trace i (es.map Seen.letter) ∧
    (q.state (machineCurrentStateGet q)).name = some (M.run i (es.map Seen.letter)) ∧
    ∀ w arg, arg ≠ 0 → env.deref w arg ∈ names →
      ∃ e q', e.letter = env.deref w arg ∧ Asks env q e q'

/-! ## What is seen of a run -/

/-- A name is looked up, or a callback of a transition is called. -/
inductive Sight
  | asked (name : Stringshare)
  | heard (h : Heard)
  deriving DecidableEq, Repr

/-- The sights of an event, where the states have these names. -/
def sight (name : Addr → Option Stringshare) : Event → Option Sight
  | .attempt _ n => some (.asked n)
  | .cbEnter type _ func _ current => some (.heard (.callback type func (name current)))
  | _ => none

/-- The name an event looks up. -/
def lookedUp : Event → Option Stringshare
  | .attempt _ n => some n
  | _ => none

/-- The sights of the steps of an automaton. -/
def sightsOf (es : List (Seen Stringshare Heard)) : List Sight :=
  es.flatMap fun e => .asked e.letter :: e.out.map .heard

/-- The names looked up between two moments of a process, in order. -/
def lookups (p q : Process W) : List Stringshare := (since p q).filterMap lookedUp

/-- What is seen between two moments of a process, in order. -/
def sights (p q : Process W) : List Sight :=
  (since p q).filterMap (sight fun a => (p.state a).name)

/-- What the machine has done between two moments. -/
def actions (p q : Process W) : List Action := q.history.drop p.history.length

end Estate.Cc
