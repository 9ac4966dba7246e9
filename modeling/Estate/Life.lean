import Estate.Build
import Estate.Lib.Stack

/-!
# The life of a machine

The calls that build a machine, in any order and with any arguments, and `estate_machine_free`,
which releases as many slots as were registered from the top of each stack of the pool.
-/

namespace Estate

open Lib

/-- A call that builds a machine. -/
inductive BuildCall
  | stateNew (transitCount : UInt32)
  | transitionNew
  | stateInit (st : Addr) (name : Option Stringshare) (transitions : Option (List Addr))
      (transitCount : UInt32) (enterer exiter : Option CbCtor)
  | transitionInit (tr : Addr) (name : Option Stringshare) (fromState toState : Addr)
      (cb stEnterer stExiter : Option CbCtor)
  | stateAdd (st : Addr)
  | transitionAdd (tr : Addr)
  deriving DecidableEq

/-- The push a call makes. -/
def BuildCall.push : BuildCall → Option Push
  | .stateNew _ => some .state
  | .transitionNew => some .transition
  | .stateInit .. | .transitionInit .. | .stateAdd _ | .transitionAdd _ => none

variable {W : Type}

section Build

variable (heap : Heap)

/-- What a call leaves; `none` when it reads through NULL or frees what is no block. -/
def buildCall (p : Process W) : BuildCall → Option (Process W)
  | .stateNew transitCount => (stateNew heap p transitCount).map Prod.fst
  | .transitionNew => some (transitionNew heap p).1
  | .stateInit st name transitions transitCount enterer exiter =>
    some (stateInit p st name transitions transitCount enterer exiter).1
  | .transitionInit tr name fromState toState cb stEnterer stExiter =>
    (transitionInit p tr name fromState toState cb stEnterer stExiter).map Prod.fst
  | .stateAdd st => some (machineStateAdd p st).1
  | .transitionAdd tr => some (machineTransitionAdd p tr).1

def build (p : Process W) (calls : List BuildCall) : Option (Process W) :=
  calls.foldlM (buildCall heap) p

/-- What the pushes of one kind have answered. -/
def answers (mp : Mempool) (calls : List BuildCall) (kind : Push) : List (Option ℕ) :=
  ((pushes heap.sizes mp (calls.filterMap BuildCall.push)).filter fun r => r.1 = kind).map Prod.snd

/-- The slots they have handed out. -/
def slots (mp : Mempool) (calls : List BuildCall) (kind : Push) : List Addr :=
  (answers heap mp calls kind).reduceOption

/-- The states a call initialises. -/
def statesInited (p : Process W) : BuildCall → List Addr
  | .stateInit st name transitions transitCount enterer exiter =>
    if (stateInit p st name transitions transitCount enterer exiter).2 then [st] else []
  | .stateNew _ | .transitionNew | .transitionInit .. | .stateAdd _ | .transitionAdd _ => []

/-- The transitions a call initialises. -/
def transitionsInited (p : Process W) : BuildCall → List Addr
  | .transitionInit tr name fromState toState cb stEnterer stExiter =>
    if (transitionInit p tr name fromState toState cb stEnterer stExiter).map Prod.snd = some true
    then [tr] else []
  | .stateNew _ | .transitionNew | .stateInit .. | .stateAdd _ | .transitionAdd _ => []

def inited (p : Process W) (c : BuildCall) : Push → List Addr
  | .state => statesInited p c
  | .transition => transitionsInited p c

/-- The slots that calls initialise, in order. -/
def initialised : Process W → List BuildCall → Push → List Addr
  | _, [], _ => []
  | p, c :: calls, kind => inited p c kind ++
    match buildCall heap p c with
    | none => []
    | some q => initialised q calls kind

/-- How many slots of a kind a machine is made for. -/
def announced (states transitions : UInt32) : Push → ℕ
  | .state => states.toNat
  | .transition => transitions.toNat

/-- As many slots are pushed as announced, and each is initialised once. -/
structure BuiltOnce (states transitions : UInt32) (p : Process W) (calls : List BuildCall) : Prop where
  pushed : ∀ kind, (calls.filterMap BuildCall.push).count kind = announced states transitions kind
  once : ∀ kind, (initialised heap p calls kind).Perm (slots heap p.mach.mempool calls kind)

/-- No slot lies on another: no more are pushed than announced, and what is initialised as a state or
as a transition is a slot of that kind. -/
structure BuiltApart (states transitions : UInt32) (p : Process W) (calls : List BuildCall) :
    Prop where
  pushed : ∀ kind, (calls.filterMap BuildCall.push).count kind ≤ announced states transitions kind
  own : ∀ kind, ∀ a ∈ initialised heap p calls kind, a ∈ slots heap p.mach.mempool calls kind

/-- A process with a machine that some calls have built, slot beside slot, and that is locked. -/
inductive BuiltLocked : Process W → Prop
  | intro {states transitions : UInt32} {mach : Machine} {shares : Stringshare → ℤ} {w : W}
      {calls : List BuildCall} {p : Process W} {s₀ : Addr}
      (hnew : machineNew heap states transitions = some mach)
      (hbuild : build heap (.fresh mach shares w) calls = some p)
      (hapart : BuiltApart heap states transitions (.fresh mach shares w) calls)
      (hlocked : (machineLock p s₀).mach.locked = true) : BuiltLocked (machineLock p s₀)

end Build

/-! ## The end -/

def Mempool.top (mp : Mempool) : Push → ℕ
  | .state => mp.stackStates
  | .transition => mp.stackTransits

def Mempool.reg (mp : Mempool) : Push → UInt32
  | .state => mp.statesReg
  | .transition => mp.transitReg

/-- `eina_stringshare_del`, which ignores NULL. -/
def Process.unshareKey (p : Process W) : Option Stringshare → Process W
  | none => p
  | some key => p.unshare key

/-- `estate_state_deinit`. -/
def stateDeinit (p : Process W) (st : Addr) : Process W :=
  if st = 0 then p
  else
    let s := p.state st
    let p := p.unshareKey s.name
    let p := if s.enterer.key ≠ none then p.unshareKey s.exiter.key else p
    if s.enterer.key ≠ none then p.unshareKey s.exiter.key else p

/-- `estate_state_free`. -/
def stateFree (p : Process W) (st : Addr) : Process W :=
  let p := stateDeinit p st
  p.setState st { p.state st with transit := [] }

/-- `estate_transition_deinit`. -/
def transitionDeinit (p : Process W) (tr : Addr) : Process W :=
  let t := p.transition tr
  let p := p.unshareKey t.name
  let p := p.unshareKey t.cb.key
  let p := p.unshareKey t.stEnterer.key
  p.unshareKey t.stExiter.key

/-- `estate_transition_free`. -/
def transitionFree (p : Process W) (tr : Addr) : Process W := transitionDeinit p tr

/-- The slots that a loop of `_estate_mempool_free` releases. -/
def freedSlots (sz : Sizes) (mp : Mempool) (kind : Push) : List ℤ :=
  pops (kind.size sz) (mp.top kind) (mp.reg kind).toNat

/-- `_estate_mempool_free`. -/
def mempoolFree (sz : Sizes) (p : Process W) : Process W :=
  let mp := p.mach.mempool
  let p := (freedSlots sz mp .transition).foldl (fun p a => transitionFree p a.toNat) p
  let p := (freedSlots sz mp .state).foldl (fun p a => stateFree p a.toNat) p
  p.log (.freed (mp.base - sz.mempool))

/-- `estate_machine_free`. Its hash frees no key. -/
def machineFree (sz : Sizes) (p : Process W) : Process W :=
  mempoolFree sz (p.setMach { p.mach with data := ∅ })

end Estate
