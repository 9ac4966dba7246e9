import Estate.Machine

/-!
# Building a machine

`estate_machine_new`, `estate_state_new`, `estate_state_init`, `estate_transition_new` and
`estate_transition_init`: what a program calls before it locks a machine.
-/

namespace Estate

/-- What the C library and Eina answer to the allocations of a machine. -/
structure Heap where
  sizes : Sizes
  malloc : ℕ → Option ℕ
  /-- Whether there is memory for the array of the state at an address. -/
  calloc : Addr → UInt32 → Bool
  hashNew : Bool

/-- `Estate_Cb_Ctor`. The key is what lies in memory where it points: its characters and, where it
matters, the NUL and the bytes behind them. -/
structure CbCtor where
  func : Addr
  key : Option (List Char)
  keyLen : UInt32
  deriving DecidableEq, Repr

/-- `eina_stringshare_add_length` of the key, if there is one: it reads so many bytes, be they of the
key or of what lies behind it. -/
def CbCtor.shared (c : CbCtor) (len : UInt32) : Option Stringshare :=
  c.key.map fun key => key.takeD len.toNat '\x00'

/-- `estate_machine_new`. -/
def machineNew (heap : Heap) (states transitions : UInt32) : Option Machine :=
  match mempoolNew heap.sizes heap.malloc states transitions with
  | none => none
  | some mempool =>
    if heap.hashNew then
      some
        { mempool := mempool
          currentState := 0
          currentTransition := 0
          errorCb := 0
          data := ∅
          cbDefer := []
          globalData := 0
          statesCount := states
          transitCount := transitions
          inCb := cbUnlocked
          locked := false }
    else none

variable {W : Type}

/-- A process that holds a new machine and nothing else of the library. -/
def Process.fresh (mach : Machine) (shares : Stringshare → ℤ) (world : W) : Process W where
  mach := mach
  state := fun _ => {}
  transition := fun _ => {}
  shares := shares
  world := world
  trace := []

def Process.shareKey (p : Process W) : Option Stringshare → Process W
  | none => p
  | some key => p.share key

@[simp] theorem shareKey_frame (p : Process W) (key : Option Stringshare) :
    (p.shareKey key).mach = p.mach ∧ (p.shareKey key).state = p.state ∧
      (p.shareKey key).transition = p.transition := by
  cases key <;> exact ⟨rfl, rfl, rfl⟩

def Process.setMempool (p : Process W) (mp : Mempool) : Process W :=
  p.setMach { p.mach with mempool := mp }

/-- `estate_state_new`: the state, or NULL. Where there is no memory for its array, it hands `free`
an address inside the pool, and `none` stands for what comes of that. -/
def stateNew (heap : Heap) (p : Process W) (transitCount : UInt32) : Option (Process W × Addr) :=
  let (st, mp) := mempoolStatePush heap.sizes p.mach.mempool
  let p := p.setMempool mp
  match st with
  | none => some (p, 0)
  | some st =>
    if transitCount ≠ 0 then
      if heap.calloc st transitCount then
        let transit := List.replicate transitCount.toNat 0
        some (p.setState st { p.state st with transit := transit, transitCount := transitCount }, st)
      else none
    else some (p.setState st { p.state st with transitCount := transitCount }, st)

/-- `memcpy` of the first pointers of an array onto another. -/
def copyPointers (dst src : List Addr) (count : ℕ) : List Addr :=
  src.take count ++ dst.drop count

def State.setTransit (s : State) (count : UInt32) : Option (List Addr) → State
  | none => s
  | some trs => { s with transit := copyPointers s.transit trs count.toNat }

def CbCtor.wrapper (c : CbCtor) : CbWrapper where
  func := c.func
  data := 0
  key := c.shared c.keyLen
  result := cbOk

/-- `estate_state_init`. -/
def stateInit (p : Process W) (st : Addr) (name : Option Stringshare)
    (transitions : Option (List Addr)) (transitCount : UInt32) (enterer exiter : Option CbCtor) :
    Process W × Bool :=
  if st = 0 then (p, false)
  else
    match name with
    | none => (p, false)
    | some name =>
      if transitCount ≠ (p.state st).transitCount then (p, false)
      else
        let s := (p.state st).setTransit transitCount transitions
        let s := { s with
          name := some name
          enterer := (enterer.map CbCtor.wrapper).getD s.enterer
          exiter := (exiter.map CbCtor.wrapper).getD s.exiter }
        let p := p.shareKey (enterer.bind fun c => c.shared c.keyLen)
        let p := p.shareKey (exiter.bind fun c => c.shared c.keyLen)
        ((p.share name).setState st s, true)

/-- `estate_transition_new`: the transition, or NULL. -/
def transitionNew (heap : Heap) (p : Process W) : Process W × Addr :=
  let (tr, mp) := mempoolTransitionPush heap.sizes p.mach.mempool
  (p.setMempool mp, tr.getD 0)

/-- How long the key of the exiter is taken to be: what the constructor of the enterer says. It is
read only if there is a key, and `none` when it is read through NULL. -/
def exiterKeyLen (stEnterer stExiter : Option CbCtor) : Option UInt32 :=
  match stExiter.bind CbCtor.key with
  | none => some 0
  | some _ => stEnterer.map CbCtor.keyLen

/-- `estate_transition_init`; `none` when it reads through NULL. -/
def transitionInit (p : Process W) (tr : Addr) (name : Option Stringshare) (fromState toState : Addr)
    (cb stEnterer stExiter : Option CbCtor) : Option (Process W × Bool) :=
  if tr = 0 then some (p, false)
  else
    match name with
    | none => some (p, false)
    | some name =>
      if fromState = 0 then some (p, false)
      else if toState = 0 then some (p, false)
      else
        match exiterKeyLen stEnterer stExiter with
        | none => none
        | some len =>
          let t := p.transition tr
          let t := { t with
            name := some name
            fromState := fromState
            toState := toState
            cb := match cb with
              | none => t.cb
              | some c => { t.cb with func := c.func, key := c.shared c.keyLen }
            stEnterer := match stEnterer with
              | none => t.stEnterer
              | some c =>
                { t.stEnterer with func := c.func, key := c.shared c.keyLen, result := cbOk }
            stExiter := match stExiter with
              | none => t.stExiter
              | some c => { t.stExiter with func := c.func, key := c.shared len, result := cbOk } }
          let p := p.share name
          let p := p.shareKey (cb.bind fun c => c.shared c.keyLen)
          let p := p.shareKey (stEnterer.bind fun c => c.shared c.keyLen)
          let p := p.shareKey (stExiter.bind fun c => c.shared len)
          some (p.setTransition tr t, true)

end Estate
