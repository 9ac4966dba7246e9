import Estate.Build
import Estate.Cc.OutGc

/-!
# Running a generated loader

The meaning of the statements `estate_cc` prints, in the process that has compiled them. A loader
that does not compile, reads through NULL, frees what is no block, or leaves by `fsm_fail`, loads
nothing.
-/

namespace Estate.Cc

/-- What the compiler makes of the texts inside a loader. -/
structure Program where
  /-- The function of that name. -/
  func : List Char → Option Addr
  /-- The characters of a string literal, given what stands between its quotes. -/
  literal : List Char → Option (List Char)

section Compile

variable (prog : Program)

def Program.funcValue (text : List Char) : Option Addr :=
  if text = "NULL".toList then some 0 else prog.func text

/-- The value of a `char const *`: NULL, or a string literal between its two quotes. -/
def Program.keyValue (text : List Char) : Option (Option (List Char)) :=
  if text = "NULL".toList then some none
  else if text.head? = some '\x22' ∧ text.tail.getLast? = some '\x22' then
    (prog.literal text.tail.dropLast).map some
  else none

def Program.ctor (c : CtorText) : Option CbCtor := do
  let func ← prog.funcValue c.func
  let key ← prog.keyValue c.key
  some ⟨func, key, UInt32.ofNat c.keyLen⟩

end Compile

/-- A process in the middle of a loader. A variable that is not declared has no value. -/
structure Loading (W : Type) where
  proc : Process W
  stateVar : Stringshare → Option Addr
  transitVar : Stringshare → Option Addr

variable {W : Type}

section Exec

variable (heap : Heap) (prog : Program)

/-- `if (EINA_UNLIKELY(!chk)) goto fsm_fail;` -/
def checked (r : Process W × Bool) : Option (Process W) := if r.2 then some r.1 else none

/-- `if (EINA_UNLIKELY(... == NULL)) goto fsm_fail;` -/
def nonNull (r : Process W × Addr) : Option (Process W × Addr) := if r.2 = 0 then none else some r

def Stmt.exec (l : Loading W) : Stmt → Option (Loading W)
  | .stateNew s n => do
    let _ ← l.stateVar s
    let r ← Estate.stateNew heap l.proc (UInt32.ofNat n)
    let (p, st) ← nonNull r
    some { l with proc := p, stateVar := Function.update l.stateVar s (some st) }
  | .transitionNew t => do
    let _ ← l.transitVar t
    let (p, tr) ← nonNull (Estate.transitionNew heap l.proc)
    some { l with proc := p, transitVar := Function.update l.transitVar t (some tr) }
  | .stateInit s trs enterer exiter => do
    let st ← l.stateVar s
    let array ← trs.mapM l.transitVar
    let enterer ← prog.ctor enterer
    let exiter ← prog.ctor exiter
    let p ← checked (Estate.stateInit l.proc st (some s) (if trs = [] then none else some array)
      (UInt32.ofNat trs.length) (some enterer) (some exiter))
    let p ← checked (machineStateAdd p st)
    some { l with proc := p }
  | .transitionInit t fromState toState cb enterer exiter => do
    let tr ← l.transitVar t
    let src ← fromState >>= l.stateVar
    let dst ← toState >>= l.stateVar
    let cb ← prog.ctor cb
    let enterer ← prog.ctor enterer
    let exiter ← prog.ctor exiter
    let r ← Estate.transitionInit l.proc tr (some t) src dst (some cb) (some enterer) (some exiter)
    let p ← checked r
    let p ← checked (machineTransitionAdd p tr)
    some { l with proc := p }

/-- The variables a loader declares, all of them NULL. -/
def declare (names : List Stringshare) (x : Stringshare) : Option Addr :=
  if x ∈ names then some 0 else none

/-- A loader up to its call to `estate_machine_lock`. -/
def Loader.run (l : Loader) (shares : Stringshare → ℤ) (w : W) : Option (Loading W) := do
  let mach ← machineNew heap (UInt32.ofNat l.stateCount) (UInt32.ofNat l.transitCount)
  l.body.foldlM (Stmt.exec heap prog)
    { proc := .fresh mach shares w, stateVar := declare l.states, transitVar := declare l.transitions }

/-- The process after `_estate_fsm_..._load`, when it returns a machine. -/
def Loader.load (l : Loader) (shares : Stringshare → ℤ) (w : W) : Option (Process W) := do
  let done ← l.run heap prog shares w
  let current ← l.init >>= done.stateVar
  some (machineLock done.proc current)

end Exec

/-! ## What a loaded machine is for -/

/-- The data key of a callback fits between two quotes in the generator's buffer. -/
def Cb.Fits (c : Cb) : Prop := ∀ key, c.data = some key → key.length ≤ 125

def Fsm.KeysFit (f : Fsm) : Prop :=
  (∀ s ∈ f.stateList, s.enterer.Fits ∧ s.exiter.Fits) ∧
    ∀ t ∈ f.transits, t.cb.Fits ∧ t.enterer.Fits ∧ t.exiter.Fits

/-- Two names of a list lie at different addresses, and all of them within `2 ^ 31` bytes. -/
structure Placed (addr : Placement) (names : List Stringshare) : Prop where
  injective : ∀ x ∈ names, ∀ y ∈ names, addr x = addr y → x = y
  window : ∃ base : ℕ, ∀ x ∈ names, base ≤ (addr x).toNat ∧ (addr x).toNat < base + 2 ^ 31

/-- Two transitions that leave one state lie in the same order in the generator and in the process
that runs the loader. -/
def Fsm.SameOrder (f : Fsm) (gen run : Placement) : Prop :=
  ∀ t ∈ f.transits, ∀ u ∈ f.transits, t.fromState = u.fromState →
    (gen t.name < gen u.name ↔ run t.name < run u.name)

/-- In the state it leaves, a transition of the FSM is found and leads to the state it enters. -/
def Fsm.Fires (f : Fsm) (env : Env W) (p : Process W) : Prop :=
  ∀ t ∈ f.transits, ∀ arg ≠ 0, env.deref p.world arg = t.name → p.mach.inCb = cbUnlocked →
    (p.state p.mach.currentState).name = t.fromState →
      ∃ fuel q, machineTransitionDo env fuel p arg = (q, some true) ∧
        (q.state q.mach.currentState).name = t.toState

end Estate.Cc
