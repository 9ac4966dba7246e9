import Mathlib.Data.List.Basic

/-!
# The allocator of one machine

`_estate_mempool_new` lays a whole FSM out in one block: the pool's own header, the machine, the
states, the transitions. The states and the transitions are two stacks that only grow, and a push
beyond the room of its stack returns NULL.
-/

namespace Estate

/-- The `sizeof` of the structures a pool holds. -/
structure Sizes where
  mempool : ℕ
  machine : ℕ
  state : ℕ
  transition : ℕ
  state_pos : 0 < state
  transition_pos : 0 < transition

/-- `struct _Estate_Mempool`, its pointers as addresses. -/
structure Mempool where
  base : ℕ
  stackStates : ℕ
  stackTransits : ℕ
  endp : ℕ
  statesReg : UInt32
  transitReg : UInt32
  deriving DecidableEq, Repr

variable (sz : Sizes)

/-- `_estate_mempool_new`, given what `malloc` answers for each size. -/
def mempoolNew (malloc : ℕ → Option ℕ) (states transitions : UInt32) : Option Mempool :=
  if states = 0 then none
  else if transitions = 0 then none
  else
    let memTrs := sz.transition * transitions.toNat
    let memStates := sz.state * states.toNat
    let mem := sz.mempool + sz.machine + memStates + memTrs
    match malloc mem with
    | none => none
    | some mp =>
      let base := mp + sz.mempool
      let stackStates := base + sz.machine
      some
        { base := base
          stackStates := stackStates
          stackTransits := stackStates + memStates
          endp := mp + mem
          statesReg := 0
          transitReg := 0 }

/-- `_estate_mempool_state_push`: the pointer it returns, NULL as `none`, and the pool after. -/
def mempoolStatePush (mp : Mempool) : Option ℕ × Mempool :=
  let ptr := mp.stackStates
  let mp := { mp with stackStates := mp.stackStates + sz.state }
  if mp.stackStates > mp.stackTransits then (none, mp) else (some ptr, mp)

/-- `_estate_mempool_transition_push`. -/
def mempoolTransitionPush (mp : Mempool) : Option ℕ × Mempool :=
  let ptr := mp.stackTransits
  let mp := { mp with stackTransits := mp.stackTransits + sz.transition }
  if mp.stackTransits > mp.endp then (none, mp) else (some ptr, mp)

/-- The two kinds of push. -/
inductive Push
  | state
  | transition
  deriving DecidableEq, Repr

/-- The size of the block a push of this kind returns. -/
def Push.size : Push → ℕ
  | .state => sz.state
  | .transition => sz.transition

def push (mp : Mempool) : Push → Option ℕ × Mempool
  | .state => mempoolStatePush sz mp
  | .transition => mempoolTransitionPush sz mp

/-- The pool after a sequence of pushes. -/
def poolAfter (mp : Mempool) (ops : List Push) : Mempool :=
  ops.foldl (fun mp p => (push sz mp p).2) mp

/-- What each push of a sequence returns, in order. -/
def pushes (mp : Mempool) : List Push → List (Push × Option ℕ)
  | [] => []
  | p :: ops => (p, (push sz mp p).1) :: pushes (push sz mp p).2 ops

end Estate
