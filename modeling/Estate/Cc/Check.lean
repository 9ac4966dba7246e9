import Estate.Cc.Data

/-!
# The check of the parsed machines

`estate_cc_check.c`: the states that only transitions name are added to the described ones, a
transition whose `from:to` is already in the hash of the check is refused, and the initial state
is the one state no transition enters, or the one the file gives.
-/

namespace Estate.Cc

/-- `Cache`. `init_count` counts states of a hash, whose population is an `int`: it does not wrap. -/
structure Cache where
  hash : EinaHash Transit
  states : EinaHash State
  ok : Bool
  init : Option Stringshare
  initCount : ℕ

section Check

variable (ord : HashOrder) (beyond : ℕ → Char)

/-- Finds a state or adds it, and counts one more transition at it. A state with no name is
created, counted and in no hash. -/
def stateTouch (states : EinaHash State) (name : Option Stringshare) (count : State → State) :
    EinaHash State :=
  match name with
  | none => states
  | some n =>
    match hashFind states (some n) with
    | some _ => hashModify states n count
    | none => hashAdd states (some n) (count (stateNew n))

def countFrom (s : State) : State := { s with checkFrom := s.checkFrom + 1 }

def countTo (s : State) : State := { s with checkTo := s.checkTo + 1 }

/-- The stringshare of `from:to`: `snprintf` into a buffer of 2048 bytes, then as many bytes from
the start of the buffer as the whole text has. `beyond` is what the stack holds after it: all calls
of one check are made from the same frame and are given the same bytes. A text that fits the buffer
does not depend on them; what becomes of a longer one where they change is the matter of `KeySafe`,
which takes them anew at each call. -/
def transitKey (t : Transit) : Stringshare :=
  let (buf, len) := snprintf 2048 (fmtStr t.fromState ++ ':' :: fmtStr t.toState)
  (buf ++ '\x00' :: (List.range (len - 2048)).map beyond).take len

/-- `_state_deduction_cb`: the cache after it, and whether the traversal goes on. -/
def stateDeductionCb (cache : Cache) (t : Transit) : Cache × Bool :=
  let states := stateTouch cache.states t.fromState countFrom
  let states := stateTouch states t.toState countTo
  let cache := { cache with states := states }
  let sh := transitKey beyond t
  match hashFind cache.hash (some sh) with
  | some _ => ({ cache with ok := false }, false)
  | none => ({ cache with hash := hashAdd cache.hash (some sh) t }, true)

/-- `eina_hash_foreach` with `_state_deduction_cb`. -/
def deduceStates : List Transit → Cache → Cache
  | [], cache => cache
  | t :: ts, cache =>
    let (cache, continue_) := stateDeductionCb beyond cache t
    if continue_ then deduceStates ts cache else cache

/-- `_state_init_deduction_cb`. -/
def stateInitDeductionCb (cache : Cache) (s : State) : Cache :=
  if s.checkTo = 0 then { cache with initCount := cache.initCount + 1, init := some s.name }
  else cache

/-- One round of the loop of `estate_cc_check_states`: the hash after it, whether the machine
passes, and the machine. -/
def checkFsm (hash : EinaHash Transit) (fsm : Fsm) : EinaHash Transit × Bool × Fsm :=
  let cache := deduceStates beyond (ord.foreach fsm.transitions)
    { hash := hash, states := fsm.states, ok := true, init := none, initCount := 0 }
  let fsm := { fsm with states := cache.states }
  if !cache.ok then (cache.hash, false, fsm)
  else
    let cache := (ord.foreach fsm.states).foldl stateInitDeductionCb
      { cache with init := none, initCount := 0 }
    if cache.initCount > 1 then (cache.hash, false, fsm)
    else
      match cache.init, fsm.init with
      | some i, some j =>
        if i ≠ j then (cache.hash, false, fsm) else (cache.hash, true, { fsm with init := some i })
      | some i, none => (cache.hash, true, { fsm with init := some i })
      | none, none => (cache.hash, false, fsm)
      | none, some _ => (cache.hash, true, fsm)

/-- The loop of `estate_cc_check_states`, which stops at the first machine refused. -/
def checkLoop (hash : EinaHash Transit) : List Fsm → Bool × List Fsm
  | [] => (true, [])
  | fsm :: fsms =>
    match checkFsm ord beyond hash fsm with
    | (_, false, fsm) => (false, fsm :: fsms)
    | (hash, true, fsm) =>
      let (ok, fsms) := checkLoop hash fsms
      (ok, fsm :: fsms)

/-- `estate_cc_check_states`: its verdict on a non-empty list of machines, and the machines after
it. -/
def checkStates (parse : List Fsm) : Bool × List Fsm := checkLoop ord beyond ∅ parse

/-! ## What a machine must be -/

def transitKeys (f : Fsm) : List Stringshare := f.transits.map (transitKey beyond)

/-- `from:to`, whole. -/
def Transit.keyText (t : Transit) : List Char := fmtStr t.fromState ++ ':' :: fmtStr t.toState

/-- The length that `snprintf` returns for the text is that of what it has left in the buffer. -/
def Transit.Stored (t : Transit) : Prop :=
  (snprintf 2048 t.keyText).2 ≤ (snprintf 2048 t.keyText).1.length

/-- The keys of both transitions are read where their texts have been stored, and are the same only
for the same ends, whatever the stack holds at each call. -/
structure KeySafe (t u : Transit) : Prop where
  stored : t.Stored ∧ u.Stored
  ends : ∀ beyond beyond' : ℕ → Char, transitKey beyond t = transitKey beyond' u →
    t.fromState = u.fromState ∧ t.toState = u.toState

/-- A transition of the list leaves or enters the state. -/
def Touched (ts : List Transit) (x : Stringshare) : Prop :=
  ∃ t ∈ ts, t.fromState = some x ∨ t.toState = some x

/-- A state that a machine describes or one of its transitions names. -/
def Fsm.IsState (f : Fsm) (x : Stringshare) : Prop := x ∈ f.states ∨ Touched f.transits x

/-- A state that no transition enters. -/
def Fsm.IsSource (f : Fsm) (x : Stringshare) : Prop :=
  f.IsState x ∧ ∀ t ∈ f.transits, t.toState ≠ some x

/-- One state may be the initial one: the only source, or the given one where there is none. -/
def Fsm.InitDetermined (f : Fsm) : Prop :=
  (∃ x, (∀ y, f.IsSource y ↔ y = x) ∧ ∀ i, f.init = some i → i = x) ∨
    ((∀ y, ¬ f.IsSource y) ∧ f.init ≠ none)

structure Fsm.Admissible (f : Fsm) : Prop where
  keys : (transitKeys beyond f).Nodup
  init : f.InitDetermined

end Check

end Estate.Cc
