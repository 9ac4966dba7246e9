import Estate.Cc.Check
import Mathlib.Data.List.Sort

/-!
# The code that `estate_cc` generates

`estate_cc_out_gc.c` and `estate_cc_out_gi.c`. A loader is a sequence of statements over the
variables `s_...` and `t_...`, which is printed as a C function. The transitions of a state are
sorted by the addresses that their names have in the generator.
-/

namespace Estate.Cc

/-- What the generator assigns to an `Estate_Cb_Ctor`. -/
structure CtorText where
  func : List Char
  key : List Char
  keyLen : ℕ
  deriving DecidableEq

/-- A statement of a loader, past its declarations. -/
inductive Stmt
  | stateNew (s : Stringshare) (transitCount : ℕ)
  | transitionNew (t : Stringshare)
  | stateInit (s : Stringshare) (trs : List Stringshare) (enterer exiter : CtorText)
  | transitionInit (t : Stringshare) (fromState toState : Option Stringshare)
      (cb enterer exiter : CtorText)
  deriving DecidableEq

/-- `_estate_fsm_..._load`, with the functions declared before it. -/
structure Loader where
  name : Stringshare
  protos : List Stringshare
  states : List Stringshare
  transitions : List Stringshare
  stateCount : ℕ
  transitCount : ℕ
  body : List Stmt
  init : Option Stringshare
  deriving DecidableEq

section Generate

variable (ord : HashOrder) (addr : Placement)

/-- `_sort_cb`. -/
def sortCb (t₁ t₂ : Stringshare) : ℤ := ptrDiffInt (addr t₁) (addr t₂)

/-- `qsort`. -/
def qsort (compar : Stringshare → Stringshare → ℤ) (base : List Stringshare) : List Stringshare :=
  base.insertionSort fun a b => compar a b ≤ 0

/-- `_each_transitions_gc_from_cache_cb`. -/
def eachTransitionsGcFromCacheCb (s : State) (t : Transit) : State :=
  if t.fromState = some s.name then { s with trs := s.trs ++ [t.name] } else s

/-- A state with its transitions, as `_each_states_gc_alloc_cb` leaves it. -/
def gatherTrs (fsm : Fsm) (s : State) : State :=
  let s := (ord.foreach fsm.transitions).foldl eachTransitionsGcFromCacheCb s
  { s with trs := qsort (sortCb addr) s.trs }

/-- The statement of `_each_states_gc_alloc_cb`. -/
def eachStatesGcAllocCb (s : State) : Stmt := .stateNew s.name s.trs.length

/-- `_each_transitions_gc_alloc_cb`. -/
def eachTransitionsGcAllocCb (t : Transit) : Stmt := .transitionNew t.name

/-- `_stringize_data`: what it leaves in a buffer of `len` bytes, and what it returns. -/
def stringizeData (str : Option Stringshare) (len : ℕ) : List Char × ℕ :=
  match str with
  | some str =>
    let (buf, plen) := snprintf len ('\x22' :: (str ++ ['\x22']))
    (buf, plen - 2)
  | none => ((snprintf len "NULL".toList).1, 0)

def ctorText (cb : Cb) : CtorText where
  func := cb.func.getD "NULL".toList
  key := (stringizeData cb.data 128).1
  keyLen := (stringizeData cb.data 128).2

/-- `_each_states_gc_init_cb`. -/
def eachStatesGcInitCb (s : State) : Stmt :=
  .stateInit s.name s.trs (ctorText s.enterer) (ctorText s.exiter)

/-- `_each_transitions_gc_init_cb`. -/
def eachTransitionsGcInitCb (t : Transit) : Stmt :=
  .transitionInit t.name t.fromState t.toState (ctorText t.cb) (ctorText t.enterer)
    (ctorText t.exiter)

/-- The states of an FSM with their transitions. -/
def gatheredStates (fsm : Fsm) : EinaHash State :=
  (ord.foreach fsm.states).foldl
    (fun states s => hashModify states s.name (gatherTrs ord addr fsm)) fsm.states

/-- One round of the loop of `estate_cc_out_gc`. -/
def loader (fsm : Fsm) : Loader :=
  let protos :=
    (ord.foreach fsm.states).flatMap (fun s => s.enterer.func.toList ++ s.exiter.func.toList) ++
      (ord.foreach fsm.transitions).flatMap fun t => t.cb.func.toList
  let states := gatheredStates ord addr fsm
  { name := fsm.name
    protos := protos
    states := (ord.foreach fsm.states).map State.name
    transitions := (ord.foreach fsm.transitions).map Transit.name
    stateCount := fsm.states.entries.length
    transitCount := fsm.transitions.entries.length
    body :=
      (ord.foreach fsm.states).map (fun s => eachStatesGcAllocCb (gatherTrs ord addr fsm s)) ++
        ((ord.foreach fsm.transitions).map eachTransitionsGcAllocCb ++
          ((ord.foreach states).map eachStatesGcInitCb ++
            (ord.foreach fsm.transitions).map eachTransitionsGcInitCb))
    init := fsm.init }

end Generate

/-! ## The text -/

def CtorText.text (var : String) (c : CtorText) (indent : String) : List Char :=
  [indent.toList, var.toList, "_ctor.func = ".toList, c.func, ";\n".toList,
    indent.toList, var.toList, "_ctor.key = ".toList, c.key, ";\n".toList,
    indent.toList, var.toList, "_ctor.key_len = ".toList, Nat.toDigits 10 c.keyLen,
    ";\n".toList].flatten

/-- The array of the transitions of a state. -/
def trsText (trs : List Stringshare) : List Char :=
  if trs.length > 0 then
    "        const Estate_Transition *trs[] = \x7b\n".toList ++
      (List.intercalate ",\n".toList (trs.map fun t => "           t_".toList ++ t) ++
        ("\n        \x7d;\n".toList ++
          "        const unsigned int trs_count = EINA_C_ARRAY_LENGTH(trs);\n".toList))
  else
    "        const Estate_Transition **trs = NULL;\n".toList ++
      "        const unsigned int trs_count = 0;\n".toList

def unlessText (indent : String) : List Char :=
  indent.toList ++ "if (EINA_UNLIKELY(!chk)) goto fsm_fail;\n".toList

def Stmt.text : Stmt → List Char
  | .stateNew s n =>
    ["   s_".toList, s, " = estate_state_new(fsm, ".toList, Nat.toDigits 10 n, ");\n".toList,
      "   if (EINA_UNLIKELY(s_".toList, s, " == NULL)) goto fsm_fail;\n".toList].flatten
  | .transitionNew t =>
    ["   t_".toList, t, " = estate_transition_new(fsm);\n".toList,
      "   if (EINA_UNLIKELY(t_".toList, t, " == NULL)) goto fsm_fail;\n".toList].flatten
  | .stateInit s trs enterer exiter =>
    ["     \x7b\n".toList, trsText trs, enterer.text "enterer" "        ",
      exiter.text "exiter" "        ", "        chk = estate_state_init(s_".toList, s,
      ", \"".toList, s, "\", trs, trs_count,\n".toList,
      "                                &enterer_ctor, &exiter_ctor);\n".toList,
      unlessText "        ", "        chk = estate_machine_state_add(fsm, s_".toList, s,
      ");\n".toList, unlessText "        ", "     \x7d\n\n".toList].flatten
  | .transitionInit t fromState toState cb enterer exiter =>
    [cb.text "cb" "   ", enterer.text "enterer" "   ", exiter.text "exiter" "   ",
      "   chk = estate_transition_init(t_".toList, t, ", \"".toList, t, "\", s_".toList,
      fmtStr fromState, ", s_".toList, fmtStr toState, ",\n".toList,
      "                                &cb_ctor, &enterer_ctor, &exiter_ctor);\n".toList,
      unlessText "   ", "   chk = estate_machine_transition_add(fsm, t_".toList, t,
      ");\n".toList, unlessText "   ", "\n".toList].flatten

/-- `_proto_func_common`. -/
def protoFuncCommon (str : Stringshare) : List Char :=
  ["static int ".toList, str, "(void *data, Estate_Cb_Type type, ".toList,
    "const Estate_Transition *transition);\n".toList].flatten

/-- A loader up to its first statement. -/
def Loader.head (l : Loader) : List Char :=
  [l.protos.flatMap protoFuncCommon, "\n\n".toList,
    "static Estate_Machine *\n_estate_fsm_".toList, l.name, "_load(void)\n\x7b\n".toList,
    "   Estate_Machine *fsm = NULL;\n   Eina_Bool chk;\n".toList,
    "   Estate_Cb_Ctor cb_ctor, enterer_ctor, exiter_ctor;\n\n".toList,
    l.states.flatMap fun s => "   Estate_State *s_".toList ++ s ++ " = NULL;\n".toList,
    l.transitions.flatMap fun t => "   Estate_Transition *t_".toList ++ t ++ " = NULL;\n".toList,
    "\n   fsm = estate_machine_new(".toList, Nat.toDigits 10 l.stateCount, ", ".toList,
    Nat.toDigits 10 l.transitCount, ");\n".toList].flatten

/-- A loader from its call to `estate_machine_lock`. -/
def Loader.foot (l : Loader) : List Char :=
  ["   estate_machine_lock(fsm, s_".toList, fmtStr l.init, ");\n\n   return fsm;\n\n".toList,
    "fsm_fail:\n   EINA_LOG_CRIT(\"Failed to create FSM \\\"".toList, l.name,
    "\\\"\");\n   estate_machine_free(fsm);\n   return NULL;\n\x7d\n\n".toList].flatten

def Loader.text (l : Loader) : List Char := l.head ++ (l.body.flatMap Stmt.text ++ l.foot)

/-- `outGcApart` without the blank lines around the initialisations. -/
def outGc (ord : HashOrder) (addr : Placement) (parse : List Fsm) : List Char :=
  "/*\n * This file has been generated by estate_cc.\n".toList ++
    (" * DO NOT MODIFY MANUALLY!\n */\n\n#include <Estate.h>\n\n".toList ++
      parse.flatMap fun fsm => (loader ord addr fsm).text)

/-- A loader as the source lays it out: a blank line before its initialisations, and one behind
them. -/
def Loader.apart (l : Loader) : List Char :=
  let allocations := l.stateCount + l.transitCount
  l.head ++ ((l.body.take allocations).flatMap Stmt.text ++
    ('\n' :: ((l.body.drop allocations).flatMap Stmt.text ++ ('\n' :: l.foot))))

/-- The text of `estate_cc_out_gc`. -/
def outGcApart (ord : HashOrder) (addr : Placement) (parse : List Fsm) : List Char :=
  "/*\n * This file has been generated by estate_cc.\n".toList ++
    (" * DO NOT MODIFY MANUALLY!\n */\n\n#include <Estate.h>\n\n".toList ++
      parse.flatMap fun fsm => (loader ord addr fsm).apart)

/-- `_gi_cb`. -/
def giCb (sh : Stringshare) : List Char :=
  let pad := List.replicate (sh.length + 1) ' '
  ["static int\n".toList, sh, "(void                    *data       EINA_UNUSED,\n".toList, pad,
    "Estate_Cb_Type           type       EINA_UNUSED,\n".toList, pad,
    "const Estate_Transition *transition EINA_UNUSED)\n\x7b\n".toList,
    "   return ESTATE_CB_OK;\n\x7d\n\n".toList].flatten

/-- The text of `estate_cc_out_gi`. -/
def outGi (ord : HashOrder) (parse : List Fsm) (includeFile : Option (List Char)) : List Char :=
  ["#include <Estate.h>\n#include \"".toList, fmtStr includeFile, "\"\n\n".toList,
    parse.flatMap fun fsm =>
      ["/* Use the prototype below to export the loading function */\n".toList,
        "Estate_Machine *estate_fsm_".toList, fsm.name, "_load(void) EINA_MALLOC;\n\n".toList,
        "Estate_Machine *\nestate_fsm_".toList, fsm.name, "_load(void)\n\x7b\n".toList,
        "   return _estate_fsm_".toList, fsm.name, "_load();\n\x7d\n\n".toList,
        (ord.foreach fsm.states).flatMap fun s =>
          (s.enterer.func.toList ++ s.exiter.func.toList).flatMap giCb,
        (ord.foreach fsm.transitions).flatMap fun t => t.cb.func.toList.flatMap giCb].flatten,
    "\n".toList].flatten

end Estate.Cc
