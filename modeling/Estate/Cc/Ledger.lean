import Estate.Cc.Main
import Estate.Lib.Ledger
import Estate.Proofs.Cursors

/-!
# What `estate_cc` takes and gives back

The stringshares, the allocations and the handles that a run of `estate_cc` takes and gives back, in
the order of the source: `estate_cc_misc.c`, `estate_cc_log.c` and the rest of
`estate_cc_parser.c` and `estate_cc_main.c`. What the containers of Eina allocate for themselves is
left out.
-/

namespace Estate.Cc

open Lib

/-- What can be taken: a reference of a stringshare, an allocation or a handle. `array` is the array
`trs` of a state, `blocks` the array of a parser, `stream` a file that is written. -/
inductive Res
  | string (s : Stringshare)
  | state | transit | fsm | hash | array | parser | blocks | file | mapping | stream | eina
  | logDomain
  deriving DecidableEq

/-- `eina_stringshare_add`, where NULL adds nothing. -/
def shareOps (s : Option Stringshare) : List (Op Res) := s.toList.map fun s => .take (.string s)

/-- `eina_stringshare_del`, which ignores NULL. -/
def unshareOps (s : Option Stringshare) : List (Op Res) := s.toList.map fun s => .give (.string s)

/-! ## `estate_cc_misc.c` -/

/-- `state_new`. -/
def stateNewOps (name : Option Stringshare) : List (Op Res) := .take .state :: shareOps name

/-- `state_free`. -/
def stateFreeOps (s : State) : List (Op Res) :=
  unshareOps s.enterer.func ++ (unshareOps s.enterer.data ++ (unshareOps s.exiter.func ++
    (unshareOps s.exiter.data ++ (unshareOps (some s.name) ++
      ((if s.trs ≠ [] then [.give .array] else []) ++ [.give .state])))))

/-- `transit_new`. -/
def transitNewOps (name : Stringshare) : List (Op Res) := .take .transit :: shareOps (some name)

/-- `transit_free`. -/
def transitFreeOps (t : Transit) : List (Op Res) :=
  unshareOps (some t.name) ++ (unshareOps t.fromState ++ (unshareOps t.toState ++
    (unshareOps t.cb.func ++ (unshareOps t.cb.data ++ [.give .transit]))))

/-- `fsm_new`. -/
def fsmNewOps (name : Stringshare) : List (Op Res) :=
  .take .fsm :: (shareOps (some name) ++ [.take .hash, .take .hash, .take .hash])

/-- `fsm_free`. -/
def fsmFreeOps (ord : HashOrder) (f : Fsm) : List (Op Res) :=
  unshareOps (some f.name) ++ (((ord.foreach f.transitions).flatMap transitFreeOps ++ [.give .hash]) ++
    (((ord.foreach f.states).flatMap stateFreeOps ++ [.give .hash]) ++
      (((ord.foreach f.dataKeys).flatMap (fun key => unshareOps (some key)) ++ [.give .hash]) ++
        [.give .fsm])))

/-! ## The parser -/

/-- What a token makes `estate_cc_parser_parse` take and give back. -/
def tokenOps (p : Parser) : List (Op Res) :=
  match p.sm with
  | .none => fsmNewOps p.buf
  | .dataGlobalProp =>
    shareOps (some p.buf) ++
      match p.f.bind fun f => hashFind f.dataKeys (some p.buf) with
      | some _ => unshareOps (some p.buf)
      | none => []
  | .states => stateNewOps (some p.buf)
  | .stateAttribute =>
    if p.buf = "init".toList then
      match p.f with
      | some f => if f.init ≠ none then [] else shareOps p.s
      | none => []
    else []
  | .stateCbFuncProp | .stateCbDataProp | .transitionCbFuncProp | .transitionCbDataProp
  | .transitionFrom | .transitionTo => if p.buf = [] then [] else shareOps (some p.buf)
  | .transitions =>
    if p.buf = "model".toList then []
    else
      shareOps (some p.buf) ++
        match p.f.bind fun f => hashFind f.transitions (some p.buf) with
        | none => []
        | some _ => unshareOps (some p.buf)
  | .transitionStart => if p.buf = [] then [] else transitNewOps p.buf
  | .fsm | .data | .state | .stateCb | .transition | .transitionCb | .stateEob => []

/-- What a transition without a name takes. -/
def anonymousOps (p : Parser) (format : String) : List (Op Res) :=
  if p.sm = .transitionStart ∧ p.t = none then
    transitNewOps (format.toList ++ fmtNat p.anonymous)
  else []

/-- The switch of `estate_cc_parser_parse`. -/
def specialOps (p : Parser) (c : Char) : List (Op Res) :=
  match charCase c with
  | .dash => anonymousOps p "TR_"
  | .greater => anonymousOps p "#TR_"
  | _ => []

/-- One round of the loop. -/
def roundOps (r : Cursor) (p : Parser) (c : Char) : List (Op Res) :=
  (if r.comments = .none then specialOps p c else []) ++
    match tokenOf r p c with
    | some (q, _) => tokenOps q
    | none => []

/-- The machines that are in `p->parse` behind a round that fails. -/
def leftFsms (r : Cursor) (p : Parser) (c : Char) : List Fsm :=
  match tokenOf r p c with
  | some (q, c) =>
    match token q c with
    | .ok q => q.fsms
    | .error _ => q.fsms
  | none => p.fsms

/-- The loop of `estate_cc_parser_parse`, with the machines it leaves in `p->parse`. -/
def parseLoopOps : ℕ → Cursor → Parser → List (Op Res) × List Fsm
  | 0, _, p => ([], p.fsms)
  | fuel + 1, r, p =>
    match charNextGet r with
    | (none, _) => ([], p.fsms)
    | (some c, r) =>
      match parseRound r p c with
      | .error _ => (roundOps r p c, leftFsms r p c)
      | .ok (r', q) =>
        let (ops, fsms) := parseLoopOps fuel r' q
        (roundOps r p c ++ ops, fsms)

/-- `estate_cc_parser_parse` on a fresh parser. -/
def parserParseOps (src : List Char) : List (Op Res) × List Fsm :=
  parseLoopOps (src.length + 1) { ptr := src } {}

/-- `estate_cc_parser_parse_free`, which leaves no machine. -/
def parserParseFreeOps (ord : HashOrder) (parse : List Fsm) : List (Op Res) :=
  parse.flatMap (fsmFreeOps ord)

/-- `estate_cc_parser_new`, where the parser can be allocated. -/
def parserNewOps : List (Op Res) := [.take .parser, .take .blocks]

/-- `estate_cc_parser_file_unset`. -/
def parserFileUnsetOps (opened mapped : Bool) : List (Op Res) :=
  if opened then (if mapped then [.give .mapping] else []) ++ [.give .file] else []

/-- `estate_cc_parser_file_set`: it unsets the file it cannot map. -/
def parserFileSetOps (opened mapped : Bool) : List (Op Res) :=
  if opened then
    .take .file :: if mapped then [.take .mapping] else parserFileUnsetOps true false
  else []

/-- `estate_cc_parser_free`, for the machines and the file that are set. -/
def parserFreeOps (ord : HashOrder) (parse : List Fsm) (isSet : Bool) : List (Op Res) :=
  parserParseFreeOps ord parse ++ (parserFileUnsetOps isSet isSet ++ [.give .parser])

/-! ## The check -/

section Check

variable (ord : HashOrder) (beyond : ℕ → Char)

/-- A state is found or made. -/
def stateTouchOps (states : EinaHash State) (name : Option Stringshare) : List (Op Res) :=
  match hashFind states name with
  | some _ => []
  | none => stateNewOps name

/-- `eina_hash_foreach` with `_state_deduction_cb`. -/
def deduceStatesOps : List Transit → Cache → List (Op Res)
  | [], _ => []
  | t :: ts, cache =>
    stateTouchOps cache.states t.fromState ++
      (stateTouchOps (stateTouch cache.states t.fromState countFrom) t.toState ++
        (shareOps (some (transitKey beyond t)) ++
          let (cache, continue_) := stateDeductionCb beyond cache t
          if continue_ then deduceStatesOps ts cache else []))

/-- One round of the loop of `estate_cc_check_states`. -/
def checkFsmOps (hash : EinaHash Transit) (fsm : Fsm) : List (Op Res) :=
  let cache : Cache :=
    { hash := hash, states := fsm.states, ok := true, init := none, initCount := 0 }
  let (_, ok, fsm') := checkFsm ord beyond hash fsm
  deduceStatesOps beyond (ord.foreach fsm.transitions) cache ++
    if ok then
      shareOps ((ord.foreach fsm'.states).foldl stateInitDeductionCb cache).init
    else []

def checkLoopOps (hash : EinaHash Transit) : List Fsm → List (Op Res)
  | [] => []
  | fsm :: fsms =>
    checkFsmOps ord beyond hash fsm ++
      match checkFsm ord beyond hash fsm with
      | (_, false, _) => []
      | (hash, true, _) => checkLoopOps hash fsms

/-- `estate_cc_check_states`. -/
def checkStatesOps (parse : List Fsm) : List (Op Res) :=
  [.take .hash] ++ (checkLoopOps ord beyond ∅ parse ++ [.give .hash])

end Check

/-! ## The program -/

section Run

variable (env : CcEnv)

/-- The stream of a generator, open while it writes. -/
def streamOps (file : Option Path) (mid : List (Op Res)) : List (Op Res) :=
  match file with
  | none => mid
  | some path => if env.fopen path then [.take .stream] ++ (mid ++ [.give .stream]) else []

/-- The states of a machine are given their transitions by `estate_cc_out_gc`. -/
def gather (f : Fsm) : Fsm := { f with states := gatheredStates env.ord env.addr f }

/-- What `_each_states_gc_alloc_cb` allocates for the states of a machine. -/
def gatherOps (f : Fsm) : List (Op Res) :=
  (env.ord.foreach f.states).flatMap fun s =>
    if (gatherTrs env.ord env.addr f s).trs ≠ [] then [.take .array] else []

/-- The generators that the options choose. -/
def generateOps (st : Settings) (parse : List Fsm) : List (Op Res) :=
  (if st.gi then streamOps env st.output [] else []) ++
    ((if st.gc then streamOps env st.output (parse.flatMap (gatherOps env)) else []) ++
      if st.pgfTikz then streamOps env st.output [] else [])

/-- Whether a generator has a stream to write to. -/
def writable (file : Option Path) : Bool :=
  match file with
  | none => true
  | some path => env.fopen path

/-- The machines behind the generators. -/
def generatedFsms (st : Settings) (parse : List Fsm) : List Fsm :=
  if st.gc ∧ writable env st.output then parse.map (gather env) else parse

/-- `main`, behind the parser. -/
def processOps (st : Settings) (parse : List Fsm) : List (Op Res) :=
  let fsms := (checkStates env.ord env.beyond parse).2
  checkStatesOps env.ord env.beyond parse ++
    (generateOps env st fsms ++
      (parserParseFreeOps env.ord (generatedFsms env st fsms) ++ parserFreeOps env.ord [] true))

/-- `main`, with a parser. -/
def parserOps (opens : Path → Bool) (st : Settings) (input : Path) : List (Op Res) :=
  match env.map input with
  | none => parserFileSetOps (opens input) false ++ parserFreeOps env.ord [] false
  | some src =>
    let (ops, parse) := parserParseOps src
    parserFileSetOps true true ++
      (ops ++
        match parserParse src with
        | [] => parserFreeOps env.ord parse true
        | f :: fsms => processOps env st (f :: fsms))

/-- `main`, with its cleanups behind their labels. A file that can be mapped can be opened; `opens`
tells it for the others. -/
def ccMainOps (opens : Path → Bool) (opts : List Opt) (operands : List Path) : List (Op Res) :=
  match readOptions {} opts with
  | .error _ => []
  | .ok st =>
    if st.formats ≠ 1 then []
    else
      match operands with
      | [input] =>
        if !env.einaInit then []
        else
          [.take .eina] ++
            ((if !env.logInit then []
              else
                [.take .logDomain] ++
                  ((if !env.parserNew then []
                    else parserNewOps ++ parserOps env opens st input) ++ [.give .logDomain])) ++
              [.give .eina])
      | _ => []

end Run

/-! ## What is held -/

/-- The reference behind a pointer to a string. -/
def held (s : Option Stringshare) : Multiset Res := (s.toList.map Res.string : List Res)

/-- What `state_free` gives back. -/
def State.holds (s : State) : Multiset Res :=
  held s.enterer.func + (held s.enterer.data + (held s.exiter.func + (held s.exiter.data +
    (held (some s.name) + ((if s.trs ≠ [] then {.array} else 0) + {.state})))))

/-- What `transit_free` gives back. -/
def Transit.holds (t : Transit) : Multiset Res :=
  held (some t.name) + (held t.fromState + (held t.toState + (held t.cb.func + (held t.cb.data +
    {.transit}))))

/-- What `fsm_free` gives back: all but the initial state. -/
def Fsm.holds (f : Fsm) : Multiset Res :=
  held (some f.name) + (((f.transits.map Transit.holds).sum + {.hash}) +
    (((f.stateList.map State.holds).sum + {.hash}) +
      (((f.dataKeys.entries.map fun e => held (some e.2)).sum + {.hash}) + {.fsm})))

end Estate.Cc
