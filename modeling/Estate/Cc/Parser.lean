import Estate.Cc.Data

/-!
# The parser of `estate_cc`

`estate_cc_parser.c`. `struct _Parser` and the locals of `estate_cc_parser_parse` are held in two
records: `Cursor` is what `_char_next_get` works on, `Parser` all the rest. A byte is the character
with its code, and the byte after the mapping reads as NUL. `f` is always the last machine of
`p->parse`, which keeps the others; `t`, `s` and `cb` point into `f` by the names of its entries.
-/

namespace Estate.Cc

inductive Comments | none | singleLine | multipleLines
  deriving DecidableEq, Repr

/-- `Sm`. -/
inductive Sm
  | none | fsm | transitions | transitionStart | transitionFrom | transitionTo | transition
  | transitionCb | transitionCbFuncProp | transitionCbDataProp | states | state | stateEob
  | stateCb | stateCbFuncProp | stateCbDataProp | stateAttribute | data | dataGlobalProp
  deriving DecidableEq, Repr

/-- What `t` points to: an entry of `f->transitions`, or a transition that is in no hash. -/
inductive TransitPtr
  | entry (name : Stringshare)
  | loose (t : Transit)
  deriving DecidableEq

/-- What `cb` points to: the enterer or the exiter of an entry of `f->states`. -/
structure CbPtr where
  state : Stringshare
  exiter : Bool
  deriving DecidableEq

structure Cursor where
  ptr : List Char
  line : UInt32 := 1
  col : UInt32 := 1
  comments : Comments := .none
  deriving DecidableEq

/-- `buf` holds the `k` characters of the token being read. The last block of `blocks` stands
first. `anonymous` is in nothing but the names of transitions that are in no hash. The program does
not keep `handed`, the tokens it has looked at. -/
structure Parser where
  parse : List Fsm := []
  anonymous : ℕ := 0
  blocks : List Bool := []
  sm : Sm := .none
  stopWord : Bool := false
  hasToken : Bool := false
  buf : List Char := []
  f : Option Fsm := none
  t : Option TransitPtr := none
  s : Option Stringshare := none
  cb : Option CbPtr := none
  leaveBlock : Bool := false
  handed : List (List Char) := []
  deriving DecidableEq

/-- How the code stops before the end: a parse error, or an access through NULL. -/
inductive Fail
  | parseError (text : List Char)
  | fault
  deriving DecidableEq

/-- `%i` and `%u`. -/
def fmtNat (n : ℕ) : List Char := Nat.toDigits 10 n

def Sm.fmt (sm : Sm) : List Char := fmtNat sm.ctorIdx

/-! ## Reading -/

/-- `_char_next_get`, where no character is EOF. -/
def charNextGet (r : Cursor) : Option Char × Cursor :=
  match r.ptr with
  | [] => (none, r)
  | c :: ptr =>
    if c = '\x00' ∨ c = '\xff' then (none, { r with ptr := ptr })
    else if c = '\n' then
      (some c,
        { ptr := ptr
          line := r.line + 1
          col := 1
          comments := if r.comments = .singleLine then .none else r.comments })
    else (some c, { r with ptr := ptr, col := r.col + 1 })

/-- `%c`, where EOF prints as its byte. -/
def fmtChar (c : Option Char) : List Char := [c.getD '\xff']

/-! ## Blocks -/

/-- `_sm_block_is`. -/
def smBlockIs : Sm → Bool
  | .none | .fsm | .transitions | .transitionStart | .transition | .state | .states | .stateCb
  | .stateAttribute | .transitionCb | .data => true
  | _ => false

/-- `_block_enter`. -/
def blockEnter (p : Parser) (terminatesParent : Bool) : Option Parser :=
  if smBlockIs p.sm then
    some { p with blocks := terminatesParent :: p.blocks, hasToken := true }
  else none

/-- The switch of `_block_leave`. -/
def Sm.parent : Sm → Sm
  | .data => .fsm
  | .dataGlobalProp => .data
  | .stateCb => .state
  | .state => .states
  | .states => .fsm
  | .transitions => .fsm
  | .transitionStart => .transitions
  | .transitionCb => .transition
  | .transition => .transitions
  | .stateCbFuncProp | .stateCbDataProp => .stateCb
  | .transitionCbFuncProp | .transitionCbDataProp => .transitionCb
  | .fsm => .none
  | sm => sm

/-- `_block_leave`, on the blocks and the state of a parser. -/
def blockLeave : List Bool → Sm → Option (List Bool × Sm)
  | [], _ => none
  | _ :: blocks, sm =>
    if blocks.head? = some true then blockLeave blocks sm.parent else some (blocks, sm.parent)

/-! ## Pointers -/

def Parser.fsm (p : Parser) : Except Fail Fsm :=
  match p.f with
  | none => .error .fault
  | some f => .ok f

/-- `*t`. -/
def Parser.transit (p : Parser) : Except Fail Transit :=
  match p.t with
  | none => .error .fault
  | some (.loose t) => .ok t
  | some (.entry name) =>
    match p.f.bind fun f => f.transitions.lookup name with
    | none => .error .fault
    | some t => .ok t

/-- Writes through `t`. -/
def Parser.modifyTransit (p : Parser) (g : Transit → Transit) : Except Fail Parser :=
  match p.t with
  | none => .error .fault
  | some (.loose t) => .ok { p with t := some (.loose (g t)) }
  | some (.entry name) =>
    match p.f with
    | none => .error .fault
    | some f => .ok { p with f := some { f with transitions := hashModify f.transitions name g } }

def State.cb (s : State) (exiter : Bool) : Cb := if exiter then s.exiter else s.enterer

def State.modifyCb (s : State) (exiter : Bool) (g : Cb → Cb) : State :=
  if exiter then { s with exiter := g s.exiter } else { s with enterer := g s.enterer }

/-- `*cb`. -/
def Parser.callback (p : Parser) : Except Fail Cb :=
  match p.cb with
  | none => .error .fault
  | some ptr =>
    match p.f.bind fun f => f.states.lookup ptr.state with
    | none => .error .fault
    | some s => .ok (s.cb ptr.exiter)

/-- Writes through `cb`. -/
def Parser.modifyCallback (p : Parser) (g : Cb → Cb) : Except Fail Parser :=
  match p.cb, p.f with
  | some ptr, some f =>
    .ok { p with
      f := some { f with
        states := hashModify f.states ptr.state fun s => s.modifyCb ptr.exiter g } }
  | _, _ => .error .fault

/-! ## Tokens -/

def invalidToken (p : Parser) : Except Fail Parser :=
  .error (.parseError ("Invalid token [".toList ++ p.buf ++ "]".toList))

/-- A token in the block of a callback: `func` or `data`, if it has not been given. -/
def cbToken (p : Parser) (cb : Except Fail Cb) (funcProp dataProp : Sm) : Except Fail Parser :=
  if p.buf = "func".toList then
    match cb with
    | .error e => .error e
    | .ok cb =>
      if cb.func ≠ none then .error (.parseError "Func already specified".toList)
      else .ok { p with sm := funcProp }
  else if p.buf = "data".toList then
    match cb with
    | .error e => .error e
    | .ok cb =>
      if cb.data ≠ none then .error (.parseError "Data already specified".toList)
      else .ok { p with sm := dataProp }
  else invalidToken p

/-- A token that must not be empty. -/
def nonEmpty (p : Parser) (text : List Char) (next : Except Fail Parser) : Except Fail Parser :=
  if p.buf = [] then .error (.parseError text) else next

/-- The state machine of `estate_cc_parser_parse`, for the token in `buf`. -/
def token (p : Parser) (c : Char) : Except Fail Parser :=
  match p.sm with
  | .none =>
    .ok { p with parse := p.parse ++ p.f.toList, f := some (fsmNew p.buf), sm := .fsm }
  | .fsm =>
    if p.buf = "data".toList then .ok { p with sm := .data }
    else if p.buf = "transitions".toList then .ok { p with sm := .transitions }
    else if p.buf = "states".toList then .ok { p with sm := .states }
    else
      .error (.parseError
        ("Unexpected token [".toList ++ p.buf ++ "]. SM is ".toList ++ p.sm.fmt))
  | .data =>
    if p.buf = "global".toList then .ok { p with sm := .dataGlobalProp } else .ok p
  | .dataGlobalProp =>
    match p.fsm with
    | .error e => .error e
    | .ok f =>
      match hashFind f.dataKeys (some p.buf) with
      | some _ =>
        .error (.parseError
          ("Key [".toList ++ p.buf ++ "] has already been specified in block data".toList))
      | none =>
        .ok { p with f := some { f with dataKeys := hashAdd f.dataKeys (some p.buf) p.buf } }
  | .states =>
    match p.fsm with
    | .error e => .error e
    | .ok f =>
      match hashFind f.states (some p.buf) with
      | some _ =>
        .error (.parseError
          ("State [".toList ++ p.buf ++ "] has already been defined".toList))
      | none =>
        .ok { p with
          f := some { f with states := hashAdd f.states (some p.buf) (stateNew p.buf) }
          s := some p.buf
          sm := if c = '@' then .stateAttribute else .state }
  | .state =>
    match p.s with
    | none => .error .fault
    | some s =>
      if p.buf = "enterer".toList then .ok { p with cb := some ⟨s, false⟩, sm := .stateCb }
      else if p.buf = "exiter".toList then .ok { p with cb := some ⟨s, true⟩, sm := .stateCb }
      else invalidToken p
  | .stateAttribute =>
    if p.buf = "init".toList then
      match p.f, p.s with
      | some f, some s =>
        if f.init ≠ none then .error (.parseError "Duplicated attribute @init".toList)
        else
          .ok { p with
            f := some { f with init := some s }
            sm := if c = ';' then .states else .state }
      | _, _ => .error .fault
    else .error (.parseError ("Invalid attribute [@".toList ++ p.buf ++ "]".toList))
  | .stateCb => cbToken p p.callback .stateCbFuncProp .stateCbDataProp
  | .stateCbFuncProp =>
    nonEmpty p "Empty property".toList
      (p.modifyCallback fun cb => { cb with func := some p.buf })
  | .stateCbDataProp =>
    nonEmpty p "Empty property".toList
      (p.modifyCallback fun cb => { cb with data := some p.buf })
  | .transitions =>
    if p.buf = "model".toList then .ok { p with sm := .transitionStart }
    else
      match p.fsm with
      | .error e => .error e
      | .ok f =>
        match hashFind f.transitions (some p.buf) with
        | none =>
          .error (.parseError
            ("Transition [".toList ++ p.buf ++ "] has not been previously defined".toList))
        | some _ => .ok { p with t := some (.entry p.buf), sm := .transition }
  | .transition =>
    if p.buf = "cb".toList then .ok { p with sm := .transitionCb } else invalidToken p
  | .transitionCb =>
    cbToken p (p.transit.map Transit.cb) .transitionCbFuncProp .transitionCbDataProp
  | .transitionCbFuncProp =>
    nonEmpty p "Empty property".toList
      (p.modifyTransit fun t => { t with cb := { t.cb with func := some p.buf } })
  | .transitionCbDataProp =>
    nonEmpty p "Empty property".toList
      (p.modifyTransit fun t => { t with cb := { t.cb with data := some p.buf } })
  | .transitionStart =>
    nonEmpty p "Empty transition name".toList <|
      match p.fsm with
      | .error e => .error e
      | .ok f =>
        match hashFind f.transitions (some p.buf) with
        | some _ =>
          .error (.parseError ("Transition [".toList ++ p.buf ++ "] already defined".toList))
        | none =>
          .ok { p with
            f := some { f with
              transitions := hashAdd f.transitions (some p.buf) (transitNew p.buf) }
            t := some (.entry p.buf)
            sm := .transitionFrom }
  | .transitionFrom =>
    nonEmpty p "Empty state name".toList <|
      match p.modifyTransit fun t => { t with fromState := some p.buf } with
      | .error e => .error e
      | .ok p => .ok { p with sm := .transitionTo }
  | .transitionTo =>
    nonEmpty p "Empty state name".toList <|
      match p.modifyTransit fun t => { t with toState := some p.buf } with
      | .error e => .error e
      | .ok p => .ok { p with sm := .transitionStart, t := none }
  | .stateEob => .ok p

/-! ## Characters -/

/-- The cases of the switch on a character. -/
inductive CharCase
  | slash | dot | blockStart | arobase | colon | semicolon | dash | greater | blockEnd | white | digit
  | letter | other
  deriving DecidableEq

def charCase (c : Char) : CharCase :=
  if c = '/' then .slash
  else if c = '.' then .dot
  else if c = '\x7b' then .blockStart
  else if c = '@' then .arobase
  else if c = ':' then .colon
  else if c = ';' then .semicolon
  else if c = '-' then .dash
  else if c = '>' then .greater
  else if c = '\x7d' then .blockEnd
  else if c = ' ' ∨ c = '\n' ∨ c = '\r' ∨ c = '\t' then .white
  else if '0' ≤ c ∧ c ≤ '9' then .digit
  else if c = '_' ∨ ('a' ≤ c ∧ c ≤ 'z') ∨ ('A' ≤ c ∧ c ≤ 'Z') then .letter
  else .other

def invalidChar (text : String) (sm : Sm) : Except Fail Parser :=
  .error (.parseError (text.toList ++ sm.fmt))

/-- A character of a token. -/
def wordChar (p : Parser) (c : Char) : Except Fail Parser :=
  if p.stopWord then .error (.parseError "Invalid start of token".toList)
  else if p.buf.length + 1 ≥ 2048 then
    .error (.parseError "Stack overflow: token too long".toList)
  else .ok { p with buf := p.buf ++ [c] }

/-- A transition without a name, where a token would be its origin. -/
def anonymousTransit (p : Parser) (format : String) : Parser :=
  if p.sm = .transitionStart ∧ p.t = none then
    { p with
      t := some (.loose (transitNew (format.toList ++ fmtNat p.anonymous)))
      anonymous := p.anonymous + 1
      sm := .transitionFrom }
  else p

/-- The switch of `estate_cc_parser_parse`, with the character it leaves in `c`. -/
def special (r : Cursor) (p : Parser) (c : Char) :
    Cursor × Except Fail (Char × Parser) :=
  match charCase c with
  | .slash =>
    match charNextGet r with
    | (some '/', r) => ({ r with comments := .singleLine }, .ok ('/', p))
    | (some '*', r) => ({ r with comments := .multipleLines }, .ok ('*', p))
    | (_, r) => (r, .error (.parseError "Invalid character".toList))
  | .dot =>
    match blockEnter p true with
    | some p => (r, .ok (c, p))
    | none => (r, (invalidChar "Invalid '.'. Sm is " p.sm).map (c, ·))
  | .blockStart =>
    match blockEnter p false with
    | some p => (r, .ok (c, p))
    | none => (r, (invalidChar "Invalid '\x7b'. Sm is " p.sm).map (c, ·))
  | .arobase =>
    if p.sm = .states then (r, .ok (c, { p with hasToken := true }))
    else (r, (invalidChar "Unexpected '@'. SM = " p.sm).map (c, ·))
  | .colon =>
    if p.sm = .stateCb ∨ p.sm = .transitionCb ∨ p.sm = .data then
      match blockEnter p false with
      | some p => (r, .ok (c, p))
      | none => (r, (invalidChar "Invalid ':' current state is " p.sm).map (c, ·))
    else if p.sm = .transitionStart then (r, .ok (c, { p with hasToken := true }))
    else (r, (invalidChar "Invalid ':' current state is " p.sm).map (c, ·))
  | .semicolon =>
    if p.sm = .stateCbFuncProp ∨ p.sm = .stateCbDataProp ∨ p.sm = .transitionCbFuncProp ∨
        p.sm = .transitionCbDataProp ∨ p.sm = .dataGlobalProp then
      (r, .ok (c, { p with leaveBlock := true, hasToken := true }))
    else if p.sm = .transitionTo ∨ p.sm = .stateAttribute then
      (r, .ok (c, { p with hasToken := true }))
    else (r, (invalidChar "Invalid ';'. SM " p.sm).map (c, ·))
  | .dash =>
    let p := anonymousTransit p "TR_"
    if p.sm ≠ .transitionFrom then
      (r, (invalidChar "Unexcepted character '-': not in a transition block. SM: " p.sm).map (c, ·))
    else
      match charNextGet r with
      | (some '>', r) => (r, .ok ('>', { p with hasToken := true }))
      | (c, r) =>
        (r, .error (.parseError ("Unexcepted character '".toList ++ fmtChar c ++ "'".toList)))
  | .greater =>
    let p := anonymousTransit p "#TR_"
    if p.sm ≠ .transitionFrom then
      (r, .error (.parseError "Unexcepted character '>'".toList))
    else (r, .ok (c, { p with hasToken := true }))
  | .blockEnd => (r, .ok (c, { p with leaveBlock := true }))
  | .white => (r, .ok (c, if p.buf ≠ [] then { p with stopWord := true } else p))
  | .digit =>
    if p.buf = [] then (r, .error (.parseError "Token cannot start with a digit".toList))
    else (r, (wordChar p c).map (c, ·))
  | .letter => (r, (wordChar p c).map (c, ·))
  | .other => (r, .error (.parseError ("Invalid character '".toList ++ [c] ++ "'".toList)))

/-- What one round does after the switch: the token, if there is one, then the end of a block. -/
def settle (p : Parser) (c : Char) : Except Fail Parser :=
  let p := if p.hasToken ∧ p.buf ≠ [] then { p with handed := p.handed ++ [p.buf] } else p
  match if p.hasToken then token p c else .ok p with
  | .error e => .error e
  | .ok p =>
    let p := if p.hasToken then { p with hasToken := false, stopWord := false, buf := [] } else p
    if p.leaveBlock then
      match blockLeave p.blocks p.sm with
      | none =>
        .error (.parseError ("Unexpected end of block '".toList ++ [c] ++ "'".toList))
      | some (blocks, sm) =>
        .ok { p with blocks := blocks, sm := sm, leaveBlock := false }
    else .ok p

/-- A parse error with its place. -/
structure ParseError where
  line : UInt32
  col : UInt32
  fail : Fail
  deriving DecidableEq

/-- One round of the loop, for the character it starts with. -/
def parseRound (r : Cursor) (p : Parser) (c : Char) : Except ParseError (Cursor × Parser) :=
  match r.comments with
  | .singleLine => .ok (if c = '\n' then { r with comments := .none } else r, p)
  | .multipleLines =>
    if c = '*' then
      match charNextGet r with
      | (some '/', r) => .ok ({ r with comments := .none }, p)
      | (_, r) => .ok (r, p)
    else .ok (r, p)
  | .none =>
    let (r, next) := special r p c
    match next.bind fun (c, p) => settle p c with
    | .error e => .error ⟨r.line, r.col - 1, e⟩
    | .ok p => .ok (r, p)

/-- The loop of `estate_cc_parser_parse`. Every round reads a character. -/
def parseLoop : ℕ → Cursor → Parser → Except ParseError (Cursor × Parser)
  | 0, r, p => .ok (r, p)
  | fuel + 1, r, p =>
    match charNextGet r with
    | (none, r) => .ok (r, p)
    | (some c, r) =>
      match parseRound r p c with
      | .error e => .error e
      | .ok (r, p) => parseLoop fuel r p

/-- `p->parse`. -/
def Parser.fsms (p : Parser) : List Fsm := p.parse ++ p.f.toList

def parseRun (src : List Char) : Except ParseError (Cursor × Parser) :=
  parseLoop (src.length + 1) { ptr := src } {}

/-- `estate_cc_parser_parse` on a fresh parser, where no machine is the NULL list. -/
def parserParse (src : List Char) : List Fsm :=
  match parseRun src with
  | .error _ => []
  | .ok (_, p) => p.fsms

/-- The parser does not refuse the text. -/
def Parses (src : List Char) : Prop := ∃ r p, parseRun src = .ok (r, p)

end Estate.Cc
