import Estate.Cc.Lexeme

/-!
# How deep a file is nested

The parser keeps its nesting twice, in `p->blocks` and in `p->sm`. The outline of a file follows
its blocks and the words that name them, and nothing else: it builds no machine, finds no error,
and knows no token.
-/

namespace Estate.Cc

/-- The cursor and the parser after some rounds of the loop. -/
inductive Reached (src : List Char) : Cursor → Parser → Prop
  | start : Reached src { ptr := src } {}
  | round {r r₁ r₂ : Cursor} {p q : Parser} {c : Char} : Reached src r p →
    charNextGet r = (some c, r₁) → parseRound r₁ p c = .ok (r₂, q) → Reached src r₂ q

/-- The nesting depth of a state. -/
def Sm.depth : Sm → ℕ
  | .none => 0
  | .fsm => 1
  | .data | .transitions | .states | .stateAttribute => 2
  | .dataGlobalProp | .transitionStart | .transitionFrom | .transitionTo | .transition
  | .state | .stateEob => 3
  | .transitionCb | .stateCb => 4
  | .stateCbFuncProp | .stateCbDataProp | .transitionCbFuncProp | .transitionCbDataProp => 5

/-- As many blocks are open as the state says. -/
def Parser.InStep (p : Parser) : Prop := p.blocks.length = p.sm.depth

/-- A character that nests the blocks as it nests the state: no block ends inside a transition or
an attribute, `data` holds no block but `global`, and the model none at all. -/
structure KeepsStep (p : Parser) (c : Char) : Prop where
  blockEnd : c = '\x7d' →
    p.sm ≠ .transitionFrom ∧ p.sm ≠ .transitionTo ∧ p.sm ≠ .stateAttribute
  data : p.sm = .data → c = '\x7b' ∨ c = '.' ∨ c = ':' → p.buf = "global".toList
  model : p.sm = .transitionStart → c ≠ '\x7b' ∧ c ≠ '.'

/-- What an accepted file is to leave: no machine, block, token or comment is open, and every
transition has both its states. -/
structure Completed (r : Cursor) (p : Parser) : Prop where
  sm : p.sm = .none
  blocks : p.blocks = []
  buf : p.buf = []
  comments : r.comments ≠ .multipleLines
  transits : ∀ f ∈ p.fsms, ∀ t ∈ f.transits, t.fromState ≠ none ∧ t.toState ≠ none

/-! ## The outline of a file -/

/-- The part of the language that a place of a file belongs to. -/
inductive Zone
  | file | machine | data | key | transitions | model | origin | target | transition
  | transitionCb | transitionProp | states | attribute | state | stateCb | stateProp
  deriving DecidableEq

/-- The zone around a block. -/
def Zone.parent : Zone → Zone
  | .machine => .file
  | .data | .transitions | .states => .machine
  | .key => .data
  | .model | .transition => .transitions
  | .transitionCb => .transition
  | .transitionProp => .transitionCb
  | .state => .states
  | .stateCb => .state
  | .stateProp => .stateCb
  | zone => zone

/-- The zone behind a word and its mark. -/
def Zone.next (zone : Zone) (word : List Char) (m : Mark) : Zone :=
  match zone with
  | .file => .machine
  | .machine =>
    if word = "data".toList then .data
    else if word = "transitions".toList then .transitions
    else .states
  | .data => if word = "global".toList then .key else .data
  | .transitions => if word = "model".toList then .model else .transition
  | .model => if m = .greater ∨ m = .arrow then .target else .origin
  | .origin => .target
  | .target => .model
  | .transition => .transitionCb
  | .transitionCb => .transitionProp
  | .states => if m = .arobase then .attribute else .state
  | .attribute => if m = .semicolon then .states else .state
  | .state => .stateCb
  | .stateCb => .stateProp
  | zone => zone

/-- The blocks that are open, the last one first, `true` for those that end with the block in
them, and the word that has been begun. -/
structure Outline where
  zone : Zone := .file
  blocks : List Bool := []
  word : List Char := []
  deriving DecidableEq

/-- The end of a block, and of the blocks that end with it. -/
def closeBlock : List Bool → Zone → List Bool × Zone
  | [], zone => ([], zone)
  | _ :: blocks, zone =>
    if blocks.head? = some true then closeBlock blocks zone.parent else (blocks, zone.parent)

def Outline.close (o : Outline) : Outline :=
  { o with blocks := (closeBlock o.blocks o.zone).1, zone := (closeBlock o.blocks o.zone).2 }

/-- The block that a mark opens. -/
def Mark.opens (zone : Zone) : Mark → List Bool
  | .dot => [true]
  | .blockStart => [false]
  | .colon => if zone = .model then [] else [false]
  | _ => []

/-- A value ends its block. -/
def Mark.closes (zone : Zone) (m : Mark) : Bool :=
  m = .semicolon ∧ (zone = .key ∨ zone = .transitionProp ∨ zone = .stateProp)

def Outline.step (o : Outline) : Lexeme → Outline
  | .word c => { o with word := o.word ++ [c] }
  | .blockEnd => o.close
  | .mark m =>
    let next : Outline := { zone := o.zone.next o.word m, blocks := m.opens o.zone ++ o.blocks }
    if m.closes o.zone then next.close else next
  | _ => o

theorem Outline.step_mark (o : Outline) (m : Mark) : o.step (.mark m) =
    let next : Outline := { zone := o.zone.next o.word m, blocks := m.opens o.zone ++ o.blocks }
    if m.closes o.zone then next.close else next := rfl

/-- The outline of what is read of a file. -/
def outline (src : List Char) : Outline := (reading src).lexemes.foldl Outline.step {}

/-- Everything that the file has opened is closed. -/
def Closed (src : List Char) : Prop := outline src = {} ∧ (reading src).comments ≠ .multipleLines

end Estate.Cc
