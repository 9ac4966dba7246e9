import Estate.Cc.Lexeme

/-!
# Machines as files describe them

A description of a machine, and the texts that describe it in the long block syntax of the
language reference: `data`, then `transitions` with `model` first, then `states`. A text is
laid out with any blanks around its tokens and marks.
-/

namespace Estate.Cc

/-! ## Descriptions -/

structure TransitDescr where
  name : Stringshare
  origin : Stringshare
  target : Stringshare
  cb : Cb := {}
  deriving DecidableEq

structure StateDescr where
  name : Stringshare
  enterer : Cb := {}
  exiter : Cb := {}
  deriving DecidableEq

structure Descr where
  name : Stringshare
  dataKeys : List Stringshare := []
  transits : List TransitDescr := []
  states : List StateDescr := []
  init : Option Stringshare := none
  deriving DecidableEq

/-- A token that fits into the buffer. -/
structure Identifier (w : List Char) : Prop where
  nonempty : w ≠ []
  length : w.length ≤ 2047
  chars : ∀ c ∈ w, charCase c = .letter ∨ charCase c = .digit
  head : ∀ c ∈ w.head?, charCase c ≠ .digit

instance (w : List Char) : Decidable (Identifier w) :=
  decidable_of_iff (w ≠ [] ∧ w.length ≤ 2047 ∧
      (w.all fun c => charCase c = .letter ∨ charCase c = .digit) ∧
      w.head?.toList.all fun c => charCase c ≠ .digit)
    ⟨fun ⟨h₁, h₂, h₃, h₄⟩ => ⟨h₁, h₂, by simpa using h₃, by simpa using h₄⟩,
      fun ⟨h₁, h₂, h₃, h₄⟩ => ⟨h₁, h₂, by simpa using h₃, by simpa using h₄⟩⟩

def Cb.Valid (cb : Cb) : Prop :=
  (∀ w ∈ cb.func, Identifier w) ∧ ∀ w ∈ cb.data, Identifier w

structure TransitDescr.Valid (t : TransitDescr) : Prop where
  name : Identifier t.name
  origin : Identifier t.origin
  target : Identifier t.target
  cb : t.cb.Valid
  model : t.cb ≠ {} → t.name ≠ "model".toList

structure StateDescr.Valid (s : StateDescr) : Prop where
  name : Identifier s.name
  enterer : s.enterer.Valid
  exiter : s.exiter.Valid

structure Descr.Valid (d : Descr) : Prop where
  name : Identifier d.name
  dataKeys : ∀ k ∈ d.dataKeys, Identifier k
  transits : ∀ t ∈ d.transits, t.Valid
  states : ∀ s ∈ d.states, s.Valid
  dataKeys_nodup : d.dataKeys.Nodup
  transits_nodup : (d.transits.map TransitDescr.name).Nodup
  states_nodup : (d.states.map StateDescr.name).Nodup
  init : ∀ i ∈ d.init, i ∈ d.states.map StateDescr.name

/-! ## The machine described -/

/-- Before its description, a transition has no callback. -/
def TransitDescr.bare (t : TransitDescr) : Transit :=
  { name := t.name, fromState := some t.origin, toState := some t.target }

def TransitDescr.transit (t : TransitDescr) : Transit := { t.bare with cb := t.cb }

def StateDescr.state (s : StateDescr) : State :=
  { stateNew s.name with enterer := s.enterer, exiter := s.exiter }

/-- The entry of a list under a name. -/
def named {α : Type} (name : α → Stringshare) (l : List α) (n : Stringshare) : Option α :=
  l.find? fun a => name a = n

/-- A machine with exactly the data keys, transitions, states and init of the description. -/
structure Descr.Describes (d : Descr) (f : Fsm) : Prop where
  name : f.name = d.name
  dataKeys : ∀ n, f.dataKeys.lookup n = named id d.dataKeys n
  transitions : ∀ n,
    f.transitions.lookup n = (named TransitDescr.name d.transits n).map TransitDescr.transit
  states : ∀ n, f.states.lookup n = (named StateDescr.name d.states n).map StateDescr.state
  init : f.init = d.init

/-! ## Texts -/

/-- A token with the mark behind it, or the end of a block. -/
inductive Item
  | token (w : List Char) (m : Mark)
  | blockEnd

def Mark.text : Mark → List Char
  | .dot => ['.']
  | .blockStart => ['\x7b']
  | .arobase => ['@']
  | .colon => [':']
  | .semicolon => [';']
  | .greater => ['>']
  | .arrow => ['-', '>']

/-- Blanks, tabs and the ends of lines. -/
def Blanks (cs : List Char) : Prop := ∀ c ∈ cs, charCase c = .white

/-- The texts in which these items stand, with blanks anywhere around tokens and marks. -/
inductive Layout : List Item → List Char → Prop
  | nil {bs : List Char} : Blanks bs → Layout [] bs
  | token {bs bs' cs : List Char} {w : List Char} {m : Mark} {items : List Item} :
    Blanks bs → Blanks bs' → Layout items cs →
      Layout (.token w m :: items) (bs ++ (w ++ (bs' ++ (m.text ++ cs))))
  | blockEnd {bs cs : List Char} {items : List Item} :
    Blanks bs → Layout items cs → Layout (.blockEnd :: items) (bs ++ '\x7d' :: cs)

/-- `name { ... }`. -/
def block (name : List Char) (body : List Item) : List Item :=
  .token name .blockStart :: (body ++ [.blockEnd])

/-- `name: value;`. -/
def property (name value : List Char) : List Item :=
  [.token name .colon, .token value .semicolon]

/-- The properties of a callback, in either order. -/
inductive CbBody : Cb → List Item → Prop
  | none : CbBody {} []
  | func {f : Stringshare} : CbBody { func := some f } (property "func".toList f)
  | data {d : Stringshare} : CbBody { data := some d } (property "data".toList d)
  | funcData {f d : Stringshare} : CbBody { func := some f, data := some d }
      (property "func".toList f ++ property "data".toList d)
  | dataFunc {f d : Stringshare} : CbBody { func := some f, data := some d }
      (property "data".toList d ++ property "func".toList f)

/-- The block of a callback, which may be left out when it is empty. -/
inductive CbBlock (name : List Char) : Cb → List Item → Prop
  | given {cb : Cb} {body : List Item} : CbBody cb body → CbBlock name cb (block name body)
  | omitted : CbBlock name {} []

/-- `name: origin > target;`. -/
inductive Line (t : TransitDescr) : List Item → Prop
  | intro {m : Mark} : m = .greater ∨ m = .arrow →
      Line t [.token t.name .colon, .token t.origin m, .token t.target .semicolon]

/-- `name { cb { ... } }`. -/
inductive Description (t : TransitDescr) : List Item → Prop
  | intro {body : List Item} : CbBlock "cb".toList t.cb body →
      Description t (block t.name body)

inductive StateBody (s : StateDescr) : List Item → Prop
  | entererFirst {enterer exiter : List Item} : CbBlock "enterer".toList s.enterer enterer →
      CbBlock "exiter".toList s.exiter exiter → StateBody s (enterer ++ exiter)
  | exiterFirst {enterer exiter : List Item} : CbBlock "enterer".toList s.enterer enterer →
      CbBlock "exiter".toList s.exiter exiter → StateBody s (exiter ++ enterer)

/-- `name { ... }`, or `name @init { ... }` for the initial state. -/
inductive StateBlock (init : Option Stringshare) (s : StateDescr) : List Item → Prop
  | plain {body : List Item} : init ≠ some s.name → StateBody s body →
      StateBlock init s (block s.name body)
  | init {body : List Item} : init = some s.name → StateBody s body →
      StateBlock init s (.token s.name .arobase :: block "init".toList body)

inductive DataBlock : List Stringshare → List Item → Prop
  | given {keys : List Stringshare} :
      DataBlock keys (block "data".toList (keys.map (property "global".toList)).flatten)
  | omitted : DataBlock [] []

/-- The model, and behind it the blocks of transitions, those with a callback among them. -/
inductive TransitionsBlock : List TransitDescr → List Item → Prop
  | given {ts described : List TransitDescr} {lines blocks : List (List Item)} :
      List.Forall₂ Line ts lines → described.Nodup → described ⊆ ts →
      (∀ t ∈ ts, t.cb ≠ {} → t ∈ described) →
      (∀ t ∈ described, t.cb = {} → t.name ≠ "model".toList) →
      List.Forall₂ Description described blocks →
      TransitionsBlock ts
        (block "transitions".toList (block "model".toList lines.flatten ++ blocks.flatten))
  | omitted : TransitionsBlock [] []

inductive StatesBlock (init : Option Stringshare) : List StateDescr → List Item → Prop
  | given {states : List StateDescr} {blocks : List (List Item)} :
      List.Forall₂ (StateBlock init) states blocks →
      StatesBlock init states (block "states".toList blocks.flatten)
  | omitted : StatesBlock init [] []

inductive MachineBlock (d : Descr) : List Item → Prop
  | intro {data transitions states : List Item} : DataBlock d.dataKeys data →
      TransitionsBlock d.transits transitions → StatesBlock d.init d.states states →
      MachineBlock d (block d.name (data ++ (transitions ++ states)))

/-- The texts that describe these machines. -/
def Renders (ds : List Descr) (src : List Char) : Prop :=
  ∃ machines, List.Forall₂ MachineBlock ds machines ∧ Layout machines.flatten src

end Estate.Cc
