import Estate.Cc.Rendering

/-!
# Abbreviated blocks

The language reference calls `b.item` another way to write `b { item }`. A document is given by
its blocks, each with a flag that says whether it is to be abbreviated, and is written out both
ways. A file is a writing of a document when its tokens, marks and ends of blocks are those of
the document, whatever blanks and comments stand between them.
-/

namespace Estate.Cc

/-! ## The items of a file -/

deriving instance DecidableEq for Item

/-- The items of a reading, behind the token begun with `word`; `gap` says that a blank stands
behind it. A token left without a mark, or parted by a blank, is no item. -/
def itemsFrom (word : List Char) (gap : Bool) : List Lexeme → Option (List Item)
  | [] => if word = [] then some [] else none
  | .white :: ls => itemsFrom word (gap || word ≠ []) ls
  | .word c :: ls => if gap then none else itemsFrom (word ++ [c]) false ls
  | .mark m :: ls => (itemsFrom [] false ls).map (.token word m :: ·)
  | .blockEnd :: ls => if word = [] then (itemsFrom [] false ls).map (.blockEnd :: ·) else none
  | .comment _ :: ls => itemsFrom word gap ls
  | .bad :: _ => none

def fileItems (src : List Char) : Option (List Item) := itemsFrom [] false (reading src).lexemes

/-! ## Documents -/

/-- An item that holds no other: `name: value;`, a line of a model, which may have no name, or
a state with an attribute, `state @attr;`. -/
inductive Leaf
  | property (name value : List Char)
  | line (name : Option (List Char)) (origin : List Char) (dashed : Bool) (target : List Char)
  | attributed (state attr : List Char)
  deriving DecidableEq

/-- What stands in a block or in a file, item by item. A block may have an attribute, and may be
one that is to be abbreviated. -/
inductive Body
  | nil
  | leaf (l : Leaf) (rest : Body)
  | block (abbreviated : Bool) (name : List Char) (attr : Option (List Char)) (body rest : Body)
  deriving DecidableEq

def Leaf.items : Leaf → List Item
  | .property name value => Cc.property name value
  | .line name origin dashed target =>
    (name.map fun w => Item.token w .colon).toList ++
      [.token origin (if dashed then .arrow else .greater), .token target .semicolon]
  | .attributed state attr => [.token state .arobase, .token attr .semicolon]

/-- The name of a block and its attribute, up to the mark that opens it. -/
def blockHead (name : List Char) (attr : Option (List Char)) (m : Mark) : List Item :=
  match attr with
  | none => [.token name m]
  | some a => [.token name .arobase, .token a m]

/-- The document in the long block syntax. -/
def Body.long : Body → List Item
  | .nil => []
  | .leaf l rest => l.items ++ rest.long
  | .block _ name attr body rest =>
    blockHead name attr .blockStart ++ (body.long ++ .blockEnd :: rest.long)

/-- The document with `b.item` for each block that is to be abbreviated. -/
def Body.short : Body → List Item
  | .nil => []
  | .leaf l rest => l.items ++ rest.short
  | .block true name attr body rest => blockHead name attr .dot ++ (body.short ++ rest.short)
  | .block false name attr body rest =>
    blockHead name attr .blockStart ++ (body.short ++ .blockEnd :: rest.short)

def Body.isNil : Body → Bool
  | .nil => true
  | _ => false

/-- Exactly one item. -/
def Body.isOne : Body → Bool
  | .nil => false
  | .leaf _ rest => rest.isNil
  | .block _ _ _ _ rest => rest.isNil

/-- The body of every block that is to be abbreviated is exactly one item. -/
def Body.abbreviable : Body → Bool
  | .nil => true
  | .leaf _ rest => rest.abbreviable
  | .block abbreviated _ _ body rest =>
    (!abbreviated || body.isOne) && body.abbreviable && rest.abbreviable

def Leaf.isProperty : Leaf → Bool
  | .property _ _ => true
  | _ => false

/-- A leaf that is the one item of an abbreviated block is a property, or nothing but ends of
blocks follows it. `abbreviated` is said of the block that this is the body of, and `last` that
nothing but ends of blocks follows the body. -/
def Body.unwinds (abbreviated last : Bool) : Body → Bool
  | .nil => true
  | .leaf l rest =>
    (!abbreviated || l.isProperty || last && rest.isNil) && rest.unwinds abbreviated last
  | .block a _ _ body rest =>
    body.unwinds a (last && rest.isNil) && rest.unwinds abbreviated last

/-! ## What the reference promises -/

/-- If the first file is accepted, so is the second, with the same machines. -/
def AsAccepted (long short : List Char) : Prop :=
  ∀ r p, parseRun long = .ok (r, p) → ∃ r' p', parseRun short = .ok (r', p') ∧ p'.fsms = p.fsms

end Estate.Cc
