import Estate.Cc.Nesting

/-!
# The names in a file

What the strings of the machines are to be, and the words of a file with the part of the language
each belongs to. The words follow the outline of the file; no machine is built and no name is
looked up.
-/

namespace Estate.Cc

/-- A non-empty identifier: `[A-Za-z_][A-Za-z0-9_]*`. -/
structure Ident (s : List Char) : Prop where
  start : ∃ c cs, s = c :: cs ∧ charCase c = .letter
  spelled : Spelled s

structure Cb.Worded (cb : Cb) : Prop where
  func : ∀ s, cb.func = some s → Ident s
  data : ∀ s, cb.data = some s → Ident s

structure State.Worded (N : List Char → Prop) (s : State) : Prop where
  name : N s.name
  enterer : s.enterer.Worded
  exiter : s.exiter.Worded

structure Transit.Worded (t : Transit) : Prop where
  name : Ident t.name
  fromState : ∀ s, t.fromState = some s → Ident s
  toState : ∀ s, t.toState = some s → Ident s
  cb : t.cb.Worded
  enterer : t.enterer.Worded
  exiter : t.exiter.Worded

/-- Every string of a machine is an identifier, its own name and the names of its states and its
data as far as `N` says. -/
structure Fsm.Worded (N : List Char → Prop) (f : Fsm) : Prop where
  name : N f.name
  dataKeys : ∀ n key, f.dataKeys.lookup n = some key → N key
  transits : ∀ n t, f.transitions.lookup n = some t → t.Worded
  states : ∀ n s, f.states.lookup n = some s → s.Worded N
  init : ∀ i, f.init = some i → N i

/-- No two machines have one name, and every name is one that a program can bear. -/
structure Usable (fs : List Fsm) : Prop where
  distinct : (fs.map Fsm.name).Nodup
  worded : ∀ f ∈ fs, f.Worded Ident

/-- The words that end at a mark, each with the part of the language it stands in. -/
def wordsFrom : Outline → List Lexeme → List (Zone × List Char)
  | _, [] => []
  | o, .mark m :: ls => (o.zone, o.word) :: wordsFrom (o.step (.mark m)) ls
  | o, l :: ls => wordsFrom (o.step l) ls

/-- The words of what is read of a file. -/
def words (src : List Char) : List (Zone × List Char) := wordsFrom {} (reading src).lexemes

/-- The places that name a machine, a key or a state. -/
def Zone.Names (zone : Zone) : Prop := zone = .file ∨ zone = .key ∨ zone = .states

/-- The words that stand in one part of the language. -/
def wordsIn (zone : Zone) (ws : List (Zone × List Char)) : List (List Char) :=
  (ws.filter fun w => w.1 = zone).map Prod.snd

end Estate.Cc
