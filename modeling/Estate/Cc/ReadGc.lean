import Estate.Cc.Naming
import Estate.Cc.OutGc
import Estate.Lib.Reader

/-!
# Reading generated code back

What the file of `estate_cc_out_gc` says, taken from its text alone: the loaders in it, with every
declaration and every statement. The blank lines around the statements of a loader, of which the
source prints one before the first initialisation and one behind the last, are passed over.
-/

namespace Estate.Cc

open Lib Lib.Reader

/-! ## Readers -/

def isWordChar (c : Char) : Bool := decide (charCase c = .letter ∨ charCase c = .digit)

def readWord : Reader Char Stringshare := span isWordChar

def readNumber : Reader Char ℕ := do
  let digits ← span Char.isDigit
  pure (Nat.ofDigitChars 10 digits 0)

/-- What `%s` has printed. -/
def readShare : Reader Char (Option Stringshare) :=
  either (do lit "(null)".toList; pure none) (do let s ← readWord; pure (some s))

/-- A value of the assignments, up to its semicolon. -/
def readValue : Reader Char (List Char) := span fun c => c ≠ ';'

def blanks : Reader Char Unit := do
  let _ ← span fun c => c = '\n'

def readCtor (var indent : String) : Reader Char CtorText := do
  lit indent.toList
  lit var.toList
  lit "_ctor.func = ".toList
  let func ← readValue
  lit ";\n".toList
  lit indent.toList
  lit var.toList
  lit "_ctor.key = ".toList
  let key ← readValue
  lit ";\n".toList
  lit indent.toList
  lit var.toList
  lit "_ctor.key_len = ".toList
  let keyLen ← readNumber
  lit ";\n".toList
  pure ⟨func, key, keyLen⟩

/-- A transition of an array, behind another one. -/
def readNextTr : Reader Char Stringshare := do
  lit ",\n".toList
  lit "           t_".toList
  readWord

def readTrs : Reader Char (List Stringshare) :=
  either
    (do
      lit "        const Estate_Transition *trs[] = \x7b\n".toList
      lit "           t_".toList
      let t ← readWord
      let ts ← many readNextTr
      lit "\n        \x7d;\n".toList
      lit "        const unsigned int trs_count = EINA_C_ARRAY_LENGTH(trs);\n".toList
      pure (t :: ts))
    (do
      lit "        const Estate_Transition **trs = NULL;\n".toList
      lit "        const unsigned int trs_count = 0;\n".toList
      pure [])

def readStateNew : Reader Char Stmt := do
  lit "   s_".toList
  let s ← readWord
  lit " = estate_state_new(fsm, ".toList
  let n ← readNumber
  lit ");\n".toList
  lit "   if (EINA_UNLIKELY(s_".toList
  lit s
  lit " == NULL)) goto fsm_fail;\n".toList
  pure (.stateNew s n)

def readTransitionNew : Reader Char Stmt := do
  lit "   t_".toList
  let t ← readWord
  lit " = estate_transition_new(fsm);\n".toList
  lit "   if (EINA_UNLIKELY(t_".toList
  lit t
  lit " == NULL)) goto fsm_fail;\n".toList
  pure (.transitionNew t)

def readStateInit : Reader Char Stmt := do
  lit "     \x7b\n".toList
  let trs ← readTrs
  let enterer ← readCtor "enterer" "        "
  let exiter ← readCtor "exiter" "        "
  lit "        chk = estate_state_init(s_".toList
  let s ← readWord
  lit ", \"".toList
  lit s
  lit "\", trs, trs_count,\n".toList
  lit "                                &enterer_ctor, &exiter_ctor);\n".toList
  lit (unlessText "        ")
  lit "        chk = estate_machine_state_add(fsm, s_".toList
  lit s
  lit ");\n".toList
  lit (unlessText "        ")
  lit "     \x7d\n\n".toList
  pure (.stateInit s trs enterer exiter)

def readTransitionInit : Reader Char Stmt := do
  let cb ← readCtor "cb" "   "
  let enterer ← readCtor "enterer" "   "
  let exiter ← readCtor "exiter" "   "
  lit "   chk = estate_transition_init(t_".toList
  let t ← readWord
  lit ", \"".toList
  lit t
  lit "\", s_".toList
  let fromState ← readShare
  lit ", s_".toList
  let toState ← readShare
  lit ",\n".toList
  lit "                                &cb_ctor, &enterer_ctor, &exiter_ctor);\n".toList
  lit (unlessText "   ")
  lit "   chk = estate_machine_transition_add(fsm, t_".toList
  lit t
  lit ");\n".toList
  lit (unlessText "   ")
  lit "\n".toList
  pure (.transitionInit t fromState toState cb enterer exiter)

def readStmt : Reader Char Stmt :=
  either readStateNew (either readTransitionNew (either readStateInit readTransitionInit))

def readProto : Reader Char Stringshare := do
  lit "static int ".toList
  let func ← readWord
  lit "(void *data, Estate_Cb_Type type, ".toList
  lit "const Estate_Transition *transition);\n".toList
  pure func

/-- The declaration of a variable whose name has that text before it. -/
def readDeclaration (text : String) : Reader Char Stringshare := do
  lit text.toList
  let name ← readWord
  lit " = NULL;\n".toList
  pure name

/-- The name of a machine, from the symbol of its loader. -/
def readLoadName : Reader Char Stringshare := do
  let symbol ← readWord
  StateT.lift (symbol.dropSuffix? "_load".toList)

def readLoader : Reader Char Loader := do
  let protos ← many readProto
  lit "\n\n".toList
  lit "static Estate_Machine *\n_estate_fsm_".toList
  let name ← readLoadName
  lit "(void)\n\x7b\n".toList
  lit "   Estate_Machine *fsm = NULL;\n   Eina_Bool chk;\n".toList
  lit "   Estate_Cb_Ctor cb_ctor, enterer_ctor, exiter_ctor;\n\n".toList
  let states ← many (readDeclaration "   Estate_State *s_")
  let transitions ← many (readDeclaration "   Estate_Transition *t_")
  lit "\n   fsm = estate_machine_new(".toList
  let stateCount ← readNumber
  lit ", ".toList
  let transitCount ← readNumber
  lit ");\n".toList
  let body ← many (do blanks; readStmt)
  blanks
  lit "   estate_machine_lock(fsm, s_".toList
  let init ← readShare
  lit ");\n\n   return fsm;\n\n".toList
  lit "fsm_fail:\n   EINA_LOG_CRIT(\"Failed to create FSM \\\"".toList
  lit name
  lit "\\\"\");\n   estate_machine_free(fsm);\n   return NULL;\n\x7d\n\n".toList
  pure ⟨name, protos, states, transitions, stateCount, transitCount, body, init⟩

def readFile : Reader Char (List Loader) := do
  lit "/*\n * This file has been generated by estate_cc.\n".toList
  lit " * DO NOT MODIFY MANUALLY!\n */\n\n#include <Estate.h>\n\n".toList
  many readLoader

/-- The loaders of a generated file. -/
def readGc (text : List Char) : Option (List Loader) := whole readFile text

/-! ## What is printed -/

def blankLines (n : ℕ) : List Char := List.replicate n '\n'

/-- A text of a loader: blank lines may stand before any of its statements, and behind the last. -/
def Loader.Printed (l : Loader) (text : List Char) : Prop :=
  ∃ lines : List (ℕ × Stmt), ∃ last : ℕ, lines.map Prod.snd = l.body ∧
    text = l.head ++ (lines.flatMap (fun x => blankLines x.1 ++ x.2.text) ++
      (blankLines last ++ l.foot))

/-- The text of a file with those loaders. -/
def GcFile (loaders : List Loader) (text : List Char) : Prop :=
  ∃ texts, List.Forall₂ Loader.Printed loaders texts ∧
    text = "/*\n * This file has been generated by estate_cc.\n".toList ++
      (" * DO NOT MODIFY MANUALLY!\n */\n\n#include <Estate.h>\n\n".toList ++ texts.flatten)

/-- A value that an assignment can end behind. -/
structure CtorText.Legible (c : CtorText) : Prop where
  func : ';' ∉ c.func
  key : ';' ∉ c.key

def Stmt.Legible : Stmt → Prop
  | .stateNew s _ => Spelled s
  | .transitionNew t => Spelled t
  | .stateInit s trs enterer exiter =>
    Spelled s ∧ (∀ t ∈ trs, Spelled t) ∧ enterer.Legible ∧ exiter.Legible
  | .transitionInit t fromState toState cb enterer exiter =>
    Spelled t ∧ (∀ s ∈ fromState, Spelled s) ∧ (∀ s ∈ toState, Spelled s) ∧ cb.Legible ∧
      enterer.Legible ∧ exiter.Legible

/-- Every name in a loader is made of letters, digits and underscores. -/
structure Loader.Legible (l : Loader) : Prop where
  name : Spelled l.name
  protos : ∀ f ∈ l.protos, Spelled f
  states : ∀ s ∈ l.states, Spelled s
  transitions : ∀ t ∈ l.transitions, Spelled t
  body : ∀ s ∈ l.body, s.Legible
  init : ∀ i ∈ l.init, Spelled i

end Estate.Cc
