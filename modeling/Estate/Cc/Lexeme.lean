import Estate.Cc.Parser

/-!
# The significant characters of a file

What a round of the parser's loop works on: one character, the two of an arrow, or a comment. A
file is read up to the byte that is taken for its end; `lex` with another predicate for that byte
also reads what lies behind it.
-/

namespace Estate.Cc

/-- What ends a token. -/
inductive Mark | dot | blockStart | arobase | colon | semicolon | greater | arrow
  deriving DecidableEq, Repr

inductive Lexeme
  | white
  | word (c : Char)
  | mark (m : Mark)
  | blockEnd
  | comment (multipleLines : Bool)
  | bad
  deriving DecidableEq, Repr

/-- The bytes `_char_next_get` returns EOF for. -/
def isEof (c : Char) : Bool := c = '\x00' ∨ c = '\xff'

/-- A character that starts neither a comment nor an arrow. -/
def charLexeme (c : Char) : Lexeme :=
  match charCase c with
  | .dot => .mark .dot
  | .blockStart => .mark .blockStart
  | .arobase => .mark .arobase
  | .colon => .mark .colon
  | .semicolon => .mark .semicolon
  | .greater => .mark .greater
  | .blockEnd => .blockEnd
  | .white => .white
  | .digit | .letter => .word c
  | .slash | .dash | .other => .bad

/-- What a text is read as: its lexemes, how its comments stand at the end, and the part behind
the byte that ends it, with that byte. -/
structure Reading where
  lexemes : List Lexeme
  comments : Comments
  unread : List Char
  deriving DecidableEq

def Reading.cons (l : Lexeme) (r : Reading) : Reading := { r with lexemes := l :: r.lexemes }

/-- The lexemes of a text, comments as the parser delimits them. -/
def lex (stop : Char → Bool) : Comments → List Char → Reading
  | comments, [] => ⟨[], comments, []⟩
  | .none, c :: cs =>
    if stop c then ⟨[], .none, c :: cs⟩
    else if c = '/' then
      match cs with
      | '/' :: cs => (lex stop .singleLine cs).cons (.comment false)
      | '*' :: cs => (lex stop .multipleLines cs).cons (.comment true)
      | cs => (lex stop .none cs).cons .bad
    else if c = '-' then
      match cs with
      | '>' :: cs => (lex stop .none cs).cons (.mark .arrow)
      | cs => (lex stop .none cs).cons .bad
    else (lex stop .none cs).cons (charLexeme c)
  | .singleLine, c :: cs =>
    if stop c then ⟨[], .singleLine, c :: cs⟩
    else if c = '\n' then (lex stop .none cs).cons .white
    else lex stop .singleLine cs
  | .multipleLines, c :: cs =>
    if stop c then ⟨[], .multipleLines, c :: cs⟩
    else if c = '*' then
      match cs with
      | [] => ⟨[], .multipleLines, []⟩
      | '/' :: cs => lex stop .none cs
      | _ :: cs => lex stop .multipleLines cs
    else lex stop .multipleLines cs

@[simp] theorem lex_nil (stop : Char → Bool) (comments : Comments) :
    lex stop comments [] = ⟨[], comments, []⟩ := by
  cases comments <;> rw [lex]

/-- What the parser reads of a file. -/
def reading (src : List Char) : Reading := lex isEof .none src

/-- One round of the parser, for the lexeme it works on. -/
def Lexeme.step (p : Parser) : Lexeme → Option Parser
  | .white => round ' ' []
  | .word c => if charCase c = .digit ∧ p.buf = [] then none else (wordChar p c).toOption
  | .mark .dot => round '.' []
  | .mark .blockStart => round '\x7b' []
  | .mark .arobase => round '@' []
  | .mark .colon => round ':' []
  | .mark .semicolon => round ';' []
  | .mark .greater => round '>' []
  | .mark .arrow => round '-' ['>']
  | .blockEnd => round '\x7d' []
  | .comment _ => some p
  | .bad => none
where
  round (c : Char) (ptr : List Char) : Option Parser :=
    ((special { ptr := ptr } p c).2.bind fun (c, p) => settle p c).toOption

/-! ## Identifiers -/

/-- A string of identifier characters. -/
def Spelled (s : List Char) : Prop := ∀ c ∈ s, charCase c = .letter ∨ charCase c = .digit

/-- An identifier that has been read to its end. -/
def ended (run : List Char) : List (List Char) := if run = [] then [] else [run]

/-- The maximal runs of identifier characters, `run` being the one read so far. -/
def runs (run : List Char) : List Lexeme → List (List Char)
  | [] => ended run
  | .word c :: ls => runs (run ++ [c]) ls
  | _ :: ls => ended run ++ runs [] ls

/-- The identifiers of a whole text, whatever bytes it holds. -/
def identifiers (src : List Char) : List (List Char) :=
  runs [] (lex (fun _ => false) .none src).lexemes

def startsRun : List Lexeme → Bool
  | .word _ :: _ => true
  | _ => false

/-- A mark comes before the next identifier and before the end. -/
def markFirst : List Lexeme → Bool
  | .mark _ :: _ => true
  | .word _ :: _ => false
  | [] => false
  | _ :: ls => markFirst ls

/-- A mark follows every run, before the next run and before the end. -/
def runsMarked : List Lexeme → Bool
  | [] => true
  | .word _ :: ls => (startsRun ls || markFirst ls) && runsMarked ls
  | _ :: ls => runsMarked ls

/-- The identifier characters of a text. -/
def wordChars (ls : List Lexeme) : List Char :=
  ls.filterMap fun
    | .word c => some c
    | _ => none

end Estate.Cc
