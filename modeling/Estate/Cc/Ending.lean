import Estate.Cc.Lexeme

/-!
# What the parser reads of a mapping

A file lies in memory with some byte behind it. `_char_next_get` returns EOF behind `p->end` only,
so it works on the file and that byte; `charNextGet` on the two is the function on the mapping.
-/

namespace Estate.Cc

/-- The calls of `_char_next_get` in a round, the one that begins it apart. -/
def roundCalls (r : Cursor) (p : Parser) (c : Char) : List Cursor :=
  match r.comments with
  | .singleLine => []
  | .multipleLines => if c = '*' then [r] else []
  | .none =>
    if c = '/' ∨ c = '-' ∧ (anonymousTransit p "TR_").sm = .transitionFrom then [r] else []

/-- The loop with its result and its calls of `_char_next_get`, the first one first. -/
inductive Finishes : Cursor → Parser → Except ParseError (Cursor × Parser) → List Cursor → Prop
  | eof {r r' : Cursor} {p : Parser} : charNextGet r = (none, r') → Finishes r p (.ok (r', p)) [r]
  | fail {r r' : Cursor} {p : Parser} {c : Char} {e : ParseError} :
      charNextGet r = (some c, r') → parseRound r' p c = .error e →
        Finishes r p (.error e) (r :: roundCalls r' p c)
  | round {r r' r'' : Cursor} {p q : Parser} {c : Char}
      {res : Except ParseError (Cursor × Parser)} {calls : List Cursor} :
      charNextGet r = (some c, r') → parseRound r' p c = .ok (r'', q) →
        Finishes r'' q res calls → Finishes r p res (r :: roundCalls r' p c ++ calls)

/-- The parser at the start of a mapping. -/
def mapped (file : List Char) (behind : Char) : Cursor := { ptr := file ++ [behind] }

/-- The offsets of the bytes that are looked at, in a file of `size` bytes. -/
def readOffsets (size : ℕ) (calls : List Cursor) : List ℕ :=
  (calls.filter fun r => r.ptr ≠ []).map fun r => size + 1 - r.ptr.length

/-- The loop ends, looks at the bytes of the file only, and stops without an error when it has
looked at all of them, at the first EOF it gets. -/
structure ReadsExactly (file : List Char) (behind : Char) : Prop where
  ends : ∃ res calls, Finishes (mapped file behind) {} res calls
  inside : ∀ res calls, Finishes (mapped file behind) {} res calls →
    ∀ i ∈ readOffsets file.length calls, i < file.length
  whole : ∀ q calls, Finishes (mapped file behind) {} (.ok q) calls →
    ∀ i < file.length, i ∈ readOffsets file.length calls
  once : ∀ q calls, Finishes (mapped file behind) {} (.ok q) calls →
    ∀ r ∈ calls.dropLast, (charNextGet r).1 ≠ none

/-! ## What the text says of it -/

/-- A lexeme stands where the parser does not allow it. -/
def Refused (src : List Char) : Prop := (reading src).lexemes.foldlM Lexeme.step {} = none

/-- The last character is a slash, or a dash behind the origin of a line of the model, outside the
comments: one more is needed to tell what it is. -/
def Dangles (comments : Comments) (cs : List Char) (p : Parser) : Prop :=
  ∃ body c q, cs = body ++ [c] ∧ (lex isEof comments body).unread = [] ∧
    (lex isEof comments body).comments = .none ∧
    (lex isEof comments body).lexemes.foldlM Lexeme.step p = some q ∧
    (c = '/' ∨ c = '-' ∧ (anonymousTransit q "TR_").sm = .transitionFrom)

/-- In a comment of several lines, a byte that would end the file stands behind a star, as one of
the two bytes that are looked at together. -/
def passesEof : Comments → List Char → Bool
  | _, [] => false
  | .none, c :: cs =>
    if isEof c then false
    else if c = '/' then
      match cs with
      | '/' :: cs => passesEof .singleLine cs
      | '*' :: cs => passesEof .multipleLines cs
      | cs => passesEof .none cs
    else passesEof .none cs
  | .singleLine, c :: cs =>
    if isEof c then false
    else if c = '\n' then passesEof .none cs
    else passesEof .singleLine cs
  | .multipleLines, c :: cs =>
    if isEof c then false
    else if c = '*' then
      match cs with
      | [] => false
      | '/' :: cs => passesEof .none cs
      | d :: cs => isEof d || passesEof .multipleLines cs
    else passesEof .multipleLines cs

@[simp] theorem passesEof_nil (comments : Comments) : passesEof comments [] = false := by
  cases comments <;> rw [passesEof]

/-- The last byte is the one that ends the file, and none before it would. -/
def EndsAtEof (src : List Char) : Prop :=
  (∃ e, (reading src).unread = [e]) ∧ passesEof .none src = false

end Estate.Cc
