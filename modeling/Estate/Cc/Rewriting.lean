import Estate.Cc.Lexeme

/-!
# Texts that are to mean the same

A file without its comments, as in C: a comment opened by a slash and a star ends at the first star
with a slash behind it and leaves a blank, one opened by two slashes ends before the next newline
and leaves nothing.

A file with some of its long arrows made short, which the language reference takes for the same:
those outside comments that no other `-` stands before, chosen by the place of their `-`. Here
comments are as the parser delimits them, and behind the byte that ends the file there are none.
-/

namespace Estate.Cc

/-! ## Comments -/

def strip : Comments → List Char → List Char
  | _, [] => []
  | .none, c :: cs =>
    if c = '/' then
      match cs with
      | '/' :: cs => strip .singleLine cs
      | '*' :: cs => ' ' :: strip .multipleLines cs
      | cs => c :: strip .none cs
    else c :: strip .none cs
  | .singleLine, c :: cs => if c = '\n' then c :: strip .none cs else strip .singleLine cs
  | .multipleLines, c :: cs =>
    if c = '*' then
      match cs with
      | '/' :: cs => strip .none cs
      | cs => strip .multipleLines cs
    else strip .multipleLines cs

@[simp] theorem strip_nil (comments : Comments) : strip comments [] = [] := by
  cases comments <;> rw [strip]

/-- The slash that ends a comment of several lines stands behind an odd number of stars, of which
`stars` have been read. The star that opens the comment is not one of them. -/
def oddStars : Comments → ℕ → List Char → Bool
  | _, _, [] => true
  | .none, _, c :: cs =>
    if c = '/' then
      match cs with
      | '/' :: cs => oddStars .singleLine 0 cs
      | '*' :: cs => oddStars .multipleLines 0 cs
      | cs => oddStars .none 0 cs
    else oddStars .none 0 cs
  | .singleLine, _, c :: cs =>
    if c = '\n' then oddStars .none 0 cs else oddStars .singleLine 0 cs
  | .multipleLines, stars, c :: cs =>
    if c = '*' then oddStars .multipleLines (stars + 1) cs
    else if c = '/' ∧ stars ≠ 0 then stars % 2 = 1 && oddStars .none 0 cs
    else oddStars .multipleLines 0 cs

/-- Two identifier characters with a comment of several lines between them, and no blank and no mark:
`begun` says that an identifier has been read, `since` that a comment has been read after it. -/
def joinsWords (begun since : Bool) : List Lexeme → Bool
  | [] => false
  | .word _ :: ls => (begun && since) || joinsWords true false ls
  | .mark _ :: ls | .white :: ls => joinsWords false false ls
  | .comment true :: ls => joinsWords begun true ls
  | _ :: ls => joinsWords begun since ls

/-- As far as a text is read, its comments of several lines end behind an odd number of stars. -/
def ReadsOdd (src : List Char) : Prop :=
  ∀ read rest, src = read ++ rest → Parses read → oddStars .none 0 read = true

/-- As far as a text is read, no comment of several lines stands inside a word. -/
def ReadsApart (src : List Char) : Prop :=
  ∀ read rest, src = read ++ rest → Parses read → joinsWords false false (reading read).lexemes = false

/-- Both texts are refused, or both give the same machines. -/
def SameOutcome (a b : List Char) : Prop :=
  (Parses a ↔ Parses b) ∧ parserParse a = parserParse b

/-! ## Arrows -/

/-- The part of a file that is not read. `dashed` says that a `-` stands before it, `i` where in the
file it stands. -/
def shortUnread (pick : ℕ → Bool) (dashed : Bool) (i : ℕ) : List Char → List Char
  | '-' :: '>' :: cs =>
    if pick i ∧ dashed = false then '>' :: shortUnread pick false (i + 2) cs
    else '-' :: '>' :: shortUnread pick false (i + 2) cs
  | c :: cs => c :: shortUnread pick (c = '-') (i + 1) cs
  | [] => []

/-- The text with the chosen arrows made short. -/
def shortArrows (pick : ℕ → Bool) : Comments → Bool → ℕ → List Char → List Char
  | _, _, _, [] => []
  | .none, dashed, i, c :: cs =>
    if isEof c then c :: shortUnread pick false (i + 1) cs
    else if c = '/' then
      match cs with
      | '/' :: cs => c :: '/' :: shortArrows pick .singleLine false (i + 2) cs
      | '*' :: cs => c :: '*' :: shortArrows pick .multipleLines false (i + 2) cs
      | cs => c :: shortArrows pick .none false (i + 1) cs
    else if c = '-' then
      match cs with
      | '>' :: cs =>
        if pick i ∧ dashed = false then '>' :: shortArrows pick .none false (i + 2) cs
        else c :: '>' :: shortArrows pick .none false (i + 2) cs
      | cs => c :: shortArrows pick .none true (i + 1) cs
    else c :: shortArrows pick .none false (i + 1) cs
  | .singleLine, _, i, c :: cs =>
    if isEof c then c :: shortUnread pick false (i + 1) cs
    else if c = '\n' then c :: shortArrows pick .none false (i + 1) cs
    else c :: shortArrows pick .singleLine false (i + 1) cs
  | .multipleLines, _, i, c :: cs =>
    if isEof c then c :: shortUnread pick false (i + 1) cs
    else if c = '*' then
      match cs with
      | [] => [c]
      | '/' :: cs => c :: '/' :: shortArrows pick .none false (i + 2) cs
      | d :: cs => c :: d :: shortArrows pick .multipleLines false (i + 2) cs
    else c :: shortArrows pick .multipleLines false (i + 1) cs

/-- The file with the chosen arrows made short. -/
def shorten (pick : ℕ → Bool) (src : List Char) : List Char := shortArrows pick .none false 0 src

example : shorten (fun _ => true) "t: a -> b; /* -> */ c --> d // ->".toList =
    "t: a > b; /* -> */ c --> d // ->".toList := by decide +kernel

end Estate.Cc
