import Estate.Cc.Nesting

/-!
# The lines of the models

A line of a model leads from one state to another: `name : a > b ;`, or `a > b ;` without a name.
The listing of a file follows its outline and takes down every line at its end. It builds no
machine and has no hash.
-/

namespace Estate.Cc

/-- A line of a model that has been read to its end. -/
structure ModelLine where
  named : Bool
  fromState : Stringshare
  toState : Stringshare
  deriving DecidableEq, Repr

/-- The lines of the machines so far, those of the last machine apart, and what has been read of
the next one. -/
structure Listing where
  outline : Outline := {}
  past : List (List ModelLine) := []
  last : Option (List ModelLine) := none
  named : Bool := false
  origin : Stringshare := []
  deriving DecidableEq

/-- What a mark and the word before it add. -/
def Listing.mark (l : Listing) (m : Mark) : Listing :=
  match l.outline.zone with
  | .file => { l with past := l.past ++ l.last.toList, last := some [] }
  | .model =>
    if m = .greater ∨ m = .arrow then { l with named := false, origin := l.outline.word }
    else { l with named := true }
  | .origin => { l with origin := l.outline.word }
  | .target => { l with last := l.last.map (· ++ [⟨l.named, l.origin, l.outline.word⟩]) }
  | _ => l

def Listing.step (l : Listing) (x : Lexeme) : Listing :=
  match x with
  | .mark m => { l.mark m with outline := l.outline.step x }
  | _ => { l with outline := l.outline.step x }

/-- The lines, one list for each machine. -/
def Listing.lines (l : Listing) : List (List ModelLine) := l.past ++ l.last.toList

/-- A line with a name has been begun. -/
def Listing.Begun (l : Listing) : Prop :=
  l.named = true ∧ (l.outline.zone = .origin ∨ l.outline.zone = .target)

/-- The listing of what is read of a file. -/
def listing (src : List Char) : Listing := (reading src).lexemes.foldl Listing.step {}

def ModelLine.pair (x : ModelLine) : Option Stringshare × Option Stringshare :=
  (some x.fromState, some x.toState)

/-- Every line is a transition of its machine, and a machine has no other. -/
def LinesKept (fs : List Fsm) (lines : List (List ModelLine)) : Prop :=
  List.Forall₂ (fun f xs => f.pairs.Perm (xs.map ModelLine.pair)) fs lines

end Estate.Cc
