import Estate.Cc.Meaning
import Estate.Cc.Rebuild
import Estate.Cc.Rendering
import Estate.Cc.Main

/-!
# What a described machine means

The automaton of a description, read off the description alone, and the descriptions that come
through the whole of `estate_cc`: their machine is accepted by the check, and its loader compiles.
-/

namespace Estate.Cc

open Lib

namespace Descr

variable (prog : Program) (d : Descr)

/-- The transition of that name, if it leaves the state. -/
def exit (x n : Stringshare) : Option TransitDescr :=
  (named TransitDescr.name d.transits n).filter fun t => t.origin = x

def exiter (x : Stringshare) : Cb := ((named StateDescr.name d.states x).map StateDescr.exiter).getD {}

def enterer (x : Stringshare) : Cb :=
  ((named StateDescr.name d.states x).map StateDescr.enterer).getD {}

/-- The callbacks of a transition, the first two in the state it leaves. -/
def heardOf (t : TransitDescr) : List Heard :=
  (d.exiter t.origin).heard prog .exiter t.origin ++ (t.cb.heard prog .transition t.origin ++
    (d.enterer t.target).heard prog .enterer t.target)

/-- A description at work. -/
def automaton (errors : Bool) : Automaton Stringshare Stringshare Heard where
  next x n := (d.exit x n).map TransitDescr.target
  out x n :=
    match d.exit x n with
    | none => if errors then [.error n] else []
    | some t => d.heardOf prog t

/-- The states that the description names, at a place of their own or at an end of a transition. -/
def stateNames : List Stringshare :=
  d.states.map StateDescr.name ++ (d.transits.map TransitDescr.origin ++
    d.transits.map TransitDescr.target)

/-- A state that no transition enters. -/
def IsSource (x : Stringshare) : Prop := x ∈ d.stateNames ∧ x ∉ d.transits.map TransitDescr.target

/-- The machine starts in its only source, or in the given state where there is none. -/
def StartsIn (i : Stringshare) : Prop :=
  ((∀ x, d.IsSource x ↔ x = i) ∧ (d.init = none ∨ d.init = some i)) ∨
    (∀ x, ¬ d.IsSource x) ∧ d.init = some i

def callbacks : List Cb :=
  d.states.flatMap (fun s => [s.enterer, s.exiter]) ++ d.transits.map TransitDescr.cb

/-- Nothing in a description gets lost on its way to the machine: no two transitions join the same
states, the ends of each fit the buffer of the check, a data key fits the buffer of the generator,
and no variable of the loader hides a callback. -/
structure Sound : Prop where
  valid : d.Valid
  nonempty : d.transits ≠ []
  pairs : (d.transits.map fun t => (t.origin, t.target)).Nodup
  fits : ∀ t ∈ d.transits, t.origin.length + t.target.length + 1 ≤ 2047
  start : ∃ i, d.StartsIn i
  keys : ∀ c ∈ d.callbacks, c.Fits
  visible : ∀ c ∈ d.callbacks,
    c.Visible (blockVars ++ loaderVars d.stateNames (d.transits.map TransitDescr.name))
  small : d.states.length + 2 * d.transits.length < 2 ^ 32

/-- The functions that the description names are defined, and a literal of identifier characters
reads as it is spelled. -/
structure Linked : Prop where
  func : ∀ c ∈ d.callbacks, ∀ n, c.func = some n → (prog.func n).isSome = true
  literal : ∀ s, Spelled s → prog.literal s = some s

/-- Two transitions that leave one state lie in the same order in the generator and in the process
that runs the loader. -/
def SameOrder (gen run : Placement) : Prop :=
  ∀ t ∈ d.transits, ∀ u ∈ d.transits, t.origin = u.origin →
    (gen t.name < gen u.name ↔ run t.name < run u.name)

end Descr

end Estate.Cc
