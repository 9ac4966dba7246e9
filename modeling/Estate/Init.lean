import Mathlib

/-!
# Starting and stopping the library

`estate_main.c`: the library counts the calls that start it, and has Eina and a log domain while the
count is positive. Any number of users share it, each of which starts it before it stops it.
-/

namespace Estate

/-- The variables of `estate_main.c`, and what the library has of Eina. -/
structure Library where
  initCount : ℤ := 0
  logDom : ℤ := -1
  /-- The calls to `eina_init` that succeeded, less those to `eina_shutdown`. -/
  einaInits : ℤ := 0
  /-- The log domains that are registered. -/
  domains : List ℤ := []
  deriving DecidableEq

/-- What Eina answers: whether it starts, and what `eina_log_domain_register` returns. -/
structure EinaAnswer where
  init : Bool
  domain : ℤ

/-- An `int` has the value; no program may compute one that it has not. -/
def FitsInt (n : ℤ) : Prop := -2 ^ 31 ≤ n ∧ n < 2 ^ 31

instance (n : ℤ) : Decidable (FitsInt n) := inferInstanceAs (Decidable (_ ∧ _))

/-- `estate_init`. -/
def estateInit (eina : EinaAnswer) (l : Library) : Option (Library × ℤ) :=
  let l := { l with initCount := l.initCount + 1 }
  if ¬ FitsInt l.initCount then none
  else if l.initCount = 1 then
    if !eina.init then
      let l := { l with initCount := l.initCount - 1 }
      some (l, l.initCount)
    else
      let l := { l with einaInits := l.einaInits + 1, logDom := eina.domain }
      if l.logDom < 0 then
        let l := { l with einaInits := l.einaInits - 1, initCount := l.initCount - 1 }
        some (l, l.initCount)
      else some ({ l with domains := l.logDom :: l.domains }, l.initCount)
  else some (l, l.initCount)

/-- `estate_shutdown`. -/
def estateShutdown (l : Library) : Option (Library × ℤ) :=
  let l := { l with initCount := l.initCount - 1 }
  if ¬ FitsInt l.initCount then none
  else if l.initCount = 0 then
    some ({ l with domains := l.domains.erase l.logDom, einaInits := l.einaInits - 1 }, l.initCount)
  else some (l, l.initCount)

/-! ## Users -/

/-- The library with the users that have started it, once for each time. -/
structure Shared (U : Type) where
  lib : Library := {}
  holders : List U := []
  deriving DecidableEq

inductive LibCall (U : Type)
  | init (user : U) (eina : EinaAnswer)
  | shutdown (user : U)

variable {U : Type} [DecidableEq U]

/-- One call. A user takes a positive count for success, and stops only what it has started. -/
def Shared.step (s : Shared U) : LibCall U → Option (Shared U)
  | .init user eina => do
    let (lib, count) ← estateInit eina s.lib
    some (if 0 < count then ⟨lib, user :: s.holders⟩ else ⟨lib, s.holders⟩)
  | .shutdown user =>
    if user ∈ s.holders then do
      let (lib, _) ← estateShutdown s.lib
      some ⟨lib, s.holders.erase user⟩
    else none

/-- The state after a run of calls by any users in any order. -/
def Shared.run (s : Shared U) (calls : List (LibCall U)) : Option (Shared U) :=
  calls.foldlM Shared.step s

/-- Any users stop the library, whether they have started it or not. -/
def shutdowns : ℕ → Library → Option Library
  | 0, l => some l
  | k + 1, l => do
    let (l, _) ← estateShutdown l
    shutdowns k l

/-- The library can be used: Eina has been started for it once, and its log domain is registered. -/
structure Library.Up (l : Library) : Prop where
  eina : l.einaInits = 1
  domains : l.domains = [l.logDom]
  logDom : 0 ≤ l.logDom

/-- The library has nothing of Eina. -/
structure Library.Down (l : Library) : Prop where
  eina : l.einaInits = 0
  domains : l.domains = []

end Estate
