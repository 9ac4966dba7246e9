import Mathlib

/-!
# What the code uses of Eina and of the C library

Pointers are addresses, 0 being NULL. A stringshare stands for its contents: within one process
two stringshares are the same pointer exactly when they are the same string, and the pointer of a
string is given by a placement wherever the code looks at it.
-/

namespace Estate

/-- A pointer, 0 being NULL. -/
abbrev Addr := ℕ

/-- A `char const *` given by a caller. -/
abbrev CStr := ℕ

/-- `Eina_Stringshare`, by its contents. -/
abbrev Stringshare := List Char

/-- Where the stringshares of one process lie. -/
abbrev Placement := Stringshare → BitVec 64

/-- `(int)(a - b)` for two `char const *` of a 64-bit process. -/
def ptrDiffInt (a b : BitVec 64) : ℤ := ((a - b).setWidth 32).toInt

/-- What `%s` prints, a NULL pointer included. -/
def fmtStr : Option Stringshare → List Char
  | none => "(null)".toList
  | some s => s

/-- `snprintf`: what it leaves in a buffer of that size, before the final NUL, and what it
returns. -/
def snprintf (size : ℕ) (text : List Char) : List Char × ℕ :=
  (text.take (size - 1), text.length)

/-- `Eina_Hash`, keyed by stringshares. -/
abbrev EinaHash (α : Type) := AList fun _ : Stringshare => α

section Hash

variable {α : Type}

/-- `eina_hash_find`: a NULL key finds nothing. -/
def hashFind (h : EinaHash α) : Option Stringshare → Option α
  | none => none
  | some key => h.lookup key

/-- `eina_hash_add`, for a key that is not in the hash: a NULL key adds nothing. -/
def hashAdd (h : EinaHash α) (key : Option Stringshare) (data : α) : EinaHash α :=
  match key with
  | none => h
  | some key => h.insert key data

/-- Writes through a pointer to an entry of the hash. -/
def hashModify (h : EinaHash α) (key : Stringshare) (f : α → α) : EinaHash α :=
  match h.lookup key with
  | none => h
  | some data => h.replace key (f data)

/-- The order in which `eina_hash_foreach` meets the entries of a hash. -/
structure HashOrder where
  order : ∀ {α : Type}, List (Σ _ : Stringshare, α) → List (Σ _ : Stringshare, α)
  perm : ∀ {α : Type} (l : List (Σ _ : Stringshare, α)), (order l).Perm l

/-- The data of the entries, as `eina_hash_foreach` meets them. -/
def HashOrder.foreach (ord : HashOrder) (h : EinaHash α) : List α :=
  (ord.order h.entries).map Sigma.snd

/-- The traversal that meets the newest entry first. -/
def HashOrder.newestFirst : HashOrder := ⟨fun l => l, fun l => .refl l⟩

end Hash

end Estate
