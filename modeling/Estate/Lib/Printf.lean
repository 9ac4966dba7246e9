import Mathlib.Data.List.Basic

/-!
# The arguments that a format takes

The formats of `printf`, as ISO C has them. Behind its `%` a conversion specification has flags, a
width, a precision and a length modifier, each of which may be missing, and the conversion. A `*`
for the width or the precision takes an argument, and so does every conversion but that of `%%`: a
format takes none exactly when its per cent signs stand in pairs (`arguments_eq_zero_iff`).
-/

namespace Estate.Lib.Printf

/-! ## Specifications -/

def flags : List Char := ['-', '+', ' ', '#', '0']

/-- The conversions of integers, and of the address of one. -/
def integers : List Char := ['d', 'i', 'o', 'u', 'x', 'X', 'n']

def floats : List Char := ['a', 'A', 'e', 'E', 'f', 'F', 'g', 'G']

/-- A width or a precision: the arguments it takes, and what follows. -/
def field : List Char → ℕ × List Char
  | '*' :: cs => (1, cs)
  | cs => (0, cs.dropWhile Char.isDigit)

def precision : List Char → ℕ × List Char
  | '.' :: cs => field cs
  | cs => (0, cs)

/-- The conversions that may follow a length modifier, and what follows it. -/
def length : List Char → List Char × List Char
  | 'h' :: 'h' :: cs => (integers, cs)
  | 'h' :: cs => (integers, cs)
  | 'l' :: 'l' :: cs => (integers, cs)
  | 'l' :: cs => (['c', 's'] ++ integers ++ floats, cs)
  | 'j' :: cs => (integers, cs)
  | 'z' :: cs => (integers, cs)
  | 't' :: cs => (integers, cs)
  | 'L' :: cs => (floats, cs)
  | cs => (['c', 's', 'p'] ++ integers ++ floats, cs)

/-- The specification behind a `%`: the arguments it takes, and what follows. There is none when
the standard leaves it undefined. -/
def specification : List Char → Option (ℕ × List Char)
  | '%' :: cs => some (0, cs)
  | cs =>
    let (width, cs) := field (cs.dropWhile (· ∈ flags))
    let (digits, cs) := precision cs
    match length cs with
    | (conversions, c :: cs) => if c ∈ conversions then some (width + digits + 1, cs) else none
    | (_, []) => none

/-- The arguments of a format, with at most `fuel` characters looked at. -/
def argumentsIn : ℕ → List Char → Option ℕ
  | _, [] => some 0
  | 0, _ => none
  | fuel + 1, '%' :: cs =>
    match specification cs with
    | none => none
    | some (n, cs) => (argumentsIn fuel cs).map (n + ·)
  | fuel + 1, _ :: cs => argumentsIn fuel cs

/-- How many arguments a format takes. -/
def arguments (format : List Char) : Option ℕ := argumentsIn format.length format

example : arguments "%-8s at %*.3Lf: 5%%".toList = some 3 := by decide

/-! ## Formats that take none -/

/-- Every `%` stands before or behind another one of its own. -/
def paired : List Char → Bool
  | '%' :: '%' :: cs => paired cs
  | '%' :: _ => false
  | _ :: cs => paired cs
  | [] => true

variable {c : Char} {cs ds : List Char}

theorem paired_cons (h : c ≠ '%') : paired (c :: cs) = paired cs := by
  rw [paired]
  · simp [h]
  · simp [h]

theorem paired_percent (h : cs.head? ≠ some '%') : paired ('%' :: cs) = false := by
  rcases cs with _ | ⟨d, cs⟩
  · rfl
  · rw [paired]
    simpa using h

theorem paired_of_not_mem : ∀ {cs : List Char}, '%' ∉ cs → paired cs = true
  | [], _ => rfl
  | c :: cs, h => by
    rw [paired_cons fun hc => h (hc ▸ List.mem_cons_self)]
    exact paired_of_not_mem fun hc => h (List.mem_cons_of_mem _ hc)

/-- A pair does not reach over a boundary behind which another character stands. -/
theorem paired_append (h : ds.head? ≠ some '%') (cs : List Char) :
    paired (cs ++ ds) = (paired cs && paired ds) := by
  fun_induction paired cs
  case case1 cs ih => exact ih
  case case2 cs hno =>
    have hhead : (cs ++ ds).head? ≠ some '%' := by
      rcases cs with _ | ⟨d, es⟩
      · exact h
      · simpa using fun hd => hno es (by rw [hd])
    rw [List.cons_append, paired_percent hhead, Bool.false_and]
  case case3 c cs _ hc ih => rw [List.cons_append, paired_cons hc, ih]
  case case4 => rw [List.nil_append, Bool.true_and]

/-- Every specification but that of two per cent signs takes an argument. -/
theorem specification_pos {n : ℕ} (h : cs.head? ≠ some '%')
    (hs : specification cs = some (n, ds)) : n ≠ 0 := by
  unfold specification at hs
  split at hs
  · simp at h
  · simp only at hs
    split at hs
    · split_ifs at hs
      rw [← (Prod.mk.inj (Option.some.inj hs)).1]
      exact Nat.succ_ne_zero _
    · simp at hs

theorem argumentsIn_eq_zero_iff : ∀ {fuel : ℕ} {cs : List Char}, cs.length ≤ fuel →
    (argumentsIn fuel cs = some 0 ↔ paired cs = true)
  | _, [], _ => by simp [argumentsIn, paired]
  | fuel + 1, c :: cs, hfuel => by
    have hlen : cs.length ≤ fuel := by simpa using hfuel
    by_cases hc : c = '%'
    · subst hc
      by_cases hhead : cs.head? = some '%'
      · obtain ⟨es, rfl⟩ : ∃ es, cs = '%' :: es := by
          rcases cs with _ | ⟨d, es⟩
          · simp at hhead
          · exact ⟨es, by rw [Option.some.inj hhead]⟩
        have ih := @argumentsIn_eq_zero_iff fuel es (by simp at hlen; omega)
        simpa [argumentsIn, specification, paired] using ih
      · rw [paired_percent hhead, argumentsIn]
        rcases hs : specification cs with _ | ⟨n, ds⟩
        · simp
        · have hn := specification_pos hhead hs
          simp only [Option.map_eq_some_iff, Bool.false_eq_true, iff_false]
          rintro ⟨m, -, hm⟩
          omega
    · rw [paired_cons hc, ← argumentsIn_eq_zero_iff hlen, argumentsIn]
      simpa using hc

/-- The formats that take no argument. -/
theorem arguments_eq_zero_iff {format : List Char} :
    arguments format = some 0 ↔ paired format = true :=
  argumentsIn_eq_zero_iff (Nat.le_refl _)

end Estate.Lib.Printf
