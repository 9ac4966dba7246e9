import Mathlib.Control.Monad.Basic
import Mathlib.Data.List.Basic
import Mathlib.Data.List.Forall2

/-!
# Readers

A reader takes a value from the front of a text and leaves the rest, or fails. `ReadsAs ok r t a`
says that `r` makes `a` of the text `t`, whatever comes behind it that `ok` allows; a text that is
printed piece by piece reads back piece by piece.
-/

namespace Estate.Lib

/-- Takes a value from the front of a text. -/
abbrev Reader (σ α : Type) := StateT (List σ) Option α

namespace Reader

variable {σ α β : Type}

/-- The text that must come next. -/
def lit [DecidableEq σ] (t : List σ) : Reader σ Unit := fun cs =>
  if t <+: cs then some ((), cs.drop t.length) else none

/-- What comes before the first symbol that `p` refuses. -/
def span (p : σ → Bool) : Reader σ (List σ) := fun cs => some (cs.takeWhile p, cs.dropWhile p)

/-- The first reader, or the second where the first fails. -/
def either (r s : Reader σ α) : Reader σ α := fun cs => (r.run cs).orElse fun _ => s.run cs

/-- As many values as can be read, of a number that is bounded. -/
def manyUpTo (r : Reader σ α) : ℕ → Reader σ (List α)
  | 0 => pure []
  | n + 1 => either (do let a ← r; let as ← manyUpTo r n; pure (a :: as)) (pure [])

/-- As many values as can be read. None of them may be read from nothing. -/
def many (r : Reader σ α) : Reader σ (List α) := fun cs => (manyUpTo r cs.length).run cs

/-- ReadsAs the whole of a text. -/
def whole (r : Reader σ α) (cs : List σ) : Option α :=
  (r.run cs).bind fun x => if x.2.isEmpty then some x.1 else none

/-- Behind `t` and before any text that `ok` allows, the reader has made `a` of `t`. -/
def ReadsAs (ok : List σ → Prop) (r : Reader σ α) (t : List σ) (a : α) : Prop :=
  ∀ rest, ok rest → r.run (t ++ rest) = some (a, rest)

/-- The text does not begin with a symbol that `p` takes. -/
def Stops (p : σ → Bool) (cs : List σ) : Prop := ∀ c ∈ cs.head?, p c = false

@[simp] theorem stops_cons {p : σ → Bool} {c : σ} {cs : List σ} :
    Stops p (c :: cs) ↔ p c = false := by
  simp [Stops]

theorem stops_append {p : σ → Bool} {t rest : List σ} (h : t.head?.map p = some false) :
    Stops p (t ++ rest) := by
  cases t with
  | nil => simp at h
  | cons c cs => exact stops_cons.2 (Option.some.inj h)

/-- What has been read is behind, and the reader goes on. -/
theorem run_bind_of {r : Reader σ α} {k : α → Reader σ β} {cs rest : List σ} {a : α}
    (h : r.run cs = some (a, rest)) : (r >>= k).run cs = (k a).run rest := by
  rw [StateT.run_bind, h]
  rfl

theorem run_bind_none {r : Reader σ α} {k : α → Reader σ β} {cs : List σ} (h : r.run cs = none) :
    (r >>= k).run cs = none := by
  rw [StateT.run_bind, h]
  rfl

/-- A text that differs from another within it is not at the front of any that begins with it. -/
theorem not_prefix_append {t u rest : List σ} (h : ¬ t <+: u ∧ ¬ u <+: t) : ¬ t <+: u ++ rest :=
  fun ht => (List.prefix_or_prefix_of_prefix ht (List.prefix_append u rest)).elim h.1 h.2

section Lit

variable [DecidableEq σ] {t u rest : List σ}

theorem run_lit : (lit t).run (t ++ rest) = some ((), rest) := by
  simp [lit, StateT.run]

theorem run_lit_none (h : ¬ t <+: u) : (lit t).run u = none := by
  simp [lit, StateT.run, h]

theorem run_lit_bind {k : Unit → Reader σ α} : (lit t >>= k).run (t ++ rest) = (k ()).run rest :=
  run_bind_of run_lit

theorem run_lit_bind_none {k : Unit → Reader σ α} (h : ¬ t <+: u) :
    (lit t >>= k).run u = none :=
  run_bind_none (run_lit_none h)

theorem run_lit_lit_none {k : Unit → Reader σ α} (h : ¬ t ++ u <+: rest) :
    (lit t >>= fun _ => lit u >>= k).run rest = none := by
  by_cases ht : t <+: rest
  · obtain ⟨cs, rfl⟩ := ht
    have hu : ¬ u <+: cs := by rwa [List.prefix_append_right_inj] at h
    rw [run_lit_bind]
    exact run_lit_bind_none hu
  · exact run_lit_bind_none ht

end Lit

theorem run_span {p : σ → Bool} {w rest : List σ} (hw : ∀ c ∈ w, p c = true)
    (hrest : Stops p rest) : (span p).run (w ++ rest) = some (w, rest) := by
  have hnone : rest.takeWhile p = [] ∧ rest.dropWhile p = rest := by
    cases rest with
    | nil => exact ⟨rfl, rfl⟩
    | cons c cs =>
      have hc : p c = false := stops_cons.1 hrest
      simp [hc]
  simp only [span, StateT.run, List.takeWhile_append_of_pos hw, List.dropWhile_append_of_pos hw,
    hnone.1, hnone.2, List.append_nil]

section Either

variable {r s : Reader σ α} {cs : List σ} {x : α × List σ}

theorem run_either_left (h : r.run cs = some x) : (either r s).run cs = some x := by
  simp [either, StateT.run, show r cs = some x from h]

theorem run_either_right (h : r.run cs = none) : (either r s).run cs = s.run cs := by
  simp [either, StateT.run, show r cs = none from h]

end Either

section Many

variable {ok : List σ → Prop} {r : Reader σ α}

/-- A text of its own for a value: it is read as that value, and may come behind another one. -/
structure ReadItem (ok : List σ → Prop) (r : Reader σ α) (a : α) (t : List σ) : Prop where
  reads : ReadsAs ok r t a
  ne_nil : t ≠ []
  follows : ∀ cs, ok (t ++ cs)

theorem run_manyUpTo {n : ℕ} {rest : List σ} (hrest : ok rest) (hstop : r.run rest = none) :
    ∀ {as : List α} {ts : List (List σ)}, as.length ≤ n → List.Forall₂ (ReadItem ok r) as ts →
      (manyUpTo r n).run (ts.flatten ++ rest) = some (as, rest) := by
  induction n with
  | zero =>
    intro as ts hn h
    obtain rfl := List.length_eq_zero_iff.1 (Nat.le_zero.1 hn)
    obtain rfl := List.forall₂_nil_left_iff.1 h
    rfl
  | succ n ih =>
    intro as ts hn h
    cases h with
    | nil => exact run_either_right (run_bind_none hstop)
    | @cons a t as ts ht hts =>
      have hnext : ok (ts.flatten ++ rest) := by
        cases hts with
        | nil => exact hrest
        | cons ht' _ =>
          rw [List.flatten_cons, List.append_assoc]
          exact ht'.follows _
      refine run_either_left ?_
      rw [List.flatten_cons, List.append_assoc, run_bind_of (ht.reads _ hnext),
        run_bind_of (ih (Nat.le_of_succ_le_succ hn) hts)]
      rfl

theorem length_le_of_items {as : List α} {ts : List (List σ)} (h : List.Forall₂ (ReadItem ok r) as ts) :
    as.length ≤ ts.flatten.length := by
  induction h with
  | nil => exact Nat.le_refl 0
  | @cons a t as ts ht _ ih =>
    have hpos : 0 < t.length := List.length_pos_iff.2 ht.ne_nil
    rw [List.flatten_cons, List.length_append, List.length_cons]
    omega

/-- Values printed one behind the other are read one by one, up to what is no such value. -/
theorem run_many {as : List α} {ts : List (List σ)} {rest : List σ}
    (h : List.Forall₂ (ReadItem ok r) as ts) (hrest : ok rest) (hstop : r.run rest = none) :
    (many r).run (ts.flatten ++ rest) = some (as, rest) := by
  have hbound : as.length ≤ (ts.flatten ++ rest).length := by
    have hlen := length_le_of_items h
    rw [List.length_append]
    omega
  exact run_manyUpTo hrest hstop hbound h

theorem run_many_map {f : α → List σ} {as : List α} {rest : List σ}
    (h : ∀ a ∈ as, ReadItem ok r a (f a)) (hrest : ok rest) (hstop : r.run rest = none) :
    (many r).run (as.flatMap f ++ rest) = some (as, rest) := by
  rw [List.flatMap_def]
  exact run_many (List.forall₂_map_right_iff.2 (List.forall₂_same.2 h)) hrest hstop

end Many

theorem whole_of_readsAs {ok : List σ → Prop} {r : Reader σ α} {t : List σ} {a : α}
    (h : ReadsAs ok r t a) (hok : ok []) : whole r t = some a := by
  have hrun := h [] hok
  rw [List.append_nil] at hrun
  simp [whole, hrun]

end Reader

end Estate.Lib
