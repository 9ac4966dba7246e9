import Mathlib.Data.Fintype.Card
import Mathlib.Data.Set.Finite.Basic
import Mathlib.Logic.Relation
import Mathlib.Order.WellFounded

/-!
# Automata that answer, and the graphs below them

An automaton takes letters one by one. It has a step for a letter or it refuses the letter and stays
where it is, and either way something is seen of it. A system whose every step shows what the
automaton does keeps with it over any run (`Mirrors.steps`).

A vertex of a graph that can be reached from no root has, as it is no root, a vertex before it that
cannot be reached either. Among finitely many vertices that goes back in a circle, so it is enough
that the roots reach the vertices on cycles (`reached_of_cycles`).
-/

namespace Estate.Lib

/-- Where a letter leads from a state, if anywhere, and what is seen of it. -/
structure Automaton (S L O : Type*) where
  next : S → L → Option S
  out : S → L → List O

/-- One step as it is seen from outside. -/
structure Seen (L O : Type*) where
  letter : L
  taken : Bool
  out : List O
  deriving DecidableEq

namespace Automaton

variable {S L O : Type*} (M : Automaton S L O)

/-- The state after a letter, taken or refused. -/
def after (s : S) (l : L) : S := (M.next s l).getD s

def see (s : S) (l : L) : Seen L O := ⟨l, (M.next s l).isSome, M.out s l⟩

/-- The state after a word. -/
def run (s : S) (ls : List L) : S := ls.foldl M.after s

/-- What is seen of a word. -/
def trace : S → List L → List (Seen L O)
  | _, [] => []
  | s, l :: ls => M.see s l :: trace (M.after s l) ls

@[simp] theorem run_nil (s : S) : M.run s [] = s := rfl

@[simp] theorem run_cons (s : S) (l : L) (ls : List L) :
    M.run s (l :: ls) = M.run (M.after s l) ls := rfl

theorem run_append (s : S) (ls ls' : List L) : M.run s (ls ++ ls') = M.run (M.run s ls) ls' :=
  List.foldl_append

theorem trace_append (s : S) (ls ls' : List L) :
    M.trace s (ls ++ ls') = M.trace s ls ++ M.trace (M.run s ls) ls' := by
  induction ls generalizing s with
  | nil => rfl
  | cons l ls ih => rw [List.cons_append, trace, trace, ih, List.cons_append, run_cons]

variable {M}

theorem after_some {s t : S} {l : L} (h : M.next s l = some t) : M.after s l = t := by
  rw [after, h, Option.getD_some]

theorem after_none {s : S} {l : L} (h : M.next s l = none) : M.after s l = s := by
  rw [after, h, Option.getD_none]

end Automaton

/-! ## Systems -/

section Systems

variable {S L O P : Type*}

/-- A run of a system, by what is seen of its steps. -/
inductive Steps (step : P → Seen L O → P → Prop) : P → List (Seen L O) → P → Prop
  | nil {p : P} : Steps step p [] p
  | cons {p q r : P} {e : Seen L O} {es : List (Seen L O)} :
      step p e q → Steps step q es r → Steps step p (e :: es) r

/-- For the letters of a set, each step of the system shows what the automaton does in the state
that the system stands for, and leads where the automaton goes. -/
def Mirrors (M : Automaton S L O) (A : Set L) (step : P → Seen L O → P → Prop)
    (R : P → S → Prop) : Prop :=
  ∀ ⦃p s e q⦄, e.letter ∈ A → R p s → step p e q → e = M.see s e.letter ∧ R q (M.after s e.letter)

variable {M : Automaton S L O} {A : Set L} {step : P → Seen L O → P → Prop} {R : P → S → Prop}

theorem Mirrors.steps (h : Mirrors M A step R) {p q : P} {s : S} {es : List (Seen L O)}
    (hA : ∀ e ∈ es, e.letter ∈ A) (hr : R p s) (hs : Steps step p es q) :
    es = M.trace s (es.map Seen.letter) ∧ R q (M.run s (es.map Seen.letter)) := by
  induction hs generalizing s with
  | nil => exact ⟨rfl, hr⟩
  | cons hstep _ ih =>
    obtain ⟨he, hr'⟩ := h (hA _ List.mem_cons_self) hr hstep
    obtain ⟨hes, hr''⟩ := ih (fun e he => hA e (List.mem_cons_of_mem _ he)) hr'
    refine ⟨?_, hr''⟩
    rw [List.map_cons, Automaton.trace, ← he, ← hes]

end Systems

/-! ## Reaching every vertex -/

section Reach

open Relation

variable {α : Type*} {r : α → α → Prop} {root : α → Prop} {S : Set α}

/-- A root leads to the vertex. -/
def FromRoot (r : α → α → Prop) (root : α → Prop) (x : α) : Prop := ∃ a, root a ∧ ReflTransGen r a x

theorem FromRoot.tail {x y : α} (h : FromRoot r root x) (hxy : r x y) : FromRoot r root y := by
  obtain ⟨a, ha, hax⟩ := h
  exact ⟨a, ha, hax.tail hxy⟩

/-- Finitely many vertices, none of them on a cycle, have one with no vertex before it. -/
theorem exists_first {U : Set α} (hfin : U.Finite) (hne : U.Nonempty)
    (hacyclic : ∀ x ∈ U, ¬ TransGen r x x) : ∃ x ∈ U, ∀ y ∈ U, ¬ r y x := by
  have : Finite U := hfin
  have htrans : IsTrans U fun x y => TransGen r x y := ⟨fun _ _ _ => TransGen.trans⟩
  have hirrefl : Std.Irrefl fun x y : U => TransGen r x y := ⟨fun x => hacyclic x x.2⟩
  have hwf : WellFounded fun x y : U => TransGen r x y := Finite.wellFounded_of_trans_of_irrefl _
  obtain ⟨x, -, hmin⟩ := hwf.has_min Set.univ ⟨⟨hne.some, hne.some_mem⟩, trivial⟩
  exact ⟨x, x.2, fun y hy h => hmin ⟨y, hy⟩ trivial (.single h)⟩

/-- Where every vertex but the roots has one before it, the roots reach all vertices when they reach
those on cycles. -/
theorem reached_of_cycles (hfin : S.Finite) (hback : ∀ x ∈ S, root x ∨ ∃ y ∈ S, r y x)
    (hcycle : ∀ x, TransGen r x x → FromRoot r root x) : ∀ x ∈ S, FromRoot r root x := by
  by_contra hno
  push Not at hno
  obtain ⟨z, hz, hzno⟩ := hno
  obtain ⟨x, ⟨hx, hxno⟩, hfirst⟩ := @exists_first _ r {x ∈ S | ¬ FromRoot r root x}
    (hfin.subset fun _ h => h.1) ⟨z, hz, hzno⟩ fun x hx hxx => hx.2 (hcycle x hxx)
  rcases hback x hx with hroot | ⟨y, hy, hyx⟩
  · exact hxno ⟨x, hroot, .refl⟩
  · exact hfirst y ⟨hy, fun h => hxno (h.tail hyx)⟩ hyx

end Reach

end Estate.Lib
