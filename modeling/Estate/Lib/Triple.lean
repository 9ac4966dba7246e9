import Mathlib.Data.List.Basic
import Mathlib.Data.List.Forall2

/-!
# Triples for steps that may fail

`Triple step P l Q`: from every state with `P`, the steps of `l` succeed and end in a state
with `Q`.
-/

namespace Estate.Lib

variable {σ α β : Type*} {step : σ → α → Option σ} {P Q R : σ → Prop} {l l' : List α}

def Triple (step : σ → α → Option σ) (P : σ → Prop) (l : List α) (Q : σ → Prop) : Prop :=
  ∀ s, P s → ∃ s', l.foldlM step s = some s' ∧ Q s'

namespace Triple

theorem nil : Triple step P [] P := fun s hp => ⟨s, rfl, hp⟩

theorem append (h : Triple step P l Q) (h' : Triple step Q l' R) : Triple step P (l ++ l') R := by
  intro s hp
  obtain ⟨s₁, hs₁, hq⟩ := h s hp
  obtain ⟨s₂, hs₂, hr⟩ := h' s₁ hq
  refine ⟨s₂, ?_, hr⟩
  rw [List.foldlM_append, hs₁]
  exact hs₂

theorem one {a : α} (h : ∀ s, P s → ∃ s', step s a = some s' ∧ Q s') : Triple step P [a] Q := by
  intro s hp
  obtain ⟨s', hs', hq⟩ := h s hp
  exact ⟨s', by simp [hs'], hq⟩

theorem cons {a : α} (h : Triple step P [a] Q) (h' : Triple step Q l R) :
    Triple step P (a :: l) R :=
  h.append h'

theorem weaken {P' Q' : σ → Prop} (h : Triple step P l Q) (hp : ∀ s, P' s → P s)
    (hq : ∀ s, Q s → Q' s) : Triple step P' l Q' := by
  intro s hs
  obtain ⟨s', hs', hs''⟩ := h s (hp s hs)
  exact ⟨s', hs', hq s' hs''⟩

/-- A state chosen by the precondition. -/
theorem exists_pre {ι : Type*} {P : ι → σ → Prop} (h : ∀ i, Triple step (P i) l Q) :
    Triple step (fun s => ∃ i, P i s) l Q := by
  rintro s ⟨i, hp⟩
  exact h i s hp

/-- One stretch of steps for each item of a list, with an invariant over the items done. -/
theorem flatten {I : List β → σ → Prop} {r : β → List α → Prop} {bs : List β}
    (h : ∀ done b l, done ++ [b] <+: bs → r b l → Triple step (I done) l (I (done ++ [b]))) :
    ∀ {done rest : List β} {ls : List (List α)}, done ++ rest = bs → List.Forall₂ r rest ls →
      Triple step (I done) ls.flatten (I bs)
  | done, [], ls, hbs, hr => by
    rw [List.forall₂_nil_left_iff.1 hr, ← hbs, List.append_nil]
    exact nil
  | done, b :: rest, ls, hbs, hr => by
    obtain ⟨l, ls', hb, hr', rfl⟩ := List.forall₂_cons_left_iff.1 hr
    have hbs' : (done ++ [b]) ++ rest = bs := by
      rw [← hbs, List.append_assoc]
      rfl
    rw [List.flatten_cons]
    exact (h done b l ⟨rest, hbs'⟩ hb).append (flatten h hbs' hr')

end Triple

end Estate.Lib
