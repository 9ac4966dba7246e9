import Mathlib.Data.List.Perm.Basic

/-!
# Depth-first agendas

Work that asks for more work: a task leaves events of its own and asks for new tasks, which are
all done, in the order asked, before the tasks that were already waiting. `Agenda Block as evs`
says that `evs` are the events of working through `as` that way, where `Block a own new` says
which events a task leaves and what it asks for. `replay` checks that order on the events alone.
-/

namespace Estate.Lib

variable {α ε : Type*}

inductive Agenda (Block : α → List ε → List α → Prop) : List α → List ε → Prop
  | nil : Agenda Block [] []
  | cons {a : α} {as new : List α} {own evs₁ evs₂ : List ε} : Block a own new →
    Agenda Block new evs₁ → Agenda Block as evs₂ → Agenda Block (a :: as) (own ++ evs₁ ++ evs₂)

namespace Agenda

variable {Block : α → List ε → List α → Prop}

/-- A reading of the events that every block brings back to where it was is brought back by the
whole agenda. -/
theorem foldlM_eq {σ : Type*} {f : σ → ε → Option σ} {s : σ}
    (hblock : ∀ a own new, Block a own new → own.foldlM f s = some s)
    {as : List α} {evs : List ε} (h : Agenda Block as evs) : evs.foldlM f s = some s := by
  induction h with
  | nil => rfl
  | cons hb _ _ ih₁ ih₂ => simp [List.foldlM_append, hblock _ _ _ hb, ih₁, ih₂]

end Agenda

section Replay

variable [DecidableEq α] (done asked : ε → Option α)

/-- Reads one event, with what is to be done and what has been asked for since the last task began: a
task that begins is the first one asked for, or else the first one that was waiting. -/
def replay (s : List α × List α) (e : ε) : Option (List α × List α) :=
  match done e with
  | some a =>
    match s.2 ++ s.1 with
    | [] => none
    | b :: todo => if a = b then some (todo, []) else none
  | none => some (s.1, s.2 ++ (asked e).toList)

variable {done asked}

theorem replay_done {s : List α × List α} {e : ε} {a b : α} {todo : List α} (ha : done e = some a)
    (hs : s.2 ++ s.1 = b :: todo) :
    replay done asked s e = if a = b then some (todo, []) else none := by
  simp only [replay, ha, hs]

/-- Without a task that begins, what is asked for is put down. -/
theorem replay_asked (todo : List α) : ∀ (evs : List ε) (new : List α),
    (∀ e ∈ evs, done e = none) → evs.foldlM (replay done asked) (todo, new) =
      some (todo, new ++ evs.filterMap asked)
  | [], new, _ => by simp
  | e :: evs, new, h => by
    have ih := replay_asked todo evs (new ++ (asked e).toList) fun e' he =>
      h e' (List.mem_cons_of_mem _ he)
    have hstep : replay done asked (todo, new) e = some (todo, new ++ (asked e).toList) := by
      simp only [replay, h e List.mem_cons_self]
    rw [List.foldlM_cons, hstep]
    refine ih.trans ?_
    rcases ha : asked e with _ | a <;> simp [ha]

/-- What is done are the tasks given and the tasks asked for, each as often. -/
theorem replay_perm (hboth : ∀ e, done e ≠ none → asked e = none) :
    ∀ {evs : List ε} {s : List α × List α}, evs.foldlM (replay done asked) s = some ([], []) →
      (evs.filterMap done).Perm (s.2 ++ s.1 ++ evs.filterMap asked)
  | [], s, h => by
    obtain rfl := Option.some.inj h
    simp
  | e :: evs, s, h => by
    rw [List.foldlM_cons] at h
    obtain ⟨s', hstep, h⟩ := Option.bind_eq_some_iff.1 h
    have ih := replay_perm hboth h
    unfold replay at hstep
    rcases hd : done e with _ | a <;> simp only [hd] at hstep
    · obtain rfl := Option.some.inj hstep
      rw [List.filterMap_cons_none hd]
      refine ih.trans ?_
      have hsplit : (e :: evs).filterMap asked = (asked e).toList ++ evs.filterMap asked := by
        rcases ha : asked e with _ | a <;> simp [ha]
      rw [hsplit, List.append_assoc, List.append_assoc, List.append_assoc]
      refine List.Perm.append_left _ ?_
      rw [← List.append_assoc, ← List.append_assoc]
      exact List.perm_append_comm.append_right _
    · split at hstep
      · cases hstep
      · rename_i b todo hs
        split_ifs at hstep with hab
        obtain rfl := Option.some.inj hstep
        have hasked : asked e = none := hboth e (by simp [hd])
        rw [List.filterMap_cons_some hd, List.filterMap_cons_none hasked, hs, hab, List.cons_append]
        exact ih.cons b

end Replay

end Estate.Lib
