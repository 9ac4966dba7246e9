import Estate.Lib.Automaton
import Estate.Proofs.Bare
import Estate.Proofs.Verdict

/-!
# What the check says about dead states

The language reference lets a file describe only states that a transition names, and the check
refuses several initial states because others would be out of reach.

The check counts the states that no transition enters. That there is one such state at most, or a
given one, does not lead to all states: a cycle that nothing enters has no such state
(`noDeadState_iff`), and a described state that no transition names is one.
-/

namespace Estate.Cc

open Lib Relation

/-- A transition of the machine leads from the one state to the other. -/
def Fsm.Leads (f : Fsm) (x y : Stringshare) : Prop :=
  ∃ t ∈ f.transits, t.fromState = some x ∧ t.toState = some y

/-- Every state of the machine is an end of a transition, and the transitions lead to it from the
initial state. -/
def Fsm.NoDeadState (f : Fsm) : Prop :=
  ∀ x ∈ f.states, Touched f.transits x ∧
    ∃ i, f.init = some i ∧ ReflTransGen f.Leads i x

/-- A state that no transition enters, or the one that the file gives. -/
def Fsm.Root (f : Fsm) (x : Stringshare) : Prop := f.IsSource x ∨ f.init = some x

/-- A state that transitions lead from and back to. -/
def Fsm.OnCycle (f : Fsm) (x : Stringshare) : Prop := TransGen f.Leads x x

/-- A transition that enters a state leaves one, as the parser reads the origin first. -/
def Fsm.Backed (f : Fsm) : Prop := ∀ t ∈ f.transits, t.toState ≠ none → t.fromState ≠ none

section Reach

variable {ord : HashOrder} {beyond : ℕ → Char} {f : Fsm} {x y : Stringshare}

theorem Fsm.Leads.isState (h : f.Leads x y) : f.IsState x ∧ f.IsState y := by
  obtain ⟨t, ht, hx, hy⟩ := h
  exact ⟨.inr ⟨t, ht, .inl hx⟩, .inr ⟨t, ht, .inr hy⟩⟩

theorem Fsm.OnCycle.touched (h : f.OnCycle x) : Touched f.transits x := by
  obtain ⟨y, ⟨t, ht, hx, -⟩, -⟩ := TransGen.head'_iff.1 h
  exact ⟨t, ht, .inl hx⟩

/-- A state is a root or has one before it. -/
theorem Fsm.Backed.back (hb : f.Backed) (hx : f.IsState x) :
    f.Root x ∨ ∃ y, f.IsState y ∧ f.Leads y x := by
  by_cases hsource : ∀ t ∈ f.transits, t.toState ≠ some x
  · exact .inl (.inl ⟨hx, hsource⟩)
  · push Not at hsource
    obtain ⟨t, ht, hto⟩ := hsource
    obtain ⟨y, hy⟩ := Option.ne_none_iff_exists'.1 (hb t ht (by simp [hto]))
    have hlead : f.Leads y x := ⟨t, ht, hy, hto⟩
    exact .inr ⟨y, hlead.isState.1, hlead⟩

theorem finite_isState (f : Fsm) : {x | f.IsState x}.Finite := by
  refine (deducedStates .newestFirst f).keys.finite_toSet.subset fun x hx => ?_
  exact AList.mem_keys.1 ((mem_deducedStates .newestFirst).2 hx)

/-- The initial state that the check leaves is the root. -/
theorem root_iff (hp : f.Parsed) (hi : f.InitDetermined) :
    f.Root x ↔ (checkedFsm ord f).init = some x := by
  obtain ⟨hone, hnone⟩ := @checkedFsm_init ord f hp
  rcases hi with ⟨s, hs, hgiven⟩ | ⟨hs, -⟩
  · rw [hone s hs, Option.some.injEq]
    constructor
    · rintro (hx | hx)
      · exact ((hs x).1 hx).symm
      · exact (hgiven x hx).symm
    · rintro rfl
      exact .inl ((hs s).2 rfl)
  · rw [hnone hs]
    exact or_iff_right (hs x)

theorem checkedFsm_noDeadState_iff (hp : f.Parsed) (hb : f.Backed) (hi : f.InitDetermined) :
    (checkedFsm ord f).NoDeadState ↔ (∀ x ∈ f.states, Touched f.transits x) ∧
      ∀ x, f.OnCycle x → ∃ a, f.Root a ∧ ReflTransGen f.Leads a x := by
  have hstates : ∀ x, x ∈ (checkedFsm ord f).states ↔ f.IsState x := fun x => mem_deducedStates ord
  have hdead : (checkedFsm ord f).NoDeadState ↔ ∀ x, f.IsState x →
      Touched f.transits x ∧ FromRoot f.Leads f.Root x := by
    simp only [Fsm.NoDeadState, hstates, FromRoot, @root_iff ord f _ hp hi]
    rfl
  rw [hdead]
  constructor
  · intro h
    exact ⟨fun x hx => (h x (.inl hx)).1, fun x hx => (h x (.inr hx.touched)).2⟩
  · rintro ⟨hdescribed, hcycle⟩ x hx
    refine ⟨hx.elim (hdescribed x) id, ?_⟩
    exact reached_of_cycles (finite_isState f) (fun y hy => hb.back hy) hcycle x hx

/-- A machine that the check lets through has no dead state exactly when a transition names every
state that is described and every cycle can be reached from a state that no transition enters or
from the given one. -/
theorem noDeadState_iff {fsms : List Fsm} (hp : ∀ f ∈ fsms, f.Parsed) (hb : ∀ f ∈ fsms, f.Backed)
    (hok : (checkStates ord beyond fsms).1 = true) :
    ∀ e ∈ fsms.zip (checkStates ord beyond fsms).2, e.2.NoDeadState ↔
      (∀ x ∈ e.1.states, Touched e.1.transits x) ∧
        ∀ x, e.1.OnCycle x → ∃ a, e.1.Root a ∧ ReflTransGen e.1.Leads a x := by
  intro e he
  have hmem : ∃ f ∈ fsms, e = (f, checkedFsm ord f) := by
    rw [checkStates_eq hp hok] at he
    have hzip : fsms.zip (fsms.map (checkedFsm ord)) = fsms.map fun f => (f, checkedFsm ord f) := by
      simpa using @List.zip_map' _ _ _ id (checkedFsm ord) fsms
    rw [hzip] at he
    obtain ⟨f, hf, rfl⟩ := List.mem_map.1 he
    exact ⟨f, hf, rfl⟩
  obtain ⟨f, hf, rfl⟩ := hmem
  exact checkedFsm_noDeadState_iff (hp f hf) (hb f hf) (((checkStates_iff hp).1 hok).1 f hf).init

/-- From one state of the cycle the transitions lead to both. -/
theorem cycle_noDeadState : ∃ g, (checkStates .newestFirst (fun _ => ' ') [cycle]).2 = [g] ∧
    g.NoDeadState := by
  have hok : (checkStates .newestFirst (fun _ => ' ') [cycle]).1 = true := by decide
  have hab : cycle.Leads ['a'] ['b'] := by
    unfold Fsm.Leads
    decide
  have hroot : cycle.Root ['a'] := .inr rfl
  have hg := @checkStates_eq .newestFirst (fun _ => ' ') [cycle] (by simpa using cycle_parsed) hok
  refine ⟨checkedFsm .newestFirst cycle, by rw [hg]; rfl, ?_⟩
  refine (@noDeadState_iff .newestFirst (fun _ => ' ') [cycle] (by simpa using cycle_parsed) ?_ hok
    (cycle, checkedFsm .newestFirst cycle) ?_).2 ⟨?_, ?_⟩
  · simp only [List.mem_singleton, forall_eq]
    intro t ht _
    rcases cycle_joins t ht with h | h <;> simp [h.fromState]
  · rw [hg]
    simp
  · unfold Touched
    decide
  · intro x hx
    obtain ⟨y, -, t, ht, -, hto⟩ := TransGen.tail'_iff.1 hx
    rcases cycle_joins t ht with h | h <;> obtain rfl := Option.some.inj (h.toState.symm.trans hto)
    · exact ⟨_, hroot, .single hab⟩
    · exact ⟨_, hroot, .refl⟩

/-- A cycle, and a state with a description and no transition. -/
def islandFile : List Char :=
  "m \x7b transitions.model \x7b t: a > b; u: b > a; \x7d states \x7b c \x7b \x7d \x7d \x7d".toList

/-- The state without a transition is taken for the initial one, and the cycle is out of reach. -/
theorem island_dead : (checkStates .newestFirst (fun _ => ' ') (parserParse islandFile)).1 = true ∧
    ∃ g ∈ (checkStates .newestFirst (fun _ => ' ') (parserParse islandFile)).2,
      g.init = some ['c'] ∧ ¬ Touched g.transits ['c'] ∧ ['a'] ∈ g.states ∧
        ¬ ReflTransGen g.Leads ['c'] ['a'] ∧ ¬ g.NoDeadState := by
  have hread : (checkStates .newestFirst (fun _ => ' ') (parserParse islandFile)).1 = true ∧
      ∃ g ∈ (checkStates .newestFirst (fun _ => ' ') (parserParse islandFile)).2,
        g.init = some ['c'] ∧ ['a'] ∈ g.states ∧
          ∀ t ∈ g.transits, t.fromState ≠ some ['c'] ∧ t.toState ≠ some ['c'] := by
    decide +kernel
  obtain ⟨hok, g, hg, hinit, ha, hc⟩ := hread
  have hstuck : ¬ ReflTransGen g.Leads ['c'] ['a'] := by
    intro h
    rcases h.cases_head with h | ⟨y, ⟨t, ht, hfrom, -⟩, -⟩
    · simp at h
    · exact (hc t ht).1 hfrom
  refine ⟨hok, g, hg, hinit, ?_, ha, hstuck, fun h => ?_⟩
  · rintro ⟨t, ht, hfrom | hto⟩
    · exact (hc t ht).1 hfrom
    · exact (hc t ht).2 hto
  · obtain ⟨-, i, hi, hreach⟩ := h ['a'] ha
    obtain rfl := Option.some.inj (hinit.symm.trans hi)
    exact hstuck hreach

end Reach

/-- The machines of the parser have no transition with a target and no origin. -/
theorem parserParse_backed (src : List Char) : ∀ f ∈ parserParse src, f.Backed :=
  parserParse_transits ⟨by simp [transitNew], fun _ _ h => h, fun _ _ _ _ => by simp,
    fun _ _ hfrom _ _ => hfrom⟩ src

end Estate.Cc
