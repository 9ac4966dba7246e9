import Estate.Proofs.Check
import Estate.Proofs.Spelling

/-!
# The verdict on one machine

The check knows a transition by the text `from:to`. As the names of states hold no `:`, different
transitions have different texts, so a machine alone passes exactly when no two transitions lead
from and to the same states and its initial state is determined, whatever the order in which its
hashes are traversed (`checkStates_decides`).
-/

namespace Estate.Cc

/-- Both states are named, and the key of the transition fits the buffer of the check. -/
structure Transit.Joins (t : Transit) (x y : Stringshare) : Prop where
  fromState : t.fromState = some x
  toState : t.toState = some y
  from_ne : x ≠ []
  to_ne : y ≠ []
  fits : x.length + y.length + 1 ≤ 2047

def Fsm.Legible (f : Fsm) : Prop := ∀ t ∈ f.transits, ∃ x y, t.Joins x y

/-- No state that a transition leaves has a `:` in its name. -/
def Fsm.ColonFree (f : Fsm) : Prop := ∀ t ∈ f.transits, ∀ x, t.fromState = some x → ':' ∉ x

/-- The machines of the parser have no such name. -/
theorem Fsm.Spelled.colonFree {f : Fsm} (h : f.Spelled) : f.ColonFree := by
  have hall := mem_transits_of_lookup h.transits
  intro t ht x hx
  exact ((hall t ht).fromState x hx).not_mem (by decide)

section Keys

variable {beyond : ℕ → Char} {t u : Transit} {x y x' y' : Stringshare}

/-- The two ends of a transition stand in its text with a colon between them. -/
theorem length_keyText : t.keyText.length =
    (fmtStr t.fromState).length + (fmtStr t.toState).length + 1 := by
  simp only [Transit.keyText, List.length_append, List.length_cons]
  omega

theorem stored_iff : t.Stored ↔ t.keyText.length ≤ 2047 := by
  simp only [Transit.Stored, snprintf, List.length_take]
  omega

/-- The key is the part of the text that fits, then what lies behind it. -/
theorem transitKey_eq (beyond : ℕ → Char) : transitKey beyond t =
    (t.keyText.take 2047 ++ '\x00' :: (List.range (t.keyText.length - 2048)).map beyond).take
      t.keyText.length := rfl

/-- A text that fits the buffer is the key as a whole. -/
theorem Transit.Stored.key (h : t.Stored) : transitKey beyond t = t.keyText := by
  rw [transitKey_eq, List.take_of_length_le (stored_iff.1 h), List.take_left]

theorem Transit.Joins.key (h : t.Joins x y) : transitKey beyond t = x ++ ':' :: y := by
  have hstored : t.Stored := by
    rw [stored_iff, length_keyText, h.fromState, h.toState]
    exact h.fits
  rw [hstored.key, Transit.keyText, h.fromState, h.toState]
  rfl

/-- A text is split at its first `:`. -/
theorem append_colon_inj : ∀ {x x' : List Char}, ':' ∉ x → ':' ∉ x' →
    x ++ ':' :: y = x' ++ ':' :: y' → x = x' ∧ y = y'
  | [], [], _, _, h => ⟨rfl, (List.cons.inj h).2⟩
  | [], c :: x', _, hx', h => by
    obtain rfl : ':' = c := (List.cons.inj h).1
    exact absurd List.mem_cons_self hx'
  | c :: x, [], hx, _, h => by
    obtain rfl : c = ':' := (List.cons.inj h).1
    exact absurd List.mem_cons_self hx
  | c :: x, c' :: x', hx, hx', h => by
    obtain ⟨hhead, htail⟩ := List.cons.inj h
    obtain ⟨hl, hr⟩ := append_colon_inj (fun hc => hx (List.mem_cons_of_mem _ hc))
      (fun hc => hx' (List.mem_cons_of_mem _ hc)) htail
    exact ⟨by rw [hhead, hl], hr⟩

theorem transitKey_eq_iff (ht : t.Joins x y) (hu : u.Joins x' y') (hx : ':' ∉ x) (hx' : ':' ∉ x') :
    transitKey beyond t = transitKey beyond u ↔
      (t.fromState, t.toState) = (u.fromState, u.toState) := by
  rw [ht.key, hu.key, ht.fromState, ht.toState, hu.fromState, hu.toState]
  constructor
  · intro h
    obtain ⟨rfl, rfl⟩ := append_colon_inj hx hx' h
    rfl
  · intro h
    simp only [Prod.mk.injEq, Option.some.injEq] at h
    rw [h.1, h.2]

theorem transitKeys_nodup_iff {f : Fsm} (hl : f.Legible) (hc : f.ColonFree) :
    (transitKeys beyond f).Nodup ↔ f.pairs.Nodup := by
  have hiff : ∀ t ∈ f.transits, ∀ u ∈ f.transits,
      (transitKey beyond t ≠ transitKey beyond u ↔
        (t.fromState, t.toState) ≠ (u.fromState, u.toState)) := by
    intro t ht u hu
    obtain ⟨x, y, htx⟩ := hl t ht
    obtain ⟨x', y', hux⟩ := hl u hu
    exact not_congr
      (transitKey_eq_iff htx hux (hc t ht x htx.fromState) (hc u hu x' hux.fromState))
  unfold transitKeys Fsm.pairs List.Nodup
  rw [List.pairwise_map, List.pairwise_map]
  exact ⟨fun h => h.imp_of_mem fun ht hu hne => (hiff _ ht _ hu).1 hne,
    fun h => h.imp_of_mem fun ht hu hne => (hiff _ ht _ hu).2 hne⟩

end Keys

section Verdict

variable {ord : HashOrder} {beyond : ℕ → Char} {f : Fsm}

/-- The initial state that the check leaves. -/
theorem checkedFsm_init (hp : f.Parsed) :
    (∀ x, (∀ y, f.IsSource y ↔ y = x) → (checkedFsm ord f).init = some x) ∧
      ((∀ y, ¬ f.IsSource y) → (checkedFsm ord f).init = f.init) := by
  simp only [← mem_sources ord hp]
  constructor
  · intro x hx
    have hs : sources ord f = [x] := eq_singleton_of_mem_iff (sources_nodup hp) hx
    simp [checkedFsm, hs]
  · intro hnone
    have hs : sources ord f = [] := List.eq_nil_iff_forall_not_mem.2 hnone
    simp [checkedFsm, hs]

/-- A machine alone is accepted exactly when no two of its transitions lead from and to the same
states and either one state is the only source and no other one is given, or there is no source and
one is given. Its states are then those described and those its transitions name, and its initial
state is the source, or the one given. -/
theorem checkStates_decides (hp : f.Parsed) (hl : f.Legible) (hc : f.ColonFree) :
    ((checkStates ord beyond [f]).1 = true ↔ f.pairs.Nodup ∧
      ((∃ x, (∀ y, f.IsSource y ↔ y = x) ∧ (f.init = none ∨ f.init = some x)) ∨
        (∀ y, ¬ f.IsSource y) ∧ f.init ≠ none)) ∧
      ((checkStates ord beyond [f]).1 = true → ∃ g, (checkStates ord beyond [f]).2 = [g] ∧
        (∀ x, x ∈ g.states ↔ f.IsState x) ∧ g.transitions = f.transitions ∧
        (∀ x, (∀ y, f.IsSource y ↔ y = x) → g.init = some x) ∧
        ((∀ y, ¬ f.IsSource y) → g.init = f.init)) := by
  have hgiven : ∀ x, (∀ i, f.init = some i → i = x) ↔ f.init = none ∨ f.init = some x := by
    intro x
    cases f.init <;> simp
  constructor
  · rw [checkStates_singleton_iff hp]
    have hinit : f.InitDetermined ↔
        (∃ x, (∀ y, f.IsSource y ↔ y = x) ∧ (f.init = none ∨ f.init = some x)) ∨
          (∀ y, ¬ f.IsSource y) ∧ f.init ≠ none := by
      simp only [Fsm.InitDetermined, hgiven]
    have hkeys : (transitKeys beyond f).Nodup ↔ f.pairs.Nodup := transitKeys_nodup_iff hl hc
    rw [← hinit, ← hkeys]
    exact ⟨fun h => ⟨h.keys, h.init⟩, fun h => ⟨h.1, h.2⟩⟩
  · intro h
    refine ⟨checkedFsm ord f, ?_, fun x => mem_deducedStates ord, rfl, checkedFsm_init hp⟩
    rw [checkStates_eq (by simpa using hp) h]
    rfl

/-- A machine with a cycle and an initial state. -/
def cycle : Fsm :=
  { name := ['m']
    transitions := (AList.singleton ['t']
      { name := ['t'], fromState := some ['a'], toState := some ['b'] }).insert ['u']
      { name := ['u'], fromState := some ['b'], toState := some ['a'] }
    states := AList.singleton ['a'] { name := ['a'] }
    init := some ['a'] }

theorem cycle_parsed : cycle.Parsed where
  transit_name := by decide
  state_name := by decide
  state_fresh := by decide
  init_mem := by decide

theorem cycle_joins : ∀ t ∈ cycle.transits,
    t.Joins ['a'] ['b'] ∨ t.Joins ['b'] ['a'] := by
  have hends : ∀ t ∈ cycle.transits, t.fromState = some ['a'] ∧ t.toState = some ['b'] ∨
      t.fromState = some ['b'] ∧ t.toState = some ['a'] := by decide
  intro t ht
  refine (hends t ht).imp (fun h => ?_) fun h => ?_
  · exact ⟨h.1, h.2, by simp, by simp, by simp⟩
  · exact ⟨h.1, h.2, by simp, by simp, by simp⟩

/-- The cycle has no source, and is accepted for its given initial state. -/
theorem cycle_decided :
    ((checkStates .newestFirst (fun _ => ' ') [cycle]).1 = true ↔ cycle.pairs.Nodup ∧
      ((∃ x, (∀ y, cycle.IsSource y ↔ y = x) ∧ (cycle.init = none ∨ cycle.init = some x)) ∨
        (∀ y, ¬ cycle.IsSource y) ∧ cycle.init ≠ none)) ∧
      ((checkStates .newestFirst (fun _ => ' ') [cycle]).1 = true →
        ∃ g, (checkStates .newestFirst (fun _ => ' ') [cycle]).2 = [g] ∧
          (∀ x, x ∈ g.states ↔ cycle.IsState x) ∧ g.transitions = cycle.transitions ∧
          (∀ x, (∀ y, cycle.IsSource y ↔ y = x) → g.init = some x) ∧
          ((∀ y, ¬ cycle.IsSource y) → g.init = cycle.init)) := by
  refine checkStates_decides cycle_parsed (fun t ht => ?_) fun t ht x hx => ?_
  · rcases cycle_joins t ht with h | h
    · exact ⟨_, _, h⟩
    · exact ⟨_, _, h⟩
  · rcases cycle_joins t ht with h | h <;>
      obtain rfl := Option.some.inj (hx.symm.trans h.fromState) <;> simp

end Verdict

end Estate.Cc
