import Estate.Init
import Estate.Lib.Batch

/-!
# The users of the library

Whatever users start and stop the library in whatever order, and whatever Eina refuses, the library
counts its holders: it is up while there is one, and has nothing of Eina otherwise
(`library_shared`).
-/

namespace Estate

open Lib

variable {l m : Library} {eina : EinaAnswer} {r : ℤ}

/-- The library is up exactly when its count is positive. -/
def Library.Counted (l : Library) : Prop := (0 < l.initCount → l.Up) ∧ (l.initCount ≤ 0 → l.Down)

theorem counted_fresh : ({} : Library).Counted :=
  ⟨fun h => absurd h (Int.lt_irrefl 0), fun _ => ⟨rfl, rfl⟩⟩

/-- A call counts one more, or Eina has refused the first user and nothing is left of the call. -/
theorem estateInit_cases (h : estateInit eina l = some (m, r)) : r = m.initCount ∧
    ((l.initCount ≠ 0 ∧ m = { l with initCount := l.initCount + 1 }) ∨
      (l.initCount = 0 ∧ 0 ≤ eina.domain ∧
        m = { initCount := 1, logDom := eina.domain, einaInits := l.einaInits + 1,
              domains := eina.domain :: l.domains }) ∨
      (l.initCount = 0 ∧ m.initCount = 0 ∧ m.einaInits = l.einaInits ∧ m.domains = l.domains)) := by
  unfold estateInit at h
  simp only [] at h
  split_ifs at h with hfits hfirst hinit hdomain
  · obtain ⟨rfl, rfl⟩ := Prod.mk.inj (Option.some.inj h)
    exact ⟨rfl, .inr (.inr ⟨by omega, by simp; omega, rfl, rfl⟩)⟩
  · obtain ⟨rfl, rfl⟩ := Prod.mk.inj (Option.some.inj h)
    exact ⟨rfl, .inr (.inr ⟨by omega, by simp; omega, by simp, rfl⟩)⟩
  · obtain ⟨rfl, rfl⟩ := Prod.mk.inj (Option.some.inj h)
    exact ⟨rfl, .inr (.inl ⟨by omega, by omega, by simp [hfirst]⟩)⟩
  · obtain ⟨rfl, rfl⟩ := Prod.mk.inj (Option.some.inj h)
    exact ⟨rfl, .inl ⟨by omega, rfl⟩⟩

theorem estateShutdown_cases (h : estateShutdown l = some (m, r)) :
    r = l.initCount - 1 ∧
      ((l.initCount = 1 ∧ m = { l with initCount := 0, domains := l.domains.erase l.logDom,
                                       einaInits := l.einaInits - 1 }) ∨
        (l.initCount ≠ 1 ∧ m = { l with initCount := l.initCount - 1 })) := by
  unfold estateShutdown at h
  simp only [] at h
  split_ifs at h with hfits hlast
  · obtain ⟨rfl, rfl⟩ := Prod.mk.inj (Option.some.inj h)
    exact ⟨rfl, .inl ⟨by omega, by simp [hlast]⟩⟩
  · obtain ⟨rfl, rfl⟩ := Prod.mk.inj (Option.some.inj h)
    exact ⟨rfl, .inr ⟨by omega, rfl⟩⟩

theorem Library.Counted.init (hl : l.Counted) (h : estateInit eina l = some (m, r)) :
    m.Counted := by
  obtain ⟨-, ⟨hne, rfl⟩ | ⟨hz, hdomain, rfl⟩ | ⟨hz, hm, heina, hdomains⟩⟩ := estateInit_cases h
  · refine ⟨fun hpos => ?_, fun hle => ?_⟩
    · have hup := hl.1 (by simp at hpos; omega)
      exact ⟨hup.eina, hup.domains, hup.logDom⟩
    · have hdown := hl.2 (by simp at hle; omega)
      exact ⟨hdown.eina, hdown.domains⟩
  · have hdown := hl.2 (Int.le_of_eq hz)
    refine ⟨fun _ => ⟨by simp [hdown.eina], by simp [hdown.domains], hdomain⟩, fun hle => ?_⟩
    simp at hle
  · have hdown := hl.2 (Int.le_of_eq hz)
    exact ⟨fun hpos => by omega, fun _ => ⟨heina ▸ hdown.eina, hdomains ▸ hdown.domains⟩⟩

theorem Library.Counted.shutdown (hl : l.Counted) (h : estateShutdown l = some (m, r)) :
    m.Counted := by
  obtain ⟨-, ⟨hone, rfl⟩ | ⟨hne, rfl⟩⟩ := estateShutdown_cases h
  · have hup := hl.1 (by omega)
    exact ⟨fun hpos => by simp at hpos, fun _ => ⟨by simp [hup.eina], by simp [hup.domains]⟩⟩
  · refine ⟨fun hpos => ?_, fun hle => ?_⟩
    · have hup := hl.1 (by simp at hpos; omega)
      exact ⟨hup.eina, hup.domains, hup.logDom⟩
    · have hdown := hl.2 (by simp at hle; omega)
      exact ⟨hdown.eina, hdown.domains⟩

/-! ## Runs -/

section Runs

/-- The library counts its holders. -/
structure Shared.Balanced {U : Type} (s : Shared U) : Prop where
  counted : s.lib.Counted
  count : s.lib.initCount = s.holders.length

theorem balanced_fresh {U : Type} : ({} : Shared U).Balanced := ⟨counted_fresh, rfl⟩

variable {U : Type} [DecidableEq U] {s s' : Shared U} {calls : List (LibCall U)}

theorem Shared.Balanced.step (hs : s.Balanced) {c : LibCall U} (h : s.step c = some s') :
    s'.Balanced := by
  have hcount := hs.count
  cases c with
  | init user eina =>
    obtain ⟨⟨lib, r⟩, hinit, hs'⟩ := Option.bind_eq_some_iff.1 h
    obtain rfl := Option.some.inj hs'
    have hlib : lib.Counted := hs.counted.init hinit
    obtain ⟨rfl, ⟨-, rfl⟩ | ⟨hnone, -, rfl⟩ | ⟨hnone, hzero, -⟩⟩ := estateInit_cases hinit
    · have hpos : 0 < s.lib.initCount + 1 := by omega
      simp only [hpos, if_true]
      refine ⟨hlib, ?_⟩
      simp only [List.length_cons, Int.natCast_add]
      omega
    · simp only [Int.one_pos, if_true]
      refine ⟨hlib, ?_⟩
      simp only [List.length_cons, Int.natCast_add]
      omega
    · simp only [hzero, Int.lt_irrefl, if_false]
      exact ⟨hlib, by simp only [hzero]; omega⟩
  | shutdown user =>
    simp only [Shared.step] at h
    split_ifs at h with hmem
    obtain ⟨⟨lib, r⟩, hshut, hs'⟩ := Option.bind_eq_some_iff.1 h
    obtain rfl := Option.some.inj hs'
    have hlen := List.length_erase_of_mem hmem
    have hpos := List.length_pos_of_mem hmem
    refine ⟨hs.counted.shutdown hshut, ?_⟩
    obtain ⟨-, ⟨hone, rfl⟩ | ⟨-, rfl⟩⟩ := estateShutdown_cases hshut
    · simp only []
      omega
    · simp only []
      omega

theorem Shared.Balanced.run (hs : s.Balanced) (h : s.run calls = some s') : s'.Balanced :=
  foldlM_inv (fun _ _ _ hs hstep => Shared.Balanced.step hs hstep) hs h

/-- Calls that stop the library take it down at the last of as many as it counts. -/
theorem Library.Counted.shutdowns {k : ℕ} : ∀ {l m : Library}, l.Counted →
    Estate.shutdowns k l = some m → m.Counted ∧ m.initCount = l.initCount - k := by
  induction k with
  | zero =>
    intro l m hl h
    obtain rfl := Option.some.inj h
    exact ⟨hl, by simp⟩
  | succ k ih =>
    intro l m hl h
    obtain ⟨⟨u, r⟩, hshut, hrest⟩ := Option.bind_eq_some_iff.1 h
    obtain ⟨hm, hcount⟩ := ih (hl.shutdown hshut) hrest
    refine ⟨hm, ?_⟩
    obtain ⟨-, ⟨hone, rfl⟩ | ⟨-, rfl⟩⟩ := estateShutdown_cases hshut
    · simp only [] at hcount
      omega
    · simp only [] at hcount
      omega

theorem Library.Counted.up_iff (hl : l.Counted) : l.Up ↔ 0 < l.initCount := by
  refine ⟨fun hup => ?_, hl.1⟩
  by_contra hle
  have hdown := hl.2 (Int.not_lt.1 hle)
  exact absurd (hup.eina.symm.trans hdown.eina) (by decide)

/-- Whoever starts and stops the library, in whatever order and whatever Eina refuses, it is up
while it has a holder, and has nothing of Eina otherwise. A call returns the number of its holders,
and one that starts the library fails for its first user only. Calls by users that hold nothing take
it down as soon as there have been as many as holders, and not before. -/
theorem library_shared (h : Shared.run {} calls = some s) :
    s.lib.initCount = s.holders.length ∧
      (s.holders ≠ [] → s.lib.Up) ∧ (s.holders = [] → s.lib.Down) ∧
      (∀ eina l r, estateInit eina s.lib = some (l, r) →
        r = s.holders.length + 1 ∨ r = 0 ∧ s.holders = [] ∧ l.Down) ∧
      ∀ k l, shutdowns k s.lib = some l → (l.Up ↔ k < s.holders.length) := by
  have hs : s.Balanced := balanced_fresh.run h
  have hcount := hs.count
  refine ⟨hcount, fun hne => ?_, fun hnil => ?_, fun eina l r hinit => ?_, fun k l hl => ?_⟩
  · have hpos := List.length_pos_iff.2 hne
    exact hs.counted.1 (by omega)
  · exact hs.counted.2 (by simp [hcount, hnil])
  · have hl := hs.counted.init hinit
    obtain ⟨rfl, ⟨-, rfl⟩ | ⟨hz, -, rfl⟩ | ⟨hz, hm, -⟩⟩ := estateInit_cases hinit
    · exact .inl (by simp only []; omega)
    · exact .inl (by simp only []; omega)
    · exact .inr ⟨hm, List.length_eq_zero_iff.1 (by omega), hl.2 (Int.le_of_eq hm)⟩
  · obtain ⟨hl', hleft⟩ := hs.counted.shutdowns hl
    rw [hl'.up_iff]
    omega

/-- Two users of which the second comes while the first is there; Eina has refused it once. -/
theorem library_shared_two :
    ∃ s, Shared.run ({} : Shared ℕ) [.init 1 ⟨false, 0⟩, .init 1 ⟨true, 3⟩, .init 2 ⟨true, 4⟩,
      .shutdown 1] = some s ∧ s.holders = [2] ∧ s.lib.Up := by
  have hrun : Shared.run ({} : Shared ℕ) [.init 1 ⟨false, 0⟩, .init 1 ⟨true, 3⟩,
      .init 2 ⟨true, 4⟩, .shutdown 1] = some ⟨⟨1, 3, 1, [3]⟩, [2]⟩ := by decide
  exact ⟨_, hrun, rfl, (library_shared hrun).2.1 (by simp)⟩

end Runs

end Estate
