import Estate.Cc.Main
import Estate.Proofs.Check
import Estate.Proofs.Machines

/-!
# What a run of `estate_cc` has checked

The verdict of the check is thrown away, so every file with a machine in it goes on to the
generator with a success. A run keeps its guarantee exactly when the check accepts what was parsed.
-/

namespace Estate.Cc

section Checked

variable {ord : HashOrder} {beyond : ℕ → Char} {f : Fsm}

theorem checkedFsm_initDeclared (hp : f.Parsed) (ha : f.Admissible beyond) :
    (checkedFsm ord f).InitDeclared := by
  have hmem : ∀ x, f.IsState x → x ∈ (checkedFsm ord f).states := fun x =>
    (mem_deducedStates ord).2
  rcases (initDetermined_iff ord hp).1 ha.init with ⟨x, hx, -⟩ | ⟨hx, hi⟩
  · have hsource : f.IsSource x := (mem_sources ord hp).1 (by simp [hx])
    exact ⟨x, by simp [checkedFsm, hx], hmem x hsource.1⟩
  · obtain ⟨i, hf⟩ := Option.ne_none_iff_exists'.1 hi
    exact ⟨i, by simp [checkedFsm, hx, hf], hmem i (.inl (hp.init_mem i hf))⟩

/-- Transitions with the same ends have the same key. -/
theorem endsDistinct_of_keys (h : (transitKeys beyond f).Nodup) : f.EndsDistinct := by
  let key : Option Stringshare × Option Stringshare → Stringshare := fun e =>
    transitKey beyond { name := [], fromState := e.1, toState := e.2 }
  refine List.Nodup.of_map key ?_
  rw [List.map_map]
  exact h

theorem checkStates_guarantee {fsms : List Fsm} (hp : ∀ f ∈ fsms, f.Parsed)
    (h : (checkStates ord beyond fsms).1 = true) :
    ∀ f ∈ (checkStates ord beyond fsms).2, f.InitDeclared ∧ f.EndsDistinct := by
  have ha := ((checkStates_iff hp).1 h).1
  rw [checkStates_eq hp h]
  intro f hf
  obtain ⟨f, hmem, rfl⟩ := List.mem_map.1 hf
  exact ⟨checkedFsm_initDeclared (hp f hmem) (ha f hmem), endsDistinct_of_keys (ha f hmem).keys⟩

end Checked

section Run

variable {env : CcEnv} {st : Settings}

theorem processParse_checked_iff {fsms : List Fsm} (hp : ∀ f ∈ fsms, f.Parsed) :
    (processParse env st fsms).Checked ↔
      (∀ f ∈ fsms, f.Admissible env.beyond) ∧ KeysApart env.beyond fsms := by
  rw [← @checkStates_iff env.ord env.beyond fsms hp]
  constructor
  · intro h
    exact Option.some.inj (h (.inr rfl)).1
  · intro h _
    exact ⟨congrArg some h, checkStates_guarantee hp h⟩

/-- The file has been opened, and the libraries are up. -/
def CcEnv.Reads (env : CcEnv) (input : Path) (src : List Char) : Prop :=
  env.einaInit = true ∧ env.logInit = true ∧ env.parserNew = true ∧ env.map input = some src

theorem ccMain_of_not_reads {opts : List Opt} {input : Path} (ho : readOptions {} opts = .ok st)
    (hn : ∀ src, ¬ env.Reads input src) : ccMain env opts [input] = { status := .failure } := by
  unfold ccMain
  simp only [ho]
  split_ifs with h₁ h₂ h₃ h₄
  · rfl
  · rfl
  · rfl
  · rfl
  · rcases hm : env.map input with _ | src
    · rfl
    · exact absurd ⟨by simpa using h₂, by simpa using h₃, by simpa using h₄, hm⟩ (hn src)

theorem ccMain_of_reads {opts : List Opt} {input : Path} {src : List Char}
    (ho : readOptions {} opts = .ok st) (hf : st.formats = 1) (hr : env.Reads input src) :
    ccMain env opts [input] =
      if parserParse src = [] then { status := .failure } else processParse env st (parserParse src) := by
  obtain ⟨h₁, h₂, h₃, hm⟩ := hr
  simp only [ccMain, ho, hf, h₁, h₂, h₃, hm, ne_eq, not_true_eq_false, if_false, Bool.not_true,
    Bool.false_eq_true]
  rcases parserParse src with _ | ⟨f, fsms⟩
  · rfl
  · simp

/-- A run with valid options generates code for checked machines only, and succeeds for them only,
exactly when the check accepts what is parsed of the file, if anything is. -/
theorem ccMain_checked_iff {opts : List Opt} {input : Path} (ho : readOptions {} opts = .ok st)
    (hf : st.formats = 1) :
    (ccMain env opts [input]).Checked ↔ ∀ src, env.Reads input src → parserParse src ≠ [] →
      (∀ f ∈ parserParse src, f.Admissible env.beyond) ∧
        KeysApart env.beyond (parserParse src) := by
  by_cases hr : ∃ src, env.Reads input src
  · obtain ⟨src, hr⟩ := hr
    have huniq : ∀ src', env.Reads input src' → src' = src := fun src' hr' =>
      Option.some.inj (hr'.2.2.2.symm.trans hr.2.2.2)
    rw [ccMain_of_reads ho hf hr]
    by_cases hnil : parserParse src = []
    · rw [if_pos hnil]
      refine iff_of_true (fun h => ?_) fun src' hr' hne => ?_
      · simp at h
      · exact absurd (huniq src' hr' ▸ hnil) hne
    · rw [if_neg hnil, processParse_checked_iff (parserParse_parsed src)]
      exact ⟨fun h src' hr' _ => huniq src' hr' ▸ h, fun h => h src hr hnil⟩
  · rw [not_exists] at hr
    rw [ccMain_of_not_reads ho hr]
    refine iff_of_true (fun h => ?_) fun src hr' => absurd hr' (hr src)
    simp at h

/-- A machine without an initial state: two states that lead to each other. -/
def roundTrip : List Char :=
  "m\x7btransitions\x7bmodel\x7ba:x>y;b:y>x;\x7d\x7d\x7d".toList

def roundTripEnv : CcEnv where
  map := fun _ => some roundTrip
  ord := .newestFirst
  addr := fun _ => 0

/-- Its loader is written and the exit status says success, though the check has refused it. -/
theorem roundTrip_not_checked : (ccMain roundTripEnv [.gc] ["m.est".toList]).status = .success ∧
    (ccMain roundTripEnv [.gc] ["m.est".toList]).verdict = some false ∧
      ¬ (ccMain roundTripEnv [.gc] ["m.est".toList]).Checked := by
  have hout : (ccMain roundTripEnv [.gc] ["m.est".toList]).status = .success ∧
      (ccMain roundTripEnv [.gc] ["m.est".toList]).verdict = some false := by
    decide +kernel
  refine ⟨hout.1, hout.2, fun h => ?_⟩
  have hv := (h (.inr hout.1)).1
  rw [hout.2] at hv
  exact absurd hv (by decide)

/-- A machine with an initial state. -/
def oneWay : List Char := "m\x7btransitions\x7bmodel\x7ba:x>y;\x7d\x7d\x7d".toList

theorem oneWay_checked : (ccMain { roundTripEnv with map := fun _ => some oneWay } [.gc]
    ["m.est".toList]).Checked := by
  rw [@ccMain_checked_iff _ { gc := true } _ _ rfl rfl]
  rintro src ⟨-, -, -, hm⟩ -
  obtain rfl := Option.some.inj hm
  refine (@checkStates_iff .newestFirst _ _ (parserParse_parsed oneWay)).1 ?_
  decide +kernel

end Run

end Estate.Cc
