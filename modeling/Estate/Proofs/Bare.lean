import Estate.Proofs.Machines

/-!
# What a file gives a transition

The parser makes a transition by `transit_new`, and gives it a callback and its two states. What
this keeps true holds of every transition it returns (`parserParse_transits`): no file gives a
transition callbacks for its states.
-/

namespace Estate.Cc

open Lib

variable {P : Transit → Prop} {p q : Parser} {c : Char}

/-- Every transition of every machine has the property. -/
def Parser.AllTransits (P : Transit → Prop) (p : Parser) : Prop :=
  ∀ f ∈ p.fsms, ∀ n t, f.transitions.lookup n = some t → P t

theorem AllTransits.same (h : p.AllTransits P) (hparse : q.parse = p.parse) (hf : q.f = p.f) :
    q.AllTransits P := by
  intro f hm
  exact h f (by simpa only [Parser.fsms, hparse, hf] using hm)

theorem AllTransits.update (h : p.AllTransits P) (hparse : q.parse = p.parse) {f : Fsm}
    (hq : q.f = some f) (hf : ∀ n t, f.transitions.lookup n = some t → P t) :
    q.AllTransits P := by
  intro f' hm
  rcases mem_fsms.1 hm with hm | hm
  · exact h f' (mem_fsms.2 (.inl (hparse ▸ hm)))
  · rw [hq] at hm
    exact Option.some.inj hm ▸ hf

/-- A write through `t`, which may point to an entry of the last machine. -/
theorem AllTransits.write (h : p.AllTransits P) {g : Transit → Transit}
    (hg : ∀ n t f, p.t = some (.entry n) → p.f = some f → f.transitions.lookup n = some t →
      P t → P (g t)) (hm : p.modifyTransit g = .ok q) : q.AllTransits P := by
  rcases modifyTransit_ok hm with ⟨t, -, rfl⟩ | ⟨name, f, hname, hf, rfl⟩
  · exact AllTransits.same h rfl rfl
  · refine AllTransits.update h rfl rfl fun n t hl => ?_
    have hold := h f (mem_fsms.2 (.inr hf))
    obtain ⟨t', ht', ⟨-, rfl⟩ | ⟨rfl, rfl⟩⟩ := lookup_hashModify_some hl
    · exact hold n t ht'
    · exact hg n t' f hname hf ht' (hold n t' ht')

/-- A transition is made by `transit_new`, and is given its callback and its two states only. -/
structure MadeBySteps (P : Transit → Prop) : Prop where
  new : ∀ n, P (transitNew n)
  cb : ∀ t cb, P t → P { t with cb := cb }
  fromState : ∀ t s, P t → P { t with fromState := s }
  toState : ∀ t s, P t → P { t with toState := s }

/-- Likewise, and it is given its target behind its origin. -/
structure MadeInOrder (P : Transit → Prop) : Prop where
  new : ∀ n, P (transitNew n)
  cb : ∀ t cb, P t → P { t with cb := cb }
  fromState : ∀ t s, P t → P { t with fromState := some s }
  toState : ∀ t s, t.fromState ≠ none → P t → P { t with toState := some s }

theorem MadeBySteps.inOrder (hP : MadeBySteps P) : MadeInOrder P :=
  ⟨hP.new, hP.cb, fun t s => hP.fromState t (some s), fun t s _ => hP.toState t (some s)⟩

/-- The line of a transition has given its origin when it gives its target. -/
theorem Built.origin (hb : Built p) (hsm : p.sm = .transitionTo) {f : Fsm} (hf : p.f = some f)
    {n : Stringshare} {t : Transit} (hl : f.transitions.lookup n = some t) :
    t.fromState ≠ none := by
  rcases hb.current f hf n t hl with hfill | ⟨-, hfrom | ⟨-, hfrom⟩⟩
  · exact hfill.1
  · simp [hsm] at hfrom
  · exact hfrom

theorem TokenStep.allTransits (hP : MadeInOrder P) (hs : TokenStep p c q) (hb : Built p)
    (h : p.AllTransits P) : q.AllTransits P := by
  have hlast : ∀ f, p.f = some f → ∀ n t, f.transitions.lookup n = some t → P t :=
    fun f hf => h f (mem_fsms.2 (.inr hf))
  cases hs
  case machine =>
    intro f hm n t hl
    rcases mem_fsms.1 hm with hm | hm
    · exact h f hm n t hl
    · obtain rfl := Option.some.inj hm
      simp [fsmNew] at hl
  case enter => exact AllTransits.same h rfl rfl
  case key f _ hf _ => exact AllTransits.update h rfl rfl (hlast f hf)
  case state f _ hf _ => exact AllTransits.update h rfl rfl (hlast f hf)
  case callback => exact AllTransits.same h rfl rfl
  case init f s _ hf _ _ => exact AllTransits.update h rfl rfl (hlast f hf)
  case stateProp g _ hm =>
    obtain ⟨ptr, f, -, hf, rfl⟩ := modifyCallback_ok hm
    exact AllTransits.update h rfl rfl (hlast f hf)
  case describe => exact AllTransits.same h rfl rfl
  case transitProp g _ hm => exact AllTransits.write h (fun _ t _ _ _ _ => hP.cb t _) hm
  case transit f _ _ hf _ =>
    refine AllTransits.update h rfl rfl fun n t hl => ?_
    rcases lookup_insert_some hl with ⟨-, rfl⟩ | ⟨-, hl⟩
    · exact hP.new _
    · exact hlast f hf n t hl
  case origin q _ _ hm =>
    have hwrite := AllTransits.write h (fun _ t _ _ _ _ => hP.fromState t p.buf) hm
    exact AllTransits.same hwrite rfl rfl
  case target q hsm _ hm =>
    have hwrite := AllTransits.write h
      (fun _ t _ _ hf hl => hP.toState t p.buf (hb.origin hsm hf hl)) hm
    exact AllTransits.same hwrite rfl rfl

theorem kept_allTransits (hP : MadeInOrder P) : Kept fun p => Built p ∧ p.AllTransits P where
  blank h := ⟨kept_built.blank h.1, AllTransits.same h.2 rfl rfl⟩
  prepared h hprep := by
    have hframe := prepare_frame hprep
    exact ⟨prepare_built h.1 hprep, AllTransits.same h.2 hframe.parse hframe.f⟩
  handed h := ⟨kept_built.handed h.1, AllTransits.same h.2 rfl rfl⟩
  looked h hs := ⟨hs.built h.1, hs.allTransits hP h.1 h.2⟩
  cleared h := ⟨kept_built.cleared h.1, AllTransits.same h.2 rfl rfl⟩
  left h hl := by
    refine ⟨leave_built h.1 hl, ?_⟩
    obtain ⟨b, -, rfl⟩ := Option.map_eq_some_iff.1 hl
    exact AllTransits.same h.2 rfl rfl

/-- What is true of a new transition, and stays true as it gets its callback and its states, is
true of every transition the parser returns. -/
theorem parserParse_transits (hP : MadeInOrder P) (src : List Char) :
    ∀ f ∈ parserParse src, ∀ t ∈ f.transits, P t := by
  unfold parserParse
  rcases h : parseRun src with e | ⟨r, p⟩
  · simp
  · intro f hf
    have hnone : Built {} ∧ ({} : Parser).AllTransits P := by
      refine ⟨fresh_built, fun f hm => ?_⟩
      simp [Parser.fsms] at hm
    have hstep : ∀ (p : Parser) (l : Lexeme) (q : Parser), l ∈ (reading src).lexemes → p.Settled →
        Built p ∧ p.AllTransits P → l.step p = some q → Built q ∧ q.AllTransits P := by
      intro p l q _ hs hp hq
      have hword : ∀ c, Built { p with buf := p.buf ++ [c] } ∧
          Parser.AllTransits P { p with buf := p.buf ++ [c] } :=
        fun c => ⟨hp.1.congr rfl rfl rfl rfl rfl, AllTransits.same hp.2 rfl rfl⟩
      exact (kept_allTransits hP).step hs hp (fun c _ _ => hword c) hq
    exact mem_transits_of_lookup
      ((foldlM_step_induct hstep fresh_settled hnone (foldlM_of_parseRun h)).2.2 f hf)

/-- A file gives no transition callbacks for its states. -/
theorem parserParse_bare (src : List Char) :
    ∀ f ∈ parserParse src, ∀ t ∈ f.transits, t.enterer = {} ∧ t.exiter = {} :=
  parserParse_transits
    (MadeBySteps.inOrder ⟨fun _ => ⟨rfl, rfl⟩, fun _ _ h => h, fun _ _ h => h, fun _ _ h => h⟩) src

end Estate.Cc
