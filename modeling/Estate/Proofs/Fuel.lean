import Estate.Machine

/-!
# More fuel changes nothing

A call that ends with some fuel ends in the same way with more (`machineTransitionDo_mono`).
Whatever makes calls through a given `estate_machine_transition_do` makes the same ones through
another that answers at least as often.
-/

namespace Estate

variable {W : Type} (env : Env W)

/-- `g` answers as `f` does wherever `f` answers. -/
def Extends (f g : Process W → CStr → Process W × Option Bool) : Prop :=
  ∀ p t q b, f p t = (q, some b) → g p t = (q, some b)

variable {f g : Process W → CStr → Process W × Option Bool}

theorem apiCall_mono (h : Extends f g) {p q : Process W} {c : Call} {b : Bool}
    (hf : apiCall env f p c = (q, some b)) : apiCall env g p c = (q, some b) := by
  cases c with
  | transitionDo t => exact h _ _ _ _ hf
  | _ => exact hf

theorem runProg_mono (h : Extends f g) (prog : CbProg W) :
    ∀ {p q : Process W} {r : ℤ}, runProg env f prog p = (q, some r) →
      runProg env g prog p = (q, some r) := by
  induction prog with
  | ret w r => exact fun hf => hf
  | call w c k ih =>
    intro p q r hf
    simp only [runProg] at hf ⊢
    rcases hc : apiCall env f (p.setWorld w) c with ⟨p', _ | b⟩ <;> rw [hc] at hf
    · simp at hf
    · rw [apiCall_mono env h hc]
      exact ih _ _ hf

theorem miscCbCall_mono (h : Extends f g) {p q : Process W} {wrp : WrapperRef} {type : CbType}
    {tr : Addr} (hf : miscCbCall env f p wrp type tr = (q, some ())) :
    miscCbCall env g p wrp type tr = (q, some ()) := by
  unfold miscCbCall at hf ⊢
  split_ifs at hf ⊢
  · exact hf
  · simp only [] at hf ⊢
    split at hf
    · simp at hf
    · rename_i heq
      rw [runProg_mono env h _ heq]
      exact hf

theorem stateCbCall_mono (h : Extends f g) {p q : Process W} {st tr : Addr} {type : CbType}
    (hf : stateCbCall env f p st tr type = (q, some ())) :
    stateCbCall env g p st tr type = (q, some ()) := by
  cases type
  · exact miscCbCall_mono env h hf
  · exact miscCbCall_mono env h hf
  · exact hf

theorem fire_mono (h : Extends f g) {p q : Process W} {tr : Addr}
    (hf : fire env f p tr = (q, some ())) : fire env g p tr = (q, some ()) := by
  unfold fire at hf ⊢
  simp only [] at hf ⊢
  split at hf
  · simp at hf
  · rename_i h₁
    rw [stateCbCall_mono env h h₁]
    simp only []
    split at hf
    · simp at hf
    · rename_i h₂
      rw [miscCbCall_mono env h h₂]
      exact stateCbCall_mono env h hf

theorem transitionFail_mono (h : Extends f g) {p q : Process W} {t : CStr} {shr : Stringshare}
    {msg : List Char} {b : Bool} (hf : transitionFail env f p t shr msg = (q, some b)) :
    transitionFail env g p t shr msg = (q, some b) := by
  unfold transitionFail at hf ⊢
  split_ifs at hf ⊢
  · exact hf
  · simp only [] at hf ⊢
    split at hf
    · simp at hf
    · rename_i heq
      rw [runProg_mono env h _ heq]
      exact hf

theorem drain_mono (h : Extends f g) :
    ∀ {deferred : List CStr} {p q : Process W}, drain f deferred p = (q, some ()) →
      drain g deferred p = (q, some ())
  | [], p, q, hf => hf
  | t :: deferred, p, q, hf => by
    simp only [drain] at hf ⊢
    rcases hd : f p t with ⟨p', _ | b⟩ <;> rw [hd] at hf
    · simp at hf
    · rw [h _ _ _ _ hd]
      exact drain_mono h hf

theorem transitionRun_mono (h : Extends f g) :
    Extends (transitionRun env f) (transitionRun env g) := by
  intro p t q b hf
  unfold transitionRun at hf ⊢
  simp only [] at hf ⊢
  split at hf
  · exact transitionFail_mono env h hf
  · split_ifs at hf ⊢
    · exact transitionFail_mono env h hf
    · split at hf
      · simp at hf
      · rename_i hfire
        rw [fire_mono env h hfire]
        simp only []
        split at hf
        · simp at hf
        · rename_i hdrain
          rw [drain_mono h hdrain]
          exact hf

theorem transitionEnter_mono (h : Extends f g) :
    Extends (transitionEnter env f) (transitionEnter env g) := by
  intro p t q b hf
  unfold transitionEnter at hf ⊢
  split_ifs at hf ⊢
  · exact hf
  · exact hf
  · exact hf
  · exact h _ _ _ _ hf

theorem machineTransitionDo_succ (fuel : ℕ) :
    Extends (machineTransitionDo env fuel) (machineTransitionDo env (fuel + 1)) := by
  induction fuel with
  | zero =>
    refine transitionEnter_mono env fun p t q b hf => ?_
    simp at hf
  | succ fuel ih => exact transitionEnter_mono env (transitionRun_mono env ih)

theorem machineTransitionDo_mono {m n : ℕ} (hmn : m ≤ n) :
    Extends (machineTransitionDo env m) (machineTransitionDo env n) := by
  induction n, hmn using Nat.le_induction with
  | base => exact fun _ _ _ _ hf => hf
  | succ n _ ih => exact fun p t q b hf => machineTransitionDo_succ env n p t q b (ih p t q b hf)

end Estate
