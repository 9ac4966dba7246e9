import Estate.Proofs.Firing

/-!
# What holds over a run

A relation that every elementary step of the library keeps, and that a stringshare taken and given
back does not disturb, is kept by every call that ends, calls made by callbacks included
(`Preserves.transitionDo`), and so by every run (`Preserves.run`). The step that performs a
transition may be shown to keep it as a whole (`Fires`), or piece by piece (`Fires.of_pieces`).
-/

namespace Estate

/-- An entry of two histories is one of the first, or one of the second behind all of the first. -/
theorem entry_append {α : Type} {h h' : List α} {i : ℕ} {a : α} (hi : (h ++ h')[i]? = some a) :
    (h[i]? = some a ∧ (h ++ h').take i = h.take i) ∨
      (h'[i - h.length]? = some a ∧ (h ++ h').take i = h ++ h'.take (i - h.length)) := by
  rcases Nat.lt_or_ge i h.length with hlt | hge
  · rw [List.getElem?_append_left hlt] at hi
    exact .inl ⟨hi, List.take_append_of_le_length hlt.le⟩
  · rw [List.getElem?_append_right hge] at hi
    exact .inr ⟨hi, by rw [List.take_append, List.take_of_length_le hge]⟩

variable {W : Type}

/-- A callback has returned. -/
def Event.isLeave : Event → Bool
  | .cbLeave _ _ _ => true
  | _ => false

/-- What the library does between two uses of a stringshare, and around them. -/
structure Preserves (env : Env W) (R : Process W → Process W → Prop) : Prop where
  refl : ∀ p, R p p
  trans : ∀ {p q r}, R p q → R q r → R p r
  world : ∀ p w, R p (p.setWorld w)
  log : ∀ p e, e.isLeave = false → R p (p.log e)
  call : ∀ {p q run c b}, (∀ t, c ≠ .transitionDo t) → apiCall env run p c = (q, some b) → R p q
  defer : ∀ p (l : List CStr), R p (p.setMach { p.mach with cbDefer := l })
  bracket : ∀ {p q s}, R (p.share s) q → R p (q.unshare s)

/-- Performing a transition keeps a relation, if the calls its callbacks make do. -/
def Fires (env : Env W) (R : Process W → Process W → Prop) : Prop :=
  ∀ (fuel : ℕ) (p : Process W) (tr : Addr) (q : Process W),
    (∀ p t q b, machineTransitionDo env fuel p t = (q, some b) → R p q) →
    p.mach.locked = true → p.mach.inCb = cbUnlocked →
    (p.transition tr).fromState = p.mach.currentState →
    fire env (machineTransitionDo env fuel) p tr = (q, some ()) → R p q

/-- The same of a transition that a call has found. -/
def FiresFound (env : Env W) (R : Process W → Process W → Prop) : Prop :=
  ∀ (fuel : ℕ) (p : Process W) (tr : Addr) (q : Process W),
    (∀ p t q b, machineTransitionDo env fuel p t = (q, some b) → R p q) →
    p.mach.locked = true → p.mach.inCb = cbUnlocked →
    (∃ shr, findTransition env p shr = some tr) →
    (p.transition tr).fromState = p.mach.currentState →
    fire env (machineTransitionDo env fuel) p tr = (q, some ()) → R p q

theorem Fires.found {env : Env W} {R : Process W → Process W → Prop} (h : Fires env R) :
    FiresFound env R :=
  fun fuel p tr q hrun hl hc _ hfrom hfire => h fuel p tr q hrun hl hc hfrom hfire

section Preserves

variable {env : Env W} {R : Process W → Process W → Prop}

theorem Preserves.apiCall (h : Preserves env R)
    {run : Process W → CStr → Process W × Option Bool}
    (hrun : ∀ p t q b, run p t = (q, some b) → R p q) {p q : Process W} {c : Call} {b : Bool}
    (hc : apiCall env run p c = (q, some b)) : R p q := by
  cases c with
  | transitionDo t => exact hrun _ _ _ _ hc
  | _ => exact h.call (by simp) hc

theorem Preserves.runProg (h : Preserves env R)
    {run : Process W → CStr → Process W × Option Bool}
    (hrun : ∀ p t q b, run p t = (q, some b) → R p q) (prog : CbProg W) :
    ∀ {p q : Process W} {result : ℤ}, runProg env run prog p = (q, some result) → R p q := by
  induction prog with
  | ret w r =>
    intro p q result hp
    obtain ⟨rfl, -⟩ := Prod.mk.inj hp
    exact h.world p w
  | call w c k ih =>
    intro p q result hp
    simp only [Estate.runProg] at hp
    rcases hc : Estate.apiCall env run (p.setWorld w) c with ⟨p', _ | b⟩ <;> rw [hc] at hp
    · simp at hp
    · exact h.trans (h.world p w) (h.trans (h.apiCall hrun hc) (ih _ _ hp))

theorem Preserves.transitionFail (h : Preserves env R)
    {run : Process W → CStr → Process W × Option Bool}
    (hrun : ∀ p t q b, run p t = (q, some b) → R p q) {p q : Process W} {t : CStr}
    {shr : Stringshare} {msg : List Char} {b : Bool}
    (hp : transitionFail env run p t shr msg = (q, some b)) :
    ∃ q', q = q'.unshare shr ∧ R p q' := by
  unfold Estate.transitionFail at hp
  by_cases he : p.mach.errorCb = 0
  · rw [if_pos he] at hp
    obtain ⟨rfl, -⟩ := Prod.mk.inj hp
    exact ⟨p, rfl, h.refl p⟩
  · rw [if_neg he] at hp
    simp only [] at hp
    split at hp
    · simp at hp
    · rename_i q' result hprog
      obtain ⟨rfl, -⟩ := Prod.mk.inj hp
      exact ⟨q', rfl, h.trans (h.log p _ rfl) (h.runProg hrun _ hprog)⟩

theorem Preserves.drain (h : Preserves env R)
    {run : Process W → CStr → Process W × Option Bool}
    (hrun : ∀ p t q b, run p t = (q, some b) → R p q) :
    ∀ (deferred : List CStr) (p q : Process W), drain run deferred p = (q, some ()) → R p q
  | [], p, q, hp => by
    obtain ⟨rfl, -⟩ := Prod.mk.inj hp
    exact h.refl p
  | t :: deferred, p, q, hp => by
    simp only [Estate.drain] at hp
    rcases hr : run p t with ⟨p', _ | b⟩ <;> rw [hr] at hp
    · simp at hp
    · exact h.trans (hrun _ _ _ _ hr) (h.drain hrun deferred p' q hp)

/-- One attempt past the guards of the call. -/
theorem Preserves.transitionRun (h : Preserves env R) (hfire : FiresFound env R) {fuel : ℕ}
    (hrun : ∀ p t q b, machineTransitionDo env fuel p t = (q, some b) → R p q) {p q : Process W}
    {t : CStr} {b : Bool} (hl : p.mach.locked = true) (hc : p.mach.inCb = cbUnlocked)
    (hp : transitionRun env (machineTransitionDo env fuel) p t = (q, some b)) : R p q := by
  obtain ⟨shr, hshr⟩ : ∃ shr, shr = env.deref p.world t := ⟨_, rfl⟩
  obtain ⟨p₁, hp₁⟩ : ∃ p₁, p₁ = (p.log (.attempt t shr)).share shr := ⟨_, rfl⟩
  have hfail : ∀ {msg : List Char}, Estate.transitionFail env (machineTransitionDo env fuel)
      (p₁.log (.log msg)) t shr msg = (q, some b) → R p q := by
    intro msg hp
    obtain ⟨q', rfl, hq⟩ := h.transitionFail hrun hp
    exact h.trans (h.log p _ rfl) (h.bracket (hp₁ ▸ h.trans (h.log p₁ _ rfl) hq))
  unfold Estate.transitionRun at hp
  simp only [← hshr, ← hp₁] at hp
  split at hp
  · exact hfail hp
  · rename_i tr hfound
    split_ifs at hp with hfrom
    · exact hfail hp
    · split at hp
      · simp at hp
      · rename_i q₁ hq₁
        have h₁ : R p₁ q₁ := by
          refine hfire fuel p₁ tr q₁ hrun ?_ ?_ ⟨shr, hfound⟩ (not_not.1 hfrom) hq₁
          · rw [hp₁]
            exact hl
          · rw [hp₁]
            exact hc
        split at hp
        · simp at hp
        · rename_i q₂ hq₂
          obtain ⟨rfl, -⟩ := Prod.mk.inj hp
          refine h.trans (h.log p _ rfl) (h.trans (h.bracket (hp₁ ▸ h₁)) ?_)
          exact h.trans (h.defer _ []) (h.drain hrun _ _ _ hq₂)

theorem Preserves.transitionDo (h : Preserves env R) (hfire : FiresFound env R) :
    ∀ (fuel : ℕ) (p : Process W) (t : CStr) (q : Process W) (b : Bool),
      machineTransitionDo env fuel p t = (q, some b) → R p q := by
  -- What the guards of the call let through.
  have henter : ∀ (run : Process W → CStr → Process W × Option Bool) (p : Process W) (t : CStr)
      (q : Process W) (b : Bool), (p.mach.locked = true → p.mach.inCb = cbUnlocked →
        run p t = (q, some b) → R p q) → transitionEnter env run p t = (q, some b) → R p q := by
    intro run p t q b hrun hp
    unfold transitionEnter at hp
    split_ifs at hp with h1 h2 h3
    · obtain ⟨rfl, -⟩ := Prod.mk.inj hp
      exact h.refl p
    · obtain ⟨rfl, -⟩ := Prod.mk.inj hp
      exact h.log p _ rfl
    · obtain ⟨rfl, -⟩ := Prod.mk.inj hp
      exact h.trans (h.log p _ rfl) (h.defer _ _)
    · exact hrun (by simpa using h2) (not_not.1 h3) hp
  intro fuel
  induction fuel with
  | zero =>
    intro p t q b hp
    exact henter _ p t q b (fun _ _ hr => by simp at hr) hp
  | succ fuel ih =>
    intro p t q b hp
    exact henter _ p t q b (fun hl hc hr => h.transitionRun hfire ih hl hc hr) hp

theorem Preserves.run_found (h : Preserves env R) (hfire : FiresFound env R) {p q : Process W}
    (hrun : Run env p q) : R p q := by
  induction hrun with
  | start => exact h.refl p
  | call _ hc ih => exact h.trans ih (h.apiCall (h.transitionDo hfire _) hc)
  | world _ w ih => exact h.trans ih (h.world _ w)

theorem Preserves.run (h : Preserves env R) (hfire : Fires env R) {p q : Process W}
    (hrun : Run env p q) : R p q := h.run_found hfire.found hrun

/-- In a callback a transition is deferred. -/
theorem Preserves.transitionDo_in_cb (h : Preserves env R) {fuel : ℕ} {p q : Process W} {t : CStr}
    {b : Bool} (hl : p.mach.locked = true) (hc : p.mach.inCb ≠ cbUnlocked)
    (hdo : machineTransitionDo env fuel p t = (q, some b)) : R p q := by
  have henter : ∀ run, transitionEnter env run p t = (q, some b) → R p q := by
    intro run hdo
    unfold transitionEnter at hdo
    rw [if_neg (show ¬ (!p.mach.locked) = true by simp [hl]), if_pos hc] at hdo
    split_ifs at hdo
    · obtain ⟨rfl, -⟩ := Prod.mk.inj hdo
      exact h.refl p
    · obtain ⟨rfl, -⟩ := Prod.mk.inj hdo
      exact h.trans (h.log p _ rfl) (h.defer _ _)
  cases fuel <;> exact henter _ hdo

/-- The pieces of a transition: what is set before its callbacks, around each of them, and between
the second one and the third. -/
structure Pieces (R : Process W → Process W → Prop) : Prop where
  chosen : ∀ p (tr : Addr), R p (p.setMach { p.mach with currentTransition := tr })
  entering : ∀ p wrp type tr, R p (p.entering wrp type tr)
  leaving : ∀ p wrp type tr result, R p (p.leaving wrp type tr result)
  moved : ∀ p tr, R p ((p.setMach
    { p.mach with currentState := (p.transition tr).toState }).record (.moved tr))

theorem Preserves.miscCbCall (h : Preserves env R) (hp : Pieces R)
    {run : Process W → CStr → Process W × Option Bool}
    (hrun : ∀ p t q b, run p t = (q, some b) → R p q) {p q : Process W} {wrp : WrapperRef}
    {type : CbType} {tr : Addr} (hq : miscCbCall env run p wrp type tr = (q, some ())) : R p q := by
  by_cases hf : (p.wrapper wrp).func = 0
  · unfold Estate.miscCbCall at hq
    rw [if_pos hf] at hq
    obtain ⟨rfl, -⟩ := Prod.mk.inj hq
    exact h.refl p
  · rw [miscCbCall_eq env run type tr hf] at hq
    split at hq
    · simp at hq
    · rename_i q' result hprog
      obtain ⟨rfl, -⟩ := Prod.mk.inj hq
      exact h.trans (hp.entering _ _ _ _) (h.trans (h.runProg hrun _ hprog) (hp.leaving _ _ _ _ _))

theorem Fires.of_pieces (h : Preserves env R) (hp : Pieces R) : Fires env R := by
  intro fuel p tr q hrun _ _ _ hq
  unfold fire at hq
  simp only [stateCbCall] at hq
  split at hq
  · simp at hq
  · rename_i q₁ hq₁
    split at hq
    · simp at hq
    · rename_i q₂ hq₂
      exact h.trans (hp.chosen p tr) (h.trans (h.miscCbCall hp hrun hq₁)
        (h.trans (h.miscCbCall hp hrun hq₂) (h.trans (hp.moved q₂ tr) (h.miscCbCall hp hrun hq))))

end Preserves

end Estate
