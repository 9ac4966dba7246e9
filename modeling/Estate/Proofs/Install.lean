import Estate.Proofs.Free

/-!
# The callbacks an initialisation installs

`estate_state_init` takes the function and the key of each wrapper from that wrapper's own
constructor. `estate_transition_init` does so but for the key of the exiter, which is as long as
the constructor of the enterer says (`exiterKeyLen`), and there may be none.
-/

namespace Estate

variable {W : Type}

/-- Two wrappers hold one function and one key. -/
def SameCallback (w w' : CbWrapper) : Prop := w.func = w'.func ∧ w.key = w'.key

/-- A wrapper holds the function of a constructor and the bytes of its key that its length asks for,
and what it held before where there is none. -/
def Installed (ctor : Option CbCtor) (before after : CbWrapper) : Prop :=
  match ctor with
  | none => SameCallback after before
  | some c =>
    after.func = c.func ∧ after.key = c.key.map fun key => key.takeD c.keyLen.toNat '\x00'

/-- What is installed in a wrapper depends on nothing but its own constructor. -/
theorem Installed.eq {ctor : Option CbCtor} {before after after' : CbWrapper}
    (h : Installed ctor before after) (h' : Installed ctor before after') :
    SameCallback after after' := by
  cases ctor <;> exact ⟨h.1.trans h'.1.symm, h.2.trans h'.2.symm⟩

section Init

variable (p : Process W)

/-- `estate_state_init` installs the callbacks of a state, if it succeeds. -/
def StateInstalls (st : Addr) (name : Option Stringshare) (transitions : Option (List Addr))
    (transitCount : UInt32) (enterer exiter : Option CbCtor) : Prop :=
  ∀ q, stateInit p st name transitions transitCount enterer exiter = (q, true) →
    Installed enterer (p.state st).enterer (q.state st).enterer ∧
      Installed exiter (p.state st).exiter (q.state st).exiter

/-- `estate_transition_init` reads no constructor through NULL, and installs the callbacks of a
transition if it succeeds. -/
def TransitionInstalls (tr : Addr) (name : Option Stringshare) (fromState toState : Addr)
    (cb stEnterer stExiter : Option CbCtor) : Prop :=
  ∃ q b, transitionInit p tr name fromState toState cb stEnterer stExiter = some (q, b) ∧
    (b = true →
      Installed cb (p.transition tr).cb (q.transition tr).cb ∧
        Installed stEnterer (p.transition tr).stEnterer (q.transition tr).stEnterer ∧
        Installed stExiter (p.transition tr).stExiter (q.transition tr).stExiter)

/-- An exiter with a key has beside it an enterer that gives the same length. -/
def ExiterKeyFits (stEnterer stExiter : Option CbCtor) : Prop :=
  ∀ c, stExiter = some c → c.key ≠ none → ∃ e, stEnterer = some e ∧ e.keyLen = c.keyLen

variable {p}

theorem stateInit_installs (st : Addr) (name : Option Stringshare)
    (transitions : Option (List Addr)) (transitCount : UInt32) (enterer exiter : Option CbCtor) :
    StateInstalls p st name transitions transitCount enterer exiter := by
  intro q hq
  rcases stateInit_cases p st name transitions transitCount enterer exiter with h | ⟨n, h⟩
  · simp [h] at hq
  · rw [h, Prod.mk.injEq] at hq
    obtain ⟨rfl, -⟩ := hq
    have hwrappers := setTransit_wrappers (p.state st) transitCount transitions
    have hinstalled : ∀ (ctor : Option CbCtor) (before : CbWrapper),
        Installed ctor before ((ctor.map CbCtor.wrapper).getD before) := by
      intro ctor before
      cases ctor <;> exact ⟨rfl, rfl⟩
    simp only [Process.setState, Function.update_self, State.inited]
    rw [hwrappers.1, hwrappers.2]
    exact ⟨hinstalled _ _, hinstalled _ _⟩

section Transition

variable {tr fromState toState : Addr} {name : Option Stringshare}
  {cb stEnterer stExiter : Option CbCtor}

/-- Whatever the length, only the key of the exiter depends on it. -/
theorem inited_installed (t : Transition) (n : Stringshare) (len : UInt32) :
    Installed cb t.cb (t.inited n fromState toState cb stEnterer stExiter len).cb ∧
      Installed stEnterer t.stEnterer
        (t.inited n fromState toState cb stEnterer stExiter len).stEnterer := by
  constructor
  · cases cb <;> exact ⟨rfl, rfl⟩
  · cases stEnterer <;> exact ⟨rfl, rfl⟩

/-- Keys of different lengths are different. -/
theorem takeD_eq_iff {key : List Char} {len len' : UInt32} :
    key.takeD len.toNat '\x00' = key.takeD len'.toNat '\x00' ↔ len = len' := by
  refine ⟨fun h => UInt32.toNat_inj.1 ?_, fun h => h ▸ rfl⟩
  simpa using congrArg List.length h

/-- The exiter is installed when the length is that of its key. -/
theorem inited_exiter_iff (t : Transition) (n : Stringshare) (len : UInt32) :
    Installed stExiter t.stExiter
        (t.inited n fromState toState cb stEnterer stExiter len).stExiter ↔
      ∀ c, stExiter = some c → c.key ≠ none → len = c.keyLen := by
  rcases stExiter with _ | ⟨func, key, keyLen⟩
  · exact iff_of_true ⟨rfl, rfl⟩ (by simp)
  · simp only [Installed, Transition.inited, CbCtor.shared, true_and, Option.some.injEq,
      forall_eq']
    cases key <;> simp [takeD_eq_iff]

/-- The length that is taken for the exiter's key exists, and is that of the key. -/
theorem exiterKeyLen_good_iff : (∃ len, exiterKeyLen stEnterer stExiter = some len ∧
      ∀ c, stExiter = some c → c.key ≠ none → len = c.keyLen) ↔
    ExiterKeyFits stEnterer stExiter := by
  unfold exiterKeyLen ExiterKeyFits
  rcases stExiter with _ | ⟨func, key, keyLen⟩
  · simp
  · cases key with
    | none => simp
    | some key => cases stEnterer <;> simp

theorem transitionInstalls_iff :
    TransitionInstalls p tr name fromState toState cb stEnterer stExiter ↔
      (tr = 0 ∨ name = none ∨ fromState = 0 ∨ toState = 0) ∨ ExiterKeyFits stEnterer stExiter := by
  by_cases hargs : tr = 0 ∨ name = none ∨ fromState = 0 ∨ toState = 0
  · exact iff_of_true ⟨p, false, transitionInit_refused hargs, by simp⟩ (.inl hargs)
  obtain ⟨htr, hname, hsrc, hdst⟩ : tr ≠ 0 ∧ name ≠ none ∧ fromState ≠ 0 ∧ toState ≠ 0 := by
    simpa [not_or] using hargs
  obtain ⟨n, rfl⟩ := Option.ne_none_iff_exists'.1 hname
  rw [or_iff_right hargs, ← exiterKeyLen_good_iff]
  unfold TransitionInstalls
  rw [transitionInit_some htr hsrc hdst]
  constructor
  · rintro ⟨q, b, hq, h⟩
    obtain ⟨len, hlen, hq⟩ := Option.map_eq_some_iff.1 hq
    obtain ⟨rfl, rfl⟩ := Prod.mk.inj hq
    have hex := (h rfl).2.2
    simp only [Process.setTransition, Function.update_self] at hex
    exact ⟨len, hlen, (inited_exiter_iff _ _ _).1 hex⟩
  · rintro ⟨len, hlen, h⟩
    rw [hlen]
    refine ⟨_, true, rfl, fun _ => ?_⟩
    simp only [Process.setTransition, Function.update_self]
    obtain ⟨hcb, henter⟩ := inited_installed (p.transition tr) n len
    exact ⟨hcb, henter, (inited_exiter_iff _ _ _).2 h⟩

end Transition

end Init

/-- Two initialisations of one object install the same callback wherever they are given the same
constructor. -/
def Independent (p : Process W) : Prop :=
  (∀ st name trs count enterer enterer' exiter exiter' q q',
    stateInit p st name trs count enterer exiter = (q, true) →
    stateInit p st name trs count enterer' exiter' = (q', true) →
    (enterer = enterer' → SameCallback (q.state st).enterer (q'.state st).enterer) ∧
      (exiter = exiter' → SameCallback (q.state st).exiter (q'.state st).exiter)) ∧
  ∀ tr name fromState toState cb cb' stEnterer stEnterer' stExiter stExiter' q q',
    ExiterKeyFits stEnterer stExiter → ExiterKeyFits stEnterer' stExiter' →
    transitionInit p tr name fromState toState cb stEnterer stExiter = some (q, true) →
    transitionInit p tr name fromState toState cb' stEnterer' stExiter' = some (q', true) →
    (cb = cb' → SameCallback (q.transition tr).cb (q'.transition tr).cb) ∧
      (stEnterer = stEnterer' →
        SameCallback (q.transition tr).stEnterer (q'.transition tr).stEnterer) ∧
      (stExiter = stExiter' → SameCallback (q.transition tr).stExiter (q'.transition tr).stExiter)

theorem independent (p : Process W) : Independent p := by
  constructor
  · intro st name trs count enterer enterer' exiter exiter' q q' hq hq'
    have h := stateInit_installs _ _ _ _ _ _ q hq
    have h' := stateInit_installs _ _ _ _ _ _ q' hq'
    refine ⟨?_, ?_⟩ <;> rintro rfl
    · exact h.1.eq h'.1
    · exact h.2.eq h'.2
  · intro tr name fromState toState cb cb' enterer enterer' exiter exiter' q q' hfit hfit' hq hq'
    have hinst : ∀ {cb enterer exiter : Option CbCtor} {q : Process W},
        ExiterKeyFits enterer exiter →
        transitionInit p tr name fromState toState cb enterer exiter = some (q, true) →
        Installed cb (p.transition tr).cb (q.transition tr).cb ∧
          Installed enterer (p.transition tr).stEnterer (q.transition tr).stEnterer ∧
          Installed exiter (p.transition tr).stExiter (q.transition tr).stExiter := by
      intro cb enterer exiter q hfit hq
      obtain ⟨r, b, hr, h⟩ := transitionInstalls_iff.2 (.inr hfit)
      obtain ⟨rfl, rfl⟩ := Prod.mk.inj (Option.some.inj (hq.symm.trans hr))
      exact h rfl
    have h := hinst hfit hq
    have h' := hinst hfit' hq'
    refine ⟨?_, ?_, ?_⟩ <;> rintro rfl
    · exact h.1.eq h'.1
    · exact h.2.1.eq h'.2.1
    · exact h.2.2.eq h'.2.2

/-- The callbacks of a state are installed one by one. Those of a transition are if and only if an
exiter with a key has beside it an enterer of the same key length, and are independent then. -/
theorem ctors_installed_iff (p : Process W) :
    (∀ st name transitions transitCount enterer exiter,
      StateInstalls p st name transitions transitCount enterer exiter) ∧
    (∀ tr name fromState toState cb stEnterer stExiter,
      TransitionInstalls p tr name fromState toState cb stEnterer stExiter ↔
        (tr = 0 ∨ name = none ∨ fromState = 0 ∨ toState = 0) ∨
          ExiterKeyFits stEnterer stExiter) ∧
    Independent p :=
  ⟨fun _ _ _ _ _ _ => stateInit_installs _ _ _ _ _ _,
    fun _ _ _ _ _ _ _ => transitionInstalls_iff, independent p⟩

/-- The constructor of an exiter with a key. -/
def keyedExiter : CbCtor := ⟨8, some "bell".toList, 4⟩

/-- An exiter alone has its key read through NULL. Beside an enterer with another length its own key
is cut, or goes on with what lies behind it. -/
theorem keyedExiter_not_installed :
    ¬ TransitionInstalls newMachine 4400 (some ['t']) 4224 4312 none none (some keyedExiter) ∧
      ¬ TransitionInstalls newMachine 4400 (some ['t']) 4224 4312 none (some ⟨16, none, 0⟩)
        (some keyedExiter) ∧
      ¬ TransitionInstalls newMachine 4400 (some ['t']) 4224 4312 none
        (some ⟨16, some "light".toList, 5⟩) (some keyedExiter) ∧
      transitionInit newMachine 4400 (some ['t']) 4224 4312 none none (some keyedExiter) = none := by
  have hcut : ∀ e : CbCtor, e.keyLen ≠ keyedExiter.keyLen →
      ¬ TransitionInstalls newMachine 4400 (some ['t']) 4224 4312 none (some e)
        (some keyedExiter) := by
    rintro e he h
    rcases transitionInstalls_iff.1 h with hargs | hfits
    · exact absurd hargs (by decide)
    · obtain ⟨e', he', hlen⟩ := hfits keyedExiter rfl (by decide)
      exact he (Option.some.inj he' ▸ hlen)
  refine ⟨?_, hcut _ (by decide), hcut _ (by decide), rfl⟩
  rintro ⟨q, b, hq, -⟩
  simp [transitionInit, exiterKeyLen, keyedExiter] at hq

end Estate
