import Estate.Proofs.Free
import Estate.Proofs.Runs

/-!
# The data of callbacks

The first call of a callback copies the data that is bound to its key into the wrapper, and later
ones take the copy. Bindings never change once made, so a copy is what the hash holds for the key
as long as the machine lives: each callback receives what an uncached lookup would give at that
moment, the value of the first binding of its key (`callbacks_served`).
-/

namespace Estate

open Lib

variable {W : Type}

/-- What a wrapper has cached is bound to its key. -/
def Cached (p : Process W) : Prop :=
  ∀ r, (p.wrapper r).data ≠ 0 → ∃ key, (p.wrapper r).key = some key ∧
    hashFind p.mach.data (some key) = some (p.wrapper r).data

def Action.binding (key : Stringshare) : Action → Option Addr
  | .bound k value => if k = key then some value else none
  | _ => none

/-- The value that was first bound to a key. -/
def firstBound (h : List Action) (key : Stringshare) : Option Addr :=
  h.findSome? (Action.binding key)

/-- What is bound in a process, and what it comes to be after some actions. -/
def boundAfter (p : Process W) (h : List Action) : Option Stringshare → Option Addr
  | none => none
  | some key => (hashFind p.mach.data (some key)).or (firstBound h key)

/-- The bindings of a machine are those it had and the first ones made since, and each callback was
called with what was bound to its key then. -/
structure Serves (p q : Process W) (h : List Action) : Prop where
  cached : Cached q
  history : q.history = p.history ++ h
  bound : ∀ key, hashFind q.mach.data key = boundAfter p h key
  served : ∀ (i : ℕ) (key : Option Stringshare) (data : Addr) (found : Option Addr)
    (current : Addr), h[i]? = some (.invoked key data found current) →
      found = boundAfter p (h.take i) key ∧ data = found.getD 0

theorem boundAfter_append {p q : Process W} {h : List Action}
    (hb : ∀ key, hashFind q.mach.data key = boundAfter p h key) (h' : List Action)
    (key : Option Stringshare) : boundAfter q h' key = boundAfter p (h ++ h') key := by
  cases key with
  | none => rfl
  | some key =>
    simp only [boundAfter] at hb ⊢
    rw [hb (some key)]
    simp only [firstBound, List.findSome?_append, Option.or_assoc]

theorem Serves.trans {p q r : Process W} {h h' : List Action} (hs : Serves p q h)
    (hs' : Serves q r h') : Serves p r (h ++ h') where
  cached := hs'.cached
  history := by rw [hs'.history, hs.history, List.append_assoc]
  bound := fun key => (hs'.bound key).trans (boundAfter_append hs.bound h' key)
  served := by
    intro i key data found current hi
    rcases entry_append hi with ⟨hi, htake⟩ | ⟨hi, htake⟩ <;> rw [htake]
    · exact hs.served i key data found current hi
    · rw [← boundAfter_append hs.bound]
      exact hs'.served _ key data found current hi

/-- Nothing is bound, and no callback called. -/
theorem Serves.of_eq {p q : Process W} (hc : Cached p) (hw : q.wrapper = p.wrapper)
    (hd : q.mach.data = p.mach.data) (hh : q.history = p.history) : Serves p q [] where
  cached := by
    intro r hr
    rw [hw] at hr ⊢
    rw [hd]
    exact hc r hr
  history := by rw [hh, List.append_nil]
  bound := by
    intro key
    cases key <;> simp [boundAfter, firstBound, hd, hashFind]
  served := fun i _ _ _ _ hi => by simp at hi

/-- An action that binds nothing and calls no callback. -/
theorem Serves.of_action {p q : Process W} {a : Action} (hc : Cached p) (hw : q.wrapper = p.wrapper)
    (hd : q.mach.data = p.mach.data) (hh : q.history = p.history ++ [a])
    (hb : ∀ key, a.binding key = none)
    (hi : ∀ key data found current, a ≠ .invoked key data found current) : Serves p q [a] where
  cached := by
    intro r hr
    rw [hw] at hr ⊢
    rw [hd]
    exact hc r hr
  history := hh
  bound := by
    intro key
    cases key <;> simp [boundAfter, firstBound, hd, hashFind, hb]
  served := by
    intro i key data found current h
    exact absurd (List.mem_singleton.1 (List.mem_of_getElem? h)).symm (hi key data found current)

/-- A stringshare taken and given back. -/
theorem Serves.bracket {p q : Process W} {s : Stringshare} {h : List Action}
    (hs : Serves (p.share s) q h) : Serves p (q.unshare s) h :=
  ⟨hs.cached, hs.history, hs.bound, hs.served⟩

theorem hashFind_insert (h : EinaHash Addr) (key : Stringshare) (value : Addr) (key' : Stringshare) :
    hashFind (h.insert key value) (some key') =
      if key' = key then some value else hashFind h (some key') := by
  simp only [hashFind]
  split_ifs with hk
  · subst hk
    exact AList.lookup_insert h
  · exact AList.lookup_insert_ne hk

theorem dataSet_serves {p : Process W} (hp : Cached p) {key : Stringshare} {value : Addr}
    (hnone : hashFind p.mach.data (some key) = none) :
    Serves p (((p.share key).setMach
      { (p.share key).mach with data := hashAdd p.mach.data (some key) value }).record
        (.bound key value)) [.bound key value] where
  cached := by
    intro r hr
    obtain ⟨k, hk, hfind⟩ := hp r hr
    refine ⟨k, hk, ?_⟩
    have hne : k ≠ key := by
      rintro rfl
      rw [hnone] at hfind
      simp at hfind
    exact (hashFind_insert _ _ _ _).trans ((if_neg hne).trans hfind)
  history := rfl
  bound := by
    intro k
    cases k with
    | none => rfl
    | some k =>
      refine (hashFind_insert _ _ _ _).trans ?_
      by_cases hk : k = key
      · subst hk
        simp [boundAfter, firstBound, Action.binding, hnone]
      · simp [boundAfter, firstBound, Action.binding, hk, Ne.symm hk]
  served := by
    intro i k data found current h
    simpa using List.mem_singleton.1 (List.mem_of_getElem? h)

/-- A call that is no transition binds at most one key that was free. -/
theorem apiCall_serves {env : Env W} {run : Process W → CStr → Process W × Option Bool}
    {p q : Process W} {c : Call} {b : Bool} (hp : Cached p) (hc : ∀ t, c ≠ .transitionDo t)
    (hcall : apiCall env run p c = (q, some b)) : ∃ h, Serves p q h := by
  cases apiCall_step env hc hcall with
  | same => exact ⟨[], .of_eq hp rfl rfl rfl⟩
  | refused shr => exact ⟨[], .of_eq hp rfl rfl rfl⟩
  | bound shr value hnone => exact ⟨_, dataSet_serves hp hnone⟩
  | locked current _ => exact ⟨_, .of_action hp rfl rfl rfl (fun _ => rfl) (by simp)⟩
  | registered mp _ => exact ⟨[], .of_eq hp rfl rfl rfl⟩
  | globalData data => exact ⟨[], .of_eq hp rfl rfl rfl⟩
  | errorCb func => exact ⟨[], .of_eq hp rfl rfl rfl⟩

/-! ## The callbacks -/

/-- After `_estate_misc_cb_cache` the data of a wrapper is what the hash holds for its key. -/
theorem miscCbCache_data {p : Process W} (hp : Cached p) (wrp : WrapperRef) :
    (miscCbCache p.mach (p.wrapper wrp)).1.key = (p.wrapper wrp).key ∧
      (miscCbCache p.mach (p.wrapper wrp)).1.data =
        (hashFind p.mach.data (p.wrapper wrp).key).getD 0 := by
  have hcached := hp wrp
  unfold miscCbCache
  split
  · rename_i hkey
    refine ⟨rfl, ?_⟩
    by_contra hne
    rw [hkey] at hne hcached
    obtain ⟨key, hk, -⟩ := hcached hne
    simp at hk
  · rename_i key hkey
    split_ifs with hdata
    · split
      · rename_i hfind
        exact ⟨rfl, by rw [hkey, hfind]; exact hdata⟩
      · rename_i data hfind
        exact ⟨rfl, by rw [hkey, hfind]; rfl⟩
    · obtain ⟨k, hk, hfind⟩ := hcached hdata
      exact ⟨rfl, by rw [hk, hfind]; rfl⟩

theorem entering_serves {p : Process W} (hp : Cached p) (wrp : WrapperRef) (type : CbType)
    (tr : Addr) : ∃ h, Serves p (p.entering wrp type tr) h := by
  obtain ⟨hkey, hdata⟩ := miscCbCache_data hp wrp
  obtain ⟨w, hw⟩ : ∃ w, w = (miscCbCache p.mach (p.wrapper wrp)).1 := ⟨_, rfl⟩
  rw [← hw] at hkey hdata
  have hmach := entering_mach p wrp type tr
  refine ⟨[.invoked w.key w.data (hashFind p.mach.data w.key) p.mach.currentState], ?_, ?_, ?_, ?_⟩
  · intro r hr
    rw [entering_wrapper, ← hw] at hr ⊢
    rw [hmach]
    split_ifs at hr ⊢ with h
    · rw [hdata, ← hkey] at hr ⊢
      rcases hf : hashFind p.mach.data w.key with _ | d
      · rw [hf] at hr
        exact absurd rfl hr
      · rcases hk : w.key with _ | key
        · rw [hk] at hf
          simp [hashFind] at hf
        · exact ⟨key, rfl, by rw [← hk, hf]; rfl⟩
    · exact hp r hr
  · rw [entering_history, hw]
  · intro key
    rw [hmach]
    cases key <;> simp [boundAfter, firstBound, Action.binding, hashFind]
  · intro i key data found current hi
    have hlt := (List.getElem?_eq_some_iff.1 hi).1
    obtain rfl : i = 0 := by simpa using hlt
    simp only [List.getElem?_cons_zero, Option.some.injEq, Action.invoked.injEq] at hi
    obtain ⟨rfl, rfl, rfl, -⟩ := hi
    refine ⟨?_, by rw [hdata, hkey]⟩
    rcases w.key with _ | key <;> simp [boundAfter, firstBound, hashFind]

theorem leaving_serves {p : Process W} (hp : Cached p) (wrp : WrapperRef) (type : CbType)
    (tr : Addr) (result : ℤ) : Serves p (p.leaving wrp type tr result) [] where
  cached := by
    intro r hr
    rw [leaving_wrapper] at hr ⊢
    rw [leaving_mach]
    split_ifs at hr ⊢ with h
    · exact hp wrp hr
    · exact hp r hr
  history := by rw [leaving_history, List.append_nil]
  bound := by
    intro key
    rw [leaving_mach]
    cases key <;> simp [boundAfter, firstBound, hashFind]
  served := fun i _ _ _ _ hi => by simp at hi

/-! ## A run -/

/-- What a run of a machine with sound copies does. -/
def KeepsServing (p q : Process W) : Prop := Cached p → ∃ h, Serves p q h

theorem keepsServing_preserves (env : Env W) : Preserves env KeepsServing where
  refl p hp := ⟨[], .of_eq hp rfl rfl rfl⟩
  trans := by
    intro p q r h h' hp
    obtain ⟨evs, hs⟩ := h hp
    obtain ⟨evs', hs'⟩ := h' hs.cached
    exact ⟨evs ++ evs', hs.trans hs'⟩
  world p w hp := ⟨[], .of_eq hp rfl rfl rfl⟩
  log p e _ hp := ⟨[], .of_eq hp rfl rfl rfl⟩
  call := fun hc hcall hp => apiCall_serves hp hc hcall
  defer p l hp := ⟨[], .of_eq hp rfl rfl rfl⟩
  bracket := by
    intro p q s h hp
    obtain ⟨evs, hs⟩ := h hp
    exact ⟨evs, hs.bracket⟩

theorem keepsServing_fires (env : Env W) : Fires env KeepsServing :=
  .of_pieces (keepsServing_preserves env)
    { chosen := fun p tr hp => ⟨[], .of_eq hp rfl rfl rfl⟩
      entering := fun p wrp type tr hp => entering_serves hp wrp type tr
      leaving := fun p wrp type tr result hp => ⟨[], leaving_serves hp wrp type tr result⟩
      moved := fun p tr hp => ⟨_, .of_action hp rfl rfl rfl (fun _ => rfl) (by simp)⟩ }

section Wrappers

variable {P : CbWrapper → Prop} {p q : Process W}

theorem setState_wrappers (h : ∀ r, P (p.wrapper r)) {st : Addr} {s : State} (he : P s.enterer)
    (hx : P s.exiter) (r : WrapperRef) : P ((p.setState st s).wrapper r) := by
  have hr := h r
  cases r <;> simp only [Process.wrapper, Process.setState, Function.update_apply] at hr ⊢
  · split_ifs
    · exact he
    · exact hr
  · split_ifs
    · exact hx
    · exact hr
  · exact hr

theorem setTransition_wrappers (h : ∀ r, P (p.wrapper r)) {tr : Addr} {t : Transition}
    (hc : P t.cb) (r : WrapperRef) : P ((p.setTransition tr t).wrapper r) := by
  have hr := h r
  cases r <;> simp only [Process.wrapper, Process.setTransition, Function.update_apply] at hr ⊢
  · exact hr
  · exact hr
  · split_ifs
    · exact hc
    · exact hr

theorem same_wrappers (h : ∀ r, P (p.wrapper r)) (hs : q.state = p.state)
    (ht : q.transition = p.transition) (r : WrapperRef) : P (q.wrapper r) := by
  have hr := h r
  cases r <;> simpa [Process.wrapper, hs, ht] using hr

theorem ctor_wrappers (hctor : ∀ c : CbCtor, P c.wrapper) {s : CbWrapper} (hs : P s)
    (c : Option CbCtor) : P ((c.map CbCtor.wrapper).getD s) := by
  cases c
  · exact hs
  · exact hctor _

/-- What holds of the wrapper of a constructor, whatever its function and its key, holds of all the
wrappers that building a machine writes. -/
theorem buildCall_wrappers (hctor : ∀ c : CbCtor, P c.wrapper)
    (hcb : ∀ w func key, P w → P { w with func := func, key := key }) {heap : Heap} {c : BuildCall}
    (h : buildCall heap p c = some q) (hp : ∀ r, P (p.wrapper r)) (r : WrapperRef) :
    P (q.wrapper r) := by
  cases c with
  | stateNew n =>
    obtain ⟨⟨q', st⟩, hq, rfl⟩ := Option.map_eq_some_iff.1 h
    have hmp : ∀ mp r, P ((p.setMempool mp).wrapper r) := fun mp => same_wrappers hp rfl rfl
    rcases stateNew_cases hq with ⟨-, -, rfl⟩ | ⟨-, rfl⟩
    · exact hmp _ _
    · refine setState_wrappers (hmp _) ?_ ?_ r
      · exact hp (.enterer st)
      · exact hp (.exiter st)
  | transitionNew =>
    have hq : (transitionNew heap p).1 = q := Option.some.inj h
    rw [← hq]
    exact same_wrappers hp rfl rfl _
  | stateInit st name trs n enterer exiter =>
    have hq := Option.some.inj h
    rcases stateInit_cases p st name trs n enterer exiter with hc | ⟨name', hc⟩ <;>
      rw [← hq, hc]
    · exact hp _
    · obtain ⟨he, hx⟩ := setTransit_wrappers (p.state st) n trs
      refine setState_wrappers (same_wrappers hp ?_ ?_) (ctor_wrappers hctor ?_ enterer)
        (ctor_wrappers hctor ?_ exiter) _
      · simp [shareKey_frame]
      · simp [shareKey_frame]
      · rw [he]
        exact hp (.enterer st)
      · rw [hx]
        exact hp (.exiter st)
  | transitionInit tr name src dst cb enterer exiter =>
    obtain ⟨⟨q', b⟩, hq, rfl⟩ := Option.map_eq_some_iff.1 h
    rcases transitionInit_cases hq with ⟨rfl, -⟩ | ⟨-, n, len, rfl⟩
    · exact hp _
    · refine setTransition_wrappers (same_wrappers hp ?_ ?_) ?_ _
      · simp [shareKey_frame]
      · simp [shareKey_frame]
      · cases cb
        · exact hp (.cb tr)
        · exact hcb _ _ _ (hp (.cb tr))
  | stateAdd st =>
    have hq := Option.some.inj h
    obtain ⟨hs, ht, -⟩ := (machineAdd_frame p st).1
    exact same_wrappers hp (hq ▸ hs) (hq ▸ ht) _
  | transitionAdd tr =>
    have hq := Option.some.inj h
    obtain ⟨hs, ht, -⟩ := (machineAdd_frame p tr).2
    exact same_wrappers hp (hq ▸ hs) (hq ▸ ht) _

theorem build_wrappers (hctor : ∀ c : CbCtor, P c.wrapper)
    (hcb : ∀ w func key, P w → P { w with func := func, key := key }) {heap : Heap} :
    ∀ {calls : List BuildCall} {p q : Process W}, build heap p calls = some q →
      (∀ r, P (p.wrapper r)) → ∀ r, P (q.wrapper r)
  | [], p, q, h, hp => by
    obtain rfl : p = q := Option.some.inj h
    exact hp
  | c :: calls, p, q, h, hp => by
    obtain ⟨p', hc, hb⟩ := build_cons.1 h
    exact build_wrappers hctor hcb hb (buildCall_wrappers hctor hcb hc hp)

end Wrappers

/-- No wrapper has cached anything. -/
def Uncached (p : Process W) : Prop := ∀ r, (p.wrapper r).data = 0

/-- Building a machine binds nothing and caches nothing. -/
theorem build_uncached {heap : Heap} {calls : List BuildCall} {p q : Process W}
    (h : build heap p calls = some q) (hp : Uncached p) :
    Uncached q ∧ q.mach.data = p.mach.data := by
  obtain ⟨mp, hmp⟩ := build_mach h
  refine ⟨?_, by rw [hmp]⟩
  exact build_wrappers (P := fun w => w.data = 0) (fun _ => rfl) (fun _ _ _ hw => hw) h hp

theorem Uncached.cached {p : Process W} (h : Uncached p) : Cached p :=
  fun r hr => absurd (h r) hr

theorem BuiltLocked.locked {heap : Heap} {p : Process W} (h : BuiltLocked heap p) :
    p.mach.locked = true := by
  obtain @⟨_, _, _, _, _, _, _, _, -, -, -, hl⟩ := h
  exact hl

/-- So does locking it. -/
theorem BuiltLocked.uncached {heap : Heap} {p : Process W} (h : BuiltLocked heap p) :
    Uncached p ∧ p.mach.data = ∅ := by
  obtain @⟨_, _, _, _, _, _, p, s₀, hnew, hb, -, -⟩ := h
  obtain ⟨hcalm, hdata⟩ := build_uncached hb (fun r => by cases r <;> rfl)
  obtain ⟨hstate, htr, hlock, -⟩ := machineLock_frame p s₀
  exact ⟨same_wrappers (P := fun w => w.data = 0) hcalm hstate htr,
    hlock.trans (hdata.trans (machineNew_some hnew).2.2.2)⟩

/-- Over any run of a machine that was built and locked, with calls made by callbacks, the hash holds
for each key its first binding, each callback is called with what the hash holds for the key of its
wrapper at that moment, and a refused binding changes none. -/
theorem callbacks_served {env : Env W} {heap : Heap} {p q : Process W} (hp : BuiltLocked heap p)
    (hrun : Run env p q) :
    (∃ h, q.history = p.history ++ h ∧
      (∀ key, hashFind q.mach.data (some key) = firstBound h key) ∧
      ∀ (i : ℕ) (key : Option Stringshare) (data : Addr) (found : Option Addr) (current : Addr),
        h[i]? = some (.invoked key data found current) →
          data = found.getD 0 ∧ found = key.bind (firstBound (h.take i))) ∧
      ∀ (key : CStr) (value : Addr), (machineDataSet env q key value).2 = false →
        (machineDataSet env q key value).1.mach.data = q.mach.data := by
  obtain ⟨hcalm, hnone⟩ := hp.uncached
  obtain ⟨h, hs⟩ := (keepsServing_preserves env).run (keepsServing_fires env) hrun hcalm.cached
  have hafter : ∀ h' key, boundAfter p h' key = key.bind (firstBound h') := by
    intro h' key
    cases key <;> simp [boundAfter, hnone, hashFind]
  refine ⟨⟨h, hs.history, fun key => (hs.bound (some key)).trans (hafter h _), ?_⟩, ?_⟩
  · intro i key data found current hi
    obtain ⟨hfound, hdata⟩ := hs.served i key data found current hi
    exact ⟨hdata, hfound.trans (hafter _ _)⟩
  · intro key value
    unfold machineDataSet
    split_ifs
    · exact fun _ => rfl
    · exact fun _ => rfl
    · exact fun _ => rfl
    · simp only []
      split
      · exact fun _ => rfl
      · split_ifs
        · exact fun hf => absurd hf (by simp)
        · exact fun _ => rfl

/-- Two states joined by `a`; leaving the first one is told what is bound to `bell`. -/
def keyed : List BuildCall :=
  [.stateNew 1, .stateNew 0, .transitionNew,
    .stateInit 4224 (some ['x']) (some [4400]) 1 none (some ⟨5, some "bell".toList, 4⟩),
    .stateAdd 4224,
    .stateInit 4312 (some ['y']) none 0 none none, .stateAdd 4312,
    .transitionInit 4400 (some ['a']) 4224 4312 none none none, .transitionAdd 4400]

/-- The program that uses it, with the strings `a` and `bell`. -/
def ringing : Env Unit :=
  { forwarding with deref := fun _ t => if t = 20 then ['a'] else "bell".toList }

theorem keyed_apart : BuiltApart roomyHeap 2 1 (.fresh newMachine.mach (fun _ => 0) ()) keyed where
  pushed kind := by cases kind <;> decide
  own kind := by cases kind <;> decide

theorem keyed_locked : ∃ p,
    build roomyHeap (.fresh newMachine.mach (fun _ => 0) ()) keyed = some p ∧
    BuiltLocked roomyHeap (machineLock p 4224) := by
  obtain ⟨p, hb, hl⟩ : ∃ p, build roomyHeap (.fresh newMachine.mach (fun _ => 0) ()) keyed = some p ∧
      (machineLock p 4224).mach.locked = true := ⟨_, rfl, rfl⟩
  exact ⟨p, hb, .intro newMachine_new hb keyed_apart hl⟩

/-- The machine is locked, `bell` is bound, and `a` is performed. -/
theorem keyed_served : ∃ p, build roomyHeap (.fresh newMachine.mach (fun _ => 0) ()) keyed = some p ∧
    ∃ q, Run ringing (machineLock p 4224) q ∧
      q.history = [.locked 0 4224, .bound "bell".toList 99,
        .invoked (some "bell".toList) 99 (some 99) 4224, .moved 4400] ∧
      (∃ h, q.history = (machineLock p 4224).history ++ h ∧
        (∀ key, hashFind q.mach.data (some key) = firstBound h key) ∧
        ∀ (i : ℕ) (key : Option Stringshare) (data : Addr) (found : Option Addr) (current : Addr),
          h[i]? = some (.invoked key data found current) →
            data = found.getD 0 ∧ found = key.bind (firstBound (h.take i))) ∧
      ∀ (key : CStr) (value : Addr), (machineDataSet ringing q key value).2 = false →
        (machineDataSet ringing q key value).1.mach.data = q.mach.data := by
  obtain ⟨p, hb, hlocked⟩ := keyed_locked
  obtain ⟨hdo, hhist⟩ : (machineTransitionDo ringing 1
        (machineDataSet ringing (machineLock p 4224) 21 99).1 20).2 = some true ∧
      (machineTransitionDo ringing 1
        (machineDataSet ringing (machineLock p 4224) 21 99).1 20).1.history =
          [.locked 0 4224, .bound "bell".toList 99,
            .invoked (some "bell".toList) 99 (some 99) 4224, .moved 4400] := by
    obtain rfl := Option.some.inj hb
    exact ⟨rfl, rfl⟩
  have hbound : Run ringing (machineLock p 4224)
      (machineDataSet ringing (machineLock p 4224) 21 99).1 :=
    @Run.call _ _ _ _ _ 0 (.dataSet 21 99) _ .start rfl
  have hrun : Run ringing (machineLock p 4224) (machineTransitionDo ringing 1
      (machineDataSet ringing (machineLock p 4224) 21 99).1 20).1 :=
    @Run.call _ _ _ _ _ 1 (.transitionDo 20) true hbound (Prod.ext rfl hdo)
  exact ⟨p, hb, _, hrun, hhist, callbacks_served hlocked hrun⟩

end Estate
