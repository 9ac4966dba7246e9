import Estate.Lib.Batch
import Estate.Proofs.Firing
import Estate.Proofs.Mempool
import Estate.Proofs.Order

/-!
# What a generated loader leaves in memory

A loader that ends has made the machine of its FSM: a structure for each state and each
transition, the array of each state as the generator has ordered it, and both ends of each
transition (`load_image`).
-/

namespace Estate

variable {W : Type}

section Build

variable {heap : Heap} {p q : Process W}

theorem mempoolStatePush_some {sz : Sizes} {mp mp' : Mempool} {a : ℕ}
    (h : mempoolStatePush sz mp = (some a, mp')) :
    a = mp.stackStates ∧ mp.stackStates + sz.state ≤ mp.stackTransits
      ∧ mp' = { mp with stackStates := mp.stackStates + sz.state } := by
  unfold mempoolStatePush at h
  simp only [] at h
  split_ifs at h with hroom <;> obtain ⟨ha, rfl⟩ := Prod.mk.inj h
  · simp at ha
  · exact ⟨(Option.some.inj ha).symm, not_lt.1 hroom, rfl⟩

@[simp] theorem State.sized_name (s : State) (n : UInt32) : (s.sized n).name = s.name := rfl

@[simp] theorem State.sized_transitCount (s : State) (n : UInt32) :
    (s.sized n).transitCount = n := rfl

theorem stateNew_spec {n : UInt32} {st : Addr} (h : stateNew heap p n = some (q, st))
    (hst : st ≠ 0) :
    st = p.mach.mempool.stackStates
      ∧ p.mach.mempool.stackStates + heap.sizes.state ≤ p.mach.mempool.stackTransits
      ∧ q.mach = { p.mach with mempool := { p.mach.mempool with
          stackStates := p.mach.mempool.stackStates + heap.sizes.state } }
      ∧ q.state = Function.update p.state st ((p.state st).sized n) := by
  rcases stateNew_cases h with ⟨-, hnull, -⟩ | ⟨hpush, rfl⟩
  · exact absurd hnull hst
  · obtain ⟨rfl, hroom, hmp⟩ := mempoolStatePush_some (Prod.ext hpush rfl)
    exact ⟨rfl, hroom, congrArg (fun mp => { p.mach with mempool := mp }) hmp, rfl⟩

theorem transitionNew_spec {tr : Addr} (h : transitionNew heap p = (q, tr)) (htr : tr ≠ 0) :
    tr = p.mach.mempool.stackTransits
      ∧ p.mach.mempool.stackTransits + heap.sizes.transition ≤ p.mach.mempool.endp
      ∧ q = p.setMempool { p.mach.mempool with
          stackTransits := p.mach.mempool.stackTransits + heap.sizes.transition } := by
  unfold transitionNew mempoolTransitionPush at h
  simp only [] at h
  split_ifs at h with hroom <;> obtain ⟨rfl, rfl⟩ := Prod.mk.inj h
  · exact absurd rfl htr
  · exact ⟨rfl, not_lt.1 hroom, rfl⟩

theorem stateInit_spec {st : Addr} {name : Stringshare} {trs : Option (List Addr)} {n : UInt32}
    {enterer exiter : CbCtor}
    (h : stateInit p st (some name) trs n (some enterer) (some exiter) = (q, true)) :
    st ≠ 0 ∧ n = (p.state st).transitCount ∧ q.mach = p.mach ∧ q.transition = p.transition
      ∧ q.state = Function.update p.state st { (p.state st).setTransit n trs with
          name := some name, enterer := enterer.wrapper, exiter := exiter.wrapper } := by
  unfold stateInit at h
  simp only [] at h
  split_ifs at h with hst hn
  · simp at h
  · simp at h
  · obtain ⟨rfl, -⟩ := Prod.mk.inj h
    exact ⟨hst, not_not.1 hn, by simp, by simp, by simp [Process.setState]⟩

theorem machineStateAdd_spec {st : Addr} (h : machineStateAdd p st = (q, true)) :
    q = p.setMempool { p.mach.mempool with statesReg := p.mach.mempool.statesReg + 1 } := by
  unfold machineStateAdd at h
  simp only [] at h
  split_ifs at h <;> obtain ⟨rfl, hb⟩ := Prod.mk.inj h
  · simp at hb
  · simp at hb
  · simp at hb
  · rfl

/-- The function of a wrapper and the key it is given. -/
def CbWrapper.Holds (w : CbWrapper) (func : Addr) (key : Option Stringshare) : Prop :=
  w.func = func ∧ w.key = key

theorem transitionInit_spec {tr src dst : Addr} {name : Stringshare} {cb enterer exiter : CbCtor}
    (h : transitionInit p tr (some name) src dst (some cb) (some enterer) (some exiter) =
      some (q, true)) :
    tr ≠ 0 ∧ q.mach = p.mach ∧ q.state = p.state
      ∧ (∀ a, a ≠ tr → q.transition a = p.transition a) ∧ (q.transition tr).name = some name
      ∧ (q.transition tr).fromState = src ∧ (q.transition tr).toState = dst
      ∧ (q.transition tr).cb.Holds cb.func (cb.shared cb.keyLen)
      ∧ (q.transition tr).stEnterer.Holds enterer.func (enterer.shared enterer.keyLen)
      ∧ (exiter.key = none → (q.transition tr).stExiter.Holds exiter.func none) := by
  unfold transitionInit at h
  simp only [] at h
  split_ifs at h with htr hsrc hdst
  · simp at h
  · simp at h
  · simp at h
  · split at h
    · simp at h
    · obtain ⟨rfl, -⟩ := Prod.mk.inj (Option.some.inj h)
      refine ⟨htr, by simp, by simp, fun a ha => by simp [ha], by simp, by simp, by simp, ?_, ?_,
        fun hx => ?_⟩
      · simp [CbWrapper.Holds]
      · simp [CbWrapper.Holds]
      · simp [CbWrapper.Holds, CbCtor.shared, hx]

theorem machineTransitionAdd_spec {tr : Addr} (h : machineTransitionAdd p tr = (q, true)) :
    q = p.setMempool { p.mach.mempool with transitReg := p.mach.mempool.transitReg + 1 } := by
  unfold machineTransitionAdd at h
  simp only [] at h
  split_ifs at h <;> obtain ⟨rfl, hb⟩ := Prod.mk.inj h
  · simp at hb
  · simp at hb
  · simp at hb
  · rfl

/-- A lock that takes effect names a state, and finds the machine complete. -/
theorem complete_of_machineLock {current : Addr} (hl : p.mach.locked = false)
    (h : (machineLock p current).mach.locked = true) :
    current ≠ 0 ∧ p.mach.mempool.statesReg = p.mach.statesCount
      ∧ p.mach.mempool.transitReg = p.mach.transitCount := by
  unfold machineLock at h
  split_ifs at h with h1 h2 h3
  · simp [hl] at h
  · simp [hl] at h
  · simp [hl] at h
  · exact ⟨h1, not_not.1 h2, not_not.1 h3⟩

theorem machineLock_complete {current : Addr} (hc : current ≠ 0)
    (hs : p.mach.mempool.statesReg = p.mach.statesCount)
    (ht : p.mach.mempool.transitReg = p.mach.transitCount) :
    machineLock p current =
      (p.setMach { p.mach with currentState := current, locked := true }).record
        (.locked p.mach.currentState current) := by
  unfold machineLock
  rw [if_neg hc, if_neg (not_not.2 hs), if_neg (not_not.2 ht)]

/-- Once locked, a machine can be locked again in any state. -/
theorem machineLock_again {current : Addr} (hl : p.mach.locked = false)
    (h : (machineLock p current).mach.locked = true) (a : Addr) (ha : a ≠ 0) :
    (machineLock (machineLock p current) a).mach =
      { p.mach with currentState := a, locked := true } := by
  obtain ⟨hc, hs, ht⟩ := complete_of_machineLock hl h
  rw [machineLock_complete hc hs ht, machineLock_complete ha (by exact hs) (by exact ht)]
  rfl

end Build

namespace Cc

open Lib

variable {heap : Heap} {prog : Program} {l l' : Loading W}

/-- A machine that no call has locked, and of which no callback has run. -/
structure Building (m : Machine) : Prop where
  locked : m.locked = false
  inCb : m.inCb = cbUnlocked
  cbDefer : m.cbDefer = []

theorem Building.setMempool {m : Machine} (h : Building m) (mp : Mempool) :
    Building { m with mempool := mp } :=
  ⟨h.locked, h.inCb, h.cbDefer⟩

theorem checked_some {r : Process W × Bool} {p : Process W} (h : checked r = some p) :
    r = (p, true) := by
  obtain ⟨q, b⟩ := r
  cases b <;> simp_all [checked]

theorem nonNull_some {r s : Process W × Addr} (h : nonNull r = some s) : r = s ∧ s.2 ≠ 0 := by
  unfold nonNull at h
  split_ifs at h with h0
  obtain rfl := Option.some.inj h
  exact ⟨rfl, h0⟩

theorem exec_stateNew {s : Stringshare} {n : ℕ}
    (h : Stmt.exec heap prog l (.stateNew s n) = some l') :
    l.proc.mach.mempool.stackStates ≠ 0
      ∧ l.proc.mach.mempool.stackStates + heap.sizes.state ≤ l.proc.mach.mempool.stackTransits
      ∧ l'.stateVar = Function.update l.stateVar s (some l.proc.mach.mempool.stackStates)
      ∧ l'.transitVar = l.transitVar
      ∧ l'.proc.mach = { l.proc.mach with mempool := { l.proc.mach.mempool with
          stackStates := l.proc.mach.mempool.stackStates + heap.sizes.state } }
      ∧ l'.proc.state = Function.update l.proc.state l.proc.mach.mempool.stackStates
          ((l.proc.state l.proc.mach.mempool.stackStates).sized (UInt32.ofNat n)) := by
  simp only [Stmt.exec, Option.bind_eq_bind, Option.bind_eq_some_iff, Option.some.injEq] at h
  obtain ⟨_, -, r, hnew, ⟨p, st⟩, hr, rfl⟩ := h
  obtain ⟨rfl, hst⟩ := nonNull_some hr
  obtain ⟨rfl, hroom, hmach, hstate⟩ := stateNew_spec hnew hst
  exact ⟨hst, hroom, rfl, rfl, hmach, hstate⟩

theorem exec_transitionNew {t : Stringshare}
    (h : Stmt.exec heap prog l (.transitionNew t) = some l') :
    l.proc.mach.mempool.stackTransits ≠ 0
      ∧ l.proc.mach.mempool.stackTransits + heap.sizes.transition ≤ l.proc.mach.mempool.endp
      ∧ l' = { l with
          proc := l.proc.setMempool { l.proc.mach.mempool with
            stackTransits := l.proc.mach.mempool.stackTransits + heap.sizes.transition }
          transitVar := Function.update l.transitVar t (some l.proc.mach.mempool.stackTransits) } := by
  simp only [Stmt.exec, Option.bind_eq_bind, Option.bind_eq_some_iff, Option.some.injEq] at h
  obtain ⟨_, -, ⟨p, tr⟩, hnew, rfl⟩ := h
  obtain ⟨hnew, htr⟩ := nonNull_some hnew
  obtain ⟨rfl, hroom, rfl⟩ := transitionNew_spec hnew htr
  exact ⟨htr, hroom, rfl⟩

/-- What `estate_state_init` leaves in the array of a state, which it has found to be as long. -/
theorem take_setTransit {s : Estate.State} {trs : List Stringshare} {array : List Addr}
    (hlen : array.length = trs.length) (hsmall : trs.length < 2 ^ 32) :
    (s.setTransit (UInt32.ofNat trs.length) (if trs = [] then none else some array)).transit.take
      (UInt32.ofNat trs.length).toNat = array := by
  rw [UInt32.toNat_ofNat_of_lt' (by simpa using hsmall)]
  by_cases ht : trs = []
  · subst ht
    simpa using hlen
  · rw [if_neg ht, State.setTransit, copyPointers,
      UInt32.toNat_ofNat_of_lt' (by simpa using hsmall), ← hlen, List.take_length,
      List.take_left']
    rfl

theorem mapM_length {α β : Type} {g : α → Option β} : ∀ {xs : List α} {ys : List β},
    xs.mapM g = some ys → ys.length = xs.length ∧ ∀ b, ys = xs.map fun x => (g x).getD b
  | [], ys, h => by
    simp only [List.mapM_nil, Option.pure_def, Option.some.injEq] at h
    simp [← h]
  | x :: xs, ys, h => by
    simp only [List.mapM_cons, Option.bind_eq_bind, Option.pure_def, Option.bind_eq_some_iff,
      Option.some.injEq] at h
    obtain ⟨y, hy, zs, hzs, rfl⟩ := h
    obtain ⟨hlen, hmap⟩ := mapM_length hzs
    exact ⟨by simp [hlen], fun b => by simp [hy, ← hmap b]⟩

theorem exec_stateInit {s : Stringshare} {trs : List Stringshare} {enterer exiter : CtorText}
    (h : Stmt.exec heap prog l (.stateInit s trs enterer exiter) = some l') :
    l'.stateVar = l.stateVar ∧ l'.transitVar = l.transitVar
      ∧ l'.proc.mach = { l.proc.mach with mempool := { l.proc.mach.mempool with
          statesReg := l.proc.mach.mempool.statesReg + 1 } }
      ∧ ∃ st array e x, l.stateVar s = some st ∧ array.length = trs.length
        ∧ array = (trs.map fun n => (l.transitVar n).getD 0)
        ∧ prog.ctor enterer = some e ∧ prog.ctor exiter = some x
        ∧ UInt32.ofNat trs.length = (l.proc.state st).transitCount
        ∧ l'.proc.state = Function.update l.proc.state st
          { (l.proc.state st).setTransit (UInt32.ofNat trs.length)
              (if trs = [] then none else some array) with
            name := some s, enterer := e.wrapper, exiter := x.wrapper } := by
  simp only [Stmt.exec, Option.bind_eq_bind, Option.bind_eq_some_iff, Option.some.injEq] at h
  obtain ⟨st, hst, array, harray, e, he, x, hx, p, hinit, q, hadd, rfl⟩ := h
  obtain ⟨-, hcount, hmach, -, hstate⟩ := stateInit_spec (checked_some hinit)
  obtain rfl := machineStateAdd_spec (checked_some hadd)
  obtain ⟨hlen, hmap⟩ := mapM_length harray
  refine ⟨rfl, rfl, ?_, st, array, e, x, hst, hlen, hmap 0, he, hx, hcount, hstate⟩
  simp only [Process.setMempool, Process.setMach, hmach]

theorem exec_transitionInit {t : Stringshare} {fromState toState : Option Stringshare}
    {cb enterer exiter : CtorText}
    (h : Stmt.exec heap prog l (.transitionInit t fromState toState cb enterer exiter) = some l') :
    l'.stateVar = l.stateVar ∧ l'.transitVar = l.transitVar ∧ l'.proc.state = l.proc.state
      ∧ l'.proc.mach = { l.proc.mach with mempool := { l.proc.mach.mempool with
          transitReg := l.proc.mach.mempool.transitReg + 1 } }
      ∧ ∃ tr c e x, l.transitVar t = some tr
        ∧ (∀ a, a ≠ tr → l'.proc.transition a = l.proc.transition a)
        ∧ (l'.proc.transition tr).name = some t
        ∧ fromState.bind l.stateVar = some (l'.proc.transition tr).fromState
        ∧ toState.bind l.stateVar = some (l'.proc.transition tr).toState
        ∧ prog.ctor cb = some c ∧ prog.ctor enterer = some e ∧ prog.ctor exiter = some x
        ∧ (l'.proc.transition tr).cb.Holds c.func (c.shared c.keyLen)
        ∧ (l'.proc.transition tr).stEnterer.Holds e.func (e.shared e.keyLen)
        ∧ (x.key = none → (l'.proc.transition tr).stExiter.Holds x.func none) := by
  simp only [Stmt.exec, Option.bind_eq_bind, Option.bind_eq_some_iff, Option.some.injEq] at h
  obtain ⟨tr, htr, src, hsrc, dst, hdst, c, hc, e, he, x, hx, ⟨p, b⟩, hinit, q, hq, r, hadd, rfl⟩ := h
  obtain ⟨rfl, rfl⟩ := Prod.mk.inj (checked_some hq)
  obtain ⟨-, hmach, hstate, hframe, hname, hfrom, hto, hcb, hen, hex⟩ := transitionInit_spec hinit
  obtain rfl := machineTransitionAdd_spec (checked_some hadd)
  refine ⟨rfl, rfl, hstate, ?_, tr, c, e, x, htr, hframe, hname, ?_, ?_, hc, he, hx, hcb, hen, hex⟩
  · simp only [Process.setMempool, Process.setMach, hmach]
  · simpa only [Option.bind_eq_some_iff, Process.setMempool, Process.setMach, hfrom] using hsrc
  · simpa only [Option.bind_eq_some_iff, Process.setMempool, Process.setMach, hto] using hdst

/-- Variables that are not NULL hold different addresses, all of them below the top of a stack. -/
structure Apart (var : Stringshare → Option Addr) (top : ℕ) : Prop where
  injective : ∀ x y a, var x = some a → var y = some a → a ≠ 0 → x = y
  below : ∀ x a, var x = some a → a ≠ 0 → a < top

theorem declare_apart (names : List Stringshare) (top : ℕ) : Apart (declare names) top := by
  have hnull : ∀ x a, declare names x = some a → a = 0 := by
    intro x a h
    unfold declare at h
    split_ifs at h
    exact (Option.some.inj h).symm
  exact ⟨fun x _ a hx _ ha => absurd (hnull x a hx) ha, fun x a hx ha => absurd (hnull x a hx) ha⟩

theorem Apart.push {var : Stringshare → Option Addr} {top size : ℕ} (h : Apart var top)
    (hs : 0 < size) (n : Stringshare) :
    Apart (Function.update var n (some top)) (top + size) := by
  have hold : ∀ x a, x ≠ n → Function.update var n (some top) x = some a → a ≠ 0 →
      var x = some a ∧ a < top := by
    intro x a hx hxa ha
    rw [Function.update_of_ne hx] at hxa
    exact ⟨hxa, h.below x a hxa ha⟩
  have hnew : ∀ a, Function.update var n (some top) n = some a → a = top := by
    intro a ha
    rw [Function.update_self] at ha
    exact (Option.some.inj ha).symm
  constructor
  · intro x y a hx hy ha
    by_cases hxn : x = n <;> by_cases hyn : y = n
    · exact hxn.trans hyn.symm
    · subst hxn
      exact absurd (hnew a hx) (hold y a hyn hy ha).2.ne
    · subst hyn
      exact absurd (hnew a hy) (hold x a hxn hx ha).2.ne
    · exact h.injective x y a (hold x a hxn hx ha).1 (hold y a hyn hy ha).1 ha
  · intro x a hx ha
    by_cases hxn : x = n
    · subst hxn
      exact (hnew a hx).trans_lt (Nat.lt_add_of_pos_right hs)
    · exact (hold x a hxn hx ha).2.trans (Nat.lt_add_of_pos_right hs)

theorem Apart.map_nodup {α : Type} {name : α → Stringshare} {xs : List α}
    {var : Stringshare → Option Addr} {top : ℕ} (h : Apart var top) (hd : (xs.map name).Nodup)
    (hv : ∀ s ∈ xs, ∃ a, var (name s) = some a ∧ a ≠ 0) :
    (xs.map fun s => (var (name s)).getD 0).Nodup := by
  rw [← Function.comp_def (fun x => (var x).getD 0) name, ← List.map_map]
  refine hd.map_on ?_
  intro x hx y hy hxy
  obtain ⟨s, hs, rfl⟩ := List.mem_map.1 hx
  obtain ⟨u, hu, rfl⟩ := List.mem_map.1 hy
  obtain ⟨a, hsa, hne⟩ := hv s hs
  obtain ⟨b, hub, -⟩ := hv u hu
  rw [hsa, hub] at hxy
  exact h.injective _ _ a hsa (hub.trans (congrArg some hxy.symm)) hne

/-- A loader before its first call to an init function. -/
structure Allocating (l : Loading W) : Prop where
  building : Building l.proc.mach
  states : Apart l.stateVar l.proc.mach.mempool.stackStates
  transits : Apart l.transitVar l.proc.mach.mempool.stackTransits
  room : l.proc.mach.mempool.stackTransits ≤ l.proc.mach.mempool.endp
  unnamed : ∀ a, (l.proc.state a).name = none

/-- What is left of the stack of the transitions. -/
def Loading.spare (l : Loading W) : ℕ × ℕ :=
  (l.proc.mach.mempool.stackTransits, l.proc.mach.mempool.endp)

theorem allocStates_writes (spare : ℕ × ℕ) (tv : Stringshare → Option Addr) :
    Writes (fun (l : Loading W) s => (eachStatesGcAllocCb s).exec heap prog l)
      (fun l => Allocating l ∧ l.spare = spare ∧ l.transitVar = tv) Loading.stateVar State.name
      fun _ v => ∃ a, v = some a ∧ a ≠ 0 where
  keep := by
    rintro l s l' ⟨h, hspare, htv⟩ hexec
    obtain ⟨-, -, hsv, htv', hmach, hstate⟩ := exec_stateNew hexec
    refine ⟨⟨?_, ?_, ?_, ?_, fun a => ?_⟩, ?_, htv'.trans htv⟩
    · rw [hmach]
      exact h.building.setMempool _
    · rw [hsv, hmach]
      exact h.states.push heap.sizes.state_pos _
    · rw [htv', hmach]
      exact h.transits
    · rw [hmach]
      exact h.room
    · rw [hstate, Function.update_apply]
      split_ifs
      · exact h.unnamed _
      · exact h.unnamed a
    · rw [← hspare, Loading.spare, hmach]
      rfl
  write := by
    rintro l s l' - hexec
    obtain ⟨hne, -, hsv, -⟩ := exec_stateNew hexec
    exact ⟨_, by rw [hsv, Function.update_self], hne⟩
  frame := by
    rintro l s l' - hexec x hx
    obtain ⟨-, -, hsv, -⟩ := exec_stateNew hexec
    rw [hsv, Function.update_of_ne hx]

theorem allocTransits_writes (sv : Stringshare → Option Addr) (endp : ℕ) :
    Writes (fun (l : Loading W) t => (eachTransitionsGcAllocCb t).exec heap prog l)
      (fun l => Allocating l ∧ l.stateVar = sv ∧ l.spare.2 = endp) Loading.transitVar Transit.name
      fun _ v => ∃ a, v = some a ∧ a ≠ 0 where
  keep := by
    rintro l t l' ⟨h, hsv, hend⟩ hexec
    obtain ⟨-, hroom, rfl⟩ := exec_transitionNew hexec
    exact ⟨⟨h.building.setMempool _, h.states, h.transits.push heap.sizes.transition_pos _, hroom,
      h.unnamed⟩, hsv, hend⟩
  write := by
    rintro l t l' - hexec
    obtain ⟨hne, -, rfl⟩ := exec_transitionNew hexec
    exact ⟨_, by simp, hne⟩
  frame := by
    rintro l t l' - hexec x hx
    obtain ⟨-, -, rfl⟩ := exec_transitionNew hexec
    simp [hx]

theorem allocTransits_count {ts : List Transit}
    (h : ts.foldlM (fun (l : Loading W) t => (eachTransitionsGcAllocCb t).exec heap prog l) l
      = some l') : l'.spare.1 = l.spare.1 + ts.length * heap.sizes.transition := by
  have hstep : ∀ (l : Loading W) t l', (eachTransitionsGcAllocCb t).exec heap prog l = some l' →
      l'.spare.1 = l.spare.1 + heap.sizes.transition := by
    intro l t l' hexec
    obtain ⟨-, -, rfl⟩ := exec_transitionNew hexec
    rfl
  exact foldlM_count hstep h

/-- Each state has taken its block of the stack, and there was room for it. -/
theorem allocStates_room {ss : List State}
    (hroom : l.proc.mach.mempool.stackStates ≤ l.proc.mach.mempool.stackTransits)
    (h : ss.foldlM (fun (l : Loading W) s => (eachStatesGcAllocCb s).exec heap prog l) l
      = some l') :
    l.proc.mach.mempool.stackStates + ss.length * heap.sizes.state ≤
      l.proc.mach.mempool.stackTransits := by
  have hcount : ∀ (l : Loading W) s l', (eachStatesGcAllocCb s).exec heap prog l = some l' →
      l'.proc.mach.mempool.stackStates = l.proc.mach.mempool.stackStates + heap.sizes.state := by
    intro l s l' hexec
    obtain ⟨-, -, -, -, hmach, -⟩ := exec_stateNew hexec
    rw [hmach]
  have hstep : ∀ (l₁ : Loading W) s l₂, (l₁.proc.mach.mempool.stackStates ≤
      l₁.proc.mach.mempool.stackTransits ∧
        l₁.proc.mach.mempool.stackTransits = l.proc.mach.mempool.stackTransits) →
      (eachStatesGcAllocCb s).exec heap prog l₁ = some l₂ →
      l₂.proc.mach.mempool.stackStates ≤ l₂.proc.mach.mempool.stackTransits ∧
        l₂.proc.mach.mempool.stackTransits = l.proc.mach.mempool.stackTransits := by
    rintro l₁ s l₂ ⟨-, htop⟩ hexec
    obtain ⟨-, hroom, -, -, hmach, -⟩ := exec_stateNew hexec
    rw [hmach]
    exact ⟨hroom, htop⟩
  have hkept := foldlM_inv hstep ⟨hroom, rfl⟩ h
  rw [← foldlM_count hcount h, ← hkept.2]
  exact hkept.1

/-! ## The initialisations -/

/-- What a loader leaves in a state. -/
structure StateInitialised (prog : Program) (tv : Stringshare → Option Addr) (s : State)
    (v : Estate.State) : Prop where
  name : v.name = some s.name
  count : v.transitCount = UInt32.ofNat s.trs.length
  array : s.trs.length < 2 ^ 32 →
    v.transit.take v.transitCount.toNat = s.trs.map fun n => (tv n).getD 0
  enterer : ∃ c, prog.ctor (ctorText s.enterer) = some c ∧ v.enterer = c.wrapper
  exiter : ∃ c, prog.ctor (ctorText s.exiter) = some c ∧ v.exiter = c.wrapper

/-- What a loader leaves in a transition. -/
structure TransitInitialised (prog : Program) (sv : Stringshare → Option Addr) (t : Transit)
    (v : Estate.Transition) : Prop where
  name : v.name = some t.name
  source : t.fromState.bind sv = some v.fromState
  target : t.toState.bind sv = some v.toState
  cb : ∃ c, prog.ctor (ctorText t.cb) = some c ∧ v.cb.Holds c.func (c.shared c.keyLen)
  enterer : ∃ c, prog.ctor (ctorText t.enterer) = some c ∧
    v.stEnterer.Holds c.func (c.shared c.keyLen)
  exiter : ∃ c, prog.ctor (ctorText t.exiter) = some c ∧
    (c.key = none → v.stExiter.Holds c.func none)

theorem setTransit_count (v : Estate.State) (n : UInt32) (trs : Option (List Addr)) :
    (v.setTransit n trs).transitCount = v.transitCount := by
  cases trs <;> rfl

theorem initStates_writes (sv tv : Stringshare → Option Addr) :
    Writes (fun (l : Loading W) s => (eachStatesGcInitCb s).exec heap prog l)
      (fun l => l.stateVar = sv ∧ l.transitVar = tv ∧ Building l.proc.mach)
      (fun l => l.proc.state) (fun s => (sv s.name).getD 0)
      (StateInitialised prog tv) where
  keep := by
    rintro l s l' ⟨hsv, htv, hb⟩ hexec
    obtain ⟨hsv', htv', hmach, -⟩ := exec_stateInit hexec
    exact ⟨hsv'.trans hsv, htv'.trans htv, hmach ▸ hb.setMempool _⟩
  write := by
    rintro l s l' ⟨rfl, rfl, -⟩ hexec
    obtain ⟨-, -, -, st, array, e, x, hst, hlen, harray, he, hx, hcount, hstate⟩ :=
      exec_stateInit hexec
    have hat : l'.proc.state ((l.stateVar s.name).getD 0) = { (l.proc.state st).setTransit
        (UInt32.ofNat s.trs.length) (if s.trs = [] then none else some array) with
        name := some s.name, enterer := e.wrapper, exiter := x.wrapper } := by
      rw [hstate, hst]
      exact Function.update_self ..
    rw [hat]
    refine ⟨rfl, (setTransit_count _ _ _).trans hcount.symm, fun hsmall => ?_, ⟨e, he, rfl⟩, x, hx,
      rfl⟩
    simp only [setTransit_count, ← hcount]
    rw [take_setTransit hlen hsmall, harray]
  frame := by
    rintro l s l' ⟨rfl, -, -⟩ hexec a ha
    obtain ⟨-, -, -, st, array, e, x, hst, -, -, -, -, -, hstate⟩ := exec_stateInit hexec
    rw [hst] at ha
    rw [hstate]
    exact Function.update_of_ne ha ..

theorem initTransits_writes (sv tv : Stringshare → Option Addr) (mem : Addr → Estate.State) :
    Writes (fun (l : Loading W) t => (eachTransitionsGcInitCb t).exec heap prog l)
      (fun l => l.stateVar = sv ∧ l.transitVar = tv ∧ Building l.proc.mach ∧ l.proc.state = mem)
      (fun l => l.proc.transition) (fun t => (tv t.name).getD 0)
      (TransitInitialised prog sv) where
  keep := by
    rintro l t l' ⟨hsv, htv, hb, hmem⟩ hexec
    obtain ⟨hsv', htv', hstate, hmach, -⟩ := exec_transitionInit hexec
    exact ⟨hsv'.trans hsv, htv'.trans htv, hmach ▸ hb.setMempool _, hstate.trans hmem⟩
  write := by
    rintro l t l' ⟨rfl, rfl, -⟩ hexec
    obtain ⟨-, -, -, -, tr, c, e, x, htr, -, hname, hfrom, hto, hc, he, hx, hcb, hen, hex⟩ :=
      exec_transitionInit hexec
    rw [htr]
    exact ⟨hname, hfrom, hto, ⟨c, hc, hcb⟩, ⟨e, he, hen⟩, x, hx, hex⟩
  frame := by
    rintro l t l' ⟨-, rfl, -⟩ hexec a ha
    obtain ⟨-, -, -, -, tr, c, e, x, htr, hframe, -⟩ := exec_transitionInit hexec
    rw [htr] at ha
    exact hframe a ha

/-! ## The whole loader -/

theorem machineNew_spec {states transitions : UInt32} {mach : Machine}
    (h : machineNew heap states transitions = some mach) :
    Building mach ∧ Fresh heap.sizes states transitions mach.mempool := by
  obtain ⟨hpool, -, ⟨hl, hin, hdefer⟩, -⟩ := machineNew_some h
  exact ⟨⟨hl, hin, hdefer⟩, mempoolNew_fresh heap.sizes hpool⟩

/-- The machine of an FSM in memory, its states and transitions at the given addresses. -/
structure Image (f : Fsm) (array : Stringshare → List Stringshare) (st tr : Stringshare → Addr)
    (p : Process W) : Prop where
  named : ∀ x ∈ f.states, (p.state (st x)).name = some x
  only : ∀ a x, (p.state a).name = some x → x ∈ f.states ∧ a = st x
  array : ∀ x ∈ f.states, (p.state (st x)).transit.take (p.state (st x)).transitCount.toNat
    = (array x).map tr
  transit : ∀ t ∈ f.transits, (p.transition (tr t.name)).name = some t.name
  source : ∀ t ∈ f.transits, ∃ x ∈ f.states, t.fromState = some x
    ∧ (p.transition (tr t.name)).fromState = st x
  target : ∀ t ∈ f.transits, ∃ x ∈ f.states, t.toState = some x
    ∧ (p.transition (tr t.name)).toState = st x

theorem Image.of_shape {f : Fsm} {array : Stringshare → List Stringshare}
    {st tr : Stringshare → Addr} {p q : Process W} (h : Image f array st tr p)
    (hs : SameShape p q) : Image f array st tr q where
  named x hx := (hs.state _).1.trans (h.named x hx)
  only a x ha := h.only a x ((hs.state a).1.symm.trans ha)
  array x hx := by
    rw [(hs.state _).2.1, (hs.state _).2.2]
    exact h.array x hx
  transit t ht := (hs.transition _).1.trans (h.transit t ht)
  source t ht := by
    obtain ⟨x, hx, htx, hsrc⟩ := h.source t ht
    exact ⟨x, hx, htx, (hs.transition _).2.1.trans hsrc⟩
  target t ht := by
    obtain ⟨x, hx, htx, hdst⟩ := h.target t ht
    exact ⟨x, hx, htx, (hs.transition _).2.2.trans hdst⟩

section Whole

variable {ord : HashOrder} {gen : Placement} {f : Fsm} {shares : Stringshare → ℤ} {w : W}

/-- A loader between its allocations and its initialisations. -/
structure Allocated (f : Fsm) (l : Loading W) : Prop where
  allocating : Allocating l
  states : ∀ x ∈ f.states, ∃ a, l.stateVar x = some a ∧ a ≠ 0
  states_only : ∀ x a, l.stateVar x = some a → x ∈ f.states
  transits : ∀ t ∈ f.transits, ∃ a, l.transitVar t.name = some a ∧ a ≠ 0
  small : f.transits.length < 2 ^ 32

theorem gatherTrs_name (s : State) : (gatherTrs ord gen f s).name = s.name := by
  simp only [gatherTrs, foldl_eachTransitionsGcFromCacheCb]

theorem declare_some {names : List Stringshare} {x : Stringshare} {a : Addr}
    (h : declare names x = some a) : x ∈ names := by
  unfold declare at h
  split_ifs at h with hx
  exact hx

/-- The allocations of a loader. -/
theorem allocated_of_run (hf : f.Named) {mach : Machine}
    (hmach : machineNew heap (UInt32.ofNat f.states.entries.length)
      (UInt32.ofNat f.transitions.entries.length) = some mach)
    {l₁ l₂ : Loading W}
    (h₁ : ((ord.foreach f.states).map (gatherTrs ord gen f)).foldlM
      (fun l s => (eachStatesGcAllocCb s).exec heap prog l)
      { proc := .fresh mach shares w
        stateVar := declare ((ord.foreach f.states).map State.name)
        transitVar := declare ((ord.foreach f.transitions).map Transit.name) } = some l₁)
    (h₂ : (ord.foreach f.transitions).foldlM
      (fun l t => (eachTransitionsGcAllocCb t).exec heap prog l) l₁ = some l₂) :
    Allocated f l₂ := by
  obtain ⟨hbuilding, hfresh⟩ := machineNew_spec hmach
  have hnames := foreach_names hf.state_name ord
  have hmap : ((ord.foreach f.states).map (gatherTrs ord gen f)).map State.name
      = (ord.foreach f.states).map State.name := by
    rw [List.map_map]
    exact List.map_congr_left fun s _ => gatherTrs_name s
  have hstack : mach.mempool.stackTransits ≤ mach.mempool.endp := by
    rw [hfresh.endp]
    exact Nat.le_add_right _ _
  have hstart : Allocating (W := W)
      { proc := .fresh mach shares w
        stateVar := declare ((ord.foreach f.states).map State.name)
        transitVar := declare ((ord.foreach f.transitions).map Transit.name) } :=
    ⟨hbuilding, declare_apart _ _, declare_apart _ _, hstack, fun _ => rfl⟩
  obtain ⟨⟨ha₁, hspare, htv⟩, hpost₁, hframe₁⟩ := (allocStates_writes _ _).batch
    (by rw [hmap]; exact hnames.nodup_iff.2 f.states.keys_nodup) ⟨hstart, rfl, rfl⟩ h₁
  obtain ⟨⟨ha₂, hsv, hend⟩, hpost₂, -⟩ := (allocTransits_writes _ _).batch
    ((foreach_names hf.transit_name ord).nodup_iff.2 f.transitions.keys_nodup) ⟨ha₁, rfl, rfl⟩ h₂
  rw [hmap] at hframe₁
  refine ⟨ha₂, ?_, ?_, ?_, ?_⟩
  · intro x hx
    have hmem : x ∈ (ord.foreach f.states).map State.name := hnames.mem_iff.2 hx
    rw [← hmap] at hmem
    obtain ⟨s, hs, rfl⟩ := List.mem_map.1 hmem
    rw [hsv]
    exact hpost₁ s hs
  · intro x a hx
    by_contra hne
    rw [hsv, hframe₁ x (fun hmem => hne (hnames.mem_iff.1 hmem))] at hx
    exact hne (hnames.mem_iff.1 (declare_some hx))
  · intro t ht
    exact hpost₂ t ((foreach_transitions_perm ord f).mem_iff.2 ht)
  · -- The pool has room for as many transitions as its counter says, and all of them were pushed.
    have hcount := allocTransits_count h₂
    have hroom := ha₂.room
    have hlen : (ord.foreach f.transitions).length = f.transits.length :=
      (foreach_transitions_perm ord f).length_eq
    have hfit : f.transits.length * heap.sizes.transition
        ≤ (UInt32.ofNat f.transitions.entries.length).toNat * heap.sizes.transition := by
      have h1 : l₂.spare.1 ≤ l₂.spare.2 := hroom
      rw [hend, hspare, hcount, hspare, hlen] at h1
      have h2 : mach.mempool.endp = _ := hfresh.endp
      have h3 : mach.mempool.stackTransits + f.transits.length * heap.sizes.transition
        ≤ mach.mempool.endp := h1
      omega
    exact (Nat.le_of_mul_le_mul_right hfit heap.sizes.transition_pos).trans_lt
      (UInt32.toNat_lt _)

/-- Once its variables are set, a loader initialises every state and every transition, each at its
own place, and nothing else. -/
theorem inits_of_allocated (hf : f.Named) {l₂ l₃ l₄ : Loading W} (ha : Allocated f l₂)
    (h₃ : (ord.foreach (gatheredStates ord gen f)).foldlM
      (fun l s => (eachStatesGcInitCb s).exec heap prog l) l₂ = some l₃)
    (h₄ : (ord.foreach f.transitions).foldlM
      (fun l t => (eachTransitionsGcInitCb t).exec heap prog l) l₃ = some l₄) :
    l₄.stateVar = l₂.stateVar ∧ Building l₄.proc.mach ∧
      (∀ s ∈ ord.foreach (gatheredStates ord gen f), StateInitialised prog l₂.transitVar s
        (l₄.proc.state ((l₂.stateVar s.name).getD 0))) ∧
      (∀ a, a ∉ (ord.foreach (gatheredStates ord gen f)).map
        (fun s => (l₂.stateVar s.name).getD 0) → l₄.proc.state a = l₂.proc.state a) ∧
      ∀ t ∈ f.transits, TransitInitialised prog l₂.stateVar t
        (l₄.proc.transition ((l₂.transitVar t.name).getD 0)) := by
  have hstates : ((ord.foreach (gatheredStates ord gen f)).map
      fun s => (l₂.stateVar s.name).getD 0).Nodup :=
    ha.allocating.states.map_nodup (gatheredStates_names hf).1 fun s hs =>
      ha.states s.name (mem_foreach_gatheredStates hf hs).1
  have htransits : ((ord.foreach f.transitions).map
      fun t => (l₂.transitVar t.name).getD 0).Nodup :=
    ha.allocating.transits.map_nodup
      ((foreach_names hf.transit_name ord).nodup_iff.2 f.transitions.keys_nodup)
      fun t ht => ha.transits t ((foreach_transitions_perm ord f).mem_iff.1 ht)
  obtain ⟨⟨hsv₃, htv₃, hb₃⟩, hpost₃, hframe₃⟩ := (initStates_writes l₂.stateVar l₂.transitVar).batch
    hstates ⟨rfl, rfl, ha.allocating.building⟩ h₃
  obtain ⟨⟨hsv₄, -, hb₄, hmem₄⟩, hpost₄, -⟩ :=
    (initTransits_writes l₂.stateVar l₂.transitVar l₃.proc.state).batch
      htransits ⟨hsv₃, htv₃, hb₃, rfl⟩ h₄
  rw [hmem₄]
  exact ⟨hsv₄, hb₄, hpost₃, hframe₃,
    fun t ht => hpost₄ t ((foreach_transitions_perm ord f).mem_iff.2 ht)⟩

/-- The states of the FSM as they are initialised. -/
theorem exists_gathered (hf : f.Named) {x : Stringshare} (hx : x ∈ f.states) :
    ∃ s ∈ ord.foreach (gatheredStates ord gen f), s.name = x ∧ s.trs = outgoing ord gen f x := by
  obtain ⟨s, hs, rfl⟩ := List.mem_map.1 (((gatheredStates_names hf).2 x).2 hx)
  exact ⟨s, hs, rfl, (mem_foreach_gatheredStates hf hs).2⟩

theorem length_outgoing_lt (hsmall : f.transits.length < 2 ^ 32) (x : Stringshare) :
    (outgoing ord gen f x).length < 2 ^ 32 := by
  refine lt_of_le_of_lt ?_ hsmall
  rw [outgoing, (qsort_perm _).length_eq, List.length_map,
    ← (foreach_transitions_perm ord f).length_eq]
  exact List.length_filter_le _ _

/-- An end of a transition that has been initialised is a state of the FSM. -/
theorem Allocated.state_of_end {l₂ : Loading W} (ha : Allocated f l₂) {o : Option Stringshare}
    {a : Addr} (h : o.bind l₂.stateVar = some a) :
    ∃ x ∈ f.states, o = some x ∧ a = (l₂.stateVar x).getD 0 := by
  obtain ⟨x, rfl, hx⟩ := Option.bind_eq_some_iff.1 h
  exact ⟨x, ha.states_only x a hx, rfl, by rw [hx]; rfl⟩

/-- A loader makes the image of its FSM. -/
theorem image_of_allocated (hf : f.Named) {l₂ l₃ l₄ : Loading W} (ha : Allocated f l₂)
    (h₃ : (ord.foreach (gatheredStates ord gen f)).foldlM
      (fun l s => (eachStatesGcInitCb s).exec heap prog l) l₂ = some l₃)
    (h₄ : (ord.foreach f.transitions).foldlM
      (fun l t => (eachTransitionsGcInitCb t).exec heap prog l) l₃ = some l₄) :
    l₄.stateVar = l₂.stateVar ∧ Building l₄.proc.mach ∧
      Image f (outgoing ord gen f) (fun x => (l₂.stateVar x).getD 0)
        (fun n => (l₂.transitVar n).getD 0) l₄.proc := by
  obtain ⟨hsv, hb, hstates, hframe, htransits⟩ := inits_of_allocated hf ha h₃ h₄
  refine ⟨hsv, hb, ?_, ?_, ?_, ?_, ?_, ?_⟩
  · intro x hx
    obtain ⟨s, hs, rfl, -⟩ := exists_gathered hf hx
    exact (hstates s hs).name
  · intro a x hax
    by_cases hmem' : a ∈ (ord.foreach (gatheredStates ord gen f)).map
        fun s => (l₂.stateVar s.name).getD 0
    · obtain ⟨s, hs, rfl⟩ := List.mem_map.1 hmem'
      rw [(hstates s hs).name] at hax
      obtain rfl := Option.some.inj hax
      exact ⟨(mem_foreach_gatheredStates hf hs).1, rfl⟩
    · rw [hframe a hmem', ha.allocating.unnamed] at hax
      simp at hax
  · intro x hx
    obtain ⟨s, hs, rfl, htrs⟩ := exists_gathered hf hx
    rw [(hstates s hs).array (htrs ▸ length_outgoing_lt ha.small s.name), htrs]
  · intro t ht
    exact (htransits t ht).name
  · intro t ht
    exact ha.state_of_end (htransits t ht).source
  · intro t ht
    exact ha.state_of_end (htransits t ht).target

/-- The four batches of a loader that comes to its end. -/
theorem run_batches (h : (loader ord gen f).run heap prog shares w = some l) :
    ∃ mach, machineNew heap (UInt32.ofNat f.states.entries.length)
        (UInt32.ofNat f.transitions.entries.length) = some mach ∧
      ∃ l₁ l₂ l₃ : Loading W,
        ((ord.foreach f.states).map (gatherTrs ord gen f)).foldlM
          (fun l s => (eachStatesGcAllocCb s).exec heap prog l)
          { proc := .fresh mach shares w
            stateVar := declare ((ord.foreach f.states).map State.name)
            transitVar := declare ((ord.foreach f.transitions).map Transit.name) } = some l₁ ∧
        (ord.foreach f.transitions).foldlM
          (fun l t => (eachTransitionsGcAllocCb t).exec heap prog l) l₁ = some l₂ ∧
        (ord.foreach (gatheredStates ord gen f)).foldlM
          (fun l s => (eachStatesGcInitCb s).exec heap prog l) l₂ = some l₃ ∧
        (ord.foreach f.transitions).foldlM
          (fun l t => (eachTransitionsGcInitCb t).exec heap prog l) l₃ = some l := by
  obtain ⟨mach, hmach, hbody⟩ := Option.bind_eq_some_iff.1 h
  simp only [loader, List.foldlM_append, Option.bind_eq_bind, Option.bind_eq_some_iff,
    List.foldlM_map] at hbody
  obtain ⟨l₁, h₁, l₂, h₂, l₃, h₃, h₄⟩ := hbody
  refine ⟨mach, hmach, l₁, l₂, l₃, ?_, h₂, h₃, h₄⟩
  rw [List.foldlM_map]
  exact h₁

/-- A loader that comes to its end has numbers of states and transitions that fit their
counters. -/
theorem counts_of_run (hf : f.Named) (h : (loader ord gen f).run heap prog shares w = some l) :
    f.states.entries.length < 2 ^ 32 ∧ f.transitions.entries.length < 2 ^ 32 := by
  obtain ⟨mach, hmach, l₁, l₂, l₃, h₁, h₂, -⟩ := run_batches h
  constructor
  · obtain ⟨-, hfresh⟩ := machineNew_spec hmach
    have htop := hfresh.transits
    have hroom := allocStates_room (hfresh.transits ▸ Nat.le_add_right _ _) h₁
    rw [List.length_map, (foreach_perm ord f.states).length_eq, List.length_map] at hroom
    have hfit : f.states.entries.length * heap.sizes.state ≤
        (UInt32.ofNat f.states.entries.length).toNat * heap.sizes.state :=
      Nat.le_of_add_le_add_left (hroom.trans htop.le)
    exact (Nat.le_of_mul_le_mul_right hfit heap.sizes.state_pos).trans_lt (UInt32.toNat_lt _)
  · have hsmall := (allocated_of_run hf hmach h₁ h₂).small
    rwa [Fsm.transits, List.length_map] at hsmall

theorem run_image (hf : f.Named) (h : (loader ord gen f).run heap prog shares w = some l) :
    Building l.proc.mach ∧ (∀ x ∈ f.states, ∃ a, l.stateVar x = some a ∧ a ≠ 0) ∧
      ∃ tr, Image f (outgoing ord gen f) (fun x => (l.stateVar x).getD 0) tr l.proc := by
  obtain ⟨mach, hmach, l₁, l₂, l₃, h₁, h₂, h₃, h₄⟩ := run_batches h
  have ha := allocated_of_run hf hmach h₁ h₂
  obtain ⟨hsv, hb, himage⟩ := image_of_allocated hf ha h₃ h₄
  rw [hsv]
  exact ⟨hb, ha.states, _, himage⟩

end Whole

end Cc

end Estate
