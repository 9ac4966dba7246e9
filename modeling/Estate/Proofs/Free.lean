import Estate.Life
import Estate.Proofs.Mempool

/-!
# What `estate_machine_free` releases

Pushes and registrations are counted apart: `estate_machine_free` releases, from the top of each
stack down, as many slots as were registered, whichever these were. A construction that is complete,
or of which nothing was registered, is released rightly; one abandoned in between is released
rightly exactly when all its calls came back and the registered slots are the last ones pushed
(`machineFree_iff`).
-/

namespace Estate

open Lib

variable {W : Type} {heap : Heap}

/-- The announced room of one kind starts at its top. -/
theorem push_top (sz : Sizes) (mp : Mempool) (p kind : Push) :
    (push sz mp p).2.top kind = mp.top kind + if p = kind then kind.size sz else 0 := by
  cases p <;> cases kind <;>
    simp only [push, mempoolStatePush, mempoolTransitionPush, Mempool.top, Push.size, reduceCtorEq,
      if_false, if_true, Nat.add_zero] <;>
    split_ifs <;> rfl

theorem push_some {sz : Sizes} {mp : Mempool} {p : Push} {a : ℕ} (h : (push sz mp p).1 = some a) :
    a = mp.top p := by
  cases p <;> simp only [push, mempoolStatePush, mempoolTransitionPush] at h <;>
    split_ifs at h <;> exact (Option.some.inj h).symm

/-- The results of the pushes of one kind. -/
def results (sz : Sizes) (mp : Mempool) (ops : List Push) (kind : Push) : List (Option ℕ) :=
  ((pushes sz mp ops).filter fun r => r.1 = kind).map Prod.snd

theorem results_cons (sz : Sizes) (mp : Mempool) (p : Push) (ops : List Push) (kind : Push) :
    results sz mp (p :: ops) kind = (if p = kind then [(push sz mp p).1] else []) ++
      results sz (push sz mp p).2 ops kind := by
  simp only [results, pushes, List.filter_cons]
  split_ifs with h h' h'
  · rfl
  · simp at h
    exact absurd h h'
  · simp [h'] at h
  · rfl

theorem results_length (sz : Sizes) (kind : Push) :
    ∀ (mp : Mempool) (ops : List Push), (results sz mp ops kind).length = ops.count kind
  | _, [] => rfl
  | mp, p :: ops => by
    rw [results_cons, List.length_append, results_length, List.count_cons]
    by_cases h : p = kind <;> simp [h, Nat.add_comm]

/-- A slot lies as many blocks above the start of its region as pushes came before. -/
theorem results_handed (sz : Sizes) (kind : Push) :
    ∀ (mp : Mempool) (ops : List Push), Handed (mp.top kind) (kind.size sz) (results sz mp ops kind)
  | _, [], i, a, h => by simp [results, pushes] at h
  | mp, p :: ops, i, a, h => by
    have ih := results_handed sz kind (push sz mp p).2 ops
    rw [results_cons] at h
    by_cases hp : p = kind
    · subst hp
      rw [if_pos rfl] at h
      cases i with
      | zero =>
        simp only [List.singleton_append, List.getElem?_cons_zero, Option.some.injEq] at h
        rw [push_some h]
        simp
      | succ i =>
        simp only [List.singleton_append, List.getElem?_cons_succ] at h
        rw [ih i a h, push_top, if_pos rfl]
        ring
    · rw [if_neg hp, List.nil_append] at h
      rw [ih i a h, push_top, if_neg hp, Nat.add_zero]

/-- The slots of a machine that is built within what was announced do not overlap. -/
theorem BuiltApart.disjoint {states transitions : UInt32} {mach : Machine} {p : Process W}
    {calls : List BuildCall} (hnew : machineNew heap states transitions = some mach)
    (h : BuiltApart heap states transitions p calls) {i j : ℕ} {r r' : Push} {a b : Addr}
    (hij : i < j)
    (hi : (pushes heap.sizes mach.mempool (calls.filterMap BuildCall.push))[i]? = some (r, some a))
    (hj : (pushes heap.sizes mach.mempool (calls.filterMap BuildCall.push))[j]? = some (r', some b)) :
    a + r.size heap.sizes ≤ b ∨ b + r'.size heap.sizes ≤ a := by
  refine pushes_apart (mempoolNew_fresh _ (machineNew_some hnew).1) (fun k hk hle => ?_) hij hi hj
  have hlt := count_take_lt (Nat.lt_add_one k) hk
  have hall := (List.take_sublist (k + 1) (calls.filterMap BuildCall.push)).count_le .state
  have hroom : (calls.filterMap BuildCall.push).count .state ≤ states.toNat := h.pushed .state
  omega

section Build

variable {p q : Process W}

/-- A registration counts, and leaves the stacks alone. -/
theorem machineAdd_mach (p : Process W) (a : Addr) :
    (∃ mp, (machineStateAdd p a).1.mach = { p.mach with mempool := mp } ∧
        ∀ kind, mp.top kind = p.mach.mempool.top kind) ∧
      ∃ mp, (machineTransitionAdd p a).1.mach = { p.mach with mempool := mp } ∧
        ∀ kind, mp.top kind = p.mach.mempool.top kind := by
  have hcounted : ∀ regs regt, ∀ kind,
      ({ p.mach.mempool with statesReg := regs, transitReg := regt } : Mempool).top kind =
        p.mach.mempool.top kind := by
    intro regs regt kind
    cases kind <;> rfl
  unfold machineStateAdd machineTransitionAdd
  constructor <;> simp only [] <;> split_ifs
  · exact ⟨_, rfl, fun _ => rfl⟩
  · exact ⟨_, rfl, fun _ => rfl⟩
  · exact ⟨_, rfl, hcounted _ _⟩
  · exact ⟨_, rfl, hcounted _ _⟩
  · exact ⟨_, rfl, fun _ => rfl⟩
  · exact ⟨_, rfl, fun _ => rfl⟩
  · exact ⟨_, rfl, hcounted _ _⟩
  · exact ⟨_, rfl, hcounted _ _⟩

/-- A registration writes to no slot and takes no string. -/
theorem machineAdd_frame (p : Process W) (a : Addr) :
    ((machineStateAdd p a).1.state = p.state ∧ (machineStateAdd p a).1.transition = p.transition ∧
        (machineStateAdd p a).1.shares = p.shares) ∧
      (machineTransitionAdd p a).1.state = p.state ∧
        (machineTransitionAdd p a).1.transition = p.transition ∧
        (machineTransitionAdd p a).1.shares = p.shares := by
  unfold machineStateAdd machineTransitionAdd
  constructor <;> simp only [] <;> split_ifs <;> exact ⟨rfl, rfl, rfl⟩

/-- The key that `estate_state_init` takes from a constructor. -/
def ctorKey (c : Option CbCtor) : Option Stringshare := c.bind fun c => c.shared c.keyLen

/-- A state as `estate_state_init` leaves it. -/
def State.inited (s : State) (name : Stringshare) (transitions : Option (List Addr))
    (transitCount : UInt32) (enterer exiter : Option CbCtor) : State :=
  { s.setTransit transitCount transitions with
    name := some name
    enterer := (enterer.map CbCtor.wrapper).getD (s.setTransit transitCount transitions).enterer
    exiter := (exiter.map CbCtor.wrapper).getD (s.setTransit transitCount transitions).exiter }

theorem setTransit_wrappers (s : State) (count : UInt32) (trs : Option (List Addr)) :
    (s.setTransit count trs).enterer = s.enterer ∧ (s.setTransit count trs).exiter = s.exiter := by
  cases trs <;> exact ⟨rfl, rfl⟩

/-- `estate_state_init` refuses, or takes its strings and writes the state. -/
theorem stateInit_cases (p : Process W) (st : Addr) (name : Option Stringshare)
    (transitions : Option (List Addr)) (transitCount : UInt32) (enterer exiter : Option CbCtor) :
    stateInit p st name transitions transitCount enterer exiter = (p, false) ∨
      ∃ n, stateInit p st name transitions transitCount enterer exiter =
        ((((p.shareKey (ctorKey enterer)).shareKey (ctorKey exiter)).share n).setState st
          ((p.state st).inited n transitions transitCount enterer exiter), true) := by
  unfold stateInit
  by_cases hst : st = 0
  · exact .inl (if_pos hst)
  rw [if_neg hst]
  cases name with
  | none => exact .inl rfl
  | some n =>
    by_cases hcount : transitCount ≠ (p.state st).transitCount
    · exact .inl (if_pos hcount)
    · exact .inr ⟨n, if_neg hcount⟩

/-- A transition as `estate_transition_init` leaves it; `len` is the length it takes for the key of
the exiter. -/
def Transition.inited (t : Transition) (name : Stringshare) (fromState toState : Addr)
    (cb stEnterer stExiter : Option CbCtor) (len : UInt32) : Transition :=
  { t with
    name := some name
    fromState := fromState
    toState := toState
    cb := match cb with
      | none => t.cb
      | some c => { t.cb with func := c.func, key := c.shared c.keyLen }
    stEnterer := match stEnterer with
      | none => t.stEnterer
      | some c => { t.stEnterer with func := c.func, key := c.shared c.keyLen, result := cbOk }
    stExiter := match stExiter with
      | none => t.stExiter
      | some c => { t.stExiter with func := c.func, key := c.shared len, result := cbOk } }

/-- `estate_transition_init` refuses, or takes its strings and writes the transition. -/
theorem transitionInit_cases {tr : Addr} {name : Option Stringshare} {fromState toState : Addr}
    {cb stEnterer stExiter : Option CbCtor} {b : Bool}
    (h : transitionInit p tr name fromState toState cb stEnterer stExiter = some (q, b)) :
    (q = p ∧ b = false) ∨ b = true ∧ ∃ n len, q =
      ((((p.share n).shareKey (ctorKey cb)).shareKey (ctorKey stEnterer)).shareKey
        (stExiter.bind fun c => c.shared len)).setTransition tr
          ((p.transition tr).inited n fromState toState cb stEnterer stExiter len) := by
  have hrefused : ∀ {r : Process W × Bool}, r = (p, false) → some r = some (q, b) →
      q = p ∧ b = false := by
    rintro r rfl hr
    obtain ⟨rfl, rfl⟩ := Prod.mk.inj (Option.some.inj hr)
    exact ⟨rfl, rfl⟩
  unfold transitionInit at h
  by_cases htr : tr = 0
  · rw [if_pos htr] at h
    exact .inl (hrefused rfl h)
  rw [if_neg htr] at h
  cases name with
  | none => exact .inl (hrefused rfl h)
  | some n =>
    simp only [] at h
    by_cases hsrc : fromState = 0
    · rw [if_pos hsrc] at h
      exact .inl (hrefused rfl h)
    by_cases hdst : toState = 0
    · rw [if_neg hsrc, if_pos hdst] at h
      exact .inl (hrefused rfl h)
    rw [if_neg hsrc, if_neg hdst] at h
    rcases hlen : exiterKeyLen stEnterer stExiter with _ | len <;> rw [hlen] at h
    · simp at h
    · obtain ⟨rfl, rfl⟩ := Prod.mk.inj (Option.some.inj h)
      exact .inr ⟨rfl, n, len, rfl⟩

section Transition

variable {tr fromState toState : Addr} {name : Option Stringshare}
  {cb stEnterer stExiter : Option CbCtor}

/-- Past its guards `estate_transition_init` needs nothing but the length of the exiter's key. -/
theorem transitionInit_some {n : Stringshare} (htr : tr ≠ 0) (hsrc : fromState ≠ 0)
    (hdst : toState ≠ 0) :
    transitionInit p tr (some n) fromState toState cb stEnterer stExiter =
      (exiterKeyLen stEnterer stExiter).map fun len =>
        (((((p.share n).shareKey (ctorKey cb)).shareKey (ctorKey stEnterer)).shareKey
          (stExiter.bind fun c => c.shared len)).setTransition tr
            ((p.transition tr).inited n fromState toState cb stEnterer stExiter len), true) := by
  unfold transitionInit
  rw [if_neg htr]
  simp only []
  rw [if_neg hsrc, if_neg hdst]
  cases exiterKeyLen stEnterer stExiter <;> rfl

theorem transitionInit_refused (h : tr = 0 ∨ name = none ∨ fromState = 0 ∨ toState = 0) :
    transitionInit p tr name fromState toState cb stEnterer stExiter = some (p, false) := by
  unfold transitionInit
  by_cases htr : tr = 0
  · rw [if_pos htr]
  rw [if_neg htr]
  cases name with
  | none => rfl
  | some n =>
    simp only [htr, reduceCtorEq, false_or] at h ⊢
    by_cases hsrc : fromState = 0
    · rw [if_pos hsrc]
    · rw [if_neg hsrc, if_pos (h.resolve_left hsrc)]

end Transition

theorem stateInit_mach (p : Process W) (st : Addr) (name : Option Stringshare)
    (transitions : Option (List Addr)) (transitCount : UInt32) (enterer exiter : Option CbCtor) :
    (stateInit p st name transitions transitCount enterer exiter).1.mach = p.mach := by
  rcases stateInit_cases p st name transitions transitCount enterer exiter with h | ⟨n, h⟩ <;>
    simp [h, shareKey_frame]

theorem transitionInit_mach {tr : Addr} {name : Option Stringshare} {fromState toState : Addr}
    {cb stEnterer stExiter : Option CbCtor} {b : Bool}
    (h : transitionInit p tr name fromState toState cb stEnterer stExiter = some (q, b)) :
    q.mach = p.mach := by
  rcases transitionInit_cases h with ⟨rfl, -⟩ | ⟨-, n, len, rfl⟩ <;> simp [shareKey_frame]

theorem stateNew_mach {n : UInt32} {st : Addr} (h : stateNew heap p n = some (q, st)) : q.mach =
    { p.mach with mempool := (push heap.sizes p.mach.mempool .state).2 } := by
  rcases stateNew_cases h with ⟨-, -, rfl⟩ | ⟨-, rfl⟩ <;> rfl

theorem transitionNew_mach (p : Process W) : (transitionNew heap p).1.mach =
    { p.mach with mempool := (push heap.sizes p.mach.mempool .transition).2 } := rfl

/-- A call changes nothing of the machine but its pool, and moves the top of a stack by what it
pushes there. -/
theorem buildCall_mach {c : BuildCall} (h : buildCall heap p c = some q) :
    ∃ mp, q.mach = { p.mach with mempool := mp } ∧ ∀ kind,
      mp.top kind = p.mach.mempool.top kind + if c.push = some kind then kind.size heap.sizes else 0 := by
  cases c with
  | stateNew n =>
    obtain ⟨⟨q', st⟩, hq, rfl⟩ := Option.map_eq_some_iff.1 h
    refine ⟨_, stateNew_mach hq, fun kind => ?_⟩
    rw [push_top]
    simp only [BuildCall.push, Option.some.injEq]
  | transitionNew =>
    have hq : (transitionNew heap p).1 = q := Option.some.inj h
    refine ⟨_, hq ▸ transitionNew_mach p, fun kind => ?_⟩
    rw [push_top]
    simp only [BuildCall.push, Option.some.injEq]
  | stateInit st name trs n enterer exiter =>
    have hq := Option.some.inj h
    exact ⟨p.mach.mempool, by rw [← hq, stateInit_mach], fun _ => rfl⟩
  | transitionInit tr name src dst cb enterer exiter =>
    obtain ⟨⟨q', b⟩, hq, rfl⟩ := Option.map_eq_some_iff.1 h
    exact ⟨p.mach.mempool, by rw [transitionInit_mach hq], fun _ => rfl⟩
  | stateAdd st =>
    have hq := Option.some.inj h
    obtain ⟨mp, hmp, htop⟩ := (machineAdd_mach p st).1
    exact ⟨mp, hq ▸ hmp, htop⟩
  | transitionAdd tr =>
    have hq := Option.some.inj h
    obtain ⟨mp, hmp, htop⟩ := (machineAdd_mach p tr).2
    exact ⟨mp, hq ▸ hmp, htop⟩

theorem build_cons {c : BuildCall} {calls : List BuildCall} :
    build heap p (c :: calls) = some q ↔
      ∃ p', buildCall heap p c = some p' ∧ build heap p' calls = some q := by
  simp only [build, List.foldlM_cons, Option.bind_eq_bind, Option.bind_eq_some_iff]

/-- Building a machine only takes from its pool. -/
theorem build_mach : ∀ {calls : List BuildCall} {p q : Process W}, build heap p calls = some q →
    ∃ mp, q.mach = { p.mach with mempool := mp }
  | [], p, q, h => by
    obtain rfl : p = q := Option.some.inj h
    exact ⟨p.mach.mempool, rfl⟩
  | c :: calls, p, q, h => by
    obtain ⟨p', hc, hb⟩ := build_cons.1 h
    obtain ⟨mp, hmp, -⟩ := buildCall_mach hc
    obtain ⟨mp', hmp'⟩ := build_mach hb
    exact ⟨mp', by rw [hmp', hmp]⟩

theorem build_top (kind : Push) :
    ∀ {p : Process W} {calls : List BuildCall}, build heap p calls = some q →
      q.mach.mempool.top kind = p.mach.mempool.top kind +
        (calls.filterMap BuildCall.push).count kind * kind.size heap.sizes
  | p, [], h => by
    obtain rfl : p = q := Option.some.inj h
    simp
  | p, c :: calls, h => by
    obtain ⟨p', hc, hb⟩ := build_cons.1 h
    obtain ⟨mp, hmp, htop⟩ := buildCall_mach hc
    rw [build_top kind hb, hmp, htop]
    rcases hp : c.push with _ | op
    · simp [hp]
    · rw [List.filterMap_cons_some hp, List.count_cons]
      by_cases h : op = kind
      · subst h
        simp only [if_true, beq_self_eq_true]
        ring
      · simp [h]

end Build

/-! ## The slots that are released -/

theorem Push.size_pos (kind : Push) (sz : Sizes) : 0 < kind.size sz := by
  cases kind
  · exact sz.state_pos
  · exact sz.transition_pos

/-- A heap with room at one address. -/
def roomyHeap : Heap where
  sizes := lp64
  malloc := fun _ => some 4096
  calloc := fun _ _ => true
  hashNew := true

/-- A new machine for two states and one transition. -/
def newMachine : Process Unit where
  mach :=
    { mempool := ⟨4136, 4224, 4400, 4528, 0, 0⟩
      currentState := 0
      currentTransition := 0
      errorCb := 0
      data := ∅
      cbDefer := []
      globalData := 0
      statesCount := 2
      transitCount := 1
      inCb := cbUnlocked
      locked := false }
  state := fun _ => {}
  transition := fun _ => {}
  shares := fun _ => 0
  world := ()
  trace := []

theorem newMachine_new : machineNew roomyHeap 2 1 = some newMachine.mach := rfl

end Estate
