import Estate.Cc.Rebuild
import Estate.Proofs.Load
import Estate.Proofs.Spelling

/-!
# Every call of a loader succeeds

When no allocation fails, each statement of a loader goes through as long as there is room for
what is still to come (`foldlM_progress`): the announced numbers are those of the states and the
transitions, and every state is initialised with as many transitions as it was made for.
-/

namespace Estate

variable {W : Type} {heap : Heap}

section Build

variable {p : Process W}

theorem stateNew_ok (h : heap.Plentiful) {n : UInt32}
    (hroom : p.mach.mempool.stackStates + heap.sizes.state ≤ p.mach.mempool.stackTransits)
    (hne : p.mach.mempool.stackStates ≠ 0) :
    ∃ r, stateNew heap p n = some r ∧ r.2 ≠ 0 := by
  obtain ⟨⟨q, st⟩, hnew⟩ := Option.isSome_iff_exists.1 ((stateNew_isSome_iff (p := p)).2
    fun (_ : n ≠ 0) st _ => h.calloc st n)
  have hpush : (push heap.sizes p.mach.mempool .state).1 = some p.mach.mempool.stackStates := by
    simp only [push, mempoolStatePush, if_neg (not_lt.2 hroom)]
  refine ⟨(q, st), hnew, ?_⟩
  rcases stateNew_cases hnew with ⟨hnone, -, -⟩ | ⟨hsome, -⟩
  · simp [hpush] at hnone
  · obtain rfl := Option.some.inj (hpush.symm.trans hsome)
    exact hne

theorem transitionNew_ok
    (hroom : p.mach.mempool.stackTransits + heap.sizes.transition ≤ p.mach.mempool.endp)
    (hne : p.mach.mempool.stackTransits ≠ 0) : (transitionNew heap p).2 ≠ 0 := by
  have hpush : mempoolTransitionPush heap.sizes p.mach.mempool =
      (some p.mach.mempool.stackTransits, { p.mach.mempool with
        stackTransits := p.mach.mempool.stackTransits + heap.sizes.transition }) := by
    unfold mempoolTransitionPush
    exact if_neg (not_lt.2 hroom)
  simp only [transitionNew, hpush]
  exact hne

theorem stateInit_ok {st : Addr} {name : Stringshare} {trs : Option (List Addr)} {n : UInt32}
    {enterer exiter : Option CbCtor} (hst : st ≠ 0) (hn : n = (p.state st).transitCount) :
    ∃ q, stateInit p st (some name) trs n enterer exiter = (q, true) := by
  unfold stateInit
  simp only [if_neg hst, hn, ne_eq, not_true_eq_false, if_false]
  exact ⟨_, rfl⟩

theorem transitionInit_ok {tr src dst : Addr} {name : Stringshare} {cb exiter : Option CbCtor}
    {enterer : CbCtor} (htr : tr ≠ 0) (hsrc : src ≠ 0) (hdst : dst ≠ 0) :
    ∃ q, transitionInit p tr (some name) src dst cb (some enterer) exiter = some (q, true) := by
  unfold transitionInit exiterKeyLen
  simp only [if_neg htr, if_neg hsrc, if_neg hdst]
  rcases exiter.bind CbCtor.key with _ | key <;> exact ⟨_, rfl⟩

theorem machineStateAdd_ok {st : Addr} (hst : st ≠ 0) (hl : p.mach.locked = false)
    (hreg : p.mach.mempool.statesReg + 1 ≤ p.mach.statesCount) :
    (machineStateAdd p st).2 = true := by
  unfold machineStateAdd
  simp only [if_neg hst, hl, Bool.false_eq_true, if_false]
  rw [if_neg]
  exact UInt32.not_lt.2 hreg

theorem machineTransitionAdd_ok {tr : Addr} (htr : tr ≠ 0) (hl : p.mach.locked = false)
    (hreg : p.mach.mempool.transitReg + 1 ≤ p.mach.transitCount) :
    (machineTransitionAdd p tr).2 = true := by
  unfold machineTransitionAdd
  simp only [if_neg htr, hl, Bool.false_eq_true, if_false]
  rw [if_neg]
  exact UInt32.not_lt.2 hreg

end Build

namespace Cc

open Lib

variable {prog : Program} {l : Loading W}

/-! ## The statements -/

theorem checked_ok {r : Process W × Bool} (h : r.2 = true) : checked r = some r.1 := if_pos h

theorem nonNull_ok {r : Process W × Addr} (h : r.2 ≠ 0) : nonNull r = some r := if_neg h

theorem exec_stateNew_ok (h : heap.Plentiful) {s : Stringshare} {n : ℕ} {a : Addr}
    (hv : l.stateVar s = some a)
    (hroom : l.proc.mach.mempool.stackStates + heap.sizes.state ≤
      l.proc.mach.mempool.stackTransits)
    (hne : l.proc.mach.mempool.stackStates ≠ 0) :
    ∃ l', Stmt.exec heap prog l (.stateNew s n) = some l' := by
  obtain ⟨r, hnew, hst⟩ := stateNew_ok (n := UInt32.ofNat n) h hroom hne
  simp only [Stmt.exec, hv, hnew, nonNull_ok hst, Option.bind_eq_bind, Option.bind_some]
  exact ⟨_, rfl⟩

theorem exec_transitionNew_ok {t : Stringshare} {a : Addr} (hv : l.transitVar t = some a)
    (hroom : l.proc.mach.mempool.stackTransits + heap.sizes.transition ≤
      l.proc.mach.mempool.endp)
    (hne : l.proc.mach.mempool.stackTransits ≠ 0) :
    ∃ l', Stmt.exec heap prog l (.transitionNew t) = some l' := by
  simp only [Stmt.exec, hv, nonNull_ok (transitionNew_ok hroom hne), Option.bind_eq_bind,
    Option.bind_some]
  exact ⟨_, rfl⟩

theorem mapM_ok {α β : Type} {g : α → Option β} : ∀ {xs : List α}, (∀ x ∈ xs, ∃ y, g x = some y) →
    ∃ ys, xs.mapM g = some ys
  | [], _ => ⟨[], rfl⟩
  | x :: xs, h => by
    obtain ⟨y, hy⟩ := h x List.mem_cons_self
    obtain ⟨ys, hys⟩ := mapM_ok fun x hx => h x (List.mem_cons_of_mem _ hx)
    exact ⟨y :: ys, by simp [hy, hys]⟩

theorem exec_stateInit_ok {s : Stringshare} {trs : List Stringshare} {enterer exiter : CtorText}
    {st : Addr} {e x : CbCtor} (hv : l.stateVar s = some st) (hst : st ≠ 0)
    (htrs : ∀ t ∈ trs, ∃ a, l.transitVar t = some a) (he : prog.ctor enterer = some e)
    (hx : prog.ctor exiter = some x)
    (hcount : UInt32.ofNat trs.length = (l.proc.state st).transitCount)
    (hl : l.proc.mach.locked = false)
    (hreg : l.proc.mach.mempool.statesReg + 1 ≤ l.proc.mach.statesCount) :
    ∃ l', Stmt.exec heap prog l (.stateInit s trs enterer exiter) = some l' := by
  obtain ⟨array, harray⟩ := mapM_ok htrs
  obtain ⟨q, hinit⟩ : ∃ q, Estate.stateInit l.proc st (some s)
      (if trs = [] then none else some array) (UInt32.ofNat trs.length) (some e) (some x) =
        (q, true) := stateInit_ok hst hcount
  obtain ⟨-, -, hmach, -, -⟩ := stateInit_spec hinit
  have hadd : (machineStateAdd q st).2 = true :=
    machineStateAdd_ok hst (by rw [hmach]; exact hl) (by rw [hmach]; exact hreg)
  simp only [Stmt.exec, hv, harray, he, hx, hinit, checked_ok (r := (q, true)) rfl,
    checked_ok hadd, Option.bind_eq_bind, Option.bind_some]
  exact ⟨_, rfl⟩

theorem exec_transitionInit_ok {t x y : Stringshare} {cb enterer exiter : CtorText}
    {tr src dst : Addr} {c e i : CbCtor} (hv : l.transitVar t = some tr) (htr : tr ≠ 0)
    (hsrc : l.stateVar x = some src) (hsne : src ≠ 0) (hdst : l.stateVar y = some dst)
    (hdne : dst ≠ 0) (hc : prog.ctor cb = some c) (he : prog.ctor enterer = some e)
    (hi : prog.ctor exiter = some i) (hl : l.proc.mach.locked = false)
    (hreg : l.proc.mach.mempool.transitReg + 1 ≤ l.proc.mach.transitCount) :
    ∃ l', Stmt.exec heap prog l (.transitionInit t (some x) (some y) cb enterer exiter) =
      some l' := by
  obtain ⟨q, hinit⟩ : ∃ q, Estate.transitionInit l.proc tr (some t) src dst (some c) (some e)
      (some i) = some (q, true) := transitionInit_ok htr hsne hdne
  obtain ⟨-, hmach, -⟩ := transitionInit_spec hinit
  have hadd : (machineTransitionAdd q tr).2 = true :=
    machineTransitionAdd_ok htr (by rw [hmach]; exact hl) (by rw [hmach]; exact hreg)
  simp only [Stmt.exec, hv, hsrc, hdst, hc, he, hi, hinit, checked_ok (r := (q, true)) rfl,
    checked_ok hadd, Option.bind_eq_bind, Option.bind_some]
  exact ⟨_, rfl⟩

/-! ## The batches -/

/-- The array of a state is as long as its count says. -/
def Sized (mem : Addr → Estate.State) : Prop :=
  ∀ a, (mem a).transit.length = (mem a).transitCount.toNat

/-- A loader with states still to be made, out of the machine `m`. -/
structure StatesAhead (heap : Heap) (m : Machine) (tv : Stringshare → Option Addr)
    (count : Stringshare → ℕ) (ss : List State) (l : Loading W) : Prop where
  mach : l.proc.mach = { m with mempool := { m.mempool with
    stackStates := l.proc.mach.mempool.stackStates } }
  room : l.proc.mach.mempool.stackStates + ss.length * heap.sizes.state ≤
    l.proc.mach.mempool.stackTransits
  pos : l.proc.mach.mempool.stackStates ≠ 0
  declared : ∀ s ∈ ss, ∃ a, l.stateVar s.name = some a
  transitVar : l.transitVar = tv
  trs : ∀ s ∈ ss, s.trs.length = count s.name
  fresh : ∀ a, l.proc.mach.mempool.stackStates ≤ a → l.proc.state a = {}
  made : ∀ x a, l.stateVar x = some a → a ≠ 0 → a < l.proc.mach.mempool.stackStates ∧
    (l.proc.state a).transitCount = UInt32.ofNat (count x)
  sized : Sized l.proc.state

theorem allocStates_ok (prog : Program) (hp : heap.Plentiful) {m : Machine}
    {tv : Stringshare → Option Addr} {count : Stringshare → ℕ} {ss : List State}
    (h : StatesAhead heap m tv count ss l) :
    ∃ l', ss.foldlM (fun l s => (eachStatesGcAllocCb s).exec heap prog l) l = some l' ∧
      StatesAhead heap m tv count [] l' := by
  refine foldlM_progress (fun s ss l h => ?_) h
  obtain ⟨a, ha⟩ := h.declared s List.mem_cons_self
  have hroom := h.room
  rw [List.length_cons, Nat.succ_mul] at hroom
  obtain ⟨l', hexec⟩ : ∃ l', (eachStatesGcAllocCb s).exec heap prog l = some l' :=
    exec_stateNew_ok hp ha (by omega) h.pos
  refine ⟨l', hexec, ?_⟩
  obtain ⟨-, -, hsv, htv, hmach, hstate⟩ := exec_stateNew hexec
  have htop : l'.proc.mach.mempool.stackStates =
      l.proc.mach.mempool.stackStates + heap.sizes.state := by rw [hmach]
  have hpos := heap.sizes.state_pos
  have hnew : (l.proc.state l.proc.mach.mempool.stackStates).sized (UInt32.ofNat s.trs.length) =
      ({} : Estate.State).sized (UInt32.ofNat s.trs.length) := by
    rw [h.fresh _ le_rfl]
  rw [hnew] at hstate
  constructor
  · rw [hmach, h.mach]
  · rw [htop, hmach]
    show _ ≤ l.proc.mach.mempool.stackTransits
    omega
  · omega
  · intro u hu
    rw [hsv, Function.update_apply]
    split_ifs
    · exact ⟨_, rfl⟩
    · exact h.declared u (List.mem_cons_of_mem _ hu)
  · exact htv.trans h.transitVar
  · exact fun u hu => h.trs u (List.mem_cons_of_mem _ hu)
  · intro b hb
    have hlt : l.proc.mach.mempool.stackStates < b :=
      (Nat.lt_add_of_pos_right hpos).trans_le (htop ▸ hb)
    rw [hstate, Function.update_of_ne hlt.ne']
    exact h.fresh b hlt.le
  · intro x b hx hb
    rw [hsv, Function.update_apply] at hx
    split_ifs at hx with hxs
    · obtain rfl := Option.some.inj hx
      subst hxs
      refine ⟨htop ▸ Nat.lt_add_of_pos_right hpos, ?_⟩
      rw [hstate, Function.update_self, h.trs s List.mem_cons_self]
      rfl
    · obtain ⟨hlt, hcount⟩ := h.made x b hx hb
      refine ⟨hlt.trans (htop ▸ Nat.lt_add_of_pos_right hpos), ?_⟩
      rw [hstate, Function.update_of_ne hlt.ne]
      exact hcount
  · intro b
    rw [hstate, Function.update_apply]
    split_ifs
    · simp only [State.sized]
      split_ifs with hn
      · rw [hn]
        rfl
      · exact List.length_replicate
    · exact h.sized b

/-- A loader with transitions still to be made. -/
structure TransitsAhead (heap : Heap) (m : Machine) (sv : Stringshare → Option Addr)
    (mem : Addr → Estate.State) (ts : List Transit) (l : Loading W) : Prop where
  mach : l.proc.mach = { m with mempool := { m.mempool with
    stackTransits := l.proc.mach.mempool.stackTransits } }
  room : l.proc.mach.mempool.stackTransits + ts.length * heap.sizes.transition ≤
    l.proc.mach.mempool.endp
  pos : l.proc.mach.mempool.stackTransits ≠ 0
  declared : ∀ t ∈ ts, ∃ a, l.transitVar t.name = some a
  stateVar : l.stateVar = sv
  state : l.proc.state = mem

theorem allocTransits_ok (prog : Program) {m : Machine} {sv : Stringshare → Option Addr}
    {mem : Addr → Estate.State} {ts : List Transit} (h : TransitsAhead heap m sv mem ts l) :
    ∃ l', ts.foldlM (fun l t => (eachTransitionsGcAllocCb t).exec heap prog l) l = some l' ∧
      TransitsAhead heap m sv mem [] l' := by
  refine foldlM_progress (fun t ts l h => ?_) h
  obtain ⟨a, ha⟩ := h.declared t List.mem_cons_self
  have hroom := h.room
  rw [List.length_cons, Nat.succ_mul] at hroom
  obtain ⟨l', hexec⟩ : ∃ l', (eachTransitionsGcAllocCb t).exec heap prog l = some l' :=
    exec_transitionNew_ok ha (by omega) h.pos
  refine ⟨l', hexec, ?_⟩
  obtain ⟨-, -, rfl⟩ := exec_transitionNew hexec
  refine ⟨?_, ?_, ?_, fun u hu => ?_, h.stateVar, h.state⟩
  · simp only [Process.setMempool, Process.setMach]
    rw [h.mach]
  · simp only [Process.setMempool, Process.setMach]
    omega
  · exact Nat.ne_of_gt (Nat.add_pos_left (Nat.pos_of_ne_zero h.pos) _)
  · simp only [Function.update_apply]
    split_ifs
    · exact ⟨_, rfl⟩
    · exact h.declared u (List.mem_cons_of_mem _ hu)

/-- One more registration of those to come. -/
theorem reg_succ {reg count : UInt32} {n : ℕ} (h : reg.toNat + (n + 1) = count.toNat) :
    reg + 1 ≤ count ∧ (reg + 1).toNat + n = count.toNat := by
  have hlt := count.toNat_lt
  have hsucc : (reg + 1).toNat = reg.toNat + 1 := by
    rw [UInt32.toNat_add]
    exact Nat.mod_eq_of_lt (by simp; omega)
  refine ⟨?_, by omega⟩
  rw [UInt32.le_iff_toNat_le]
  omega

/-- A loader with states still to be initialised. -/
structure InitsAhead (prog : Program) (m : Machine) (sv tv : Stringshare → Option Addr)
    (ss : List State) (l : Loading W) : Prop where
  mach : l.proc.mach = { m with mempool := { m.mempool with
    statesReg := l.proc.mach.mempool.statesReg } }
  reg : l.proc.mach.mempool.statesReg.toNat + ss.length = m.statesCount.toNat
  stateVar : l.stateVar = sv
  transitVar : l.transitVar = tv
  ready : ∀ s ∈ ss, ∃ a, sv s.name = some a ∧ a ≠ 0 ∧
    (l.proc.state a).transitCount = UInt32.ofNat s.trs.length
  arrays : ∀ s ∈ ss, ∀ t ∈ s.trs, ∃ a, tv t = some a
  ctors : ∀ s ∈ ss, (∃ c, prog.ctor (ctorText s.enterer) = some c) ∧
    ∃ c, prog.ctor (ctorText s.exiter) = some c
  sized : Sized l.proc.state

/-- The array of a state keeps its length. -/
theorem setTransit_length {v : Estate.State} {trs : List Stringshare} {array : List Addr}
    (hlen : array.length = trs.length) (hcount : UInt32.ofNat trs.length = v.transitCount)
    (hv : v.transit.length = v.transitCount.toNat) :
    (v.setTransit (UInt32.ofNat trs.length) (if trs = [] then none else some array)).transit.length =
      v.transitCount.toNat := by
  by_cases ht : trs = []
  · rw [if_pos ht]
    exact hv
  · have hle : v.transitCount.toNat ≤ array.length := by
      rw [← hcount, hlen]
      exact (UInt32.toNat_ofNat' ..).trans_le (Nat.mod_le _ _)
    rw [if_neg ht, hcount, State.setTransit, copyPointers, List.length_append, List.length_take,
      List.length_drop, hv]
    omega

theorem initStates_ok (heap : Heap) {m : Machine} {sv tv : Stringshare → Option Addr}
    {ss : List State} (hl : m.locked = false) (h : InitsAhead prog m sv tv ss l) :
    ∃ l', ss.foldlM (fun l s => (eachStatesGcInitCb s).exec heap prog l) l = some l' ∧
      InitsAhead prog m sv tv [] l' := by
  refine foldlM_progress (fun s ss l h => ?_) h
  obtain ⟨a, ha, hne, hcount⟩ := h.ready s List.mem_cons_self
  obtain ⟨⟨e, he⟩, x, hx⟩ := h.ctors s List.mem_cons_self
  have hreg := reg_succ h.reg
  have hcounts : l.proc.mach.statesCount = m.statesCount := by rw [h.mach]
  obtain ⟨l', hexec⟩ : ∃ l', (eachStatesGcInitCb s).exec heap prog l = some l' :=
    exec_stateInit_ok (by rw [h.stateVar]; exact ha) hne
      (by rw [h.transitVar]; exact h.arrays s List.mem_cons_self) he hx hcount.symm
      (by rw [h.mach]; exact hl) (by rw [hcounts]; exact hreg.1)
  refine ⟨l', hexec, ?_⟩
  obtain ⟨hsv, htv, hmach, st, array, e', x', -, hlen, -, -, -, hn, hstate⟩ := exec_stateInit hexec
  have hkept : ∀ b, (l'.proc.state b).transitCount = (l.proc.state b).transitCount := by
    intro b
    by_cases hb : b = st
    · rw [hstate, hb, Function.update_self]
      exact setTransit_count _ _ _
    · rw [hstate, Function.update_of_ne hb]
  refine ⟨?_, ?_, hsv.trans h.stateVar, htv.trans h.transitVar, fun u hu => ?_,
    fun u hu => h.arrays u (List.mem_cons_of_mem _ hu),
    fun u hu => h.ctors u (List.mem_cons_of_mem _ hu), fun b => ?_⟩
  · rw [hmach, h.mach]
  · rw [hmach]
    exact hreg.2
  · obtain ⟨b, hb, hbne, hbcount⟩ := h.ready u (List.mem_cons_of_mem _ hu)
    exact ⟨b, hb, hbne, (hkept b).trans hbcount⟩
  · rw [hkept b]
    by_cases hb : b = st
    · rw [hstate, hb, Function.update_self]
      exact setTransit_length hlen hn (h.sized st)
    · rw [hstate, Function.update_of_ne hb]
      exact h.sized b

/-- A loader with transitions still to be initialised. -/
structure TransitInitsAhead (prog : Program) (m : Machine) (sv tv : Stringshare → Option Addr)
    (mem : Addr → Estate.State) (ts : List Transit) (l : Loading W) : Prop where
  mach : l.proc.mach = { m with mempool := { m.mempool with
    transitReg := l.proc.mach.mempool.transitReg } }
  reg : l.proc.mach.mempool.transitReg.toNat + ts.length = m.transitCount.toNat
  stateVar : l.stateVar = sv
  transitVar : l.transitVar = tv
  state : l.proc.state = mem
  ready : ∀ t ∈ ts, ∃ a, tv t.name = some a ∧ a ≠ 0
  source : ∀ t ∈ ts, ∃ x a, t.fromState = some x ∧ sv x = some a ∧ a ≠ 0
  target : ∀ t ∈ ts, ∃ x a, t.toState = some x ∧ sv x = some a ∧ a ≠ 0
  ctors : ∀ t ∈ ts, (∃ c, prog.ctor (ctorText t.cb) = some c) ∧
    (∃ c, prog.ctor (ctorText t.enterer) = some c) ∧ ∃ c, prog.ctor (ctorText t.exiter) = some c

theorem initTransits_ok (heap : Heap) {m : Machine} {sv tv : Stringshare → Option Addr}
    {mem : Addr → Estate.State} {ts : List Transit} (hl : m.locked = false)
    (h : TransitInitsAhead prog m sv tv mem ts l) :
    ∃ l', ts.foldlM (fun l t => (eachTransitionsGcInitCb t).exec heap prog l) l = some l' ∧
      TransitInitsAhead prog m sv tv mem [] l' := by
  refine foldlM_progress (fun t ts l h => ?_) h
  obtain ⟨tr, htr, htne⟩ := h.ready t List.mem_cons_self
  obtain ⟨x, src, hx, hsrc, hsne⟩ := h.source t List.mem_cons_self
  obtain ⟨y, dst, hy, hdst, hdne⟩ := h.target t List.mem_cons_self
  obtain ⟨⟨c, hc⟩, ⟨e, he⟩, i, hi⟩ := h.ctors t List.mem_cons_self
  have hreg := reg_succ h.reg
  have hcounts : l.proc.mach.transitCount = m.transitCount := by rw [h.mach]
  obtain ⟨l', hexec⟩ : ∃ l', (eachTransitionsGcInitCb t).exec heap prog l = some l' := by
    rw [eachTransitionsGcInitCb, hx, hy]
    exact exec_transitionInit_ok (by rw [h.transitVar]; exact htr) htne
      (by rw [h.stateVar]; exact hsrc) hsne (by rw [h.stateVar]; exact hdst) hdne hc he hi
      (by rw [h.mach]; exact hl) (by rw [hcounts]; exact hreg.1)
  refine ⟨l', hexec, ?_⟩
  obtain ⟨hsv, htv, hstate, hmach, -⟩ := exec_transitionInit hexec
  refine ⟨?_, ?_, hsv.trans h.stateVar, htv.trans h.transitVar, hstate.trans h.state,
    fun u hu => h.ready u (List.mem_cons_of_mem _ hu),
    fun u hu => h.source u (List.mem_cons_of_mem _ hu),
    fun u hu => h.target u (List.mem_cons_of_mem _ hu),
    fun u hu => h.ctors u (List.mem_cons_of_mem _ hu)⟩
  · rw [hmach, h.mach]
  · rw [hmach]
    exact hreg.2

section Whole

variable {ord : HashOrder} {gen : Placement} {f : Fsm} {shares : Stringshare → ℤ} {w : W}

theorem machineNew_ok (hp : heap.Plentiful) {states transitions : UInt32} (hs : states ≠ 0)
    (ht : transitions ≠ 0) : ∃ mach, machineNew heap states transitions = some mach ∧
      mach.mempool.stackStates ≠ 0 ∧ mach.mempool.statesReg = 0 ∧ mach.mempool.transitReg = 0 := by
  obtain ⟨mp, hmp, hne⟩ := hp.malloc (heap.sizes.mempool + heap.sizes.machine +
    heap.sizes.state * states.toNat + heap.sizes.transition * transitions.toNat)
  simp only [machineNew, mempoolNew, if_neg hs, if_neg ht, hmp, hp.hashNew, if_true]
  refine ⟨_, rfl, ?_, rfl, rfl⟩
  show mp + heap.sizes.mempool + heap.sizes.machine ≠ 0
  omega

/-- An FSM whose loader compiles, and whose numbers of states and transitions it can announce. -/
structure Loadable (prog : Program) (f : Fsm) : Prop where
  states_small : f.states.entries.length < 2 ^ 32
  transits_small : f.transitions.entries.length < 2 ^ 32
  some_transit : f.transits ≠ []
  source : ∀ t ∈ f.transits, ∃ x ∈ f.states, t.fromState = some x
  target : ∀ t ∈ f.transits, ∃ x ∈ f.states, t.toState = some x
  state_ctors : ∀ s ∈ f.stateList, (∃ c, prog.ctor (ctorText s.enterer) = some c) ∧
    ∃ c, prog.ctor (ctorText s.exiter) = some c
  transit_ctors : ∀ t ∈ f.transits, (∃ c, prog.ctor (ctorText t.cb) = some c) ∧
    (∃ c, prog.ctor (ctorText t.enterer) = some c) ∧ ∃ c, prog.ctor (ctorText t.exiter) = some c

theorem toNat_ofNat_small {n : ℕ} (h : n < 2 ^ 32) : (UInt32.ofNat n).toNat = n :=
  UInt32.toNat_ofNat_of_lt' (by simpa using h)

theorem ofNat_ne_zero {n : ℕ} (h : n < 2 ^ 32) (hn : n ≠ 0) : UInt32.ofNat n ≠ 0 := by
  intro h0
  have := congrArg UInt32.toNat h0
  rw [toNat_ofNat_small h] at this
  exact hn this

theorem Loadable.transits_ne (h : Loadable prog f) : f.transitions.entries.length ≠ 0 := by
  intro h0
  refine h.some_transit (List.length_eq_zero_iff.1 ?_)
  rw [Fsm.transits, List.length_map, h0]

theorem Loadable.states_ne (h : Loadable prog f) : f.states.entries.length ≠ 0 := by
  obtain ⟨t, ht⟩ := List.exists_mem_of_ne_nil _ h.some_transit
  obtain ⟨x, hx, -⟩ := h.source t ht
  obtain ⟨s, hs⟩ := Option.isSome_iff_exists.1 (AList.lookup_isSome.2 hx)
  exact (List.length_pos_of_mem (mem_entries_iff.2 hs)).ne'

/-- The states as the statements that make them see them. -/
theorem mem_gathering (hf : f.Named) {s : State}
    (hs : s ∈ (ord.foreach f.states).map (gatherTrs ord gen f)) :
    s.name ∈ f.states ∧ s.trs = outgoing ord gen f s.name := by
  obtain ⟨u, hu, rfl⟩ := List.mem_map.1 hs
  obtain ⟨x, hx⟩ := mem_foreach.1 hu
  have he := mem_entries_iff.2 hx
  rw [gatherTrs_name, gatherTrs_eq (hf.state_trs _ he)]
  have hname : u.name = x := hf.state_name _ he
  exact ⟨hname ▸ mem_of_lookup hx, rfl⟩

theorem declare_mem {names : List Stringshare} {x : Stringshare} (h : x ∈ names) :
    declare names x = some 0 := if_pos h

theorem declare_null {names : List Stringshare} {x : Stringshare} {a : Addr}
    (h : declare names x = some a) : a = 0 := by
  rw [declare_mem (declare_some h)] at h
  exact (Option.some.inj h).symm

variable (ord gen shares w) in
/-- The allocations of a loader go through, and leave each state with its array. -/
theorem allocations_ok (hf : f.Named) (hp : heap.Plentiful) (h : Loadable prog f) :
    ∃ mach, machineNew heap (UInt32.ofNat f.states.entries.length)
        (UInt32.ofNat f.transitions.entries.length) = some mach ∧
      ∃ l₁ l₂ : Loading W,
        ((ord.foreach f.states).map (gatherTrs ord gen f)).foldlM
          (fun l s => (eachStatesGcAllocCb s).exec heap prog l)
          { proc := .fresh mach shares w
            stateVar := declare ((ord.foreach f.states).map State.name)
            transitVar := declare ((ord.foreach f.transitions).map Transit.name) } = some l₁ ∧
        (ord.foreach f.transitions).foldlM
          (fun l t => (eachTransitionsGcAllocCb t).exec heap prog l) l₁ = some l₂ ∧
        (∃ top top', l₂.proc.mach = { mach with mempool := { mach.mempool with
          stackStates := top, stackTransits := top' } }) ∧
        mach.mempool.statesReg = 0 ∧ mach.mempool.transitReg = 0 ∧
        (∀ x a, l₂.stateVar x = some a → a ≠ 0 →
          (l₂.proc.state a).transitCount = UInt32.ofNat (outgoing ord gen f x).length) ∧
        Sized l₂.proc.state := by
  obtain ⟨mach, hmach, hpos, hsreg, htreg⟩ := machineNew_ok hp
    (ofNat_ne_zero h.states_small h.states_ne) (ofNat_ne_zero h.transits_small h.transits_ne)
  obtain ⟨-, hfresh⟩ := machineNew_spec hmach
  have hstates := foreach_names hf.state_name ord
  have hroom := hfresh.transits
  rw [toNat_ofNat_small h.states_small] at hroom
  have hend := hfresh.endp
  rw [toNat_ofNat_small h.transits_small] at hend
  have hstart : StatesAhead heap mach (declare ((ord.foreach f.transitions).map Transit.name))
      (fun x => (outgoing ord gen f x).length) ((ord.foreach f.states).map (gatherTrs ord gen f))
      { proc := .fresh mach shares w
        stateVar := declare ((ord.foreach f.states).map State.name)
        transitVar := declare ((ord.foreach f.transitions).map Transit.name) } := by
    refine ⟨rfl, ?_, hpos, fun s hs => ⟨0, ?_⟩, rfl, ?_, fun _ _ => rfl, ?_, fun _ => rfl⟩
    · rw [List.length_map, (foreach_perm ord f.states).length_eq, List.length_map]
      exact hroom.ge
    · exact declare_mem (hstates.mem_iff.2 (mem_gathering hf hs).1)
    · intro s hs
      rw [(mem_gathering hf hs).2]
    · exact fun x a hx hne => absurd (declare_null hx) hne
  obtain ⟨l₁, h₁, ha₁⟩ := allocStates_ok prog hp hstart
  have htop : l₁.proc.mach.mempool.stackTransits = mach.mempool.stackTransits := by rw [ha₁.mach]
  have hmid : TransitsAhead heap l₁.proc.mach l₁.stateVar l₁.proc.state (ord.foreach f.transitions)
      l₁ := by
    refine ⟨rfl, ?_, ?_, fun t ht => ⟨0, ?_⟩, rfl, rfl⟩
    · rw [(foreach_perm ord f.transitions).length_eq, List.length_map, ha₁.mach]
      exact hend.ge
    · rw [htop]
      exact Nat.ne_of_gt ((Nat.pos_of_ne_zero hpos).trans_le (hroom ▸ Nat.le_add_right _ _))
    · rw [ha₁.transitVar]
      exact declare_mem (List.mem_map_of_mem ht)
  obtain ⟨l₂, h₂, ha₂⟩ := allocTransits_ok prog hmid
  refine ⟨mach, hmach, l₁, l₂, h₁, h₂, ⟨l₁.proc.mach.mempool.stackStates,
    l₂.proc.mach.mempool.stackTransits, ?_⟩, hsreg, htreg, ?_, ?_⟩
  · rw [ha₂.mach, ha₁.mach]
  · rw [ha₂.stateVar, ha₂.state]
    exact fun x a hx hne => (ha₁.made x a hx hne).2
  · rw [ha₂.state]
    exact ha₁.sized

theorem gathered_ctors (hf : f.Named) (h : Loadable prog f) {s : State}
    (hs : s ∈ ord.foreach (gatheredStates ord gen f)) :
    (∃ c, prog.ctor (ctorText s.enterer) = some c) ∧
      ∃ c, prog.ctor (ctorText s.exiter) = some c := by
  obtain ⟨u, hu, rfl⟩ := gathered_of_mem hf hs
  exact h.state_ctors u hu

variable (ord gen shares w) in
/-- A loader whose FSM can be loaded comes to its end, with everything registered. -/
theorem run_ok (hf : f.Named) (hp : heap.Plentiful) (h : Loadable prog f) :
    ∃ l₂ l₃ l₄ : Loading W, (loader ord gen f).run heap prog shares w = some l₄ ∧
      Allocated f l₂ ∧
      (ord.foreach (gatheredStates ord gen f)).foldlM
        (fun l s => (eachStatesGcInitCb s).exec heap prog l) l₂ = some l₃ ∧
      (ord.foreach f.transitions).foldlM
        (fun l t => (eachTransitionsGcInitCb t).exec heap prog l) l₃ = some l₄ ∧
      (l₄.proc.mach.mempool.statesReg = UInt32.ofNat f.states.entries.length ∧
        l₄.proc.mach.statesCount = UInt32.ofNat f.states.entries.length) ∧
      (l₄.proc.mach.mempool.transitReg = UInt32.ofNat f.transitions.entries.length ∧
        l₄.proc.mach.transitCount = UInt32.ofNat f.transitions.entries.length) ∧
      Sized l₄.proc.state := by
  obtain ⟨mach, hmach, l₁, l₂, h₁, h₂, ⟨top, top', hm₂⟩, hsreg, htreg, hmade, hsized⟩ :=
    allocations_ok ord gen shares w hf hp h
  obtain ⟨-, ⟨hscount, htcount⟩, ⟨hopen, -⟩, -⟩ := machineNew_some hmach
  have ha := allocated_of_run hf hmach h₁ h₂
  have hnames := @gatheredStates_names ord gen f hf
  have hlen : (ord.foreach (gatheredStates ord gen f)).length = f.states.entries.length := by
    have hperm : ((ord.foreach (gatheredStates ord gen f)).map State.name).Perm f.states.keys :=
      (List.perm_ext_iff_of_nodup hnames.1 f.states.keys_nodup).2 hnames.2
    rw [← List.length_map (f := State.name), hperm.length_eq, AList.keys, List.keys,
      List.length_map]
  have hinits : InitsAhead prog l₂.proc.mach l₂.stateVar l₂.transitVar
      (ord.foreach (gatheredStates ord gen f)) l₂ := by
    refine ⟨rfl, ?_, rfl, rfl, fun s hs => ?_, fun s hs t ht => ?_,
      fun s hs => gathered_ctors hf h hs, hsized⟩
    · rw [hm₂, hlen]
      simp only [hsreg, hscount, toNat_ofNat_small h.states_small]
      exact Nat.zero_add _
    · obtain ⟨hmem, htrs⟩ := mem_foreach_gatheredStates hf hs
      obtain ⟨a, ha, hne⟩ := ha.states s.name hmem
      exact ⟨a, ha, hne, htrs ▸ hmade _ a ha hne⟩
    · rw [(mem_foreach_gatheredStates hf hs).2] at ht
      obtain ⟨u, hu, -, rfl⟩ := mem_outgoing.1 ht
      obtain ⟨a, ha, -⟩ := ha.transits u hu
      exact ⟨a, ha⟩
  obtain ⟨l₃, h₃, ha₃⟩ := initStates_ok heap (by rw [hm₂]; exact hopen) hinits
  have htransits : TransitInitsAhead prog l₃.proc.mach l₂.stateVar l₂.transitVar l₃.proc.state
      (ord.foreach f.transitions) l₃ := by
    have hmem : ∀ t ∈ ord.foreach f.transitions, t ∈ f.transits :=
      fun t => (foreach_transitions_perm ord f).mem_iff.1
    refine ⟨rfl, ?_, ha₃.stateVar, ha₃.transitVar, rfl, fun t ht => ha.transits t (hmem t ht),
      fun t ht => ?_, fun t ht => ?_, fun t ht => h.transit_ctors t (hmem t ht)⟩
    · rw [ha₃.mach, hm₂, (foreach_perm ord f.transitions).length_eq, List.length_map]
      simp only [htreg, htcount, toNat_ofNat_small h.transits_small]
      exact Nat.zero_add _
    · obtain ⟨x, hx, htx⟩ := h.source t (hmem t ht)
      obtain ⟨a, ha, hne⟩ := ha.states x hx
      exact ⟨x, a, htx, ha, hne⟩
    · obtain ⟨x, hx, htx⟩ := h.target t (hmem t ht)
      obtain ⟨a, ha, hne⟩ := ha.states x hx
      exact ⟨x, a, htx, ha, hne⟩
  obtain ⟨l₄, h₄, ha₄⟩ := initTransits_ok heap (by rw [ha₃.mach, hm₂]; exact hopen) htransits
  refine ⟨l₂, l₃, l₄, ?_, ha, h₃, h₄, ⟨?_, ?_⟩, ⟨?_, ?_⟩, ?_⟩
  · simp only [Loader.run, loader, hmach, List.foldlM_append, List.foldlM_map,
      Option.bind_eq_bind, Option.bind_some]
    rw [List.foldlM_map] at h₁
    rw [h₁, Option.bind_some, h₂, Option.bind_some, h₃, Option.bind_some, h₄]
  · have hreg : l₃.proc.mach.mempool.statesReg = l₂.proc.mach.statesCount :=
      UInt32.toNat_inj.1 ha₃.reg
    rw [ha₄.mach]
    rw [hreg, hm₂]
    exact hscount
  · rw [ha₄.mach, ha₃.mach, hm₂]
    exact hscount
  · have hreg : l₄.proc.mach.mempool.transitReg = l₃.proc.mach.transitCount :=
      UInt32.toNat_inj.1 ha₄.reg
    rw [hreg, ha₃.mach, hm₂]
    exact htcount
  · rw [ha₄.mach, ha₃.mach, hm₂]
    exact htcount
  · rw [ha₄.state]
    exact ha₃.sized

end Whole

end Cc

end Estate
