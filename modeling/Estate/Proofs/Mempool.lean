import Estate.Build
import Mathlib.Data.List.Count
import Mathlib.Algebra.Order.Ring.Nat
import Mathlib.Tactic.Ring
import Mathlib.Tactic.Linarith

/-!
# The slots a pool hands out

A push moves one stack pointer by one block, whatever it returns, so both pointers are known from
the pushes made so far (`poolAfter_eq`). The transition stack is bounded by the end of the pool
and never overflows it. The state stack is bounded by the moving top of the other one: once
transitions have been pushed, states beyond the announced count can be handed room that is taken.
-/

namespace Estate

variable (sz : Sizes)

/-! ## Where the stacks are -/

/-- Both stack pointers after a sequence of pushes, the rest of the pool untouched. -/
theorem poolAfter_eq (ops : List Push) (mp : Mempool) :
    poolAfter sz mp ops =
      { mp with
        stackStates := mp.stackStates + ops.count .state * sz.state
        stackTransits := mp.stackTransits + ops.count .transition * sz.transition } := by
  induction ops generalizing mp with
  | nil => simp [poolAfter]
  | cons p ops ih =>
    have hstep : poolAfter sz mp (p :: ops) = poolAfter sz (push sz mp p).2 ops := rfl
    rw [hstep, ih]
    cases p
    · have hp : (push sz mp .state).2 = { mp with stackStates := mp.stackStates + sz.state } := by
        simp only [push, mempoolStatePush]
        split <;> rfl
      simp only [hp, List.count_cons_self, ne_eq, reduceCtorEq, not_false_eq_true,
        List.count_cons_of_ne, Mempool.mk.injEq, and_self, and_true, true_and]
      ring
    · have hp : (push sz mp .transition).2
          = { mp with stackTransits := mp.stackTransits + sz.transition } := by
        simp only [push, mempoolTransitionPush]
        split <;> rfl
      simp only [hp, List.count_cons_self, ne_eq, reduceCtorEq, not_false_eq_true,
        List.count_cons_of_ne, Mempool.mk.injEq, and_self, and_true, true_and]
      ring

theorem getElem?_pushes (ops : List Push) (mp : Mempool) (i : ℕ) :
    (pushes sz mp ops)[i]?
      = ops[i]?.map fun p => (p, (push sz (poolAfter sz mp (ops.take i)) p).1) := by
  induction ops generalizing mp i with
  | nil => simp [pushes]
  | cons p ops ih =>
    cases i with
    | zero => simp [pushes, poolAfter]
    | succ i => simpa [pushes, poolAfter] using ih (push sz mp p).2 i

/-- The pool `_estate_mempool_new` makes: three adjacent regions. -/
structure Fresh (states transitions : UInt32) (mp : Mempool) : Prop where
  base : mp.base ≤ mp.stackStates
  transits : mp.stackTransits = mp.stackStates + states.toNat * sz.state
  endp : mp.endp = mp.stackTransits + transitions.toNat * sz.transition

theorem mempoolNew_fresh {malloc : ℕ → Option ℕ} {states transitions : UInt32} {mp : Mempool}
    (h : mempoolNew sz malloc states transitions = some mp) : Fresh sz states transitions mp := by
  unfold mempoolNew at h
  split_ifs at h
  simp only [] at h
  split at h
  · simp at h
  · simp only [Option.some.injEq] at h
    subst h
    constructor <;> simp only [] <;> (try omega) <;> ring

section Results

variable {sz} {states transitions : UInt32} {mp : Mempool}

/-- A state push is refused exactly when its block would pass the top of the transitions. -/
theorem push_state_eq (hf : Fresh sz states transitions mp) (pre : List Push) :
    (push sz (poolAfter sz mp pre) .state).1 =
      if states.toNat * sz.state + pre.count .transition * sz.transition
          < (pre.count .state + 1) * sz.state
      then none else some (mp.stackStates + pre.count .state * sz.state) := by
  have hb : (pre.count .state + 1) * sz.state = pre.count .state * sz.state + sz.state := by ring
  simp only [push, mempoolStatePush, poolAfter_eq, hf.transits, hb]
  split_ifs <;> first | rfl | omega

/-- A transition push is refused exactly when its block would pass the end of the pool. -/
theorem push_transition_eq (hf : Fresh sz states transitions mp) (pre : List Push) :
    (push sz (poolAfter sz mp pre) .transition).1 =
      if pre.count .transition < transitions.toNat
      then some (mp.stackTransits + pre.count .transition * sz.transition) else none := by
  have hb : (pre.count .transition + 1) * sz.transition
      = pre.count .transition * sz.transition + sz.transition := by ring
  have hlt : (pre.count .transition + 1) * sz.transition ≤ transitions.toNat * sz.transition
      ↔ pre.count .transition < transitions.toNat := by
    rw [Nat.mul_le_mul_right_iff sz.transition_pos]
    omega
  simp only [push, mempoolTransitionPush, poolAfter_eq, hf.endp]
  split_ifs <;> first | rfl | omega

end Results

/-! ## Disjoint slots -/

/-- Every pointer returned designates a block of the pool, no two blocks overlap, and the pushes
of each kind succeed exactly as often as was announced. -/
structure SlotsDisjoint (mp : Mempool) (states transitions : UInt32)
    (rs : List (Push × Option ℕ)) : Prop where
  inside : ∀ (i : ℕ) (p : Push) (a : ℕ), rs[i]? = some (p, some a) →
    mp.base ≤ a ∧ a + p.size sz ≤ mp.endp
  apart : ∀ (i j : ℕ) (p q : Push) (a b : ℕ), i < j →
    rs[i]? = some (p, some a) → rs[j]? = some (q, some b) →
    a + p.size sz ≤ b ∨ b + q.size sz ≤ a
  states_exact : ∀ i r, rs[i]? = some (.state, r) →
    (r.isSome ↔ ((rs.take i).map Prod.fst).count .state < states.toNat)
  transitions_exact : ∀ i r, rs[i]? = some (.transition, r) →
    (r.isSome ↔ ((rs.take i).map Prod.fst).count .transition < transitions.toNat)

/-- The transition pushes made before the `e`-th state push beyond the announced count have not
freed room for `e` states. -/
def NoRoomFreed (states : UInt32) (ops : List Push) : Prop :=
  ∀ i, ops[i]? = some .state → states.toNat ≤ (ops.take i).count .state →
    (ops.take i).count .transition * sz.transition
      < ((ops.take i).count .state + 1 - states.toNat) * sz.state

theorem map_fst_take_pushes (ops : List Push) (mp : Mempool) (i : ℕ) :
    ((pushes sz mp ops).take i).map Prod.fst = ops.take i := by
  induction ops generalizing mp i with
  | nil => simp [pushes]
  | cons p ops ih =>
    cases i with
    | zero => simp
    | succ i => simp [pushes, ih]

section Exact

variable {sz} {states transitions : UInt32} {mp : Mempool} {ops : List Push}

/-- What a non-NULL result says of the push that returned it. -/
theorem pushes_some (hf : Fresh sz states transitions mp) (hn : NoRoomFreed sz states ops)
    {i : ℕ} {p : Push} {a : ℕ} (h : (pushes sz mp ops)[i]? = some (p, some a)) :
    ops[i]? = some p ∧ match p with
      | .state => (ops.take i).count .state < states.toNat
          ∧ a = mp.stackStates + (ops.take i).count .state * sz.state
      | .transition => (ops.take i).count .transition < transitions.toNat
          ∧ a = mp.stackTransits + (ops.take i).count .transition * sz.transition := by
  rw [getElem?_pushes] at h
  obtain ⟨p', hp', he⟩ := Option.map_eq_some_iff.1 h
  simp only [Prod.mk.injEq] at he
  obtain ⟨rfl, hr⟩ := he
  refine ⟨hp', ?_⟩
  cases p'
  · rw [push_state_eq hf] at hr
    split_ifs at hr with hlt
    simp only [Option.some.injEq] at hr
    refine ⟨?_, hr.symm⟩
    by_contra hge
    have hroom := hn i hp' (not_lt.1 hge)
    have hsplit : ((ops.take i).count .state + 1) * sz.state
        = ((ops.take i).count .state + 1 - states.toNat) * sz.state + states.toNat * sz.state := by
      rw [← Nat.add_mul]
      congr 1
      omega
    omega
  · rw [push_transition_eq hf] at hr
    split_ifs at hr with hlt
    simp only [Option.some.injEq] at hr
    exact ⟨hlt, hr.symm⟩

/-- Of two pushes of one kind, the later one has seen at least one more. -/
theorem count_take_lt {i j : ℕ} {p : Push} (hij : i < j) (hi : ops[i]? = some p) :
    (ops.take i).count p < (ops.take j).count p := by
  have hsub : (ops.take (i + 1)).count p ≤ (ops.take j).count p :=
    (List.take_sublist_take_left (by omega)).count_le p
  have hsucc : (ops.take (i + 1)).count p = (ops.take i).count p + 1 := by
    rw [List.take_add_one, hi]
    simp
  omega

theorem slot_le {c n s : ℕ} (h : c < n) : c * s + s ≤ n * s := by
  have := Nat.mul_le_mul_right s (Nat.succ_le_of_lt h)
  rw [Nat.succ_mul] at this
  exact this

theorem pushes_apart (hf : Fresh sz states transitions mp) (hn : NoRoomFreed sz states ops)
    {i j : ℕ} {p q : Push} {a b : ℕ} (hij : i < j)
    (hi : (pushes sz mp ops)[i]? = some (p, some a))
    (hj : (pushes sz mp ops)[j]? = some (q, some b)) :
    a + p.size sz ≤ b ∨ b + q.size sz ≤ a := by
  obtain ⟨hpi, hi⟩ := pushes_some hf hn hi
  obtain ⟨hqj, hj⟩ := pushes_some hf hn hj
  have htr := hf.transits
  cases p <;> cases q <;> simp only [Push.size] at hi hj ⊢
  · have := slot_le (s := sz.state) (count_take_lt hij hpi)
    omega
  · have := slot_le (s := sz.state) hi.1
    omega
  · have := slot_le (s := sz.state) hj.1
    omega
  · have := slot_le (s := sz.transition) (count_take_lt hij hpi)
    omega

theorem pushes_inside (hf : Fresh sz states transitions mp) (hn : NoRoomFreed sz states ops)
    {i : ℕ} {p : Push} {a : ℕ} (h : (pushes sz mp ops)[i]? = some (p, some a)) :
    mp.base ≤ a ∧ a + p.size sz ≤ mp.endp := by
  obtain ⟨-, h⟩ := pushes_some hf hn h
  have hb := hf.base
  have htr := hf.transits
  have he := hf.endp
  cases p <;> simp only [Push.size] at h ⊢
  · have := slot_le (s := sz.state) h.1
    omega
  · have := slot_le (s := sz.transition) h.1
    omega

/-- The slots of a pool are disjoint, inside it and as many as announced exactly when no state is
pushed into room the transitions have freed. -/
theorem slotsDisjoint_iff {malloc : ℕ → Option ℕ}
    (h : mempoolNew sz malloc states transitions = some mp) :
    SlotsDisjoint sz mp states transitions (pushes sz mp ops) ↔ NoRoomFreed sz states ops := by
  have hf := mempoolNew_fresh sz h
  constructor
  · intro hd i hi hle
    have hr := hd.states_exact i (push sz (poolAfter sz mp (ops.take i)) .state).1 (by
      rw [getElem?_pushes, hi]
      rfl)
    rw [map_fst_take_pushes, push_state_eq hf] at hr
    split_ifs at hr with hlt
    · have hsplit : ((ops.take i).count .state + 1) * sz.state
          = ((ops.take i).count .state + 1 - states.toNat) * sz.state
            + states.toNat * sz.state := by
        rw [← Nat.add_mul]
        congr 1
        omega
      omega
    · simp only [Option.isSome_some, true_iff] at hr
      omega
  · intro hn
    refine ⟨fun i p a => pushes_inside hf hn, fun i j p q a b => pushes_apart hf hn, ?_, ?_⟩
    · intro i r hr
      rw [map_fst_take_pushes]
      constructor
      · intro hs
        obtain ⟨a, rfl⟩ := Option.isSome_iff_exists.1 hs
        exact (pushes_some hf hn hr).2.1
      · intro hlt
        rw [getElem?_pushes] at hr
        obtain ⟨p, hp, he⟩ := Option.map_eq_some_iff.1 hr
        simp only [Prod.mk.injEq] at he
        obtain ⟨rfl, rfl⟩ := he
        rw [push_state_eq hf, if_neg]
        · rfl
        · have := slot_le (s := sz.state) hlt
          rw [Nat.succ_mul]
          omega
    · intro i r hr
      rw [map_fst_take_pushes]
      rw [getElem?_pushes] at hr
      obtain ⟨p, hp, he⟩ := Option.map_eq_some_iff.1 hr
      simp only [Prod.mk.injEq] at he
      obtain ⟨rfl, rfl⟩ := he
      rw [push_transition_eq hf]
      split_ifs with hlt <;> simp [hlt]

end Exact

/-- A new machine: its pool, its counts, and nothing that has happened to it. -/
theorem machineNew_some {heap : Heap} {states transitions : UInt32} {mach : Machine}
    (hnew : machineNew heap states transitions = some mach) :
    mempoolNew heap.sizes heap.malloc states transitions = some mach.mempool ∧
      (mach.statesCount = states ∧ mach.transitCount = transitions) ∧
      (mach.locked = false ∧ mach.inCb = cbUnlocked ∧ mach.cbDefer = []) ∧ mach.data = ∅ := by
  unfold machineNew at hnew
  split at hnew
  · simp at hnew
  · rename_i mp hmp
    split_ifs at hnew
    obtain rfl := Option.some.inj hnew
    exact ⟨hmp, ⟨rfl, rfl⟩, ⟨rfl, rfl, rfl⟩, rfl⟩

section StateNew

variable {W : Type} {heap : Heap} {p q : Process W}

/-- A state with an array of that length. -/
def State.sized (s : State) (n : UInt32) : State :=
  { s with
    transit := if n = 0 then s.transit else List.replicate n.toNat 0
    transitCount := n }

/-- `estate_state_new` pushes a state, and writes the array of the one it gets. -/
theorem stateNew_cases {n : UInt32} {st : Addr} (h : stateNew heap p n = some (q, st)) :
    ((push heap.sizes p.mach.mempool .state).1 = none ∧ st = 0 ∧
        q = p.setMempool (push heap.sizes p.mach.mempool .state).2) ∨
      (push heap.sizes p.mach.mempool .state).1 = some st ∧
        q = (p.setMempool (push heap.sizes p.mach.mempool .state).2).setState st
          ((p.state st).sized n) := by
  unfold stateNew at h
  simp only [push] at h ⊢
  generalize mempoolStatePush heap.sizes p.mach.mempool = r at h ⊢
  rcases r with ⟨_ | st', mp⟩ <;> simp only [] at h ⊢
  · obtain ⟨rfl, rfl⟩ := Prod.mk.inj (Option.some.inj h)
    exact .inl ⟨trivial, rfl, rfl⟩
  · refine .inr ?_
    split_ifs at h with hn <;> obtain ⟨rfl, rfl⟩ := Prod.mk.inj (Option.some.inj h)
    · exact ⟨rfl, by simp only [State.sized, if_neg hn]; rfl⟩
    · exact ⟨rfl, by simp only [State.sized, if_pos (not_not.1 hn)]; rfl⟩

/-- It comes back unless there is no memory for that array. -/
theorem stateNew_isSome_iff {n : UInt32} : (stateNew heap p n).isSome = true ↔
    (n ≠ 0 → ∀ st, (push heap.sizes p.mach.mempool .state).1 = some st →
      heap.calloc st n = true) := by
  unfold stateNew
  simp only [push]
  generalize mempoolStatePush heap.sizes p.mach.mempool = r
  rcases r with ⟨_ | st, mp⟩
  · simp
  · simp only [Option.some.injEq, forall_eq']
    by_cases hn : n = 0 <;> by_cases hc : heap.calloc st n = true <;> simp [hn, hc]

end StateNew

/-- The structures as a 64-bit build lays them out. -/
def lp64 : Sizes := ⟨40, 88, 88, 128, by decide, by decide⟩

theorem slotsDisjoint_iff_lp64 :
    SlotsDisjoint lp64 ⟨140, 228, 404, 532, 0, 0⟩ 2 1
        (pushes lp64 ⟨140, 228, 404, 532, 0, 0⟩ [.state, .transition, .state])
      ↔ NoRoomFreed lp64 2 [.state, .transition, .state] :=
  slotsDisjoint_iff (show mempoolNew lp64 (fun _ => some 100) 2 1 = some _ by decide)

/-- With one state and one transition announced, a second state pushed after the transition is
handed the transition's room. -/
theorem slots_overlap :
    ¬ ∀ (sz : Sizes) (malloc : ℕ → Option ℕ) (states transitions : UInt32) (mp : Mempool)
        (ops : List Push), mempoolNew sz malloc states transitions = some mp →
      SlotsDisjoint sz mp states transitions (pushes sz mp ops) := by
  intro h
  have hd := h lp64 (fun _ => some 4096) 1 1 ⟨4136, 4224, 4312, 4440, 0, 0⟩ [.transition, .state, .state]
    (by decide)
  have := hd.apart 0 2 .transition .state 4312 4312 (by decide) (by decide) (by decide)
  revert this
  decide

end Estate
