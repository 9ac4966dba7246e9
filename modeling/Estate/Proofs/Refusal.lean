import Estate.Proofs.Free

/-!
# Registrations that are refused

`estate_machine_state_add` and `estate_machine_transition_add` count a registration before they
test it against the limit, so one that is refused has been counted all the same. Every registration
of a kind is accepted as long as the limit is not passed (`machineAdds_refuses_iff`), or where no
32-bit counter can pass it.
-/

namespace Estate

variable {W : Type}

/-- `estate_machine_state_add` or `estate_machine_transition_add`. -/
def machineAdd (p : Process W) (c : Push × Addr) : Process W × Bool :=
  match c.1 with
  | .state => machineStateAdd p c.2
  | .transition => machineTransitionAdd p c.2

def machineAdds (p : Process W) (calls : List (Push × Addr)) : Process W :=
  calls.foldl (fun p c => (machineAdd p c).1) p

/-- How many calls that register something of a kind have returned true. -/
def accepted (p : Process W) (kind : Push) : List (Push × Addr) → ℕ
  | [] => 0
  | c :: calls =>
    (if c.1 = kind ∧ (machineAdd p c).2 = true then 1 else 0) + accepted (machineAdd p c).1 kind calls

/-- What was announced when the machine was made. -/
def Machine.announced (m : Machine) : Push → UInt32
  | .state => m.statesCount
  | .transition => m.transitCount

/-- A call that returns false leaves everything as it was, and a machine is locked after as many
calls that return true as it was announced. -/
structure AddsKeep (p : Process W) (calls : List (Push × Addr)) : Prop where
  refused : ∀ pre c post, calls = pre ++ c :: post → (machineAdd (machineAdds p pre) c).2 = false →
    (machineAdd (machineAdds p pre) c).1 = machineAdds p pre
  lock : ∀ current, current ≠ 0 → ((machineLock (machineAdds p calls) current).mach.locked = true ↔
    ∀ kind, accepted p kind calls = (p.mach.announced kind).toNat)

/-- A call that registers something of a kind, unless the machine is locked. -/
def Registers (kind : Push) (c : Push × Addr) : Bool := c.1 = kind && c.2 ≠ 0

/-- How many calls register something of a kind. -/
def asked (kind : Push) (calls : List (Push × Addr)) : ℕ := calls.countP (Registers kind)

/-- The element that brings a count past a bound. -/
theorem exists_split_of_lt_countP {α : Type*} {f : α → Bool} {k : ℕ} :
    ∀ {l : List α}, k < l.countP f →
      ∃ pre a post, l = pre ++ a :: post ∧ f a = true ∧ pre.countP f = k
  | [], h => by simp at h
  | a :: l, h => by
    by_cases ha : f a = true
    · rw [List.countP_cons_of_pos ha] at h
      rcases k with _ | k
      · exact ⟨[], a, l, rfl, ha, rfl⟩
      · obtain ⟨pre, b, post, rfl, hb, hk⟩ := exists_split_of_lt_countP (Nat.lt_of_succ_lt_succ h)
        exact ⟨a :: pre, b, post, rfl, hb, by rw [List.countP_cons_of_pos ha, hk]⟩
    · rw [List.countP_cons_of_neg ha] at h
      obtain ⟨pre, b, post, rfl, hb, hk⟩ := exists_split_of_lt_countP h
      exact ⟨a :: pre, b, post, rfl, hb, by rw [List.countP_cons_of_neg ha, hk]⟩

section Step

variable {p : Process W} {c : Push × Addr} {kind : Push}

/-- A registration of an unlocked machine raises the counter of its kind, and returns whether the
counter is within the limit. -/
theorem machineAdd_spec (hl : p.mach.locked = false) (hc : c.2 ≠ 0) :
    (machineAdd p c).2 = decide (p.mach.mempool.reg c.1 + 1 ≤ p.mach.announced c.1) ∧
      (machineAdd p c).1.mach.mempool.reg c.1 = p.mach.mempool.reg c.1 + 1 := by
  have hanswer : ∀ {r s : UInt32} {q : Process W},
      (if r > s then (q, false) else (q, true)) = (q, decide (r ≤ s)) := by
    intro r s q
    split_ifs with h
    · rw [decide_eq_false (UInt32.not_le.2 h)]
    · rw [decide_eq_true (UInt32.not_lt.1 h)]
  obtain ⟨kind, a⟩ := c
  cases kind
  · simp only [machineAdd, machineStateAdd, if_neg hc, hl, Bool.false_eq_true, if_false, hanswer]
    exact ⟨rfl, rfl⟩
  · simp only [machineAdd, machineTransitionAdd, if_neg hc, hl, Bool.false_eq_true, if_false,
      hanswer]
    exact ⟨rfl, rfl⟩

theorem machineAdd_null (hc : c.2 = 0) : machineAdd p c = (p, false) := by
  obtain ⟨kind, a⟩ := c
  cases kind <;> exact if_pos hc

/-- The lock, what was announced and the other counter are left alone. -/
theorem machineAdd_keeps (p : Process W) (c : Push × Addr) :
    (machineAdd p c).1.mach.locked = p.mach.locked ∧
      (∀ kind, (machineAdd p c).1.mach.announced kind = p.mach.announced kind) ∧
      ∀ kind, kind ≠ c.1 → (machineAdd p c).1.mach.mempool.reg kind = p.mach.mempool.reg kind := by
  obtain ⟨kind, a⟩ := c
  cases kind <;> simp only [machineAdd, machineStateAdd, machineTransitionAdd] <;> split_ifs <;>
    refine ⟨rfl, fun kind => by cases kind <;> rfl, fun kind hk => ?_⟩ <;>
    cases kind <;> first | rfl | exact absurd rfl hk

theorem machineAdd_reg (hl : p.mach.locked = false) (kind : Push) :
    (machineAdd p c).1.mach.mempool.reg kind =
      p.mach.mempool.reg kind + if Registers kind c then 1 else 0 := by
  by_cases hc : c.2 = 0
  · simp [machineAdd_null hc, Registers, hc]
  · by_cases hk : c.1 = kind
    · subst hk
      simp [(machineAdd_spec hl hc).2, Registers, hc]
    · simp [(machineAdd_keeps p c).2.2 kind (Ne.symm hk), Registers, hk]

end Step

section Run

variable {p : Process W} {calls : List (Push × Addr)}

@[simp]
theorem machineAdds_cons (c : Push × Addr) :
    machineAdds p (c :: calls) = machineAdds (machineAdd p c).1 calls := rfl

theorem asked_cons (kind : Push) (c : Push × Addr) (calls : List (Push × Addr)) :
    asked kind (c :: calls) = asked kind calls + if Registers kind c then 1 else 0 :=
  List.countP_cons

theorem machineAdds_spec (calls : List (Push × Addr)) (hl : p.mach.locked = false) :
    (machineAdds p calls).mach.locked = false ∧
      (∀ kind, (machineAdds p calls).mach.announced kind = p.mach.announced kind) ∧
      ∀ kind, (machineAdds p calls).mach.mempool.reg kind =
        p.mach.mempool.reg kind + UInt32.ofNat (asked kind calls) := by
  induction calls generalizing p with
  | nil => exact ⟨hl, fun _ => rfl, fun _ => by simp [machineAdds, asked]⟩
  | cons c calls ih =>
    obtain ⟨hlock, hann, -⟩ := machineAdd_keeps p c
    obtain ⟨h₁, h₂, h₃⟩ := ih (hlock.trans hl)
    refine ⟨h₁, fun kind => (h₂ kind).trans (hann kind), fun kind => ?_⟩
    rw [machineAdds_cons, h₃ kind, machineAdd_reg hl kind, asked_cons]
    split_ifs
    · rw [UInt32.ofNat_add, UInt32.add_assoc, UInt32.add_comm 1]
      rfl
    · rw [UInt32.add_zero, Nat.add_zero]

/-- Every call that registers something returns true. -/
def AllAccepted (p : Process W) (calls : List (Push × Addr)) : Prop :=
  ∀ pre c post, calls = pre ++ c :: post → c.2 ≠ 0 → (machineAdd (machineAdds p pre) c).2 = true

/-- A call that registers something changes the machine, so it must not be refused. -/
theorem refused_iff (hl : p.mach.locked = false) :
    (∀ pre c post, calls = pre ++ c :: post → (machineAdd (machineAdds p pre) c).2 = false →
      (machineAdd (machineAdds p pre) c).1 = machineAdds p pre) ↔ AllAccepted p calls := by
  constructor
  · intro h pre c post hsplit hc
    obtain ⟨hlock, -, -⟩ := machineAdds_spec pre hl
    by_contra hfalse
    have hsame := h pre c post hsplit (by simpa using hfalse)
    have hreg := (machineAdd_spec hlock hc).2
    rw [hsame, UInt32.left_eq_add] at hreg
    exact absurd hreg (by decide)
  · intro h pre c post hsplit hfalse
    by_cases hc : c.2 = 0
    · rw [machineAdd_null hc]
    · rw [h pre c post hsplit hc] at hfalse
      exact absurd hfalse (by simp)

theorem accepted_eq (hl : p.mach.locked = false) (h : AllAccepted p calls) (kind : Push) :
    accepted p kind calls = asked kind calls := by
  induction calls generalizing p with
  | nil => rfl
  | cons c calls ih =>
    have hrest : AllAccepted (machineAdd p c).1 calls := fun pre c' post hsplit hc =>
      h (c :: pre) c' post (congrArg (c :: ·) hsplit) hc
    rw [accepted, ih ((machineAdd_keeps p c).1.trans hl) hrest, asked_cons, Nat.add_comm]
    by_cases hc : c.2 = 0
    · simp [machineAdd_null hc, Registers, hc]
    · simp [show (machineAdd p c).2 = true from h [] c calls rfl hc, Registers, hc]

theorem machineLock_locked_iff {current : Addr} (hl : p.mach.locked = false) (hc : current ≠ 0) :
    (machineLock p current).mach.locked = true ↔
      ∀ kind, p.mach.mempool.reg kind = p.mach.announced kind := by
  have hkinds : (∀ kind, p.mach.mempool.reg kind = p.mach.announced kind) ↔
      p.mach.mempool.statesReg = p.mach.statesCount ∧
        p.mach.mempool.transitReg = p.mach.transitCount :=
    ⟨fun h => ⟨h .state, h .transition⟩, fun h kind => by cases kind; exacts [h.1, h.2]⟩
  rw [hkinds, machineLock, if_neg hc]
  split_ifs with hs ht
  · simp [hl, hs]
  · simp [hl, ht]
  · simp [not_not.1 hs, not_not.1 ht]

variable (hl : p.mach.locked = false) (hreg : ∀ kind, p.mach.mempool.reg kind = 0)

include hl hreg

theorem machineAdds_reg (kind : Push) :
    (machineAdds p calls).mach.mempool.reg kind = UInt32.ofNat (asked kind calls) := by
  rw [(machineAdds_spec calls hl).2.2 kind, hreg kind, UInt32.zero_add]

/-- Nothing is refused while the limit is not passed, and by a limit no counter can pass. -/
theorem allAccepted_iff : AllAccepted p calls ↔ ∀ kind,
    asked kind calls ≤ (p.mach.announced kind).toNat ∨
      (p.mach.announced kind).toNat = 2 ^ 32 - 1 := by
  have hanswer : ∀ pre c, c.2 ≠ 0 → ((machineAdd (machineAdds p pre) c).2 = true ↔
      (asked c.1 pre + 1) % 2 ^ 32 ≤ (p.mach.announced c.1).toNat) := by
    intro pre c hc
    obtain ⟨hlock, hann, -⟩ := machineAdds_spec pre hl
    rw [(machineAdd_spec hlock hc).1, machineAdds_reg hl hreg, hann, decide_eq_true_iff,
      UInt32.le_iff_toNat_le, UInt32.toNat_add, UInt32.toNat_ofNat', UInt32.toNat_one,
      Nat.mod_add_mod]
  constructor
  · intro h kind
    by_contra! hpast
    obtain ⟨hlt, hmax⟩ := hpast
    -- The call that passes the limit finds the counter at it.
    obtain ⟨pre, c, post, rfl, hc, hk⟩ := exists_split_of_lt_countP hlt
    obtain ⟨rfl, hnull⟩ : c.1 = kind ∧ c.2 ≠ 0 := by simpa [Registers] using hc
    have hle := (hanswer pre c hnull).1 (h pre c post rfl hnull)
    have hbound := (p.mach.announced c.1).toNat_lt
    rw [asked, hk] at hle
    omega
  · intro h pre c post hsplit hc
    rw [hanswer pre c hc]
    have hasked : asked c.1 pre + 1 ≤ asked c.1 calls := by
      rw [hsplit, asked, asked, List.countP_append, List.countP_cons_of_pos (by simp [Registers, hc])]
      omega
    rcases h c.1 with hle | hmax <;> omega

/-- Registrations keep their promises if and only if no limit can be passed, and no counter that
wraps around comes back to one. -/
theorem addsKeep_iff : AddsKeep p calls ↔
    (∀ kind, asked kind calls ≤ (p.mach.announced kind).toNat ∨
      (p.mach.announced kind).toNat = 2 ^ 32 - 1) ∧
    ((∀ kind, asked kind calls % 2 ^ 32 = (p.mach.announced kind).toNat) →
      ∀ kind, asked kind calls = (p.mach.announced kind).toNat) := by
  have hlock : ∀ current, current ≠ 0 →
      ((machineLock (machineAdds p calls) current).mach.locked = true ↔
        ∀ kind, asked kind calls % 2 ^ 32 = (p.mach.announced kind).toNat) := by
    intro current hc
    obtain ⟨hopen, hann, -⟩ := machineAdds_spec calls hl
    rw [machineLock_locked_iff hopen hc]
    refine forall_congr' fun kind => ?_
    rw [machineAdds_reg hl hreg, hann, ← UInt32.toNat_inj, UInt32.toNat_ofNat']
  have hall : ∀ kind, asked kind calls = (p.mach.announced kind).toNat →
      asked kind calls % 2 ^ 32 = (p.mach.announced kind).toNat := fun kind h => by
    rw [h, Nat.mod_eq_of_lt (p.mach.announced kind).toNat_lt]
  rw [← allAccepted_iff hl hreg]
  constructor
  · intro h
    have hacc := (refused_iff hl).1 h.refused
    refine ⟨hacc, fun hwrap kind => ?_⟩
    rw [← accepted_eq hl hacc kind]
    exact (h.lock 1 one_ne_zero).1 ((hlock 1 one_ne_zero).2 hwrap) kind
  · rintro ⟨hacc, hwrap⟩
    refine ⟨(refused_iff hl).2 hacc, fun current hc => ?_⟩
    rw [hlock current hc]
    simp only [accepted_eq hl hacc]
    exact ⟨hwrap, fun h kind => hall kind (h kind)⟩

end Run

/-! ## One registration too many -/

/-- The two states and the transition that a machine is made for. -/
def announcedAdds : List (Push × Addr) := [(.state, 4224), (.state, 4312), (.transition, 4400)]

theorem announcedAdds_keep : AddsKeep newMachine announcedAdds := by
  refine (addsKeep_iff rfl fun kind => by cases kind <;> rfl).2 ⟨fun kind => ?_, fun _ kind => ?_⟩
  · cases kind <;> decide
  · cases kind <;> decide

/-- A third state is refused, and the machine is not locked any more. -/
theorem thirdState_not_kept : ¬ AddsKeep newMachine ((.state, 4224) :: announcedAdds) := by
  intro h
  have hlocked := (h.lock 4224 (by decide)).2 (by intro kind; cases kind <;> decide)
  exact absurd hlocked (by decide)

end Estate
