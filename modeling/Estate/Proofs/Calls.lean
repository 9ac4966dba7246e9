import Estate.Proofs.Load
import Estate.Proofs.Shares

/-!
# The calls of a loader

A loader that comes to its end has built its machine by calls of the library: a slot is taken for
each state and each transition, and then each of these slots is initialised once (`run_built`). So
what is known of the whole life of a machine is known of a generated one.
-/

namespace Estate

variable {W : Type} {heap : Heap} {p q r : Process W}

theorem build_append {calls calls' : List BuildCall} (h : build heap p calls = some q)
    (h' : build heap q calls' = some r) : build heap p (calls ++ calls') = some r := by
  rw [build, List.foldlM_append]
  exact Option.bind_eq_some_iff.2 ⟨q, h, h'⟩

theorem initialised_append {calls' : List BuildCall} {kind : Push} :
    ∀ {calls : List BuildCall} {p : Process W}, build heap p calls = some q →
      initialised heap p (calls ++ calls') kind =
        initialised heap p calls kind ++ initialised heap q calls' kind
  | [], p, h => by
    obtain rfl : p = q := Option.some.inj h
    rfl
  | c :: calls, p, h => by
    obtain ⟨p', hc, hb⟩ := build_cons.1 h
    simp only [List.cons_append, initialised, hc, initialised_append hb, List.append_assoc]

/-- Calls lead from one process to another, make these pushes and initialise these slots. -/
def Makes (heap : Heap) (p q : Process W) (ops : List Push) (done : Push → List Addr) : Prop :=
  ∃ calls, build heap p calls = some q ∧ calls.filterMap BuildCall.push = ops ∧
    ∀ kind, initialised heap p calls kind = done kind

theorem Makes.nil : Makes heap p p [] fun _ => [] := ⟨[], rfl, rfl, fun _ => rfl⟩

theorem Makes.one {c : BuildCall} (h : buildCall heap p c = some q) :
    Makes heap p q c.push.toList (inited p c) := by
  refine ⟨[c], build_cons.2 ⟨q, h, rfl⟩, ?_, fun kind => ?_⟩
  · rcases hc : c.push with _ | op <;> simp [hc]
  · simp only [initialised, h, List.append_nil]

theorem Makes.append {ops ops' : List Push} {done done' : Push → List Addr}
    (h : Makes heap p q ops done) (h' : Makes heap q r ops' done') :
    Makes heap p r (ops ++ ops') fun kind => done kind ++ done' kind := by
  obtain ⟨calls, hb, rfl, hdone⟩ := h
  obtain ⟨calls', hb', rfl, hdone'⟩ := h'
  refine ⟨calls ++ calls', build_append hb hb', List.filterMap_append, fun kind => ?_⟩
  rw [initialised_append hb, hdone, hdone']

theorem Makes.congr {ops : List Push} {done done' : Push → List Addr} (h : Makes heap p q ops done)
    (hdone : ∀ kind, done kind = done' kind) : Makes heap p q ops done' := by
  obtain ⟨calls, hb, hops, hinit⟩ := h
  exact ⟨calls, hb, hops, fun kind => (hinit kind).trans (hdone kind)⟩

namespace Cc

open Lib

variable {prog : Program} {l l' : Loading W}

/-! ## The statements -/

/-- The slots that a statement takes. -/
def Stmt.pushes : Stmt → List Push
  | .stateNew _ _ => [.state]
  | .transitionNew _ => [.transition]
  | .stateInit _ _ _ _ | .transitionInit _ _ _ _ _ _ => []

/-- The slots that a statement initialises. -/
def Stmt.inits (l : Loading W) : Stmt → Push → List Addr
  | .stateInit s _ _ _, .state => [(l.stateVar s).getD 0]
  | .transitionInit t _ _ _ _ _, .transition => [(l.transitVar t).getD 0]
  | .stateInit _ _ _ _, .transition | .transitionInit _ _ _ _ _ _, .state => []
  | .stateNew _ _, _ | .transitionNew _, _ => []

theorem exec_makes {stmt : Stmt} (h : stmt.exec heap prog l = some l') :
    Makes heap l.proc l'.proc stmt.pushes (stmt.inits l) := by
  cases stmt with
  | stateNew s n =>
    simp only [Stmt.exec, Option.bind_eq_bind, Option.bind_eq_some_iff, Option.some.injEq] at h
    obtain ⟨_, -, r, hnew, ⟨p, st⟩, hr, rfl⟩ := h
    obtain ⟨rfl, -⟩ := nonNull_some hr
    have hcall : buildCall heap l.proc (.stateNew (UInt32.ofNat n)) = some p := by
      rw [buildCall, hnew, Option.map_some]
    exact (Makes.one hcall).congr fun kind => by cases kind <;> rfl
  | transitionNew t =>
    simp only [Stmt.exec, Option.bind_eq_bind, Option.bind_eq_some_iff, Option.some.injEq] at h
    obtain ⟨_, -, ⟨p, tr⟩, hnew, rfl⟩ := h
    have hcall : buildCall heap l.proc .transitionNew = some p := by
      rw [buildCall, (nonNull_some hnew).1]
    exact (Makes.one hcall).congr fun kind => by cases kind <;> rfl
  | stateInit s trs enterer exiter =>
    simp only [Stmt.exec, Option.bind_eq_bind, Option.bind_eq_some_iff, Option.some.injEq] at h
    obtain ⟨st, hst, array, -, e, -, x, -, p, hinit, q, hadd, rfl⟩ := h
    have hinit' := checked_some hinit
    have hfirst : buildCall heap l.proc (.stateInit st (some s) (if trs = [] then none else some array)
        (UInt32.ofNat trs.length) (some e) (some x)) = some p := by
      rw [buildCall, hinit']
    have hsecond : buildCall heap p (.stateAdd st) = some q := by
      rw [buildCall, checked_some hadd]
    refine ((Makes.one hfirst).append (.one hsecond)).congr fun kind => ?_
    cases kind
    · simp only [inited, statesInited, hinit', if_true, Stmt.inits, hst, Option.getD_some,
        List.append_nil]
    · rfl
  | transitionInit t fromState toState cb enterer exiter =>
    simp only [Stmt.exec, Option.bind_eq_bind, Option.bind_eq_some_iff, Option.some.injEq] at h
    obtain ⟨tr, htr, src, -, dst, -, c, -, e, -, x, -, ⟨p, b⟩, hinit, q, hq, r, hadd, rfl⟩ := h
    obtain ⟨rfl, rfl⟩ := Prod.mk.inj (checked_some hq)
    have hfirst : buildCall heap l.proc (.transitionInit tr (some t) src dst (some c) (some e)
        (some x)) = some p := by
      rw [buildCall, hinit, Option.map_some]
    have hsecond : buildCall heap p (.transitionAdd tr) = some r := by
      rw [buildCall, checked_some hadd]
    refine ((Makes.one hfirst).append (.one hsecond)).congr fun kind => ?_
    cases kind
    · rfl
    · simp only [inited, transitionsInited, hinit, Option.map_some, if_true, Stmt.inits, htr,
        Option.getD_some, List.append_nil]

/-- Statements that initialise nothing. -/
theorem allocs_make : ∀ {stmts : List Stmt} {l : Loading W},
    (∀ stmt ∈ stmts, ∀ (l : Loading W) kind, stmt.inits l kind = []) →
      stmts.foldlM (Stmt.exec heap prog) l = some l' →
        Makes heap l.proc l'.proc (stmts.flatMap Stmt.pushes) fun _ => []
  | [], l, _, h => by
    obtain rfl : l = l' := Option.some.inj h
    exact .nil
  | stmt :: stmts, l, hnone, h => by
    obtain ⟨l₁, hstep, hrest⟩ := Option.bind_eq_some_iff.1 ((List.foldlM_cons).symm.trans h)
    have htail := allocs_make (fun s hs => hnone s (List.mem_cons_of_mem _ hs)) hrest
    exact ((exec_makes hstep).append htail).congr fun kind => by
      rw [hnone stmt List.mem_cons_self, List.append_nil]

/-- A statement that takes no slot assigns no variable. -/
theorem exec_vars {stmt : Stmt} (hstmt : stmt.pushes = []) (h : stmt.exec heap prog l = some l') :
    l'.stateVar = l.stateVar ∧ l'.transitVar = l.transitVar := by
  cases stmt with
  | stateNew s n => simp [Stmt.pushes] at hstmt
  | transitionNew t => simp [Stmt.pushes] at hstmt
  | stateInit s trs enterer exiter =>
    obtain ⟨hsv, htv, -⟩ := exec_stateInit h
    exact ⟨hsv, htv⟩
  | transitionInit t fromState toState cb enterer exiter =>
    obtain ⟨hsv, htv, -⟩ := exec_transitionInit h
    exact ⟨hsv, htv⟩

theorem inits_congr {stmt : Stmt} (hs : l'.stateVar = l.stateVar)
    (ht : l'.transitVar = l.transitVar) (kind : Push) : stmt.inits l' kind = stmt.inits l kind := by
  cases stmt <;> cases kind <;> simp only [Stmt.inits, hs, ht]

/-- Statements that take no slot. -/
theorem inits_make : ∀ {stmts : List Stmt} {l : Loading W},
    (∀ stmt ∈ stmts, stmt.pushes = []) → stmts.foldlM (Stmt.exec heap prog) l = some l' →
      l'.stateVar = l.stateVar ∧ l'.transitVar = l.transitVar ∧
        Makes heap l.proc l'.proc [] fun kind => stmts.flatMap fun stmt => stmt.inits l kind
  | [], l, _, h => by
    obtain rfl : l = l' := Option.some.inj h
    exact ⟨rfl, rfl, .nil⟩
  | stmt :: stmts, l, hnone, h => by
    obtain ⟨l₁, hstep, hrest⟩ := Option.bind_eq_some_iff.1 ((List.foldlM_cons).symm.trans h)
    obtain ⟨hsv, htv⟩ := exec_vars (hnone stmt List.mem_cons_self) hstep
    have hhead := exec_makes hstep
    rw [hnone stmt List.mem_cons_self] at hhead
    obtain ⟨hsv', htv', htail⟩ := inits_make (fun s hs => hnone s (List.mem_cons_of_mem _ hs)) hrest
    refine ⟨hsv'.trans hsv, htv'.trans htv, (hhead.append htail).congr fun kind => ?_⟩
    rw [List.flatMap_cons]
    simp only [inits_congr hsv htv]

/-! ## The variables -/

/-- The states get the blocks above the top of their stack, one after the other. -/
theorem allocStates_places {ss : List State} (hd : (ss.map State.name).Nodup)
    (h : ss.foldlM (fun (l : Loading W) s => (eachStatesGcAllocCb s).exec heap prog l) l = some l') :
    (ss.map fun s => (l'.stateVar s.name).getD 0) = (List.range ss.length).map fun i =>
      l.proc.mach.mempool.stackStates + i * heap.sizes.state := by
  refine foldlM_places (fun l x => (l.stateVar x).getD 0)
    (fun l => l.proc.mach.mempool.stackStates) (fun l s l' hexec => ?_) (fun l s l' hexec => ?_)
    (fun l s l' hexec x hx => ?_) hd h
  · obtain ⟨-, -, -, -, hmach, -⟩ := exec_stateNew hexec
    rw [hmach]
  · obtain ⟨-, -, hsv, -⟩ := exec_stateNew hexec
    simp only [hsv, Function.update_self, Option.getD_some]
  · obtain ⟨-, -, hsv, -⟩ := exec_stateNew hexec
    simp only [hsv, Function.update_of_ne hx]

/-- The transitions get theirs. -/
theorem allocTransits_places {ts : List Transit} (hd : (ts.map Transit.name).Nodup)
    (h : ts.foldlM (fun (l : Loading W) t => (eachTransitionsGcAllocCb t).exec heap prog l) l =
      some l') :
    (ts.map fun t => (l'.transitVar t.name).getD 0) = (List.range ts.length).map fun i =>
      l.proc.mach.mempool.stackTransits + i * heap.sizes.transition := by
  refine foldlM_places (fun l x => (l.transitVar x).getD 0)
    (fun l => l.proc.mach.mempool.stackTransits) (fun l t l' hexec => ?_)
    (fun l t l' hexec => ?_) (fun l t l' hexec x hx => ?_) hd h
  · obtain ⟨-, -, rfl⟩ := exec_transitionNew hexec
    rfl
  · obtain ⟨-, -, rfl⟩ := exec_transitionNew hexec
    simp
  · obtain ⟨-, -, rfl⟩ := exec_transitionNew hexec
    simp [hx]

section Whole

variable {ord : HashOrder} {gen : Placement} {f : Fsm} {shares : Stringshare → ℤ} {w : W}

/-- The states as they are initialised are the states of the FSM with their arrays. -/
theorem gathered_perm (hf : f.Named) : (ord.foreach (gatheredStates ord gen f)).Perm
    (f.stateList.map fun s => { s with trs := outgoing ord gen f s.name }) := by
  have hkeys : f.stateList.map State.name = f.states.keys := by
    simp only [Fsm.stateList, AList.keys, List.keys, List.map_map]
    exact List.map_congr_left hf.state_name
  have hnames : ((f.stateList.map fun s => { s with trs := outgoing ord gen f s.name }).map
      State.name).Nodup := by
    rw [List.map_map]
    exact hkeys ▸ f.states.keys_nodup
  refine (List.perm_ext_iff_of_nodup (gatheredStates_names hf).1.of_map hnames.of_map).2 fun s => ?_
  rw [List.mem_map]
  constructor
  · intro hs
    obtain ⟨u, hu, rfl⟩ := gathered_of_mem hf hs
    exact ⟨u, hu, rfl⟩
  · rintro ⟨u, hu, rfl⟩
    exact gathered_mem hf hu

/-- The slots of a kind that are handed out by pushes within what was announced. -/
theorem slots_eq {states transitions : UInt32} {mach : Machine} {calls : List BuildCall}
    (hnew : machineNew heap states transitions = some mach)
    (hpushed : ∀ kind, (calls.filterMap BuildCall.push).count kind = announced states transitions kind)
    (kind : Push) : slots heap mach.mempool calls kind =
      (List.range (announced states transitions kind)).map fun i =>
        mach.mempool.top kind + i * kind.size heap.sizes := by
  have hhanded : Handed (mach.mempool.top kind) (kind.size heap.sizes)
      (answers heap mach.mempool calls kind) := results_handed _ _ _ _
  have hlen : (answers heap mach.mempool calls kind).length = announced states transitions kind :=
    (results_length _ _ _ _).trans (hpushed kind)
  rw [← hlen]
  exact hhanded.reduceOption_eq (results_some (mempoolNew_fresh _ (machineNew_some hnew).1)
    (fun kind => (hpushed kind).le) kind)

theorem pushes_states : ∀ ss : List State,
    (ss.map eachStatesGcAllocCb).flatMap Stmt.pushes = List.replicate ss.length .state
  | [] => rfl
  | s :: ss => by
    rw [List.map_cons, List.flatMap_cons, pushes_states ss]
    rfl

theorem pushes_transits : ∀ ts : List Transit,
    (ts.map eachTransitionsGcAllocCb).flatMap Stmt.pushes = List.replicate ts.length .transition
  | [] => rfl
  | t :: ts => by
    rw [List.map_cons, List.flatMap_cons, pushes_transits ts]
    rfl

theorem inits_states (l : Loading W) : ∀ ss : List State,
    ((ss.map eachStatesGcInitCb).flatMap fun stmt => stmt.inits l .state) =
        (ss.map fun s => (l.stateVar s.name).getD 0) ∧
      ((ss.map eachStatesGcInitCb).flatMap fun stmt => stmt.inits l .transition) = []
  | [] => ⟨rfl, rfl⟩
  | s :: ss => by
    obtain ⟨hstate, htransition⟩ := inits_states l ss
    rw [List.map_cons, List.flatMap_cons, List.flatMap_cons, hstate, htransition]
    exact ⟨rfl, rfl⟩

theorem inits_transits (l : Loading W) : ∀ ts : List Transit,
    ((ts.map eachTransitionsGcInitCb).flatMap fun stmt => stmt.inits l .state) = [] ∧
      ((ts.map eachTransitionsGcInitCb).flatMap fun stmt => stmt.inits l .transition) =
        ts.map fun t => (l.transitVar t.name).getD 0
  | [] => ⟨rfl, rfl⟩
  | t :: ts => by
    obtain ⟨hstate, htransition⟩ := inits_transits l ts
    rw [List.map_cons, List.flatMap_cons, List.flatMap_cons, hstate, htransition]
    exact ⟨rfl, rfl⟩

/-- The variables of a loader hold the slots from the bottoms of the two stacks upwards. -/
theorem allocs_places (hf : f.Named) {l l₁ l₂ : Loading W}
    (h₁ : ((ord.foreach f.states).map (gatherTrs ord gen f)).foldlM
      (fun l s => (eachStatesGcAllocCb s).exec heap prog l) l = some l₁)
    (h₂ : (ord.foreach f.transitions).foldlM
      (fun l t => (eachTransitionsGcAllocCb t).exec heap prog l) l₁ = some l₂) :
    ((ord.foreach f.states).map fun s => (l₂.stateVar s.name).getD 0) =
        ((List.range f.states.entries.length).map fun i =>
          l.proc.mach.mempool.stackStates + i * heap.sizes.state) ∧
      ((ord.foreach f.transitions).map fun t => (l₂.transitVar t.name).getD 0) =
        (List.range f.transitions.entries.length).map fun i =>
          l.proc.mach.mempool.stackTransits + i * heap.sizes.transition := by
  have hstates : ((ord.foreach f.states).map State.name).Nodup :=
    (foreach_names hf.state_name ord).nodup_iff.2 f.states.keys_nodup
  have htransits : ((ord.foreach f.transitions).map Transit.name).Nodup :=
    (foreach_names hf.transit_name ord).nodup_iff.2 f.transitions.keys_nodup
  have hlens : (ord.foreach f.states).length = f.states.entries.length := by
    rw [(foreach_perm ord f.states).length_eq, List.length_map]
  have hlent : (ord.foreach f.transitions).length = f.transitions.entries.length := by
    rw [(foreach_perm ord f.transitions).length_eq, List.length_map]
  -- The transitions are allocated behind the states, and leave their variables alone.
  have hvars : l₂.stateVar = l₁.stateVar := by
    refine @foldlM_inv _ _ _ (fun l => l.stateVar = l₁.stateVar) (fun l t l' hl hexec => ?_) _ _ _ rfl h₂
    obtain ⟨-, -, rfl⟩ := exec_transitionNew hexec
    exact hl
  have htop : l₁.proc.mach.mempool.stackTransits = l.proc.mach.mempool.stackTransits := by
    refine @foldlM_inv _ _ _ (fun l' => l'.proc.mach.mempool.stackTransits =
      l.proc.mach.mempool.stackTransits) (fun l' s l'' hl hexec => ?_) _ _ _ rfl h₁
    obtain ⟨-, -, -, -, hmach, -⟩ := exec_stateNew hexec
    rw [hmach]
    exact hl
  have hnames : ((ord.foreach f.states).map (gatherTrs ord gen f)).map State.name =
      (ord.foreach f.states).map State.name := by
    rw [List.map_map]
    exact List.map_congr_left fun s _ => gatherTrs_name s
  have hfirst := allocStates_places (hnames ▸ hstates) h₁
  have hsecond := allocTransits_places htransits h₂
  rw [List.map_map, List.length_map, hlens] at hfirst
  rw [hlent, htop] at hsecond
  refine ⟨?_, hsecond⟩
  rw [← hfirst, hvars]
  exact List.map_congr_left fun s _ => by rw [Function.comp_apply, gatherTrs_name]

theorem announced_lengths (hs : f.states.entries.length < 2 ^ 32)
    (ht : f.transitions.entries.length < 2 ^ 32) :
    announced (UInt32.ofNat f.states.entries.length) (UInt32.ofNat f.transitions.entries.length)
        .state = f.states.entries.length ∧
      announced (UInt32.ofNat f.states.entries.length) (UInt32.ofNat f.transitions.entries.length)
        .transition = f.transitions.entries.length :=
  ⟨UInt32.toNat_ofNat_of_lt' (by simpa using hs), UInt32.toNat_ofNat_of_lt' (by simpa using ht)⟩

/-- A loader takes as many slots as its machine is made for. -/
theorem allocs_count (hs : f.states.entries.length < 2 ^ 32)
    (ht : f.transitions.entries.length < 2 ^ 32) (kind : Push) :
    ((((ord.foreach f.states).map (gatherTrs ord gen f)).map eachStatesGcAllocCb ++
      (ord.foreach f.transitions).map eachTransitionsGcAllocCb).flatMap Stmt.pushes).count kind =
        announced (UInt32.ofNat f.states.entries.length)
          (UInt32.ofNat f.transitions.entries.length) kind := by
  rw [List.flatMap_append, pushes_states, pushes_transits, List.count_append, List.count_replicate,
    List.count_replicate, List.length_map, (foreach_perm ord f.states).length_eq,
    (foreach_perm ord f.transitions).length_eq, List.length_map, List.length_map]
  cases kind
  · simp [(announced_lengths hs ht).1]
  · simp [(announced_lengths hs ht).2]

theorem gathered_names_perm (hf : f.Named) :
    ((ord.foreach (gatheredStates ord gen f)).map State.name).Perm
      ((ord.foreach f.states).map State.name) :=
  ((List.perm_ext_iff_of_nodup (gatheredStates_names hf).1 f.states.keys_nodup).2
    (gatheredStates_names hf).2).trans (foreach_names hf.state_name ord).symm

/-- The calls of a loader that comes to its end. -/
theorem run_built (hf : f.Named) (h : (loader ord gen f).run heap prog shares w = some l) :
    ∃ mach calls,
      machineNew heap (UInt32.ofNat f.states.entries.length)
        (UInt32.ofNat f.transitions.entries.length) = some mach ∧
      build heap (.fresh mach shares w) calls = some l.proc ∧
      BuiltOnce heap (UInt32.ofNat f.states.entries.length)
        (UInt32.ofNat f.transitions.entries.length) (.fresh mach shares w) calls ∧
      ((ord.foreach (gatheredStates ord gen f)).map fun s => (l.stateVar s.name).getD 0).Perm
        (slots heap mach.mempool calls .state) := by
  obtain ⟨hsmalls, hsmallt⟩ := counts_of_run hf h
  obtain ⟨mach, hmach, l₁, l₂, l₃, h₁, h₂, h₃, h₄⟩ := run_batches h
  obtain ⟨hplaces, hplacet⟩ := allocs_places hf h₁ h₂
  have hfirst : (((ord.foreach f.states).map (gatherTrs ord gen f)).map eachStatesGcAllocCb ++
      (ord.foreach f.transitions).map eachTransitionsGcAllocCb).foldlM (Stmt.exec heap prog)
        { proc := .fresh mach shares w
          stateVar := declare ((ord.foreach f.states).map State.name)
          transitVar := declare ((ord.foreach f.transitions).map Transit.name) } = some l₂ := by
    simp only [List.foldlM_append, List.foldlM_map, Option.bind_eq_bind, Option.bind_eq_some_iff]
    exact ⟨l₁, by rwa [List.foldlM_map] at h₁, h₂⟩
  have hsecond : ((ord.foreach (gatheredStates ord gen f)).map eachStatesGcInitCb ++
      (ord.foreach f.transitions).map eachTransitionsGcInitCb).foldlM (Stmt.exec heap prog) l₂ =
        some l := by
    simp only [List.foldlM_append, List.foldlM_map, Option.bind_eq_bind, Option.bind_eq_some_iff]
    exact ⟨l₃, h₃, h₄⟩
  have hmade := allocs_make (fun stmt hstmt l kind => by
    simp only [List.mem_append, List.mem_map] at hstmt
    rcases hstmt with ⟨s, -, rfl⟩ | ⟨t, -, rfl⟩ <;> cases kind <;> rfl) hfirst
  obtain ⟨hsv, -, hdone⟩ := inits_make (fun stmt hstmt => by
    simp only [List.mem_append, List.mem_map] at hstmt
    rcases hstmt with ⟨s, -, rfl⟩ | ⟨t, -, rfl⟩ <;> rfl) hsecond
  obtain ⟨calls, hbuild, hops, hcalls⟩ := hmade.append hdone
  have hpushed : ∀ kind, (calls.filterMap BuildCall.push).count kind =
      announced (UInt32.ofNat f.states.entries.length)
        (UInt32.ofNat f.transitions.entries.length) kind := by
    intro kind
    rw [hops, List.append_nil, allocs_count hsmalls hsmallt]
  have hstates : ((ord.foreach (gatheredStates ord gen f)).map fun s =>
      (l₂.stateVar s.name).getD 0).Perm (slots heap mach.mempool calls .state) := by
    have hperm := (@gathered_names_perm ord gen f hf).map fun x => (l₂.stateVar x).getD 0
    simp only [List.map_map, Function.comp_def] at hperm
    rw [hplaces] at hperm
    rw [slots_eq hmach hpushed, (announced_lengths hsmalls hsmallt).1]
    exact hperm
  refine ⟨mach, calls, hmach, hbuild, ⟨hpushed, fun kind => ?_⟩, ?_⟩
  · simp only [hcalls, List.nil_append, List.flatMap_append]
    cases kind
    · rw [(inits_states l₂ _).1, (inits_transits l₂ _).1, List.append_nil]
      exact hstates
    · rw [(inits_states l₂ _).2, (inits_transits l₂ _).2, List.nil_append, hplacet]
      show List.Perm _ (slots heap mach.mempool calls .transition)
      rw [slots_eq hmach hpushed, (announced_lengths hsmalls hsmallt).2]
      exact List.Perm.refl _
  · rw [hsv]
    exact hstates

end Whole

end Cc

end Estate
