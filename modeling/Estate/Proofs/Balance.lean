import Estate.Proofs.Ledger
import Estate.Proofs.Defined
import Estate.Proofs.Listing
import Estate.Proofs.Main

/-!
# The balance of `estate_cc`

Behind the parser: the check keeps a reference of every key it makes and of every initial state it
deduces, the generators give back what they take or the states hold it, and `main` undoes what it
has set up, whatever fails.
-/

namespace Estate.Cc

open Lib

section Check

variable {beyond : ℕ → Char} {ord : HashOrder} {f : Fsm}

/-- What the states of a machine hold. -/
def statesHold (states : EinaHash State) : Multiset Res :=
  ((states.entries.map Sigma.snd).map State.holds).sum

/-- What is made for an end without a name: a state that is in no hash. -/
def unnamed (name : Option Stringshare) : Multiset Res := if name = none then {.state} else 0

/-- What the check keeps of a transition that it has looked at. -/
def Transit.examined (beyond : ℕ → Char) (t : Transit) : Multiset Res :=
  unnamed t.fromState + (unnamed t.toState + held (some (transitKey beyond t)))

theorem touch_spends {states : EinaHash State} {name : Option Stringshare} {count : State → State}
    (hcount : ∀ s, (count s).holds = s.holds) : Spends (statesHold states) (stateTouchOps states name)
      (statesHold (stateTouch states name count) + unnamed name) := by
  rcases name with _ | n
  · have hnew := (Spends.takes [Res.state]).frame (statesHold states)
    rwa [zero_add, add_comm] at hnew
  rcases hl : states.lookup n with _ | s
  · have hops : stateTouchOps states (some n) = stateNewOps (some n) := by
      simp only [stateTouchOps, hashFind, hl]
    have hsum : statesHold (stateTouch states (some n) count) =
        statesHold states + (stateNew n).holds := by
      simp only [stateTouch, hashFind, hl, hashAdd, statesHold]
      rw [sum_insert (AList.lookup_eq_none.1 hl), hcount]
    have hnew := (stateNew_spends n).frame (statesHold states)
    rw [zero_add, add_comm, ← hsum] at hnew
    rw [hops, unnamed, if_neg (by simp), add_zero]
    exact hnew
  · have hops : stateTouchOps states (some n) = [] := by simp only [stateTouchOps, hashFind, hl]
    have hsum : statesHold (stateTouch states (some n) count) = statesHold states + 0 := by
      simp only [stateTouch, hashFind, hl, statesHold]
      exact sum_modify hl (by rw [hcount, add_zero])
    rw [hops, hsum, unnamed, if_neg (by simp), add_zero, add_zero]
    exact .nil

theorem examine_spends (states : EinaHash State) (t : Transit) :
    Spends (statesHold states)
      (stateTouchOps states t.fromState ++
        (stateTouchOps (stateTouch states t.fromState countFrom) t.toState ++
          shareOps (some (transitKey beyond t))))
      (statesHold (touch states t) + t.examined beyond) := by
  have hfrom : Spends (statesHold states) (stateTouchOps states t.fromState)
      (statesHold (stateTouch states t.fromState countFrom) + unnamed t.fromState) :=
    touch_spends fun _ => rfl
  have hto : Spends (statesHold (stateTouch states t.fromState countFrom))
      (stateTouchOps (stateTouch states t.fromState countFrom) t.toState)
      (statesHold (touch states t) + unnamed t.toState) := touch_spends fun _ => rfl
  have hkey := (shareOps_spends (some (transitKey beyond t))).frame
    (statesHold (touch states t) + unnamed t.toState + unnamed t.fromState)
  have hsum : statesHold (touch states t) + t.examined beyond =
      held (some (transitKey beyond t)) +
        (statesHold (touch states t) + unnamed t.toState + unnamed t.fromState) := by
    rw [Transit.examined]
    abel
  rw [zero_add, ← hsum] at hkey
  exact hfrom.append ((hto.frame _).append hkey)

/-- The check keeps something of each transition that it looks at, and looks at all of them where it
goes on. -/
theorem deduce_spends : ∀ {ts : List Transit} {cache : Cache}, ∃ seen, seen <+: ts ∧
    Spends (statesHold cache.states) (deduceStatesOps beyond ts cache)
      (statesHold (deduceStates beyond ts cache).states +
        (seen.map (Transit.examined beyond)).sum) ∧
      ((deduceStates beyond ts cache).ok = true → seen = ts)
  | [], cache => by
    refine ⟨[], List.prefix_refl _, ?_, fun _ => rfl⟩
    rw [List.map_nil, List.sum_nil, add_zero]
    exact Spends.nil
  | t :: ts, cache => by
    have hone := @examine_spends beyond cache.states t
    rcases hfind : hashFind cache.hash (some (transitKey beyond t)) with _ | u
    · obtain ⟨seen, hseen, hspends, hall⟩ := @deduce_spends ts
        { cache with
          states := touch cache.states t
          hash := hashAdd cache.hash (some (transitKey beyond t)) t }
      have hcb : stateDeductionCb beyond cache t = ({ cache with
          states := touch cache.states t
          hash := hashAdd cache.hash (some (transitKey beyond t)) t }, true) := by
        simp only [stateDeductionCb, hfind, touch]
      refine ⟨t :: seen, List.prefix_cons_inj t |>.2 hseen, ?_, fun hok => ?_⟩
      · simp only [deduceStatesOps, deduceStates, hcb, if_true]
        have hframe := hspends.frame (t.examined beyond)
        rw [List.map_cons, List.sum_cons, add_comm (t.examined beyond), ← add_assoc]
        simpa only [List.append_assoc] using hone.append hframe
      · simp only [deduceStates, hcb, if_true] at hok
        rw [hall hok]
    · have hcb : stateDeductionCb beyond cache t =
          ({ cache with states := touch cache.states t, ok := false }, false) := by
        simp only [stateDeductionCb, hfind, touch]
      refine ⟨[t], by simp, ?_, fun hok => ?_⟩
      · simp only [deduceStatesOps, deduceStates, hcb, Bool.false_eq_true, if_false, List.append_nil]
        simpa using hone
      · simp only [deduceStates, hcb, Bool.false_eq_true, if_false] at hok

/-- The references and the objects without a hash that are never given back. -/
def Small (m : Multiset Res) : Prop := ∀ r ∈ m, r = .state ∨ r = .transit ∨ ∃ s, r = .string s

theorem Small.zero : Small 0 := fun r hr => absurd hr (Multiset.notMem_zero r)

theorem Small.add {m m' : Multiset Res} (h : Small m) (h' : Small m') : Small (m + m') := by
  intro r hr
  rcases Multiset.mem_add.1 hr with hr | hr
  · exact h r hr
  · exact h' r hr

theorem Small.sum {α : Type} {l : List α} {g : α → Multiset Res} (h : ∀ x ∈ l, Small (g x)) :
    Small (l.map g).sum := by
  induction l with
  | nil => exact .zero
  | cons x l ih =>
    rw [List.map_cons, List.sum_cons]
    exact (h x List.mem_cons_self).add (ih fun y hy => h y (List.mem_cons_of_mem x hy))

theorem small_held (s : Option Stringshare) : Small (held s) := by
  intro r hr
  obtain ⟨x, -, rfl⟩ := List.mem_map.1 (Multiset.mem_coe.1 hr)
  exact .inr (.inr ⟨x, rfl⟩)

theorem small_one {r : Res} (h : r = .state ∨ r = .transit) : Small {r} := by
  intro r' hr
  obtain rfl := Multiset.mem_singleton.1 hr
  exact h.imp_right .inl

theorem small_examined (t : Transit) : Small (t.examined beyond) := by
  have hunnamed : ∀ name, Small (unnamed name) := by
    intro name
    unfold unnamed
    split_ifs
    · exact small_one (.inl rfl)
    · exact .zero
  exact (hunnamed _).add ((hunnamed _).add (small_held _))

/-- What the check keeps of a machine that it accepts. -/
def Fsm.examined (ord : HashOrder) (beyond : ℕ → Char) (f : Fsm) : Multiset Res :=
  (f.transits.map (Transit.examined beyond)).sum + held (sources ord f).getLast?

/-- What a machine holds besides its states. -/
def Fsm.others (f : Fsm) : Multiset Res :=
  held (some f.name) + (((f.transits.map Transit.holds).sum + {.hash}) +
    ({.hash} + (((f.dataKeys.entries.map fun e => held (some e.2)).sum + {.hash}) + {.fsm})))

theorem holds_eq : f.holds = statesHold f.states + f.others := by
  simp only [Fsm.holds, Fsm.others, statesHold, Fsm.stateList]
  abel

theorem checkFsm_holds (hash : EinaHash Transit) (f : Fsm) :
    (checkFsm ord beyond hash f).2.2.holds =
      statesHold (deduceStates beyond (ord.foreach f.transitions)
        { hash := hash, states := f.states, ok := true, init := none, initCount := 0 }).states +
      f.others := by
  rw [holds_eq]
  unfold checkFsm
  simp only
  split_ifs
  · rfl
  · rfl
  · split
    · split_ifs <;> rfl
    all_goals rfl

/-- The initial state that the check of a machine takes a reference of. -/
def initTaken (ord : HashOrder) (beyond : ℕ → Char) (hash : EinaHash Transit) (f : Fsm) :
    Option Stringshare :=
  if (checkFsm ord beyond hash f).2.1 then
    ((ord.foreach (checkFsm ord beyond hash f).2.2.states).foldl stateInitDeductionCb
      { hash := hash, states := f.states, ok := true, init := none, initCount := 0 }).init
  else none

theorem initTaken_eq {hash : EinaHash Transit} (hp : f.Parsed)
    (hok : (checkFsm ord beyond hash f).2.1 = true) :
    initTaken ord beyond hash f = (sources ord f).getLast? := by
  obtain ⟨ha, hn⟩ := admissible_of_checkFsm hp hok
  rw [initTaken, if_pos hok, checkFsm_of_admissible hp ha hn]
  exact congrArg Cache.init (init_of_deducedStates f.states true)

/-- What the check of one machine keeps. -/
theorem checkFsm_spends (hash : EinaHash Transit) (f : Fsm) : ∃ kept, Small kept ∧
    Spends f.holds (checkFsmOps ord beyond hash f)
      ((checkFsm ord beyond hash f).2.2.holds + kept) ∧
    ((checkFsm ord beyond hash f).2.1 = true → f.Parsed → kept = f.examined ord beyond) := by
  obtain ⟨seen, -, hspends, hall⟩ := @deduce_spends beyond (ord.foreach f.transitions)
    { hash := hash, states := f.states, ok := true, init := none, initCount := 0 }
  refine ⟨(seen.map (Transit.examined beyond)).sum + held (initTaken ord beyond hash f),
    (Small.sum fun t _ => small_examined t).add (small_held _), ?_, fun hok hp => ?_⟩
  · have hinit : Spends 0 (if (checkFsm ord beyond hash f).2.1 then
        shareOps ((ord.foreach (checkFsm ord beyond hash f).2.2.states).foldl stateInitDeductionCb
          { hash := hash, states := f.states, ok := true, init := none, initCount := 0 }).init
        else []) (held (initTaken ord beyond hash f)) := by
      unfold initTaken
      split_ifs
      · exact shareOps_spends _
      · exact .nil
    have hframe := hspends.frame f.others
    rw [← holds_eq] at hframe
    have hlast := hinit.frame (statesHold (deduceStates beyond (ord.foreach f.transitions)
      { hash := hash, states := f.states, ok := true, init := none, initCount := 0 }).states +
        (seen.map (Transit.examined beyond)).sum + f.others)
    rw [zero_add] at hlast
    have hsum : (checkFsm ord beyond hash f).2.2.holds +
        ((seen.map (Transit.examined beyond)).sum + held (initTaken ord beyond hash f)) =
        held (initTaken ord beyond hash f) +
          (statesHold (deduceStates beyond (ord.foreach f.transitions)
            { hash := hash, states := f.states, ok := true, init := none, initCount := 0 }).states +
              (seen.map (Transit.examined beyond)).sum + f.others) := by
      rw [checkFsm_holds]
      abel
    rw [hsum]
    exact hframe.append hlast
  · obtain ⟨ha, hn⟩ := admissible_of_checkFsm hp hok
    have hdeduced := caches_of_keysNew ((keysNew_foreach ord).2 ⟨ha.keys, hn⟩)
    rw [hall (by rw [hdeduced]), initTaken_eq hp hok, Fsm.examined,
      ((foreach_transitions_perm ord f).map (Transit.examined beyond)).sum_eq]

/-- What the check of the machines keeps. -/
theorem checkLoop_spends : ∀ (fsms : List Fsm) (hash : EinaHash Transit), ∃ kept, Small kept ∧
    Spends (fsms.map Fsm.holds).sum (checkLoopOps ord beyond hash fsms)
      (((checkLoop ord beyond hash fsms).2.map Fsm.holds).sum + kept) ∧
    ((checkLoop ord beyond hash fsms).1 = true → (∀ f ∈ fsms, f.Parsed) →
      kept = (fsms.map (Fsm.examined ord beyond)).sum)
  | [], hash => ⟨0, .zero, .nil, fun _ _ => rfl⟩
  | f :: fsms, hash => by
    obtain ⟨kept, hsmall, hspends, hall⟩ := @checkFsm_spends beyond ord hash f
    have hframe := hspends.frame (fsms.map Fsm.holds).sum
    rcases hc : checkFsm ord beyond hash f with ⟨hash', ok, g⟩
    rw [hc] at hframe hall
    rcases ok with _ | _
    · have hloop : checkLoop ord beyond hash (f :: fsms) = (false, g :: fsms) := by
        simp only [checkLoop, hc]
      have hops : checkLoopOps ord beyond hash (f :: fsms) = checkFsmOps ord beyond hash f := by
        simp only [checkLoopOps, hc, List.append_nil]
      refine ⟨kept, hsmall, ?_, fun h => ?_⟩
      · rw [hloop, hops, List.map_cons, List.sum_cons, List.map_cons, List.sum_cons,
          add_right_comm]
        exact hframe
      · rw [hloop] at h
        cases h
    · obtain ⟨kept', hsmall', hspends', hall'⟩ := checkLoop_spends fsms hash'
      have hloop : checkLoop ord beyond hash (f :: fsms) =
          ((checkLoop ord beyond hash' fsms).1, g :: (checkLoop ord beyond hash' fsms).2) := by
        simp only [checkLoop, hc]
      have hops : checkLoopOps ord beyond hash (f :: fsms) =
          checkFsmOps ord beyond hash f ++ checkLoopOps ord beyond hash' fsms := by
        simp only [checkLoopOps, hc]
      refine ⟨kept + kept', hsmall.add hsmall', ?_, fun h hp => ?_⟩
      · have hnext := hspends'.frame (g.holds + kept)
        have hin : (fsms.map Fsm.holds).sum + (g.holds + kept) =
            g.holds + kept + (fsms.map Fsm.holds).sum := add_comm _ _
        have hout : ((g :: (checkLoop ord beyond hash' fsms).2).map Fsm.holds).sum + (kept + kept') =
            ((checkLoop ord beyond hash' fsms).2.map Fsm.holds).sum + kept' + (g.holds + kept) := by
          rw [List.map_cons, List.sum_cons]
          abel
        rw [hin] at hnext
        rw [hloop, hops, List.map_cons, List.sum_cons, hout]
        exact hframe.append hnext
      · rw [hloop] at h
        rw [List.map_cons, List.sum_cons, hall rfl (hp f List.mem_cons_self),
          hall' h fun g hg => hp g (List.mem_cons_of_mem _ hg)]

/-- The check gives back its hash, and keeps references. -/
theorem checkStates_spends (fsms : List Fsm) : ∃ kept, Small kept ∧
    Spends (fsms.map Fsm.holds).sum (checkStatesOps ord beyond fsms)
      (((checkStates ord beyond fsms).2.map Fsm.holds).sum + kept) ∧
    ((checkStates ord beyond fsms).1 = true → (∀ f ∈ fsms, f.Parsed) →
      kept = (fsms.map (Fsm.examined ord beyond)).sum) := by
  obtain ⟨kept, hsmall, hspends, hall⟩ := @checkLoop_spends beyond ord fsms ∅
  refine ⟨kept, hsmall, ?_, hall⟩
  have htake := (Spends.takes [Res.hash]).frame (fsms.map Fsm.holds).sum
  have hgive := (Spends.gives [Res.hash]).frame
    (((checkLoop ord beyond ∅ fsms).2.map Fsm.holds).sum + kept)
  rw [zero_add, add_comm] at htake
  rw [zero_add, add_comm] at hgive
  exact htake.append ((hspends.frame _).append hgive)

end Check

section Generate

variable {env : CcEnv} {f : Fsm}

/-- The array that a state is given for its transitions. -/
def arrayOf (env : CcEnv) (f : Fsm) (s : State) : Multiset Res :=
  if (gatherTrs env.ord env.addr f s).trs ≠ [] then {.array} else 0

theorem gathered_holds {s : State} (hs : s.trs = []) :
    (gatherTrs env.ord env.addr f s).holds = s.holds + arrayOf env f s := by
  rw [arrayOf, gatherTrs_eq hs]
  simp only [State.holds, hs, ne_eq, not_true_eq_false, if_false]
  abel

/-- Every state is given its array once. -/
theorem gather_sum : ∀ {l : List State} {states : EinaHash State}, (l.map State.name).Nodup →
    (∀ s ∈ l, states.lookup s.name = some s ∧ s.trs = []) →
      statesHold (l.foldl (fun states s => hashModify states s.name (gatherTrs env.ord env.addr f))
        states) = statesHold states + (l.map (arrayOf env f)).sum
  | [], states, _, _ => by simp
  | s :: l, states, hd, hl => by
    obtain ⟨hs, hd⟩ := List.nodup_cons.1 hd
    obtain ⟨⟨hlookup, htrs⟩, hl⟩ := List.forall_mem_cons.1 hl
    have hone : statesHold (hashModify states s.name (gatherTrs env.ord env.addr f)) =
        statesHold states + arrayOf env f s := sum_modify hlookup (gathered_holds htrs)
    have hrest : ∀ u ∈ l, (hashModify states s.name (gatherTrs env.ord env.addr f)).lookup u.name =
        some u ∧ u.trs = [] := by
      intro u hu
      have hne : u.name ≠ s.name := fun heq => hs (heq ▸ List.mem_map_of_mem hu)
      rw [lookup_hashModify, if_neg hne]
      exact hl u hu
    rw [List.foldl_cons, gather_sum hd hrest, hone, List.map_cons, List.sum_cons, add_assoc]

theorem gather_spends (hf : f.Named) :
    Spends f.holds (gatherOps env f) (gather env f).holds := by
  have hd : ((env.ord.foreach f.states).map State.name).Nodup :=
    (foreach_names hf.state_name env.ord).nodup_iff.2 f.states.keys_nodup
  have hsum : statesHold (gatheredStates env.ord env.addr f) =
      statesHold f.states + ((env.ord.foreach f.states).map (arrayOf env f)).sum := by
    refine gather_sum hd fun s hs => ?_
    obtain ⟨x, hx⟩ := mem_foreach.1 hs
    have hmem := mem_entries_iff.2 hx
    exact ⟨(hf.state_name _ hmem).symm ▸ hx, hf.state_trs _ hmem⟩
  have hops : Spends 0 (gatherOps env f) ((env.ord.foreach f.states).map (arrayOf env f)).sum := by
    refine Spends.flatMap_take fun s _ => ?_
    unfold arrayOf
    split_ifs
    · exact .takes [Res.array]
    · exact .nil
  have hframe := hops.frame f.holds
  have hout : (gather env f).holds =
      ((env.ord.foreach f.states).map (arrayOf env f)).sum + f.holds := by
    rw [holds_eq, @holds_eq f]
    show statesHold (gatheredStates env.ord env.addr f) + f.others = _
    rw [hsum]
    abel
  rwa [zero_add, ← hout] at hframe

theorem gatherAll_spends : ∀ {fsms : List Fsm}, (∀ f ∈ fsms, f.Named) →
    Spends (fsms.map Fsm.holds).sum (fsms.flatMap (gatherOps env))
      ((fsms.map (gather env)).map Fsm.holds).sum
  | [], _ => .nil
  | f :: fsms, h => by
    obtain ⟨hf, h⟩ := List.forall_mem_cons.1 h
    have hone := (@gather_spends env f hf).frame (fsms.map Fsm.holds).sum
    have hrest := (gatherAll_spends h).frame (gather env f).holds
    rw [add_comm, add_comm _ (gather env f).holds] at hrest
    simp only [List.flatMap_cons, List.map_cons, List.sum_cons]
    exact hone.append hrest

theorem stream_spends {file : Option Path} {mid : List (Op Res)} {m m' : Multiset Res}
    (h : Spends m mid m') :
    Spends m (streamOps env file mid) (if writable env file then m' else m) := by
  rcases file with _ | path
  · exact h
  simp only [streamOps, writable]
  by_cases hp : env.fopen path = true
  · simp only [hp, if_true]
    have htake := (Spends.takes [Res.stream]).frame m
    have hgive := (Spends.gives [Res.stream]).frame m'
    have hmid := h.frame {Res.stream}
    rw [add_comm, add_comm m'] at hmid
    rw [zero_add] at htake hgive
    exact htake.append (hmid.append hgive)
  · simp only [hp, Bool.false_eq_true, if_false]
    exact .nil

/-- The states hold what the generators keep. -/
theorem generate_spends {st : Settings} {fsms : List Fsm} (h : ∀ f ∈ fsms, f.Named) :
    Spends (fsms.map Fsm.holds).sum (generateOps env st fsms)
      ((generatedFsms env st fsms).map Fsm.holds).sum := by
  have hquiet : ∀ (m : Multiset Res) (b : Bool),
      Spends m (if b then streamOps env st.output [] else []) m := by
    intro m b
    split_ifs
    · have hstream : Spends m (streamOps env st.output []) _ := stream_spends (.nil : Spends m [] m)
      rwa [ite_self] at hstream
    · exact .nil
  have hgc : Spends (fsms.map Fsm.holds).sum
      (if st.gc then streamOps env st.output (fsms.flatMap (gatherOps env)) else [])
      ((generatedFsms env st fsms).map Fsm.holds).sum := by
    unfold generatedFsms
    by_cases hc : st.gc = true
    · have hstream := @stream_spends env st.output _ _ _ (@gatherAll_spends env fsms h)
      simp only [hc, if_true, true_and]
      split_ifs at hstream ⊢ <;> exact hstream
    · simp only [hc, Bool.false_eq_true, if_false, false_and]
      exact .nil
  exact (hquiet _ _).append (hgc.append (hquiet _ _))

end Generate

section Main

variable {env : CcEnv} {st : Settings}

/-- What behind the parser is kept, and all the rest given back. -/
theorem process_spends {fsms : List Fsm} (hp : ∀ f ∈ fsms, f.Parsed) : ∃ kept, Small kept ∧
    Spends ((fsms.map Fsm.holds).sum + ({.mapping} + ({.file} + {.parser})))
      (processOps env st fsms) kept ∧
    ((checkStates env.ord env.beyond fsms).1 = true →
      kept = (fsms.map (Fsm.examined env.ord env.beyond)).sum) := by
  obtain ⟨kept, hsmall, hcheck, hall⟩ := @checkStates_spends env.beyond env.ord fsms
  refine ⟨kept, hsmall, ?_, fun hv => hall hv hp⟩
  have hnamed : ∀ f ∈ (checkStates env.ord env.beyond fsms).2, f.Named := fun f hf =>
    (checkLoop_keeps (fun g hg => ⟨(hp g hg).transit_name, (hp g hg).state_name,
      fun e he => ((hp g hg).state_fresh e he).2.2⟩) f hf).1
  have hgenerate := (@generate_spends env st _ hnamed).frame (kept + ({.mapping} + ({.file} + {.parser})))
  have hfree := (parseFree_spends env.ord (generatedFsms env st
    (checkStates env.ord env.beyond fsms).2)).frame (kept + ({.mapping} + ({.file} + {.parser})))
  have hlast : Spends ({.mapping} + ({.file} + {.parser})) (parserFreeOps env.ord [] true) 0 :=
    Spends.gives [Res.mapping, .file, .parser]
  have hend := hlast.frame kept
  have hcheck' := hcheck.frame ({.mapping} + ({.file} + {.parser}))
  rw [add_assoc] at hcheck'
  rw [zero_add, add_comm kept] at hfree
  rw [zero_add] at hend
  rw [add_comm kept] at hgenerate
  rw [add_comm kept] at hcheck'
  exact hcheck'.append (hgenerate.append (hfree.append hend))

theorem keeps_sum (fsms : List Fsm) : (fsms.map Fsm.keeps).sum =
    (fsms.map Fsm.holds).sum + (fsms.map fun f => held f.init).sum := by
  induction fsms with
  | nil => rfl
  | cons f fsms ih =>
    simp only [List.map_cons, List.sum_cons, ih, Fsm.keeps]
    abel

theorem small_inits (fsms : List Fsm) : Small (fsms.map fun f => held f.init).sum :=
  Small.sum fun _ _ => small_held _

theorem small_holdsOf (lost : List Transit) : Small (holdsOf lost) :=
  Small.sum fun _ _ => (small_held _).add <| (small_held _).add <| (small_held _).add <|
    (small_held _).add <| (small_held _).add (small_one (.inr rfl))

theorem Loss.small {last : Multiset Res} (h : Loss last) : Small last := by
  rcases h with rfl | ⟨s, rfl | rfl | rfl⟩
  · exact .zero
  · exact small_held _
  · exact (small_held _).add <| (small_held _).add <| (small_held _).add <| (small_held _).add <|
      (small_held _).add (Small.add .zero (small_one (.inl rfl)))
  · exact (small_held _).add <| (small_held _).add <| (small_held _).add <| (small_held _).add <|
      (small_held _).add (small_one (.inr rfl))

/-- What is left of a file that is read to its end and accepted. -/
def Parser.leaves (p : Parser) (env : CcEnv) (lost : List Transit) : Multiset Res :=
  holdsOf lost + (p.fsms.map fun f => held f.init + f.examined env.ord env.beyond).sum

theorem parserFree_spends (ord : HashOrder) (fsms : List Fsm) :
    Spends ((fsms.map Fsm.holds).sum + ({.mapping} + ({.file} + {.parser})))
      (parserFreeOps ord fsms true) 0 :=
  (parseFree_spends ord fsms).clear (Spends.gives [Res.mapping, .file, .parser])

/-- With a parser, all is given back but small things, whether the file can be read or not. -/
theorem parser_spends (opens : Path → Bool) (input : Path) : ∃ left, Small left ∧
    Spends {.parser} (parserOps env opens st input) left ∧
    ∀ src r p, env.map input = some src → parseRun src = .ok (r, p) → p.fsms ≠ [] →
      (checkStates env.ord env.beyond p.fsms).1 = true →
        ∃ lost, Lost lost ∧ lost.length = p.anonymous ∧ left = p.leaves env lost := by
  rcases hm : env.map input with _ | src
  · refine ⟨0, .zero, ?_, by simp⟩
    simp only [parserOps, hm]
    have hset : Spends {Res.parser} (parserFileSetOps (opens input) false) {Res.parser} := by
      rcases opens input
      · exact .nil
      · exact (Spends.take Res.file).cons (.give Res.file)
    exact hset.append (Spends.gives [Res.parser])
  obtain ⟨lost, last, hlost, hlast, hparse, hend⟩ := parse_spends src
  have hset : Spends {Res.parser} (parserFileSetOps true true)
      ({.mapping} + ({.file} + {.parser})) :=
    (Spends.take Res.file).cons (Spends.take Res.mapping)
  have hread : Spends {Res.parser} (parserFileSetOps true true ++ (parserParseOps src).1)
      (((parserParseOps src).2.map Fsm.holds).sum + ({.mapping} + ({.file} + {.parser})) +
        (((parserParseOps src).2.map fun f => held f.init).sum + holdsOf lost + last)) := by
    have hparsed := hparse.frame ({.mapping} + ({.file} + {.parser}))
    rw [zero_add, keeps_sum] at hparsed
    refine hset.append ?_
    convert hparsed using 1
    abel
  have hsmall : Small (((parserParseOps src).2.map fun f => held f.init).sum +
      holdsOf lost + last) :=
    ((small_inits _).add (small_holdsOf lost)).add hlast.small
  rcases hout : parserParse src with _ | ⟨f, fsms⟩
  · refine ⟨_, hsmall, ?_, fun src' r p hsrc hrun hne => ?_⟩
    · have hfree := (parserFree_spends env.ord (parserParseOps src).2).frame
        (((parserParseOps src).2.map fun f => held f.init).sum + holdsOf lost + last)
      rw [zero_add] at hfree
      simp only [parserOps, hm, hout]
      simpa only [List.append_assoc] using hread.append hfree
    · obtain rfl := Option.some.inj hsrc
      rw [parserParse, hrun] at hout
      exact absurd hout hne
  · have hp : ∀ g ∈ f :: fsms, g.Parsed := hout ▸ parserParse_parsed src
    obtain ⟨r, p, hrun, hfsms⟩ : ∃ r p, parseRun src = .ok (r, p) ∧ p.fsms = f :: fsms := by
      rcases hrun : parseRun src with e | ⟨r, p⟩
      · simp [parserParse, hrun] at hout
      · exact ⟨r, p, rfl, by simpa only [parserParse, hrun] using hout⟩
    obtain ⟨hleft, hzero, hcount⟩ := hend r p hrun
    obtain ⟨kept, hkept, hprocess, hexact⟩ := @process_spends env st (f :: fsms) hp
    rw [hleft, hfsms] at hread hsmall
    refine ⟨_, hkept.add hsmall, ?_, fun src' r' p' hsrc hrun' _ hv => ?_⟩
    · have hframe := hprocess.frame (((f :: fsms).map fun f => held f.init).sum + holdsOf lost + last)
      simp only [parserOps, hm, hout]
      simpa only [List.append_assoc] using hread.append hframe
    · obtain rfl := Option.some.inj hsrc
      obtain ⟨rfl, rfl⟩ := Prod.mk.inj (Except.ok.inj (hrun.symm.trans hrun'))
      refine ⟨lost, hlost, hcount, ?_⟩
      rw [hfsms] at hv
      rw [hexact hv, hzero, Parser.leaves, hfsms, List.sum_map_add]
      abel

/-- The frame of `main` around a run that holds a parser: the array of the parser stays. -/
theorem frame_spends {ops : List (Op Res)} {left : Multiset Res} (h : Spends {.parser} ops left) :
    Spends 0 ([.take .eina] ++
      (([.take .logDomain] ++ ((parserNewOps ++ ops) ++ [.give .logDomain])) ++ [.give .eina]))
      ({.blocks} + left) := by
  have hnew : Spends 0 parserNewOps ({.parser} + {.blocks}) := Spends.takes [Res.parser, .blocks]
  have hrun := hnew.append (h.frame {.blocks})
  rw [add_comm left] at hrun
  exact Spends.bracket (.take Res.eina) (.bracket (.take Res.logDomain) hrun (.give _)) (.give _)

/-- `main` gets to its parser. -/
def ParserMade (env : CcEnv) (opts : List Opt) (operands : List Path) : Prop :=
  ∃ st input, readOptions {} opts = .ok st ∧ st.formats = 1 ∧ operands = [input] ∧
    env.einaInit = true ∧ env.logInit = true ∧ env.parserNew = true

theorem ccMainOps_of_made {opens : Path → Bool} {opts : List Opt} {input : Path}
    (ho : readOptions {} opts = .ok st) (hf : st.formats = 1) (he : env.einaInit = true)
    (hl : env.logInit = true) (hp : env.parserNew = true) : ccMainOps env opens opts [input] =
      [.take .eina] ++ (([.take .logDomain] ++
        ((parserNewOps ++ parserOps env opens st input) ++ [.give .logDomain])) ++ [.give .eina]) := by
  simp only [ccMainOps, ho, hf, he, hl, hp, ne_eq, not_true_eq_false, if_false, Bool.not_true,
    Bool.false_eq_true]

/-- No run gives back what it does not hold, whatever fails on its way. A run that gets to no parser
gives back all; the others keep the array of the parser, and references, states and transitions, but
no machine, no hash, no array of a state, no file, no mapping, no stream and no library. -/
theorem ccMain_gives_back (env : CcEnv) (opens : Path → Bool) (opts : List Opt)
    (operands : List Path) : ∃ small, Small small ∧
      (ParserMade env opts operands ∧ Spends 0 (ccMainOps env opens opts operands)
          ({.blocks} + small) ∨
        ¬ ParserMade env opts operands ∧ Spends 0 (ccMainOps env opens opts operands) 0) := by
  by_cases hmade : ParserMade env opts operands
  · obtain ⟨st, input, ho, hf, rfl, he, hl, hp⟩ := id hmade
    obtain ⟨left, hsmall, hspends, -⟩ := @parser_spends env st opens input
    refine ⟨left, hsmall, .inl ⟨hmade, ?_⟩⟩
    rw [ccMainOps_of_made ho hf he hl hp]
    exact frame_spends hspends
  · refine ⟨0, .zero, .inr ⟨hmade, ?_⟩⟩
    rcases ho : readOptions {} opts with status | st
    · simp only [ccMainOps, ho]
      exact .nil
    by_cases hf : st.formats = 1
    · rcases operands with _ | ⟨input, _ | ⟨extra, operands⟩⟩
      · simp only [ccMainOps, ho, hf, ne_eq, not_true_eq_false, if_false]
        exact .nil
      · rw [ccMainOps]
        simp only [ho, hf, ne_eq, not_true_eq_false, if_false]
        rcases he : env.einaInit
        · exact .nil
        rcases hl : env.logInit
        · exact .bracket (.take Res.eina) .nil (.give _)
        rcases hp : env.parserNew
        · exact .bracket (.take Res.eina) (.bracket (.take Res.logDomain) .nil (.give _)) (.give _)
        · exact absurd ⟨st, input, ho, hf, rfl, he, hl, hp⟩ hmade
      · simp only [ccMainOps, ho, hf, ne_eq, not_true_eq_false, if_false]
        exact .nil
    · simp only [ccMainOps, ho, ne_eq, hf, not_false_eq_true, if_true]
      exact .nil

def anonymousEnv : CcEnv where
  map := fun _ => some anonymousLine
  ord := .newestFirst
  addr := fun _ => 0

/-- What exactly is left behind a file that is read and accepted. -/
theorem ccMain_leaves {opens : Path → Bool} {opts : List Opt} {input : Path} {src : List Char}
    {r : Cursor} {p : Parser} (ho : readOptions {} opts = .ok st) (hf : st.formats = 1)
    (hread : env.Reads input src) (hrun : parseRun src = .ok (r, p)) (hne : p.fsms ≠ [])
    (hok : (checkStates env.ord env.beyond p.fsms).1 = true) : ∃ lost, Lost lost ∧
      lost.length = p.anonymous ∧
      Spends 0 (ccMainOps env opens opts [input]) ({.blocks} + p.leaves env lost) := by
  obtain ⟨he, hl, hp, hm⟩ := hread
  obtain ⟨left, -, hspends, hexact⟩ := @parser_spends env st opens input
  obtain ⟨lost, hlost, hcount, rfl⟩ := hexact src r p hm hrun hne hok
  refine ⟨lost, hlost, hcount, ?_⟩
  rw [ccMainOps_of_made ho hf he hl hp]
  exact frame_spends hspends

/-- The line without a name of `anonymousLine` is left, with the two names of its ends. -/
theorem anonymousLine_leaves : ∃ r p lost, parseRun anonymousLine = .ok (r, p) ∧ Lost lost ∧
    lost.length = 1 ∧ Spends 0 (ccMainOps anonymousEnv (fun _ => true) [.gc] ["m.est".toList])
      ({.blocks} + p.leaves anonymousEnv lost) := by
  obtain ⟨r, p, hrun⟩ := exists_parseRun (show (parseRun anonymousLine).toOption.isSome = true by
    decide_cbv)
  have hcount : (parseRun anonymousLine).toOption.map (fun q => q.2.anonymous) = some 1 := by
    decide_cbv
  have hverdict : (parseRun anonymousLine).toOption.map (fun q =>
      (checkStates anonymousEnv.ord anonymousEnv.beyond q.2.fsms).1 && !q.2.fsms.isEmpty) =
        some true := by
    decide_cbv
  rw [hrun] at hcount hverdict
  obtain ⟨hok, hne⟩ := Bool.and_eq_true_iff.1 (Option.some.inj hverdict)
  have hne' : p.fsms ≠ [] := by simpa using hne
  obtain ⟨lost, hlost, hlen, hspends⟩ := @ccMain_leaves anonymousEnv { gc := true } (fun _ => true)
    [.gc] "m.est".toList anonymousLine r p rfl rfl ⟨rfl, rfl, rfl, rfl⟩ hrun hne' hok
  exact ⟨r, p, lost, hrun, hlost, hlen.trans (Option.some.inj hcount), hspends⟩

end Main

end Estate.Cc
