import Estate.Cc.Check
import Estate.Lib.Hash

/-!
# The check of several machines

Where the keys of a machine are new, the deduction of its states counts every transition at both
its ends (`lookup_touchAll`) and does not depend on the hash. The hash is made once for the file
and never emptied, so a machine also fails for a key of a machine before it.
-/

namespace Estate.Cc

open Lib

section Touch

variable {states : EinaHash State} {x : Stringshare}

/-- A state met by the transitions of a list. -/
def tally (x : Stringshare) (ts : List Transit) (s : State) : State :=
  { s with
    checkFrom := s.checkFrom + ts.countP fun t => t.fromState = some x
    checkTo := s.checkTo + ts.countP fun t => t.toState = some x }

def touch (states : EinaHash State) (t : Transit) : EinaHash State :=
  stateTouch (stateTouch states t.fromState countFrom) t.toState countTo

def touchAll (states : EinaHash State) (ts : List Transit) : EinaHash State :=
  ts.foldl touch states

theorem lookup_stateTouch {name : Option Stringshare} {count : State → State} :
    (stateTouch states name count).lookup x =
      if name = some x then some (count ((states.lookup x).getD (stateNew x)))
      else states.lookup x := by
  rcases name with _ | n
  · simp [stateTouch]
  · by_cases hx : n = x
    · subst hx
      rcases hl : states.lookup n with _ | s
      · simp [stateTouch, hashFind, hashAdd, hl]
      · have hn : n ∈ states := mem_of_lookup hl
        simp [stateTouch, hashFind, hashModify, hl, lookup_replace_self hn]
    · have hx' : x ≠ n := fun h => hx h.symm
      rcases hl : states.lookup n with _ | s
      · simp [stateTouch, hashFind, hashAdd, hl, hx, hx']
      · simp [stateTouch, hashFind, hashModify, hl, hx, lookup_replace_ne hx']

theorem lookup_touch {t : Transit} :
    (touch states t).lookup x =
      if t.fromState = some x ∨ t.toState = some x then
        some (tally x [t] ((states.lookup x).getD (stateNew x)))
      else states.lookup x := by
  unfold touch
  rw [lookup_stateTouch, lookup_stateTouch]
  by_cases hf : t.fromState = some x <;> by_cases ht : t.toState = some x <;>
    simp [hf, ht, tally, countFrom, countTo]

theorem tally_cons (t : Transit) (ts : List Transit) (s : State) :
    tally x (t :: ts) s = tally x ts (tally x [t] s) := by
  simp [tally, List.countP_cons]
  omega

theorem tally_of_not_touched {ts : List Transit} (h : ¬ Touched ts x) (s : State) :
    tally x ts s = s := by
  have hf : ts.countP (fun t => t.fromState = some x) = 0 := by
    rw [List.countP_eq_zero]
    intro t ht he
    exact h ⟨t, ht, .inl (by simpa using he)⟩
  have hto : ts.countP (fun t => t.toState = some x) = 0 := by
    rw [List.countP_eq_zero]
    intro t ht he
    exact h ⟨t, ht, .inr (by simpa using he)⟩
  simp [tally, hf, hto]

open scoped Classical in
/-- A state is in the hash when it was described or a transition names it, counted at both ends
of the transitions. -/
theorem lookup_touchAll : ∀ {ts : List Transit} {states : EinaHash State},
    (touchAll states ts).lookup x =
      if Touched ts x then some (tally x ts ((states.lookup x).getD (stateNew x)))
      else states.lookup x
  | [], states => by simp [touchAll, Touched]
  | t :: ts, states => by
    have ih := @lookup_touchAll ts (touch states t)
    have hcons : Touched (t :: ts) x ↔
        (t.fromState = some x ∨ t.toState = some x) ∨ Touched ts x := by simp [Touched]
    rw [show touchAll states (t :: ts) = touchAll (touch states t) ts from rfl, ih, lookup_touch]
    by_cases ht : t.fromState = some x ∨ t.toState = some x
    · by_cases hts : Touched ts x
      · rw [if_pos ht, if_pos hts, if_pos (hcons.2 (.inl ht)), tally_cons t ts]
        rfl
      · rw [if_pos ht, if_neg hts, if_pos (hcons.2 (.inl ht)), tally_cons t ts,
          tally_of_not_touched hts]
    · have h1 : ¬ Touched [t] x := by simpa [Touched] using ht
      by_cases hts : Touched ts x
      · rw [if_neg ht, if_pos hts, if_pos (hcons.2 (.inr hts)), tally_cons t ts,
          tally_of_not_touched h1]
      · rw [if_neg ht, if_neg hts, if_neg (by rw [hcons]; tauto)]

theorem mem_touchAll {ts : List Transit} :
    x ∈ touchAll states ts ↔ x ∈ states ∨ Touched ts x := by
  classical
  rw [← AList.lookup_isSome, ← AList.lookup_isSome, lookup_touchAll]
  by_cases h : Touched ts x <;> simp [h]

/-- What a described or deduced state of a checked machine is. -/
theorem lookup_touchAll_some {ts : List Transit} {s : State}
    (h : (touchAll states ts).lookup x = some s) :
    s = tally x ts ((states.lookup x).getD (stateNew x)) := by
  classical
  rw [lookup_touchAll] at h
  split_ifs at h with ht
  · exact (Option.some.inj h).symm
  · rw [tally_of_not_touched ht, h]
    rfl

end Touch

section Keys

variable {beyond : ℕ → Char} {hash : EinaHash Transit}

/-- The keys of the transitions are new to the hash and different. -/
def KeysNew (beyond : ℕ → Char) (hash : EinaHash Transit) (ts : List Transit) : Prop :=
  (ts.map (transitKey beyond)).Nodup ∧ ∀ t ∈ ts, transitKey beyond t ∉ hash

def addKeys (beyond : ℕ → Char) (hash : EinaHash Transit) (ts : List Transit) :
    EinaHash Transit :=
  ts.foldl (fun h t => hashAdd h (some (transitKey beyond t)) t) hash

theorem mem_addKeys {k : Stringshare} : ∀ {ts : List Transit} {hash : EinaHash Transit},
    k ∈ addKeys beyond hash ts ↔ k ∈ hash ∨ ∃ t ∈ ts, transitKey beyond t = k
  | [], hash => by simp [addKeys]
  | t :: ts, hash => by
    rw [show addKeys beyond hash (t :: ts) =
      addKeys beyond (hash.insert (transitKey beyond t) t) ts from rfl, mem_addKeys]
    simp only [AList.mem_insert, List.mem_cons, exists_eq_or_imp, eq_comm (a := k)]
    tauto

theorem keysNew_cons {t : Transit} {ts : List Transit} :
    KeysNew beyond hash (t :: ts) ↔ transitKey beyond t ∉ hash ∧
      KeysNew beyond (hash.insert (transitKey beyond t) t) ts := by
  simp only [KeysNew, List.map_cons, List.nodup_cons, List.mem_map, List.mem_cons, forall_eq_or_imp,
    AList.mem_insert, not_or, not_exists, not_and]
  constructor
  · rintro ⟨⟨h1, h2⟩, h3, h4⟩
    exact ⟨h3, h2, fun u hu => ⟨h1 u hu, h4 u hu⟩⟩
  · rintro ⟨h3, h2, h5⟩
    exact ⟨⟨fun u hu => (h5 u hu).1, h2⟩, h3, fun u hu => (h5 u hu).2⟩

theorem deduceStates_of_keysNew : ∀ {ts : List Transit} {cache : Cache},
    KeysNew beyond cache.hash ts → deduceStates beyond ts cache =
      { cache with
        hash := addKeys beyond cache.hash ts
        states := touchAll cache.states ts }
  | [], cache, _ => rfl
  | t :: ts, cache, h => by
    obtain ⟨ht, hts⟩ := keysNew_cons.1 h
    have hl : cache.hash.lookup (transitKey beyond t) = none := AList.lookup_eq_none.2 ht
    simp only [deduceStates, stateDeductionCb, hashFind, hl, if_true]
    exact deduceStates_of_keysNew hts

theorem keysNew_of_deduceStates : ∀ {ts : List Transit} {cache : Cache},
    (deduceStates beyond ts cache).ok = true → KeysNew beyond cache.hash ts
  | [], cache, _ => by simp [KeysNew]
  | t :: ts, cache, h => by
    rw [keysNew_cons]
    rcases hl : cache.hash.lookup (transitKey beyond t) with _ | u
    · simp only [deduceStates, stateDeductionCb, hashFind, hl, if_true] at h
      exact ⟨AList.lookup_eq_none.1 hl, keysNew_of_deduceStates h⟩
    · simp [deduceStates, stateDeductionCb, hashFind, hl] at h

end Keys

section Init

variable {ord : HashOrder} {f : Fsm}

/-- The names of the states that were never counted as a target. -/
def sourceNames (ss : List State) : List Stringshare :=
  (ss.filter fun s => s.checkTo = 0).map State.name

theorem foldl_stateInitDeductionCb : ∀ {ss : List State} {cache : Cache},
    ss.foldl stateInitDeductionCb cache =
      { cache with
        initCount := cache.initCount + (sourceNames ss).length
        init := (sourceNames ss).getLast?.or cache.init }
  | [], cache => by simp [sourceNames]
  | s :: ss, cache => by
    rw [List.foldl_cons, foldl_stateInitDeductionCb]
    by_cases h : s.checkTo = 0
    · simp only [stateInitDeductionCb, h, if_true, sourceNames, decide_true, List.filter_cons_of_pos,
        List.map_cons, List.length_cons, List.getLast?_cons]
      congr 1
      · rcases (List.map State.name (ss.filter fun s => s.checkTo = 0)).getLast? with _ | x <;> rfl
      · omega
    · simp [stateInitDeductionCb, sourceNames, h]

theorem foreach_perm {α : Type} (ord : HashOrder) (h : EinaHash α) :
    (ord.foreach h).Perm (h.entries.map Sigma.snd) :=
  (ord.perm h.entries).map _

theorem foreach_transitions_perm (ord : HashOrder) (f : Fsm) :
    (ord.foreach f.transitions).Perm f.transits :=
  foreach_perm ord f.transitions

theorem touched_congr {ts us : List Transit} (h : ts.Perm us) {x : Stringshare} :
    Touched ts x ↔ Touched us x := by
  simp only [Touched, h.mem_iff]

/-- The states of a machine after the deduction. -/
def deducedStates (ord : HashOrder) (f : Fsm) : EinaHash State :=
  touchAll f.states (ord.foreach f.transitions)

theorem mem_deducedStates (ord : HashOrder) {x : Stringshare} :
    x ∈ deducedStates ord f ↔ f.IsState x := by
  rw [deducedStates, mem_touchAll, Fsm.IsState, touched_congr (foreach_transitions_perm ord f)]

theorem Fsm.Parsed.lookup_name (hp : f.Parsed) {x : Stringshare} :
    ((f.states.lookup x).getD (stateNew x)).name = x ∧
      ((f.states.lookup x).getD (stateNew x)).checkTo = 0 := by
  rcases hl : f.states.lookup x with _ | s
  · exact ⟨rfl, rfl⟩
  · have he : (⟨x, s⟩ : Σ _ : Stringshare, State) ∈ f.states.entries := mem_entries_iff.2 hl
    exact ⟨hp.state_name _ he, (hp.state_fresh _ he).2.1⟩

/-- A state of a checked machine bears its name, and was counted as a target when a transition
enters it. -/
theorem deducedStates_entry (hp : f.Parsed) {x : Stringshare} {s : State}
    (h : (deducedStates ord f).lookup x = some s) :
    s.name = x ∧ (s.checkTo = 0 ↔ ∀ t ∈ f.transits, t.toState ≠ some x) := by
  rw [lookup_touchAll_some h]
  obtain ⟨hn, hc⟩ := hp.lookup_name (x := x)
  refine ⟨hn, ?_⟩
  simp only [tally, hc, Nat.zero_add, List.countP_eq_zero, decide_eq_true_eq,
    (foreach_transitions_perm ord f).mem_iff]

/-- The sources of a machine, as its check meets them. -/
def sources (ord : HashOrder) (f : Fsm) : List Stringshare :=
  sourceNames (ord.foreach (deducedStates ord f))

theorem mem_sources (ord : HashOrder) (hp : f.Parsed) {x : Stringshare} :
    x ∈ sources ord f ↔ f.IsSource x := by
  simp only [sources, sourceNames, List.mem_map, List.mem_filter, decide_eq_true_eq,
    (foreach_perm ord (deducedStates ord f)).mem_iff, Fsm.IsSource]
  constructor
  · rintro ⟨s, ⟨⟨e, he, rfl⟩, hz⟩, hn⟩
    have hl := mem_entries_iff.1 he
    obtain ⟨hname, hto⟩ := deducedStates_entry hp hl
    have hx : e.1 = x := hname.symm.trans hn
    subst hx
    exact ⟨(mem_deducedStates ord).1 (mem_of_lookup hl), hto.1 hz⟩
  · rintro ⟨hs, hno⟩
    obtain ⟨s, hl⟩ := Option.isSome_iff_exists.1
      (AList.lookup_isSome.2 ((mem_deducedStates ord).2 hs))
    obtain ⟨hname, hto⟩ := deducedStates_entry hp hl
    exact ⟨s, ⟨⟨_, mem_entries_iff.2 hl, rfl⟩, hto.2 hno⟩, hname⟩

theorem sources_nodup (hp : f.Parsed) : (sources ord f).Nodup := by
  have hkeys : ((ord.foreach (deducedStates ord f)).map State.name) =
      (ord.order (deducedStates ord f).entries).keys := by
    simp only [HashOrder.foreach, List.keys, List.map_map]
    refine List.map_congr_left ?_
    intro e he
    exact (deducedStates_entry hp (mem_entries_iff.1 ((ord.perm _).mem_iff.1 he))).1
  have hnd : ((ord.foreach (deducedStates ord f)).map State.name).Nodup := by
    rw [hkeys]
    exact ((ord.perm _).map Sigma.fst).nodup_iff.2 (deducedStates ord f).nodupKeys
  exact hnd.sublist ((List.filter_sublist).map _)

theorem eq_singleton_of_mem_iff {l : List Stringshare} {x : Stringshare} (hd : l.Nodup)
    (h : ∀ y, y ∈ l ↔ y = x) : l = [x] := by
  refine List.perm_singleton.1 ((List.perm_ext_iff_of_nodup hd (List.nodup_singleton x)).2 ?_)
  simpa using h

/-- The sources and the given state determine the initial one. -/
theorem initDetermined_iff (ord : HashOrder) (hp : f.Parsed) : f.InitDetermined ↔
    (∃ x, sources ord f = [x] ∧ ∀ i, f.init = some i → i = x) ∨
      (sources ord f = [] ∧ f.init ≠ none) := by
  simp only [Fsm.InitDetermined, ← mem_sources ord hp]
  refine or_congr (exists_congr fun x => and_congr_left fun _ => ?_) (and_congr_left fun _ => ?_)
  · refine ⟨eq_singleton_of_mem_iff (sources_nodup hp), fun h y => ?_⟩
    simp [h]
  · exact List.eq_nil_iff_forall_not_mem.symm

end Init

section One

variable {ord : HashOrder} {beyond : ℕ → Char} {hash : EinaHash Transit} {f : Fsm}

/-- An admitted machine after its check. -/
def checkedFsm (ord : HashOrder) (f : Fsm) : Fsm :=
  { f with states := deducedStates ord f, init := (sources ord f).getLast?.or f.init }

theorem keysNew_foreach (ord : HashOrder) : KeysNew beyond hash (ord.foreach f.transitions) ↔
    (transitKeys beyond f).Nodup ∧ ∀ t ∈ f.transits, transitKey beyond t ∉ hash := by
  simp only [KeysNew, transitKeys, (foreach_transitions_perm ord f).mem_iff,
    ((foreach_transitions_perm ord f).map (transitKey beyond)).nodup_iff]

/-- The caches of the two traversals, where the keys are new. -/
theorem caches_of_keysNew (hk : KeysNew beyond hash (ord.foreach f.transitions)) :
    deduceStates beyond (ord.foreach f.transitions)
        { hash := hash, states := f.states, ok := true, init := none, initCount := 0 } =
      { hash := addKeys beyond hash (ord.foreach f.transitions), states := deducedStates ord f,
        ok := true, init := none, initCount := 0 } :=
  deduceStates_of_keysNew hk

theorem init_of_deducedStates (states : EinaHash State) (ok : Bool) :
    (ord.foreach (deducedStates ord f)).foldl stateInitDeductionCb
        { hash := hash, states := states, ok := ok, init := none, initCount := 0 } =
      { hash := hash, states := states, ok := ok, init := (sources ord f).getLast?,
        initCount := (sources ord f).length } := by
  simp [foldl_stateInitDeductionCb, sources]

theorem checkFsm_of_admissible (hp : f.Parsed) (ha : f.Admissible beyond)
    (hn : ∀ t ∈ f.transits, transitKey beyond t ∉ hash) :
    checkFsm ord beyond hash f =
      (addKeys beyond hash (ord.foreach f.transitions), true, checkedFsm ord f) := by
  have hk := (keysNew_foreach ord).2 ⟨ha.keys, hn⟩
  unfold checkFsm
  rw [caches_of_keysNew hk]
  simp only [init_of_deducedStates, checkedFsm]
  rcases (initDetermined_iff ord hp).1 ha.init with ⟨x, hx, hi⟩ | ⟨hx, hi⟩
  · rcases hf : f.init with _ | i
    · simp [hx]
    · simp [hx, hi i hf]
  · obtain ⟨i, hf⟩ := Option.ne_none_iff_exists'.1 hi
    simp [hx, hf]

theorem admissible_of_checkFsm (hp : f.Parsed) (h : (checkFsm ord beyond hash f).2.1 = true) :
    f.Admissible beyond ∧ ∀ t ∈ f.transits, transitKey beyond t ∉ hash := by
  have hk : KeysNew beyond hash (ord.foreach f.transitions) := by
    by_contra hk
    have hok : (deduceStates beyond (ord.foreach f.transitions)
        { hash := hash, states := f.states, ok := true, init := none, initCount := 0 }).ok =
          false := by
      rw [← Bool.not_eq_true]
      exact fun hok => hk (keysNew_of_deduceStates hok)
    simp [checkFsm, hok] at h
  obtain ⟨hkeys, hn⟩ := (keysNew_foreach ord).1 hk
  refine ⟨⟨hkeys, (initDetermined_iff ord hp).2 ?_⟩, hn⟩
  unfold checkFsm at h
  rw [caches_of_keysNew hk] at h
  simp only [init_of_deducedStates] at h
  rcases hx : sources ord f with _ | ⟨x, _ | ⟨y, l⟩⟩
  · right
    refine ⟨rfl, fun hf => ?_⟩
    simp [hx, hf] at h
  · left
    refine ⟨x, rfl, fun i hf => ?_⟩
    by_contra hne
    simp [hx, hf, Ne.symm hne] at h
  · simp [hx] at h

end One

section All

variable {ord : HashOrder} {beyond : ℕ → Char}

/-- No two machines of the list have a key in common. -/
def KeysApart (beyond : ℕ → Char) (fsms : List Fsm) : Prop :=
  fsms.Pairwise fun f g => ∀ t ∈ f.transits, ∀ u ∈ g.transits,
    transitKey beyond t ≠ transitKey beyond u

/-- A list passes when every machine is admissible and the keys of all of them are new. -/
theorem checkLoop_of_admissible : ∀ {fsms : List Fsm} {hash : EinaHash Transit},
    (∀ f ∈ fsms, f.Parsed ∧ f.Admissible beyond) → KeysApart beyond fsms →
    (∀ f ∈ fsms, ∀ t ∈ f.transits, transitKey beyond t ∉ hash) →
      checkLoop ord beyond hash fsms = (true, fsms.map (checkedFsm ord))
  | [], hash, _, _, _ => rfl
  | f :: fsms, hash, ha, hk, hn => by
    obtain ⟨⟨hp, hf⟩, ha'⟩ := List.forall_mem_cons.1 ha
    obtain ⟨hkf, hk'⟩ := List.pairwise_cons.1 hk
    obtain ⟨hnf, hn'⟩ := List.forall_mem_cons.1 hn
    have hrec : checkLoop ord beyond (addKeys beyond hash (ord.foreach f.transitions)) fsms =
        (true, fsms.map (checkedFsm ord)) := by
      refine checkLoop_of_admissible ha' hk' ?_
      intro g hg u hu hmem
      rcases mem_addKeys.1 hmem with h | ⟨t, ht, he⟩
      · exact hn' g hg u hu h
      · exact hkf g hg t ((foreach_transitions_perm ord f).mem_iff.1 ht) u hu he
    simp [checkLoop, checkFsm_of_admissible hp hf hnf, hrec]

theorem admissible_of_checkLoop : ∀ {fsms : List Fsm} {hash : EinaHash Transit},
    (∀ f ∈ fsms, f.Parsed) → (checkLoop ord beyond hash fsms).1 = true →
      (∀ f ∈ fsms, f.Admissible beyond) ∧ KeysApart beyond fsms ∧
        ∀ f ∈ fsms, ∀ t ∈ f.transits, transitKey beyond t ∉ hash
  | [], hash, _, _ => by simp [KeysApart]
  | f :: fsms, hash, hp, h => by
    obtain ⟨hpf, hp'⟩ := List.forall_mem_cons.1 hp
    have hok : (checkFsm ord beyond hash f).2.1 = true := by
      rcases hc : checkFsm ord beyond hash f with ⟨hash', _ | _, g⟩
      · simp [checkLoop, hc] at h
      · rfl
    obtain ⟨hf, hnf⟩ := admissible_of_checkFsm hpf hok
    rw [checkLoop, checkFsm_of_admissible hpf hf hnf] at h
    obtain ⟨ha, hk, hn⟩ := admissible_of_checkLoop hp' h
    have hnew : ∀ g ∈ fsms, ∀ u ∈ g.transits, transitKey beyond u ∉ hash ∧
        ∀ t ∈ f.transits, transitKey beyond t ≠ transitKey beyond u := by
      intro g hg u hu
      have hu' := hn g hg u hu
      rw [mem_addKeys, not_or] at hu'
      refine ⟨hu'.1, fun t ht he => hu'.2 ⟨t, (foreach_transitions_perm ord f).mem_iff.2 ht, he⟩⟩
    refine ⟨List.forall_mem_cons.2 ⟨hf, ha⟩, List.pairwise_cons.2 ⟨?_, hk⟩,
      List.forall_mem_cons.2 ⟨hnf, fun g hg u hu => (hnew g hg u hu).1⟩⟩
    exact fun g hg t ht u hu => (hnew g hg u hu).2 t ht

/-- What `estate_cc_check_states` accepts, and what it then leaves. -/
theorem checkStates_iff {fsms : List Fsm} (hp : ∀ f ∈ fsms, f.Parsed) :
    (checkStates ord beyond fsms).1 = true ↔
      (∀ f ∈ fsms, f.Admissible beyond) ∧ KeysApart beyond fsms := by
  constructor
  · intro h
    obtain ⟨ha, hk, -⟩ := admissible_of_checkLoop hp h
    exact ⟨ha, hk⟩
  · rintro ⟨ha, hk⟩
    rw [checkStates, checkLoop_of_admissible (fun f hf => ⟨hp f hf, ha f hf⟩) hk (by simp)]

theorem checkStates_eq {fsms : List Fsm} (hp : ∀ f ∈ fsms, f.Parsed)
    (h : (checkStates ord beyond fsms).1 = true) :
    checkStates ord beyond fsms = (true, fsms.map (checkedFsm ord)) := by
  obtain ⟨ha, hk⟩ := (checkStates_iff hp).1 h
  exact checkLoop_of_admissible (fun f hf => ⟨hp f hf, ha f hf⟩) hk (by simp)

/-- The verdict on a list is the verdict on each machine alone, and so is what an accepted list
is left as. -/
def VerdictAlone (ord : HashOrder) (beyond : ℕ → Char) (fsms : List Fsm) : Prop :=
  ((checkStates ord beyond fsms).1 = true ↔ ∀ f ∈ fsms, (checkStates ord beyond [f]).1 = true) ∧
    ((checkStates ord beyond fsms).1 = true →
      (checkStates ord beyond fsms).2 = fsms.flatMap fun f => (checkStates ord beyond [f]).2)

theorem checkStates_singleton_iff {f : Fsm} (hp : f.Parsed) :
    (checkStates ord beyond [f]).1 = true ↔ f.Admissible beyond := by
  rw [checkStates_iff (by simpa using hp)]
  simp [KeysApart]

/-- The machines of a file are judged each for itself when one of them is not admissible, or when
no transition of one has the key of a transition of another. -/
theorem verdictAlone_iff {fsms : List Fsm} (hp : ∀ f ∈ fsms, f.Parsed) :
    VerdictAlone ord beyond fsms ↔
      (∃ f ∈ fsms, ¬ f.Admissible beyond) ∨ KeysApart beyond fsms := by
  have halone : (∀ f ∈ fsms, (checkStates ord beyond [f]).1 = true) ↔
      ∀ f ∈ fsms, f.Admissible beyond :=
    forall₂_congr fun f hf => checkStates_singleton_iff (hp f hf)
  have hafter : (checkStates ord beyond fsms).1 = true →
      (checkStates ord beyond fsms).2 = fsms.flatMap fun f => (checkStates ord beyond [f]).2 := by
    intro h
    have ha := ((checkStates_iff hp).1 h).1
    rw [checkStates_eq hp h, List.map_eq_flatMap]
    refine List.flatMap_congr fun f hf => ?_
    rw [checkStates_eq (by simpa using hp f hf) ((checkStates_singleton_iff (hp f hf)).2 (ha f hf))]
    rfl
  unfold VerdictAlone
  rw [halone, checkStates_iff hp, and_iff_left (by rwa [checkStates_iff hp] at hafter)]
  by_cases ha : ∀ f ∈ fsms, f.Admissible beyond
  · have hno : ¬ ∃ f ∈ fsms, ¬ f.Admissible beyond := by simpa using ha
    tauto
  · have hex : ∃ f ∈ fsms, ¬ f.Admissible beyond := by simpa using ha
    exact iff_of_true ⟨fun h => absurd h.1 ha, fun h => absurd h ha⟩ (.inl hex)

end All

section Shared

/-- A machine with one transition. -/
def oneStep (name tr fromState toState : Stringshare) : Fsm :=
  { name := name
    transitions := AList.singleton tr
      { name := tr, fromState := some fromState, toState := some toState } }

theorem oneStep_parsed (name tr fromState toState : Stringshare) :
    (oneStep name tr fromState toState).Parsed where
  transit_name := by simp [oneStep, AList.singleton]
  state_name := by simp [oneStep]
  state_fresh := by simp [oneStep]
  init_mem := by simp [oneStep]

/-- Two machines, each with a transition from `a` to `b`. -/
def sharedStep : List Fsm :=
  [oneStep "m".toList "t".toList "a".toList "b".toList,
    oneStep "n".toList "t".toList "a".toList "b".toList]

theorem sharedStep_not_verdictAlone :
    ¬ VerdictAlone .newestFirst (fun _ => ' ') sharedStep := by
  unfold VerdictAlone
  decide

theorem verdictAlone_apart :
    VerdictAlone .newestFirst (fun _ => ' ')
      [oneStep "m".toList "t".toList "a".toList "b".toList,
        oneStep "n".toList "t".toList "a".toList "c".toList] :=
  (verdictAlone_iff (by
    simp only [List.forall_mem_cons]
    exact ⟨oneStep_parsed _ _ _ _, oneStep_parsed _ _ _ _, by simp⟩)).2 (.inr (by
      unfold KeysApart
      decide))

end Shared

end Estate.Cc
