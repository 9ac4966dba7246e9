import Estate.Proofs.Bare
import Estate.Proofs.Order

/-!
# The functions of the boilerplate

`estate_cc_out_gi` defines one function to export each loader, and one for every use of a callback,
so a callback that is used twice is defined twice. What it defines and what `estate_cc_out_gc`
declares or assigns are the same callbacks, in whatever order each of the two runs meets them.
-/

namespace Estate.Cc

open Lib

/-- A definition in the output of `estate_cc_out_gi`. -/
inductive GiItem
  | load (fsm : Stringshare)
  | callback (func : Stringshare)
  deriving DecidableEq

/-- The function it defines. -/
def GiItem.name : GiItem → List Char
  | .load fsm => "estate_fsm_".toList ++ (fsm ++ "_load".toList)
  | .callback func => func

/-- The pieces of the function that exports a loader, its prototype before it. -/
def exportText (fsm : Stringshare) : List (List Char) :=
  ["/* Use the prototype below to export the loading function */\n".toList,
    "Estate_Machine *estate_fsm_".toList, fsm, "_load(void) EINA_MALLOC;\n\n".toList,
    "Estate_Machine *\nestate_fsm_".toList, fsm, "_load(void)\n\x7b\n".toList,
    "   return _estate_fsm_".toList, fsm, "_load();\n\x7d\n\n".toList]

def GiItem.text : GiItem → List Char
  | .load fsm => (exportText fsm).flatten
  | .callback func => giCb func

/-- The callbacks of a machine, one for each use, as its hashes are met. -/
def usesAs (ord : HashOrder) (f : Fsm) : List Stringshare :=
  (ord.foreach f.states).flatMap (fun s => s.enterer.func.toList ++ s.exiter.func.toList) ++
    (ord.foreach f.transitions).flatMap fun t => t.cb.func.toList

/-- The callbacks of a list of machines, one for each use. -/
def callbackUses (fsms : List Fsm) : List Stringshare :=
  fsms.flatMap fun f =>
    f.stateList.flatMap (fun s => s.enterer.func.toList ++ s.exiter.func.toList) ++
      f.transits.flatMap fun t => t.cb.func.toList

def giItems (ord : HashOrder) (fsms : List Fsm) : List GiItem :=
  fsms.flatMap fun f => .load f.name :: (usesAs ord f).map .callback

/-- A file of definitions. -/
def giText (includeFile : Option (List Char)) (items : List GiItem) : List Char :=
  ["#include <Estate.h>\n#include \"".toList, fmtStr includeFile, "\"\n\n".toList,
    items.flatMap GiItem.text, "\n".toList].flatten

/-- The functions that a statement assigns to callbacks, NULL included. -/
def Stmt.funcs : Stmt → List (List Char)
  | .stateNew _ _ | .transitionNew _ => []
  | .stateInit _ _ enterer exiter => [enterer.func, exiter.func]
  | .transitionInit _ _ _ cb enterer exiter => [cb.func, enterer.func, exiter.func]

/-- A callback that `estate_cc_out_gc` declares or assigns. -/
def GcNames (ord : HashOrder) (addr : Placement) (fsms : List Fsm) (n : List Char) : Prop :=
  ∃ f ∈ fsms, n ∈ (loader ord addr f).protos ∨
    n ≠ "NULL".toList ∧ ∃ s ∈ (loader ord addr f).body, n ∈ s.funcs

/-- What two runs of the program generate from one list of machines fits together: every callback
of the one is defined once by the other, which defines no other callback. -/
structure DefinesOnce (ordI ordC : HashOrder) (addr : Placement) (fsms : List Fsm) : Prop where
  once : ∀ n, GcNames ordC addr fsms n → ((giItems ordI fsms).map GiItem.name).count n = 1
  only : ∀ n, .callback n ∈ giItems ordI fsms → GcNames ordC addr fsms n

/-- The lists that a generator works on: the machines of a file, checked or not. -/
def ParsedList (src : List Char) (fsms : List Fsm) : Prop :=
  fsms = parserParse src ∨ ∃ ord beyond, fsms = (checkStates ord beyond (parserParse src)).2

section Parsed

variable {ord : HashOrder} {beyond : ℕ → Char}

/-- The states of a machine in the course of its check. -/
def StatesNamed (states : EinaHash State) : Prop :=
  ∀ x s, states.lookup x = some s → s.name = x ∧ s.trs = []

theorem StatesNamed.touch {states : EinaHash State} (h : StatesNamed states)
    (name : Option Stringshare) (count : State → State)
    (hcount : ∀ s, (count s).name = s.name ∧ (count s).trs = s.trs) :
    StatesNamed (stateTouch states name count) := by
  intro x s hs
  rw [lookup_stateTouch] at hs
  split_ifs at hs with hx
  · obtain rfl := Option.some.inj hs
    rw [(hcount _).1, (hcount _).2]
    rcases hl : states.lookup x with _ | u
    · exact ⟨rfl, rfl⟩
    · exact h x u hl
  · exact h x s hs

theorem StatesNamed.deduce : ∀ {ts : List Transit} {cache : Cache}, StatesNamed cache.states →
    StatesNamed (deduceStates beyond ts cache).states
  | [], _, h => h
  | t :: ts, cache, h => by
    have htouch : StatesNamed (stateDeductionCb beyond cache t).1.states := by
      have h' : StatesNamed (stateTouch (stateTouch cache.states t.fromState countFrom) t.toState
          countTo) :=
        (h.touch _ countFrom fun _ => ⟨rfl, rfl⟩).touch _ countTo fun _ => ⟨rfl, rfl⟩
      unfold stateDeductionCb
      simp only []
      split <;> exact h'
    rw [deduceStates]
    simp only []
    split_ifs
    · exact htouch.deduce
    · exact htouch

theorem named_of_states {f g : Fsm} (hf : f.Named) (ht : g.transitions = f.transitions)
    (hs : StatesNamed g.states) : g.Named where
  transit_name := ht ▸ hf.transit_name
  state_name _ he := (hs _ _ (mem_entries_iff.1 he)).1
  state_trs _ he := (hs _ _ (mem_entries_iff.1 he)).2

/-- The check keeps the transitions, and states that lie under their own names. -/
theorem checkFsm_keeps {hash : EinaHash Transit} {f : Fsm} (hf : f.Named) :
    (checkFsm ord beyond hash f).2.2.transitions = f.transitions ∧
      (checkFsm ord beyond hash f).2.2.Named := by
  have hstates : StatesNamed f.states := fun x s hs =>
    ⟨hf.state_name _ (mem_entries_iff.2 hs), hf.state_trs _ (mem_entries_iff.2 hs)⟩
  have hdeduced : StatesNamed (deduceStates beyond (ord.foreach f.transitions)
      { hash := hash, states := f.states, ok := true, init := none, initCount := 0 }).states :=
    StatesNamed.deduce hstates
  unfold checkFsm
  simp only []
  repeat' split
  all_goals exact ⟨rfl, named_of_states hf rfl hdeduced⟩

theorem checkLoop_keeps : ∀ {fsms : List Fsm} {hash : EinaHash Transit}, (∀ f ∈ fsms, f.Named) →
    ∀ g ∈ (checkLoop ord beyond hash fsms).2, g.Named ∧ ∃ f ∈ fsms, g.transitions = f.transitions
  | [], _, _, g, hg => by simp [checkLoop] at hg
  | f :: fsms, hash, hfsms, g, hg => by
    obtain ⟨hf, hrest⟩ := List.forall_mem_cons.1 hfsms
    have hkeeps : (checkFsm ord beyond hash f).2.2.transitions = f.transitions ∧
        (checkFsm ord beyond hash f).2.2.Named := checkFsm_keeps hf
    rw [checkLoop] at hg
    rcases hc : checkFsm ord beyond hash f with ⟨hash', ok, f'⟩
    rw [hc] at hg hkeeps
    cases ok
    · rcases List.mem_cons.1 hg with rfl | hg
      · exact ⟨hkeeps.2, f, List.mem_cons_self, hkeeps.1⟩
      · exact ⟨hrest g hg, g, List.mem_cons_of_mem _ hg, rfl⟩
    · rcases List.mem_cons.1 hg with rfl | hg
      · exact ⟨hkeeps.2, f, List.mem_cons_self, hkeeps.1⟩
      · obtain ⟨hg', u, hu, htrs⟩ := checkLoop_keeps hrest g hg
        exact ⟨hg', u, List.mem_cons_of_mem _ hu, htrs⟩

/-- The machines of a parsed list lie in order, and their transitions have callbacks of their own
only. -/
theorem ParsedList.bare {src : List Char} {fsms : List Fsm} (h : ParsedList src fsms) :
    ∀ f ∈ fsms, f.Named ∧ ∀ t ∈ f.transits, t.enterer = {} ∧ t.exiter = {} := by
  have hnamed : ∀ f ∈ parserParse src, f.Named := fun f hf =>
    have hp := parserParse_parsed src f hf
    ⟨hp.transit_name, hp.state_name, fun e he => (hp.state_fresh e he).2.2⟩
  rcases h with rfl | ⟨ord, beyond, rfl⟩
  · exact fun f hf => ⟨hnamed f hf, parserParse_bare src f hf⟩
  · intro g hg
    obtain ⟨hg, f, hf, htrs⟩ := checkLoop_keeps hnamed g hg
    refine ⟨hg, fun t ht => parserParse_bare src f hf t ?_⟩
    rwa [Fsm.transits, htrs] at ht

end Parsed

section Items

variable (ord : HashOrder) (fsms : List Fsm)

theorem callbacks_text (f : Fsm) : ((usesAs ord f).map GiItem.callback).flatMap GiItem.text =
    (ord.foreach f.states).flatMap (fun s =>
        (s.enterer.func.toList ++ s.exiter.func.toList).flatMap giCb) ++
      (ord.foreach f.transitions).flatMap fun t => t.cb.func.toList.flatMap giCb := by
  have hcb : ∀ n, (GiItem.callback n).text = giCb n := fun _ => rfl
  simp only [List.flatMap_map, usesAs, List.flatMap_append, List.flatMap_assoc, hcb]

theorem outGi_eq (includeFile : Option (List Char)) :
    outGi ord fsms includeFile = giText includeFile (giItems ord fsms) := by
  have hfsm : ∀ f : Fsm,
      (exportText f.name ++ [(ord.foreach f.states).flatMap (fun s =>
          (s.enterer.func.toList ++ s.exiter.func.toList).flatMap giCb),
        (ord.foreach f.transitions).flatMap fun t => t.cb.func.toList.flatMap giCb]).flatten =
      (GiItem.load f.name :: (usesAs ord f).map GiItem.callback).flatMap GiItem.text := by
    intro f
    rw [List.flatMap_cons, callbacks_text, List.flatten_append, List.flatten_cons, List.flatten_cons,
      List.flatten_nil, List.append_nil]
    rfl
  unfold giText giItems
  rw [List.flatMap_assoc]
  simp only [← hfsm]
  rfl

theorem usesAs_perm (f : Fsm) : (usesAs ord f).Perm
    (f.stateList.flatMap (fun s => s.enterer.func.toList ++ s.exiter.func.toList) ++
      f.transits.flatMap fun t => t.cb.func.toList) :=
  ((foreach_perm ord f.states).flatMap_right _).append
    ((foreach_perm ord f.transitions).flatMap_right _)

/-- One definition for each machine, and one for each use of a callback. -/
theorem giItems_perm : (giItems ord fsms).Perm
    (fsms.map (fun f => .load f.name) ++ (callbackUses fsms).map .callback) := by
  induction fsms with
  | nil => exact .refl _
  | cons f fsms ih =>
    have huses := (usesAs_perm ord f).map GiItem.callback
    rw [giItems, List.flatMap_cons, List.map_cons, callbackUses, List.flatMap_cons, List.cons_append,
      List.cons_append, List.map_append (f := GiItem.callback)]
    exact ((huses.append ih).trans (List.perm_append_comm_assoc _ _ _)).cons _

theorem count_giItems (n : List Char) : ((giItems ord fsms).map GiItem.name).count n =
    (fsms.map fun f => (GiItem.load f.name).name).count n + (callbackUses fsms).count n := by
  rw [((giItems_perm ord fsms).map GiItem.name).count_eq, List.map_append, List.count_append,
    List.map_map, List.map_map]
  exact congrArg (_ + ·) (congrArg (List.count n) (List.map_id _))

end Items

section Names

variable {f : Fsm} {ord : HashOrder} {addr : Placement}

/-- The callbacks of a state or a transition that are declared, without order. -/
theorem mem_protos {n : List Char} : n ∈ (loader ord addr f).protos ↔ n ∈ usesAs ord f := Iff.rfl

theorem mem_usesAs {n : List Char} : n ∈ usesAs ord f ↔
    (∃ s ∈ f.stateList, s.enterer.func = some n ∨ s.exiter.func = some n) ∨
      ∃ t ∈ f.transits, t.cb.func = some n := by
  rw [(usesAs_perm ord f).mem_iff]
  simp [List.mem_append, List.mem_flatMap, Option.mem_toList]

/-- A statement assigns callbacks that are declared, besides NULL. -/
theorem mem_usesAs_of_stmt (hf : f.Named)
    (hbare : ∀ t ∈ f.transits, t.enterer = {} ∧ t.exiter = {}) {s : Stmt}
    (hs : s ∈ (loader ord addr f).body) {n : List Char} (hn : n ∈ s.funcs)
    (hnull : n ≠ "NULL".toList) : n ∈ usesAs ord f := by
  have hfunc : ∀ c : Cb, n = (ctorText c).func → c.func = some n := by
    rintro ⟨func, data⟩ h
    cases func with
    | none => exact absurd h hnull
    | some m => exact congrArg some (Eq.symm h)
  rw [mem_usesAs]
  simp only [loader, List.mem_append, List.mem_map] at hs
  rcases hs with ⟨u, -, rfl⟩ | ⟨u, -, rfl⟩ | ⟨u, hu, rfl⟩ | ⟨u, hu, rfl⟩
  · simp [eachStatesGcAllocCb, Stmt.funcs] at hn
  · simp [eachTransitionsGcAllocCb, Stmt.funcs] at hn
  · obtain ⟨v, hv, rfl⟩ := gathered_of_mem hf hu
    simp only [eachStatesGcInitCb, Stmt.funcs, List.mem_cons, List.not_mem_nil, or_false] at hn
    exact .inl ⟨v, hv, hn.imp (hfunc _) (hfunc _)⟩
  · have hmem : u ∈ f.transits := (foreach_perm ord f.transitions).mem_iff.1 hu
    simp only [eachTransitionsGcInitCb, Stmt.funcs, List.mem_cons, List.not_mem_nil, or_false,
      (hbare u hmem).1, (hbare u hmem).2] at hn
    rcases hn with hn | hn | hn
    · exact .inr ⟨u, hmem, hfunc _ hn⟩
    · exact absurd hn hnull
    · exact absurd hn hnull

end Names

/-- What is named in the one file is what is used. -/
theorem gcNames_iff {fsms : List Fsm} (hfsms : ∀ f ∈ fsms, f.Named ∧
      ∀ t ∈ f.transits, t.enterer = {} ∧ t.exiter = {}) {ord : HashOrder} {addr : Placement}
    {n : List Char} : GcNames ord addr fsms n ↔ n ∈ callbackUses fsms := by
  have huses : n ∈ callbackUses fsms ↔ ∃ f ∈ fsms, n ∈ usesAs ord f := by
    rw [callbackUses, List.mem_flatMap]
    exact exists_congr fun f => and_congr_right fun _ => (usesAs_perm ord f).mem_iff.symm
  rw [huses]
  constructor
  · rintro ⟨f, hf, hn | ⟨hnull, s, hs, hn⟩⟩
    · exact ⟨f, hf, mem_protos.1 hn⟩
    · exact ⟨f, hf, mem_usesAs_of_stmt (hfsms f hf).1 (hfsms f hf).2 hs hn hnull⟩
  · rintro ⟨f, hf, hn⟩
    exact ⟨f, hf, .inl (mem_protos.2 hn)⟩

theorem definesOnce_iff {fsms : List Fsm} (hfsms : ∀ f ∈ fsms, f.Named ∧
      ∀ t ∈ f.transits, t.enterer = {} ∧ t.exiter = {}) {ordI ordC : HashOrder}
    {addr : Placement} : DefinesOnce ordI ordC addr fsms ↔
      (callbackUses fsms).Nodup ∧ ∀ f ∈ fsms, (GiItem.load f.name).name ∉ callbackUses fsms := by
  constructor
  · intro h
    have honce : ∀ n ∈ callbackUses fsms,
        (fsms.map fun f => (GiItem.load f.name).name).count n = 0 ∧
          (callbackUses fsms).count n = 1 := by
      intro n hn
      have hcount := h.once n ((gcNames_iff hfsms).2 hn)
      have hpos := List.count_pos_iff.2 hn
      rw [count_giItems] at hcount
      omega
    refine ⟨List.nodup_iff_count_le_one.2 fun n => ?_, fun f hf hn => ?_⟩
    · by_cases hn : n ∈ callbackUses fsms
      · exact (honce n hn).2.le
      · rw [List.count_eq_zero_of_not_mem hn]
        exact Nat.zero_le 1
    · exact List.count_eq_zero.1 (honce _ hn).1 (List.mem_map_of_mem hf)
  · rintro ⟨hd, hload⟩
    refine ⟨fun n hn => ?_, fun n hn => (gcNames_iff hfsms).2 ?_⟩
    · have huse := (gcNames_iff hfsms).1 hn
      have hzero : (fsms.map fun f => (GiItem.load f.name).name).count n = 0 := by
        rw [List.count_eq_zero, List.mem_map]
        rintro ⟨f, hf, rfl⟩
        exact hload f hf huse
      rw [count_giItems, hzero, List.count_eq_one_of_mem hd huse]
    · rw [(giItems_perm ordI fsms).mem_iff, List.mem_append] at hn
      rcases hn with hn | hn
      · simp at hn
      · obtain ⟨m, hm, heq⟩ := List.mem_map.1 hn
        exact GiItem.callback.inj heq ▸ hm

/-- The boilerplate defines each callback of a parsed list once if and only if no callback is used
twice, and none has the name of a function that exports a loader. -/
theorem callbacksDefined_iff {src : List Char} {fsms : List Fsm} (h : ParsedList src fsms)
    (ordI ordC : HashOrder) (addr : Placement) (includeFile : Option (List Char)) :
    outGi ordI fsms includeFile = giText includeFile (giItems ordI fsms) ∧
      (DefinesOnce ordI ordC addr fsms ↔ (callbackUses fsms).Nodup ∧
        ∀ f ∈ fsms, (GiItem.load f.name).name ∉ callbackUses fsms) :=
  ⟨outGi_eq ordI fsms includeFile, definesOnce_iff h.bare⟩

/-- A machine with two states and a callback for each. -/
def twoCallbacks (f g : String) : List Char :=
  "m\x7bstates\x7ba\x7benterer\x7bfunc:".toList ++ f.toList ++
    ";\x7d\x7db\x7benterer\x7bfunc:".toList ++ g.toList ++ ";\x7d\x7d\x7d\x7d".toList

theorem twoCallbacks_defined : DefinesOnce .newestFirst .newestFirst (fun _ => 0)
    (parserParse (twoCallbacks "f" "g")) :=
  (callbacksDefined_iff (.inl rfl) .newestFirst .newestFirst (fun _ => 0) none).2.2
    (by decide +kernel)

/-- Two states share a callback, which is defined twice. -/
theorem sharedCallback_twice : ¬ DefinesOnce .newestFirst .newestFirst (fun _ => 0)
    (parserParse (twoCallbacks "f" "f")) := by
  intro h
  have huse : GcNames .newestFirst (fun _ => 0) (parserParse (twoCallbacks "f" "f")) ['f'] :=
    (gcNames_iff (ParsedList.bare (.inl rfl))).2 (by decide +kernel)
  have hcount := h.once _ huse
  have htwice : ((giItems .newestFirst (parserParse (twoCallbacks "f" "f"))).map
      GiItem.name).count ['f'] = 2 := by decide +kernel
  omega

end Estate.Cc
