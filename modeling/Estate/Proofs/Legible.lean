import Estate.Proofs.Defined
import Estate.Proofs.Load
import Estate.Proofs.ReadGc

/-!
# Generated code reads back

Every string that the parser or the check leaves in a machine is a word, so the file that is
generated for a list of machines says which loaders it holds (`outGc_reads`).
-/

namespace Estate.Cc

open Lib Lib.Reader

section Legible

variable {ord : HashOrder} {addr : Placement} {f : Fsm}

theorem ctorText_legible {cb : Cb} (h : cb.Worded) : (ctorText cb).Legible where
  func := by
    rw [show (ctorText cb).func = cb.func.getD "NULL".toList from rfl]
    rcases hf : cb.func with _ | n
    · decide
    · exact (h.func n hf).spelled.not_mem (by decide)
  key := by
    rw [show (ctorText cb).key = (stringizeData cb.data 128).1 from rfl]
    rcases hd : cb.data with _ | key
    · decide
    · intro hmem
      have htext : ';' ∈ '\x22' :: (key ++ ['\x22']) := List.mem_of_mem_take hmem
      have hkey : ';' ∈ key := by simpa using htext
      exact (h.data key hd).spelled.not_mem (by decide) hkey

/-- The loader of a machine whose strings are words can be read. -/
theorem loader_legible (hf : f.Named) (hw : f.Worded Shaped) : (loader ord addr f).Legible := by
  have hstate : ∀ s ∈ f.stateList, s.Worded Shaped := by
    intro s hs
    obtain ⟨e, he, rfl⟩ := List.mem_map.1 hs
    exact hw.states e.1 e.2 (mem_entries_iff.1 he)
  have htransit : ∀ t ∈ f.transits, t.Worded := mem_transits_of_lookup hw.transits
  have hstates : ∀ s ∈ ord.foreach f.states, s.Worded Shaped :=
    fun s hs => hstate s ((foreach_perm ord f.states).mem_iff.1 hs)
  have htransits : ∀ t ∈ ord.foreach f.transitions, t.Worded :=
    fun t ht => htransit t ((foreach_transitions_perm ord f).mem_iff.1 ht)
  refine ⟨hw.name.spelled, fun n hn => ?_, fun n hn => ?_, fun n hn => ?_, fun stmt hstmt => ?_,
    fun i hi => (hw.init i hi).spelled⟩
  · rcases mem_usesAs.1 hn with ⟨s, hs, h⟩ | ⟨t, ht, h⟩
    · exact (h.elim ((hstate s hs).enterer.func n) ((hstate s hs).exiter.func n)).spelled
    · exact ((htransit t ht).cb.func n h).spelled
  · obtain ⟨s, hs, rfl⟩ := List.mem_map.1 hn
    exact (hstates s hs).name.spelled
  · obtain ⟨t, ht, rfl⟩ := List.mem_map.1 hn
    exact (htransits t ht).name.spelled
  · simp only [loader, List.mem_append, List.mem_map] at hstmt
    rcases hstmt with ⟨s, hs, rfl⟩ | ⟨t, ht, rfl⟩ | ⟨s, hs, rfl⟩ | ⟨t, ht, rfl⟩
    · show Spelled _
      rw [gatherTrs_name]
      exact (hstates s hs).name.spelled
    · exact (htransits t ht).name.spelled
    · obtain ⟨u, hu, rfl⟩ := gathered_of_mem hf hs
      refine ⟨(hstate u hu).name.spelled, fun n hn => ?_, ctorText_legible (hstate u hu).enterer,
        ctorText_legible (hstate u hu).exiter⟩
      obtain ⟨t, ht, -, rfl⟩ := mem_outgoing.1 hn
      exact (htransit t ht).name.spelled
    · have hword := htransits t ht
      exact ⟨hword.name.spelled, fun s hs => (hword.fromState s hs).spelled,
        fun s hs => (hword.toState s hs).spelled, ctorText_legible hword.cb,
        ctorText_legible hword.enterer, ctorText_legible hword.exiter⟩

end Legible

section Check

variable {ord : HashOrder} {beyond : ℕ → Char} {N : List Char → Prop}

/-- States whose strings are as a file can give them. -/
def StatesWorded (N : List Char → Prop) (states : EinaHash State) : Prop :=
  ∀ n s, states.lookup n = some s → s.Worded N

theorem stateNew_worded {x : Stringshare} (h : N x) : (stateNew x).Worded N :=
  ⟨h, ⟨by simp [stateNew], by simp [stateNew]⟩, ⟨by simp [stateNew], by simp [stateNew]⟩⟩

theorem StatesWorded.touch {states : EinaHash State} (h : StatesWorded N states)
    {name : Option Stringshare} (hname : ∀ x, name = some x → N x) {count : State → State}
    (hcount : ∀ s, s.Worded N → (count s).Worded N) :
    StatesWorded N (stateTouch states name count) := by
  intro n s hs
  rw [lookup_stateTouch] at hs
  split_ifs at hs with hx
  · obtain rfl := Option.some.inj hs
    rcases hl : states.lookup n with _ | u
    · exact hcount _ (stateNew_worded (hname n hx))
    · exact hcount u (h n u hl)
  · exact h n s hs

/-- The check adds no state but those its transitions name. -/
theorem StatesWorded.deduce (hN : ∀ x, Ident x → N x) : ∀ {ts : List Transit} {cache : Cache},
    (∀ t ∈ ts, t.Worded) → StatesWorded N cache.states →
      StatesWorded N (deduceStates beyond ts cache).states
  | [], _, _, h => h
  | t :: ts, cache, hts, h => by
    obtain ⟨ht, hrest⟩ := List.forall_mem_cons.1 hts
    have hfrom : StatesWorded N (stateTouch cache.states t.fromState countFrom) :=
      h.touch (fun x hx => hN x (ht.fromState x hx)) fun s hs => ⟨hs.name, hs.enterer, hs.exiter⟩
    have htouch : StatesWorded N (stateDeductionCb beyond cache t).1.states := by
      have hto : StatesWorded N (stateTouch (stateTouch cache.states t.fromState countFrom) t.toState
          countTo) :=
        hfrom.touch (fun x hx => hN x (ht.toState x hx)) fun s hs => ⟨hs.name, hs.enterer, hs.exiter⟩
      unfold stateDeductionCb
      simp only []
      split <;> exact hto
    rw [deduceStates]
    simp only []
    split_ifs
    · exact htouch.deduce hN hrest
    · exact htouch

theorem init_worded : ∀ {ss : List State} {cache : Cache}, (∀ s ∈ ss, N s.name) →
    (∀ i, cache.init = some i → N i) → ∀ i, (ss.foldl stateInitDeductionCb cache).init = some i → N i
  | [], _, _, h => h
  | s :: ss, cache, hss, h => by
    obtain ⟨hs, hrest⟩ := List.forall_mem_cons.1 hss
    rw [List.foldl_cons]
    refine init_worded hrest fun i hi => ?_
    unfold stateInitDeductionCb at hi
    split_ifs at hi
    · exact Option.some.inj hi ▸ hs
    · exact h i hi

theorem checkFsm_worded (hN : ∀ x, Ident x → N x) {hash : EinaHash Transit} {f : Fsm}
    (hf : f.Worded N) : (checkFsm ord beyond hash f).2.2.Worded N := by
  have hts : ∀ t ∈ ord.foreach f.transitions, t.Worded := by
    intro t ht
    obtain ⟨n, hn⟩ := mem_foreach.1 ht
    exact hf.transits n t hn
  have hdeduced : StatesWorded N (deduceStates beyond (ord.foreach f.transitions)
      { hash := hash, states := f.states, ok := true, init := none, initCount := 0 }).states :=
    StatesWorded.deduce hN hts hf.states
  have hnames : ∀ s ∈ ord.foreach (deduceStates beyond (ord.foreach f.transitions)
      { hash := hash, states := f.states, ok := true, init := none, initCount := 0 }).states,
      N s.name := by
    intro s hs
    obtain ⟨n, hn⟩ := mem_foreach.1 hs
    exact (hdeduced n s hn).name
  have hgiven : ∀ {i : Stringshare}, (∀ j, some i = some j → N j) ↔ N i := by simp
  unfold checkFsm
  simp only []
  split
  · exact ⟨hf.name, hf.dataKeys, hf.transits, hdeduced, hf.init⟩
  · split
    · exact ⟨hf.name, hf.dataKeys, hf.transits, hdeduced, hf.init⟩
    · split
      · rename_i i j hi _
        have hi' : N i := init_worded hnames (by simp) i hi
        split
        · exact ⟨hf.name, hf.dataKeys, hf.transits, hdeduced, hf.init⟩
        · exact ⟨hf.name, hf.dataKeys, hf.transits, hdeduced, hgiven.2 hi'⟩
      · rename_i i hi _
        have hi' : N i := init_worded hnames (by simp) i hi
        exact ⟨hf.name, hf.dataKeys, hf.transits, hdeduced, hgiven.2 hi'⟩
      · exact ⟨hf.name, hf.dataKeys, hf.transits, hdeduced, hf.init⟩
      · exact ⟨hf.name, hf.dataKeys, hf.transits, hdeduced, hf.init⟩

theorem checkLoop_worded (hN : ∀ x, Ident x → N x) : ∀ {fsms : List Fsm} {hash : EinaHash Transit},
    (∀ f ∈ fsms, f.Worded N) → ∀ g ∈ (checkLoop ord beyond hash fsms).2, g.Worded N
  | [], _, _, g, hg => by simp [checkLoop] at hg
  | f :: fsms, hash, hfsms, g, hg => by
    obtain ⟨hf, hrest⟩ := List.forall_mem_cons.1 hfsms
    have hchecked : (checkFsm ord beyond hash f).2.2.Worded N := checkFsm_worded hN hf
    rw [checkLoop] at hg
    rcases hc : checkFsm ord beyond hash f with ⟨hash', ok, f'⟩
    rw [hc] at hg hchecked
    cases ok
    · rcases List.mem_cons.1 hg with rfl | hg
      · exact hchecked
      · exact hrest g hg
    · rcases List.mem_cons.1 hg with rfl | hg
      · exact hchecked
      · exact checkLoop_worded hN hrest g hg

theorem ParsedList.worded {src : List Char} {fsms : List Fsm} (h : ParsedList src fsms) :
    ∀ f ∈ fsms, f.Worded Shaped := by
  rcases h with rfl | ⟨ord, beyond, rfl⟩
  · exact parserParse_worded src
  · exact checkLoop_worded (fun _ => .inr) (parserParse_worded src)

end Check

/-! ## Generated files -/

/-- The file that is generated for a parsed list, as it is with or without blank lines between the
statements of a loader, reads back as the loaders of the list. -/
theorem outGc_reads {src : List Char} {fsms : List Fsm} (h : ParsedList src fsms) (ord : HashOrder)
    (addr : Placement) :
    GcFile (fsms.map (loader ord addr)) (outGc ord addr fsms) ∧
      GcFile (fsms.map (loader ord addr)) (outGcApart ord addr fsms) ∧
      ∀ text, GcFile (fsms.map (loader ord addr)) text →
        readGc text = some (fsms.map (loader ord addr)) := by
  have hlegible : ∀ l ∈ fsms.map (loader ord addr), l.Legible := by
    intro l hl
    obtain ⟨f, hf, rfl⟩ := List.mem_map.1 hl
    exact loader_legible (h.bare f hf).1 (h.worded f hf)
  refine ⟨?_, ?_, fun text ht => readGc_of_file hlegible ht⟩
  · have hfile := @gcFile_of_printed (fsms.map (loader ord addr)) Loader.text
      fun l _ => l.printed_text
    rwa [List.flatMap_map] at hfile
  · have hfile := @gcFile_of_printed (fsms.map (loader ord addr)) Loader.apart
      fun l _ => l.printed_apart
    rwa [List.flatMap_map] at hfile

theorem twoCallbacks_reads : (parserParse (twoCallbacks "f" "g")).length = 1 ∧
    readGc (outGc .newestFirst (fun _ => 0) (parserParse (twoCallbacks "f" "g"))) =
      some ((parserParse (twoCallbacks "f" "g")).map (loader .newestFirst fun _ => 0)) := by
  obtain ⟨hfile, -, hread⟩ := outGc_reads (.inl rfl) .newestFirst (fun _ => 0)
  exact ⟨by decide +kernel, hread _ hfile⟩

end Estate.Cc
