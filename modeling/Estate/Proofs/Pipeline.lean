import Estate.Cc.Pipeline
import Estate.Proofs.Main
import Estate.Proofs.Sequence
import Estate.Proofs.Rebuild
import Estate.Proofs.Rendering
import Estate.Proofs.Verdict

/-!
# From the text of a file to the behaviour of a machine

A text that describes a machine is parsed into it, checked, printed as a loader and loaded. What
then runs is the machine of the text: it answers any sequence of requests as the automaton of the
description does (`file_follows`), whichever generator has made its loader (`files_agree`).
-/

namespace Estate.Cc

open Lib

section Describes

variable {prog : Program} {d : Descr} {f : Fsm} {x n i : Stringshare}

theorem Descr.Describes.mem_transits (h : d.Describes f) (hd : d.Valid) {t : Transit} :
    t ∈ f.transits ↔ ∃ u ∈ d.transits, t = u.transit := by
  constructor
  · intro ht
    obtain ⟨e, he, rfl⟩ := List.mem_map.1 ht
    have hl := mem_entries_iff.1 he
    rw [h.transitions] at hl
    obtain ⟨u, hu, hut⟩ := Option.map_eq_some_iff.1 hl
    exact ⟨u, (named_some hu).1, hut.symm⟩
  · rintro ⟨u, hu, rfl⟩
    have hl := h.transitions u.name
    rw [named_mem hd.transits_nodup hu] at hl
    exact List.mem_map_of_mem (f := Sigma.snd) (mem_entries_iff.2 hl)

theorem transit_inj {t u : TransitDescr} (h : t.transit = u.transit) : t = u := by
  obtain ⟨n, o, e, c⟩ := t
  obtain ⟨n', o', e', c'⟩ := u
  simp only [TransitDescr.transit, TransitDescr.bare, Transit.mk.injEq, Option.some.injEq] at h
  obtain ⟨rfl, rfl, rfl, rfl, -⟩ := h
  rfl

/-- The transitions of the machine are those of the description. -/
theorem Descr.Describes.transits_perm (h : d.Describes f) (hd : d.Valid) (hp : f.Parsed) :
    f.transits.Perm (d.transits.map TransitDescr.transit) := by
  have hleft : f.transits.Nodup :=
    List.Nodup.of_map Transit.name (transits_names_nodup hp.transit_name)
  have hright : (d.transits.map TransitDescr.transit).Nodup :=
    (List.Nodup.of_map TransitDescr.name hd.transits_nodup).map fun _ _ => transit_inj
  refine (List.perm_ext_iff_of_nodup hleft hright).2 fun t => ?_
  rw [h.mem_transits hd, List.mem_map]
  exact exists_congr fun u => and_congr_right fun _ => eq_comm

theorem Descr.Describes.isState (h : d.Describes f) (hd : d.Valid) :
    f.IsState x ↔ x ∈ d.stateNames := by
  have hstates : x ∈ f.states ↔ x ∈ d.states.map StateDescr.name := by
    rw [← AList.lookup_isSome, h.states, Option.isSome_map]
    constructor
    · intro hs
      obtain ⟨s, hs⟩ := Option.isSome_iff_exists.1 hs
      obtain ⟨hmem, rfl⟩ := named_some hs
      exact List.mem_map_of_mem hmem
    · intro hx
      obtain ⟨s, hs, rfl⟩ := List.mem_map.1 hx
      rw [named_mem hd.states_nodup hs]
      rfl
  have htouched : Touched f.transits x ↔
      x ∈ d.transits.map TransitDescr.origin ∨ x ∈ d.transits.map TransitDescr.target := by
    simp only [Touched, h.mem_transits hd, List.mem_map]
    constructor
    · rintro ⟨_, ⟨u, hu, rfl⟩, ho | ht⟩
      · exact .inl ⟨u, hu, Option.some.inj ho⟩
      · exact .inr ⟨u, hu, Option.some.inj ht⟩
    · rintro (⟨u, hu, rfl⟩ | ⟨u, hu, rfl⟩)
      · exact ⟨_, ⟨u, hu, rfl⟩, .inl rfl⟩
      · exact ⟨_, ⟨u, hu, rfl⟩, .inr rfl⟩
  rw [Fsm.IsState, hstates, htouched, Descr.stateNames, List.mem_append, List.mem_append]

theorem Descr.Describes.isSource (h : d.Describes f) (hd : d.Valid) :
    f.IsSource x ↔ d.IsSource x := by
  rw [Fsm.IsSource, Descr.IsSource, h.isState hd]
  refine and_congr_right fun _ => ?_
  simp only [h.mem_transits hd, List.mem_map, not_exists, not_and]
  constructor
  · rintro hno u hu rfl
    exact hno _ ⟨u, hu, rfl⟩ rfl
  · rintro hno _ ⟨u, hu, rfl⟩ hx
    exact hno u hu (Option.some.inj hx)

/-- The check accepts the machine of a sound description. -/
theorem Descr.Describes.admissible (h : d.Describes f) (hd : d.Sound) (hp : f.Parsed)
    (hs : f.Spelled) (beyond : ℕ → Char) : f.Admissible beyond where
  keys := by
    have hlegible : f.Legible := by
      intro t ht
      obtain ⟨u, hu, rfl⟩ := (h.mem_transits hd.valid).1 ht
      obtain ⟨-, ho, htarget, -⟩ := hd.valid.transits u hu
      exact ⟨u.origin, u.target, rfl, rfl, ho.nonempty, htarget.nonempty, hd.fits u hu⟩
    rw [transitKeys_nodup_iff hlegible hs.colonFree]
    have hperm : f.pairs.Perm
        ((d.transits.map fun t => (t.origin, t.target)).map fun p => (some p.1, some p.2)) := by
      have hmap := (h.transits_perm hd.valid hp).map fun t => (t.fromState, t.toState)
      rwa [List.map_map] at hmap ⊢
    refine hperm.nodup_iff.2 (hd.pairs.map ?_)
    rintro ⟨o, e⟩ ⟨o', e'⟩ hpair
    simpa using hpair
  init := by
    obtain ⟨i, hi⟩ := hd.start
    simp only [Fsm.InitDetermined, h.isSource hd.valid, h.init]
    rcases hi with ⟨hsource, hinit⟩ | ⟨hnone, hinit⟩
    · refine .inl ⟨i, hsource, fun j hj => ?_⟩
      rcases hinit with hinit | hinit <;> simp_all
    · exact .inr ⟨hnone, by simp [hinit]⟩

variable {ord : HashOrder}

/-- The initial state of the checked machine. -/
theorem Descr.Describes.checked_init (h : d.Describes f) (hd : d.Valid) (hp : f.Parsed)
    (hi : d.StartsIn i) : (checkedFsm ord f).init = some i := by
  obtain ⟨hone, hnone⟩ := @checkedFsm_init ord f hp
  simp only [h.isSource hd] at hone hnone
  rcases hi with ⟨hsource, -⟩ | ⟨hno, hinit⟩
  · exact hone i hsource
  · rw [hnone hno, h.init, hinit]

/-- A state that is only named has no callbacks. -/
theorem Descr.Describes.checked_callbacks (h : d.Describes f) (x : Stringshare) :
    (checkedFsm ord f).exiter x = d.exiter x ∧ (checkedFsm ord f).enterer x = d.enterer x := by
  have hdescr : ((f.states.lookup x).getD (stateNew x)).exiter = d.exiter x ∧
      ((f.states.lookup x).getD (stateNew x)).enterer = d.enterer x := by
    rw [h.states, Descr.exiter, Descr.enterer]
    rcases named StateDescr.name d.states x with _ | s <;> exact ⟨rfl, rfl⟩
  rcases hl : (checkedFsm ord f).states.lookup x with _ | s
  · have hnone : f.states.lookup x = none := by
      rw [AList.lookup_eq_none] at hl ⊢
      exact fun hx => hl ((mem_deducedStates ord).2 (.inl hx))
    rw [hnone] at hdescr
    rw [← hdescr.1, ← hdescr.2, Fsm.exiter, Fsm.enterer, hl]
    exact ⟨rfl, rfl⟩
  · have hs := lookup_touchAll_some hl
    rw [← hdescr.1, ← hdescr.2, Fsm.exiter, Fsm.enterer, hl, hs]
    exact ⟨rfl, rfl⟩

/-- The checked machine and its description are one automaton. -/
theorem Descr.Describes.automaton_eq (h : d.Describes f) (errors : Bool) :
    (checkedFsm ord f).automaton prog errors = d.automaton prog errors := by
  have hexit : ∀ x n, (checkedFsm ord f).exit x n = (d.exit x n).map TransitDescr.transit := by
    intro x n
    rw [Fsm.exit, show (checkedFsm ord f).transitions = f.transitions from rfl, h.transitions,
      Descr.exit]
    rcases named TransitDescr.name d.transits n with _ | t
    · rfl
    · by_cases ht : t.origin = x <;>
        simp [Option.filter, TransitDescr.transit, TransitDescr.bare, ht]
  have hheard : ∀ x n t, d.exit x n = some t →
      (checkedFsm ord f).heardOf prog x t.transit = d.heardOf prog t := by
    intro x n t ht
    obtain ⟨-, hx⟩ := Option.filter_eq_some_iff.1 ht
    obtain rfl : t.origin = x := by simpa using hx
    simp only [Fsm.heardOf, Descr.heardOf, TransitDescr.transit, TransitDescr.bare,
      h.checked_callbacks, Option.toList_some, List.flatMap_cons, List.flatMap_nil, List.append_nil]
  simp only [Fsm.automaton, Descr.automaton, Automaton.mk.injEq]
  constructor
  · funext x n
    rw [hexit]
    rcases d.exit x n with _ | t <;> rfl
  · funext x n
    rw [hexit]
    rcases ht : d.exit x n with _ | t
    · rfl
    · exact hheard x n t ht

end Describes

section Loader

variable {prog : Program} {d : Descr} {f : Fsm} {ord : HashOrder}

theorem Descr.Describes.checked_states (h : d.Describes f) (hd : d.Valid) {x : Stringshare} :
    x ∈ (checkedFsm ord f).states.keys ↔ x ∈ d.stateNames := by
  rw [← h.isState hd, ← mem_deducedStates ord]
  exact Iff.rfl

theorem Descr.Describes.checked_transits (h : d.Describes f) (hd : d.Valid) (hp : f.Parsed)
    {n : Stringshare} : n ∈ (checkedFsm ord f).transitions.keys ↔
      n ∈ d.transits.map TransitDescr.name := by
  have hkeys := transits_names (f := f) hp.transit_name
  have hmap := (h.transits_perm hd hp).map Transit.name
  rw [hkeys, List.map_map] at hmap
  exact hmap.mem_iff

/-- The callbacks of a state are described, or there are none. -/
theorem Descr.Describes.state_callbacks (h : d.Describes f) {s : State}
    (hs : s ∈ (checkedFsm ord f).stateList) :
    ∀ c, c = s.enterer ∨ c = s.exiter → c = {} ∨ c ∈ d.callbacks := by
  obtain ⟨e, he, rfl⟩ := List.mem_map.1 hs
  have hl := mem_entries_iff.1 he
  obtain ⟨hexiter, henterer⟩ : (checkedFsm ord f).exiter e.1 = d.exiter e.1 ∧
      (checkedFsm ord f).enterer e.1 = d.enterer e.1 := h.checked_callbacks e.1
  rw [Fsm.exiter, hl] at hexiter
  rw [Fsm.enterer, hl] at henterer
  simp only [Option.map_some, Option.getD_some] at hexiter henterer
  have hmem : ∀ s ∈ d.states, s.enterer ∈ d.callbacks ∧ s.exiter ∈ d.callbacks := by
    intro s hs
    constructor <;> refine List.mem_append_left _ (List.mem_flatMap.2 ⟨s, hs, by simp⟩)
  rintro c (rfl | rfl)
  · rw [henterer, Descr.enterer]
    rcases hn : named StateDescr.name d.states e.1 with _ | s
    · exact .inl rfl
    · exact .inr (hmem s (named_some hn).1).1
  · rw [hexiter, Descr.exiter]
    rcases hn : named StateDescr.name d.states e.1 with _ | s
    · exact .inl rfl
    · exact .inr (hmem s (named_some hn).1).2

theorem Descr.Describes.transit_callbacks (h : d.Describes f) (hd : d.Valid) {t : Transit}
    (ht : t ∈ (checkedFsm ord f).transits) :
    t.cb ∈ d.callbacks ∧ t.enterer = {} ∧ t.exiter = {} ∧ t.fromState ≠ none ∧ t.toState ≠ none := by
  obtain ⟨u, hu, rfl⟩ := (h.mem_transits hd).1 ht
  exact ⟨List.mem_append_right _ (List.mem_map_of_mem hu), rfl, rfl, by simp [TransitDescr.transit,
    TransitDescr.bare], by simp [TransitDescr.transit, TransitDescr.bare]⟩

theorem Descr.Describes.checked_keysFit (h : d.Describes f) (hd : d.Sound) :
    (checkedFsm ord f).KeysFit := by
  have hempty : ({} : Cb).Fits := fun key hk => by simp at hk
  have hfits : ∀ c, c = {} ∨ c ∈ d.callbacks → c.Fits := by
    rintro c (rfl | hc)
    · exact hempty
    · exact hd.keys c hc
  refine ⟨fun s hs => ⟨hfits _ (h.state_callbacks hs _ (.inl rfl)),
    hfits _ (h.state_callbacks hs _ (.inr rfl))⟩, fun t ht => ?_⟩
  obtain ⟨hcb, henterer, hexiter, -⟩ := h.transit_callbacks hd.valid ht
  rw [henterer, hexiter]
  exact ⟨hd.keys _ hcb, hempty, hempty⟩

theorem Descr.Describes.checked_printable (h : d.Describes f) (hd : d.Sound) (hp : f.Parsed) :
    (checkedFsm ord f).Printable := by
  have hscope : ∀ name, name ∈ loaderVars (checkedFsm ord f).states.keys
      (checkedFsm ord f).transitions.keys ↔
        name ∈ loaderVars d.stateNames (d.transits.map TransitDescr.name) := by
    intro name
    simp only [loaderVars, List.mem_append, List.mem_map, h.checked_states hd.valid,
      h.checked_transits hd.valid hp]
  have hvisible : ∀ c, c = {} ∨ c ∈ d.callbacks → c.Visible (blockVars ++
      loaderVars (checkedFsm ord f).states.keys (checkedFsm ord f).transitions.keys) := by
    rintro c (rfl | hc) name hname hmem
    · simp at hname
    · rw [List.mem_append, hscope, ← List.mem_append] at hmem
      exact hd.visible c hc name hname hmem
  refine ⟨fun t ht => ?_, fun s hs => ?_, fun t ht name hname hmem => ?_⟩
  · obtain ⟨-, -, -, hfrom, hto⟩ := h.transit_callbacks hd.valid ht
    exact ⟨hfrom, hto⟩
  · exact ⟨hvisible _ (h.state_callbacks hs _ (.inl rfl)),
      hvisible _ (h.state_callbacks hs _ (.inr rfl))⟩
  · obtain ⟨hcb, -⟩ := h.transit_callbacks hd.valid ht
    exact hvisible _ (.inr hcb) name hname (List.mem_append_right _ hmem)

theorem Descr.Describes.checked_links (h : d.Describes f) (hd : d.Valid) (hl : d.Linked prog)
    (gen : Placement) :
    prog.Links (loader ord gen (checkedFsm ord f)) where
  func name hname := by
    rcases List.mem_append.1 hname with hname | hname
    · obtain ⟨s, hs, hname⟩ := List.mem_flatMap.1 hname
      have hs := (foreach_perm ord _).mem_iff.1 hs
      have hfunc : ∀ c, c = s.enterer ∨ c = s.exiter → name ∈ c.func.toList →
          (prog.func name).isSome = true := by
        intro c hc hmem
        rcases h.state_callbacks hs c hc with rfl | hc
        · simp at hmem
        · exact hl.func c hc name (by simpa using hmem)
      rcases List.mem_append.1 hname with hname | hname
      · exact hfunc _ (.inl rfl) hname
      · exact hfunc _ (.inr rfl) hname
    · obtain ⟨t, ht, hname⟩ := List.mem_flatMap.1 hname
      obtain ⟨hcb, -⟩ := h.transit_callbacks hd ((foreach_transitions_perm ord _).mem_iff.1 ht)
      exact hl.func _ hcb name (by simpa using hname)
  literal := hl.literal

theorem Descr.Describes.checked_small (h : d.Describes f) (hd : d.Sound) (hp : f.Parsed) :
    (checkedFsm ord f).states.entries.length < 2 ^ 32 ∧
      (checkedFsm ord f).transitions.entries.length < 2 ^ 32 ∧
      (checkedFsm ord f).transits ≠ [] := by
  have htransits : (checkedFsm ord f).transitions.entries.length = d.transits.length := by
    have hlen := (h.transits_perm hd.valid hp).length_eq
    rwa [Fsm.transits, List.length_map, List.length_map] at hlen
  have hstates : (checkedFsm ord f).states.entries.length ≤ d.stateNames.length := by
    have hsub : (checkedFsm ord f).states.keys ⊆ d.stateNames :=
      fun x hx => (h.checked_states hd.valid).1 hx
    have hle := ((checkedFsm ord f).states.keys_nodup.subperm hsub).length_le
    rwa [AList.keys, List.keys, List.length_map] at hle
  have hnames : d.stateNames.length = d.states.length + 2 * d.transits.length := by
    simp only [Descr.stateNames, List.length_append, List.length_map]
    omega
  have hsmall := hd.small
  refine ⟨by omega, by omega, fun hnil => hd.nonempty ?_⟩
  have hlen := (h.transits_perm hd.valid hp).length_eq
  rw [show f.transits = [] from hnil, List.length_map] at hlen
  exact List.length_eq_zero_iff.1 hlen.symm

end Loader

section File

variable {W : Type} {d : Descr} {src : List Char} {env : CcEnv} {input : Path} {f : Fsm}

/-- What the parser and the check make of the text of a sound description. -/
theorem Descr.Sound.accepted (hd : d.Sound) (hsrc : Renders [d] src) (ord : HashOrder)
    (beyond : ℕ → Char) : ∃ g, parserParse src = [g] ∧ d.Describes g ∧ g.Parsed ∧
      checkStates ord beyond [g] = (true, [checkedFsm ord g]) := by
  obtain ⟨machines, hmachines, hlayout⟩ := hsrc
  have hparse := parserParse_layout (by simpa using hd.valid) hmachines hlayout
  rcases hp : parserParse src with _ | ⟨g, gs⟩ <;> rw [hp] at hparse
  · cases hparse
  · obtain ⟨hg, hnil⟩ := List.forall₂_cons.1 hparse
    cases hnil
    have hmem : g ∈ parserParse src := by simp [hp]
    have hparsed := parserParse_parsed src g hmem
    have hall : ∀ f ∈ [g], f.Parsed := by simpa using hparsed
    have hv : (checkStates ord beyond [g]).1 = true :=
      (checkStates_singleton_iff hparsed).2 (hg.admissible hd hparsed (parserParse_spelled src g hmem)
        beyond)
    exact ⟨g, rfl, hg, hparsed, checkStates_eq hall hv⟩

/-- A run of `estate_cc` on such a text writes the loader of its machine. -/
theorem Descr.Sound.generates (hd : d.Sound) (hsrc : Renders [d] src) (hr : env.Reads input src) :
    ∃ g, d.Describes g ∧ g.Parsed ∧ g ∈ parserParse src ∧
      (checkStates env.ord env.beyond [g]).1 = true ∧
      checkedFsm env.ord g ∈ (checkStates env.ord env.beyond [g]).2 ∧
      ccMain env [.gc] [input] =
        { status := .success
          verdict := some true
          generated := [checkedFsm env.ord g]
          written := [(none, outGcApart env.ord env.addr [checkedFsm env.ord g])] } := by
  obtain ⟨g, hparse, hg, hparsed, hcheck⟩ := hd.accepted hsrc env.ord env.beyond
  refine ⟨g, hg, hparsed, by simp [hparse], by rw [hcheck], by simp [hcheck], ?_⟩
  have hopts : readOptions {} [.gc] = .ok { gc := true } := rfl
  rw [ccMain_of_reads hopts rfl hr, hparse, if_neg (by simp), processParse, hcheck]
  rfl

variable {heap : Heap} {prog : Program} {shares : Stringshare → ℤ} {w : W} {rt : Env W}
  {asked : List Stringshare} {ord : HashOrder} {gen : Placement} {p : Process W} {i : Stringshare}

/-- The loader of the machine loads it. -/
theorem Descr.Describes.loads (h : d.Describes f) (hd : d.Sound) (hp : f.Parsed)
    (hacc : Accepted (checkedFsm ord f)) (hheap : heap.Plentiful) (hl : d.Linked prog)
    (gen : Placement) (shares : Stringshare → ℤ) (w : W) :
    ∃ p, (loader ord gen (checkedFsm ord f)).load heap prog shares w = some p ∧
      p.mach.locked = true := by
  obtain ⟨hs, ht, hne⟩ : (checkedFsm ord f).states.entries.length < 2 ^ 32 ∧
      (checkedFsm ord f).transitions.entries.length < 2 ^ 32 ∧ (checkedFsm ord f).transits ≠ [] :=
    h.checked_small hd hp
  have hrebuilds : (loader ord gen (checkedFsm ord f)).Rebuilds heap prog (checkedFsm ord f) shares w :=
    rebuilds_of_printable hacc (h.checked_keysFit hd) (h.checked_links hd.valid hl gen) hheap
      (h.checked_printable hd hp) hne hs ht
  obtain ⟨p, -, -, -, hload, -, -, -, hlocked, -⟩ := hrebuilds.loads
  exact ⟨p, hload, hlocked⟩

/-- The names of the transitions are placed alike under both their lists. -/
theorem Descr.Describes.placed (h : d.Describes f) (hd : d.Valid) (hp : f.Parsed)
    {addr : Placement} (hplaced : Placed addr (d.transits.map TransitDescr.name ++ asked)) :
    Placed addr ((checkedFsm ord f).transits.map Transit.name ++ asked) := by
  refine hplaced.mono fun n hn => ?_
  rcases List.mem_append.1 hn with hn | hn
  · rw [transits_names (f := checkedFsm ord f) hp.transit_name] at hn
    exact List.mem_append_left _ ((h.checked_transits hd hp).1 hn)
  · exact List.mem_append_right _ hn

theorem Descr.Describes.sameOrder (h : d.Describes f) (hd : d.Valid) {gen run : Placement}
    (hsame : d.SameOrder gen run) : (checkedFsm ord f).SameOrder gen run := by
  intro t ht u hu htu
  obtain ⟨t', ht', rfl⟩ := (h.mem_transits hd).1 ht
  obtain ⟨u', hu', rfl⟩ := (h.mem_transits hd).1 hu
  exact hsame t' ht' u' hu' (Option.some.inj htu)

/-- What the names of a description must be like in a generator and in the process that runs its
loader. -/
structure Descr.Fits (d : Descr) (gen run : Placement) (asked : List Stringshare) : Prop where
  generator : Placed gen (d.transits.map TransitDescr.name)
  process : Placed run (d.transits.map TransitDescr.name ++ asked)
  order : d.SameOrder gen run

/-- The loaded machine is that of the description. -/
theorem Descr.Describes.behaves (h : d.Describes f) (hd : d.Valid) (hp : f.Parsed)
    (hload : (loader ord gen (checkedFsm ord f)).load heap prog shares w = some p)
    (hl : p.mach.locked = true) (hfits : d.Fits gen rt.addr asked) (hi : d.StartsIn i) :
    (Quiet rt → ErrorSilent rt → ∀ errorCb : Addr,
      Behaves rt (d.automaton prog (decide (errorCb ≠ 0))) asked (machineErrorCbSet p errorCb) i) ∧
    InSequence rt (d.automaton prog false) asked p i := by
  have hnamed : (checkedFsm ord f).Named := checkedFsm_named hp
  have hgen : Placed gen ((checkedFsm ord f).transits.map Transit.name) := by
    have hplaced : Placed gen ((checkedFsm ord f).transits.map Transit.name ++ []) :=
      h.placed hd hp (by simpa using hfits.generator)
    simpa using hplaced
  have hrun : Placed rt.addr ((checkedFsm ord f).transits.map Transit.name ++ asked) :=
    h.placed hd hp hfits.process
  have hinit : (checkedFsm ord f).init = some i := h.checked_init hd hp hi
  obtain ⟨hfrom, -⟩ := load_standing hnamed hload hl 0
  have hsearch : Searchable (checkedFsm ord f) (outgoing ord gen (checkedFsm ord f)) rt.addr asked :=
    searchable_of_sameOrder hnamed hgen hrun hfrom (h.sameOrder hd hfits.order)
  refine ⟨fun hq hsilent errorCb => ?_, ?_⟩
  · obtain ⟨-, st, tr, j, hj, hstanding⟩ := load_standing hnamed hload hl errorCb
    obtain rfl := Option.some.inj (hj.symm.trans hinit)
    have hbehaves := hstanding.behaves hnamed hsearch hq hsilent
    rwa [h.automaton_eq] at hbehaves
  · obtain ⟨-, st, tr, j, hembodies, hj, hmem, hcur⟩ := load_embodies hnamed hload hl
    obtain rfl := Option.some.inj (hj.symm.trans hinit)
    have hat : At prog _ _ st tr (fun a => (p.state a).name) p j :=
      ⟨hembodies, fun _ => rfl, hmem, hcur⟩
    have hseq : InSequence rt ((checkedFsm ord f).automaton prog false) asked p j :=
      hat.inSequence hl hnamed hsearch
    rwa [h.automaton_eq] at hseq

/-- From a text that describes a machine, in any layout, `estate_cc --gc` writes a loader that, run
in a process with memory for it, loads the machine described: in its initial state, it answers any
requests as the automaton of the description, and whatever its callbacks ask for, it does so in
order. -/
theorem file_follows (hd : d.Sound) (hsrc : Renders [d] src) (hr : env.Reads input src)
    (hi : d.StartsIn i) :
    ∃ f, ccMain env [.gc] [input] =
        { status := .success
          verdict := some true
          generated := [f]
          written := [(none, outGcApart env.ord env.addr [f])] } ∧
      ∀ {W : Type} (heap : Heap) (prog : Program) (shares : Stringshare → ℤ) (w : W),
        heap.Plentiful → d.Linked prog →
          ∃ p, (loader env.ord env.addr f).load heap prog shares w = some p ∧
            p.mach.locked = true ∧ ∀ (rt : Env W) (asked : List Stringshare), d.Fits env.addr rt.addr asked →
              (Quiet rt → ErrorSilent rt → ∀ errorCb : Addr,
                Behaves rt (d.automaton prog (decide (errorCb ≠ 0))) asked
                  (machineErrorCbSet p errorCb) i) ∧
              InSequence rt (d.automaton prog false) asked p i := by
  obtain ⟨g, hg, hparsed, hmem, hv, hchecked, hmain⟩ := hd.generates hsrc hr
  refine ⟨_, hmain, fun heap prog shares w hheap hl => ?_⟩
  obtain ⟨p, hload, hlocked⟩ := hg.loads hd hparsed (accepted_of_check hmem hv hchecked) hheap hl
    env.addr shares w
  exact ⟨p, hload, hlocked, fun rt asked hfits => hg.behaves hd.valid hparsed hload hlocked hfits hi⟩

end File

section Files

variable {W W' : Type} {d : Descr} {src src' : List Char} {env env' : CcEnv} {input input' : Path}
  {f f' : Fsm} {heap heap' : Heap} {prog : Program} {shares shares' : Stringshare → ℤ} {w : W}
  {w' : W'} {p : Process W} {p' : Process W'} {rt : Env W} {rt' : Env W'}
  {asked : List Stringshare}

/-- What a run of `estate_cc` has generated for a sound description behaves as it. -/
theorem Descr.Sound.generated_behaves (hd : d.Sound) (hsrc : Renders [d] src)
    (hr : env.Reads input src) (hf : f ∈ (ccMain env [.gc] [input]).generated)
    (hload : (loader env.ord env.addr f).load heap prog shares w = some p)
    (hl : p.mach.locked = true) (hfits : d.Fits env.addr rt.addr asked) (hq : Quiet rt)
    (hsilent : ErrorSilent rt) (errorCb : Addr) {i : Stringshare} (hi : d.StartsIn i) :
    Behaves rt (d.automaton prog (decide (errorCb ≠ 0))) asked (machineErrorCbSet p errorCb) i := by
  obtain ⟨g, hg, hparsed, -, -, -, hmain⟩ := hd.generates hsrc hr
  rw [hmain] at hf
  obtain rfl := List.mem_singleton.1 hf
  exact (hg.behaves hd.valid hparsed hload hl hfits hi).1 hq hsilent errorCb

/-- Two texts that lay out one description, read by generators that traverse their hashes and place
their names as they like, become machines that cannot be told apart by requests: the same names get
the same answers and the same callbacks, and lead to the same state. -/
theorem files_agree (hd : d.Sound) (hsrc : Renders [d] src) (hsrc' : Renders [d] src')
    (hr : env.Reads input src) (hr' : env'.Reads input' src')
    (hf : f ∈ (ccMain env [.gc] [input]).generated)
    (hf' : f' ∈ (ccMain env' [.gc] [input']).generated)
    (hload : (loader env.ord env.addr f).load heap prog shares w = some p)
    (hload' : (loader env'.ord env'.addr f').load heap' prog shares' w' = some p')
    (hl : p.mach.locked = true) (hl' : p'.mach.locked = true)
    (hfits : d.Fits env.addr rt.addr asked) (hfits' : d.Fits env'.addr rt'.addr asked)
    (hq : Quiet rt) (hq' : Quiet rt') (hsilent : ErrorSilent rt) (hsilent' : ErrorSilent rt')
    (errorCb : Addr) {es es' : List (Seen Stringshare Heard)} {q : Process W} {q' : Process W'}
    (hrun : Steps (Asks rt) (machineErrorCbSet p errorCb) es q)
    (hrun' : Steps (Asks rt') (machineErrorCbSet p' errorCb) es' q')
    (hasked : ∀ e ∈ es, e.letter ∈ asked) (hsame : es.map Seen.letter = es'.map Seen.letter) :
    es = es' ∧ (q.state (machineCurrentStateGet q)).name =
      (q'.state (machineCurrentStateGet q')).name := by
  obtain ⟨i, hi⟩ := hd.start
  have hasked' : ∀ e ∈ es', e.letter ∈ asked := by
    intro e he
    obtain ⟨e', he', heq⟩ := List.mem_map.1 (hsame ▸ List.mem_map_of_mem he)
    exact heq ▸ hasked e' he'
  obtain ⟨htrace, hname, -⟩ := hd.generated_behaves hsrc hr hf hload hl hfits hq hsilent errorCb hi
    es q hrun hasked
  obtain ⟨htrace', hname', -⟩ := hd.generated_behaves hsrc' hr' hf' hload' hl' hfits' hq' hsilent'
    errorCb hi es' q' hrun' hasked'
  rw [← hsame] at htrace' hname'
  exact ⟨htrace.trans htrace'.symm, hname.trans hname'.symm⟩

end Files

section Door

theorem door_starts : door.StartsIn "closed".toList := by
  refine .inr ⟨?_, rfl⟩
  rintro x ⟨hmem, hno⟩
  simp only [Descr.stateNames, door, List.map_cons, List.map_nil, List.cons_append,
    List.nil_append, List.mem_cons, List.not_mem_nil, or_false, closedDoor, openDoor, push, pull]
    at hmem hno
  tauto

theorem door_sound : door.Sound where
  valid := door_valid
  nonempty := by decide
  pairs := by decide
  fits := by decide
  start := ⟨_, door_starts⟩
  keys := by
    have hfits : ∀ c ∈ door.callbacks, ∀ key ∈ c.data, key.length ≤ 125 := by decide
    exact fun c hc key hk => hfits c hc key hk
  visible := by
    have hvisible : ∀ c ∈ door.callbacks, ∀ name ∈ c.func, name ∉ blockVars ++
        loaderVars door.stateNames (door.transits.map TransitDescr.name) := by decide
    exact fun c hc name hn => hvisible c hc name hn
  small := by decide

theorem door_renders : Renders [door] (doorItems.flatMap Item.print) := by
  refine ⟨[doorItems], .cons door_block .nil, ?_⟩
  rw [List.flatten_singleton]
  exact layout_print doorItems

/-- A generator that places `push` below `pull`. -/
def doorEnv (ord : HashOrder) : CcEnv where
  map := fun _ => some (doorItems.flatMap Item.print)
  ord := ord
  addr := lowest "push".toList 1

theorem doorEnv_reads (ord : HashOrder) :
    (doorEnv ord).Reads "door.est".toList (doorItems.flatMap Item.print) := ⟨rfl, rfl, rfl, rfl⟩

theorem door_fits : door.Fits (lowest "push".toList 1) (callsX (lowest "push".toList 1)).addr
    (door.transits.map TransitDescr.name) := by
  have hplaced : Placed (lowest "push".toList 1) (door.transits.map TransitDescr.name) := by
    refine ⟨by decide, 1, ?_⟩
    decide
  refine ⟨hplaced, hplaced.mono fun n hn => ?_, fun t ht u hu _ => Iff.rfl⟩
  simpa using hn

theorem door_linked : door.Linked plainProgram := ⟨fun _ _ _ _ => rfl, fun _ _ => rfl⟩

theorem door_follows : ∃ f, ccMain (doorEnv .newestFirst) [.gc] ["door.est".toList] =
      { status := .success
        verdict := some true
        generated := [f]
        written := [(none, outGcApart .newestFirst (lowest "push".toList 1) [f])] } ∧
    ∃ p : Process Unit, (loader .newestFirst (lowest "push".toList 1) f).load plainHeap plainProgram
        (fun _ => 0) () = some p ∧
      InSequence (callsX (lowest "push".toList 1)) (door.automaton plainProgram false)
        (door.transits.map TransitDescr.name) p "closed".toList := by
  obtain ⟨f, hmain, hall⟩ := file_follows door_sound door_renders (doorEnv_reads .newestFirst)
    door_starts
  obtain ⟨p, hload, -, hruns⟩ := hall plainHeap plainProgram (fun _ => 0) () plainHeap_plentiful
    door_linked
  exact ⟨f, hmain, p, hload, (hruns _ _ door_fits).2⟩

theorem door_loads (ord : HashOrder) : ∃ f, ∃ p : Process Unit,
    f ∈ (ccMain (doorEnv ord) [.gc] ["door.est".toList]).generated ∧
      (loader ord (lowest "push".toList 1) f).load plainHeap plainProgram (fun _ => 0) () = some p ∧
      p.mach.locked = true := by
  obtain ⟨g, hg, hparsed, hmem, hv, hchecked, hmain⟩ := door_sound.generates door_renders
    (doorEnv_reads ord)
  obtain ⟨p, hload, hl⟩ := hg.loads door_sound hparsed (accepted_of_check hmem hv hchecked)
    plainHeap_plentiful door_linked (lowest "push".toList 1) (fun _ => 0) ()
  refine ⟨_, p, ?_, hload, hl⟩
  rw [hmain]
  exact List.mem_singleton.2 rfl

/-- Two generators that traverse their hashes the other way round. -/
theorem door_agree : ∃ f f', ∃ p p' : Process Unit,
    (loader .newestFirst (lowest "push".toList 1) f).load plainHeap plainProgram (fun _ => 0) () =
      some p ∧
    (loader ⟨List.reverse, List.reverse_perm⟩ (lowest "push".toList 1) f').load plainHeap
      plainProgram (fun _ => 0) () = some p' ∧
    ∀ es es' q q', Steps (Asks (callsX (lowest "push".toList 1))) (machineErrorCbSet p 5) es q →
      Steps (Asks (callsX (lowest "push".toList 1))) (machineErrorCbSet p' 5) es' q' →
        (∀ e ∈ es, e.letter ∈ door.transits.map TransitDescr.name) →
          es.map Seen.letter = es'.map Seen.letter → es = es' := by
  obtain ⟨f, p, hf, hload, hl⟩ := door_loads .newestFirst
  obtain ⟨f', p', hf', hload', hl'⟩ := door_loads ⟨List.reverse, List.reverse_perm⟩
  refine ⟨f, f', p, p', hload, hload', fun es es' q q' hrun hrun' hasked hsame => ?_⟩
  exact (files_agree door_sound door_renders door_renders (doorEnv_reads _) (doorEnv_reads _) hf hf'
    hload hload' hl hl' door_fits door_fits (callsX_quiet _) (callsX_quiet _) (callsX_silent _)
    (callsX_silent _) 5 hrun hrun' hasked hsame).1

end Door

end Estate.Cc
