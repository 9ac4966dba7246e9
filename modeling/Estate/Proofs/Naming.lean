import Estate.Proofs.Outline
import Estate.Proofs.Spelling

/-!
# Which accepted files name their machines well

The names of the machines, of their states and of their keys are the words of the file that stand
in the places for them (`Adds`). Only there the parser looks neither at the length of a word nor,
for a machine, at the names it has; so the names are usable exactly when the file itself repeats no
machine and leaves no such place empty (`usable_iff`).
-/

namespace Estate.Cc

open Lib

section Words

variable {zone z : Zone} {w : List Char} {ws ws' : List (Zone × List Char)}

theorem wordsIn_append : wordsIn zone (ws ++ ws') = wordsIn zone ws ++ wordsIn zone ws' := by
  simp [wordsIn]

theorem wordsIn_one : wordsIn zone [(z, w)] = if z = zone then [w] else [] := by
  unfold wordsIn
  split_ifs with h <;> simp [h]

theorem wordsFrom_cons {o : Outline} {l : Lexeme} {ls : List Lexeme} :
    wordsFrom o (l :: ls) = wordsFrom o [l] ++ wordsFrom (o.step l) ls := by
  rcases l <;> rfl

end Words

/-! ## What a step adds to the names -/

section Adds

variable {p q r : Parser} {c : Char} {m : Mark} {l : Lexeme} {f g : Fsm} {zone : Zone}
  {w : List Char} {ws ws' : List (Zone × List Char)}

/-- The state is described in a machine. -/
def Parser.Describes (p : Parser) (s : Stringshare) : Prop := ∃ f ∈ p.fsms, s ∈ f.states

def Fsm.HasKey (f : Fsm) (key : Stringshare) : Prop := ∃ n, f.dataKeys.lookup n = some key

/-- The machines gain the names that stand in `ws`, and no others. -/
structure Adds (p q : Parser) (ws : List (Zone × List Char)) : Prop where
  names : q.fsms.map Fsm.name = p.fsms.map Fsm.name ++ wordsIn .file ws
  states : ∀ s, q.Describes s ↔ p.Describes s ∨ s ∈ wordsIn .states ws
  keys : ∀ k, (∃ f ∈ q.fsms, f.HasKey k) ↔ (∃ f ∈ p.fsms, f.HasKey k) ∨ k ∈ wordsIn .key ws

theorem adds_nil (h : q.fsms = p.fsms) : Adds p q [] := by
  constructor <;> simp [wordsIn, Parser.Describes, h]

theorem Adds.trans (h : Adds p q ws) (h' : Adds q r ws') : Adds p r (ws ++ ws') where
  names := by rw [h'.names, h.names, wordsIn_append, List.append_assoc]
  states s := by rw [h'.states, h.states, wordsIn_append, List.mem_append, or_assoc]
  keys k := by rw [h'.keys, h.keys, wordsIn_append, List.mem_append, or_assoc]

/-- A word in another place is not a name. -/
theorem adds_other (hz : ¬ zone.Names) : Adds p q [(zone, w)] ↔ Adds p q [] := by
  have hwords : ∀ z : Zone, z.Names → wordsIn z [(zone, w)] = wordsIn z [] := by
    intro z hzn
    rw [wordsIn_one, if_neg]
    · rfl
    · rintro rfl
      exact hz hzn
  have hfile := hwords .file (.inl rfl)
  have hkey := hwords .key (.inr (.inl rfl))
  have hstates := hwords .states (.inr (.inr rfl))
  constructor
  · rintro ⟨hn, hs, hk⟩
    exact ⟨hfile ▸ hn, hstates ▸ hs, hkey ▸ hk⟩
  · rintro ⟨hn, hs, hk⟩
    exact ⟨hfile.symm ▸ hn, hstates.symm ▸ hs, hkey.symm ▸ hk⟩

theorem exists_mem_fsms {P : Fsm → Prop} (hf : p.f = some f) :
    (∃ f ∈ p.fsms, P f) ↔ (∃ f ∈ p.parse, P f) ∨ P f := by
  simp [Parser.fsms, hf, or_and_right, exists_or]

/-- A step that changes the last machine. -/
theorem adds_update (hparse : q.parse = p.parse) (hf : p.f = some f) (hg : q.f = some g)
    (hname : g.name = f.name) (hfile : wordsIn .file ws = [])
    (hstates : ∀ s, s ∈ g.states ↔ s ∈ f.states ∨ s ∈ wordsIn .states ws)
    (hkeys : ∀ k, g.HasKey k ↔ f.HasKey k ∨ k ∈ wordsIn .key ws) : Adds p q ws where
  names := by simp [Parser.fsms, hparse, hf, hg, hname, hfile]
  states s := by
    unfold Parser.Describes
    rw [exists_mem_fsms hf, exists_mem_fsms hg, hparse, hstates, or_assoc]
  keys k := by rw [exists_mem_fsms hf, exists_mem_fsms hg, hparse, hkeys, or_assoc]

/-- A step that changes no name of the last machine. -/
theorem adds_same (hparse : q.parse = p.parse) (hf : p.f = some f) (hg : q.f = some g)
    (hname : g.name = f.name) (hstates : ∀ s, s ∈ g.states ↔ s ∈ f.states)
    (hkeys : g.dataKeys = f.dataKeys) : Adds p q [] := by
  refine adds_update hparse hf hg hname rfl (fun s => ?_) fun k => ?_
  · simp [wordsIn, hstates]
  · simp [wordsIn, Fsm.HasKey, hkeys]

theorem hasKey_insert (hnew : w ∉ f.dataKeys) (k : Stringshare) :
    ({ f with dataKeys := f.dataKeys.insert w w } : Fsm).HasKey k ↔ f.HasKey k ∨ k = w := by
  constructor
  · rintro ⟨n, hl⟩
    rcases lookup_insert_some hl with ⟨-, rfl⟩ | ⟨-, hl⟩
    · exact .inr rfl
    · exact .inl ⟨n, hl⟩
  · rintro (⟨n, hl⟩ | rfl)
    · have hne : n ≠ w := fun he => hnew (he ▸ mem_of_lookup hl)
      exact ⟨n, (AList.lookup_insert_ne hne).trans hl⟩
    · exact ⟨k, AList.lookup_insert _⟩

/-- Writes through `t` change no name. -/
theorem modifyTransit_adds {g : Transit → Transit} (h : p.modifyTransit g = .ok q) :
    Adds p q [] := by
  rcases modifyTransit_ok h with ⟨t, -, rfl⟩ | ⟨name, f, -, hf, rfl⟩
  · exact adds_nil rfl
  · exact adds_same rfl hf rfl rfl (fun _ => .rfl) rfl

theorem not_names_of_opening {sm : Sm} (h : sm ∈ opening) : ¬ sm.zone.Names := by
  cases sm <;> first | exact absurd h (by decide) | simp [Sm.zone, Zone.Names]

theorem TokenStep.adds (hs : TokenStep p c q) : Adds p q [(p.sm.zone, p.buf)] := by
  cases hs
  case machine hsm =>
    refine ⟨?_, fun s => ?_, fun k => ?_⟩
    · simp [Parser.fsms, fsmNew, hsm, Sm.zone, wordsIn_one]
    · simp [Parser.Describes, Parser.fsms, fsmNew, hsm, Sm.zone, wordsIn_one, or_and_right,
        exists_or]
    · simp [Fsm.HasKey, Parser.fsms, fsmNew, hsm, Sm.zone, wordsIn_one, or_and_right, exists_or]
  case enter hsm => exact (adds_other (not_names_of_opening hsm)).2 (adds_nil rfl)
  case key f hsm hf hnew =>
    rw [hsm]
    refine adds_update rfl hf rfl rfl ?_ (fun s => ?_) fun k => ?_
    · simp [wordsIn_one, Sm.zone]
    · simp [wordsIn_one, Sm.zone]
    · simp [wordsIn_one, Sm.zone, hasKey_insert hnew]
  case state f hsm hf hnew =>
    rw [hsm]
    refine adds_update rfl hf rfl rfl ?_ (fun s => ?_) fun k => ?_
    · simp [wordsIn_one, Sm.zone]
    · simp [wordsIn_one, Sm.zone, or_comm]
    · simp [wordsIn_one, Sm.zone, Fsm.HasKey]
  case callback hsm _ =>
    exact (adds_other (by simp [hsm, Sm.zone, Zone.Names])).2 (adds_nil rfl)
  case init f s hsm hf hs hinit =>
    exact (adds_other (by simp [hsm, Sm.zone, Zone.Names])).2
      (adds_same rfl hf rfl rfl (fun _ => .rfl) rfl)
  case stateProp hb g hsm hm =>
    obtain ⟨ptr, f, -, hf, rfl⟩ := modifyCallback_ok hm
    refine (adds_other ?_).2 (adds_same rfl hf rfl rfl (fun _ => mem_hashModify) rfl)
    rcases hsm with ⟨hsm, -⟩ | ⟨hsm, -⟩ <;> simp [hsm, Sm.zone, Zone.Names]
  case describe hsm _ hf _ =>
    exact (adds_other (by simp [hsm, Sm.zone, Zone.Names])).2 (adds_nil rfl)
  case transitProp hb g hsm hm =>
    refine (adds_other ?_).2 (modifyTransit_adds hm)
    rcases hsm with ⟨hsm, -⟩ | ⟨hsm, -⟩ <;> simp [hsm, Sm.zone, Zone.Names]
  case transit f hsm _ hf hnew =>
    exact (adds_other (by simp [hsm, Sm.zone, Zone.Names])).2
      (adds_same rfl hf rfl rfl (fun _ => .rfl) rfl)
  case origin q hsm _ hm =>
    exact (adds_other (by simp [hsm, Sm.zone, Zone.Names])).2
      ((modifyTransit_adds hm).trans (adds_nil rfl))
  case target q hsm _ hm =>
    exact (adds_other (by simp [hsm, Sm.zone, Zone.Names])).2
      ((modifyTransit_adds hm).trans (adds_nil rfl))

theorem leave_adds (h : p.leave = some q) : Adds p q [] := by
  obtain ⟨⟨blocks, sm⟩, -, rfl⟩ := Option.map_eq_some_iff.1 h
  exact adds_nil rfl

theorem mark_adds (h : (Lexeme.mark m).step p = some q) : Adds p q [(p.sm.zone, p.buf)] := by
  obtain ⟨p₁, q₁, hprep, htok, hq⟩ := mark_ok h
  have hframe := prepare_frame hprep
  have hp : Adds p p₁.hand [] := by
    refine adds_nil ?_
    unfold Parser.hand
    split_ifs <;> simp only [Parser.fsms, hframe.parse, hframe.f]
  have htoken : Adds p₁.hand q₁ [(p.sm.zone, p.buf)] := by
    have ht := htok.adds
    rw [(hand_nesting (p := p₁)).2.1, (hand_frame (p := p₁)).1, hframe.buf] at ht
    rcases prepare_sm hprep with ⟨-, hs, hs'⟩ | ⟨-, hs⟩
    · rw [hs', adds_other (by simp [Sm.zone, Zone.Names])] at ht
      rcases hs with hs | hs <;> rwa [hs, adds_other (by simp [Sm.zone, Zone.Names])]
    · rwa [hs] at ht
  have hclear : Adds q₁ q [] := by
    rcases hq with ⟨-, rfl⟩ | ⟨-, hl⟩
    · exact adds_nil rfl
    · have hc : Adds q₁ q₁.clear [] := adds_nil rfl
      exact hc.trans (leave_adds hl)
  have hall := (hp.trans htoken).trans hclear
  rwa [List.append_nil, List.nil_append] at hall

theorem step_adds (hp : p.Settled) (h : l.step p = some q) :
    Adds p q (wordsFrom p.outline [l]) := by
  rcases l with _ | c | m | _ | _ | _
  case white =>
    rw [step_white hp] at h
    obtain rfl := Option.some.inj h
    split_ifs <;> exact adds_nil rfl
  case word =>
    obtain ⟨-, -, -, rfl⟩ := step_word.1 h
    exact adds_nil rfl
  case mark => exact mark_adds h
  case blockEnd =>
    rw [step_blockEnd hp] at h
    exact leave_adds h
  case comment => exact Option.some.inj h ▸ adds_nil rfl
  case bad => simp [Lexeme.step] at h

/-- The names that the machines gain along a file are its words. -/
theorem run_adds : ∀ {ls : List Lexeme} {p q : Parser}, p.Settled → p.sm ≠ .stateEob →
    ls.foldlM Lexeme.step p = some q → Adds p q (wordsFrom p.outline ls)
  | [], p, q, _, _, h => Option.some.inj h ▸ adds_nil rfl
  | l :: ls, p, q, hp, hk, h => by
    rw [List.foldlM_cons] at h
    obtain ⟨p₁, hl, h⟩ := Option.bind_eq_some_iff.1 h
    obtain ⟨ho, hk₁⟩ := step_outline hp hk hl
    rw [wordsFrom_cons, ← ho]
    exact (step_adds hp hl).trans (run_adds (settled_of_step hp hl) hk₁ h)

end Adds

/-! ## The whole file -/

section File

variable {src : List Char} {r : Cursor} {p : Parser}

/-- The names of the machines that are built of a file are words of the file. -/
theorem parseRun_adds (h : parseRun src = .ok (r, p)) : Adds {} p (words src) :=
  run_adds fresh_settled (by simp) (foldlM_of_parseRun h)

/-- The machines of an accepted file have different names, and all their strings are identifiers,
exactly when the file gives no name to two machines and leaves out no name of a machine, a key or
a state. -/
theorem usable_iff (h : parseRun src = .ok (r, p)) : Usable p.fsms ↔
    (wordsIn .file (words src)).Nodup ∧
      ∀ zone : Zone, zone.Names → [] ∉ wordsIn zone (words src) := by
  have hadds := parseRun_adds h
  have hnames : p.fsms.map Fsm.name = wordsIn .file (words src) := hadds.names
  have hstates : ∀ s, p.Describes s ↔ s ∈ wordsIn .states (words src) := by
    intro s
    rw [hadds.states]
    simp [Parser.Describes, Parser.fsms]
  have hkeys : ∀ k, (∃ f ∈ p.fsms, f.HasKey k) ↔ k ∈ wordsIn .key (words src) := by
    intro k
    rw [hadds.keys]
    simp [Parser.fsms]
  have hparsed := (parseRun_built h).parsed
  constructor
  · rintro ⟨hdistinct, hworded⟩
    refine ⟨hnames ▸ hdistinct, ?_⟩
    rintro zone (rfl | rfl | rfl) hmem
    · rw [← hnames] at hmem
      obtain ⟨f, hf, hn⟩ := List.mem_map.1 hmem
      exact not_ident_nil (hn ▸ (hworded f hf).name)
    · obtain ⟨f, hf, n, hl⟩ := (hkeys []).2 hmem
      exact not_ident_nil ((hworded f hf).dataKeys n [] hl)
    · obtain ⟨f, hf, hs⟩ := (hstates []).2 hmem
      obtain ⟨s, hl⟩ := Option.isSome_iff_exists.1 (AList.lookup_isSome.2 hs)
      have hname : s.name = [] := ((parsed_iff.1 (hparsed f hf)).2.1 [] s hl).1
      exact not_ident_nil (hname ▸ ((hworded f hf).states [] s hl).name)
  · rintro ⟨hnodup, hempty⟩
    refine ⟨hnames ▸ hnodup, fun f hf => ?_⟩
    have hshaped := parseRun_worded h f hf
    obtain ⟨-, hst, hinit⟩ := parsed_iff.1 (hparsed f hf)
    have hstate : ∀ n ∈ f.states, n ≠ [] := by
      rintro _ hn rfl
      exact hempty .states (.inr (.inr rfl)) ((hstates []).1 ⟨f, hf, hn⟩)
    refine ⟨hshaped.name.ident ?_, fun n key hl => (hshaped.dataKeys n key hl).ident ?_,
      hshaped.transits, fun n s hl => ?_, fun i hi => ?_⟩
    · intro hn
      exact hempty .file (.inl rfl) (hnames ▸ hn ▸ List.mem_map_of_mem hf)
    · rintro rfl
      exact hempty .key (.inr (.inl rfl)) ((hkeys []).1 ⟨f, hf, n, hl⟩)
    · obtain ⟨hname, henterer, hexiter⟩ := hshaped.states n s hl
      refine ⟨hname.ident ?_, henterer, hexiter⟩
      rw [(hst n s hl).1]
      exact hstate n (mem_of_lookup hl)
    · exact (hshaped.init i hi).ident (hstate i (hinit i hi))

/-- Two machines, with a key in one and a state in the other. -/
def twoMachines : List Char := "m\x7bdata\x7bglobal:x;\x7d\x7dn\x7bstates\x7bs\x7b\x7d\x7d\x7d".toList

theorem twoMachines_usable : ∃ r p, parseRun twoMachines = .ok (r, p) ∧ Usable p.fsms := by
  obtain ⟨r, p, h⟩ :=
    exists_parseRun (show (parseRun twoMachines).toOption.isSome = true by decide +kernel)
  refine ⟨r, p, h, (usable_iff h).2 ⟨by decide +kernel, ?_⟩⟩
  rintro zone (rfl | rfl | rfl) <;> decide +kernel

/-- Two machines of one name. -/
def twins : List Char := "m\x7b\x7dm\x7b\x7d".toList

/-- A machine, a key and a state without a name. -/
def nameless : List Char := "\x7bdata\x7bglobal:;\x7dstates\x7b\x7b\x7d\x7d\x7d".toList

/-- Both files are accepted. -/
theorem twins_nameless_unusable :
    (parserParse twins).map Fsm.name = ["m".toList, "m".toList] ∧
      (parserParse nameless).map Fsm.name = [[]] ∧
      ¬ Usable (parserParse twins) ∧ ¬ Usable (parserParse nameless) := by
  have htwins : (parserParse twins).map Fsm.name = ["m".toList, "m".toList] := by decide +kernel
  have hnameless : (parserParse nameless).map Fsm.name = [[]] := by decide +kernel
  refine ⟨htwins, hnameless, fun h => ?_, fun h => ?_⟩
  · have hdistinct := h.distinct
    rw [htwins] at hdistinct
    simp at hdistinct
  · have hmem : [] ∈ (parserParse nameless).map Fsm.name := by
      rw [hnameless]
      exact List.mem_singleton_self _
    obtain ⟨f, hf, hn⟩ := List.mem_map.1 hmem
    exact not_ident_nil (hn ▸ (h.worded f hf).name)

end File

end Estate.Cc
