import Estate.Cc.Nesting
import Estate.Proofs.Tokens

/-!
# The machines that the parser builds

Every machine is one that the check expects (`Fsm.Parsed`), and a transition lacks a state only
while `t` points to it and its line of the model is being read (`Filled`).
-/

namespace Estate.Cc

open Lib

section Write

variable {α : Type} {h : EinaHash α} {key a : Stringshare} {b : α} {g : α → α}

theorem lookup_hashModify :
    (hashModify h key g).lookup a = if a = key then (h.lookup a).map g else h.lookup a := by
  unfold hashModify
  by_cases ha : a = key
  · subst ha
    rcases hl : h.lookup a with _ | b
    · simp [hl]
    · simp [lookup_replace_self (mem_of_lookup hl)]
  · rw [if_neg ha]
    rcases h.lookup key with _ | b
    · rfl
    · exact lookup_replace_ne ha

theorem lookup_hashModify_some (hl : (hashModify h key g).lookup a = some b) :
    ∃ b', h.lookup a = some b' ∧ (a ≠ key ∧ b = b' ∨ a = key ∧ b = g b') := by
  rw [lookup_hashModify] at hl
  split_ifs at hl with ha
  · obtain ⟨b', hb', rfl⟩ := Option.map_eq_some_iff.1 hl
    exact ⟨b', hb', .inr ⟨ha, rfl⟩⟩
  · exact ⟨b, hl, .inl ⟨ha, rfl⟩⟩

theorem mem_hashModify : a ∈ hashModify h key g ↔ a ∈ h := by
  rw [← AList.lookup_isSome, ← AList.lookup_isSome, lookup_hashModify]
  split_ifs <;> simp

theorem hashModify_hashModify {g' : α → α} :
    hashModify (hashModify h key g) key g' = hashModify h key fun a => g' (g a) := by
  unfold hashModify
  rcases hl : h.lookup key with _ | b
  · simp [hl]
  · simp [lookup_replace_self (mem_of_lookup hl), replace_replace]

theorem hashModify_self (hl : h.lookup key = some b) (hg : g b = b) : hashModify h key g = h := by
  unfold hashModify
  simp only [hl, hg, replace_self hl]

theorem hashModify_insert : hashModify (h.insert key b) key g = h.insert key (g b) := by
  unfold hashModify
  rw [AList.lookup_insert]
  exact replace_insert

theorem lookup_insert_some {b' : α} (hl : (h.insert key b').lookup a = some b) :
    a = key ∧ b = b' ∨ a ≠ key ∧ h.lookup a = some b := by
  by_cases ha : a = key
  · subst ha
    rw [AList.lookup_insert] at hl
    exact .inl ⟨rfl, (Option.some.inj hl).symm⟩
  · rw [AList.lookup_insert_ne ha] at hl
    exact .inr ⟨ha, hl⟩

end Write

section Parsed

variable {f : Fsm}

/-- The entries of a parsed machine, by their names. -/
theorem parsed_iff : f.Parsed ↔
    (∀ n t, f.transitions.lookup n = some t → t.name = n) ∧
      (∀ n s, f.states.lookup n = some s →
        s.name = n ∧ s.checkFrom = 0 ∧ s.checkTo = 0 ∧ s.trs = []) ∧
      ∀ i, f.init = some i → i ∈ f.states := by
  constructor
  · intro h
    refine ⟨fun n t ht => h.transit_name _ (mem_entries_iff.2 ht), fun n s hs => ?_, h.init_mem⟩
    exact ⟨h.state_name _ (mem_entries_iff.2 hs), h.state_fresh _ (mem_entries_iff.2 hs)⟩
  · rintro ⟨ht, hs, hi⟩
    exact ⟨fun e he => ht e.1 e.2 (mem_entries_iff.1 he),
      fun e he => (hs e.1 e.2 (mem_entries_iff.1 he)).1,
      fun e he => (hs e.1 e.2 (mem_entries_iff.1 he)).2, hi⟩

theorem fsmNew_parsed (name : Stringshare) : (fsmNew name).Parsed := by
  rw [parsed_iff]
  simp [fsmNew]

theorem Fsm.Parsed.state (hf : f.Parsed) (name : Stringshare) :
    ({ f with states := f.states.insert name (stateNew name) } : Fsm).Parsed := by
  rw [parsed_iff] at hf ⊢
  obtain ⟨ht, hs, hi⟩ := hf
  refine ⟨ht, fun n s hl => ?_, fun i hin => (AList.mem_insert _).2 (.inr (hi i hin))⟩
  rcases lookup_insert_some hl with ⟨rfl, rfl⟩ | ⟨-, hl⟩
  · exact ⟨rfl, rfl, rfl, rfl⟩
  · exact hs n s hl

theorem Fsm.Parsed.modifyState (hf : f.Parsed) (name : Stringshare) (exiter : Bool) (g : Cb → Cb) :
    ({ f with states := hashModify f.states name fun s => s.modifyCb exiter g } : Fsm).Parsed := by
  rw [parsed_iff] at hf ⊢
  obtain ⟨ht, hs, hi⟩ := hf
  refine ⟨ht, fun n s hl => ?_, fun i hin => mem_hashModify.2 (hi i hin)⟩
  obtain ⟨s', hs', ⟨-, rfl⟩ | ⟨-, rfl⟩⟩ := lookup_hashModify_some hl
  · exact hs n s hs'
  · rcases exiter <;> exact hs n s' hs'

theorem Fsm.Parsed.transit (hf : f.Parsed) (name : Stringshare) :
    ({ f with transitions := f.transitions.insert name (transitNew name) } : Fsm).Parsed := by
  rw [parsed_iff] at hf ⊢
  obtain ⟨ht, hs, hi⟩ := hf
  refine ⟨fun n t hl => ?_, hs, hi⟩
  rcases lookup_insert_some hl with ⟨rfl, rfl⟩ | ⟨-, hl⟩
  · rfl
  · exact ht n t hl

theorem Fsm.Parsed.modifyTransit (hf : f.Parsed) (name : Stringshare) {g : Transit → Transit}
    (hg : ∀ t, (g t).name = t.name) :
    ({ f with transitions := hashModify f.transitions name g } : Fsm).Parsed := by
  rw [parsed_iff] at hf ⊢
  obtain ⟨ht, hs, hi⟩ := hf
  refine ⟨fun n t hl => ?_, hs, hi⟩
  obtain ⟨t', ht', ⟨-, rfl⟩ | ⟨-, rfl⟩⟩ := lookup_hashModify_some hl
  · exact ht n t ht'
  · exact (hg t').trans (ht n t' ht')

end Parsed

section Keep

variable {p q : Parser} {c : Char}

/-- Both its states are set. -/
def Transit.Filled (t : Transit) : Prop := t.fromState ≠ none ∧ t.toState ≠ none

/-- The line of the model being read is that of an entry. -/
def Parser.Reads (p : Parser) (n : Stringshare) (t : Transit) : Prop :=
  p.t = some (.entry n) ∧
    (p.sm = .transitionFrom ∨ p.sm = .transitionTo ∧ t.fromState ≠ none)

/-- The machines built so far. -/
structure Built (p : Parser) : Prop where
  parsed : ∀ f ∈ p.fsms, f.Parsed
  marked : p.sm = .stateAttribute → ∀ f s, p.f = some f → p.s = some s → s ∈ f.states
  finished : ∀ f ∈ p.parse, ∀ t ∈ f.transits, t.Filled
  current : ∀ f, p.f = some f → ∀ n t, f.transitions.lookup n = some t → t.Filled ∨ p.Reads n t

theorem fresh_built : Built {} where
  parsed := by simp [Parser.fsms]
  marked := by simp
  finished := by simp
  current := by simp

theorem mem_fsms {f : Fsm} : f ∈ p.fsms ↔ f ∈ p.parse ∨ p.f = some f := by
  simp [Parser.fsms]

/-- Between two lines of the model every transition is filled. -/
theorem Built.filled (h : Built p) (hf : p.sm ≠ .transitionFrom) (ht : p.sm ≠ .transitionTo)
    {f : Fsm} (hp : p.f = some f) : ∀ n t, f.transitions.lookup n = some t → t.Filled := by
  intro n t hl
  rcases h.current f hp n t hl with h | ⟨-, h | ⟨h, -⟩⟩
  · exact h
  · exact absurd h hf
  · exact absurd h ht

theorem mem_transits_of_lookup {f : Fsm} {P : Transit → Prop}
    (h : ∀ n t, f.transitions.lookup n = some t → P t) : ∀ t ∈ f.transits, P t := by
  intro t ht
  obtain ⟨e, he, rfl⟩ := List.mem_map.1 ht
  exact h e.1 e.2 (mem_entries_iff.1 he)

/-- Every machine is finished with all its transitions filled. -/
theorem Built.fsms_filled (h : Built p) (hf : p.sm ≠ .transitionFrom) (ht : p.sm ≠ .transitionTo) :
    ∀ f ∈ p.fsms, ∀ t ∈ f.transits, t.Filled := by
  intro f hm
  rcases mem_fsms.1 hm with hm | hm
  · exact h.finished f hm
  · exact mem_transits_of_lookup (h.filled hf ht hm)

/-- A step that leaves the machines alone, outside the lines of the model. -/
theorem Built.same (h : Built p) (hf : p.sm ≠ .transitionFrom) (ht : p.sm ≠ .transitionTo)
    (hparse : q.parse = p.parse) (hq : q.f = p.f)
    (hattr : q.sm = .stateAttribute → p.sm = .stateAttribute ∧ q.s = p.s) : Built q where
  parsed := by
    intro f hm
    exact h.parsed f (by simpa only [Parser.fsms, hparse, hq] using hm)
  marked := by
    intro hsm f s hf' hs
    obtain ⟨h₁, h₂⟩ := hattr hsm
    exact h.marked h₁ f s (hq ▸ hf') (h₂ ▸ hs)
  finished := by
    intro f hm
    exact h.finished f (hparse ▸ hm)
  current := fun f hf' n t hl => .inl (h.filled hf ht (hq ▸ hf') n t hl)

/-- A step that changes the last machine, outside the lines of the model. -/
theorem Built.update (h : Built p) (hparse : q.parse = p.parse) {f : Fsm} (hq : q.f = some f)
    (hparsed : f.Parsed) (hattr : q.sm = .stateAttribute → ∀ s, q.s = some s → s ∈ f.states)
    (hcur : ∀ n t, f.transitions.lookup n = some t → t.Filled ∨ q.Reads n t) : Built q where
  parsed := by
    intro f' hm
    rcases mem_fsms.1 hm with hm | hm
    · exact h.parsed f' (mem_fsms.2 (.inl (hparse ▸ hm)))
    · rw [hq] at hm
      exact Option.some.inj hm ▸ hparsed
  marked := by
    intro hsm f' s hf' hs
    rw [hq] at hf'
    exact Option.some.inj hf' ▸ hattr hsm s hs
  finished := by
    intro f' hm
    exact h.finished f' (hparse ▸ hm)
  current := by
    intro f' hf' n t hl
    rw [hq] at hf'
    obtain rfl := Option.some.inj hf'
    exact hcur n t hl

/-- An entry that `t` does not point to is filled. -/
theorem Built.filled_of_ne (h : Built p) {f : Fsm} (hf : p.f = some f) {n : Stringshare}
    {t : Transit} (hl : f.transitions.lookup n = some t) (hn : p.t ≠ some (.entry n)) :
    t.Filled := by
  rcases h.current f hf n t hl with h | ⟨h, -⟩
  · exact h
  · exact absurd h hn

theorem smAfter_attribute {sm : Sm} {buf : List Char} (h : smAfter sm buf c = .stateAttribute) :
    sm = .states := by
  cases sm <;> simp only [smAfter] at h <;> (try split_ifs at h) <;> simp_all

theorem TokenStep.built (hs : TokenStep p c q) (h : Built p) : Built q := by
  cases hs
  case machine hsm =>
    refine ⟨fun f hm => ?_, by simp, ?_, ?_⟩
    · rcases mem_fsms.1 hm with hm | hm
      · exact h.parsed f hm
      · exact Option.some.inj hm ▸ fsmNew_parsed p.buf
    · exact h.fsms_filled (by simp [hsm]) (by simp [hsm])
    · intro f hf n t hl
      obtain rfl := Option.some.inj hf
      simp [fsmNew] at hl
  case enter hsm =>
    have hne : p.sm ≠ .transitionFrom ∧ p.sm ≠ .transitionTo ∧ p.sm ≠ .states := by
      refine ⟨?_, ?_, ?_⟩ <;> rintro he <;> rw [he] at hsm <;> exact absurd hsm (by decide)
    exact h.same hne.1 hne.2.1 rfl rfl fun hq => absurd (smAfter_attribute hq) hne.2.2
  case key f hsm hf hkey =>
    obtain ⟨ht, hs, hi⟩ := parsed_iff.1 (h.parsed f (mem_fsms.2 (.inr hf)))
    refine h.update rfl rfl (parsed_iff.2 ⟨ht, hs, hi⟩) (by simp [hsm]) fun n t hl => .inl ?_
    exact h.filled (by simp [hsm]) (by simp [hsm]) hf n t hl
  case state f hsm hf hnew =>
    refine h.update rfl rfl ((h.parsed f (mem_fsms.2 (.inr hf))).state p.buf) ?_
      fun n t hl => .inl (h.filled (by simp [hsm]) (by simp [hsm]) hf n t hl)
    intro _ s hs
    obtain rfl := Option.some.inj hs
    exact (AList.mem_insert _).2 (.inl rfl)
  case callback s exiter hsm _ =>
    exact h.same (by simp [hsm]) (by simp [hsm]) rfl rfl (by simp)
  case init f s hsm hf hs hinit =>
    have hp := parsed_iff.1 (h.parsed f (mem_fsms.2 (.inr hf)))
    refine h.update rfl rfl (parsed_iff.2 ⟨hp.1, hp.2.1, ?_⟩) ?_
      fun n t hl => .inl (h.filled (by simp [hsm]) (by simp [hsm]) hf n t hl)
    · intro i hi
      obtain rfl := Option.some.inj hi
      exact h.marked hsm f s hf hs
    · intro hq
      have hstates := @smAfter_attribute c .stateAttribute p.buf hq
      simp at hstates
  case stateProp g hsm hm =>
    obtain ⟨ptr, f, -, hf, rfl⟩ := modifyCallback_ok hm
    have hne : p.sm ≠ .transitionFrom ∧ p.sm ≠ .transitionTo ∧ p.sm ≠ .stateAttribute := by
      rcases hsm with ⟨hsm, -⟩ | ⟨hsm, -⟩ <;> simp [hsm]
    refine h.update rfl rfl ((h.parsed f (mem_fsms.2 (.inr hf))).modifyState ptr.state ptr.exiter g)
      (fun hq => absurd hq hne.2.2) fun n t hl => .inl (h.filled hne.1 hne.2.1 hf n t hl)
  case describe hsm _ hf _ => exact h.same (by simp [hsm]) (by simp [hsm]) rfl rfl (by simp)
  case transitProp g hsm hm =>
    have hne : p.sm ≠ .transitionFrom ∧ p.sm ≠ .transitionTo ∧ p.sm ≠ .stateAttribute := by
      rcases hsm with ⟨hsm, -⟩ | ⟨hsm, -⟩ <;> simp [hsm]
    rcases modifyTransit_ok hm with ⟨t, -, rfl⟩ | ⟨name, f, -, hf, rfl⟩
    · exact h.same hne.1 hne.2.1 rfl rfl fun hq => absurd hq hne.2.2
    · refine h.update rfl rfl ((h.parsed f (mem_fsms.2 (.inr hf))).modifyTransit name fun _ => rfl)
        (fun hq => absurd hq hne.2.2) fun n t hl => .inl ?_
      obtain ⟨t', ht', ⟨-, rfl⟩ | ⟨-, rfl⟩⟩ := lookup_hashModify_some hl
      · exact h.filled hne.1 hne.2.1 hf n t ht'
      · exact h.filled hne.1 hne.2.1 hf n t' ht'
  case transit f hsm _ hf hnew =>
    refine h.update rfl rfl ((h.parsed f (mem_fsms.2 (.inr hf))).transit p.buf) (by simp) ?_
    intro n t hl
    rcases lookup_insert_some hl with ⟨rfl, rfl⟩ | ⟨-, hl⟩
    · exact .inr ⟨rfl, .inl rfl⟩
    · exact .inl (h.filled (by simp [hsm]) (by simp [hsm]) hf n t hl)
  case origin q hsm _ hm =>
    rcases modifyTransit_ok hm with ⟨t, ht, rfl⟩ | ⟨name, f, ht, hf, rfl⟩
    · refine ⟨h.parsed, by simp, h.finished, fun f hf n t hl => .inl ?_⟩
      exact h.filled_of_ne hf hl (by simp [ht])
    · refine h.update rfl rfl ((h.parsed f (mem_fsms.2 (.inr hf))).modifyTransit name fun _ => rfl)
        (by simp) ?_
      intro n t hl
      obtain ⟨t', ht', ⟨hn, rfl⟩ | ⟨rfl, rfl⟩⟩ := lookup_hashModify_some hl
      · exact .inl (h.filled_of_ne hf ht' (by simp [ht, Ne.symm hn]))
      · exact .inr ⟨ht, .inr ⟨rfl, by simp⟩⟩
  case target q hsm _ hm =>
    rcases modifyTransit_ok hm with ⟨t, ht, rfl⟩ | ⟨name, f, ht, hf, rfl⟩
    · refine ⟨h.parsed, by simp, h.finished, fun f hf n t hl => .inl ?_⟩
      exact h.filled_of_ne hf hl (by simp [ht])
    · refine h.update rfl rfl ((h.parsed f (mem_fsms.2 (.inr hf))).modifyTransit name fun _ => rfl)
        (by simp) ?_
      intro n t hl
      obtain ⟨t', ht', ⟨hn, rfl⟩ | ⟨rfl, rfl⟩⟩ := lookup_hashModify_some hl
      · exact .inl (h.filled_of_ne hf ht' (by simp [ht, Ne.symm hn]))
      · rcases h.current f hf n t' ht' with hfill | ⟨-, hfrom | ⟨-, hfrom⟩⟩
        · exact .inl ⟨hfill.1, by simp⟩
        · simp [hsm] at hfrom
        · exact .inl ⟨hfrom, by simp⟩

/-- The anonymous transition is in no machine. -/
theorem Built.anonymousTransit (h : Built p) (format : String) :
    Built (anonymousTransit p format) := by
  unfold Estate.Cc.anonymousTransit
  split_ifs with hs
  · refine ⟨h.parsed, by simp, h.finished, fun f hf n t hl => .inl ?_⟩
    exact h.filled (by simp [hs.1]) (by simp [hs.1]) hf n t hl
  · exact h

/-- The machines, the pointers and the state decide. -/
theorem Built.congr (h : Built p) (hparse : q.parse = p.parse) (hf : q.f = p.f) (ht : q.t = p.t)
    (hs : q.s = p.s) (hsm : q.sm = p.sm) : Built q where
  parsed := by
    intro f hm
    exact h.parsed f (by simpa only [Parser.fsms, hparse, hf] using hm)
  marked := by
    rw [hsm, hf, hs]
    exact h.marked
  finished := by
    rw [hparse]
    exact h.finished
  current := by
    unfold Parser.Reads
    rw [hf, ht, hsm]
    exact h.current

theorem prepare_built {m : Mark} (h : Built p) (hq : m.prepare p = some q) : Built q := by
  rcases prepare_cases hq with ⟨-, format, -, rfl⟩ | ⟨-, bs, b, rfl⟩
  · exact (h.anonymousTransit format).congr rfl rfl rfl rfl rfl
  · exact h.congr rfl rfl rfl rfl rfl

/-- What holds of a state and goes up to its parents holds where a block has been left. -/
theorem blockLeave_induct {P : Sm → Prop} (hup : ∀ sm, P sm → P sm.parent) :
    ∀ {blocks blocks' : List Bool} {sm sm' : Sm},
      blockLeave blocks sm = some (blocks', sm') → P sm → P sm'
  | [], _, _, _, h, _ => by simp [blockLeave] at h
  | b :: blocks, blocks', sm, sm', h, hp => by
    unfold blockLeave at h
    split_ifs at h
    · exact blockLeave_induct hup h (hup sm hp)
    · rw [← (Prod.mk.inj (Option.some.inj h)).2]
      exact hup sm hp

theorem leave_built (h : Built p) (hq : p.leave = some q) : Built q := by
  unfold Parser.leave at hq
  obtain ⟨⟨blocks, sm⟩, hl, rfl⟩ := Option.map_eq_some_iff.1 hq
  by_cases hf : p.sm = .transitionFrom
  · have hsm := blockLeave_induct (P := (· = .transitionFrom)) (by rintro _ rfl; rfl) hl hf
    exact h.congr rfl rfl rfl rfl (hsm.trans hf.symm)
  by_cases ht : p.sm = .transitionTo
  · have hsm := blockLeave_induct (P := (· = .transitionTo)) (by rintro _ rfl; rfl) hl ht
    exact h.congr rfl rfl rfl rfl (hsm.trans ht.symm)
  refine h.same hf ht rfl rfl fun hattr => ⟨?_, rfl⟩
  by_contra hne
  have hup : ∀ sm : Sm, sm ≠ .stateAttribute → sm.parent ≠ .stateAttribute := by
    intro sm
    cases sm <;> simp [Sm.parent]
  exact blockLeave_induct (P := (· ≠ .stateAttribute)) hup hl hne hattr

theorem kept_built : Kept Built where
  blank h := h.congr rfl rfl rfl rfl rfl
  prepared := prepare_built
  handed h := h.congr rfl rfl rfl rfl rfl
  looked h hs := hs.built h
  cleared h := h.congr rfl rfl rfl rfl rfl
  left := leave_built

theorem step_built {l : Lexeme} (hp : p.Settled) (h : Built p) (hq : l.step p = some q) :
    Built q :=
  kept_built.step hp h (fun _ _ _ => h.congr rfl rfl rfl rfl rfl) hq

/-- What the parser has built at the end of a file. -/
theorem parseRun_built {src : List Char} {r : Cursor} (h : parseRun src = .ok (r, p)) :
    Built p :=
  (foldlM_step_induct (fun _ _ _ _ => step_built) fresh_settled fresh_built
    (foldlM_of_parseRun h)).2

/-- The parser returns machines that the check expects. -/
theorem parserParse_parsed (src : List Char) : ∀ f ∈ parserParse src, f.Parsed := by
  unfold parserParse
  rcases h : parseRun src with e | ⟨r, p⟩
  · simp
  · exact (parseRun_built h).parsed

end Keep

end Estate.Cc
