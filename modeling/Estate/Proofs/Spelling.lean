import Estate.Cc.Naming
import Estate.Proofs.Machines

/-!
# The strings of the machines

Every string that the parser leaves in a machine is a token it has read, and a token is an
identifier or empty (`parserParse_worded`). Only the names of a machine, of a state and of a key
are taken without a look at their length.
-/

namespace Estate.Cc

open Lib

theorem spelled_nil : Spelled [] := by
  intro c hc
  simp at hc

theorem Spelled.snoc {s : List Char} {c : Char} (hs : Spelled s)
    (hc : charCase c = .letter ∨ charCase c = .digit) : Spelled (s ++ [c]) := by
  intro d hd
  rcases List.mem_append.1 hd with hd | hd
  · exact hs d hd
  · obtain rfl := List.mem_singleton.1 hd
    exact hc

theorem Spelled.not_mem {s : List Char} (hs : Spelled s) {c : Char}
    (hc : charCase c ≠ .letter ∧ charCase c ≠ .digit) : c ∉ s :=
  fun hmem => (hs c hmem).elim hc.1 hc.2

/-- A token, which may be empty. -/
def Shaped (s : List Char) : Prop := s = [] ∨ Ident s

theorem Shaped.ident {s : List Char} (h : Shaped s) (hne : s ≠ []) : Ident s := h.resolve_left hne

theorem Shaped.spelled {s : List Char} (h : Shaped s) : Spelled s := by
  rcases h with rfl | h
  · exact spelled_nil
  · exact h.spelled

theorem not_ident_nil : ¬ Ident [] := by
  rintro ⟨⟨c, cs, h, -⟩, -⟩
  simp at h

/-- A token grows by a letter, or by a digit behind its first character. -/
theorem Shaped.snoc {s : List Char} {c : Char} (hs : Shaped s)
    (hc : charCase c = .letter ∨ charCase c = .digit) (hstart : ¬ (charCase c = .digit ∧ s = [])) :
    Shaped (s ++ [c]) := by
  refine .inr ⟨?_, hs.spelled.snoc hc⟩
  rcases hs with rfl | hs
  · exact ⟨c, [], rfl, hc.resolve_right fun hd => hstart ⟨hd, rfl⟩⟩
  · obtain ⟨d, ds, rfl, hd⟩ := hs.start
    exact ⟨d, ds ++ [c], rfl, hd⟩

/-! ## Machines -/

structure Cb.Spelled (cb : Cb) : Prop where
  func : ∀ s, cb.func = some s → Cc.Spelled s
  data : ∀ s, cb.data = some s → Cc.Spelled s

theorem spelled_cb : ({} : Cb).Spelled := ⟨by simp, by simp⟩

theorem worded_cb : ({} : Cb).Worded := ⟨by simp, by simp⟩

theorem Cb.Worded.spelled {cb : Cb} (h : cb.Worded) : cb.Spelled :=
  ⟨fun s hs => (h.func s hs).spelled, fun s hs => (h.data s hs).spelled⟩

structure State.Spelled (s : State) : Prop where
  name : Cc.Spelled s.name
  enterer : s.enterer.Spelled
  exiter : s.exiter.Spelled

structure Transit.Spelled (t : Transit) : Prop where
  name : Cc.Spelled t.name
  fromState : ∀ s, t.fromState = some s → Cc.Spelled s
  toState : ∀ s, t.toState = some s → Cc.Spelled s
  cb : t.cb.Spelled
  enterer : t.enterer.Spelled
  exiter : t.exiter.Spelled

structure Fsm.Spelled (f : Fsm) : Prop where
  name : Cc.Spelled f.name
  dataKeys : ∀ n key, f.dataKeys.lookup n = some key → Cc.Spelled key
  transits : ∀ n t, f.transitions.lookup n = some t → t.Spelled
  states : ∀ n s, f.states.lookup n = some s → s.Spelled
  init : ∀ i, f.init = some i → Cc.Spelled i

theorem Transit.Worded.spelled {t : Transit} (h : t.Worded) : t.Spelled where
  name := h.name.spelled
  fromState s hs := (h.fromState s hs).spelled
  toState s hs := (h.toState s hs).spelled
  cb := h.cb.spelled
  enterer := h.enterer.spelled
  exiter := h.exiter.spelled

theorem Fsm.Worded.spelled {f : Fsm} (h : f.Worded Shaped) : f.Spelled where
  name := h.name.spelled
  dataKeys n key hl := (h.dataKeys n key hl).spelled
  transits n t hl := (h.transits n t hl).spelled
  states n s hl := by
    obtain ⟨hname, henterer, hexiter⟩ := h.states n s hl
    exact ⟨hname.spelled, henterer.spelled, hexiter.spelled⟩
  init i hi := (h.init i hi).spelled

section Writes

variable {N : List Char → Prop} {f : Fsm} {name : Stringshare}

theorem fsmNew_worded (h : N name) : (fsmNew name).Worded N :=
  ⟨h, by simp [fsmNew], by simp [fsmNew], by simp [fsmNew], by simp [fsmNew]⟩

theorem Fsm.Worded.key (hf : f.Worded N) (h : N name) :
    ({ f with dataKeys := f.dataKeys.insert name name } : Fsm).Worded N where
  name := hf.name
  dataKeys n key hl := by
    rcases lookup_insert_some hl with ⟨-, rfl⟩ | ⟨-, hl⟩
    · exact h
    · exact hf.dataKeys n key hl
  transits := hf.transits
  states := hf.states
  init := hf.init

theorem Fsm.Worded.state (hf : f.Worded N) (h : N name) :
    ({ f with states := f.states.insert name (stateNew name) } : Fsm).Worded N where
  name := hf.name
  dataKeys := hf.dataKeys
  transits := hf.transits
  states n s hl := by
    rcases lookup_insert_some hl with ⟨-, rfl⟩ | ⟨-, hl⟩
    · exact ⟨h, worded_cb, worded_cb⟩
    · exact hf.states n s hl
  init := hf.init

theorem Fsm.Worded.modifyState (hf : f.Worded N) {g : State → State}
    (hg : ∀ s : State, s.Worded N → (g s).Worded N) :
    ({ f with states := hashModify f.states name g } : Fsm).Worded N where
  name := hf.name
  dataKeys := hf.dataKeys
  transits := hf.transits
  states n s hl := by
    obtain ⟨s', hs', ⟨-, rfl⟩ | ⟨-, rfl⟩⟩ := lookup_hashModify_some hl
    · exact hf.states n s hs'
    · exact hg s' (hf.states n s' hs')
  init := hf.init

theorem Fsm.Worded.transit (hf : f.Worded N) (h : Ident name) :
    ({ f with transitions := f.transitions.insert name (transitNew name) } : Fsm).Worded N where
  name := hf.name
  dataKeys := hf.dataKeys
  transits n t hl := by
    rcases lookup_insert_some hl with ⟨-, rfl⟩ | ⟨-, hl⟩
    · exact ⟨h, by simp [transitNew], by simp [transitNew], worded_cb, worded_cb, worded_cb⟩
    · exact hf.transits n t hl
  states := hf.states
  init := hf.init

theorem Fsm.Worded.modifyTransit (hf : f.Worded N) {g : Transit → Transit}
    (hg : ∀ t : Transit, t.Worded → (g t).Worded) :
    ({ f with transitions := hashModify f.transitions name g } : Fsm).Worded N where
  name := hf.name
  dataKeys := hf.dataKeys
  transits n t hl := by
    obtain ⟨t', ht', ⟨-, rfl⟩ | ⟨-, rfl⟩⟩ := lookup_hashModify_some hl
    · exact hf.transits n t ht'
    · exact hg t' (hf.transits n t' ht')
  states := hf.states
  init := hf.init

end Writes

section Keep

variable {p q : Parser} {c : Char}

/-- All strings that a machine may hold or be given. -/
structure Spells (p : Parser) : Prop where
  buf : Shaped p.buf
  fsms : ∀ f ∈ p.fsms, f.Worded Shaped
  state : ∀ s, p.s = some s → Shaped s

theorem fresh_spells : Spells {} := ⟨.inl rfl, by simp [Parser.fsms], by simp⟩

/-- The token, the machines and the state pointed to decide. -/
theorem Spells.congr (h : Spells p) (hbuf : Shaped q.buf) (hparse : q.parse = p.parse)
    (hf : q.f = p.f) (hs : q.s = p.s) : Spells q where
  buf := hbuf
  fsms := by
    intro f hm
    exact h.fsms f (by simpa only [Parser.fsms, hparse, hf] using hm)
  state := by
    rw [hs]
    exact h.state

/-- A step that changes the last machine. -/
theorem Spells.update (h : Spells p) (hbuf : q.buf = p.buf) (hparse : q.parse = p.parse) {f : Fsm}
    (hq : q.f = some f) (hf : f.Worded Shaped)
    (hs : ∀ s, q.s = some s → Shaped s) : Spells q where
  buf := hbuf ▸ h.buf
  fsms := by
    intro f' hm
    rcases mem_fsms.1 hm with hm | hm
    · exact h.fsms f' (mem_fsms.2 (.inl (hparse ▸ hm)))
    · rw [hq] at hm
      exact Option.some.inj hm ▸ hf
  state := hs

theorem Spells.last (h : Spells p) {f : Fsm} (hf : p.f = some f) : f.Worded Shaped :=
  h.fsms f (mem_fsms.2 (.inr hf))

/-- A property of a callback is a token. -/
theorem prop_worded {g : Cb → Cb} {s : List Char} (h : Ident s)
    (hg : g = (fun cb => { cb with func := some s }) ∨ g = fun cb => { cb with data := some s })
    {cb : Cb} (hcb : cb.Worded) : (g cb).Worded := by
  have hsome : ∀ x, some s = some x → Ident x := by
    rintro x hx
    exact Option.some.inj hx ▸ h
  rcases hg with rfl | rfl
  · exact ⟨hsome, hcb.data⟩
  · exact ⟨hcb.func, hsome⟩

/-- A write through `t` with a token. -/
theorem modifyTransit_spells (h : Spells p) {g : Transit → Transit}
    (hg : ∀ t : Transit, t.Worded → (g t).Worded) (hm : p.modifyTransit g = .ok q) :
    Spells q := by
  rcases modifyTransit_ok hm with ⟨t, -, rfl⟩ | ⟨name, f, -, hf, rfl⟩
  · exact h.congr h.buf rfl rfl rfl
  · exact h.update rfl rfl rfl ((h.last hf).modifyTransit hg) h.state

theorem TokenStep.spells (hs : TokenStep p c q) (h : Spells p) : Spells q := by
  have hbuf : ∀ x, some p.buf = some x → Shaped x := fun x hx => Option.some.inj hx ▸ h.buf
  -- the tokens that are looked at for their length
  have hne : p.buf ≠ [] → ∀ x, some p.buf = some x → Ident x :=
    fun hne x hx => Option.some.inj hx ▸ h.buf.ident hne
  cases hs
  case machine =>
    refine ⟨h.buf, fun f hm => ?_, h.state⟩
    rcases mem_fsms.1 hm with hm | hm
    · exact h.fsms f hm
    · exact Option.some.inj hm ▸ fsmNew_worded h.buf
  case enter => exact h.congr h.buf rfl rfl rfl
  case key f _ hf _ => exact h.update rfl rfl rfl ((h.last hf).key h.buf) h.state
  case state f _ hf _ => exact h.update rfl rfl rfl ((h.last hf).state h.buf) hbuf
  case callback => exact h.congr h.buf rfl rfl rfl
  case init f s _ hf hs _ =>
    have hl := h.last hf
    refine h.update rfl rfl rfl ⟨hl.name, hl.dataKeys, hl.transits, hl.states, ?_⟩ h.state
    intro i hi
    exact Option.some.inj hi ▸ h.state s hs
  case stateProp hb g hg hm =>
    obtain ⟨ptr, f, -, hf, rfl⟩ := modifyCallback_ok hm
    have hprop : ∀ cb : Cb, cb.Worded → (g cb).Worded :=
      fun cb => prop_worded (h.buf.ident hb) (hg.imp And.right And.right)
    refine h.update rfl rfl rfl ((h.last hf).modifyState fun s hs => ?_) h.state
    unfold State.modifyCb
    split_ifs
    · exact ⟨hs.name, hs.enterer, hprop _ hs.exiter⟩
    · exact ⟨hs.name, hprop _ hs.enterer, hs.exiter⟩
  case describe => exact h.congr h.buf rfl rfl rfl
  case transitProp hb g hg hm =>
    refine modifyTransit_spells h (fun t ht => ?_) hm
    exact ⟨ht.name, ht.fromState, ht.toState,
      prop_worded (h.buf.ident hb) (hg.imp And.right And.right) ht.cb, ht.enterer, ht.exiter⟩
  case transit f _ hb hf _ =>
    exact h.update rfl rfl rfl ((h.last hf).transit (h.buf.ident hb)) h.state
  case origin q _ hb hm =>
    refine (modifyTransit_spells h (fun t ht => ?_) hm).congr ?_ rfl rfl rfl
    · exact ⟨ht.name, hne hb, ht.toState, ht.cb, ht.enterer, ht.exiter⟩
    · exact (modifyTransit_frame hm).1.buf ▸ h.buf
  case target q _ hb hm =>
    refine (modifyTransit_spells h (fun t ht => ?_) hm).congr ?_ rfl rfl rfl
    · exact ⟨ht.name, ht.fromState, hne hb, ht.cb, ht.enterer, ht.exiter⟩
    · exact (modifyTransit_frame hm).1.buf ▸ h.buf

theorem leave_spells (h : Spells p) (hq : p.leave = some q) : Spells q := by
  obtain ⟨⟨blocks, sm⟩, -, rfl⟩ := Option.map_eq_some_iff.1 hq
  exact h.congr h.buf rfl rfl rfl

theorem kept_spells : Kept Spells where
  blank h := h.congr h.buf rfl rfl rfl
  prepared h hprep := by
    have hframe := prepare_frame hprep
    exact h.congr (hframe.buf ▸ h.buf) hframe.parse hframe.f hframe.s
  handed h := h.congr h.buf rfl rfl rfl
  looked h hs := hs.spells h
  cleared h := h.congr (.inl rfl) rfl rfl rfl
  left := leave_spells

theorem step_spells {l : Lexeme}
    (hl : ∀ c, l = .word c → charCase c = .letter ∨ charCase c = .digit) (hp : p.Settled)
    (h : Spells p) (hq : l.step p = some q) : Spells q :=
  kept_spells.step hp h
    (fun c hc hstart => h.congr (h.buf.snoc (hl c hc) hstart) rfl rfl rfl) hq

end Keep

/-! ## The whole file -/

theorem charLexeme_word {c d : Char} (h : charLexeme d = .word c) :
    charCase c = .letter ∨ charCase c = .digit := by
  unfold charLexeme at h
  split at h <;> simp only [reduceCtorEq, Lexeme.word.injEq] at h
  · rename_i hd
    exact .inr (h ▸ hd)
  · rename_i hd
    exact .inl (h ▸ hd)

/-- Only identifier characters are read as such. -/
theorem lex_word (stop : Char → Bool) (comments : Comments) (src : List Char) :
    ∀ c, .word c ∈ (lex stop comments src).lexemes →
      charCase c = .letter ∨ charCase c = .digit := by
  fun_induction lex stop comments src <;> intro d hd <;>
    simp_all only [Reading.cons, List.mem_cons, List.not_mem_nil, reduceCtorEq, false_or]
  rcases hd with hd | hd
  · exact charLexeme_word hd.symm
  · simp_all

/-- The strings of the machines that are built of a file that is read to its end. -/
theorem parseRun_worded {src : List Char} {r : Cursor} {p : Parser}
    (h : parseRun src = .ok (r, p)) : ∀ f ∈ p.fsms, f.Worded Shaped := by
  refine (foldlM_step_induct (fun p l q hmem => step_spells fun c hc => ?_) fresh_settled
    fresh_spells (foldlM_of_parseRun h)).2.fsms
  exact lex_word isEof .none src c (hc ▸ hmem)

/-- All strings of the machines that the parser returns are tokens. -/
theorem parserParse_worded (src : List Char) : ∀ f ∈ parserParse src, f.Worded Shaped := by
  unfold parserParse
  rcases h : parseRun src with e | ⟨r, p⟩
  · simp
  · exact parseRun_worded h

theorem parserParse_spelled (src : List Char) : ∀ f ∈ parserParse src, f.Spelled :=
  fun f hf => (parserParse_worded src f hf).spelled

end Estate.Cc
