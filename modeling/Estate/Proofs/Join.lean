import Estate.Proofs.Arrows
import Estate.Proofs.Cursors
import Estate.Proofs.Layout
import Estate.Proofs.Outline

/-!
# Two files in one

The parser carries nothing from one machine to the next but the machines before it, the number of
the lines without a name, and pointers that are set before they are used: a run goes on behind
other machines as it goes alone (`step_behind`). The exception is `t`, which the end of a
description leaves set.
-/

namespace Estate.Cc

/-- Behind the first text, the second one is parsed as it is alone. -/
def Joins (a b : List Char) : Prop :=
  (Parses (a ++ b) ↔ Parses b) ∧
    (Parses b → parserParse (a ++ b) = parserParse a ++ parserParse b)

/-- A text that can be followed by another one: all that it opens is closed, its comments are ended,
and it is read to its end. -/
structure Whole (src : List Char) : Prop where
  parses : Parses src
  closed : outline src = {}
  comments : (reading src).comments = .none
  read : (reading src).unread = []

/-! ## The lexemes of two texts -/

/-- Behind a text that is read to its end, outside comments, the next one is read as it is alone. -/
theorem lex_append (comments : Comments) (cs more : List Char)
    (hbad : Lexeme.bad ∉ (lex isEof comments cs).lexemes)
    (hcomments : (lex isEof comments cs).comments = .none)
    (hread : (lex isEof comments cs).unread = []) : lex isEof comments (cs ++ more) =
      { lex isEof .none more with
        lexemes := (lex isEof comments cs).lexemes ++ (lex isEof .none more).lexemes } := by
  have hcons : ∀ {l : Lexeme} {rd rd' : Reading}, rd' =
      { lex isEof .none more with lexemes := rd.lexemes ++ (lex isEof .none more).lexemes } →
      rd'.cons l = { lex isEof .none more with
        lexemes := (rd.cons l).lexemes ++ (lex isEof .none more).lexemes } := by
    rintro l rd rd' rfl
    rfl
  have hbad' : ∀ {l : Lexeme} {rd : Reading}, Lexeme.bad ∉ (rd.cons l).lexemes →
      Lexeme.bad ∉ rd.lexemes := fun h hmem => h (List.mem_cons_of_mem _ hmem)
  fun_induction lex isEof comments cs
  case case1 =>
    obtain rfl : _ = Comments.none := hcomments
    rfl
  case case2 => cases hread
  case case3 ih =>
    rw [List.cons_append, List.cons_append, lex_singleLine rfl]
    exact hcons (ih (hbad' hbad) hcomments hread)
  case case4 ih =>
    rw [List.cons_append, List.cons_append, lex_multipleLines rfl]
    exact hcons (ih (hbad' hbad) hcomments hread)
  case case5 => exact absurd List.mem_cons_self hbad
  case case6 ih =>
    rw [List.cons_append, List.cons_append, lex_arrow rfl]
    exact hcons (ih (hbad' hbad) hcomments hread)
  case case7 => exact absurd List.mem_cons_self hbad
  case case8 heof hs hd ih =>
    rw [List.cons_append, lex_char (by simpa using heof) hs hd]
    exact hcons (ih (hbad' hbad) hcomments hread)
  case case9 => cases hread
  case case10 ih =>
    rw [List.cons_append, lex_lineEnd rfl]
    exact hcons (ih (hbad' hbad) hcomments hread)
  case case11 heof hn ih =>
    rw [List.cons_append, lex_inLine (by simpa using heof) hn]
    exact ih hbad hcomments hread
  case case12 => cases hread
  case case13 => cases hcomments
  case case14 ih =>
    rw [List.cons_append, List.cons_append, lex_close rfl]
    exact ih hbad hcomments hread
  case case15 hd _ ih =>
    rw [List.cons_append, List.cons_append, lex_star rfl hd]
    exact ih hbad hcomments hread
  case case16 heof hs ih =>
    rw [List.cons_append, lex_inLines (by simpa using heof) hs]
    exact ih hbad hcomments hread

/-! ## Behind other machines -/

/-- The parser behind what another one has parsed. -/
abbrev Parser.behind (first p : Parser) : Parser :=
  { p with
    parse := p.f.elim first.parse fun _ => first.fsms ++ p.parse
    anonymous := first.anonymous + p.anonymous
    f := p.f.or first.f
    s := p.s.or first.s
    cb := p.cb.or first.cb
    handed := first.handed ++ p.handed }

/-- The pointers are valid, and there is no machine before the first one. -/
structure Going (p : Parser) : Prop where
  pointing : ∃ n, Pointing p n
  parse : p.f = none → p.parse = []

section Behind

variable {first p q : Parser} {c : Char} {f : Fsm}

theorem cbToken_behind {cb : Except Fail Cb} {funcProp dataProp : Sm} :
    cbToken (first.behind p) cb funcProp dataProp =
      (cbToken p cb funcProp dataProp).map first.behind := by
  unfold cbToken
  rcases cb with e | cb <;> simp only <;> split_ifs <;> rfl

theorem nonEmpty_behind {text : List Char} {next next' : Except Fail Parser}
    (h : next' = next.map first.behind) :
    nonEmpty (first.behind p) text next' = (nonEmpty p text next).map first.behind := by
  unfold nonEmpty
  simp only [h]
  split_ifs <;> rfl

theorem modifyCallback_behind {g : Cb → Cb} {ptr : CbPtr} (hcb : p.cb = some ptr)
    (hf : p.f = some f) :
    (first.behind p).modifyCallback g = (p.modifyCallback g).map first.behind := by
  simp [Parser.modifyCallback, hcb, hf, Except.map]

theorem modifyTransit_behind {g : Transit → Transit} {ptr : TransitPtr} (ht : p.t = some ptr)
    (hf : p.f = some f) :
    (first.behind p).modifyTransit g = (p.modifyTransit g).map first.behind := by
  rcases ptr with name | t <;>
    simp [Parser.modifyTransit, ht, hf, Except.map]

theorem token_behind (hp : Going p) :
    token (first.behind p) c = (token p c).map first.behind := by
  obtain ⟨⟨n, hn⟩, hparse⟩ := hp
  by_cases hsm : p.sm = .none
  · unfold token
    simp only [hsm, Except.map]
    rcases hf : p.f with _ | f
    · simp [hparse hf, Parser.fsms]
    · simp
  obtain ⟨f, hf⟩ := hn.machine hsm
  have hfsm : p.fsm = .ok f := by simp only [Parser.fsm, hf]
  have hfsm' : (first.behind p).fsm = .ok f := by simp [Parser.fsm, hf]
  have hcallback : p.sm.usesCb = true → (∃ ptr, p.cb = some ptr) ∧
      (first.behind p).callback = p.callback := by
    intro hu
    obtain ⟨s, exiter, -, hcb⟩ := hn.valid.cb hu
    exact ⟨⟨_, hcb⟩, by simp [Parser.callback, hcb, hf]⟩
  have htransit : p.sm.describes = true ∨ p.sm.usesLine = true → (∃ ptr, p.t = some ptr) ∧
      (first.behind p).transit = p.transit := by
    intro hu
    have ht : ∃ ptr, p.t = some ptr := by
      rcases hu with hu | hu
      · obtain ⟨-, name, -, ht, -⟩ := hn.valid.transit hu
        exact ⟨_, ht⟩
      · obtain ⟨t, ht, -⟩ := hn.valid.line hu
        exact ⟨t, ht⟩
    exact ⟨ht, by simp [Parser.transit, hf]⟩
  unfold token
  rcases hs : p.sm <;> simp only [hfsm, hfsm']
  case none => exact absurd hs hsm
  case fsm => split_ifs <;> rfl
  case data => split_ifs <;> rfl
  case dataGlobalProp =>
    rcases hashFind f.dataKeys (some p.buf) with _ | _
    · simp [hf, Except.map]
    · rfl
  case states =>
    rcases hashFind f.states (some p.buf) with _ | _
    · simp [hf, Except.map]
    · rfl
  case state =>
    obtain ⟨-, s, -, hs', -⟩ := hn.valid.state (.inl (by rw [hs]; rfl))
    simp only [hs', Option.some_or]
    split_ifs <;> simp [hf, Except.map, invalidToken]
  case stateAttribute =>
    obtain ⟨-, s, -, hs', -⟩ := hn.valid.state (.inl (by rw [hs]; rfl))
    simp only [hs', hf, Option.some_or]
    split_ifs <;> simp [Except.map]
  case stateCb =>
    rw [(hcallback (by rw [hs]; rfl)).2]
    exact cbToken_behind
  case stateCbFuncProp =>
    obtain ⟨⟨ptr, hcb⟩, -⟩ := hcallback (by rw [hs]; rfl)
    exact nonEmpty_behind (modifyCallback_behind hcb hf)
  case stateCbDataProp =>
    obtain ⟨⟨ptr, hcb⟩, -⟩ := hcallback (by rw [hs]; rfl)
    exact nonEmpty_behind (modifyCallback_behind hcb hf)
  case transitions =>
    rcases hashFind f.transitions (some p.buf) with _ | _
    · split_ifs <;> rfl
    · split_ifs <;> rfl
  case transition => split_ifs <;> rfl
  case transitionCb =>
    rw [(htransit (.inl (by rw [hs]; rfl))).2]
    exact cbToken_behind
  case transitionCbFuncProp =>
    obtain ⟨⟨ptr, ht⟩, -⟩ := htransit (.inl (by rw [hs]; rfl))
    exact nonEmpty_behind (modifyTransit_behind ht hf)
  case transitionCbDataProp =>
    obtain ⟨⟨ptr, ht⟩, -⟩ := htransit (.inl (by rw [hs]; rfl))
    exact nonEmpty_behind (modifyTransit_behind ht hf)
  case transitionStart =>
    refine nonEmpty_behind ?_
    rcases hashFind f.transitions (some p.buf) with _ | _
    · simp [hf, Except.map]
    · rfl
  case transitionFrom =>
    obtain ⟨⟨ptr, ht⟩, -⟩ := htransit (.inr (by rw [hs]; rfl))
    refine nonEmpty_behind ?_
    rw [modifyTransit_behind ht hf]
    rcases p.modifyTransit fun t => { t with fromState := some p.buf } with e | q <;> rfl
  case transitionTo =>
    obtain ⟨⟨ptr, ht⟩, -⟩ := htransit (.inr (by rw [hs]; rfl))
    refine nonEmpty_behind ?_
    rw [modifyTransit_behind ht hf]
    rcases p.modifyTransit fun t => { t with toState := some p.buf } with e | q <;> rfl
  case stateEob => rfl

theorem hand_behind : (first.behind p).hand = first.behind p.hand := by
  unfold Parser.hand
  split_ifs
  · simp
  · rfl

theorem leave_behind : (first.behind p).leave = p.leave.map first.behind := by
  unfold Parser.leave
  rw [Option.map_map]
  rfl

theorem Going.hand (h : Going p) : Going p.hand := by
  obtain ⟨⟨n, hn⟩, hparse⟩ := h
  refine ⟨⟨n, hn.hand⟩, ?_⟩
  unfold Parser.hand
  split_ifs <;> exact hparse

theorem look_behind (hp : Going p) :
    (first.behind p).look c = (p.look c).map first.behind := by
  unfold Parser.look
  rw [hand_behind, token_behind hp.hand]
  rcases token p.hand c with e | q
  · rfl
  · show (if q.leaveBlock then (first.behind q.clear).leave else some (first.behind q.clear)) =
      (if q.leaveBlock then q.clear.leave else some q.clear).map first.behind
    split_ifs
    · exact leave_behind
    · rfl

/-- Behind a machine that is going on, the machines of both are parsed. -/
theorem fsms_behind (hp : Going p) : (first.behind p).fsms = first.fsms ++ p.fsms := by
  rcases hf : p.f with _ | f
  · simp [Parser.fsms, hf, hp.parse hf]
  · simp [Parser.fsms, hf]

end Behind

section Going

variable {p q : Parser} {n : LastNamed} {c : Char} {m : Mark} {l : Lexeme}

theorem Going.congr (h : Going p) (hparse : q.parse = p.parse) (hf : q.f = p.f) (ht : q.t = p.t)
    (hs : q.s = p.s) (hcb : q.cb = p.cb) (hsm : q.sm = p.sm) : Going q := by
  obtain ⟨⟨n, hn⟩, hnone⟩ := h
  exact ⟨⟨n, hn.congr hf ht hs hcb hsm⟩, by rwa [hparse, hf]⟩

theorem TokenStep.parse (h : TokenStep p c q) (hp : p.f = none → p.parse = []) :
    q.f = none → q.parse = [] := by
  cases h
  case enter => exact hp
  case callback => exact hp
  case describe hf _ => exact hp
  case stateProp hm =>
    obtain ⟨ptr, f, -, -, rfl⟩ := modifyCallback_ok hm
    simp
  case transitProp hm =>
    rcases modifyTransit_ok hm with ⟨t, -, rfl⟩ | ⟨name, f, -, -, rfl⟩
    · exact hp
    · simp
  case origin q _ _ hm =>
    rcases modifyTransit_ok hm with ⟨t, -, rfl⟩ | ⟨name, f, -, -, rfl⟩
    · exact hp
    · simp
  case target q _ _ hm =>
    rcases modifyTransit_ok hm with ⟨t, -, rfl⟩ | ⟨name, f, -, -, rfl⟩
    · exact hp
    · simp
  all_goals simp

theorem Going.leave (h : Going p) (hq : p.leave = some q) : Going q := by
  obtain ⟨⟨n, hn⟩, hnone⟩ := h
  refine ⟨⟨n, hn.leave hq⟩, ?_⟩
  obtain ⟨b, -, rfl⟩ := Option.map_eq_some_iff.1 hq
  exact hnone

theorem Going.look (h : Going p) (hq : p.look c = some q) : Going q := by
  unfold Parser.look at hq
  obtain ⟨p', hp', hq⟩ := Option.bind_eq_some_iff.1 hq
  have ht : token p.hand c = .ok p' := by
    rcases htok : token p.hand c with e | p''
    · simp [htok, Except.toOption] at hp'
    · simpa [htok, Except.toOption] using hp'
  obtain ⟨⟨n, hn⟩, hnone⟩ := h.hand
  have hclear : Going p'.clear :=
    Going.congr ⟨⟨_, token_pointing ht hn⟩, (tokenStep_of_token ht).parse hnone⟩
      rfl rfl rfl rfl rfl rfl
  split_ifs at hq
  · exact hclear.leave hq
  · exact Option.some.inj hq ▸ hclear

theorem Going.anonymousTransit (h : Going p) (format : String) :
    Going (anonymousTransit p format) := by
  unfold Estate.Cc.anonymousTransit
  split_ifs with hstart
  · obtain ⟨⟨n, hn⟩, hnone⟩ := h
    obtain ⟨f, hf⟩ := hn.machine (by simp [hstart.1])
    exact ⟨⟨n, pointing_of_line hf rfl (by simp) (by simp [Sm.describes]) ⟨rfl, rfl⟩⟩, hnone⟩
  · exact h

theorem Going.prepare (h : Going p) (hq : m.prepare p = some q) : Going q := by
  rcases prepare_cases hq with ⟨-, format, -, rfl⟩ | ⟨-, bs, b, rfl⟩
  · exact (h.anonymousTransit format).congr rfl rfl rfl rfl rfl rfl
  · exact h.congr rfl rfl rfl rfl rfl rfl

theorem Going.step (h : Going p) (hset : p.Settled) (hq : l.step p = some q) : Going q := by
  rcases l with _ | c | m | _ | _ | _
  case white =>
    rw [step_white hset] at hq
    obtain rfl := Option.some.inj hq
    split_ifs
    · exact h.congr rfl rfl rfl rfl rfl rfl
    · exact h
  case word =>
    obtain ⟨-, -, -, rfl⟩ := step_word.1 hq
    exact h.congr rfl rfl rfl rfl rfl rfl
  case mark =>
    rw [step_mark] at hq
    obtain ⟨p₁, hp₁, hq⟩ := Option.bind_eq_some_iff.1 hq
    exact (h.prepare hp₁).look hq
  case blockEnd =>
    rw [step_blockEnd hset] at hq
    exact h.leave hq
  case comment => exact Option.some.inj hq ▸ h
  case bad => cases hq

theorem fresh_going : Going {} := ⟨⟨{}, fresh_pointing⟩, fun _ => rfl⟩

theorem run_going : ∀ {ls : List Lexeme} {p q : Parser}, p.Settled → Going p →
    ls.foldlM Lexeme.step p = some q → Going q
  | [], _, _, _, h, hq => Option.some.inj hq ▸ h
  | l :: ls, p, q, hset, h, hq => by
    rw [List.foldlM_cons] at hq
    obtain ⟨p₁, hl, hq⟩ := Option.bind_eq_some_iff.1 hq
    exact run_going (settled_of_step hset hl) (h.step hset hl) hq

end Going

section Runs

variable {first p q : Parser} {m : Mark} {l : Lexeme}

theorem anonymousTransit_behind (format : String) :
    (anonymousTransit (first.behind p) format).nameless =
      (first.behind (anonymousTransit p format)).nameless := by
  unfold anonymousTransit
  split_ifs <;> simp [Parser.nameless, Nat.add_assoc, TransitPtr.loosely, transitNew]

theorem prepare_behind : (m.prepare (first.behind p)).map Parser.nameless =
    (m.prepare p).map fun q => (first.behind q).nameless := by
  have harrow : ∀ format : String,
      (if (anonymousTransit (first.behind p) format).sm = .transitionFrom then
        some { anonymousTransit (first.behind p) format with hasToken := true } else none).map
          Parser.nameless =
        (if (anonymousTransit p format).sm = .transitionFrom then
          some { anonymousTransit p format with hasToken := true } else none).map
            fun q => (first.behind q).nameless := by
    intro format
    have h := @anonymousTransit_behind first p format
    have hsm : (anonymousTransit (first.behind p) format).sm = (anonymousTransit p format).sm := by
      show (anonymousTransit (first.behind p) format).nameless.sm = _
      rw [h]
      rfl
    rw [hsm]
    split_ifs
    · exact congrArg (fun q : Parser => some { q with hasToken := true }) h
    · rfl
  unfold Mark.prepare
  rcases m
  case greater => exact harrow _
  case arrow => exact harrow _
  all_goals
    simp only [blockEnter]
    split_ifs <;> rfl

theorem step_behind (hset : p.Settled) (hp : Going p) :
    (l.step (first.behind p)).map Parser.nameless =
      (l.step p).map fun q => (first.behind q).nameless := by
  have hset' : (first.behind p).Settled := ⟨hset.hasToken, hset.leaveBlock⟩
  rcases l with _ | c | m | _ | _ | _
  case white =>
    rw [step_white hset', step_white hset]
    split_ifs <;> rfl
  case word =>
    simp only [Lexeme.step, wordChar]
    split_ifs <;> rfl
  case mark =>
    rw [step_mark_nameless, prepare_behind, step_mark, Option.bind_map]
    rcases hq : m.prepare p with _ | q
    · rfl
    · show (first.behind q).nameless.look m.char = (q.look m.char).map _
      rw [look_nameless, look_behind (hp.prepare hq), Option.map_map]
      rfl
  case blockEnd =>
    rw [step_blockEnd hset', step_blockEnd hset, leave_behind, Option.map_map]
    rfl
  case comment => rfl
  case bad => rfl

/-- A run goes on behind other machines as it goes alone. -/
theorem run_behind : ∀ {ls : List Lexeme} {p : Parser}, p.Settled → Going p →
    (ls.foldlM Lexeme.step (first.behind p)).map Parser.nameless =
      (ls.foldlM Lexeme.step p).map fun q => (first.behind q).nameless
  | [], _, _, _ => rfl
  | l :: ls, p, hset, hp => by
    have hstep := @step_behind first p l hset hp
    rw [List.foldlM_cons, List.foldlM_cons]
    rcases hq : l.step p with _ | q <;> rcases hq' : l.step (first.behind p) with _ | q' <;>
      rw [hq, hq'] at hstep
    · rfl
    · simp at hstep
    · simp at hstep
    · have hset' := settled_of_step hset hq
      have hrefl : List.Forall₂ Shortens ls ls := List.forall₂_same.2 fun _ _ => .inl rfl
      have hsame := foldlM_shortens hrefl (p := first.behind q) (q := q')
        ⟨hset'.hasToken, hset'.leaveBlock⟩ (Option.some.inj hstep)
      exact hsame.trans (run_behind hset' (hp.step hset hq))

end Runs

section Files

variable {a b : List Char} {r : Cursor} {p q : Parser} {w : List Char} {l : Lexeme}

/-- A blank is noticed behind a token only. -/
theorem step_stopWord (hset : p.Settled) (h : p.stopWord = true → p.buf ≠ [])
    (hq : l.step p = some q) : q.stopWord = true → q.buf ≠ [] := by
  rcases l with _ | c | m | _ | _ | _
  case white =>
    rw [step_white hset] at hq
    obtain rfl := Option.some.inj hq
    split_ifs with hb
    · exact fun _ => hb
    · exact h
  case word =>
    obtain ⟨-, -, -, rfl⟩ := step_word.1 hq
    simp
  case mark =>
    rw [mark_stopWord hq]
    exact fun hfalse => by cases hfalse
  case blockEnd =>
    rw [step_blockEnd hset] at hq
    obtain ⟨b, -, rfl⟩ := Option.map_eq_some_iff.1 hq
    exact h
  case comment => exact Option.some.inj hq ▸ h
  case bad => cases hq

theorem run_stopWord : ∀ {ls : List Lexeme} {p q : Parser}, p.Settled →
    (p.stopWord = true → p.buf ≠ []) → ls.foldlM Lexeme.step p = some q →
      q.Settled ∧ (q.stopWord = true → q.buf ≠ [])
  | [], _, _, hset, h, hq => Option.some.inj hq ▸ ⟨hset, h⟩
  | l :: ls, p, q, hset, h, hq => by
    rw [List.foldlM_cons] at hq
    obtain ⟨p₁, hl, hq⟩ := Option.bind_eq_some_iff.1 hq
    exact run_stopWord (settled_of_step hset hl) (step_stopWord hset h hl) hq

/-- What is left at the end of a whole file. -/
theorem Whole.rests (h : Whole a) (hp : parseRun a = .ok (r, p)) :
    p.Ready ∧ p.sm = .none ∧ p.blocks = [] := by
  have hout := (outline_eq hp).1
  rw [h.closed] at hout
  obtain ⟨hzone, hblocks, hbuf⟩ := Outline.mk.inj hout
  obtain ⟨hset, hstop⟩ := run_stopWord fresh_settled (by simp) (foldlM_of_parseRun hp)
  refine ⟨⟨hset, hbuf, ?_⟩, zone_file.1 hzone, hblocks⟩
  by_contra hne
  exact hstop (by simpa using hne) hbuf

/-- A file with one line without a name. -/
def oneLine : List Char := "m\x7btransitions\x7bmodel\x7ba>b;\x7d\x7d\x7d".toList

theorem oneLine_parses : Parses oneLine := exists_parseRun (by decide_cbv)

/-- A word that opens a block and leaves `t` alone. -/
theorem read_opens (w : List Char) (sm : Sm) (hp : p.Ready) (hblock : smBlockIs p.sm = true) (hw : Identifier w)
    (ht : ∃ q, token (p.shown w (false :: p.blocks) false) '\x7b' = .ok q ∧ q.sm = sm ∧
      q.t = p.t) :
    ∃ q : Parser, (∀ cs, p.read (w ++ '\x7b' :: cs) = q.read cs) ∧ q.Ready ∧ q.sm = sm ∧
      q.t = p.t := by
  obtain ⟨q, ht, hsm, hkeep⟩ := ht
  have hprep : Mark.blockStart.prepare { p with buf := w } = some
      { p with buf := w, blocks := false :: p.blocks, hasToken := true, leaveBlock := false } := by
    simp [Mark.prepare, blockEnter, hblock, hp.leaveBlock]
  have hstep : (Item.token w .blockStart).step p = some q.clear := step_shown hw hprep ht
  refine ⟨q.clear, fun cs => ?_, ready_of_step hp hstep, hsm, hkeep⟩
  have hread := @read_token p cs [] w .blockStart hp hw (by simp [Blanks])
  simp only [Item.step, if_pos hw] at hstep
  rw [hstep] at hread
  exact hread

/-- While `t` is set, a line without a name is refused. -/
theorem oneLine_refused (hp : p.Ready) (hsm : p.sm = .none) (ht : p.t ≠ none) :
    p.read oneLine = none := by
  obtain ⟨p₁, hread₁, hp₁, hsm₁, ht₁⟩ := read_opens ['m'] .fsm hp (by rw [hsm]; rfl)
    (by decide) ⟨{ p.shown ['m'] (false :: p.blocks) false with
      parse := p.parse ++ p.f.toList, f := some (fsmNew ['m']), sm := .fsm }, by
        simp [token, Parser.shown, hsm], rfl, rfl⟩
  obtain ⟨p₂, hread₂, hp₂, hsm₂, ht₂⟩ := read_opens "transitions".toList .transitions
    hp₁ (by rw [hsm₁]; rfl) (by decide)
    ⟨{ p₁.shown "transitions".toList (false :: p₁.blocks) false with sm := .transitions }, by
      simp [token, Parser.shown, hsm₁], rfl, rfl⟩
  obtain ⟨p₃, hread₃, hp₃, hsm₃, ht₃⟩ := read_opens "model".toList .transitionStart
    hp₂ (by rw [hsm₂]; rfl) (by decide)
    ⟨{ p₂.shown "model".toList (false :: p₂.blocks) false with sm := .transitionStart }, by
      simp [token, Parser.shown, hsm₂], rfl, rfl⟩
  have hset : p₃.t ≠ none := by rwa [ht₃, ht₂, ht₁]
  have hline : (Lexeme.mark .greater).step { p₃ with buf := ['a'] } = none := by
    simp [step_mark, Mark.prepare, anonymousTransit, hsm₃, hset]
  have hsplit : oneLine = ['m'] ++ '\x7b' :: ("transitions".toList ++ '\x7b' :: ("model".toList ++
      '\x7b' :: (['a'] ++ ([] ++ (Mark.greater.text ++ "b;\x7d\x7d\x7d".toList))))) := by
    decide_cbv
  rw [hsplit, hread₁, hread₂, hread₃, read_token hp₃ (by decide) (by simp [Blanks]), hline]
  rfl

/-- The second file is read from where the first one ends. -/
theorem Whole.run_append (h : Whole a) (hp : parseRun a = .ok (r, p)) :
    (reading (a ++ b)).lexemes.foldlM Lexeme.step {} = p.read b := by
  have hrun := foldlM_of_parseRun hp
  rw [reading, lex_append .none a b (no_bad hrun) h.comments h.read]
  show ((reading a).lexemes ++ _).foldlM Lexeme.step {} = _
  rw [List.foldlM_append, hrun]
  rfl

/-- Behind a file that ends with `t` unset the parser is as fresh. -/
theorem Whole.eq_behind (h : Whole a) (hp : parseRun a = .ok (r, p)) (ht : p.t = none) :
    p = p.behind {} := by
  obtain ⟨⟨⟨htoken, hleave⟩, hbuf, hstop⟩, hsm, hblocks⟩ := h.rests hp
  obtain ⟨parse, anonymous, blocks, sm, stopWord, hasToken, buf, f, t, s, cb, leaveBlock, handed⟩ := p
  simp only at htoken hleave hbuf hstop hsm hblocks ht
  subst htoken hleave hbuf hstop hsm hblocks ht
  simp [Parser.behind]

theorem Whole.joins (h : Whole a) (hp : parseRun a = .ok (r, p)) (ht : p.t = none) (b : List Char) :
    Joins a b := by
  have happend : ((reading (a ++ b)).lexemes.foldlM Lexeme.step {}).map Parser.nameless =
      ((reading b).lexemes.foldlM Lexeme.step {}).map fun q => (p.behind q).nameless := by
    have hread : p.read b = (p.behind {}).read b := congrArg (·.read b) (h.eq_behind hp ht)
    rw [h.run_append hp, hread]
    exact run_behind fresh_settled fresh_going
  rw [Joins, parses_iff, parses_iff, parserParse_eq, parserParse_eq, parserParse_eq,
    foldlM_of_parseRun hp]
  rcases hb : (reading b).lexemes.foldlM Lexeme.step {} with _ | q <;>
    rcases hab : (reading (a ++ b)).lexemes.foldlM Lexeme.step {} with _ | q' <;>
    rw [hb, hab] at happend
  · simp
  · simp at happend
  · simp at happend
  · refine ⟨by simp, fun _ => ?_⟩
    have hnameless : q'.nameless = (p.behind q).nameless := Option.some.inj happend
    have hfsms : q'.fsms = (p.behind q).fsms := by
      show q'.nameless.fsms = (p.behind q).nameless.fsms
      rw [hnameless]
    exact hfsms.trans (fsms_behind (run_going fresh_settled fresh_going hb))

theorem Whole.oneLine_refused_behind (h : Whole a) (hp : parseRun a = .ok (r, p)) (ht : p.t ≠ none) :
    ¬ Parses (a ++ oneLine) := by
  rintro ⟨r', q, hq⟩
  obtain ⟨hready, hsm, -⟩ := h.rests hp
  have hread := foldlM_of_parseRun hq
  rw [h.run_append hp, oneLine_refused hready hsm ht] at hread
  cases hread

/-- A whole file can be followed by any other one, to be parsed as it is alone, exactly when it ends
with `t` unset: when no description of a transition comes behind its last line. Otherwise a line
without a name is refused behind it. -/
theorem joins_iff (h : Whole a) (hp : parseRun a = .ok (r, p)) :
    ((∀ b, Joins a b) ↔ p.t = none) ∧
      (p.t ≠ none → Parses oneLine ∧ ¬ Parses (a ++ oneLine)) := by
  have hrefused := h.oneLine_refused_behind hp
  refine ⟨⟨fun hall => ?_, h.joins hp⟩, fun ht => ⟨oneLine_parses, hrefused ht⟩⟩
  by_contra ht
  exact hrefused ht ((hall oneLine).1.2 oneLine_parses)

/-- A file that ends with a description. -/
def describedLast : List Char :=
  "m\x7btransitions\x7bmodel\x7bt:a>b;\x7dt\x7bcb\x7bfunc:g;\x7d\x7d\x7d\x7d".toList

theorem oneLine_whole : Whole oneLine := by
  refine ⟨oneLine_parses, ?_, ?_, ?_⟩ <;> decide +kernel

theorem describedLast_whole : Whole describedLast := by
  refine ⟨exists_parseRun (by decide_cbv), ?_, ?_, ?_⟩ <;> decide +kernel

/-- Anything can follow the line, but the line cannot follow the description. -/
theorem oneLine_joins : (∀ b, Joins oneLine b) ∧ (¬ ∀ b, Joins describedLast b) ∧
    Parses oneLine ∧ ¬ Parses (describedLast ++ oneLine) := by
  obtain ⟨r, p, hp⟩ := oneLine_whole.parses
  obtain ⟨r', p', hp'⟩ := describedLast_whole.parses
  have ht : (parseRun oneLine).toOption.map (fun q => q.2.t) = some none := by decide_cbv
  have ht' : (parseRun describedLast).toOption.map (fun q => q.2.t.isSome) = some true := by
    decide_cbv
  rw [hp] at ht
  rw [hp'] at ht'
  have hset : p'.t ≠ none := Option.isSome_iff_ne_none.1 (Option.some.inj ht')
  obtain ⟨hall, hrefused⟩ := joins_iff describedLast_whole hp'
  exact ⟨(joins_iff oneLine_whole hp).1.2 (Option.some.inj ht), mt hall.1 hset, hrefused hset⟩

end Files

end Estate.Cc
