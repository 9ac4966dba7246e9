import Estate.Cc.Rewriting
import Estate.Proofs.Machines

/-!
# A short arrow for a long one

The two texts are read as the same lexemes but for their arrows (`lex_shortArrows`). Both arrows
hand the token over in the same way, and where they begin a line without a name they name its
transition differently. Such a transition is in no hash, and no step looks at its name: two runs
stay the same but for it (`foldlM_shortens`).
-/

namespace Estate.Cc

/-- One lexeme, or the short arrow for the long one. -/
def Shortens (l l' : Lexeme) : Prop := l' = l ∨ l = .mark .arrow ∧ l' = .mark .greater

section Lex

variable {pick : ℕ → Bool} {dashed : Bool} {i : ℕ} {cs ds : List Char} {d : Char}

/-- A short arrow is the only character that the text may begin with for another one, and behind
a `-` there is none. -/
theorem head_shortArrows (h : shortArrows pick .none dashed i cs = d :: ds) :
    (∃ es, cs = d :: es) ∨ d = '>' ∧ dashed = false := by
  have hkeep : ∀ {c : Char} {es fs : List Char}, c :: es = d :: ds →
      ∃ gs, c :: fs = d :: gs := by
    rintro c es fs h
    obtain ⟨rfl, -⟩ := List.cons.inj h
    exact ⟨fs, rfl⟩
  rcases cs with _ | ⟨c, cs⟩
  · simp [shortArrows] at h
  · rw [shortArrows.eq_def] at h
    simp only at h
    split_ifs at h with heof hs hd hpick
    · exact .inl (hkeep h)
    · split at h <;> exact .inl (hkeep h)
    · split at h
      · exact .inr ⟨(List.cons.inj h).1.symm, hpick.2⟩
      · exact .inl (hkeep h)
    · split at h <;> exact .inl (hkeep h)
    · exact .inl (hkeep h)

/-- The lexemes of the two texts differ in their arrows only. -/
theorem lex_shortArrows (pick : ℕ → Bool) (comments : Comments) (dashed : Bool) (i : ℕ)
    (cs : List Char) : List.Forall₂ Shortens (lex isEof comments cs).lexemes
      (lex isEof comments (shortArrows pick comments dashed i cs)).lexemes := by
  have hcons : ∀ {l : Lexeme} {r r' : Reading}, List.Forall₂ Shortens r.lexemes r'.lexemes →
      List.Forall₂ Shortens (r.cons l).lexemes (r'.cons l).lexemes := fun h => .cons (.inl rfl) h
  fun_induction shortArrows pick comments dashed i cs
  case case1 => simp
  case case2 heof => rw [lex_stop heof, lex_stop heof]; exact .nil
  case case3 ih => rw [lex_singleLine rfl, lex_singleLine rfl]; exact hcons ih
  case case4 ih => rw [lex_multipleLines rfl, lex_multipleLines rfl]; exact hcons ih
  case case5 i cs hs hm _ ih =>
    have hsame : ∀ d, d ≠ '>' → (∀ ds, cs = d :: ds → False) →
        ∀ ds, shortArrows pick .none false (i + 1) cs ≠ d :: ds := by
      intro d hd hno ds h
      rcases head_shortArrows h with ⟨es, he⟩ | ⟨he, -⟩
      · exact hno es he
      · exact hd he
    rw [lex_slash rfl hs hm, lex_slash rfl (hsame '/' (by decide) hs) (hsame '*' (by decide) hm)]
    exact hcons ih
  case case6 hpick _ _ ih =>
    rw [lex_arrow rfl, lex_char rfl (by decide) (by decide)]
    exact .cons (.inr ⟨rfl, by decide⟩) ih
  case case7 ih => rw [lex_arrow rfl, lex_arrow rfl]; exact hcons ih
  case case8 i cs hno _ _ ih =>
    have hsame : ∀ ds, shortArrows pick .none true (i + 1) cs ≠ '>' :: ds := by
      intro ds h
      rcases head_shortArrows h with ⟨es, he⟩ | ⟨-, he⟩
      · exact hno es he
      · cases he
    rw [lex_dash rfl hno, lex_dash rfl hsame]
    exact hcons ih
  case case9 heof hs hd ih =>
    rw [Bool.not_eq_true] at heof
    rw [lex_char heof hs hd, lex_char heof hs hd]
    exact hcons ih
  case case10 heof => rw [lex_stop heof, lex_stop heof]; exact .nil
  case case11 ih => rw [lex_lineEnd rfl, lex_lineEnd rfl]; exact hcons ih
  case case12 heof hn ih =>
    rw [Bool.not_eq_true] at heof
    rw [lex_inLine heof hn, lex_inLine heof hn]
    exact ih
  case case13 heof => rw [lex_stop heof, lex_stop heof]; exact .nil
  case case14 => rw [lex_star_nil rfl]; exact .nil
  case case15 ih => rw [lex_close rfl, lex_close rfl]; exact ih
  case case16 hd _ ih => rw [lex_star rfl hd, lex_star rfl hd]; exact ih
  case case17 heof hs ih =>
    rw [Bool.not_eq_true] at heof
    rw [lex_inLines heof hs, lex_inLines heof hs]
    exact ih

end Lex

/-- The parser, where the transition that is in no hash has lost its name. -/
def Parser.nameless (p : Parser) : Parser := p.withLoose fun t => { t with name := [] }

theorem aside_nameless : Aside fun t => { t with name := [] } :=
  ⟨fun _ => rfl, fun _ _ => rfl, fun _ _ => rfl, fun _ _ => rfl⟩

section Nameless

variable {p q : Parser} {m : Mark} {c : Char} {l l' : Lexeme} {ls ls' : List Lexeme}

theorem nameless_nameless : p.nameless.nameless = p.nameless := by
  unfold Parser.nameless Parser.withLoose
  rcases p.t with _ | ⟨name⟩ | ⟨t⟩ <;> rfl

theorem hand_nameless : p.nameless.hand = p.hand.nameless := by
  by_cases hb : p.buf = [] <;> simp [Parser.hand, Parser.nameless, hb]

theorem leave_nameless : p.nameless.leave = p.leave.map Parser.nameless := by
  unfold Parser.leave
  rw [Option.map_map]
  rfl

theorem look_nameless : p.nameless.look c = (p.look c).map Parser.nameless := by
  have htok : token p.hand.nameless c = (token p.hand c).map Parser.nameless :=
    token_withLoose aside_nameless
  unfold Parser.look
  rw [hand_nameless, htok]
  rcases token p.hand c with e | q
  · rfl
  · show (if q.leaveBlock then q.clear.nameless.leave else some q.clear.nameless) =
      (if q.leaveBlock then q.clear.leave else some q.clear).map Parser.nameless
    split_ifs
    · exact leave_nameless
    · rfl

/-- The name of a line without one depends on its arrow and on the lines before. -/
theorem anonymousTransit_nameless (format format' : String) :
    (anonymousTransit p.nameless format).nameless = (anonymousTransit p format').nameless := by
  have ht : p.nameless.t = none ↔ p.t = none := by simp [Parser.nameless]
  have hsm : p.nameless.sm = p.sm := rfl
  by_cases h : p.sm = .transitionStart ∧ p.t = none
  · have h' : p.nameless.sm = .transitionStart ∧ p.nameless.t = none := ⟨h.1, ht.2 h.2⟩
    rw [anonymousTransit, anonymousTransit, if_pos h, if_pos h']
    rfl
  · have h' : ¬ (p.nameless.sm = .transitionStart ∧ p.nameless.t = none) := by rwa [hsm, ht]
    rw [anonymousTransit, anonymousTransit, if_neg h, if_neg h', nameless_nameless]

theorem arrow_nameless (format format' : String) :
    (if (anonymousTransit p.nameless format).sm = .transitionFrom then
      some { anonymousTransit p.nameless format with hasToken := true } else none).map
        Parser.nameless =
      (if (anonymousTransit p format').sm = .transitionFrom then
        some { anonymousTransit p format' with hasToken := true } else none).map
          Parser.nameless := by
  have h := anonymousTransit_nameless (p := p) format format'
  have hsm : (anonymousTransit p.nameless format).sm = (anonymousTransit p format').sm := by
    show (anonymousTransit p.nameless format).nameless.sm = (anonymousTransit p format').nameless.sm
    rw [h]
  rw [hsm]
  split_ifs
  · exact congrArg (fun q : Parser => some { q with hasToken := true }) h
  · rfl

/-- What a mark prepares does not depend on the name, and is the same for both arrows. -/
theorem prepare_nameless {m' : Mark} (hm : m' = m ∨ m = .arrow ∧ m' = .greater) :
    (m'.prepare p.nameless).map Parser.nameless = (m.prepare p).map Parser.nameless := by
  have hsm : p.nameless.sm = p.sm := rfl
  have hset : ∀ bs b, ({ p.nameless with blocks := bs, hasToken := true, leaveBlock := b } :
      Parser).nameless = ({ p with blocks := bs, hasToken := true, leaveBlock := b } :
        Parser).nameless :=
    fun bs b => @nameless_nameless { p with blocks := bs, hasToken := true, leaveBlock := b }
  have htoken : ({ p.nameless with hasToken := true } : Parser).nameless =
      ({ p with hasToken := true } : Parser).nameless := hset p.blocks p.leaveBlock
  have henter : ∀ abbr, (blockEnter p.nameless abbr).map Parser.nameless =
      (blockEnter p abbr).map Parser.nameless := by
    intro abbr
    unfold blockEnter
    rw [hsm]
    split_ifs
    · exact congrArg some (hset (abbr :: p.blocks) p.leaveBlock)
    · rfl
  rcases hm with rfl | ⟨rfl, rfl⟩
  · rcases m'
    case dot => exact henter true
    case blockStart => exact henter false
    case arobase =>
      simp only [Mark.prepare, hsm]
      split_ifs
      · exact congrArg some htoken
      · rfl
    case colon =>
      simp only [Mark.prepare, hsm]
      split_ifs
      · exact henter false
      · exact congrArg some htoken
      · rfl
    case semicolon =>
      simp only [Mark.prepare, hsm]
      split_ifs
      · exact congrArg some (hset p.blocks true)
      · exact congrArg some htoken
      · rfl
    case greater => exact arrow_nameless _ _
    case arrow => exact arrow_nameless _ _
  · exact arrow_nameless _ _

/-! ## The two runs -/

theorem step_mark_nameless : ((Lexeme.mark m).step p).map Parser.nameless =
    ((m.prepare p).map Parser.nameless).bind (·.look m.char) := by
  rw [step_mark]
  rcases m.prepare p with _ | q
  · rfl
  · exact look_nameless.symm

/-- A step from parsers that are the same but for a name. -/
theorem step_nameless (hl : Shortens l l') (hp : p.Settled) :
    (l'.step p.nameless).map Parser.nameless = (l.step p).map Parser.nameless := by
  have hsettled : p.nameless.Settled := ⟨hp.hasToken, hp.leaveBlock⟩
  rcases hl with rfl | ⟨rfl, rfl⟩
  · rcases l' with _ | c | m | _ | _ | _
    case white =>
      have hbuf : p.nameless.buf = p.buf := rfl
      rw [step_white hsettled, step_white hp, hbuf]
      split_ifs
      · exact congrArg some (@nameless_nameless { p with stopWord := true })
      · exact congrArg some nameless_nameless
    case word =>
      have hbuf : p.nameless.buf = p.buf := rfl
      have hstop : p.nameless.stopWord = p.stopWord := rfl
      simp only [Lexeme.step, wordChar, hbuf, hstop]
      split_ifs
      · rfl
      · rfl
      · rfl
      · exact congrArg some (@nameless_nameless { p with buf := p.buf ++ [c] })
    case mark => rw [step_mark_nameless, step_mark_nameless, prepare_nameless (.inl rfl)]
    case blockEnd =>
      have htwice : Parser.nameless ∘ Parser.nameless = Parser.nameless :=
        funext fun _ => nameless_nameless
      rw [step_blockEnd hsettled, step_blockEnd hp, leave_nameless, Option.map_map, htwice]
    case comment => exact congrArg some nameless_nameless
    case bad => rfl
  · rw [step_mark_nameless, step_mark_nameless, prepare_nameless (.inr ⟨rfl, rfl⟩)]
    rfl

/-- What the runs over both texts lead to. -/
theorem foldlM_shortens (hls : List.Forall₂ Shortens ls ls') : ∀ {p q : Parser}, p.Settled →
    q.nameless = p.nameless → (ls'.foldlM Lexeme.step q).map Parser.nameless =
      (ls.foldlM Lexeme.step p).map Parser.nameless := by
  induction hls with
  | nil =>
    intro p q _ h
    exact congrArg some h
  | @cons l l' ls ls' hl hls ih =>
    intro p q hp h
    have hsettled : q.nameless.Settled := by
      rw [h]
      exact ⟨hp.hasToken, hp.leaveBlock⟩
    have hq : q.Settled := ⟨hsettled.hasToken, hsettled.leaveBlock⟩
    have hstep : (l'.step q).map Parser.nameless = (l.step p).map Parser.nameless := by
      rw [← step_nameless (.inl rfl) hq, h]
      exact step_nameless hl hp
    rw [List.foldlM_cons, List.foldlM_cons]
    rcases hp₁ : l.step p with _ | p₁ <;> rcases hq₁ : l'.step q with _ | q₁ <;>
      rw [hp₁, hq₁] at hstep
    · rfl
    · simp at hstep
    · simp at hstep
    · exact ih (settled_of_step hp hp₁) (Option.some.inj hstep)

end Nameless

/-! ## The whole file -/

theorem shorten_run (pick : ℕ → Bool) (src : List Char) :
    ((reading (shorten pick src)).lexemes.foldlM Lexeme.step {}).map Parser.fsms =
      ((reading src).lexemes.foldlM Lexeme.step {}).map Parser.fsms := by
  have h := foldlM_shortens (lex_shortArrows pick .none false 0 src) fresh_settled rfl
  have hfsms : ∀ o : Option Parser, o.map Parser.fsms = (o.map Parser.nameless).map Parser.fsms := by
    intro o
    rw [Option.map_map]
    rfl
  rw [hfsms, hfsms (List.foldlM _ _ (reading src).lexemes)]
  exact congrArg _ h

theorem exists_parseRun_iff {src : List Char} : (∃ r p, parseRun src = .ok (r, p)) ↔
    ((reading src).lexemes.foldlM Lexeme.step {}).isSome = true := by
  rw [Option.isSome_iff_exists]
  constructor
  · rintro ⟨r, p, h⟩
    exact ⟨p, foldlM_of_parseRun h⟩
  · rintro ⟨p, h⟩
    obtain ⟨r, hr⟩ := parseRun_of_foldlM h
    exact ⟨r, p, hr⟩

/-- Whichever of the long arrows outside comments that no `-` stands before are made short, the
parser accepts the text as it did the other, and returns the same machines. -/
theorem parserParse_shorten (pick : ℕ → Bool) (src : List Char) :
    ((∃ r p, parseRun (shorten pick src) = .ok (r, p)) ↔ ∃ r p, parseRun src = .ok (r, p)) ∧
      parserParse (shorten pick src) = parserParse src := by
  have h := shorten_run pick src
  constructor
  · rw [exists_parseRun_iff, exists_parseRun_iff, ← Option.isSome_map (f := Parser.fsms), h,
      Option.isSome_map]
  · rw [parserParse_eq, parserParse_eq, h]

end Estate.Cc
