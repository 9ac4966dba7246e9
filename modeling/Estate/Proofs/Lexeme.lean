import Estate.Cc.Lexeme

/-!
# The loop of the parser is a run over lexemes

A round leaves nothing to be done by the next one (`Settled`), so a comment changes nothing and
every other round is the step of a lexeme. The loop reads at least one character in each round.
-/

namespace Estate.Cc

/-- Between two rounds no token and no end of block is waiting. -/
structure Parser.Settled (p : Parser) : Prop where
  hasToken : p.hasToken = false
  leaveBlock : p.leaveBlock = false

section Rounds

variable {p q : Parser} {c : Char}

theorem settle_of_settled (hp : p.Settled) : settle p c = .ok p := by
  simp [settle, hp.hasToken, hp.leaveBlock]

theorem settled_of_settle (h : settle p c = .ok q) : q.Settled := by
  unfold settle at h
  simp only at h
  split at h
  · simp at h
  · rename_i p₁ _
    split_ifs at h with ht hl hl
    · split at h
      · simp at h
      · simp only [Except.ok.injEq] at h
        subst h
        exact ⟨rfl, rfl⟩
    · simp only [Except.ok.injEq] at h
      subst h
      exact ⟨rfl, by simpa using hl⟩
    · split at h
      · simp at h
      · simp only [Except.ok.injEq] at h
        subst h
        exact ⟨by simpa using ht, rfl⟩
    · simp only [Except.ok.injEq] at h
      subst h
      exact ⟨by simpa using ht, by simpa using hl⟩

theorem settled_of_wordChar (hp : p.Settled) (h : wordChar p c = .ok q) :
    q.Settled := by
  unfold wordChar at h
  split_ifs at h
  rw [← Except.ok.inj h]
  exact ⟨hp.hasToken, hp.leaveBlock⟩

theorem settled_of_step {l : Lexeme} (hp : p.Settled) (h : l.step p = some q) : q.Settled := by
  have hround : ∀ c ptr, Lexeme.step.round p c ptr = some q → q.Settled := by
    intro c ptr h
    unfold Lexeme.step.round at h
    rcases hs : (special { ptr := ptr } p c).2 with e | ⟨c', p'⟩
    · simp [hs, Except.bind, Except.toOption] at h
    · rcases hq : settle p' c' with e | q'
      · simp [hs, Except.bind, hq, Except.toOption] at h
      · simp only [hs, Except.bind, hq, Except.toOption, Option.some.injEq] at h
        exact h ▸ settled_of_settle hq
  rcases l with _ | c | _ | _ | _ | _
  case comment => exact Option.some.inj h ▸ hp
  case bad => simp [Lexeme.step] at h
  case word =>
    simp only [Lexeme.step] at h
    split_ifs at h
    rcases hw : wordChar p c with e | q'
    · simp [hw, Except.toOption] at h
    · simp only [hw, Except.toOption, Option.some.injEq] at h
      exact h ▸ settled_of_wordChar hp hw
  case mark m => rcases m <;> exact hround _ _ h
  all_goals exact hround _ _ h

end Rounds

section Special

variable {p : Parser} {r : Cursor} {c d : Char}

/-- The character of the cases that are one character. -/
def CharCase.char : CharCase → Option Char
  | .slash => some '/'
  | .dot => some '.'
  | .blockStart => some '\x7b'
  | .arobase => some '@'
  | .colon => some ':'
  | .semicolon => some ';'
  | .dash => some '-'
  | .greater => some '>'
  | .blockEnd => some '\x7d'
  | .white | .digit | .letter | .other => none

theorem eq_of_ite_char {a : Char} {x y : CharCase}
    (h : (if c = a then x else y).char = some d) (hx : x.char = some a)
    (hy : y.char = some d → c = d) : c = d := by
  by_cases hc : c = a
  · rw [if_pos hc, hx] at h
    exact hc.trans (Option.some.inj h)
  · rw [if_neg hc] at h
    exact hy h

theorem eq_of_charCase (h : (charCase c).char = some d) : c = d := by
  refine eq_of_ite_char h rfl fun h => eq_of_ite_char h rfl fun h => eq_of_ite_char h rfl fun h =>
    eq_of_ite_char h rfl fun h => eq_of_ite_char h rfl fun h => eq_of_ite_char h rfl fun h =>
    eq_of_ite_char h rfl fun h => eq_of_ite_char h rfl fun h => eq_of_ite_char h rfl fun h => ?_
  rw [apply_ite CharCase.char, apply_ite CharCase.char, apply_ite CharCase.char] at h
  simp only [CharCase.char, ite_self, reduceCtorEq] at h

/-- The rounds that do not look at a second character leave the cursor alone. -/
theorem special_frame (hs : c ≠ '/') (hd : c ≠ '-') :
    special r p c = (r, (special { ptr := [] } p c).2) := by
  unfold special
  rcases hc : charCase c <;> simp only
  case slash => exact absurd (eq_of_charCase (by rw [hc]; rfl)) hs
  case dash => exact absurd (eq_of_charCase (by rw [hc]; rfl)) hd
  case dot => rcases blockEnter p true <;> rfl
  case blockStart => rcases blockEnter p false <;> rfl
  case arobase => split_ifs <;> rfl
  case colon =>
    rcases blockEnter p false <;> split_ifs <;> rfl
  case semicolon => split_ifs <;> rfl
  case greater => split_ifs <;> rfl
  case digit => split_ifs <;> rfl

theorem special_white (hc : charCase c = .white) :
    special r p c = (r, .ok (c, if p.buf ≠ [] then { p with stopWord := true } else p)) := by
  simp only [special, hc]

theorem settled_stopWord (hp : p.Settled) :
    (if p.buf ≠ [] then { p with stopWord := true } else p : Parser).Settled := by
  split_ifs
  · exact ⟨hp.hasToken, hp.leaveBlock⟩
  · exact hp

/-- A round on one character is the step of its lexeme. -/
theorem round_eq (hp : p.Settled) (hs : c ≠ '/') (hd : c ≠ '-') :
    ((special r p c).2.bind fun (c, p) => settle p c).toOption = (charLexeme c).step p := by
  rw [special_frame hs hd]
  have hword : (((wordChar p c).map (c, ·)).bind fun (c, p) => settle p c).toOption =
      (wordChar p c).toOption := by
    rcases hw : wordChar p c with e | q
    · rfl
    · simp only [Except.map, Except.bind, settle_of_settled (settled_of_wordChar hp hw)]
  unfold charLexeme
  rcases hc : charCase c <;> simp only
  case slash => exact absurd (eq_of_charCase (by rw [hc]; rfl)) hs
  case dash => exact absurd (eq_of_charCase (by rw [hc]; rfl)) hd
  case white =>
    have hblank : charCase ' ' = .white := by decide
    simp only [Lexeme.step, Lexeme.step.round, special_white hc, special_white hblank, Except.bind,
      settle_of_settled (settled_stopWord hp)]
  case digit =>
    simp only [special, hc, Lexeme.step, true_and]
    split_ifs
    · rfl
    · exact hword
  case letter =>
    simp only [special, hc, Lexeme.step, reduceCtorEq, false_and, if_false]
    exact hword
  case other => simp [special, hc, Lexeme.step, Except.bind, Except.toOption]
  all_goals
    obtain rfl := eq_of_charCase (c := c) (by rw [hc]; rfl)
    rfl

theorem step_white (hp : p.Settled) :
    Lexeme.white.step p = some (if p.buf ≠ [] then { p with stopWord := true } else p) := by
  have hblank : charCase ' ' = .white := by decide
  simp only [Lexeme.step, Lexeme.step.round, special_white hblank, Except.bind,
    settle_of_settled (settled_stopWord hp), Except.toOption]

end Special

section Loop

variable {p : Parser} {r : Cursor} {c : Char} {cs : List Char}

theorem charNextGet_nil (hr : r.ptr = []) : charNextGet r = (none, r) := by
  simp [charNextGet, hr]

theorem charNextGet_eof (hr : r.ptr = c :: cs) (hc : isEof c = true) :
    charNextGet r = (none, { r with ptr := cs }) := by
  have hc' : c = '\x00' ∨ c = '\xff' := by simpa [isEof] using hc
  simp only [charNextGet, hr, if_pos hc']

theorem charNextGet_char (hr : r.ptr = c :: cs) (hc : isEof c = false) :
    ∃ r', charNextGet r = (some c, r') ∧ r'.ptr = cs ∧
      r'.comments = if c = '\n' ∧ r.comments = .singleLine then .none else r.comments := by
  have hc' : ¬ (c = '\x00' ∨ c = '\xff') := by simpa [isEof] using hc
  by_cases hn : c = '\n'
  · refine ⟨_, by simp only [charNextGet, hr, if_neg hc', if_pos hn]; rfl, rfl, ?_⟩
    simp only [hn, true_and]
  · refine ⟨_, by simp only [charNextGet, hr, if_neg hc', if_neg hn]; rfl, rfl, ?_⟩
    simp only [hn, false_and, if_false]

theorem parseRound_char (hp : p.Settled) (hr : r.comments = .none) (hs : c ≠ '/') (hd : c ≠ '-') :
    (parseRound r p c).toOption = ((charLexeme c).step p).map (r, ·) := by
  unfold parseRound
  rw [← round_eq (r := r) hp hs hd, special_frame hs hd]
  simp only [hr]
  rcases ((special { ptr := [] } p c).2.bind fun (c, p) => settle p c) with e | q <;> rfl

theorem charNextGet_plain (hr : r.ptr = c :: cs) (hc : isEof c = false) (hn : c ≠ '\n') :
    charNextGet r = (some c, { r with ptr := cs, col := r.col + 1 }) := by
  have hc' : ¬ (c = '\x00' ∨ c = '\xff') := by simpa [isEof] using hc
  simp only [charNextGet, hr, if_neg hc', if_neg hn]

theorem parseRound_singleLine {r' : Cursor} (hp : p.Settled) (hr : r.comments = .none)
    (hg : charNextGet r = (some '/', r')) :
    parseRound r p '/' = .ok ({ r' with comments := .singleLine }, p) := by
  have hc : charCase '/' = .slash := by decide
  unfold parseRound
  simp only [hr, special, hc, hg, Except.bind, settle_of_settled hp]

theorem parseRound_multipleLines {r' : Cursor} (hp : p.Settled) (hr : r.comments = .none)
    (hg : charNextGet r = (some '*', r')) :
    parseRound r p '/' = .ok ({ r' with comments := .multipleLines }, p) := by
  have hc : charCase '/' = .slash := by decide
  unfold parseRound
  simp only [hr, special, hc, hg, Except.bind, settle_of_settled hp]

/-- A slash that starts no comment fails. -/
theorem parseRound_slash (hr : r.comments = .none) (hs : (charNextGet r).1 ≠ some '/')
    (hm : (charNextGet r).1 ≠ some '*') : (parseRound r p '/').toOption = none := by
  have hc : charCase '/' = .slash := by decide
  unfold parseRound
  simp only [hr, special, hc]
  rcases hg : charNextGet r with ⟨d, r'⟩
  rw [hg] at hs hm
  split
  · rfl
  · rename_i q hq
    simp [Except.bind] at hq

theorem parseRound_arrow (hr : r.comments = .none) (hptr : r.ptr = '>' :: cs) :
    (parseRound r p '-').toOption =
      ((Lexeme.mark .arrow).step p).map ({ r with ptr := cs, col := r.col + 1 }, ·) := by
  have hc : charCase '-' = .dash := by decide
  have hg : charNextGet { ptr := ['>'] } = (some '>', { ptr := [], col := 2 }) := by decide
  unfold parseRound
  simp only [hr, special, hc, Lexeme.step, Lexeme.step.round, hg,
    charNextGet_plain hptr (by decide) (by decide)]
  by_cases hsm : (anonymousTransit p "TR_").sm ≠ .transitionFrom
  · simp only [if_pos hsm, invalidChar, Except.map, Except.bind, Except.toOption, Option.map_none]
  · simp only [if_neg hsm, Except.bind]
    rcases settle { anonymousTransit p "TR_" with hasToken := true } '>' with e | q <;> rfl

/-- A dash without its point fails. -/
theorem parseRound_dash (hr : r.comments = .none) (hg : (charNextGet r).1 ≠ some '>') :
    (parseRound r p '-').toOption = none := by
  have hc : charCase '-' = .dash := by decide
  unfold parseRound
  simp only [hr, special, hc]
  by_cases hsm : (anonymousTransit p "TR_").sm ≠ .transitionFrom
  · simp only [if_pos hsm, invalidChar, Except.map, Except.bind, Except.toOption]
  · simp only [if_neg hsm]
    rcases hn : charNextGet r with ⟨d, r'⟩
    rw [hn] at hg
    split
    · rfl
    · rename_i q hq
      simp [Except.bind] at hq

/-- What the loop does to a parser, and how its comments stand at the end. -/
def outcome (res : Except ParseError (Cursor × Parser)) : Option (Comments × Parser) :=
  res.toOption.map fun q => (q.1.comments, q.2)

theorem outcome_nil {fuel : ℕ} (hr : r.ptr = []) :
    outcome (parseLoop (fuel + 1) r p) = some (r.comments, p) := by
  rw [parseLoop, charNextGet_nil hr]
  rfl

theorem outcome_eof {fuel : ℕ} (hr : r.ptr = c :: cs) (hc : isEof c = true) :
    outcome (parseLoop (fuel + 1) r p) = some (r.comments, p) := by
  rw [parseLoop, charNextGet_eof hr hc]
  rfl

theorem outcome_char {fuel : ℕ} {r' : Cursor} (hr : charNextGet r = (some c, r')) :
    outcome (parseLoop (fuel + 1) r p) =
      (parseRound r' p c).toOption.bind fun q => outcome (parseLoop fuel q.1 q.2) := by
  rw [parseLoop, hr]
  simp only
  rcases parseRound r' p c with e | ⟨r'', p'⟩ <;> rfl

/-- What a reading does to a parser. -/
def Reading.run (rd : Reading) (p : Parser) : Option (Comments × Parser) :=
  (rd.lexemes.foldlM Lexeme.step p).map (rd.comments, ·)

theorem Reading.run_cons {rd : Reading} {l : Lexeme} :
    (rd.cons l).run p = (l.step p).bind rd.run := by
  unfold Reading.run Reading.cons
  simp only [List.foldlM_cons]
  rcases l.step p <;> rfl

theorem charNextGet_head {d : Char} (h : (charNextGet r).1 = some d) : ∃ ds, r.ptr = d :: ds := by
  rcases hptr : r.ptr with _ | ⟨c, cs⟩
  · simp [charNextGet_nil hptr] at h
  · by_cases hc : isEof c = true
    · simp [charNextGet_eof hptr hc] at h
    · obtain ⟨r', hg, -, -⟩ := charNextGet_char hptr (by simpa using hc)
      rw [hg] at h
      exact ⟨cs, by rw [Option.some.inj h]⟩

end Loop

section Lex

variable {s : Char → Bool} {c : Char} {cs : List Char} {comments : Comments}

theorem lex_stop (hc : s c = true) : lex s comments (c :: cs) = ⟨[], comments, c :: cs⟩ := by
  rcases comments <;> unfold lex <;> rw [if_pos hc]

theorem lex_char (hc : s c = false) (hs : c ≠ '/') (hd : c ≠ '-') :
    lex s .none (c :: cs) = (lex s .none cs).cons (charLexeme c) := by
  rw [lex.eq_def s .none (c :: cs)]
  simp only [hc, Bool.false_eq_true, if_false, if_neg hs, if_neg hd]

theorem lex_singleLine (hc : s '/' = false) :
    lex s .none ('/' :: '/' :: cs) = (lex s .singleLine cs).cons (.comment false) := by
  rw [lex, if_neg (by simp [hc]), if_pos rfl]

theorem lex_multipleLines (hc : s '/' = false) :
    lex s .none ('/' :: '*' :: cs) = (lex s .multipleLines cs).cons (.comment true) := by
  rw [lex, if_neg (by simp [hc]), if_pos rfl]

theorem lex_slash (hc : s '/' = false) (hs : ∀ ds, cs ≠ '/' :: ds) (hm : ∀ ds, cs ≠ '*' :: ds) :
    lex s .none ('/' :: cs) = (lex s .none cs).cons .bad := by
  rw [lex.eq_def s .none ('/' :: cs)]
  simp only [hc, Bool.false_eq_true, if_false, if_true]

theorem lex_arrow (hc : s '-' = false) :
    lex s .none ('-' :: '>' :: cs) = (lex s .none cs).cons (.mark .arrow) := by
  rw [lex, if_neg (by simp [hc]), if_neg (by decide), if_pos rfl]

theorem lex_dash (hc : s '-' = false) (hd : ∀ ds, cs ≠ '>' :: ds) :
    lex s .none ('-' :: cs) = (lex s .none cs).cons .bad := by
  have hslash : ¬ '-' = '/' := by decide
  rw [lex.eq_def s .none ('-' :: cs)]
  simp only [hc, Bool.false_eq_true, if_false, if_true, hslash]

theorem lex_lineEnd (hc : s '\n' = false) :
    lex s .singleLine ('\n' :: cs) = (lex s .none cs).cons .white := by
  rw [lex, if_neg (by simp [hc]), if_pos rfl]

theorem lex_inLine (hc : s c = false) (hn : c ≠ '\n') :
    lex s .singleLine (c :: cs) = lex s .singleLine cs := by
  rw [lex, if_neg (by simp [hc]), if_neg hn]

theorem lex_inLines (hc : s c = false) (hs : c ≠ '*') :
    lex s .multipleLines (c :: cs) = lex s .multipleLines cs := by
  rw [lex.eq_def s .multipleLines (c :: cs)]
  simp only [hc, Bool.false_eq_true, if_false, if_neg hs]

theorem lex_close (hc : s '*' = false) :
    lex s .multipleLines ('*' :: '/' :: cs) = lex s .none cs := by
  rw [lex, if_neg (by simp [hc]), if_pos rfl]

theorem lex_star (hc : s '*' = false) (hs : c ≠ '/') :
    lex s .multipleLines ('*' :: c :: cs) = lex s .multipleLines cs := by
  rw [lex.eq_def s .multipleLines ('*' :: c :: cs)]
  simp only [hc, Bool.false_eq_true, if_false, if_true]

theorem lex_star_nil (hc : s '*' = false) :
    lex s .multipleLines ['*'] = ⟨[], .multipleLines, []⟩ := by
  rw [lex, if_neg (by simp [hc]), if_pos rfl]

end Lex

section Run

variable {p : Parser} {r : Cursor} {c : Char} {cs : List Char}

/-- A round that is one step of the parser, and a reading of the rest. -/
theorem run_cons_of_round {fuel : ℕ} {r' : Cursor} {l : Lexeme} {rd : Reading}
    (hr : charNextGet r = (some c, r'))
    (hround : ∃ r'', (parseRound r' p c).toOption = (l.step p).map (r'', ·) ∧
      ∀ q, l.step p = some q → outcome (parseLoop fuel r'' q) = rd.run q) :
    outcome (parseLoop (fuel + 1) r p) = (rd.cons l).run p := by
  obtain ⟨r'', hround, hrest⟩ := hround
  rw [outcome_char hr, hround, Reading.run_cons]
  rcases hq : l.step p with _ | q
  · rfl
  · exact hrest q hq

/-- Inside a comment every character is passed over, whatever it is. -/
theorem parseRound_star (hr : r.comments = .multipleLines) (hptr : r.ptr = c :: cs)
    (hc : c ≠ '/') : ∃ r', parseRound r p '*' = .ok (r', p) ∧ r'.ptr = cs ∧
      r'.comments = .multipleLines := by
  by_cases he : isEof c = true
  · refine ⟨{ r with ptr := cs }, ?_, rfl, hr⟩
    simp only [parseRound, hr, if_true, charNextGet_eof hptr he]
  · obtain ⟨r', hg, hptr', hcom⟩ := charNextGet_char hptr (by simpa using he)
    refine ⟨r', ?_, hptr', by simpa [hr] using hcom⟩
    simp only [parseRound, hr, if_true, hg]
    split
    · rename_i h
      exact absurd (Option.some.inj (Prod.mk.inj h).1) hc
    · rename_i h
      rw [(Prod.mk.inj h).2]

/-- The loop with fuel enough for its text does what the reading of the text says. -/
theorem parseLoop_eq_run : ∀ {fuel : ℕ} {r : Cursor} {p : Parser}, r.ptr.length < fuel →
    p.Settled → outcome (parseLoop fuel r p) = (lex isEof r.comments r.ptr).run p
  | 0, r, p, h, _ => by omega
  | fuel + 1, r, p, h, hp => by
    rcases hptr : r.ptr with _ | ⟨c, cs⟩
    · rw [outcome_nil hptr, lex_nil]
      rfl
    by_cases hc : isEof c = true
    · rw [outcome_eof hptr hc, lex_stop hc]
      rfl
    rw [Bool.not_eq_true] at hc
    have hlen : cs.length < fuel := by
      rw [hptr] at h
      simpa using h
    obtain ⟨r', hg, hptr', hcom⟩ := charNextGet_char hptr hc
    have hend : charLexeme '\n' = .white := by decide
    have hrest : ∀ {l : Lexeme} {r'' : Cursor}, r''.ptr.length < fuel → ∀ q, l.step p = some q →
        outcome (parseLoop fuel r'' q) = (lex isEof r''.comments r''.ptr).run q :=
      fun hlt q hq => parseLoop_eq_run hlt (settled_of_step hp hq)
    rcases hm : r.comments
    case none =>
      have hcom' : r'.comments = .none := by simpa [hm] using hcom
      by_cases hs : c = '/'
      · subst hs
        by_cases h₁ : ∃ ds, cs = '/' :: ds
        · obtain ⟨ds, rfl⟩ := h₁
          have hround := parseRound_singleLine hp hcom' (charNextGet_plain hptr' rfl (by decide))
          rw [lex_singleLine hc]
          refine run_cons_of_round hg ⟨_, by rw [hround]; rfl, fun q hq => ?_⟩
          exact hrest (by simp at hlen; simp; omega) q hq
        by_cases h₂ : ∃ ds, cs = '*' :: ds
        · obtain ⟨ds, rfl⟩ := h₂
          have hround := parseRound_multipleLines hp hcom' (charNextGet_plain hptr' rfl (by decide))
          rw [lex_multipleLines hc]
          refine run_cons_of_round hg ⟨_, by rw [hround]; rfl, fun q hq => ?_⟩
          exact hrest (by simp at hlen; simp; omega) q hq
        rw [not_exists] at h₁ h₂
        have hhead : ∀ d, (∀ ds, cs ≠ d :: ds) → (charNextGet r').1 ≠ some d := by
          intro d hne h
          obtain ⟨ds, hds⟩ := charNextGet_head h
          exact hne ds (hptr'.symm.trans hds)
        rw [lex_slash hc h₁ h₂]
        refine run_cons_of_round hg ⟨r', ?_, fun q hq => by simp [Lexeme.step] at hq⟩
        exact parseRound_slash hcom' (hhead _ h₁) (hhead _ h₂)
      by_cases hd : c = '-'
      · subst hd
        by_cases h₁ : ∃ ds, cs = '>' :: ds
        · obtain ⟨ds, rfl⟩ := h₁
          rw [lex_arrow hc]
          refine run_cons_of_round hg ⟨_, parseRound_arrow hcom' hptr', fun q hq => ?_⟩
          rw [hrest (by simp at hlen; simp; omega) q hq, hcom']
        rw [not_exists] at h₁
        rw [lex_dash hc h₁]
        refine run_cons_of_round hg ⟨r', parseRound_dash hcom' fun h => ?_,
          fun q hq => by simp [Lexeme.step] at hq⟩
        obtain ⟨ds, hds⟩ := charNextGet_head h
        exact h₁ ds (hptr'.symm.trans hds)
      rw [lex_char hc hs hd]
      refine run_cons_of_round hg ⟨r', parseRound_char hp hcom' hs hd, fun q hq => ?_⟩
      rw [hrest (by rwa [hptr']) q hq, hcom', hptr']
    case singleLine =>
      by_cases hn : c = '\n'
      · subst hn
        have hcom' : r'.comments = .none := by simpa [hm] using hcom
        rw [lex_lineEnd hc, ← hend]
        refine run_cons_of_round hg
          ⟨r', parseRound_char hp hcom' (by decide) (by decide), fun q hq => ?_⟩
        rw [hrest (by rwa [hptr']) q hq, hcom', hptr']
      · have hcom' : r'.comments = .singleLine := by simpa [hm, hn] using hcom
        have hround : parseRound r' p c = .ok (r', p) := by
          simp only [parseRound, hcom', if_neg hn]
        rw [lex_inLine hc hn, outcome_char hg, hround]
        refine (parseLoop_eq_run (by rwa [hptr']) hp).trans ?_
        rw [hcom', hptr']
    case multipleLines =>
      have hcom' : r'.comments = .multipleLines := by simpa [hm] using hcom
      by_cases hs : c = '*'
      · subst hs
        rw [outcome_char hg]
        rcases cs with _ | ⟨d, ds⟩
        · have hround : parseRound r' p '*' = .ok (r', p) := by
            simp only [parseRound, hcom', if_true, charNextGet_nil hptr']
          obtain ⟨n, rfl⟩ := Nat.exists_eq_succ_of_ne_zero (Nat.ne_of_gt hlen)
          rw [hround, lex_star_nil hc]
          refine (outcome_nil hptr').trans ?_
          rw [hcom']
          rfl
        by_cases h₁ : d = '/'
        · subst h₁
          have hround : parseRound r' p '*' =
              .ok ({ r' with ptr := ds, col := r'.col + 1, comments := .none }, p) := by
            simp only [parseRound, hcom', if_true, charNextGet_plain hptr' rfl (by decide)]
          rw [hround, lex_close hc]
          exact parseLoop_eq_run (by simp at hlen; simp; omega) hp
        · obtain ⟨r'', hround, hptr'', hcom''⟩ := parseRound_star hcom' hptr' h₁
          rw [hround, lex_star hc h₁]
          refine (parseLoop_eq_run (by rw [hptr'']; simp at hlen; omega) hp).trans ?_
          rw [hcom'', hptr'']
      · have hround : parseRound r' p c = .ok (r', p) := by
          simp only [parseRound, hcom', if_neg hs]
        rw [lex_inLines hc hs, outcome_char hg, hround]
        refine (parseLoop_eq_run (by rwa [hptr']) hp).trans ?_
        rw [hcom', hptr']

theorem fresh_settled : ({} : Parser).Settled := ⟨rfl, rfl⟩

/-- The parser run over a file is the run over what it reads of it. -/
theorem parseRun_eq (src : List Char) : outcome (parseRun src) = (reading src).run {} :=
  parseLoop_eq_run (Nat.lt_succ_self _) fresh_settled

/-- The list returned for a file, from the run over what is read of it. -/
theorem parserParse_eq (src : List Char) :
    parserParse src = (((reading src).lexemes.foldlM Lexeme.step {}).map Parser.fsms).getD [] := by
  have h := parseRun_eq src
  unfold parserParse
  unfold Reading.run at h
  rcases hr : parseRun src with e | ⟨r, p⟩ <;>
    rcases hf : (reading src).lexemes.foldlM Lexeme.step {} with _ | q <;> rw [hr, hf] at h
  · rfl
  · simp [outcome, Except.toOption] at h
  · simp [outcome, Except.toOption] at h
  · simp only [outcome, Except.toOption, Option.map_some, Option.some.injEq, Prod.mk.injEq] at h
    rw [h.2]
    rfl

/-- A file that is read to its end is a run over its lexemes. -/
theorem foldlM_of_parseRun {src : List Char} {r : Cursor} {p : Parser} (h : parseRun src = .ok (r, p)) :
    (reading src).lexemes.foldlM Lexeme.step {} = some p := by
  have hrun := parseRun_eq src
  rw [h] at hrun
  obtain ⟨q, hq, he⟩ := Option.map_eq_some_iff.1 hrun.symm
  have hp : q = p := (Prod.mk.inj he).2
  exact hp ▸ hq

theorem parseRun_of_foldlM {src : List Char} {p : Parser}
    (h : (reading src).lexemes.foldlM Lexeme.step {} = some p) :
    ∃ r, parseRun src = .ok (r, p) := by
  have hrun := parseRun_eq src
  unfold Reading.run at hrun
  rw [h] at hrun
  obtain ⟨⟨r, q⟩, hq, he⟩ := Option.map_eq_some_iff.1 hrun
  rcases hr : parseRun src with e | ⟨r', q'⟩ <;> rw [hr] at hq
  · simp [Except.toOption] at hq
  · obtain rfl : q' = p := by
      rw [← (Prod.mk.inj he).2, ← Option.some.inj hq]
    exact ⟨r', rfl⟩

/-- The lexemes of a file that is read to its end hold nothing that is refused. -/
theorem no_bad : ∀ {ls : List Lexeme} {p q : Parser}, ls.foldlM Lexeme.step p = some q →
    Lexeme.bad ∉ ls
  | [], _, _, _ => by simp
  | l :: ls, p, q, h => by
    rw [List.foldlM_cons] at h
    obtain ⟨p₁, hl, h⟩ := Option.bind_eq_some_iff.1 h
    have hne : l ≠ .bad := by
      rintro rfl
      cases hl
    simpa [hne.symm] using no_bad h

theorem parses_iff {src : List Char} :
    Parses src ↔ ∃ p, (reading src).lexemes.foldlM Lexeme.step {} = some p :=
  ⟨fun ⟨_, p, h⟩ => ⟨p, foldlM_of_parseRun h⟩,
    fun ⟨p, h⟩ => (parseRun_of_foldlM h).imp fun _ h => ⟨p, h⟩⟩

/-- What every step over the lexemes of a text keeps, the run over them keeps. -/
theorem foldlM_step_induct {P : Parser → Prop} :
    ∀ {ls : List Lexeme} {p q : Parser},
      (∀ (p : Parser) (l : Lexeme) (q : Parser), l ∈ ls → p.Settled → P p → l.step p = some q → P q) →
      p.Settled → P p → ls.foldlM Lexeme.step p = some q → q.Settled ∧ P q
  | [], p, q, _, hs, hp, h => Option.some.inj h ▸ ⟨hs, hp⟩
  | l :: ls, p, q, hstep, hs, hp, h => by
    rcases hl : l.step p with _ | p'
    · simp [hl] at h
    · simp only [List.foldlM_cons, hl] at h
      exact foldlM_step_induct (fun p l q hmem => hstep p l q (List.mem_cons_of_mem _ hmem))
        (settled_of_step hs hl) (hstep p l p' List.mem_cons_self hs hp hl) h

end Run

end Estate.Cc
