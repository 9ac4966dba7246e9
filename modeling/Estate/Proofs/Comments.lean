import Estate.Cc.Rewriting
import Estate.Proofs.Tokens

/-!
# Comments as the parser delimits them

Behind a star inside a comment the parser passes over one more character without looking at it,
so it pairs the stars off and finds the end of the comment only behind an odd number of them
(`lex_strip`). A comment does not end a token, where the blank it stands for would.
-/

namespace Estate.Cc

section Strip

variable {cs : List Char} {c : Char}

theorem strip_char (hc : c ≠ '/') : strip .none (c :: cs) = c :: strip .none cs := by
  rw [strip.eq_def .none (c :: cs)]
  simp only [if_neg hc]

theorem strip_slash (hs : ∀ ds, cs ≠ '/' :: ds) (hm : ∀ ds, cs ≠ '*' :: ds) :
    strip .none ('/' :: cs) = '/' :: strip .none cs := by
  rw [strip.eq_def .none ('/' :: cs)]
  simp only [if_true]

theorem strip_lineEnd : strip .singleLine ('\n' :: cs) = '\n' :: strip .none cs := by
  rw [strip, if_pos rfl]

theorem strip_inLine (hc : c ≠ '\n') : strip .singleLine (c :: cs) = strip .singleLine cs := by
  rw [strip, if_neg hc]

theorem strip_inLines (hc : c ≠ '*') :
    strip .multipleLines (c :: cs) = strip .multipleLines cs := by
  rw [strip.eq_def .multipleLines (c :: cs)]
  simp only [if_neg hc]

theorem strip_star (hs : ∀ ds, cs ≠ '/' :: ds) :
    strip .multipleLines ('*' :: cs) = strip .multipleLines cs := by
  rw [strip.eq_def .multipleLines ('*' :: cs)]
  simp only [if_true]

theorem oddStars_star {n : ℕ} :
    oddStars .multipleLines n ('*' :: cs) = oddStars .multipleLines (n + 1) cs := by
  rw [oddStars, if_pos rfl]

theorem oddStars_slash {n : ℕ} (hn : n ≠ 0) : oddStars .multipleLines n ('/' :: cs) =
    (decide (n % 2 = 1) && oddStars .none 0 cs) := by
  rw [oddStars, if_neg (by decide), if_pos ⟨rfl, hn⟩]

theorem oddStars_inLines {n : ℕ} (hc : c ≠ '*') (hs : c = '/' → n = 0) :
    oddStars .multipleLines n (c :: cs) = oddStars .multipleLines 0 cs := by
  rw [oddStars, if_neg hc, if_neg fun h => h.2 (hs h.1)]

theorem oddStars_char {n : ℕ} (hc : c ≠ '/') :
    oddStars .none n (c :: cs) = oddStars .none 0 cs := by
  rw [oddStars.eq_def .none n (c :: cs)]
  simp only [if_neg hc]

/-- A stripped line comment leaves a newline in front. -/
theorem strip_singleLine_head {d : Char} {ds : List Char} : ∀ {cs : List Char},
    strip .singleLine cs = d :: ds → d = '\n'
  | [], h => by simp at h
  | c :: cs, h => by
    by_cases hc : c = '\n'
    · subst hc
      rw [strip_lineEnd] at h
      exact (List.cons.inj h).1.symm
    · rw [strip_inLine hc] at h
      exact strip_singleLine_head h

/-- What a stripped text starts with, other than blanks, its text starts with. -/
theorem strip_head {d : Char} {ds : List Char} (hb : d ≠ ' ') (hn : d ≠ '\n')
    (h : strip .none cs = d :: ds) : ∃ es, cs = d :: es := by
  rcases cs with _ | ⟨c, cs⟩
  · simp [strip] at h
  by_cases hc : c = '/'
  · subst hc
    by_cases h₁ : ∃ ds, cs = '/' :: ds
    · obtain ⟨es, rfl⟩ := h₁
      have hl : strip .singleLine es = d :: ds := h
      exact absurd (strip_singleLine_head hl) hn
    by_cases h₂ : ∃ ds, cs = '*' :: ds
    · obtain ⟨es, rfl⟩ := h₂
      exact absurd (List.cons.inj h).1.symm hb
    rw [not_exists] at h₁ h₂
    rw [strip_slash h₁ h₂] at h
    exact ⟨cs, by rw [(List.cons.inj h).1]⟩
  · rw [strip_char hc] at h
    exact ⟨cs, by rw [(List.cons.inj h).1]⟩

end Strip

section Stop

variable {p q : Parser} {m : Mark} {c : Char} {b : Bool}

/-- A parser that has or has not seen a blank behind the token it reads. -/
abbrev Parser.withStop (p : Parser) (b : Bool) : Parser := { p with stopWord := b }

theorem token_withStop : token (p.withStop b) c = (token p c).map (·.withStop b) := by
  have hframe : token (p.withStop b) c = (token p c).map (·.withFrame b p.blocks) :=
    token_withFrame
  rw [hframe]
  rcases ht : token p c with e | q
  · rfl
  · have hb := (tokenStep_of_token ht).frame.1.blocks
    simp only [Except.map, Parser.withFrame, Parser.withStop, ← hb]

theorem blockEnter_withStop {abbr : Bool} :
    blockEnter (p.withStop b) abbr = (blockEnter p abbr).map (·.withStop b) := by
  unfold blockEnter
  simp only
  split_ifs <;> rfl

theorem anonymousTransit_withStop {format : String} :
    anonymousTransit (p.withStop b) format = (anonymousTransit p format).withStop b := by
  unfold anonymousTransit
  simp only
  split_ifs <;> rfl

theorem prepare_withStop : m.prepare (p.withStop b) = (m.prepare p).map (·.withStop b) := by
  unfold Mark.prepare
  rcases m <;> simp only [blockEnter_withStop, anonymousTransit_withStop]
  case colon => split_ifs <;> rfl
  case semicolon => split_ifs <;> rfl
  case arobase => split_ifs <;> rfl
  case greater => split_ifs <;> rfl
  case arrow => split_ifs <;> rfl

theorem hand_withStop : (p.withStop b).hand = p.hand.withStop b := by
  unfold Parser.hand
  simp only
  split_ifs <;> rfl

/-- A token that has been looked at leaves no blank behind it. -/
theorem look_withStop : (p.withStop b).look c = p.look c := by
  unfold Parser.look
  rw [hand_withStop, token_withStop]
  rcases token p.hand c with e | q <;> rfl

theorem step_mark_withStop : (Lexeme.mark m).step (p.withStop b) = (Lexeme.mark m).step p := by
  rw [step_mark, step_mark, prepare_withStop, Option.bind_map]
  congr 1
  funext q
  exact look_withStop

theorem leave_withStop : (p.withStop b).leave = p.leave.map (·.withStop b) := by
  unfold Parser.leave
  rcases blockLeave p.blocks p.sm <;> rfl

/-- A stripped parser has seen a blank wherever the parser has, and behind every comment of
several lines in a token. -/
structure Behind (p : Parser) (b since : Bool) : Prop where
  begun : p.stopWord = true → p.buf ≠ []
  stop : b = true ↔ p.stopWord = true ∨ (p.buf ≠ [] ∧ since = true)

theorem Behind.clear {since : Bool} (hs : p.stopWord = false) (hb : p.buf = []) :
    Behind p p.stopWord since :=
  ⟨by simp [hs], by simp [hs, hb]⟩

/-- A stripped file fails where its file does, or where the file joins words, and gives the same
parser otherwise. -/
def Agrees (joins : Bool) : Option Parser → Option Parser → Prop
  | none, res => res = none
  | some q, res => if joins then res = none else ∃ b, res = some (q.withStop b)

theorem Agrees.none {joins : Bool} {res : Option Parser} (h : joins = true ∨ res = none) :
    Agrees joins res none := by
  rcases res with _ | q
  · rfl
  · rcases h with h | h
    · rw [h]
      rfl
    · simp at h

theorem mark_stopWord (h : (Lexeme.mark m).step p = some q) : q.stopWord = false := by
  obtain ⟨p₁, q₁, -, -, hq⟩ := mark_ok h
  rcases hq with ⟨-, rfl⟩ | ⟨-, hl⟩
  · rfl
  · unfold Parser.leave at hl
    obtain ⟨bl, -, rfl⟩ := Option.map_eq_some_iff.1 hl
    rfl

theorem settled_withStop (hp : p.Settled) : (p.withStop b).Settled := ⟨hp.hasToken, hp.leaveBlock⟩

/-- An identifier is being read, and no blank has been read behind it. -/
def Parser.inWord (p : Parser) : Bool := decide (p.buf ≠ []) && !p.stopWord

/-- A blank of both files. -/
theorem white_behind {since : Bool} (hp : p.Settled) (hb : Behind p b since) :
    ∃ p₁ b₁, Lexeme.white.step p = some p₁ ∧
      Lexeme.white.step (p.withStop b) = some (p₁.withStop b₁) ∧ p₁.inWord = false ∧
      Behind p₁ b₁ false := by
  rw [step_white hp, step_white (settled_withStop hp)]
  by_cases hbuf : p.buf = []
  · refine ⟨p, b, by simp [hbuf], by simp [hbuf], by simp [Parser.inWord, hbuf], hb.begun, ?_⟩
    rw [hb.stop]
    simp [hbuf]
  · exact ⟨p.withStop true, true, by simp [hbuf], by simp [hbuf], by simp [Parser.inWord],
      fun _ => hbuf, by simp⟩

/-- A blank that stands for a comment. -/
theorem comment_behind {since : Bool} (hp : p.Settled) (hb : Behind p b since) :
    ∃ b₁, Lexeme.white.step (p.withStop b) = some (p.withStop b₁) ∧ Behind p b₁ true := by
  rw [step_white (settled_withStop hp)]
  by_cases hbuf : p.buf = []
  · refine ⟨b, by simp [hbuf], hb.begun, ?_⟩
    rw [hb.stop]
    simp [hbuf]
  · exact ⟨true, by simp [hbuf], hb.begun, by simp [hbuf]⟩

/-- What a lexeme becomes when the comments are stripped. -/
def Lexeme.stripped : Lexeme → List Lexeme
  | .comment true => [.white]
  | .comment false => []
  | l => [l]

/-- Whether a comment of several lines has been read since the identifier. -/
def Lexeme.since (since : Bool) : Lexeme → Bool
  | .comment true => true
  | .word _ | .mark _ | .white => false
  | .blockEnd | .comment false | .bad => since

/-- One lexeme, of the text and of the stripped text. -/
theorem agrees_cons {since : Bool} {l : Lexeme} {ls ls' : List Lexeme} (hp : p.Settled)
    (hb : Behind p b since)
    (hrest : ∀ {p₁ : Parser} {b₁ : Bool}, l.step p = some p₁ → Behind p₁ b₁ (l.since since) →
      Agrees (joinsWords p₁.inWord (l.since since) ls) (ls.foldlM Lexeme.step p₁)
        (ls'.foldlM Lexeme.step (p₁.withStop b₁))) :
    Agrees (joinsWords p.inWord since (l :: ls)) ((l :: ls).foldlM Lexeme.step p)
      ((l.stripped ++ ls').foldlM Lexeme.step (p.withStop b)) := by
  rw [List.foldlM_cons]
  rcases l with _ | c | m | _ | ml | _
  case white =>
    show Agrees (joinsWords false false ls) _
      ((Lexeme.white.step (p.withStop b)).bind (ls'.foldlM Lexeme.step))
    obtain ⟨p₁, b₁, h₁, h₂, hclosed, hb₁⟩ := white_behind hp hb
    have hagrees := hrest h₁ hb₁
    rw [hclosed] at hagrees
    rw [h₁, h₂]
    exact hagrees
  case word =>
    show Agrees (p.inWord && since || joinsWords true false ls) _
      (((Lexeme.word c).step (p.withStop b)).bind (ls'.foldlM Lexeme.step))
    rcases hw : (Lexeme.word c).step (p.withStop b) with _ | p'
    · refine Agrees.none ?_
      rcases hw' : (Lexeme.word c).step p with _ | p₁
      · exact .inr rfl
      · obtain ⟨hd, hs, hl, -⟩ := step_word.1 hw'
        have hstop : b = true := by
          by_contra hne
          have hnone : (Lexeme.word c).step (p.withStop b) = some _ :=
            step_word.2 ⟨hd, by simpa using hne, hl, rfl⟩
          simp [hw] at hnone
        have hsince := hb.stop.1 hstop
        simp only [hs, Bool.false_eq_true, false_or] at hsince
        exact .inl (by simp [Parser.inWord, hs, hsince.1, hsince.2])
    · obtain ⟨hd, hs, hl, rfl⟩ := step_word.1 hw
      have hfalse : b = false := hs
      have hps : p.stopWord = false := by
        by_contra hne
        simp [hb.stop.2 (.inl (by simpa using hne))] at hfalse
      have hnot : (p.inWord && since) = false := by
        by_contra hne
        have hboth : p.buf ≠ [] ∧ since = true := by simpa [Parser.inWord, hps] using hne
        simp [hb.stop.2 (.inr hboth)] at hfalse
      have h₁ : (Lexeme.word c).step p = some { p with buf := p.buf ++ [c] } :=
        step_word.2 ⟨hd, hps, hl, rfl⟩
      rw [h₁, hnot, Bool.false_or]
      have hagrees := @hrest _ b h₁ ⟨by simp, by simp [hfalse, hps, Lexeme.since]⟩
      simpa [Parser.inWord, hps, Lexeme.since] using hagrees
  case mark =>
    show Agrees (joinsWords false false ls) _
      (((Lexeme.mark m).step (p.withStop b)).bind (ls'.foldlM Lexeme.step))
    rw [@step_mark_withStop p m b]
    rcases h₁ : (Lexeme.mark m).step p with _ | p₁
    · exact .none (.inr rfl)
    · obtain ⟨hbuf, -⟩ := mark_handed h₁
      have hagrees := hrest h₁ (Behind.clear (mark_stopWord h₁) hbuf)
      simpa [Parser.inWord, hbuf, Lexeme.since] using hagrees
  case blockEnd =>
    show Agrees (joinsWords p.inWord since ls) _
      ((Lexeme.blockEnd.step (p.withStop b)).bind (ls'.foldlM Lexeme.step))
    rw [step_blockEnd hp, step_blockEnd (settled_withStop hp), @leave_withStop p b]
    rcases h₁ : p.leave with _ | p₁
    · exact .none (.inr rfl)
    · have hstep := (step_blockEnd hp).trans h₁
      obtain ⟨bl, -, rfl⟩ := Option.map_eq_some_iff.1 h₁
      exact @hrest _ b hstep ⟨hb.begun, hb.stop⟩
  case comment =>
    rcases ml
    · exact hrest rfl hb
    · show Agrees (joinsWords p.inWord true ls) _
        ((Lexeme.white.step (p.withStop b)).bind (ls'.foldlM Lexeme.step))
      obtain ⟨b₁, h₁, hb₁⟩ := comment_behind hp hb
      rw [h₁]
      exact hrest rfl hb₁
  case bad => exact .none (.inr rfl)

end Stop

section Texts

variable {cs : List Char} {p p₁ : Parser} {b since : Bool} {n n' : ℕ} {comments comments' : Comments}

/-- As far as a text is read from a parser, its comments end behind an odd number of stars. -/
def OddFrom (p : Parser) (comments : Comments) (n : ℕ) (cs : List Char) : Prop :=
  ∀ u v, cs = u ++ v → ((lex isEof comments u).lexemes.foldlM Lexeme.step p).isSome = true →
    oddStars comments n u = true

theorem OddFrom.rest (pre : List Char) {rest : List Char} (h : OddFrom p comments n (pre ++ rest))
    (hrun : ∀ u, (lex isEof comments (pre ++ u)).lexemes.foldlM Lexeme.step p =
      (lex isEof comments' u).lexemes.foldlM Lexeme.step p₁)
    (hodd : ∀ u, oddStars comments n (pre ++ u) = oddStars comments' n' u) :
    OddFrom p₁ comments' n' rest := by
  intro u v huv hsome
  rw [← hodd]
  exact h (pre ++ u) v (by rw [huv, List.append_assoc]) (by rw [hrun]; exact hsome)

/-- The same behind a lexeme. -/
theorem OddFrom.behind (pre : List Char) {rest : List Char} {l : Lexeme} (h : OddFrom p comments n (pre ++ rest))
    (hlex : ∀ u, lex isEof comments (pre ++ u) = (lex isEof comments' u).cons l)
    (hodd : ∀ u, oddStars comments n (pre ++ u) = oddStars comments' n' u)
    (hstep : l.step p = some p₁) : OddFrom p₁ comments' n' rest := by
  refine OddFrom.rest pre h (fun u => ?_) hodd
  rw [hlex]
  show (l :: (lex isEof comments' u).lexemes).foldlM Lexeme.step p = _
  rw [List.foldlM_cons, hstep]
  rfl

/-- A parser reads a text and its stripped text alike, but for the words that comments join. In a
comment, an even number of stars stands before the place where the parser looks next. -/
theorem lex_agrees (comments : Comments) (cs : List Char) (n : ℕ) (p : Parser) (b since : Bool)
    (hp : p.Settled) (hb : Behind p b since) (hn : comments = .multipleLines → n % 2 = 0)
    (hbytes : ∀ c ∈ cs, isEof c = false) (hodd : OddFrom p comments n cs) :
    Agrees (joinsWords p.inWord since (lex isEof comments cs).lexemes)
      ((lex isEof comments cs).lexemes.foldlM Lexeme.step p)
      ((lex isEof .none (strip comments cs)).lexemes.foldlM Lexeme.step (p.withStop b)) := by
  have hword : ∀ c, (charLexeme c).stripped = [charLexeme c] := by
    intro c
    unfold charLexeme
    rcases charCase c <;> rfl
  fun_induction lex isEof comments cs generalizing n p b since
  case case1 => exact ⟨b, by rw [strip_nil, lex_nil]; rfl⟩
  case case2 c cs hc => simp [hbytes c (by simp)] at hc
  case case3 cs hc ih =>
    refine agrees_cons (l := .comment false) hp hb fun hstep hb₁ => ?_
    exact ih 0 _ _ _ (settled_of_step hp hstep) hb₁ (by simp) (fun d hd => hbytes d (by simp [hd]))
      (OddFrom.behind ['/', '/'] hodd (fun u => lex_singleLine rfl) (fun u => rfl) hstep)
  case case4 cs hc ih =>
    have hl : lex isEof .none (' ' :: strip .multipleLines cs) = _ :=
      lex_char rfl (by decide) (by decide)
    refine (congrArg (fun rd => Agrees _ _ (rd.lexemes.foldlM Lexeme.step (p.withStop b))) hl).mpr ?_
    refine agrees_cons (l := .comment true) hp hb fun hstep hb₁ => ?_
    exact ih 0 _ _ _ (settled_of_step hp hstep) hb₁ (by simp) (fun d hd => hbytes d (by simp [hd]))
      (OddFrom.behind ['/', '*'] hodd (fun u => lex_multipleLines rfl) (fun u => rfl) hstep)
  case case5 cs hs hm hc ih =>
    rw [strip_slash hs hm, lex_slash rfl]
    · exact agrees_cons (l := .bad) hp hb fun hstep => by cases hstep
    · intro ds h
      obtain ⟨es, he⟩ := strip_head (by decide) (by decide) h
      exact hs es he
    · intro ds h
      obtain ⟨es, he⟩ := strip_head (by decide) (by decide) h
      exact hm es he
  case case6 cs hc _ ih =>
    rw [strip_char (by decide), strip_char (by decide), lex_arrow rfl]
    refine agrees_cons (l := .mark .arrow) hp hb fun hstep hb₁ => ?_
    exact ih 0 _ _ _ (settled_of_step hp hstep) hb₁ (by simp) (fun d hd => hbytes d (by simp [hd]))
      (OddFrom.behind ['-', '>'] hodd (fun u => lex_arrow rfl)
        (fun u => (oddStars_char (by decide)).trans (oddStars_char (by decide))) hstep)
  case case7 cs hd hc _ ih =>
    rw [strip_char (by decide), lex_dash rfl]
    · exact agrees_cons (l := .bad) hp hb fun hstep => by cases hstep
    · intro ds h
      obtain ⟨es, he⟩ := strip_head (by decide) (by decide) h
      exact hd es he
  case case8 c cs hc hs hd ih =>
    have heof : isEof c = false := by simpa using hc
    rw [strip_char hs, lex_char heof hs hd]
    show Agrees _ _ (([charLexeme c] ++ _).foldlM _ _)
    rw [← hword c]
    refine agrees_cons hp hb fun hstep hb₁ => ?_
    exact ih 0 _ _ _ (settled_of_step hp hstep) hb₁ (by simp) (fun d hd => hbytes d (by simp [hd]))
      (OddFrom.behind [c] hodd (fun u => lex_char heof hs hd) (fun u => oddStars_char hs)
        hstep)
  case case9 c cs hc => simp [hbytes c (by simp)] at hc
  case case10 cs hc ih =>
    rw [strip_lineEnd, lex_char rfl (by decide) (by decide)]
    refine agrees_cons (l := .white) hp hb fun hstep hb₁ => ?_
    exact ih 0 _ _ _ (settled_of_step hp hstep) hb₁ (by simp) (fun d hd => hbytes d (by simp [hd]))
      (OddFrom.behind ['\n'] hodd (fun u => lex_lineEnd rfl)
        (fun u => by rw [List.singleton_append, oddStars, if_pos rfl]) hstep)
  case case11 c cs hc hn' ih =>
    rw [strip_inLine hn']
    exact ih 0 _ _ _ hp hb (by simp) (fun d hd => hbytes d (by simp [hd]))
      (OddFrom.rest [c] hodd (fun u => by
        rw [List.singleton_append, lex_inLine (by simpa using hc) hn'])
        fun u => by rw [List.singleton_append, oddStars, if_neg hn'])
  case case12 c cs hc => simp [hbytes c (by simp)] at hc
  case case13 => exact ⟨b, by simp [strip]⟩
  case case14 cs hc ih =>
    have heven := hn rfl
    exact ih 0 _ _ _ hp hb (by simp) (fun d hd => hbytes d (by simp [hd]))
      (OddFrom.rest ['*', '/'] hodd (fun u => by
        rw [List.cons_append, List.singleton_append, lex_close rfl])
        fun u => by
          rw [List.cons_append, List.singleton_append, oddStars_star, oddStars_slash (by simp),
            decide_eq_true (by omega), Bool.true_and])
  case case15 d cs hd hc ih =>
    have hrest : ∀ e ∈ cs, isEof e = false := fun e he => hbytes e (by simp [he])
    have heven := hn rfl
    have hlex : ∀ u, (lex isEof .multipleLines (['*', d] ++ u)).lexemes.foldlM Lexeme.step p =
        (lex isEof .multipleLines u).lexemes.foldlM Lexeme.step p := fun u => by
      rw [List.cons_append, List.singleton_append, lex_star rfl (by simpa using hd)]
    rw [strip_star (by simpa using hd)]
    by_cases hstar : d = '*'
    · subst hstar
      have hodd' : ∀ u, oddStars .multipleLines n (['*', '*'] ++ u) =
          oddStars .multipleLines (n + 1 + 1) u := fun u => by
        rw [List.cons_append, List.singleton_append, oddStars_star, oddStars_star]
      have hnext := OddFrom.rest ['*', '*'] hodd hlex hodd'
      rw [strip_star]
      · exact ih (n + 1 + 1) _ _ _ hp hb (fun _ => by omega) hrest hnext
      · -- a slash behind an even number of stars is read on in the comment
        rintro es rfl
        have hslash := hnext ['/'] es rfl (by rw [lex_inLines rfl (by decide), lex_nil]; rfl)
        rw [oddStars_slash (by simp), Bool.and_eq_true, decide_eq_true_eq] at hslash
        omega
    · rw [strip_inLines hstar]
      exact ih 0 _ _ _ hp hb (by simp) hrest (OddFrom.rest ['*', d] hodd hlex fun u => by
        rw [List.cons_append, List.singleton_append, oddStars_star,
          oddStars_inLines hstar (fun h => absurd h (by simpa using hd))])
  case case16 c cs hc hs ih =>
    have heof : isEof c = false := by simpa using hc
    have heven := hn rfl
    have hzero : c = '/' → n = 0 := by
      rintro rfl
      by_contra hne
      have hslash := hodd ['/'] cs rfl (by rw [lex_inLines rfl (by decide), lex_nil]; rfl)
      rw [oddStars_slash hne, Bool.and_eq_true, decide_eq_true_eq] at hslash
      omega
    rw [strip_inLines hs]
    exact ih 0 _ _ _ hp hb (by simp) (fun d hd => hbytes d (by simp [hd]))
      (OddFrom.rest [c] hodd (fun u => by
        rw [List.singleton_append, lex_inLines heof hs])
        fun u => by rw [List.singleton_append, oddStars_inLines hs hzero])

/-- What is read of a text, without being refused, comes first in what is read of a longer one. -/
theorem lex_prefix (comments : Comments) (u v : List Char) (hbytes : ∀ c ∈ u, isEof c = false)
    (hbad : Lexeme.bad ∉ (lex isEof comments u).lexemes) :
    (lex isEof comments u).lexemes <+: (lex isEof comments (u ++ v)).lexemes := by
  have hcons : ∀ {l : Lexeme} {rd rd' : Reading}, (Lexeme.bad ∉ rd.lexemes →
      rd.lexemes <+: rd'.lexemes) → Lexeme.bad ∉ (rd.cons l).lexemes →
      (rd.cons l).lexemes <+: (rd'.cons l).lexemes := fun h hbad =>
    List.cons_prefix_cons.2 ⟨rfl, h fun hmem => hbad (List.mem_cons_of_mem _ hmem)⟩
  fun_induction lex isEof comments u
  case case1 => exact List.nil_prefix
  case case2 c cs hc => simp [hbytes c (by simp)] at hc
  case case3 ih =>
    rw [List.cons_append, List.cons_append, lex_singleLine rfl]
    exact hcons (ih fun d hd => hbytes d (by simp [hd])) hbad
  case case4 ih =>
    rw [List.cons_append, List.cons_append, lex_multipleLines rfl]
    exact hcons (ih fun d hd => hbytes d (by simp [hd])) hbad
  case case5 => exact absurd List.mem_cons_self hbad
  case case6 ih =>
    rw [List.cons_append, List.cons_append, lex_arrow rfl]
    exact hcons (ih fun d hd => hbytes d (by simp [hd])) hbad
  case case7 => exact absurd List.mem_cons_self hbad
  case case8 heof hs hd ih =>
    rw [List.cons_append, lex_char (by simpa using heof) hs hd]
    exact hcons (ih fun d hd => hbytes d (by simp [hd])) hbad
  case case9 c cs hc => simp [hbytes c (by simp)] at hc
  case case10 ih =>
    rw [List.cons_append, lex_lineEnd rfl]
    exact hcons (ih fun d hd => hbytes d (by simp [hd])) hbad
  case case11 heof hn ih =>
    rw [List.cons_append, lex_inLine (by simpa using heof) hn]
    exact ih (fun d hd => hbytes d (by simp [hd])) hbad
  case case12 c cs hc => simp [hbytes c (by simp)] at hc
  case case13 => exact List.nil_prefix
  case case14 ih =>
    rw [List.cons_append, List.cons_append, lex_close rfl]
    exact ih (fun d hd => hbytes d (by simp [hd])) hbad
  case case15 d cs hd hc ih =>
    rw [List.cons_append, List.cons_append, lex_star rfl (by simpa using hd)]
    exact ih (fun d hd => hbytes d (by simp [hd])) hbad
  case case16 heof hs ih =>
    rw [List.cons_append, lex_inLines (by simpa using heof) hs]
    exact ih (fun d hd => hbytes d (by simp [hd])) hbad

end Texts

section Outcome

variable {src : List Char}

theorem joinsWords_append : ∀ {ls : List Lexeme} {begun since : Bool} (more : List Lexeme),
    joinsWords begun since ls = true → joinsWords begun since (ls ++ more) = true
  | [], _, _, _, h => by cases h
  | l :: ls, begun, since, more, h => by
    rcases l with _ | c | m | _ | _ | _
    case word =>
      have hword : (begun && since || joinsWords true false ls) = true := h
      show (begun && since || joinsWords true false (ls ++ more)) = true
      rw [Bool.or_eq_true] at hword ⊢
      exact hword.imp_right (joinsWords_append more)
    case comment ml => cases ml <;> exact @joinsWords_append ls _ _ more h
    all_goals exact @joinsWords_append ls _ _ more h

theorem fresh_agrees (hbytes : ∀ c ∈ src, isEof c = false) (hodd : ReadsOdd src) :
    Agrees (joinsWords false false (reading src).lexemes)
      ((reading src).lexemes.foldlM Lexeme.step {})
      ((reading (strip .none src)).lexemes.foldlM Lexeme.step {}) := by
  refine lex_agrees .none src 0 {} false false fresh_settled ⟨by simp, by simp⟩ (by simp) hbytes ?_
  exact fun u v huv hsome => hodd u v huv (parses_iff.2 (Option.isSome_iff_exists.1 hsome))

/-- Both are refused, where the stripped text is. -/
theorem sameOutcome_refused {other : List Char}
    (hother : (reading other).lexemes.foldlM Lexeme.step {} = none) :
    SameOutcome other src ↔ ¬ Parses src := by
  have hrefused : ¬ Parses other := fun h => by
    obtain ⟨q, hq⟩ := parses_iff.1 h
    rw [hother] at hq
    cases hq
  refine ⟨fun h => mt h.1.2 hrefused, fun h => ⟨iff_of_false hrefused h, ?_⟩⟩
  have hsrc : (reading src).lexemes.foldlM Lexeme.step {} = none := by
    by_contra hne
    exact h (parses_iff.2 (Option.ne_none_iff_exists'.1 hne))
  rw [parserParse_eq, parserParse_eq, hother, hsrc]

/-- A text gives what it gives without its comments where, as far as it is read, every comment of
several lines ends behind an odd number of stars and none stands inside a word. Where one stands in a
word, the outcomes are the same exactly when the text is refused all the same. -/
theorem parserParse_strip (hbytes : ∀ c ∈ src, isEof c = false) (hodd : ReadsOdd src) :
    (ReadsApart src → SameOutcome (strip .none src) src) ∧
      (¬ ReadsApart src → (SameOutcome (strip .none src) src ↔ ¬ Parses src)) := by
  have hagree := fresh_agrees hbytes hodd
  rcases hq : (reading src).lexemes.foldlM Lexeme.step {} with _ | q <;> rw [hq] at hagree
  · have hrefused : SameOutcome (strip .none src) src ↔ ¬ Parses src := sameOutcome_refused hagree
    refine ⟨fun _ => hrefused.2 fun h => ?_, fun _ => hrefused⟩
    obtain ⟨q, hq'⟩ := parses_iff.1 h
    rw [hq] at hq'
    cases hq'
  · have hparses : Parses src := parses_iff.2 ⟨q, hq⟩
    constructor
    · intro hapart
      have hjoins : joinsWords false false (reading src).lexemes = false :=
        hapart src [] (List.append_nil _).symm hparses
      simp only [Agrees, hjoins, Bool.false_eq_true, if_false] at hagree
      obtain ⟨b, hb⟩ := hagree
      refine ⟨iff_of_true (parses_iff.2 ⟨_, hb⟩) hparses, ?_⟩
      rw [parserParse_eq, parserParse_eq, hq, hb]
      rfl
    · intro hjoined
      simp only [ReadsApart, not_forall] at hjoined
      obtain ⟨read, rest, rfl, hread, hjoins⟩ := hjoined
      obtain ⟨q', hq'⟩ := parses_iff.1 hread
      obtain ⟨more, hmore⟩ := lex_prefix .none read rest
        (fun c hc => hbytes c (List.mem_append_left _ hc)) (no_bad hq')
      have hall : joinsWords false false (reading (read ++ rest)).lexemes = true := by
        show joinsWords false false (lex isEof .none (read ++ rest)).lexemes = true
        rw [← hmore]
        exact joinsWords_append more ((Bool.not_eq_false _).mp hjoins)
      simp only [Agrees, hall, if_true] at hagree
      exact sameOutcome_refused hagree

/-- Comments of both kinds between the tokens of a machine. -/
def commented : List Char := "a/* ** */\x7b//x\n\x7d".toList

theorem commented_strip : SameOutcome (strip .none commented) commented := by
  have hbytes : commented.all (fun c => !isEof c) = true := by decide
  have hall : commented.inits.all (fun read => oddStars .none 0 read &&
      !joinsWords false false (reading read).lexemes) = true := by decide +kernel
  have hread : ∀ read rest, commented = read ++ rest →
      oddStars .none 0 read = true ∧ joinsWords false false (reading read).lexemes = false := by
    intro read rest h
    have hmem := List.all_eq_true.1 hall read ((List.mem_inits _ _).2 ⟨rest, h.symm⟩)
    rw [Bool.and_eq_true, Bool.not_eq_true'] at hmem
    exact hmem
  exact (parserParse_strip (by simpa using hbytes) fun read rest h _ => (hread read rest h).1).1
    fun read rest h _ => (hread read rest h).2

/-- A comment inside a name, and one that ends behind two stars: the parser reads one name and no
machine, a reader of C two words and a machine. -/
theorem comments_not_c :
    (parserParse "a/**/b\x7b\x7d".toList).map Fsm.name = ["ab".toList] ∧
      parserParse (strip .none "a/**/b\x7b\x7d".toList) = [] ∧
      parserParse "/***/a\x7b\x7d".toList = [] ∧
      (parserParse (strip .none "/***/a\x7b\x7d".toList)).map Fsm.name = ["a".toList] := by
  decide +kernel

end Outcome

end Estate.Cc
