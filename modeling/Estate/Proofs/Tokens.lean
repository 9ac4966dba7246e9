import Estate.Proofs.Step

/-!
# The tokens and the identifiers of a file

A mark hands the buffer over, and nothing else empties it. So the tokens are the identifiers when
a mark follows each of them; otherwise two identifiers share a token, or the last one is dropped.
-/

namespace Estate.Cc

section Handed

variable {p q : Parser} {m : Mark}

/-- What no mark changes before its token is looked at. -/
structure Prepared (p q : Parser) : Prop where
  buf : q.buf = p.buf
  handed : q.handed = p.handed
  parse : q.parse = p.parse
  f : q.f = p.f
  s : q.s = p.s

theorem anonymousTransit_frame (format : String) : Prepared p (anonymousTransit p format) := by
  unfold anonymousTransit
  split_ifs <;> exact ⟨rfl, rfl, rfl, rfl, rfl⟩

theorem prepare_frame (h : m.prepare p = some q) : Prepared p q := by
  rcases prepare_cases h with ⟨-, format, -, rfl⟩ | ⟨-, bs, b, rfl⟩
  · obtain ⟨h₁, h₂, h₃, h₄, h₅⟩ := anonymousTransit_frame (p := p) format
    exact ⟨h₁, h₂, h₃, h₄, h₅⟩
  · exact ⟨rfl, rfl, rfl, rfl, rfl⟩

theorem leave_frame (h : p.leave = some q) : q.buf = p.buf ∧ q.handed = p.handed := by
  unfold Parser.leave at h
  rcases hb : blockLeave p.blocks p.sm with _ | b
  · simp [hb] at h
  · simp only [hb, Option.map_some, Option.some.injEq] at h
    exact h ▸ ⟨rfl, rfl⟩

theorem hand_frame : p.hand.buf = p.buf ∧ p.hand.handed = p.handed ++ ended p.buf := by
  by_cases hb : p.buf = [] <;> simp [Parser.hand, ended, hb]

/-- What a mark does: the token is looked at, and a block may end. -/
theorem mark_ok (h : (Lexeme.mark m).step p = some q) :
    ∃ p₁ q₁, m.prepare p = some p₁ ∧ TokenStep p₁.hand m.char q₁ ∧
      (q₁.leaveBlock = false ∧ q = q₁.clear ∨
        q₁.leaveBlock = true ∧ q₁.clear.leave = some q) := by
  rw [step_mark] at h
  obtain ⟨p₁, hp₁, h⟩ := Option.bind_eq_some_iff.1 h
  obtain ⟨q₁, hq₁, h⟩ := Option.bind_eq_some_iff.1 h
  refine ⟨p₁, q₁, hp₁, tokenStep_of_token (c := m.char) ?_, ?_⟩
  · rcases ht : token p₁.hand m.char with e | q'
    · simp [ht, Except.toOption] at hq₁
    · simp only [ht, Except.toOption, Option.some.injEq] at hq₁
      rw [hq₁]
  · split_ifs at h with hl
    · exact .inr ⟨hl, h⟩
    · exact .inl ⟨by simpa using hl, (Option.some.inj h).symm⟩

/-- What holds of a parser after every part of a step but the reading of a character. -/
structure Kept (P : Parser → Prop) : Prop where
  blank : ∀ {p : Parser}, P p → P { p with stopWord := true }
  prepared : ∀ {p q : Parser} {m : Mark}, P p → m.prepare p = some q → P q
  handed : ∀ {p : Parser}, P p → P { p with handed := p.handed ++ [p.buf] }
  looked : ∀ {p q : Parser} {c : Char}, P p → TokenStep p c q → P q
  cleared : ∀ {p : Parser}, P p → P p.clear
  left : ∀ {p q : Parser}, P p → p.leave = some q → P q

/-- Then every step keeps it, if a character does. -/
theorem Kept.step {P : Parser → Prop} (hP : Kept P) {l : Lexeme} (hp : p.Settled) (h : P p)
    (hword : ∀ c, l = .word c → ¬ (charCase c = .digit ∧ p.buf = []) →
      P { p with buf := p.buf ++ [c] }) (hq : l.step p = some q) : P q := by
  rcases l with _ | c | m | _ | _ | _
  case white =>
    rw [step_white hp] at hq
    obtain rfl := Option.some.inj hq
    split_ifs
    · exact hP.blank h
    · exact h
  case word =>
    obtain ⟨hstart, -, -, rfl⟩ := step_word.1 hq
    exact hword c rfl hstart
  case mark =>
    obtain ⟨p₁, q₁, hprep, htok, hq⟩ := mark_ok hq
    have hhand : P p₁.hand := by
      unfold Parser.hand
      split_ifs
      · exact hP.handed (hP.prepared h hprep)
      · exact hP.prepared h hprep
    have hclear : P q₁.clear := hP.cleared (hP.looked hhand htok)
    rcases hq with ⟨-, rfl⟩ | ⟨-, hl⟩
    · exact hclear
    · exact hP.left hclear hl
  case blockEnd =>
    rw [step_blockEnd hp] at hq
    exact hP.left h hq
  case comment => exact Option.some.inj hq ▸ h
  case bad => simp [Lexeme.step] at hq

theorem mark_handed (h : (Lexeme.mark m).step p = some q) :
    q.buf = [] ∧ q.handed = p.handed ++ ended p.buf := by
  obtain ⟨p₁, q₁, hp, ht, hq⟩ := mark_ok h
  obtain ⟨hb, hh, -, -, -⟩ := prepare_frame hp
  obtain ⟨hb', hh'⟩ := hand_frame (p := p₁)
  have hq₁ : q₁.handed = p.handed ++ ended p.buf := by
    rw [ht.frame.1.handed, hh', hh, hb]
  rcases hq with ⟨-, rfl⟩ | ⟨-, hl⟩
  · exact ⟨rfl, hq₁⟩
  · obtain ⟨h₁, h₂⟩ := leave_frame hl
    exact ⟨h₁, h₂.trans hq₁⟩

/-- The tokens handed over along a reading, `buf` being the one begun. -/
def tokens (buf : List Char) : List Lexeme → List (List Char)
  | [] => []
  | .word c :: ls => tokens (buf ++ [c]) ls
  | .mark _ :: ls => ended buf ++ tokens [] ls
  | _ :: ls => tokens buf ls

theorem handed_eq_tokens : ∀ {ls : List Lexeme} {p q : Parser}, p.Settled →
    ls.foldlM Lexeme.step p = some q → q.handed = p.handed ++ tokens p.buf ls
  | [], p, q, _, h => by
    rw [← Option.some.inj h]
    simp [tokens]
  | l :: ls, p, q, hp, h => by
    rw [List.foldlM_cons] at h
    obtain ⟨p₁, hl, h⟩ := Option.bind_eq_some_iff.1 h
    have ih := handed_eq_tokens (settled_of_step hp hl) h
    rcases l with _ | c | m | _ | _ | _
    case white =>
      rw [step_white hp] at hl
      rw [ih, ← Option.some.inj hl]
      split_ifs <;> rfl
    case word =>
      obtain ⟨-, -, -, rfl⟩ := step_word.1 hl
      rw [ih]
      rfl
    case mark =>
      obtain ⟨hb, hh⟩ := mark_handed hl
      rw [ih, hb, hh, List.append_assoc]
      rfl
    case blockEnd =>
      rw [step_blockEnd hp] at hl
      obtain ⟨hb, hh⟩ := leave_frame hl
      rw [ih, hb, hh]
      rfl
    case comment =>
      rw [ih, ← Option.some.inj hl]
      rfl
    case bad => simp [Lexeme.step] at hl

end Handed

/-! ## Tokens against runs -/

section Runs

theorem ended_nil : ended [] = [] := rfl

theorem ended_of_ne {w : List Char} (hw : w ≠ []) : ended w = [w] := if_neg hw

/-- The first token extends the one begun. -/
theorem prefix_of_tokens {t : List Char} {ts : List (List Char)} : ∀ {ls : List Lexeme}
    {w : List Char}, w ≠ [] → tokens w ls = t :: ts → w <+: t
  | [], w, _, h => by simp [tokens] at h
  | l :: ls, w, hw, h => by
    rcases l with _ | c | m | _ | _ | _
    case word =>
      have h' := prefix_of_tokens (w := w ++ [c]) (by simp) h
      exact (List.prefix_append w [c]).trans h'
    case mark =>
      simp only [tokens, ended_of_ne hw, List.cons_append, List.nil_append, List.cons.injEq] at h
      exact h.1 ▸ List.prefix_rfl
    all_goals exact @prefix_of_tokens t ts ls w hw h

/-- The tokens along a reading are its runs when every run is marked. A reading starts outside a
run, inside one, or behind one that no mark has ended yet. -/
theorem tokens_eq_runs_iff : ∀ ls : List Lexeme,
    (tokens [] ls = runs [] ls ↔ runsMarked ls = true) ∧
      ∀ w, w ≠ [] →
        (tokens w ls = runs w ls ↔ ((startsRun ls || markFirst ls) && runsMarked ls) = true) ∧
          (tokens w ls = w :: runs [] ls ↔ (markFirst ls && runsMarked ls) = true)
  | [] => by
    refine ⟨by simp [tokens, runs, ended, runsMarked], fun w hw => ?_⟩
    simp [tokens, runs, ended_of_ne hw, startsRun, markFirst]
  | l :: ls => by
    obtain ⟨hidle, hrun⟩ := tokens_eq_runs_iff ls
    rcases l with _ | c | m | _ | _ | _
    case word =>
      refine ⟨(hrun [c] (by simp)).1, fun w hw => ⟨?_, ?_⟩⟩
      · exact (hrun (w ++ [c]) (by simp)).1
      · refine iff_of_false (fun h => ?_) (by simp [markFirst])
        have hpre := prefix_of_tokens (w := w ++ [c]) (by simp) h
        have hlen := hpre.length_le
        rw [List.length_append, List.length_singleton] at hlen
        omega
    case mark =>
      refine ⟨hidle, fun w hw => ?_⟩
      simp only [tokens, runs, ended_of_ne hw, startsRun, markFirst, runsMarked, Bool.or_true,
        Bool.true_and, List.cons_append, List.nil_append, List.cons.injEq, true_and, ended_nil]
      exact ⟨hidle, hidle⟩
    all_goals
      refine ⟨hidle, fun w hw => ?_⟩
      simp only [tokens, runs, ended_of_ne hw, startsRun, markFirst, runsMarked, Bool.false_or,
        List.cons_append, List.nil_append, ended_nil]
      exact ⟨(hrun w hw).2, (hrun w hw).2⟩

theorem wordChars_cons_word {c : Char} {ls : List Lexeme} :
    wordChars (.word c :: ls) = c :: wordChars ls := rfl

theorem flatten_runs : ∀ {ls : List Lexeme} {w : List Char},
    (runs w ls).flatten = w ++ wordChars ls
  | [], w => by
    by_cases hw : w = [] <;> simp [runs, ended, wordChars, hw]
  | l :: ls, w => by
    have hend : (ended w).flatten = w := by
      by_cases hw : w = [] <;> simp [ended, hw]
    rcases l with _ | c | m | _ | _ | _
    case word => rw [runs, flatten_runs, wordChars_cons_word, List.append_assoc]; rfl
    all_goals
      show (ended w ++ runs [] ls).flatten = _
      rw [List.flatten_append, hend, flatten_runs]
      rfl

theorem length_flatten_tokens : ∀ (ls : List Lexeme) (w : List Char),
    (tokens w ls).flatten.length ≤ w.length + (wordChars ls).length
  | [], w => by simp [tokens]
  | l :: ls, w => by
    rcases l with _ | c | m | _ | _ | _
    case word =>
      have ih := length_flatten_tokens ls (w ++ [c])
      rw [wordChars_cons_word]
      simp only [tokens, List.length_append, List.length_cons, List.length_nil] at ih ⊢
      omega
    case mark =>
      have ih := length_flatten_tokens ls []
      have hend : (ended w).flatten.length ≤ w.length := by
        by_cases hw : w = [] <;> simp [ended, hw]
      show (ended w ++ tokens [] ls).flatten.length ≤ w.length + (wordChars ls).length
      rw [List.flatten_append, List.length_append]
      simp only [List.length_nil] at ih
      omega
    all_goals exact length_flatten_tokens ls w

/-- Without identifier characters behind it, a reading keeps its runs. -/
theorem runs_append_of_no_word {rest : List Lexeme} (h : wordChars rest = []) :
    ∀ {ls : List Lexeme} {w : List Char}, runs w (ls ++ rest) = runs w ls
  | [], w => by
    have hno : ∀ {rest : List Lexeme} {w}, wordChars rest = [] → runs w rest = ended w := by
      intro rest
      induction rest with
      | nil => intro w _; rfl
      | cons l rest ih =>
        intro w h
        rcases l with _ | c | m | _ | _ | _
        case word => simp [wordChars_cons_word] at h
        all_goals
          show ended w ++ runs [] rest = ended w
          rw [ih h, ended_nil, List.append_nil]
    exact hno h
  | l :: ls, w => by
    rcases l with _ | c | m | _ | _ | _
    case word => exact @runs_append_of_no_word rest h ls _
    all_goals
      show ended w ++ runs [] (ls ++ rest) = ended w ++ runs [] ls
      rw [runs_append_of_no_word h]

end Runs

/-! ## The whole text -/

section Text

/-- What lies behind the byte that ends a file. -/
def beyond (src : List Char) : List Lexeme :=
  (lex (fun _ => false) (reading src).comments (reading src).unread).lexemes

theorem lex_unread (stop : Char → Bool) (comments : Comments) (cs : List Char) :
    (lex (fun _ => false) comments cs).lexemes = (lex stop comments cs).lexemes ++
      (lex (fun _ => false) (lex stop comments cs).comments
        (lex stop comments cs).unread).lexemes := by
  have hcons : ∀ {l : Lexeme} {rd : Reading} {rest : List Lexeme}, rest = rd.lexemes ++
      (lex (fun _ => false) rd.comments rd.unread).lexemes → l :: rest = (rd.cons l).lexemes ++
        (lex (fun _ => false) (rd.cons l).comments (rd.cons l).unread).lexemes := by
    intro l rd rest h
    rw [h]
    rfl
  fun_induction lex stop comments cs
  case case1 => simp
  case case2 => rfl
  case case3 ih => exact lex_singleLine (s := fun _ => false) rfl ▸ hcons ih
  case case4 ih => exact lex_multipleLines (s := fun _ => false) rfl ▸ hcons ih
  case case5 h₁ h₂ _ ih => exact lex_slash (s := fun _ => false) rfl h₁ h₂ ▸ hcons ih
  case case6 ih => exact lex_arrow (s := fun _ => false) rfl ▸ hcons ih
  case case7 h _ _ ih => exact lex_dash (s := fun _ => false) rfl h ▸ hcons ih
  case case8 hs hd ih => exact lex_char (s := fun _ => false) rfl hs hd ▸ hcons ih
  case case9 => rfl
  case case10 ih => exact lex_lineEnd (s := fun _ => false) rfl ▸ hcons ih
  case case11 hn ih => exact (congrArg Reading.lexemes (lex_inLine (s := fun _ => false) rfl hn)).trans ih
  case case12 => rfl
  case case13 => rfl
  case case14 ih => exact (congrArg Reading.lexemes (lex_close (s := fun _ => false) rfl)).trans ih
  case case15 h _ ih => exact (congrArg Reading.lexemes (lex_star (s := fun _ => false) rfl h)).trans ih
  case case16 hs ih => exact (congrArg Reading.lexemes (lex_inLines (s := fun _ => false) rfl hs)).trans ih

/-- What is handed to the state machine for a file that is read to its end. -/
theorem handed_eq {src : List Char} {r : Cursor} {p : Parser} (h : parseRun src = .ok (r, p)) :
    p.handed = tokens [] (reading src).lexemes := by
  have hrun := parseRun_eq src
  rw [h] at hrun
  obtain ⟨q, hq, he⟩ := Option.map_eq_some_iff.1 hrun.symm
  have hp : q = p := (Prod.mk.inj he).2
  rw [← hp]
  exact handed_eq_tokens fresh_settled hq

/-- The tokens of a file that is read to its end are its identifiers exactly when a mark follows
each identifier that is read, and there is no identifier behind the byte that ends the file. -/
theorem handed_eq_identifiers_iff {src : List Char} {r : Cursor} {p : Parser}
    (h : parseRun src = .ok (r, p)) :
    p.handed = identifiers src ↔
      runsMarked (reading src).lexemes = true ∧ wordChars (beyond src) = [] := by
  have hsplit : identifiers src = runs [] ((reading src).lexemes ++ beyond src) :=
    congrArg (runs []) (lex_unread isEof .none src)
  have hmark := (tokens_eq_runs_iff (reading src).lexemes).1
  rw [handed_eq h, hsplit]
  by_cases hb : wordChars (beyond src) = []
  · rw [runs_append_of_no_word hb, hmark, and_iff_left hb]
  · refine iff_of_false (fun he => hb ?_) (fun he => hb he.2)
    have hlen := length_flatten_tokens (reading src).lexemes []
    rw [he, flatten_runs] at hlen
    have happ : wordChars ((reading src).lexemes ++ beyond src) =
        wordChars (reading src).lexemes ++ wordChars (beyond src) := List.filterMap_append
    simp only [happ, List.length_append, List.nil_append, List.length_nil] at hlen
    exact List.length_eq_zero_iff.1 (by omega)

/-- A parser that reads its file to the end. -/
theorem exists_parseRun {src : List Char} (h : (parseRun src).toOption.isSome = true) :
    ∃ r p, parseRun src = .ok (r, p) := by
  rcases hr : parseRun src with e | ⟨r, p⟩
  · rw [hr] at h
    simp [Except.toOption] at h
  · exact ⟨r, p, rfl⟩

/-- A machine with one key. -/
def oneKey : List Char := "m\x7bdata\x7bglobal:x;\x7d\x7d".toList

theorem handed_eq_identifiers_oneKey : ∃ r p, parseRun oneKey = .ok (r, p) ∧
    p.handed = identifiers oneKey := by
  obtain ⟨r, p, h⟩ := exists_parseRun (show (parseRun oneKey).toOption.isSome = true by decide_cbv)
  exact ⟨r, p, h, (handed_eq_identifiers_iff h).2 (by decide_cbv)⟩

/-- The value of the property is not handed over at its closing brace: it becomes the start of the
name of the next machine. -/
def unendedValue : List Char := "m\x7bdata\x7bglobal:x\x7d\x7d\x7dy\x7b\x7d".toList

theorem unendedValue_merged :
    (parserParse unendedValue).map Fsm.name = ["m".toList, "xy".toList] ∧
      identifiers unendedValue =
        ["m".toList, "data".toList, "global".toList, "x".toList, "y".toList] ∧
      (parseRun unendedValue).toOption.map (fun q => q.2.handed) ≠
        some (identifiers unendedValue) := by
  decide_cbv

end Text

end Estate.Cc
