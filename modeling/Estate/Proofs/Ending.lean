import Estate.Cc.Ending
import Estate.Proofs.Blocks

/-!
# Which files are read exactly

Every call of `_char_next_get` moves one byte on, so what is read of a file is told by the number
of the calls (`Finishes.ptrs`). A file without an error is read to the byte behind it unless a NUL
or a `0xff` ends it before (`Fate`), so the parser stays in a file that it accepts only when the
file ends with such a byte and has no other (`readsExactly_iff`).
-/

namespace Estate.Cc

section Finishes

variable {r r' : Cursor} {p q : Parser} {c : Char} {res : Except ParseError (Cursor × Parser)}
  {calls : List Cursor}

theorem charNextGet_ptr (h : charNextGet r = (some c, r')) : r.ptr = c :: r'.ptr := by
  rcases hptr : r.ptr with _ | ⟨d, ds⟩
  · simp [charNextGet_nil hptr] at h
  · by_cases hd : isEof d = true
    · simp [charNextGet_eof hptr hd] at h
    · obtain ⟨r₁, hg, hptr₁, -⟩ := charNextGet_char hptr (by simpa using hd)
      obtain ⟨hc, rfl⟩ := Prod.mk.inj (hg.symm.trans h)
      rw [Option.some.inj hc, hptr₁]

theorem charNextGet_tail : (charNextGet r).2.ptr = r.ptr.tail := by
  rcases hptr : r.ptr with _ | ⟨d, ds⟩
  · rw [charNextGet_nil hptr, hptr]
    rfl
  · by_cases hd : isEof d = true
    · rw [charNextGet_eof hptr hd]
      rfl
    · obtain ⟨r₁, hg, hptr₁, -⟩ := charNextGet_char hptr (by simpa using hd)
      rw [hg]
      exact hptr₁

/-- A dash that is not behind an origin fails before its point is asked for. -/
theorem parseRound_stray (hr : r.comments = .none)
    (hsm : (anonymousTransit p "TR_").sm ≠ .transitionFrom) :
    (parseRound r p '-').toOption = none := by
  have hc : charCase '-' = .dash := by decide
  unfold parseRound
  simp only [hr, special, hc, if_pos hsm, invalidChar, Except.map, Except.bind, Except.toOption]

/-- A round moves on by what it has asked for. -/
theorem parseRound_ptr (hp : p.Settled) (h : parseRound r p c = .ok (r', q)) :
    r'.ptr = r.ptr.drop (roundCalls r p c).length := by
  have hopt : (parseRound r p c).toOption = some (r', q) := by
    rw [h]
    rfl
  have htail := charNextGet_tail (r := r)
  rcases hg : charNextGet r with ⟨d, r₁⟩
  rw [hg] at htail
  unfold roundCalls
  rcases hm : r.comments <;> simp only
  case singleLine =>
    simp only [parseRound, hm] at h
    obtain rfl := (Prod.mk.inj (Except.ok.inj h)).1
    split_ifs <;> rfl
  case multipleLines =>
    simp only [parseRound, hm] at h
    by_cases hc : c = '*'
    · rw [if_pos hc, hg] at h
      rw [if_pos hc, List.length_singleton, List.drop_one, ← htail]
      split at h
      all_goals
        rename_i hd
        rw [← (Prod.mk.inj (Except.ok.inj h)).1, (Prod.mk.inj hd).2]
    · rw [if_neg hc] at h ⊢
      obtain rfl := (Prod.mk.inj (Except.ok.inj h)).1
      rfl
  case none =>
    by_cases hs : c = '/'
    · subst hs
      rw [if_pos (.inl rfl), List.length_singleton, List.drop_one, ← htail]
      by_cases h₁ : d = some '/'
      · rw [parseRound_singleLine hp hm (by rw [hg, h₁])] at h
        rw [← (Prod.mk.inj (Except.ok.inj h)).1]
      by_cases h₂ : d = some '*'
      · rw [parseRound_multipleLines hp hm (by rw [hg, h₂])] at h
        rw [← (Prod.mk.inj (Except.ok.inj h)).1]
      rw [parseRound_slash hm (by rwa [hg]) (by rwa [hg])] at hopt
      simp at hopt
    by_cases hd : c = '-'
    · subst hd
      by_cases hsm : (anonymousTransit p "TR_").sm = .transitionFrom
      · rw [if_pos (.inr ⟨rfl, hsm⟩), List.length_singleton, List.drop_one]
        by_cases hpoint : (charNextGet r).1 = some '>'
        · obtain ⟨ds, hptr⟩ := charNextGet_head hpoint
          rw [parseRound_arrow hm hptr] at hopt
          obtain ⟨q', -, he⟩ := Option.map_eq_some_iff.1 hopt
          rw [← (Prod.mk.inj he).1, hptr]
          rfl
        · rw [parseRound_dash hm hpoint] at hopt
          simp at hopt
      · rw [parseRound_stray hm hsm] at hopt
        simp at hopt
    · rw [parseRound_char hp hm hs hd] at hopt
      obtain ⟨q', -, he⟩ := Option.map_eq_some_iff.1 hopt
      rw [← (Prod.mk.inj he).1, if_neg (by tauto)]
      rfl

theorem settled_of_parseRound (hp : p.Settled) (h : parseRound r p c = .ok (r', q)) :
    q.Settled := by
  rcases parseRound_ok hp h with ⟨-, rfl⟩ | ⟨-, -, hstep⟩ | ⟨-, -, -, hstep⟩
  · exact hp
  · exact settled_of_step hp hstep
  · exact settled_of_step hp hstep

/-- The loop always ends. -/
theorem exists_finishes : ∀ {n : ℕ} {r : Cursor} {p : Parser}, r.ptr.length ≤ n → p.Settled →
    ∃ res calls, Finishes r p res calls := by
  intro n
  induction n with
  | zero =>
    intro r p h _
    exact ⟨_, _, .eof (charNextGet_nil (List.length_eq_zero_iff.1 (Nat.le_zero.1 h)))⟩
  | succ n ih =>
    intro r p h hp
    rcases hg : charNextGet r with ⟨_ | c, r₁⟩
    · exact ⟨_, _, .eof hg⟩
    · have hptr := charNextGet_ptr hg
      rcases hround : parseRound r₁ p c with e | ⟨r₂, q⟩
      · exact ⟨_, _, .fail hg hround⟩
      · have hdrop := parseRound_ptr hp hround
        have hlen : r₂.ptr.length ≤ n := by
          rw [hdrop, List.length_drop]
          rw [hptr, List.length_cons] at h
          omega
        obtain ⟨res, calls, hrest⟩ := ih hlen (settled_of_parseRound hp hround)
        exact ⟨_, _, .round hg hround hrest⟩

/-- The loop ends in one way only. -/
theorem Finishes.unique (h : Finishes r p res calls) : ∀ {res' calls'},
    Finishes r p res' calls' → res' = res ∧ calls' = calls := by
  induction h with
  | eof hg =>
    intro res' calls' h'
    cases h' with
    | eof hg' => simp_all
    | fail hg' _ => simp [hg] at hg'
    | round hg' _ _ => simp [hg] at hg'
  | fail hg hround =>
    intro res' calls' h'
    cases h' with
    | eof hg' => simp [hg] at hg'
    | fail hg' hround' => simp_all
    | round hg' hround' _ => simp_all
  | round hg hround _ ih =>
    intro res' calls' h'
    cases h' with
    | eof hg' => simp [hg] at hg'
    | fail hg' hround' => simp_all
    | round hg' hround' hrest =>
      obtain ⟨hc, rfl⟩ := Prod.mk.inj (hg.symm.trans hg')
      obtain rfl := Option.some.inj hc
      obtain ⟨rfl, rfl⟩ := Prod.mk.inj (Except.ok.inj (hround.symm.trans hround'))
      obtain ⟨rfl, rfl⟩ := ih hrest
      exact ⟨rfl, rfl⟩

/-- The loop with fuel enough for its text ends as the relation says. -/
theorem Finishes.parseLoop_eq (h : Finishes r p res calls) : ∀ {fuel : ℕ}, p.Settled →
    r.ptr.length < fuel → parseLoop fuel r p = res := by
  induction h with
  | eof hg =>
    intro fuel _ hlen
    obtain ⟨n, rfl⟩ := Nat.exists_eq_succ_of_ne_zero (Nat.ne_zero_of_lt hlen)
    rw [parseLoop, hg]
  | fail hg hround =>
    intro fuel _ hlen
    obtain ⟨n, rfl⟩ := Nat.exists_eq_succ_of_ne_zero (Nat.ne_zero_of_lt hlen)
    rw [parseLoop, hg]
    simp only [hround]
  | round hg hround _ ih =>
    intro fuel hp hlen
    obtain ⟨n, rfl⟩ := Nat.exists_eq_succ_of_ne_zero (Nat.ne_zero_of_lt hlen)
    rw [parseLoop, hg]
    simp only [hround]
    refine ih (settled_of_parseRound hp hround) ?_
    rw [parseRound_ptr hp hround, List.length_drop]
    rw [charNextGet_ptr hg, List.length_cons] at hlen
    omega

theorem roundCalls_cases : roundCalls r p c = [] ∨ roundCalls r p c = [r] := by
  unfold roundCalls
  rcases r.comments <;> simp only <;> (try split_ifs) <;> simp

/-- Every call moves one byte on. -/
theorem Finishes.ptrs (h : Finishes r p res calls) : p.Settled →
    calls.map Cursor.ptr = (List.range calls.length).map r.ptr.drop := by
  have hround : ∀ {r r' : Cursor} {p : Parser} {c : Char}, charNextGet r = (some c, r') →
      (r :: roundCalls r' p c).map Cursor.ptr =
        (List.range (r :: roundCalls r' p c).length).map r.ptr.drop := by
    intro r r' p c hg
    have hptr := charNextGet_ptr hg
    rcases roundCalls_cases (r := r') (p := p) (c := c) with hcalls | hcalls <;>
      simp [hcalls, List.range_succ, hptr]
  induction h with
  | eof hg =>
    intro _
    simp [List.range_succ]
  | fail hg _ =>
    intro _
    exact hround hg
  | round hg hok _ ih =>
    intro hp
    rw [List.map_append, hround hg, ih (settled_of_parseRound hp hok), parseRound_ptr hp hok,
      List.length_append, List.range_add, List.map_append, List.map_map]
    congr 1
    refine List.map_congr_left fun i _ => ?_
    rw [Function.comp_apply, List.drop_drop, charNextGet_ptr hg, List.length_cons,
      Nat.add_right_comm, List.drop_succ_cons]

theorem mem_readOffsets (h : Finishes r p res calls) (hp : p.Settled) {size i : ℕ}
    (hlen : r.ptr.length = size + 1) :
    i ∈ readOffsets size calls ↔ i < calls.length ∧ i ≤ size := by
  have hptr : ∀ x ∈ calls, ∃ j < calls.length, r.ptr.drop j = x.ptr := by
    intro x hx
    have hmem := List.mem_map_of_mem (f := Cursor.ptr) hx
    rw [h.ptrs hp] at hmem
    obtain ⟨j, hj, he⟩ := List.mem_map.1 hmem
    exact ⟨j, List.mem_range.1 hj, he⟩
  unfold readOffsets
  constructor
  · intro hi
    obtain ⟨x, hx, rfl⟩ := List.mem_map.1 hi
    obtain ⟨hmem, hne⟩ := List.mem_filter.1 hx
    obtain ⟨j, hj, he⟩ := hptr x hmem
    have hne' : x.ptr ≠ [] := by simpa using hne
    have hpos := List.length_pos_iff.2 hne'
    rw [← he, List.length_drop, hlen] at hpos ⊢
    omega
  · rintro ⟨hi, hle⟩
    have hmem : r.ptr.drop i ∈ calls.map Cursor.ptr := by
      rw [h.ptrs hp]
      exact List.mem_map.2 ⟨i, List.mem_range.2 hi, rfl⟩
    obtain ⟨x, hx, he⟩ := List.mem_map.1 hmem
    have hlen' : x.ptr.length = size + 1 - i := by rw [he, List.length_drop, hlen]
    refine List.mem_map.2 ⟨x, List.mem_filter.2 ⟨hx, ?_⟩, by omega⟩
    have hne : x.ptr ≠ [] := List.length_pos_iff.1 (by omega)
    simpa using hne

end Finishes

section Pieces

variable {r : Cursor} {p : Parser} {m m' : Comments} {u cs : List Char} {ls : List Lexeme}
  {res : Except ParseError (Cursor × Parser)} {calls : List Cursor}

/-- What one round reads of a text, with its lexeme, and how the comments stand around it. -/
inductive Piece : Comments → List Char → List Lexeme → Comments → Prop
  | char {c : Char} : isEof c = false → c ≠ '/' → c ≠ '-' → Piece .none [c] [charLexeme c] .none
  | line : Piece .none ['/', '/'] [.comment false] .singleLine
  | block : Piece .none ['/', '*'] [.comment true] .multipleLines
  | arrow : Piece .none ['-', '>'] [.mark .arrow] .none
  | lineEnd : Piece .singleLine ['\n'] [.white] .none
  | inLine {c : Char} : isEof c = false → c ≠ '\n' → Piece .singleLine [c] [] .singleLine
  | inLines {c : Char} : isEof c = false → c ≠ '*' → Piece .multipleLines [c] [] .multipleLines
  | close : Piece .multipleLines ['*', '/'] [] .none
  | star {c : Char} : c ≠ '/' → Piece .multipleLines ['*', c] [] .multipleLines

theorem Piece.lex_eq (h : Piece m u ls m') : lex isEof m (u ++ cs) =
    { lex isEof m' cs with lexemes := ls ++ (lex isEof m' cs).lexemes } := by
  cases h with
  | char hc hs hd => exact lex_char hc hs hd
  | line => exact lex_singleLine rfl
  | block => exact lex_multipleLines rfl
  | arrow => exact lex_arrow rfl
  | lineEnd => exact lex_lineEnd rfl
  | inLine hc hn => exact lex_inLine hc hn
  | inLines hc hs => exact lex_inLines hc hs
  | close => exact lex_close rfl
  | star hs => exact lex_star rfl hs

theorem passesEof_char {c : Char} (hc : isEof c = false) (hs : c ≠ '/') :
    passesEof .none (c :: cs) = passesEof .none cs := by
  rw [passesEof.eq_def .none (c :: cs)]
  simp only [hc, Bool.false_eq_true, if_false, if_neg hs]

theorem passesEof_inLines {c : Char} (hc : isEof c = false) (hs : c ≠ '*') :
    passesEof .multipleLines (c :: cs) = passesEof .multipleLines cs := by
  rw [passesEof.eq_def .multipleLines (c :: cs)]
  simp only [hc, Bool.false_eq_true, if_false, if_neg hs]

theorem passesEof_star {c : Char} (hs : c ≠ '/') :
    passesEof .multipleLines ('*' :: c :: cs) = (isEof c || passesEof .multipleLines cs) := by
  have hstar : isEof '*' = false := rfl
  rw [passesEof.eq_def .multipleLines ('*' :: c :: cs)]
  simp only [hstar, Bool.false_eq_true, if_false, if_true]

theorem Piece.passes_eq (h : Piece m u ls m') :
    passesEof m (u ++ cs) = (passesEof m u || passesEof m' cs) := by
  have hslash : isEof '/' = false := rfl
  cases h with
  | char hc hs hd =>
    rw [passesEof_char hc hs, passesEof_nil, Bool.false_or]
    exact passesEof_char hc hs
  | line => simp [passesEof, hslash]
  | block => simp [passesEof, hslash]
  | arrow =>
    have hdash : ∀ ds, passesEof .none ('-' :: '>' :: ds) = passesEof .none ds := fun ds =>
      (passesEof_char rfl (by decide)).trans (passesEof_char rfl (by decide))
    rw [hdash, passesEof_nil, Bool.false_or]
    exact hdash cs
  | lineEnd => simp [passesEof, show isEof '\n' = false from rfl]
  | inLine hc hn => simp [passesEof, hc, hn]
  | inLines hc hs =>
    rw [passesEof_inLines hc hs, passesEof_nil, Bool.false_or]
    exact passesEof_inLines hc hs
  | close => simp [passesEof, show isEof '*' = false from rfl]
  | star hs =>
    rw [passesEof_star hs, passesEof_nil, Bool.or_false]
    exact passesEof_star hs

/-- A text that dangles does so behind its first piece. -/
theorem Piece.dangles (h : Piece m u ls m') (hd : Dangles m (u ++ cs) p) :
    ∃ q, ls.foldlM Lexeme.step p = some q ∧ Dangles m' cs q := by
  obtain ⟨body, c, q, hcs, hunread, hcom, hrun, hlast⟩ := hd
  rcases List.eq_nil_or_concat cs with rfl | ⟨cs', d, rfl⟩
  · -- the last character of a piece is told by the piece
    exfalso
    rw [List.append_nil] at hcs
    have hc : c = '/' ∨ c = '-' := hlast.imp_right And.left
    have hsplit : ∀ v x, v ++ [x] = body ++ [c] → body = v ∧ x = c := by
      intro v x hx
      obtain ⟨rfl, hx⟩ := List.append_inj' hx rfl
      exact ⟨rfl, by simpa using hx⟩
    cases h with
    | char _ hs hd =>
      obtain ⟨-, rfl⟩ := hsplit [] _ hcs
      exact hc.elim hs hd
    | line =>
      obtain ⟨rfl, -⟩ := hsplit ['/'] _ hcs
      have hbad := @lex_slash isEof [] rfl (by simp) (by simp)
      simp [hbad, Reading.cons, Lexeme.step] at hrun
    | block =>
      obtain ⟨-, rfl⟩ := hsplit ['/'] _ hcs
      simp at hc
    | arrow =>
      obtain ⟨-, rfl⟩ := hsplit ['-'] _ hcs
      simp at hc
    | lineEnd =>
      obtain ⟨-, rfl⟩ := hsplit [] _ hcs
      simp at hc
    | inLine =>
      obtain ⟨rfl, -⟩ := hsplit [] _ hcs
      simp at hcom
    | inLines =>
      obtain ⟨rfl, -⟩ := hsplit [] _ hcs
      simp at hcom
    | close =>
      obtain ⟨rfl, -⟩ := hsplit ['*'] _ hcs
      simp [lex_star_nil (s := isEof) rfl] at hcom
    | star =>
      obtain ⟨rfl, -⟩ := hsplit ['*'] _ hcs
      simp [lex_star_nil (s := isEof) rfl] at hcom
  · rw [List.concat_eq_append, ← List.append_assoc] at hcs
    obtain ⟨rfl, hd⟩ := List.append_inj' hcs rfl
    obtain rfl : d = c := by simpa using hd
    rw [h.lex_eq] at hunread hcom hrun
    rw [List.foldlM_append] at hrun
    obtain ⟨q', hq', hrun⟩ := Option.bind_eq_some_iff.1 hrun
    exact ⟨q', hq', cs', d, q, List.concat_eq_append, hunread, hcom, hrun, hlast⟩

theorem Piece.dangles_append {q : Parser} (h : Piece m u ls m')
    (hq : ls.foldlM Lexeme.step p = some q) (hd : Dangles m' cs q) : Dangles m (u ++ cs) p := by
  obtain ⟨body, c, q', rfl, hunread, hcom, hrun, hlast⟩ := hd
  refine ⟨u ++ body, c, q', (List.append_assoc _ _ _).symm, ?_, ?_, ?_, hlast⟩
  · rw [h.lex_eq]
    exact hunread
  · rw [h.lex_eq]
    exact hcom
  · rw [h.lex_eq, List.foldlM_append, hq]
    exact hrun

theorem charNextGet_next {c : Char} (hptr : r.ptr = c :: cs) (hc : isEof c = false)
    (hn : c ≠ '\n') : ∃ r', charNextGet r = (some c, r') ∧ r'.ptr = cs ∧
      r'.comments = r.comments := by
  obtain ⟨r', hg, hptr', hcom⟩ := charNextGet_char hptr hc
  exact ⟨r', hg, hptr', by simpa [hn] using hcom⟩

/-- A round on a piece: the lexeme is refused, or the loop is behind the piece. -/
theorem Piece.round (h : Piece m u ls m') (hp : p.Settled) (hm : r.comments = m)
    (hptr : r.ptr = u ++ cs) : ∃ c r', charNextGet r = (some c, r') ∧
      (roundCalls r' p c).length < u.length ∧
      (ls.foldlM Lexeme.step p = none ∧ (∃ e, parseRound r' p c = .error e) ∨
        ∃ q r'', ls.foldlM Lexeme.step p = some q ∧ parseRound r' p c = .ok (r'', q) ∧
          r''.ptr = cs ∧ r''.comments = m' ∧
          (r :: roundCalls r' p c).length = u.length ∧
          ((∃ x ∈ r :: roundCalls r' p c, (charNextGet x).1 = none) ↔ passesEof m u = true)) := by
  -- a round whose result is the step of one lexeme
  have hlexeme : ∀ {c : Char} {r' r'' : Cursor} {l : Lexeme},
      (parseRound r' p c).toOption = (l.step p).map (r'', ·) →
        [l].foldlM Lexeme.step p = none ∧ (∃ e, parseRound r' p c = .error e) ∨
          ∃ q, [l].foldlM Lexeme.step p = some q ∧ parseRound r' p c = .ok (r'', q) := by
    intro c r' r'' l hround
    rcases hl : l.step p with _ | q <;> rcases hr : parseRound r' p c with e | ⟨r₁, q'⟩ <;>
      rw [hl, hr] at hround
    · exact .inl ⟨by simp [hl], e, rfl⟩
    · simp [Except.toOption] at hround
    · simp [Except.toOption] at hround
    · refine .inr ⟨q, by simp [hl], ?_⟩
      simp only [Except.toOption, Option.map_some, Option.some.injEq] at hround
      rw [hround]
  cases h with
  | @char c hc hs hd =>
    obtain ⟨r', hg, hptr', hcom⟩ := charNextGet_char hptr hc
    have hcom' : r'.comments = .none := by simpa [hm] using hcom
    have hcalls : roundCalls r' p c = [] := by simp [roundCalls, hcom', hs, hd]
    refine ⟨c, r', hg, by simp [hcalls], ?_⟩
    refine (hlexeme (parseRound_char hp hcom' hs hd)).imp_right ?_
    rintro ⟨q, hq, hround⟩
    refine ⟨q, r', hq, hround, hptr', hcom', by simp [hcalls], ?_⟩
    simp [hcalls, hg, passesEof_char hc hs]
  | line =>
    obtain ⟨r₁, hg, hptr₁, hcom⟩ :=
      charNextGet_next (show r.ptr = '/' :: '/' :: cs from hptr) rfl (by decide)
    obtain ⟨r₂, hg', hptr₂, -⟩ := charNextGet_next hptr₁ rfl (by decide)
    have hcalls : roundCalls r₁ p '/' = [r₁] := by simp [roundCalls, hcom, hm]
    refine ⟨'/', r₁, hg, by simp [hcalls], .inr ⟨p, _, rfl,
      parseRound_singleLine hp (hcom.trans hm) hg', hptr₂, rfl, by simp [hcalls], ?_⟩⟩
    simp [hcalls, hg, hg', passesEof, show isEof '/' = false from rfl]
  | block =>
    obtain ⟨r₁, hg, hptr₁, hcom⟩ :=
      charNextGet_next (show r.ptr = '/' :: '*' :: cs from hptr) rfl (by decide)
    obtain ⟨r₂, hg', hptr₂, -⟩ := charNextGet_next hptr₁ rfl (by decide)
    have hcalls : roundCalls r₁ p '/' = [r₁] := by simp [roundCalls, hcom, hm]
    refine ⟨'/', r₁, hg, by simp [hcalls], .inr ⟨p, _, rfl,
      parseRound_multipleLines hp (hcom.trans hm) hg', hptr₂, rfl, by simp [hcalls], ?_⟩⟩
    simp [hcalls, hg, hg', passesEof, show isEof '/' = false from rfl]
  | arrow =>
    obtain ⟨r₁, hg, hptr₁, hcom⟩ :=
      charNextGet_next (show r.ptr = '-' :: '>' :: cs from hptr) rfl (by decide)
    obtain ⟨r₂, hg', hptr₂, -⟩ := charNextGet_next hptr₁ rfl (by decide)
    have hcom' := hcom.trans hm
    refine ⟨'-', r₁, hg, ?_, (hlexeme (parseRound_arrow (p := p) hcom' hptr₁)).imp_right ?_⟩
    · rcases roundCalls_cases (r := r₁) (p := p) (c := '-') with hcalls | hcalls <;> simp [hcalls]
    · rintro ⟨q, hq, hok⟩
      have hsm : (anonymousTransit p "TR_").sm = .transitionFrom := by
        by_contra hsm
        have hstray := parseRound_stray hcom' hsm
        rw [hok] at hstray
        simp [Except.toOption] at hstray
      have hcalls : roundCalls r₁ p '-' = [r₁] := by simp [roundCalls, hcom', hsm]
      have hpass : passesEof .none ['-', '>'] = false :=
        (passesEof_char rfl (by decide)).trans ((passesEof_char rfl (by decide)).trans rfl)
      refine ⟨q, _, hq, hok, rfl, hcom', by simp [hcalls], ?_⟩
      simp [hcalls, hg, hg', hpass]
  | lineEnd =>
    obtain ⟨r', hg, hptr', hcom⟩ :=
      charNextGet_char (show r.ptr = '\n' :: cs from hptr) rfl
    have hcom' : r'.comments = .none := by simpa [hm] using hcom
    have hcalls : roundCalls r' p '\n' = [] := by simp [roundCalls, hcom']
    refine ⟨'\n', r', hg, by simp [hcalls], ?_⟩
    have hround := parseRound_char (c := '\n') hp hcom' (by decide) (by decide)
    rw [show charLexeme '\n' = .white by decide] at hround
    refine (hlexeme hround).imp_right ?_
    rintro ⟨q, hq, hround⟩
    refine ⟨q, r', hq, hround, hptr', hcom', by simp [hcalls], ?_⟩
    simp [hcalls, hg, passesEof, show isEof '\n' = false from rfl]
  | @inLine c hc hn =>
    obtain ⟨r', hg, hptr', hcom⟩ := charNextGet_next hptr hc hn
    have hcom' := hcom.trans hm
    have hround : parseRound r' p c = .ok (r', p) := by
      simp only [parseRound, hcom', if_neg hn]
    have hcalls : roundCalls r' p c = [] := by simp [roundCalls, hcom']
    refine ⟨c, r', hg, by simp [hcalls],
      .inr ⟨p, r', rfl, hround, hptr', hcom', by simp [hcalls], ?_⟩⟩
    simp [hcalls, hg, passesEof, hc, hn]
  | @inLines c hc hs =>
    obtain ⟨r', hg, hptr', hcom⟩ := charNextGet_char hptr hc
    have hcom' : r'.comments = .multipleLines := by simpa [hm] using hcom
    have hround : parseRound r' p c = .ok (r', p) := by
      simp only [parseRound, hcom', if_neg hs]
    have hcalls : roundCalls r' p c = [] := by simp [roundCalls, hcom', hs]
    refine ⟨c, r', hg, by simp [hcalls],
      .inr ⟨p, r', rfl, hround, hptr', hcom', by simp [hcalls], ?_⟩⟩
    simp [hcalls, hg, passesEof_inLines hc hs]
  | close =>
    obtain ⟨r₁, hg, hptr₁, hcom⟩ :=
      charNextGet_next (show r.ptr = '*' :: '/' :: cs from hptr) rfl (by decide)
    obtain ⟨r₂, hg', hptr₂, -⟩ := charNextGet_next hptr₁ rfl (by decide)
    have hround : parseRound r₁ p '*' = .ok ({ r₂ with comments := .none }, p) := by
      simp only [parseRound, hcom.trans hm, if_true, hg']
    have hcalls : roundCalls r₁ p '*' = [r₁] := by simp [roundCalls, hcom, hm]
    refine ⟨'*', r₁, hg, by simp [hcalls],
      .inr ⟨p, _, rfl, hround, hptr₂, rfl, by simp [hcalls], ?_⟩⟩
    simp [hcalls, hg, hg', passesEof, show isEof '*' = false from rfl]
  | @star c hs =>
    obtain ⟨r₁, hg, hptr₁, hcom⟩ :=
      charNextGet_next (show r.ptr = '*' :: c :: cs from hptr) rfl (by decide)
    obtain ⟨r₂, hround, hptr₂, hcom₂⟩ := parseRound_star (p := p) (hcom.trans hm) hptr₁ hs
    have hcalls : roundCalls r₁ p '*' = [r₁] := by simp [roundCalls, hcom, hm]
    refine ⟨'*', r₁, hg, by simp [hcalls],
      .inr ⟨p, r₂, rfl, hround, hptr₂, hcom₂, by simp [hcalls], ?_⟩⟩
    have hnone : (charNextGet r₁).1 = none ↔ isEof c = true := by
      by_cases hc : isEof c = true
      · simp [charNextGet_eof hptr₁ hc, hc]
      · obtain ⟨r₃, hg', -⟩ := charNextGet_char hptr₁ (by simpa using hc)
        simp [hg', hc]
    simp [hcalls, hg, hnone, passesEof_star hs]

/-- What a text may begin with. -/
inductive Begins : Comments → List Char → Prop
  | done {m : Comments} : Begins m []
  | eof {m : Comments} {c : Char} (cs : List Char) : isEof c = true → Begins m (c :: cs)
  | piece {m m' : Comments} {u : List Char} {ls : List Lexeme} (cs : List Char) :
      Piece m u ls m' → Begins m (u ++ cs)
  | slash {cs : List Char} : (∀ ds, cs ≠ '/' :: ds) → (∀ ds, cs ≠ '*' :: ds) →
      Begins .none ('/' :: cs)
  | dash {cs : List Char} : (∀ ds, cs ≠ '>' :: ds) → Begins .none ('-' :: cs)
  | star : Begins .multipleLines ['*']

theorem begins (m : Comments) : ∀ cs : List Char, Begins m cs
  | [] => .done
  | c :: cs => by
    by_cases he : isEof c = true
    · exact .eof cs he
    have he' : isEof c = false := by simpa using he
    rcases m
    case singleLine =>
      by_cases hn : c = '\n'
      · exact hn ▸ .piece cs .lineEnd
      · exact .piece cs (.inLine he' hn)
    case multipleLines =>
      by_cases hs : c = '*'
      · subst hs
        rcases cs with _ | ⟨d, ds⟩
        · exact .star
        · by_cases hd : d = '/'
          · exact hd ▸ .piece ds .close
          · exact .piece ds (.star hd)
      · exact .piece cs (.inLines he' hs)
    case none =>
      by_cases hs : c = '/'
      · subst hs
        by_cases h₁ : ∃ ds, cs = '/' :: ds
        · obtain ⟨ds, rfl⟩ := h₁
          exact .piece ds .line
        by_cases h₂ : ∃ ds, cs = '*' :: ds
        · obtain ⟨ds, rfl⟩ := h₂
          exact .piece ds .block
        exact .slash (not_exists.1 h₁) (not_exists.1 h₂)
      by_cases hd : c = '-'
      · subst hd
        by_cases h₁ : ∃ ds, cs = '>' :: ds
        · obtain ⟨ds, rfl⟩ := h₁
          exact .piece ds .arrow
        exact .dash (not_exists.1 h₁)
      exact .piece cs (.char he' hs hd)

end Pieces

section Fate

variable {r : Cursor} {p q : Parser} {m m' : Comments} {u cs : List Char} {ls : List Lexeme}
  {b : Char} {res : Except ParseError (Cursor × Parser)} {pre calls : List Cursor}

/-- What becomes of a text with one byte behind it. -/
inductive Fate (m : Comments) (cs : List Char) (p : Parser)
    (res : Except ParseError (Cursor × Parser)) (calls : List Cursor) : Prop
  /-- There is no error in it and nothing that ends it, and the byte is looked at. -/
  | passed : (lex isEof m cs).lexemes.foldlM Lexeme.step p ≠ none →
      (lex isEof m cs).unread = [] → cs.length < calls.length → Fate m cs p res calls
  /-- Its last character asks for the byte. -/
  | dangles : (lex isEof m cs).lexemes.foldlM Lexeme.step p = none → Dangles m cs p →
      cs.length < calls.length → Fate m cs p res calls
  /-- A parse error is found in it. -/
  | refused (e : ParseError) : (lex isEof m cs).lexemes.foldlM Lexeme.step p = none →
      ¬ Dangles m cs p → res = .error e → calls.length ≤ cs.length → Fate m cs p res calls
  /-- A byte of it ends the loop. -/
  | stops (q : Cursor × Parser) : (lex isEof m cs).lexemes.foldlM Lexeme.step p ≠ none →
      (lex isEof m cs).unread ≠ [] → res = .ok q →
      calls.length + (lex isEof m cs).unread.length = cs.length + 1 →
      ((∃ x ∈ calls.dropLast, (charNextGet x).1 = none) ↔ passesEof m cs = true) →
      Fate m cs p res calls

/-- What becomes of a text behind its first piece becomes of the whole text. -/
theorem Fate.cons (h : Fate m' cs q res calls) (hpiece : Piece m u ls m')
    (hq : ls.foldlM Lexeme.step p = some q) (hlen : pre.length = u.length) (hne : calls ≠ [])
    (hpass : (∃ x ∈ pre, (charNextGet x).1 = none) ↔ passesEof m u = true) :
    Fate m (u ++ cs) p res (pre ++ calls) := by
  have hrun : (lex isEof m (u ++ cs)).lexemes.foldlM Lexeme.step p =
      (lex isEof m' cs).lexemes.foldlM Lexeme.step q := by
    rw [hpiece.lex_eq, List.foldlM_append, hq]
    rfl
  have hunread : (lex isEof m (u ++ cs)).unread = (lex isEof m' cs).unread := by
    rw [hpiece.lex_eq]
  have hcs : (u ++ cs).length = u.length + cs.length := List.length_append
  have hcalls : (pre ++ calls).length = u.length + calls.length := by
    rw [List.length_append, hlen]
  cases h with
  | passed h₁ h₂ h₃ => exact .passed (hrun ▸ h₁) (hunread ▸ h₂) (by omega)
  | dangles h₁ h₂ h₃ => exact .dangles (hrun ▸ h₁) (hpiece.dangles_append hq h₂) (by omega)
  | refused e h₁ h₂ h₃ h₄ =>
    refine .refused e (hrun ▸ h₁) (fun hd => ?_) h₃ (by omega)
    obtain ⟨q', hq', hd'⟩ := hpiece.dangles hd
    obtain rfl := Option.some.inj (hq.symm.trans hq')
    exact h₂ hd'
  | stops q' h₁ h₂ h₃ h₄ h₅ =>
    refine .stops q' (hrun ▸ h₁) (hunread ▸ h₂) h₃ (by rw [hunread]; omega) ?_
    rw [List.dropLast_append_of_ne_nil hne, hpiece.passes_eq, Bool.or_eq_true, ← hpass, ← h₅]
    simp only [List.mem_append, or_and_right, exists_or]

/-- A slash or a dash that cannot be told refuses the text, unless it is its last character. -/
theorem not_dangles_of_bad {c : Char} {ds : List Char}
    (hbad : ∀ body, body <+: ds → (lex isEof .none (c :: body)).lexemes.head? = some .bad)
    (hlast : ds ≠ [] ∨ c = '-' ∧ (anonymousTransit p "TR_").sm ≠ .transitionFrom) :
    ¬ Dangles .none (c :: ds) p := by
  rintro ⟨body, d, q, hcs, -, -, hrun, hd⟩
  rcases body with _ | ⟨c', body⟩
  · obtain ⟨rfl, rfl⟩ := List.cons.inj hcs
    obtain rfl : p = q := by simpa using hrun
    rcases hlast with hne | ⟨rfl, hsm⟩
    · exact hne rfl
    · rcases hd with hd | ⟨-, hsm'⟩
      · simp at hd
      · exact hsm hsm'
  · obtain ⟨rfl, rfl⟩ := List.cons.inj hcs
    obtain ⟨ls, hls⟩ := List.head?_eq_some_iff.1 (hbad body (List.prefix_append _ _))
    rw [hls] at hrun
    simp [Lexeme.step] at hrun

theorem Finishes.length_le {c : Char} {r' : Cursor} (h : Finishes r p res calls)
    (hg : charNextGet r = (some c, r')) : 1 + (roundCalls r' p c).length ≤ calls.length := by
  cases h with
  | eof hg' => simp [hg] at hg'
  | fail hg' _ =>
    obtain ⟨hc, rfl⟩ := Prod.mk.inj (hg.symm.trans hg')
    obtain rfl := Option.some.inj hc
    rw [List.length_cons, Nat.add_comm]
  | round hg' _ _ =>
    obtain ⟨hc, rfl⟩ := Prod.mk.inj (hg.symm.trans hg')
    obtain rfl := Option.some.inj hc
    rw [List.length_append, List.length_cons]
    omega

theorem Finishes.ne_nil (h : Finishes r p res calls) : calls ≠ [] := by
  cases h <;> simp

theorem Finishes.of_error {c : Char} {r' : Cursor} (h : Finishes r p res calls)
    (hg : charNextGet r = (some c, r')) (hround : (parseRound r' p c).toOption = none) :
    ∃ e, res = .error e ∧ calls = r :: roundCalls r' p c := by
  cases h with
  | eof hg' => simp [hg] at hg'
  | @fail _ _ _ _ e hg' _ =>
    obtain ⟨hc, rfl⟩ := Prod.mk.inj (hg.symm.trans hg')
    obtain rfl := Option.some.inj hc
    exact ⟨e, rfl, rfl⟩
  | round hg' hok _ =>
    obtain ⟨hc, rfl⟩ := Prod.mk.inj (hg.symm.trans hg')
    obtain rfl := Option.some.inj hc
    simp [hok, Except.toOption] at hround

theorem passesEof_eof {c : Char} (hc : isEof c = true) : passesEof m (c :: cs) = false := by
  rcases m <;> rw [passesEof.eq_def] <;> simp only [hc, if_true]

/-- The head of a text with a byte behind it. -/
theorem head_ne {d : Char} {r' : Cursor} (hptr : r'.ptr = cs ++ [b]) (hne : cs ≠ [])
    (hd : ∀ ds, cs ≠ d :: ds) : (charNextGet r').1 ≠ some d := by
  intro h
  obtain ⟨ds, hds⟩ := charNextGet_head h
  rcases cs with _ | ⟨c, cs⟩
  · exact hne rfl
  · rw [hptr, List.cons_append, List.cons.injEq] at hds
    exact hd cs (hds.1 ▸ rfl)

/-- A dash or a slash behind which nothing follows that it needs. -/
theorem Fate.of_bad {c : Char} {r' : Cursor} (h : Finishes r p res calls) (hc : c = '/' ∨ c = '-')
    (hg : charNextGet r = (some c, r')) (hcom : r'.comments = .none)
    (hround : cs ≠ [] → (parseRound r' p c).toOption = none)
    (hbad : ∀ body, body <+: cs → (lex isEof .none (c :: body)).lexemes.head? = some .bad) :
    Fate .none (c :: cs) p res calls := by
  have hrefuse : (lex isEof .none (c :: cs)).lexemes.foldlM Lexeme.step p = none := by
    obtain ⟨ls, hls⟩ := List.head?_eq_some_iff.1 (hbad cs List.prefix_rfl)
    rw [hls]
    rfl
  -- the slash always asks for the next byte, the dash behind an origin only
  by_cases hask : c = '/' ∨ c = '-' ∧ (anonymousTransit p "TR_").sm = .transitionFrom
  · have hcalls : roundCalls r' p c = [r'] := by simp [roundCalls, hcom, hask]
    have hlen := h.length_le hg
    rw [hcalls, List.length_singleton] at hlen
    rcases cs with _ | ⟨d, ds⟩
    · refine .dangles hrefuse ⟨[], c, p, rfl, ?_, ?_, ?_, hask⟩ hlen
      · rw [lex_nil]
      · rw [lex_nil]
      · rw [lex_nil]
        rfl
    · obtain ⟨e, hres, rfl⟩ := h.of_error hg (hround (by simp))
      refine .refused e hrefuse (not_dangles_of_bad hbad (.inl (by simp))) hres ?_
      simp [hcalls]
  · obtain rfl : c = '-' := hc.resolve_left fun hs => hask (.inl hs)
    have hsm : (anonymousTransit p "TR_").sm ≠ .transitionFrom := fun hsm =>
      hask (.inr ⟨rfl, hsm⟩)
    obtain ⟨e, hres, rfl⟩ := h.of_error hg (parseRound_stray hcom hsm)
    refine .refused e hrefuse (not_dangles_of_bad hbad (.inr ⟨rfl, hsm⟩)) hres ?_
    simp [roundCalls, hcom, hsm]

/-- What becomes of a text: by pieces, up to where no piece begins. -/
theorem Finishes.fate : ∀ {n : ℕ} {cs : List Char} {m : Comments} {r : Cursor} {p : Parser}
    {res : Except ParseError (Cursor × Parser)} {calls : List Cursor}, cs.length ≤ n →
    Finishes r p res calls → p.Settled → r.comments = m → r.ptr = cs ++ [b] →
    Fate m cs p res calls := by
  intro n
  induction n using Nat.strong_induction_on with
  | _ n ih =>
    intro cs m r p res calls hn h hp hm hptr
    have hpos := List.length_pos_iff.2 h.ne_nil
    cases begins m cs with
    | done => exact .passed (by simp) (by simp) hpos
    | @eof _ c ds he =>
      have hg := charNextGet_eof hptr he
      cases h with
      | eof =>
        refine .stops _ ?_ ?_ rfl ?_ ?_
        · simp [lex_stop he]
        · simp [lex_stop he]
        · rw [lex_stop he, List.length_singleton, Nat.add_comm]
        · simp [passesEof_eof he]
      | fail hg' _ => simp [hg] at hg'
      | round hg' _ _ => simp [hg] at hg'
    | @piece _ m' u ls ds hpiece =>
      rw [List.append_assoc] at hptr
      obtain ⟨c, r', hg, hlen, hround⟩ := hpiece.round hp hm hptr
      rcases hround with ⟨hnone, e, hround⟩ | ⟨q, r'', hq, hround, hptr'', hcom, hlen', hpass⟩
      · obtain ⟨e', hres, rfl⟩ := h.of_error hg (by rw [hround]; rfl)
        refine .refused e' ?_ (fun hd => ?_) hres ?_
        · rw [hpiece.lex_eq, List.foldlM_append, hnone]
          rfl
        · obtain ⟨q, hq, -⟩ := hpiece.dangles hd
          simp [hnone] at hq
        · rw [List.length_cons, List.length_append]
          omega
      · cases h with
        | eof hg' => simp [hg] at hg'
        | fail hg' hround' =>
          obtain ⟨hc, rfl⟩ := Prod.mk.inj (hg.symm.trans hg')
          obtain rfl := Option.some.inj hc
          simp [hround] at hround'
        | round hg' hround' hrest =>
          obtain ⟨hc, rfl⟩ := Prod.mk.inj (hg.symm.trans hg')
          obtain rfl := Option.some.inj hc
          obtain ⟨rfl, rfl⟩ := Prod.mk.inj (Except.ok.inj (hround.symm.trans hround'))
          have hlt : ds.length < n := by
            rw [List.length_append] at hn
            omega
          exact (ih _ hlt le_rfl hrest (settled_of_parseRound hp hround) hcom hptr'').cons hpiece
            hq hlen' hrest.ne_nil hpass
    | @slash ds hs hst =>
      obtain ⟨r', hg, hptr', hcom⟩ :=
        charNextGet_next (show r.ptr = '/' :: (ds ++ [b]) from hptr) rfl (by decide)
      refine .of_bad h (.inl rfl) hg (hcom.trans hm) (fun hne => ?_) fun body hpre => ?_
      · exact parseRound_slash (hcom.trans hm) (head_ne hptr' hne hs) (head_ne hptr' hne hst)
      · obtain ⟨rest, rfl⟩ := hpre
        rw [lex_slash rfl (fun es he => hs (es ++ rest) (by rw [he]; rfl))
          fun es he => hst (es ++ rest) (by rw [he]; rfl)]
        rfl
    | @dash ds hd =>
      obtain ⟨r', hg, hptr', hcom⟩ :=
        charNextGet_next (show r.ptr = '-' :: (ds ++ [b]) from hptr) rfl (by decide)
      refine .of_bad h (.inr rfl) hg (hcom.trans hm) (fun hne => ?_) fun body hpre => ?_
      · exact parseRound_dash (hcom.trans hm) (head_ne hptr' hne hd)
      · obtain ⟨rest, rfl⟩ := hpre
        rw [lex_dash rfl fun es he => hd (es ++ rest) (by rw [he]; rfl)]
        rfl
    | star =>
      obtain ⟨r', hg, hptr', hcom⟩ :=
        charNextGet_next (show r.ptr = '*' :: [b] from hptr) rfl (by decide)
      have hlen := h.length_le hg
      have hcalls : roundCalls r' p '*' = [r'] := by simp [roundCalls, hcom.trans hm]
      rw [hcalls, List.length_singleton] at hlen
      exact .passed (by simp [lex_star_nil (s := isEof) rfl])
        (by simp [lex_star_nil (s := isEof) rfl]) hlen

end Fate

section File

variable {file src : List Char} {behind : Char} {res : Except ParseError (Cursor × Parser)}
  {calls : List Cursor}

theorem lex_nul : ∀ {n : ℕ} {cs : List Char} {m : Comments}, cs.length ≤ n →
    (lex isEof m (cs ++ ['\x00'])).lexemes = (lex isEof m cs).lexemes ∧
      (lex isEof m (cs ++ ['\x00'])).comments = (lex isEof m cs).comments := by
  have hnul : isEof '\x00' = true := rfl
  intro n
  induction n using Nat.strong_induction_on with
  | _ n ih =>
    intro cs m hn
    cases begins m cs with
    | done => simp [lex_stop hnul]
    | eof ds he => simp [lex_stop he]
    | @piece _ m' u ls ds hpiece =>
      have hpos : 0 < u.length := by cases hpiece <;> simp
      rw [List.length_append] at hn
      obtain ⟨hl, hc⟩ := @ih ds.length (by omega) ds m' le_rfl
      rw [List.append_assoc, hpiece.lex_eq, hpiece.lex_eq, hl, hc]
      exact ⟨rfl, rfl⟩
    | @slash ds hs hst =>
      obtain ⟨hl, hc⟩ := @ih ds.length (by simpa using hn) ds .none le_rfl
      have hne : ∀ d es, (∀ es, ds ≠ d :: es) → d ≠ '\x00' → ds ++ ['\x00'] ≠ d :: es := by
        intro d es hd hd' he
        rcases ds with _ | ⟨d', ds⟩
        · exact hd' (List.cons.inj he).1.symm
        · exact hd ds (by rw [(List.cons.inj he).1])
      rw [List.cons_append, lex_slash rfl hs hst, lex_slash rfl (fun es => hne _ es hs (by decide))
        fun es => hne _ es hst (by decide)]
      exact ⟨congrArg (Lexeme.bad :: ·) hl, hc⟩
    | @dash ds hd =>
      obtain ⟨hl, hc⟩ := @ih ds.length (by simpa using hn) ds .none le_rfl
      have hne : ∀ es, ds ++ ['\x00'] ≠ '>' :: es := by
        intro es he
        rcases ds with _ | ⟨d', ds⟩
        · simp at he
        · exact hd ds (by rw [(List.cons.inj he).1])
      rw [List.cons_append, lex_dash rfl hd, lex_dash rfl hne]
      exact ⟨congrArg (Lexeme.bad :: ·) hl, hc⟩
    | star =>
      rw [lex_star_nil rfl]
      exact ⟨by rw [List.cons_append, List.nil_append, lex_star rfl (by decide), lex_nil],
        by rw [List.cons_append, List.nil_append, lex_star rfl (by decide), lex_nil]⟩

/-- The run over a file is the run over its mapping with a NUL behind it. -/
theorem outcome_mapped (h : Finishes (mapped src '\x00') {} res calls) :
    outcome res = outcome (parseRun src) := by
  obtain ⟨hl, hc⟩ := @lex_nul _ src .none le_rfl
  have hrun := h.parseLoop_eq fresh_settled (Nat.lt_succ_self _)
  rw [← hrun, parseLoop_eq_run (Nat.lt_succ_self _) fresh_settled, parseRun_eq]
  show Reading.run (lex isEof .none (src ++ ['\x00'])) _ = (lex isEof .none src).run _
  simp only [Reading.run, hl, hc]

/-- What is read of a file, by the number of the calls. -/
theorem readsExactly_iff_calls (h : Finishes (mapped file behind) {} res calls) :
    ReadsExactly file behind ↔ calls.length ≤ file.length ∧
      ∀ q, res = .ok q → file.length ≤ calls.length ∧
        ∀ r ∈ calls.dropLast, (charNextGet r).1 ≠ none := by
  have hmem : ∀ i, i ∈ readOffsets file.length calls ↔ i < calls.length ∧ i ≤ file.length :=
    fun i => mem_readOffsets h fresh_settled (by simp [mapped])
  constructor
  · rintro ⟨-, hinside, hwhole, honce⟩
    refine ⟨?_, ?_⟩
    · by_contra hlt
      have hin := hinside _ _ h file.length ((hmem _).2 ⟨by omega, le_rfl⟩)
      omega
    · rintro q rfl
      refine ⟨?_, honce q calls h⟩
      by_contra hlt
      have hin := (hmem _).1 (hwhole q calls h (file.length - 1) (by omega))
      omega
  · rintro ⟨hle, hok⟩
    refine ⟨⟨res, calls, h⟩, ?_, ?_, ?_⟩
    · intro res' calls' h' i hi
      obtain ⟨-, rfl⟩ := h.unique h'
      have hin := (hmem i).1 hi
      omega
    · intro q calls' h' i hi
      obtain ⟨hres, rfl⟩ := h.unique h'
      have hge := (hok q hres.symm).1
      exact (hmem i).2 ⟨by omega, by omega⟩
    · intro q calls' h'
      obtain ⟨hres, rfl⟩ := h.unique h'
      exact (hok q hres.symm).2

theorem fate_mapped (h : Finishes (mapped file behind) {} res calls) :
    Fate .none file {} res calls :=
  h.fate le_rfl fresh_settled rfl rfl

theorem endsAtEof_iff :
    EndsAtEof src ↔ (reading src).unread.length = 1 ∧ passesEof .none src = false := by
  rw [List.length_eq_one_iff]
  rfl

/-- A file that is not refused is read exactly when its last byte, and none before it, ends it. -/
theorem readsExactly_accepted (hrun : ¬ Refused file) :
    ReadsExactly file behind ↔ EndsAtEof file := by
  obtain ⟨res, calls, h⟩ := exists_finishes (le_refl (mapped file behind).ptr.length) fresh_settled
  rw [readsExactly_iff_calls h, endsAtEof_iff]
  unfold reading
  cases fate_mapped h with
  | passed _ hunread hlen =>
    refine iff_of_false (fun hle => absurd hle.1 (by omega)) fun hone => ?_
    rw [hunread] at hone
    simp at hone
  | dangles hnone _ _ => exact absurd hnone hrun
  | refused _ hnone _ _ _ => exact absurd hnone hrun
  | stops q _ hunread hres hlen hpass =>
    have hpos := List.length_pos_iff.2 hunread
    have honce : passesEof .none file = false ↔
        ∀ r ∈ calls.dropLast, (charNextGet r).1 ≠ none := by
      rw [← Bool.not_eq_true, ← hpass]
      push Not
      rfl
    rw [honce]
    constructor
    · rintro ⟨-, hok⟩
      obtain ⟨hge, honce⟩ := hok q hres
      exact ⟨by omega, honce⟩
    · rintro ⟨hlast, honce⟩
      exact ⟨by omega, fun _ _ => ⟨by omega, honce⟩⟩

/-- A file that is refused is read exactly unless its last character asks for one more. -/
theorem readsExactly_refused (hrun : Refused file) :
    ReadsExactly file behind ↔ ¬ Dangles .none file {} := by
  obtain ⟨res, calls, h⟩ := exists_finishes (le_refl (mapped file behind).ptr.length) fresh_settled
  rw [readsExactly_iff_calls h]
  cases fate_mapped h with
  | passed hsome _ _ => exact absurd hrun hsome
  | dangles _ hd hlen => exact iff_of_false (fun hle => absurd hle.1 (by omega)) (not_not.2 hd)
  | refused e _ hd hres hlen => exact iff_of_true ⟨hlen, by simp [hres]⟩ hd
  | stops _ hsome _ _ _ _ => exact absurd hrun hsome

/-- The parser reads a file exactly, whatever byte stands behind it, when it refuses the file
before the end, or when the file ends with its only byte that the parser takes for its end. -/
theorem readsExactly_iff (file : List Char) (behind : Char) : ReadsExactly file behind ↔
    Refused file ∧ ¬ Dangles .none file {} ∨ ¬ Refused file ∧ EndsAtEof file := by
  by_cases hrun : Refused file
  · rw [readsExactly_refused hrun]
    simp [hrun]
  · rw [readsExactly_accepted hrun]
    simp [hrun]

/-- A file as it should be is read to the byte behind it; a NUL hides the rest of a file; and one
behind a star in a comment does not end it. -/
theorem not_readsExactly : ¬ ReadsExactly "m\x7b\x7d".toList '\x00' ∧
    ¬ ReadsExactly "m\x7b\x7d\x00n\x7b\x7d".toList '\x00' ∧
    ¬ ReadsExactly "/**\x00*/m\x7b\x7d\x00".toList '\x00' := by
  refine ⟨?_, ?_, ?_⟩
  all_goals
    rw [readsExactly_accepted (by unfold Refused; decide +kernel), endsAtEof_iff]
    decide +kernel

end File

end Estate.Cc
