import Estate.Proofs.Ending

/-!
# Where a parse error is

A round looks at the bytes that it reads and at nothing behind them (`parseRound_withPtr`), so what
has been read when an error is found decides the error, and its place is the last byte of that.
-/

namespace Estate.Cc

/-- A line and a column, as `p->line` and `p->col` count them. -/
structure Place where
  line : UInt32 := 1
  col : UInt32 := 1
  deriving DecidableEq

def Cursor.place (r : Cursor) : Place := ⟨r.line, r.col⟩

/-- The place behind a byte. -/
def Place.next (x : Place) (c : Char) : Place :=
  if isEof c then x else if c = '\n' then ⟨x.line + 1, 1⟩ else { x with col := x.col + 1 }

/-- The characters of the last line of a text, the last one first. -/
def lastLine (cs : List Char) : List Char :=
  (cs.reverse.filter fun c => !isEof c).takeWhile (· ≠ '\n')

/-- The error names the last character of a text: its line, and its column there, where a newline
has the column 0, both as an `unsigned int` holds them. -/
def ParseError.Names (e : ParseError) (cs : List Char) : Prop :=
  e.line = UInt32.ofNat (1 + cs.count '\n') ∧ e.col = UInt32.ofNat (lastLine cs).length

/-- Whatever follows the text, the parser refuses it with this error. -/
def Decides (cs : List Char) (e : ParseError) : Prop := ∀ more, parseRun (cs ++ more) = .error e

section Byte

variable {r : Cursor} {d : Char} {rest more cs : List Char} {x : Place}

/-- The cursor before another text. -/
abbrev Cursor.withPtr (r : Cursor) (cs : List Char) : Cursor := { r with ptr := cs }

theorem charNextGet_withPtr (h : r.ptr = d :: rest) :
    charNextGet (r.withPtr (d :: more)) = ((charNextGet r).1, (charNextGet r).2.withPtr more) := by
  simp only [charNextGet, h]
  split_ifs <;> rfl

theorem charNextGet_place : (charNextGet r).2.place = (r.ptr.take 1).foldl Place.next r.place := by
  rcases hptr : r.ptr with _ | ⟨d, rest⟩
  · rw [charNextGet_nil hptr]
    rfl
  · simp only [charNextGet, hptr, List.take_succ_cons, List.take_zero, List.foldl_cons,
      List.foldl_nil, Place.next, isEof, decide_eq_true_eq]
    split_ifs <;> rfl

theorem foldl_next_line (cs : List Char) (x : Place) :
    (cs.foldl Place.next x).line = x.line + UInt32.ofNat (cs.count '\n') := by
  induction cs generalizing x with
  | nil => exact (UInt32.add_zero _).symm
  | cons c cs ih =>
    rw [List.foldl_cons, ih, List.count_cons]
    unfold Place.next
    by_cases hn : c = '\n'
    · subst hn
      have heof : isEof '\n' = false := rfl
      simp only [heof, Bool.false_eq_true, if_false, if_true, beq_self_eq_true, UInt32.ofNat_add]
      rw [UInt32.add_assoc, UInt32.add_comm 1]
      rfl
    · have hne : (c == '\n') = false := by simpa using hn
      simp only [hne, Bool.false_eq_true, if_false, if_neg hn, add_zero]
      split_ifs <;> rfl

theorem foldl_next_col (cs : List Char) :
    (cs.foldl Place.next {}).col = UInt32.ofNat (lastLine cs).length + 1 := by
  induction cs using List.reverseRecOn with
  | nil => rfl
  | append_singleton cs c ih =>
    rw [List.foldl_append, List.foldl_cons, List.foldl_nil, Place.next]
    unfold lastLine at ih ⊢
    rw [List.reverse_append, List.reverse_singleton, List.singleton_append, List.filter_cons]
    by_cases heof : isEof c = true
    · simpa only [heof, if_true, Bool.not_true, Bool.false_eq_true, if_false] using ih
    · by_cases hn : c = '\n'
      · subst hn
        have hend : isEof '\n' = false := rfl
        simp [hend]
      · simp only [heof, hn, Bool.false_eq_true, if_false, Bool.not_false, if_true,
          List.takeWhile_cons, ne_eq, not_false_eq_true, decide_true, List.length_cons, ih,
          UInt32.ofNat_add]
        rfl

end Byte

section Round

variable {r r' : Cursor} {p q : Parser} {c : Char} {e : ParseError} {u rest more : List Char}

theorem slash_case : charCase '/' = .slash := by decide

theorem dash_case : charCase '-' = .dash := by decide

/-- The switch looks at the bytes that it asks for only. -/
theorem special_withPtr (hr : r.comments = .none) (hlen : u.length = (roundCalls r p c).length)
    (hptr : r.ptr = u ++ rest) :
    special (r.withPtr (u ++ more)) p c = ((special r p c).1.withPtr more, (special r p c).2) := by
  rw [roundCalls, hr] at hlen
  simp only at hlen
  by_cases hs : c = '/'
  · subst hs
    rw [if_pos (.inl rfl), List.length_singleton] at hlen
    obtain ⟨d, rfl⟩ := List.length_eq_one_iff.1 hlen
    simp only [special, slash_case, List.singleton_append, charNextGet_withPtr hptr]
    rcases charNextGet r with ⟨o, r₁⟩
    by_cases h₁ : o = some '/'
    · subst h₁
      rfl
    by_cases h₂ : o = some '*'
    · subst h₂
      rfl
    simp only
  by_cases hd : c = '-'
  · subst hd
    by_cases hsm : (anonymousTransit p "TR_").sm = .transitionFrom
    · rw [if_pos (.inr ⟨rfl, hsm⟩), List.length_singleton] at hlen
      obtain ⟨d, rfl⟩ := List.length_eq_one_iff.1 hlen
      simp only [special, dash_case, hsm, ne_eq, not_true_eq_false, if_false,
        List.singleton_append, charNextGet_withPtr hptr]
      rcases charNextGet r with ⟨o, r₁⟩
      by_cases h₁ : o = some '>'
      · subst h₁
        rfl
      simp only
    · rw [if_neg (by tauto)] at hlen
      obtain rfl := List.length_eq_zero_iff.1 hlen
      simp only [special, dash_case, ne_eq, hsm, not_false_eq_true, if_true]
      rfl
  · rw [if_neg (by tauto)] at hlen
    obtain rfl := List.length_eq_zero_iff.1 hlen
    rw [special_frame hs hd, special_frame (r := r) hs hd]
    rfl

/-- The switch stops behind the bytes that it asks for. -/
theorem special_place (hr : r.comments = .none) : (special r p c).1.place =
    (r.ptr.take (roundCalls r p c).length).foldl Place.next r.place := by
  have hplace := charNextGet_place (r := r)
  rw [roundCalls, hr]
  simp only
  by_cases hs : c = '/'
  · subst hs
    rw [if_pos (.inl rfl), List.length_singleton, ← hplace]
    simp only [special, slash_case]
    rcases charNextGet r with ⟨o, r₁⟩
    split <;> simp_all [Cursor.place]
  by_cases hd : c = '-'
  · subst hd
    by_cases hsm : (anonymousTransit p "TR_").sm = .transitionFrom
    · rw [if_pos (.inr ⟨rfl, hsm⟩), List.length_singleton, ← hplace]
      simp only [special, dash_case, hsm, ne_eq, not_true_eq_false, if_false]
      rcases charNextGet r with ⟨o, r₁⟩
      split <;> simp_all
    · rw [if_neg (by tauto)]
      simp only [special, dash_case, ne_eq, hsm, not_false_eq_true, if_true]
      rfl
  · rw [if_neg (by tauto), special_frame hs hd]
    rfl

/-- A round looks at the bytes that it asks for only. -/
theorem parseRound_withPtr (hlen : u.length = (roundCalls r p c).length)
    (hptr : r.ptr = u ++ rest) : parseRound (r.withPtr (u ++ more)) p c =
      (parseRound r p c).map (fun x => (x.1.withPtr more, x.2)) := by
  rcases hr : r.comments
  case singleLine =>
    simp only [roundCalls, hr, List.length_nil] at hlen
    obtain rfl := List.length_eq_zero_iff.1 hlen
    simp only [parseRound, hr]
    split_ifs <;> rfl
  case multipleLines =>
    simp only [roundCalls, hr] at hlen
    by_cases hc : c = '*'
    · rw [if_pos hc, List.length_singleton] at hlen
      obtain ⟨d, rfl⟩ := List.length_eq_one_iff.1 hlen
      simp only [parseRound, hr, if_pos hc, List.singleton_append, charNextGet_withPtr hptr]
      rcases charNextGet r with ⟨o, r₁⟩
      by_cases ho : o = some '/'
      · rw [ho]
        rfl
      · split <;> simp_all [Except.map]
    · rw [if_neg hc] at hlen
      obtain rfl := List.length_eq_zero_iff.1 hlen
      simp only [parseRound, hr, if_neg hc]
      rfl
  case none =>
    simp only [parseRound, hr, special_withPtr hr hlen hptr]
    rcases special r p c with ⟨r₁, next⟩
    simp only
    rcases next.bind fun x => settle x.2 x.1 with e | q <;> rfl

/-- A round stops behind the bytes that it asks for, and names the last one where it fails. -/
theorem parseRound_place :
    (∀ r' q, parseRound r p c = .ok (r', q) →
      r'.place = (r.ptr.take (roundCalls r p c).length).foldl Place.next r.place) ∧
    ∀ e, parseRound r p c = .error e →
      e.line = ((r.ptr.take (roundCalls r p c).length).foldl Place.next r.place).line ∧
      e.col = ((r.ptr.take (roundCalls r p c).length).foldl Place.next r.place).col - 1 := by
  have hplace := charNextGet_place (r := r)
  rcases hr : r.comments
  case singleLine =>
    simp only [parseRound, hr, roundCalls]
    refine ⟨?_, fun e h => (by cases h)⟩
    rintro r' q h
    obtain ⟨rfl, -⟩ := Prod.mk.inj (Except.ok.inj h)
    split_ifs <;> rfl
  case multipleLines =>
    simp only [parseRound, hr, roundCalls]
    by_cases hc : c = '*'
    · simp only [if_pos hc, List.length_singleton, ← hplace]
      rcases charNextGet r with ⟨o, r₁⟩
      split
      all_goals
        rename_i hx
        refine ⟨?_, fun e h => (by cases h)⟩
        rintro r' q h
        obtain ⟨rfl, -⟩ := Prod.mk.inj (Except.ok.inj h)
        exact (congrArg Cursor.place (Prod.mk.inj hx).2).symm
    · simp only [if_neg hc]
      refine ⟨?_, fun e h => (by cases h)⟩
      rintro r' q h
      obtain ⟨rfl, -⟩ := Prod.mk.inj (Except.ok.inj h)
      rfl
  case none =>
    have hspecial := special_place (p := p) (c := c) hr
    simp only [parseRound, hr, ← hspecial]
    rcases special r p c with ⟨r₁, next⟩
    simp only
    rcases next.bind fun x => settle x.2 x.1 with e | q
    · refine ⟨fun r' q h => (by cases h), ?_⟩
      rintro e' h
      obtain rfl := Except.error.inj h
      exact ⟨rfl, rfl⟩
    · refine ⟨?_, fun e h => (by cases h)⟩
      rintro r' q' h
      obtain ⟨rfl, -⟩ := Prod.mk.inj (Except.ok.inj h)
      rfl

/-- Only a slash or a dash fails with a second byte. -/
theorem dash_of_roundCalls (h : parseRound r p c = .error e) (hcalls : roundCalls r p c ≠ []) :
    c = '/' ∨ c = '-' := by
  unfold roundCalls at hcalls
  rcases hr : r.comments <;> simp only [hr] at hcalls
  case singleLine => exact absurd rfl hcalls
  case multipleLines =>
    simp only [parseRound, hr] at h
    split_ifs at h
    split at h <;> cases h
  case none =>
    split_ifs at hcalls with hc
    · exact hc.imp_right And.left
    · exact absurd rfl hcalls

end Round

section File

variable {r : Cursor} {p : Parser} {res : Except ParseError (Cursor × Parser)}
  {calls : List Cursor} {e : ParseError} {src : List Char}

/-- The text ends with a slash or a dash. -/
def Dashes (cs : List Char) : Prop := ∃ body c, cs = body ++ [c] ∧ (c = '/' ∨ c = '-')

/-- What has been read when an error is found, and what decides it. -/
structure Found (r : Cursor) (p : Parser) (e : ParseError) (u rest : List Char) : Prop where
  ptr : r.ptr = u ++ rest
  line : e.line = (u.foldl Place.next r.place).line
  col : e.col = (u.foldl Place.next r.place).col - 1
  decided : (∀ more, ∃ calls, Finishes (r.withPtr (u ++ more)) p (.error e) calls) ∨
    rest = [] ∧ Dashes u

/-- The round that fails. -/
theorem found_of_round {r' : Cursor} {c : Char} (hg : charNextGet r = (some c, r'))
    (hround : parseRound r' p c = .error e) : ∃ u rest, Found r p e u rest := by
  have hptr := charNextGet_ptr hg
  have hplace : r'.place = r.place.next c := by
    have h := charNextGet_place (r := r)
    rwa [hg, hptr] at h
  obtain ⟨hline, hcol⟩ := parseRound_place.2 e hround
  refine ⟨c :: r'.ptr.take (roundCalls r' p c).length, r'.ptr.drop (roundCalls r' p c).length,
    ?_, ?_, ?_, ?_⟩
  · rw [hptr, List.cons_append, List.take_append_drop]
  · rw [List.foldl_cons, ← hplace, hline]
  · rw [List.foldl_cons, ← hplace, hcol]
  · rcases Nat.lt_or_ge r'.ptr.length (roundCalls r' p c).length with hshort | hlong
    · -- the second byte is asked for behind the end
      refine .inr ⟨List.drop_eq_nil_of_le hshort.le, [], c, ?_, ?_⟩
      · rcases roundCalls_cases (r := r') (p := p) (c := c) with hcalls | hcalls
        · rw [hcalls] at hshort
          cases hshort
        · rw [hcalls, List.length_singleton, Nat.lt_one_iff, List.length_eq_zero_iff] at hshort
          rw [hshort, List.take_nil]
          rfl
      · refine dash_of_roundCalls hround fun hcalls => ?_
        rw [hcalls] at hshort
        cases hshort
    · refine .inl fun more => ?_
      have hnext : charNextGet (r.withPtr (c :: r'.ptr.take (roundCalls r' p c).length ++ more)) =
          (some c, r'.withPtr (r'.ptr.take (roundCalls r' p c).length ++ more)) := by
        rw [List.cons_append, charNextGet_withPtr hptr, hg]
      refine ⟨_, .fail hnext ?_⟩
      rw [parseRound_withPtr (by simpa using hlong) (List.take_append_drop _ _).symm, hround]
      rfl

theorem Finishes.found (h : Finishes r p res calls) : p.Settled → res = .error e →
    ∃ u rest, Found r p e u rest := by
  induction h with
  | eof => exact fun _ h => by cases h
  | fail hg hround =>
    rintro - h
    obtain rfl := Except.error.inj h
    exact found_of_round hg hround
  | @round r r' r'' p q c res calls hg hround hrest ih =>
    intro hp h
    obtain ⟨u, rest, hfound⟩ := ih (settled_of_parseRound hp hround) h
    have hptr := charNextGet_ptr hg
    have hplace : r'.place = r.place.next c := by
      have h := charNextGet_place (r := r)
      rwa [hg, hptr] at h
    have hdrop := parseRound_ptr hp hround
    have hplace' := parseRound_place.1 r'' q hround
    have hlong : (roundCalls r' p c).length ≤ r'.ptr.length := by
      -- behind the end no round fails
      by_contra hshort
      have hnil : r''.ptr = [] := by
        rw [hdrop]
        exact List.drop_eq_nil_of_le (Nat.le_of_not_le hshort)
      obtain rfl : u = [] := (List.append_eq_nil_iff.1 (hfound.ptr.symm.trans hnil)).1
      have heof := Finishes.eof (p := q) (charNextGet_nil hnil)
      have hres := (heof.unique hrest).1
      rw [h] at hres
      cases hres
    refine ⟨c :: (r'.ptr.take (roundCalls r' p c).length ++ u), rest, ?_, ?_, ?_, ?_⟩
    · rw [hptr, List.cons_append, List.append_assoc, ← hfound.ptr, hdrop, List.take_append_drop]
    · rw [List.foldl_cons, List.foldl_append, ← hplace, ← hplace', hfound.line]
    · rw [List.foldl_cons, List.foldl_append, ← hplace, ← hplace', hfound.col]
    · rcases hfound.decided with hdecided | ⟨hnil, body, d, rfl, hd⟩
      · refine .inl fun more => ?_
        obtain ⟨calls', hfinishes⟩ := hdecided more
        have hnext : charNextGet (r.withPtr
            (c :: (r'.ptr.take (roundCalls r' p c).length ++ u) ++ more)) =
              (some c, r'.withPtr (r'.ptr.take (roundCalls r' p c).length ++ (u ++ more))) := by
          rw [List.cons_append, List.append_assoc, charNextGet_withPtr hptr, hg]
        have hround' : parseRound
            (r'.withPtr (r'.ptr.take (roundCalls r' p c).length ++ (u ++ more))) p c =
              .ok (r''.withPtr (u ++ more), q) := by
          rw [parseRound_withPtr (by simpa using hlong) (List.take_append_drop _ _).symm, hround]
          rfl
        exact ⟨_, .round hnext hround' hfinishes⟩
      · exact .inr ⟨hnil, _, d, by rw [← List.append_assoc, ← List.cons_append], hd⟩

theorem Finishes.parseRun_eq (h : Finishes { ptr := src } {} res calls) : parseRun src = res :=
  h.parseLoop_eq fresh_settled (Nat.lt_succ_self _)

/-- A parse error names the last byte that has been read when it is found, and what has been read
decides it, unless the file ends with a slash or a dash that is told by what follows it. -/
theorem error_found (h : parseRun src = .error e) :
    ∃ u rest, src = u ++ rest ∧ e.Names u ∧ (Decides u e ∨ rest = [] ∧ Dashes u) := by
  obtain ⟨res, calls, hfinishes⟩ := exists_finishes (r := { ptr := src }) (p := {}) le_rfl
    fresh_settled
  obtain rfl : res = .error e := hfinishes.parseRun_eq.symm.trans h
  obtain ⟨u, rest, hptr, hline, hcol, hdecided⟩ := hfinishes.found fresh_settled rfl
  refine ⟨u, rest, hptr, ⟨?_, ?_⟩, hdecided.imp_left fun hall more => ?_⟩
  · rw [hline, foldl_next_line, UInt32.ofNat_add]
    rfl
  · rw [hcol]
    show (u.foldl Place.next {}).col - 1 = _
    rw [foldl_next_col, UInt32.add_sub_cancel]
  · obtain ⟨calls', hmore⟩ := hall more
    exact hmore.parseRun_eq

/-- A property in the block of a machine. -/
def strayColon : List Char := "m\x7b\n  a: b\x7d".toList

/-- The colon is refused as the fourth character of the second line. -/
theorem strayColon_found : ∃ e u rest, parseRun strayColon = .error e ∧ strayColon = u ++ rest ∧
    e.Names u ∧ e.line = 2 ∧ e.col = 4 ∧ (Decides u e ∨ rest = [] ∧ Dashes u) := by
  have hplace : ((parseRun strayColon).mapError fun e => (e.line, e.col)).map (fun _ => ()) =
      .error (2, 4) := by
    decide_cbv
  rcases h : parseRun strayColon with e | q
  · rw [h] at hplace
    obtain ⟨hline, hcol⟩ := Prod.mk.inj (Except.error.inj hplace)
    obtain ⟨u, rest, hsrc, hnames, hdecided⟩ := error_found h
    exact ⟨e, u, rest, rfl, hsrc, hnames, hline, hcol, hdecided⟩
  · rw [h] at hplace
    cases hplace

end File

end Estate.Cc
