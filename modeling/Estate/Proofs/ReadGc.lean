import Estate.Cc.ReadGc
import Estate.Proofs.Spelling

/-!
# Reading what has been printed

Each piece of a loader is read as what it has been printed for, whatever comes behind it, and so a
file as its loaders (`readGc_of_file`). The blank lines around a statement make no difference.
-/

namespace Estate.Cc

open Lib Lib.Reader

section Words

variable {w rest : List Char} {n : ℕ}

theorem Spelled.isWordChar (h : Spelled w) : ∀ c ∈ w, isWordChar c = true :=
  fun c hc => decide_eq_true (h c hc)

theorem run_word (h : Spelled w) (hrest : Stops isWordChar rest) :
    readWord.run (w ++ rest) = some (w, rest) :=
  run_span h.isWordChar hrest

theorem run_number (hrest : Stops Char.isDigit rest) :
    readNumber.run (Nat.toDigits 10 n ++ rest) = some (n, rest) := by
  have hdigits : ∀ c ∈ Nat.toDigits 10 n, c.isDigit = true :=
    fun c hc => Nat.isDigit_of_mem_toDigits (by decide) (by decide) hc
  rw [readNumber, run_bind_of (run_span hdigits hrest)]
  exact congrArg (fun m => some (m, rest)) Nat.ofDigitChars_ten_toDigits

theorem run_value (h : ';' ∉ w) (hrest : rest.head? = some ';') :
    readValue.run (w ++ rest) = some (w, rest) := by
  refine run_span (fun c hc => decide_eq_true ?_) ?_
  · rintro rfl
    exact h hc
  · intro c hc
    rw [hrest] at hc
    obtain rfl := Option.some.inj hc
    rfl

theorem run_blanks (hrest : rest.head? ≠ some '\n') :
    blanks.run (blankLines n ++ rest) = some ((), rest) := by
  have hblank : ∀ c ∈ blankLines n, decide (c = '\n') = true :=
    fun c hc => decide_eq_true (List.eq_of_mem_replicate hc)
  have hstop : Stops (fun c => decide (c = '\n')) rest := by
    intro c hc
    refine decide_eq_false ?_
    rintro rfl
    exact hrest hc
  rw [blanks, run_bind_of (run_span hblank hstop)]
  rfl

/-- A text that begins neither with a character of a word nor with a parenthesis. -/
def EndsShare (rest : List Char) : Prop := Stops isWordChar rest ∧ rest.head? ≠ some '('

theorem endsShare_append {t : List Char}
    (h : t.head?.map (fun c => isWordChar c || c == '(') = some false) : EndsShare (t ++ rest) := by
  cases t with
  | nil => simp at h
  | cons c cs =>
    obtain ⟨hword, hopen⟩ := Bool.or_eq_false_iff.1 (Option.some.inj h)
    exact ⟨stops_cons.2 hword, fun hc => by simp [Option.some.inj hc] at hopen⟩

theorem readShare_readsAs {s : Option Stringshare} (h : ∀ x ∈ s, Spelled x) :
    ReadsAs EndsShare readShare (fmtStr s) s := by
  intro rest hrest
  cases s with
  | none => exact run_either_left run_lit_bind
  | some x =>
    have hx : Spelled x := h x rfl
    have hnull : ¬ "(null)".toList <+: x ++ rest := by
      rintro ⟨u, hu⟩
      have hhead : (x ++ rest).head? = some '(' := by rw [← hu]; rfl
      cases x with
      | nil => exact hrest.2 hhead
      | cons c cs =>
        obtain rfl : c = '(' := Option.some.inj hhead
        exact hx.not_mem (by decide) List.mem_cons_self
    rw [fmtStr, readShare, run_either_right (run_lit_bind_none hnull),
      run_bind_of (run_word hx hrest.1)]
    rfl

end Words

section Statements

variable {c : CtorText} {s : Stmt} {rest : List Char}

/-- Before any text. -/
abbrev Always (_ : List Char) : Prop := True

theorem CtorText.readsAs (h : c.Legible) (var indent : String) :
    ReadsAs Always (readCtor var indent) (c.text var indent) c := by
  intro rest _
  simp only [CtorText.text, List.flatten_cons, List.flatten_nil, List.append_nil, List.append_assoc,
    readCtor, run_lit_bind]
  rw [run_bind_of (run_value h.func rfl)]
  simp only [run_lit_bind]
  rw [run_bind_of (run_value h.key rfl)]
  simp only [run_lit_bind]
  rw [run_bind_of (run_number (stops_append rfl))]
  simp only [run_lit_bind]
  rfl

/-- The text of a transition in an array, behind another one. -/
def nextTrText (t : Stringshare) : List Char := ",\n".toList ++ ("           t_".toList ++ t)

theorem nextTr_item {t : Stringshare} (h : Spelled t) :
    ReadItem (Stops isWordChar) readNextTr t (nextTrText t) where
  reads rest hrest := by
    simp only [nextTrText, List.append_assoc, readNextTr, run_lit_bind]
    exact run_word h hrest
  ne_nil := List.cons_ne_nil _ _
  follows cs := by
    rw [nextTrText, List.append_assoc]
    exact stops_append rfl

theorem intercalate_cons {sep x : List Char} : ∀ {xs : List (List Char)},
    List.intercalate sep (x :: xs) = x ++ xs.flatMap (sep ++ ·)
  | [] => by simp
  | y :: ys => by
    simp only [List.intercalate_cons_cons, @intercalate_cons sep y ys, List.flatMap_cons,
      List.append_assoc]

theorem trsText_cons (t : Stringshare) (ts : List Stringshare) : trsText (t :: ts) =
    "        const Estate_Transition *trs[] = \x7b\n".toList ++
      ("           t_".toList ++ (t ++ (ts.flatMap nextTrText ++ ("\n        \x7d;\n".toList ++
        "        const unsigned int trs_count = EINA_C_ARRAY_LENGTH(trs);\n".toList)))) := by
  rw [trsText, if_pos (show (t :: ts).length > 0 from Nat.succ_pos _), List.map_cons, intercalate_cons, List.flatMap_map]
  simp only [List.append_assoc]
  rfl

theorem readTrs_readsAs {trs : List Stringshare} (h : ∀ t ∈ trs, Spelled t) :
    ReadsAs Always readTrs (trsText trs) trs := by
  intro rest _
  cases trs with
  | nil =>
    refine (run_either_right ?_).trans ?_
    · exact run_lit_bind_none (by simp [trsText])
    · simp only [trsText, List.length_nil, if_neg (lt_irrefl 0), List.append_assoc, run_lit_bind]
      rfl
  | cons t ts =>
    obtain ⟨ht, hts⟩ := List.forall_mem_cons.1 h
    have hstop : Stops isWordChar (ts.flatMap nextTrText ++ ("\n        \x7d;\n".toList ++
        ("        const unsigned int trs_count = EINA_C_ARRAY_LENGTH(trs);\n".toList ++ rest))) := by
      cases ts with
      | nil =>
        rw [List.flatMap_nil, List.nil_append]
        exact stops_append rfl
      | cons u us =>
        rw [List.flatMap_cons, List.append_assoc]
        exact (nextTr_item (hts u (by simp))).follows _
    have hend : readNextTr.run ("\n        \x7d;\n".toList ++
        ("        const unsigned int trs_count = EINA_C_ARRAY_LENGTH(trs);\n".toList ++ rest)) =
          none :=
      run_lit_bind_none (not_prefix_append (by decide))
    have hmany := run_many_map (fun u hu => nextTr_item (hts u hu)) (stops_append rfl) hend
    refine run_either_left ?_
    simp only [trsText_cons, List.append_assoc, run_lit_bind]
    rw [run_bind_of (run_word ht hstop), run_bind_of hmany]
    simp only [run_lit_bind]
    rfl

theorem stateNew_readsAs {x : Stringshare} (h : Spelled x) (n : ℕ) :
    ReadsAs Always readStateNew (Stmt.stateNew x n).text (.stateNew x n) := by
  intro rest _
  unfold Stmt.text
  simp only [List.flatten_cons, List.flatten_nil, List.append_nil, List.append_assoc,
    readStateNew, run_lit_bind]
  rw [run_bind_of (run_word h (stops_append rfl))]
  simp only [run_lit_bind]
  rw [run_bind_of (run_number (stops_append rfl))]
  simp only [run_lit_bind]
  rfl

theorem transitionNew_readsAs {x : Stringshare} (h : Spelled x) :
    ReadsAs Always readTransitionNew (Stmt.transitionNew x).text (.transitionNew x) := by
  intro rest _
  unfold Stmt.text
  simp only [List.flatten_cons, List.flatten_nil, List.append_nil, List.append_assoc,
    readTransitionNew, run_lit_bind]
  rw [run_bind_of (run_word h (stops_append rfl))]
  simp only [run_lit_bind]
  rfl

theorem stateInit_readsAs {x : Stringshare} {trs : List Stringshare} {enterer exiter : CtorText}
    (h : (Stmt.stateInit x trs enterer exiter).Legible) :
    ReadsAs Always readStateInit (Stmt.stateInit x trs enterer exiter).text
      (.stateInit x trs enterer exiter) := by
  obtain ⟨hx, htrs, henterer, hexiter⟩ := h
  intro rest _
  unfold Stmt.text
  simp only [List.flatten_cons, List.flatten_nil, List.append_nil, List.append_assoc,
    readStateInit, run_lit_bind]
  rw [run_bind_of (readTrs_readsAs htrs _ trivial),
    run_bind_of (CtorText.readsAs henterer _ _ _ trivial),
    run_bind_of (CtorText.readsAs hexiter _ _ _ trivial)]
  simp only [run_lit_bind]
  rw [run_bind_of (run_word hx (stops_append rfl))]
  simp only [run_lit_bind]
  rfl

theorem transitionInit_readsAs {x : Stringshare} {fromState toState : Option Stringshare}
    {cb enterer exiter : CtorText}
    (h : (Stmt.transitionInit x fromState toState cb enterer exiter).Legible) :
    ReadsAs Always readTransitionInit (Stmt.transitionInit x fromState toState cb enterer exiter).text
      (.transitionInit x fromState toState cb enterer exiter) := by
  obtain ⟨hx, hfrom, hto, hcb, henterer, hexiter⟩ := h
  intro rest _
  unfold Stmt.text
  simp only [List.flatten_cons, List.flatten_nil, List.append_nil, List.append_assoc,
    readTransitionInit]
  rw [run_bind_of (CtorText.readsAs hcb _ _ _ trivial),
    run_bind_of (CtorText.readsAs henterer _ _ _ trivial),
    run_bind_of (CtorText.readsAs hexiter _ _ _ trivial)]
  simp only [run_lit_bind]
  rw [run_bind_of (run_word hx (stops_append rfl))]
  simp only [run_lit_bind]
  rw [run_bind_of (readShare_readsAs hfrom _ (endsShare_append rfl))]
  simp only [run_lit_bind]
  rw [run_bind_of (readShare_readsAs hto _ (endsShare_append rfl))]
  simp only [run_lit_bind]
  rfl

theorem readStateNew_none {cs : List Char} (h : ¬ "   s_".toList <+: cs) :
    readStateNew.run cs = none := run_lit_bind_none h

theorem readTransitionNew_none {cs : List Char} (h : ¬ "   t_".toList <+: cs) :
    readTransitionNew.run cs = none := run_lit_bind_none h

theorem readStateInit_none {cs : List Char} (h : ¬ "     \x7b\n".toList <+: cs) :
    readStateInit.run cs = none := run_lit_bind_none h

/-- The first characters of a statement. -/
def Stmt.opening : Stmt → List Char
  | .stateNew _ _ => "   s_".toList
  | .transitionNew _ => "   t_".toList
  | .stateInit _ _ _ _ => "     \x7b\n".toList
  | .transitionInit _ _ _ _ _ _ => "   ".toList ++ "cb".toList

theorem Stmt.text_opening (s : Stmt) : ∃ u, s.text = s.opening ++ u := by
  cases s with
  | transitionInit x fromState toState cb enterer exiter =>
    unfold Stmt.text
    simp only [CtorText.text, Stmt.opening, List.flatten_cons, List.append_assoc]
    exact ⟨_, rfl⟩
  | _ => exact ⟨_, rfl⟩

/-- A statement begins as no statement of another kind does. -/
theorem Stmt.readsAs (h : s.Legible) : ReadsAs Always readStmt s.text s := by
  intro rest ht
  have hopening : ∀ {t : List Char}, ¬ t <+: s.opening ∧ ¬ s.opening <+: t →
      ¬ t <+: s.text ++ rest := by
    intro t hclash
    obtain ⟨u, hu⟩ := s.text_opening
    rw [hu, List.append_assoc]
    exact not_prefix_append hclash
  cases s with
  | stateNew x n => exact run_either_left (stateNew_readsAs h n rest ht)
  | transitionNew x =>
    have hstate := readStateNew_none (hopening (by simp only [Stmt.opening]; decide))
    exact (run_either_right hstate).trans (run_either_left (transitionNew_readsAs h rest ht))
  | stateInit x trs enterer exiter =>
    have hstate := readStateNew_none (hopening (by simp only [Stmt.opening]; decide))
    have htransit := readTransitionNew_none (hopening (by simp only [Stmt.opening]; decide))
    exact (run_either_right hstate).trans ((run_either_right htransit).trans
      (run_either_left (stateInit_readsAs h rest ht)))
  | transitionInit x fromState toState cb enterer exiter =>
    have hstate := readStateNew_none (hopening (by simp only [Stmt.opening]; decide))
    have htransit := readTransitionNew_none (hopening (by simp only [Stmt.opening]; decide))
    have hinit := readStateInit_none (hopening (by simp only [Stmt.opening]; decide))
    exact (run_either_right hstate).trans ((run_either_right htransit).trans
      ((run_either_right hinit).trans (transitionInit_readsAs h rest ht)))

theorem Stmt.text_head (s : Stmt) : s.text.head? = some ' ' := by
  cases s <;> rfl

/-- Blank lines before a statement are none of it. -/
theorem Stmt.item (h : s.Legible) (n : ℕ) :
    ReadItem Always (do blanks; readStmt) s (blankLines n ++ s.text) where
  reads rest ht := by
    have hhead : (s.text ++ rest).head? ≠ some '\n' := by
      rw [List.head?_append, s.text_head]
      simp
    rw [List.append_assoc, run_bind_of (run_blanks hhead)]
    exact Stmt.readsAs h rest ht
  ne_nil h := by
    have hhead := s.text_head
    rw [(List.append_eq_nil_iff.1 h).2] at hhead
    simp at hhead
  follows _ := trivial

theorem readTransitionInit_none {cs : List Char} (h : ¬ "   ".toList ++ "cb".toList <+: cs) :
    readTransitionInit.run cs = none := run_bind_none (run_lit_lit_none h)

/-- No statement is read from the call that locks the machine. -/
theorem run_stmt_lock (n : ℕ) : StateT.run (do blanks; readStmt)
    (blankLines n ++ ("   estate_machine_lock(fsm, s_".toList ++ rest)) = none := by
  have hclash : ∀ {t : List Char}, ¬ t <+: "   estate_machine_lock(fsm, s_".toList ∧
      ¬ "   estate_machine_lock(fsm, s_".toList <+: t →
        ¬ t <+: "   estate_machine_lock(fsm, s_".toList ++ rest := not_prefix_append
  rw [run_bind_of (run_blanks (by simp))]
  refine (run_either_right (readStateNew_none (hclash (by decide)))).trans ?_
  refine (run_either_right (readTransitionNew_none (hclash (by decide)))).trans ?_
  refine (run_either_right (readStateInit_none (hclash (by decide)))).trans ?_
  exact readTransitionInit_none (hclash (by decide))

end Statements

section Loaders

variable {l : Loader} {rest : List Char}

theorem proto_item {f : Stringshare} (h : Spelled f) :
    ReadItem Always readProto f (protoFuncCommon f) where
  reads rest _ := by
    unfold protoFuncCommon
    simp only [List.flatten_cons, List.flatten_nil, List.append_nil, List.append_assoc, readProto,
      run_lit_bind]
    rw [run_bind_of (run_word h (stops_append rfl))]
    simp only [run_lit_bind]
    rfl
  ne_nil := List.cons_ne_nil _ _
  follows _ := trivial

theorem declaration_item {x : Stringshare} (h : Spelled x) (text : String) :
    ReadItem Always (readDeclaration text) x (text.toList ++ (x ++ " = NULL;\n".toList)) where
  reads rest _ := by
    simp only [List.append_assoc, readDeclaration, run_lit_bind]
    rw [run_bind_of (run_word h (stops_append rfl))]
    simp only [run_lit_bind]
    rfl
  ne_nil := by simp
  follows _ := trivial

/-- The declarations of one kind, up to a text of another. -/
theorem run_declarations {xs : List Stringshare} (h : ∀ x ∈ xs, Spelled x) {text : String}
    (hstop : ¬ text.toList <+: rest) : (many (readDeclaration text)).run
      (xs.flatMap (fun x => text.toList ++ (x ++ " = NULL;\n".toList)) ++ rest) = some (xs, rest) :=
  run_many_map (fun x hx => declaration_item (h x hx) text) trivial (run_lit_bind_none hstop)

theorem run_readLoadName {x : Stringshare} (h : Spelled x) (hrest : Stops isWordChar rest) :
    readLoadName.run (x ++ ("_load".toList ++ rest)) = some (x, rest) := by
  have hload : Spelled (x ++ "_load".toList) := by
    intro c hc
    rcases List.mem_append.1 hc with hc | hc
    · exact h c hc
    · revert hc
      simp only [String.reduceToList, List.mem_cons, List.not_mem_nil, or_false]
      rintro (rfl | rfl | rfl | rfl | rfl) <;> exact .inl rfl
  have hdrop : (x ++ "_load".toList).dropSuffix? "_load".toList = some x :=
    List.dropSuffix?_eq_some_iff.2 ⟨_, rfl, beq_self_eq_true _⟩
  rw [← List.append_assoc, readLoadName, run_bind_of (run_word hload hrest), hdrop]
  rfl

/-- The declarations of the states end where those of the transitions begin, if there are any. -/
theorem states_stop (transitions : List Stringshare) : ¬ "   Estate_State *s_".toList <+:
    transitions.flatMap (fun t => "   Estate_Transition *t_".toList ++ (t ++ " = NULL;\n".toList)) ++
      ("\n   fsm = estate_machine_new(".toList ++ rest) := by
  cases transitions with
  | nil =>
    rw [List.flatMap_nil, List.nil_append]
    exact not_prefix_append (by decide)
  | cons t ts =>
    simp only [List.flatMap_cons, List.append_assoc]
    exact not_prefix_append (by decide)

/-- Whatever blank lines stand around its statements, the text of a loader is read as the loader. -/
theorem Loader.item (h : l.Legible) {text : List Char} (ht : l.Printed text) :
    ReadItem Always readLoader l text where
  reads rest _ := by
    obtain ⟨lines, last, hbody, rfl⟩ := ht
    have hload : "_load(void)\n\x7b\n".toList = "_load".toList ++ "(void)\n\x7b\n".toList := by
      decide
    have hstmts : List.Forall₂ (ReadItem Always (do blanks; readStmt)) l.body
        (lines.map fun x => blankLines x.1 ++ x.2.text) := by
      rw [← hbody, List.forall₂_map_left_iff, List.forall₂_map_right_iff, List.forall₂_same]
      intro x hx
      exact Stmt.item (h.body _ (hbody ▸ List.mem_map_of_mem hx)) x.1
    have hflat : lines.flatMap (fun x => blankLines x.1 ++ x.2.text) =
        (lines.map fun x => blankLines x.1 ++ x.2.text).flatten := List.flatMap_def
    unfold Loader.head Loader.foot
    simp only [hflat, List.flatten_cons, List.flatten_nil, List.append_nil, List.append_assoc, hload,
      readLoader]
    rw [run_bind_of (run_many_map (fun f hf => proto_item (h.protos f hf)) trivial
      (run_lit_bind_none (not_prefix_append (by decide))))]
    simp only [run_lit_bind]
    rw [run_bind_of (run_readLoadName h.name (stops_append rfl))]
    simp only [run_lit_bind]
    rw [run_bind_of (run_declarations h.states (states_stop l.transitions)),
      run_bind_of (run_declarations h.transitions (not_prefix_append (by decide)))]
    simp only [run_lit_bind]
    rw [run_bind_of (run_number (stops_append rfl))]
    simp only [run_lit_bind]
    rw [run_bind_of (run_number (stops_append rfl))]
    simp only [run_lit_bind]
    rw [run_bind_of (run_many hstmts trivial (run_stmt_lock last)),
      run_bind_of (run_blanks (by simp))]
    simp only [run_lit_bind]
    rw [run_bind_of (readShare_readsAs h.init _ (endsShare_append rfl))]
    simp only [run_lit_bind]
    rfl
  ne_nil := by
    obtain ⟨lines, last, -, rfl⟩ := ht
    intro hnil
    have hhead : l.head = [] := (List.append_eq_nil_iff.1 hnil).1
    unfold Loader.head at hhead
    simp only [List.flatten_cons, List.append_eq_nil_iff] at hhead
    exact absurd hhead.2.1 (List.cons_ne_nil _ _)
  follows _ := trivial

theorem run_readLoader_nil : readLoader.run [] = none :=
  (run_bind_of (rfl : (many readProto).run [] = some ([], []))).trans
    (run_lit_bind_none (by simp))

theorem items_of_printed {loaders : List Loader} {texts : List (List Char)}
    (h : List.Forall₂ Loader.Printed loaders texts) (hl : ∀ l ∈ loaders, l.Legible) :
    List.Forall₂ (ReadItem Always readLoader) loaders texts := by
  induction h with
  | nil => exact .nil
  | cons ht _ ih =>
    obtain ⟨hlegible, hrest⟩ := List.forall_mem_cons.1 hl
    exact .cons (Loader.item hlegible ht) (ih hrest)

/-- A file is read as the loaders that have been printed into it. -/
theorem readGc_of_file {loaders : List Loader} (h : ∀ l ∈ loaders, l.Legible) {text : List Char}
    (ht : GcFile loaders text) : readGc text = some loaders := by
  obtain ⟨texts, htexts, rfl⟩ := ht
  have hmany : (many readLoader).run (texts.flatten ++ []) = some (loaders, []) :=
    run_many (items_of_printed htexts h) trivial run_readLoader_nil
  have hfile : ReadsAs (· = []) readFile ("/*\n * This file has been generated by estate_cc.\n".toList ++
      (" * DO NOT MODIFY MANUALLY!\n */\n\n#include <Estate.h>\n\n".toList ++ texts.flatten))
      loaders := by
    rintro _ rfl
    simp only [List.append_assoc, readFile, run_lit_bind]
    exact hmany
  exact whole_of_readsAs hfile rfl

end Loaders

section Files

variable {l : Loader}

theorem flatMap_blankLines (stmts : List Stmt) :
    (stmts.map fun s => (0, s)).flatMap (fun x => blankLines x.1 ++ x.2.text) =
      stmts.flatMap Stmt.text := by
  rw [List.flatMap_map]
  rfl

theorem Loader.printed_text (l : Loader) : l.Printed l.text :=
  ⟨l.body.map fun s => (0, s), 0, by simp, by rw [flatMap_blankLines]; rfl⟩

/-- The blank lines of the source. -/
theorem Loader.printed_apart (l : Loader) : l.Printed l.apart := by
  obtain ⟨n, hn⟩ : ∃ n, n = l.stateCount + l.transitCount := ⟨_, rfl⟩
  rcases hdrop : l.body.drop n with _ | ⟨s, ss⟩
  · have hbody : l.body.take n = l.body := by
      simpa [hdrop] using List.take_append_drop n l.body
    refine ⟨l.body.map fun s => (0, s), 2, by simp, ?_⟩
    rw [flatMap_blankLines, Loader.apart, ← hn, hdrop, hbody]
    rfl
  · have hbody : l.body.take n ++ s :: ss = l.body := hdrop ▸ List.take_append_drop n l.body
    refine ⟨((l.body.take n).map fun s => (0, s)) ++ (1, s) :: ss.map fun s => (0, s), 1, ?_, ?_⟩
    · simpa using hbody
    · rw [List.flatMap_append, List.flatMap_cons, flatMap_blankLines, flatMap_blankLines,
        Loader.apart, ← hn, hdrop]
      simp [blankLines]

theorem gcFile_of_printed {loaders : List Loader} {print : Loader → List Char}
    (h : ∀ l ∈ loaders, l.Printed (print l)) :
    GcFile loaders ("/*\n * This file has been generated by estate_cc.\n".toList ++
      (" * DO NOT MODIFY MANUALLY!\n */\n\n#include <Estate.h>\n\n".toList ++
        loaders.flatMap print)) :=
  ⟨loaders.map print, List.forall₂_map_right_iff.2 (List.forall₂_same.2 h), by rw [List.flatMap_def]⟩

end Files

end Estate.Cc
