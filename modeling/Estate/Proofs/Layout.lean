import Estate.Cc.Rendering
import Estate.Lib.Triple
import Estate.Proofs.Comments
import Estate.Proofs.Machines

/-!
# Texts as items

Blanks around a token change nothing that its mark looks at, so a text does what its items do
(`read_layout`). What an item does to a parser depends on the state it is read in.
-/

namespace Estate.Cc

open Lib

/-! ## Layouts -/

section Layouts

variable {p q : Parser} {c : Char} {cs bs w : List Char} {m : Mark}

/-- Between two items no token has been begun. -/
structure Parser.Ready (p : Parser) : Prop extends p.Settled where
  buf : p.buf = []
  stopWord : p.stopWord = false

/-- What reading a text does to a parser. -/
def Parser.read (p : Parser) (cs : List Char) : Option Parser :=
  (lex isEof .none cs).lexemes.foldlM Lexeme.step p

theorem isEof_of_charCase (h : charCase c ≠ .other) : isEof c = false := by
  rw [isEof, decide_eq_false_iff_not]
  rintro (rfl | rfl) <;> exact h (by decide)

theorem read_char {l : Lexeme} (hc : charLexeme c = l) (hl : l ≠ .bad) :
    p.read (c :: cs) = (l.step p).bind (·.read cs) := by
  have ho : charCase c ≠ .other := by
    intro h
    simp [← hc, charLexeme, h] at hl
  have hs : c ≠ '/' := by
    rintro rfl
    exact hl (hc.symm.trans (by decide))
  have hd : c ≠ '-' := by
    rintro rfl
    exact hl (hc.symm.trans (by decide))
  unfold Parser.read
  rw [lex_char (isEof_of_charCase ho) hs hd, hc]
  rfl

theorem read_mark : p.read (m.text ++ cs) = ((Lexeme.mark m).step p).bind (·.read cs) := by
  rcases m
  case arrow =>
    show p.read ('-' :: '>' :: cs) = _
    unfold Parser.read
    rw [lex_arrow (by decide)]
    rfl
  all_goals exact read_char (by decide) (by decide)

theorem read_blockEnd (hp : p.Settled) : p.read ('\x7d' :: cs) = p.leave.bind (·.read cs) := by
  rw [read_char (l := .blockEnd) (by decide) (by decide), step_blockEnd hp]

theorem charLexeme_white (hc : charCase c = .white) : charLexeme c = .white := by
  simp [charLexeme, hc]

/-- Blanks where no token has been begun. -/
theorem read_blanks_idle (hp : p.Ready) : ∀ {bs : List Char}, Blanks bs →
    p.read (bs ++ cs) = p.read cs
  | [], _ => rfl
  | b :: bs, h => by
    have hb : Lexeme.white.step p = some p := by simp [step_white hp.toSettled, hp.buf]
    rw [List.cons_append, read_char (charLexeme_white (h b (by simp))) (by simp), hb]
    exact read_blanks_idle hp fun c hc => h c (by simp [hc])

/-- Blanks behind a token end it. -/
theorem read_blanks_behind : ∀ {bs : List Char} {p : Parser}, p.Settled → p.buf ≠ [] → Blanks bs →
    ∃ b, p.read (bs ++ cs) = (p.withStop b).read cs
  | [], p, _, _, _ => ⟨p.stopWord, rfl⟩
  | b :: bs, p, hp, hbuf, h => by
    have hb : Lexeme.white.step p = some (p.withStop true) := by simp [step_white hp, hbuf]
    rw [List.cons_append, read_char (charLexeme_white (h b (by simp))) (by simp), hb]
    have hp' : (p.withStop true).Settled := ⟨hp.hasToken, hp.leaveBlock⟩
    exact read_blanks_behind (p := p.withStop true) hp' hbuf fun c hc => h c (by simp [hc])

/-- The characters of a token, behind those read so far. -/
theorem read_chars : ∀ {w : List Char} {p : Parser}, p.stopWord = false →
    p.buf.length + w.length ≤ 2047 → (∀ c ∈ w, charCase c = .letter ∨ charCase c = .digit) →
      (p.buf = [] → ∀ c ∈ w.head?, charCase c ≠ .digit) →
      p.read (w ++ cs) = ({ p with buf := p.buf ++ w } : Parser).read cs
  | [], p, _, _, _, _ => by simp
  | c :: w, p, hs, hl, hw, hd => by
    have hc : charLexeme c = .word c := by
      rcases hw c (by simp) with h | h <;> simp [charLexeme, h]
    have hstep : (Lexeme.word c).step p = some { p with buf := p.buf ++ [c] } := by
      refine step_word.2 ⟨fun h => hd h.2 c (by simp) h.1, hs, ?_, rfl⟩
      simp only [List.length_cons] at hl
      omega
    rw [List.cons_append, read_char hc (by simp), hstep]
    refine (read_chars (p := { p with buf := p.buf ++ [c] }) hs ?_
      (fun d hd => hw d (by simp [hd])) (by simp)).trans ?_
    · simp only [List.length_append, List.length_cons, List.length_nil] at hl ⊢
      omega
    · simp

/-- What an item does to a parser, if its token is one. -/
def Item.step (p : Parser) : Item → Option Parser
  | .token w m => if Identifier w then (Lexeme.mark m).step { p with buf := w } else none
  | .blockEnd => p.leave

theorem read_token (hp : p.Ready) (hw : Identifier w) (hbs : Blanks bs) :
    p.read (w ++ (bs ++ (m.text ++ cs))) =
      ((Lexeme.mark m).step { p with buf := w }).bind (·.read cs) := by
  rw [read_chars hp.stopWord (by simpa [hp.buf] using hw.length) hw.chars fun _ => hw.head]
  simp only [hp.buf, List.nil_append]
  have hset : ({ p with buf := w } : Parser).Settled := ⟨hp.hasToken, hp.leaveBlock⟩
  obtain ⟨b, hb⟩ := @read_blanks_behind (m.text ++ cs) bs _ hset hw.nonempty hbs
  rw [hb, read_mark, step_mark_withStop]

theorem ready_of_step {i : Item} (hp : p.Ready) (h : i.step p = some q) : q.Ready := by
  rcases i with ⟨w, m⟩ | _
  · have hset : ({ p with buf := w } : Parser).Settled := ⟨hp.hasToken, hp.leaveBlock⟩
    simp only [Item.step] at h
    split_ifs at h
    exact ⟨settled_of_step hset h, (mark_handed h).1, mark_stopWord h⟩
  · obtain ⟨b, -, rfl⟩ := Option.map_eq_some_iff.1 h
    exact ⟨⟨hp.hasToken, rfl⟩, hp.buf, hp.stopWord⟩

/-- A text does what its items do, whatever its blanks. -/
theorem read_layout {items : List Item} {src : List Char} (hl : Layout items src) :
    ∀ {p q : Parser}, p.Ready → items.foldlM Item.step p = some q → p.read src = some q := by
  induction hl with
  | @nil bs hbs =>
    intro p q hp h
    rw [← List.append_nil bs, read_blanks_idle hp hbs]
    exact h
  | token hbs hbs' _ ih =>
    intro p q hp h
    rw [List.foldlM_cons] at h
    obtain ⟨p₁, hstep, h⟩ := Option.bind_eq_some_iff.1 h
    have hp₁ := ready_of_step hp hstep
    simp only [Item.step] at hstep
    split_ifs at hstep with hw
    rw [read_blanks_idle hp hbs, read_token hp hw hbs', hstep]
    exact ih hp₁ h
  | blockEnd hbs _ ih =>
    intro p q hp h
    rw [List.foldlM_cons] at h
    obtain ⟨p₁, hstep, h⟩ := Option.bind_eq_some_iff.1 h
    have hleave : p.leave = some p₁ := hstep
    rw [read_blanks_idle hp hbs, read_blockEnd hp.toSettled, hleave]
    exact ih (ready_of_step hp hstep) h

end Layouts

/-! ## Tokens of the syntax -/

section Tokens

variable {p q : Parser} {g : List Fsm} {f f' : Fsm} {sm sm' : Sm} {n : ℕ} {w v : List Char}
  {m : Mark}

/-- Between two items in the last machine, `n` unabbreviated blocks deep. -/
structure Parser.At (g : List Fsm) (f : Fsm) (sm : Sm) (n : ℕ) (p : Parser) : Prop
    extends p.Ready where
  parse : p.parse = g
  f : p.f = some f
  sm : p.sm = sm
  blocks : p.blocks = List.replicate n false

/-- The parser that looks at a token. -/
def Parser.shown (p : Parser) (w : List Char) (blocks : List Bool) (leaveBlock : Bool) : Parser :=
  { p with
    buf := w
    blocks := blocks
    hasToken := true
    leaveBlock := leaveBlock
    handed := p.handed ++ [w] }

theorem step_shown {blocks : List Bool} {leaveBlock : Bool} (hw : Identifier w)
    (hprep : m.prepare { p with buf := w } =
      some { p with buf := w, blocks := blocks, hasToken := true, leaveBlock := leaveBlock })
    (ht : token (p.shown w blocks leaveBlock) m.char = .ok q) :
    (Item.token w m).step p = if leaveBlock then q.clear.leave else some q.clear := by
  have hhand : Parser.hand { p with
      buf := w, blocks := blocks, hasToken := true, leaveBlock := leaveBlock } =
        p.shown w blocks leaveBlock := if_pos hw.nonempty
  have hleave : q.leaveBlock = leaveBlock := (tokenStep_of_token ht).frame.1.leaveBlock
  simp only [Item.step, if_pos hw, step_mark, hprep, Option.bind_some, Parser.look, hhand, ht,
    Except.toOption, hleave]

/-- The fields that a token has changed. -/
theorem at_clear (hl : q.leaveBlock = false) (hparse : q.parse = g) (hf : q.f = some f)
    (hsm : q.sm = sm) (hb : q.blocks = List.replicate n false) : q.clear.At g f sm n where
  hasToken := rfl
  leaveBlock := hl
  buf := rfl
  stopWord := rfl
  parse := hparse
  f := hf
  sm := hsm
  blocks := hb

/-- A token that opens a block. -/
theorem step_opens (h : p.At g f sm n) (hw : Identifier w)
    (hm : m = .blockStart ∧ smBlockIs sm = true ∨
      m = .colon ∧ (sm = .stateCb ∨ sm = .transitionCb ∨ sm = .data))
    (ht : token (p.shown w (false :: p.blocks) false) m.char = .ok q)
    (hparse : q.parse = p.parse) (hf : q.f = some f') (hsm : q.sm = sm') :
    (Item.token w m).step p = some q.clear ∧ q.clear.At g f' sm' (n + 1) := by
  have hb : smBlockIs sm = true := by
    rcases hm with ⟨-, hb⟩ | ⟨-, rfl | rfl | rfl⟩
    · exact hb
    all_goals rfl
  have hprep : m.prepare { p with buf := w } = some
      { p with buf := w, blocks := false :: p.blocks, hasToken := true, leaveBlock := false } := by
    rcases hm with ⟨rfl, -⟩ | ⟨rfl, hm⟩ <;> simp [Mark.prepare, blockEnter, h.sm, hb, h.leaveBlock]
    tauto
  have hframe := (tokenStep_of_token ht).frame.1
  refine ⟨step_shown hw hprep ht, at_clear hframe.leaveBlock (hparse.trans h.parse) hf hsm ?_⟩
  rw [hframe.blocks]
  exact congrArg (false :: ·) h.blocks

/-- A token inside a line or before an attribute. -/
theorem step_stays (h : p.At g f sm n) (hw : Identifier w)
    (hm : m = .arobase ∧ sm = .states ∨ m = .colon ∧ sm = .transitionStart ∨
      (m = .greater ∨ m = .arrow) ∧ sm = .transitionFrom ∨ m = .semicolon ∧ sm = .transitionTo)
    (ht : token (p.shown w p.blocks false) m.char = .ok q)
    (hparse : q.parse = p.parse) (hf : q.f = some f') (hsm : q.sm = sm') :
    (Item.token w m).step p = some q.clear ∧ q.clear.At g f' sm' n := by
  have hprep : m.prepare { p with buf := w } = some
      { p with buf := w, blocks := p.blocks, hasToken := true, leaveBlock := false } := by
    rcases hm with ⟨rfl, hm⟩ | ⟨rfl, hm⟩ | ⟨rfl | rfl, hm⟩ | ⟨rfl, hm⟩ <;>
      simp [Mark.prepare, anonymousTransit, h.sm, hm, h.leaveBlock]
  have hframe := (tokenStep_of_token ht).frame.1
  exact ⟨step_shown hw hprep ht,
    at_clear hframe.leaveBlock (hparse.trans h.parse) hf hsm (hframe.blocks.trans h.blocks)⟩

/-- The end of a block. -/
theorem step_closes (h : p.At g f sm (n + 1)) : ∃ q, Item.blockEnd.step p = some q ∧
    q.At g f sm.parent n ∧ q.t = p.t ∧ q.s = p.s ∧ q.cb = p.cb := by
  have hhead : (List.replicate n false).head? ≠ some true := by
    rcases n with _ | n <;> simp [List.replicate_succ]
  have hleave : blockLeave p.blocks p.sm = some (List.replicate n false, sm.parent) := by
    rw [h.blocks, h.sm, List.replicate_succ, blockLeave, if_neg hhead]
  refine ⟨{ p with blocks := List.replicate n false, sm := sm.parent, leaveBlock := false }, ?_, ?_,
    rfl, rfl, rfl⟩
  · simp only [Item.step, Parser.leave, hleave, Option.map_some]
  · exact ⟨⟨⟨h.hasToken, rfl⟩, h.buf, h.stopWord⟩, h.parse, h.f, rfl, rfl⟩

/-- A value, which ends the block of its property. -/
theorem step_value (h : p.At g f sm (n + 1)) (hw : Identifier w) (hprop : sm.IsProp)
    (ht : token (p.shown w p.blocks true) ';' = .ok q) (hparse : q.parse = p.parse)
    (hf : q.f = some f') (hsm : q.sm = sm) : ∃ q', (Item.token w .semicolon).step p = some q' ∧
      q'.At g f' sm.parent n ∧ q'.t = q.t ∧ q'.s = q.s ∧ q'.cb = q.cb := by
  have hprep : Mark.semicolon.prepare { p with buf := w } = some
      { p with buf := w, blocks := p.blocks, hasToken := true, leaveBlock := true } := by
    have hprop' : p.sm.IsProp := h.sm ▸ hprop
    simp only [Mark.prepare, if_pos hprop']
  have hframe := (tokenStep_of_token ht).frame.1
  have hclear : ({ q.clear with leaveBlock := false } : Parser).At g f' sm (n + 1) :=
    ⟨⟨⟨rfl, rfl⟩, rfl, rfl⟩, hparse.trans h.parse, hf, hsm, hframe.blocks.trans h.blocks⟩
  obtain ⟨q', hq', hat, ht', hs', hcb'⟩ := step_closes hclear
  refine ⟨q', ?_, hat, ht', hs', hcb'⟩
  rw [step_shown hw hprep ht, if_pos rfl]
  exact hq'

theorem run_property {q' : Parser} (hname : (Item.token w .colon).step p = some q)
    (hvalue : (Item.token v .semicolon).step q = some q') :
    (property w v).foldlM Item.step p = some q' := by
  simp [property, hname, hvalue]

end Tokens

end Estate.Cc
