import Estate.Cc.Abbreviation
import Estate.Lib.Batch
import Estate.Proofs.Layout
import Estate.Proofs.Outline
import Estate.Proofs.Spelling

/-!
# Which abbreviations a file reads the same with

An abbreviated block stays open until the value in it ends. A line of a model and an attribute end
no block, so what stands behind them in an abbreviated block is read inside it. Where nothing but
ends of blocks stands there, the blocks left open do no harm.
-/

namespace Estate.Cc

section Items

variable {p q : Parser} {w : List Char} {gap : Bool} {ls : List Lexeme} {items : List Item}

/-- What an item does to a parser, if its token is one or empty. -/
def Item.read (p : Parser) : Item → Option Parser
  | .token w m => if w = [] ∨ Identifier w then (Lexeme.mark m).step { p with buf := w } else none
  | .blockEnd => p.leave

/-- The parser without the token it has begun. -/
def Parser.unread (p : Parser) : Parser := { p with buf := [], stopWord := false }

theorem unread_of_buf (hb : p.buf = []) (hs : p.stopWord = false) : p.unread = p := by
  simp only [Parser.unread, ← hb, ← hs]

/-- The token begun is a part of the token of the first item. -/
theorem itemsFrom_begun : ∀ {ls : List Lexeme} {w : List Char} {gap : Bool} {items : List Item},
    itemsFrom w gap ls = some items → w ≠ [] →
      ∃ v m rest, items = .token (w ++ v) m :: rest
  | [], w, gap, items, h, hw => by simp [itemsFrom, hw] at h
  | .white :: ls, w, gap, items, h, hw => @itemsFrom_begun ls _ _ _ h hw
  | .comment _ :: ls, w, gap, items, h, hw => @itemsFrom_begun ls _ _ _ h hw
  | .word c :: ls, w, gap, items, h, hw => by
    simp only [itemsFrom] at h
    split_ifs at h
    obtain ⟨v, m, rest, rfl⟩ := itemsFrom_begun h (by simp)
    exact ⟨c :: v, m, rest, by simp⟩
  | .mark m :: ls, w, gap, items, h, hw => by
    obtain ⟨rest, -, rfl⟩ := Option.map_eq_some_iff.1 h
    exact ⟨[], m, rest, by simp⟩
  | .blockEnd :: ls, w, gap, items, h, hw => by simp [itemsFrom, hw] at h
  | .bad :: ls, w, gap, items, h, hw => by simp [itemsFrom] at h

theorem Identifier.begun {v : List Char} (h : Identifier (w ++ v)) (hw : w ≠ []) :
    Identifier w where
  nonempty := hw
  length := le_trans (by simp) h.length
  chars c hc := h.chars c (by simp [hc])
  head c hc := h.head c (by rwa [List.head?_append_of_ne_nil _ hw])

/-- A token that is none is refused, however long it gets. -/
theorem foldlM_read_begun (h : itemsFrom w gap ls = some items) (hw : w ≠ [])
    (hi : ¬ Identifier w) : items.foldlM Item.read p = none := by
  obtain ⟨v, m, rest, rfl⟩ := itemsFrom_begun h hw
  have hread : Item.read p (.token (w ++ v) m) = none := by
    refine if_neg fun hor => ?_
    rcases hor with hnil | hv
    · exact hw (List.append_eq_nil_iff.1 hnil).1
    · exact hi (hv.begun hw)
  rw [List.foldlM_cons, hread]
  rfl

/-- A character of a token, as long as the token stays one. -/
theorem step_word_eq {c : Char} (hs : p.stopWord = false) (hw : p.buf = [] ∨ Identifier p.buf)
    (hc : charCase c = .letter ∨ charCase c = .digit) :
    (Lexeme.word c).step p =
      if Identifier (p.buf ++ [c]) then some { p with buf := p.buf ++ [c] } else none := by
  by_cases hi : Identifier (p.buf ++ [c])
  · rw [if_pos hi]
    refine step_word.2 ⟨?_, hs, ?_, rfl⟩
    · rintro ⟨hd, hnil⟩
      exact hi.head c (by simp [hnil]) hd
    · have hlen := hi.length
      simp only [List.length_append, List.length_cons, List.length_nil] at hlen
      omega
  · rw [if_neg hi, Option.eq_none_iff_forall_ne_some]
    intro q hq
    obtain ⟨hd, -, hlen, -⟩ := step_word.1 hq
    refine hi ⟨by simp, by simp; omega, ?_, ?_⟩
    · intro d hd'
      rcases List.mem_append.1 hd' with hd' | hd'
      · rcases hw with hw | hw
        · simp [hw] at hd'
        · exact hw.chars d hd'
      · rwa [List.mem_singleton.1 hd']
    · intro d hd'
      rcases hw with hw | hw
      · simp only [hw, List.nil_append, List.head?_cons, Option.mem_def, Option.some.injEq] at hd'
        exact fun h => hd ⟨hd' ▸ h, hw⟩
      · rw [List.head?_append_of_ne_nil _ hw.nonempty] at hd'
        exact hw.head d hd'

/-- A file does what its items do. -/
theorem run_items : ∀ {ls : List Lexeme} {p : Parser} {items : List Item}, p.Settled →
    (p.stopWord = true → p.buf ≠ []) → p.buf = [] ∨ Identifier p.buf →
      (∀ c, .word c ∈ ls → charCase c = .letter ∨ charCase c = .digit) →
        itemsFrom p.buf p.stopWord ls = some items →
          ls.foldlM Lexeme.step p = items.foldlM Item.read p.unread
  | [], p, items, hp, hs, _, _, h => by
    simp only [itemsFrom] at h
    split_ifs at h with hbuf
    have hstop : p.stopWord = false := by
      by_contra hne
      exact hs (by simpa using hne) hbuf
    rw [← Option.some.inj h, unread_of_buf hbuf hstop]
    rfl
  | l :: ls, p, items, hp, hs, hw, hc, h => by
    have hc' : ∀ c, .word c ∈ ls → charCase c = .letter ∨ charCase c = .digit :=
      fun c hmem => hc c (List.mem_cons_of_mem _ hmem)
    rw [List.foldlM_cons]
    rcases l with _ | c | m | _ | _ | _
    case white =>
      rw [step_white hp]
      by_cases hbuf : p.buf = []
      · have hgap : itemsFrom p.buf p.stopWord ls = some items := by
          simpa [itemsFrom, hbuf] using h
        rw [if_neg (by simpa using hbuf)]
        exact run_items hp hs hw hc' hgap
      · have hgap : itemsFrom p.buf true ls = some items := by
          simpa [itemsFrom, hbuf] using h
        rw [if_pos hbuf]
        exact run_items (p := p.withStop true) (settled_withStop hp) (fun _ => hbuf) hw hc' hgap
    case word =>
      simp only [itemsFrom] at h
      split_ifs at h with hstop
      have hstop' : p.stopWord = false := by simpa using hstop
      rw [step_word_eq hstop' hw (hc c List.mem_cons_self)]
      by_cases hi : Identifier (p.buf ++ [c])
      · rw [if_pos hi]
        have hset : ({ p with buf := p.buf ++ [c] } : Parser).Settled :=
          ⟨hp.hasToken, hp.leaveBlock⟩
        refine run_items hset (by simp) (.inr hi) hc' ?_
        rw [← h, hstop']
      · rw [if_neg hi, foldlM_read_begun h (by simp) hi]
        rfl
    case mark =>
      obtain ⟨rest, hrest, rfl⟩ := Option.map_eq_some_iff.1 h
      have hstep : (Lexeme.mark m).step p = Item.read p.unread (.token p.buf m) := by
        rw [Item.read, if_pos hw]
        exact (step_mark_withStop (b := false)).symm
      rw [List.foldlM_cons, ← hstep]
      rcases hq : (Lexeme.mark m).step p with _ | q
      · rfl
      · have hbuf := (mark_handed hq).1
        have hstop := mark_stopWord hq
        have ih := run_items (settled_of_step hp hq) (by simp [hstop]) (.inl hbuf) hc'
          (by rw [hbuf, hstop]; exact hrest)
        rwa [unread_of_buf hbuf hstop] at ih
    case blockEnd =>
      simp only [itemsFrom] at h
      split_ifs at h with hbuf
      obtain ⟨rest, hrest, rfl⟩ := Option.map_eq_some_iff.1 h
      have hstop : p.stopWord = false := by
        by_contra hne
        exact hs (by simpa using hne) hbuf
      rw [step_blockEnd hp, unread_of_buf hbuf hstop, List.foldlM_cons]
      show p.leave.bind _ = p.leave.bind _
      rcases hq : p.leave with _ | q
      · rfl
      · have hq' := settled_of_step hp ((step_blockEnd hp).trans hq)
        have hbuf' : q.buf = [] := (leave_frame hq).1.trans hbuf
        have hstop' : q.stopWord = false := by
          obtain ⟨b, -, rfl⟩ := Option.map_eq_some_iff.1 hq
          exact hstop
        have ih := run_items hq' (by simp [hstop']) (.inl hbuf') hc'
          (by rw [hbuf', hstop']; exact hrest)
        rwa [unread_of_buf hbuf' hstop'] at ih
    case comment => exact run_items hp hs hw hc' h
    case bad => simp [itemsFrom] at h

end Items

section Blocks

variable {p q : Parser} {m : Mark} {c : Char} {bs : List Bool}

theorem hand_withBlocks : (p.withBlocks bs).hand = p.hand.withBlocks bs := by
  unfold Parser.hand
  simp only
  split_ifs <;> rfl

/-- What a mark makes of its token, before a block may end. -/
theorem mark_withBlocks (hp : p.leaveBlock = false) (h : (Lexeme.mark m).step p = some q) :
    ∃ q₁ : Parser, q₁.blocks = m.opens p.sm.zone ++ p.blocks ∧
      (if m.closes p.sm.zone then q₁.leave else some q₁) = some q ∧
      ∀ bs, (Lexeme.mark m).step (p.withBlocks bs) =
        if m.closes p.sm.zone then (q₁.withBlocks (m.opens p.sm.zone ++ bs)).leave
        else some (q₁.withBlocks (m.opens p.sm.zone ++ bs)) := by
  rw [step_mark] at h
  obtain ⟨p₁, hp₁, h⟩ := Option.bind_eq_some_iff.1 h
  have hl := prepare_leaveBlock hp hp₁
  unfold Parser.look at h
  rcases ht : token p₁.hand m.char with e | q₁
  · simp [ht, Except.toOption] at h
  have hframe := (tokenStep_of_token ht).frame.1
  have hq₁ : q₁.leaveBlock = m.closes p.sm.zone :=
    hframe.leaveBlock.trans ((hand_nesting (p := p₁)).2.2.2.trans hl)
  simp only [ht, Except.toOption, Option.bind_some, hq₁] at h
  refine ⟨q₁.clear, ?_, h, fun bs => ?_⟩
  · exact hframe.blocks.trans ((hand_nesting (p := p₁)).1.trans (prepare_blocks hp₁))
  · have htok := @token_withFrame p₁.hand m.char p₁.hand.stopWord (m.opens p.sm.zone ++ bs)
    rw [step_mark, prepare_withBlocks, hp₁]
    simp only [Option.map_some, Option.bind_some, Parser.look, hand_withBlocks]
    rw [show p₁.hand.withBlocks (m.opens p.sm.zone ++ bs) = p₁.hand.withFrame p₁.hand.stopWord _
      from rfl, htok, ht]
    simp only [Except.map, Except.toOption, Option.bind_some, hq₁]
    rfl

/-- A point looks at its token as the start of a block does. -/
theorem token_dot : token p '.' = token p '\x7b' := by
  have h₁ : ¬ '.' = '@' := by decide
  have h₂ : ¬ '\x7b' = '@' := by decide
  have h₃ : ¬ '.' = ';' := by decide
  have h₄ : ¬ '\x7b' = ';' := by decide
  unfold token
  simp only [h₁, h₂, h₃, h₄]

/-- A point does what the start of a block does, but for the flag of the block. -/
theorem step_dot (hp : p.leaveBlock = false) : (Lexeme.mark .dot).step (p.withBlocks bs) =
    ((Lexeme.mark .blockStart).step p).map (·.withBlocks (true :: bs)) := by
  rw [step_mark, step_mark]
  unfold Mark.prepare blockEnter
  simp only
  by_cases hb : smBlockIs p.sm = true
  · rw [if_pos hb, if_pos hb]
    simp only [Option.bind_some, Parser.look, Mark.char]
    have hl : ({ p with blocks := false :: p.blocks, hasToken := true } : Parser).hand.leaveBlock =
      false := hand_nesting.2.2.2.trans hp
    have htok := @token_withFrame
      ({ p with blocks := false :: p.blocks, hasToken := true } : Parser).hand '\x7b'
        p.hand.stopWord (true :: bs)
    have hhand : ({ p with blocks := true :: bs, hasToken := true } : Parser).hand =
        ({ p with blocks := false :: p.blocks, hasToken := true } : Parser).hand.withFrame
          p.hand.stopWord (true :: bs) := by
      unfold Parser.hand
      simp only
      split_ifs <;> rfl
    rw [token_dot, hhand, htok]
    rcases ht : token ({ p with blocks := false :: p.blocks, hasToken := true } : Parser).hand
      '\x7b' with e | q
    · rfl
    · have hq := (tokenStep_of_token ht).frame.1.leaveBlock.trans hl
      simp only [Except.map, Except.toOption, Option.bind_some, hq]
      rfl
  · rw [if_neg hb, if_neg hb]
    rfl

end Blocks

section Leaves

variable {p q : Parser} {w : List Char} {m : Mark} {i : Item}

theorem read_settled (hp : p.Settled) (h : i.read p = some q) : q.Settled := by
  rcases i with ⟨w, m⟩ | _
  · have hset : ({ p with buf := w } : Parser).Settled := ⟨hp.hasToken, hp.leaveBlock⟩
    simp only [Item.read] at h
    split_ifs at h
    exact settled_of_step hset h
  · obtain ⟨b, -, rfl⟩ := Option.map_eq_some_iff.1 h
    exact ⟨hp.hasToken, rfl⟩

theorem run_settled {items : List Item} (hp : p.Settled)
    (h : items.foldlM Item.read p = some q) : q.Settled :=
  Lib.foldlM_inv (fun _ _ _ => read_settled) hp h

theorem read_token_iff : (Item.token w m).read p = some q ↔
    (w = [] ∨ Identifier w) ∧ (Lexeme.mark m).step { p with buf := w } = some q := by
  simp only [Item.read]
  split_ifs with hw
  · exact ⟨fun h => ⟨hw, h⟩, fun h => h.2⟩
  · exact ⟨fun h => by simp at h, fun h => absurd h.1 hw⟩

/-- Where a mark that ends no block leads to. -/
theorem read_sm (hp : p.Settled) (hc : m.closes p.sm.zone = false)
    (h : (Item.token w m).read p = some q) :
    ∃ p₁, m.prepare { p with buf := w } = some p₁ ∧ q.sm = smAfter p₁.sm w m.char := by
  obtain ⟨p₁, hprep, hq⟩ := mark_nesting (read_token_iff.1 h).2
  have hl := prepare_leaveBlock (p := { p with buf := w }) hp.leaveBlock hprep
  rcases hq with ⟨-, -, hsm⟩ | ⟨hl', -⟩
  · exact ⟨p₁, hprep, hsm⟩
  · exact absurd (hl.symm.trans hl') (by simp [hc])

theorem read_colon (hp : p.Settled) (h : (Item.token w .colon).read p = some q) :
    p.sm = .transitionStart ∧ q.sm = .transitionFrom ∨
      Mark.opens p.sm.zone .colon = [false] ∧ (q.sm.IsProp ∨ q.sm = .data) := by
  obtain ⟨p₁, hprep, hsm⟩ := read_sm hp (by simp [Mark.closes]) h
  unfold Mark.prepare at hprep
  simp only at hprep
  split_ifs at hprep with hs hs'
  · obtain ⟨-, rfl⟩ := blockEnter_some hprep
    refine .inr ?_
    rcases hs with hs | hs | hs <;> simp only [hs, smAfter] at hsm <;> rw [hs, hsm]
    · refine ⟨rfl, .inl ?_⟩
      split_ifs <;> simp [Sm.IsProp]
    · refine ⟨rfl, .inl ?_⟩
      split_ifs <;> simp [Sm.IsProp]
    · refine ⟨rfl, ?_⟩
      split_ifs <;> simp [Sm.IsProp]
  · rw [← Option.some.inj hprep] at hsm
    simp only [hs', smAfter] at hsm
    exact .inl ⟨hs', hsm⟩

theorem read_semicolon (h : (Item.token w .semicolon).read p = some q) :
    p.sm.IsProp ∨ p.sm = .transitionTo ∨ p.sm = .stateAttribute := by
  obtain ⟨p₁, hprep, -⟩ := mark_nesting (read_token_iff.1 h).2
  unfold Mark.prepare at hprep
  simp only at hprep
  split_ifs at hprep with hs hs'
  · exact .inl hs
  · exact .inr hs'

theorem read_arobase (hp : p.Settled) (h : (Item.token w .arobase).read p = some q) :
    q.sm = .stateAttribute := by
  obtain ⟨p₁, hprep, hsm⟩ := read_sm hp (by simp [Mark.closes]) h
  unfold Mark.prepare at hprep
  simp only at hprep
  split_ifs at hprep with hs
  rw [← Option.some.inj hprep] at hsm
  simp only [hs] at hsm
  exact hsm

theorem read_arrow (hp : p.Settled) (hm : m = .greater ∨ m = .arrow)
    (h : (Item.token w m).read p = some q) :
    (p.sm = .transitionStart ∨ p.sm = .transitionFrom) ∧ q.sm = .transitionTo := by
  have hc : m.closes p.sm.zone = false := by
    rcases hm with rfl | rfl <;> simp [Mark.closes]
  obtain ⟨p₁, hprep, hsm⟩ := read_sm hp hc h
  rcases prepare_sm hprep with ⟨-, hs, hs'⟩ | ⟨hm', -⟩
  · rw [hs'] at hsm
    exact ⟨hs, hsm⟩
  · exact absurd hm hm'

/-- Items that open these blocks, whatever blocks are open. -/
structure Enters (p : Parser) (items : List Item) (opened : List Bool) (q : Parser) : Prop where
  blocks : q.blocks = opened ++ p.blocks
  other : ∀ bs, items.foldlM Item.read (p.withBlocks bs) = some (q.withBlocks (opened ++ bs))

theorem Enters.cons {items : List Item} {opened opened' : List Bool} {p₁ : Parser}
    (h : Enters p [i] opened p₁) (h' : Enters p₁ items opened' q) :
    Enters p (i :: items) (opened' ++ opened) q where
  blocks := by rw [h'.blocks, h.blocks, List.append_assoc]
  other bs := by
    rw [← List.singleton_append, List.foldlM_append, h.other bs, List.append_assoc]
    exact h'.other _

/-- A token whose mark ends no block. -/
theorem read_open (hp : p.Settled) (hc : m.closes p.sm.zone = false)
    (h : (Item.token w m).read p = some q) : Enters p [.token w m] (m.opens p.sm.zone) q := by
  obtain ⟨hw, h⟩ := read_token_iff.1 h
  obtain ⟨q₁, hb, hq, hother⟩ :=
    mark_withBlocks (p := { p with buf := w }) hp.leaveBlock h
  simp only [hc, Bool.false_eq_true, if_false] at hq hother
  obtain rfl := Option.some.inj hq
  refine ⟨hb, fun bs => ?_⟩
  rw [List.foldlM_cons, read_token_iff.2 ⟨hw, hother bs⟩]
  rfl

/-- A value, before its block ends. -/
theorem read_value (hp : p.Settled) (hprop : p.sm.IsProp)
    (h : (Item.token w .semicolon).read p = some q) : ∃ q₁ : Parser, q₁.blocks = p.blocks ∧
      q₁.leave = some q ∧
        ∀ bs, (Item.token w .semicolon).read (p.withBlocks bs) = (q₁.withBlocks bs).leave := by
  obtain ⟨hw, h⟩ := read_token_iff.1 h
  obtain ⟨q₁, hb, hq, hother⟩ :=
    mark_withBlocks (p := { p with buf := w }) hp.leaveBlock h
  have hc : Mark.closes p.sm.zone .semicolon = true := closes_iff.2 hprop
  simp only [hc, if_true] at hq hother
  refine ⟨q₁, hb, hq, fun bs => ?_⟩
  rw [Item.read, if_pos hw]
  exact hother bs

theorem property_items {name value : List Char} (hp : p.Settled)
    (h : (Leaf.property name value).items.foldlM Item.read p = some q) :
    ∃ q₁ : Parser, q₁.blocks = false :: p.blocks ∧ q₁.leave = some q ∧
      ∀ bs, (Leaf.property name value).items.foldlM Item.read (p.withBlocks bs) =
        (q₁.withBlocks (false :: bs)).leave := by
  obtain ⟨p₁, h₁, h⟩ := Option.bind_eq_some_iff.1 h
  obtain ⟨p₂, h₂, h⟩ := Option.bind_eq_some_iff.1 h
  obtain rfl := Option.some.inj h
  have hp₁ := read_settled hp h₁
  obtain ⟨hb, hother⟩ := read_open hp (by simp [Mark.closes]) h₁
  simp only [List.foldlM_cons, List.foldlM_nil] at hother
  have hs := read_semicolon h₂
  rcases read_colon hp h₁ with ⟨-, hsm⟩ | ⟨hopens, hsm⟩
  · simp [hsm, Sm.IsProp] at hs
  · have hprop : p₁.sm.IsProp := by
      rcases hsm with hsm | hsm
      · exact hsm
      · rw [hsm] at hs
        simp [Sm.IsProp] at hs
    obtain ⟨q₁, hb₁, hq, hvalue⟩ := read_value hp₁ hprop h₂
    rw [hopens] at hb hother
    refine ⟨q₁, hb₁.trans hb, hq, fun bs => ?_⟩
    have hname : [Item.token name .colon].foldlM Item.read (p.withBlocks bs) =
      some (p₁.withBlocks (false :: bs)) := hother bs
    rw [Leaf.items, Cc.property, ← List.singleton_append, List.foldlM_append, hname]
    show ((Item.token value .semicolon).read (p₁.withBlocks (false :: bs))).bind _ = _
    rw [hvalue]
    rcases (q₁.withBlocks (false :: bs)).leave <;> rfl

theorem arrow_items {origin target : List Char} (hp : p.Settled) (hm : m = .greater ∨ m = .arrow)
    (h : [Item.token origin m, .token target .semicolon].foldlM Item.read p = some q) :
    Enters p [.token origin m, .token target .semicolon] [] q ∧
      (p.sm = .transitionStart ∨ p.sm = .transitionFrom) := by
  obtain ⟨p₁, h₁, h⟩ := Option.bind_eq_some_iff.1 h
  obtain ⟨p₂, h₂, h⟩ := Option.bind_eq_some_iff.1 h
  obtain rfl := Option.some.inj h
  obtain ⟨hfrom, hsm⟩ := read_arrow hp hm h₁
  have horigin : Enters p [.token origin m] [] p₁ := by
    rcases hm with rfl | rfl <;> exact read_open hp (by simp [Mark.closes]) h₁
  have htarget : Enters p₁ [.token target .semicolon] [] p₂ :=
    read_open (read_settled hp h₁) (by rw [hsm]; rfl) h₂
  exact ⟨horigin.cons htarget, hfrom⟩

/-- A leaf that is no property opens no block and ends none. -/
theorem leaf_items {l : Leaf} (hl : l.isProperty = false) (hp : p.Settled)
    (h : l.items.foldlM Item.read p = some q) : Enters p l.items [] q := by
  rcases l with _ | ⟨name, origin, dashed, target⟩ | ⟨state, attr⟩
  case property => simp [Leaf.isProperty] at hl
  case line =>
    have hm : (if dashed then Mark.arrow else .greater) = .greater ∨
        (if dashed then Mark.arrow else .greater) = .arrow := by
      cases dashed <;> simp
    rcases name with _ | name
    · exact (arrow_items hp hm h).1
    · obtain ⟨p₁, h₁, h⟩ := Option.bind_eq_some_iff.1 h
      obtain ⟨hline, hfrom⟩ := arrow_items (read_settled hp h₁) hm h
      have hname := read_open hp (by simp [Mark.closes]) h₁
      rcases read_colon hp h₁ with ⟨hsm, -⟩ | ⟨-, hsm⟩
      · rw [hsm] at hname
        exact Enters.cons hname hline
      · rcases hsm with hsm | hsm
        · rcases hfrom with hfrom | hfrom <;> simp [hfrom, Sm.IsProp] at hsm
        · simp [hsm] at hfrom
  case attributed =>
    obtain ⟨p₁, h₁, h⟩ := Option.bind_eq_some_iff.1 h
    obtain ⟨p₂, h₂, h⟩ := Option.bind_eq_some_iff.1 h
    obtain rfl := Option.some.inj h
    have hsm := read_arobase hp h₁
    have hstate : Enters p [.token state .arobase] [] p₁ :=
      read_open hp (by simp [Mark.closes]) h₁
    exact hstate.cons (read_open (read_settled hp h₁) (by rw [hsm]; rfl) h₂)

/-- The name of a block, before a brace or a point. -/
theorem read_start (hp : p.Settled) (h : (Item.token w .blockStart).read p = some q) :
    Enters p [.token w .blockStart] [false] q ∧
      ∀ bs, (Item.token w .dot).read (p.withBlocks bs) = some (q.withBlocks (true :: bs)) := by
  refine ⟨read_open hp (by simp [Mark.closes]) h, fun bs => ?_⟩
  obtain ⟨hw, h⟩ := read_token_iff.1 h
  refine read_token_iff.2 ⟨hw, ?_⟩
  have hdot := @step_dot { p with buf := w } bs hp.leaveBlock
  rw [h] at hdot
  exact hdot

theorem head_items {name : List Char} {attr : Option (List Char)} (hp : p.Settled)
    (h : (blockHead name attr .blockStart).foldlM Item.read p = some q) :
    Enters p (blockHead name attr .blockStart) [false] q ∧
      ∀ bs, (blockHead name attr .dot).foldlM Item.read (p.withBlocks bs) =
        some (q.withBlocks (true :: bs)) := by
  rcases attr with _ | attr
  · obtain ⟨p₁, h₁, h⟩ := Option.bind_eq_some_iff.1 h
    obtain rfl := Option.some.inj h
    obtain ⟨hopen, hdot⟩ := read_start hp h₁
    refine ⟨hopen, fun bs => ?_⟩
    rw [blockHead, List.foldlM_cons, hdot]
    rfl
  · obtain ⟨p₁, h₁, h⟩ := Option.bind_eq_some_iff.1 h
    obtain ⟨p₂, h₂, h⟩ := Option.bind_eq_some_iff.1 h
    obtain rfl := Option.some.inj h
    obtain ⟨hopen, hdot⟩ := read_start (read_settled hp h₁) h₂
    have hname : Enters p [.token name .arobase] [] p₁ := read_open hp (by simp [Mark.closes]) h₁
    refine ⟨hname.cons hopen, fun bs => ?_⟩
    rw [blockHead, ← List.singleton_append, List.foldlM_append, hname.other bs]
    show ((Item.token attr .dot).read (p₁.withBlocks bs)).bind _ = _
    rw [hdot]
    rfl

end Leaves

section Ends

variable {p q : Parser} {bs : List Bool}

/-- Every block ends where it says so, and no other with it. -/
def AllLong (bs : List Bool) : Prop := ∀ b ∈ bs, b = false

theorem leave_fsms (h : p.leave = some q) : q.fsms = p.fsms := by
  obtain ⟨b, -, rfl⟩ := Option.map_eq_some_iff.1 h
  rfl

/-- The end of one block. -/
theorem leave_one {b : Bool} (hbs : bs.head? ≠ some true) :
    (p.withBlocks (b :: bs)).leave =
      some { p with blocks := bs, sm := p.sm.parent, leaveBlock := false } := by
  simp only [Parser.leave, blockLeave, if_neg hbs, Option.map_some]

theorem leave_long (hp : AllLong p.blocks) (h : p.leave = some q) :
    q = { p with blocks := p.blocks.tail, sm := p.sm.parent, leaveBlock := false } ∧
      AllLong q.blocks := by
  rcases hb : p.blocks with _ | ⟨b, bs⟩
  · simp [Parser.leave, hb, blockLeave] at h
  · have hbs : AllLong bs := fun c hc => hp c (by simp [hb, hc])
    have hhead : bs.head? ≠ some true := by
      intro hh
      simpa using hbs true (List.mem_of_mem_head? hh)
    have hone := leave_one (p := p) (b := b) hhead
    rw [← hb] at hone
    obtain rfl := Option.some.inj (hone.symm.trans h)
    exact ⟨rfl, hbs⟩

/-- The ends of blocks that abbreviated blocks end with: a single end does what one after the
other does in the long syntax. -/
theorem leave_chain : ∀ (n : ℕ) {p : Parser} {b : Bool}, AllLong p.blocks →
    bs.head? ≠ some true → (List.replicate (n + 1) Item.blockEnd).foldlM Item.read p = some q →
      (p.withBlocks (b :: (List.replicate n true ++ bs))).leave = some (q.withBlocks bs)
  | 0, p, b, hp, hbs, h => by
    obtain ⟨p₁, h₁, h⟩ := Option.bind_eq_some_iff.1 h
    obtain rfl := Option.some.inj h
    obtain ⟨rfl, -⟩ := leave_long hp h₁
    exact leave_one hbs
  | n + 1, p, b, hp, hbs, h => by
    rw [List.replicate_succ, List.foldlM_cons] at h
    obtain ⟨p₁, h₁, h⟩ := Option.bind_eq_some_iff.1 h
    obtain ⟨hp₁, hlong⟩ := leave_long hp h₁
    have ih := leave_chain (b := true) n hlong hbs h
    rw [← ih, hp₁]
    -- the flag below has the next block end too
    have hnext : blockLeave (b :: (List.replicate (n + 1) true ++ bs)) p.sm =
        blockLeave (true :: (List.replicate n true ++ bs)) p.sm.parent := rfl
    simp only [Parser.leave, hnext]

/-- How many ends of blocks can follow. -/
def room : List Bool → ℕ
  | [] => 0
  | _ :: bs => bs.count false + 1

theorem room_of_head (hbs : bs.head? ≠ some true) : room bs = bs.count false := by
  rcases bs with _ | ⟨b, bs⟩
  · rfl
  · have hb : b = false := by simpa using hbs
    rw [hb, List.count_cons_self]
    rfl

theorem blockLeave_room : ∀ {bs : List Bool} {sm : Sm}, 0 < room bs →
    ∃ bs' sm', blockLeave bs sm = some (bs', sm') ∧ room bs = room bs' + 1
  | [], sm, h => by simp [room] at h
  | b :: bs, sm, h => by
    unfold blockLeave
    by_cases hbs : bs.head? = some true
    · obtain ⟨rest, rfl⟩ : ∃ rest, bs = true :: rest := by
        rcases bs with _ | ⟨c, rest⟩
        · simp at hbs
        · exact ⟨rest, by rw [List.head?_cons, Option.some.injEq] at hbs; rw [hbs]⟩
      obtain ⟨bs', sm', hl, hr⟩ := @blockLeave_room (true :: rest) sm.parent
        (by simp [room])
      refine ⟨bs', sm', by rw [if_pos hbs]; exact hl, ?_⟩
      rw [← hr]
      simp [room]
    · exact ⟨bs, sm.parent, by rw [if_neg hbs], by rw [room_of_head hbs]; rfl⟩

theorem leave_room (h : 0 < room p.blocks) :
    ∃ q, p.leave = some q ∧ q.fsms = p.fsms ∧ room p.blocks = room q.blocks + 1 := by
  obtain ⟨bs', sm', hl, hr⟩ := @blockLeave_room p.blocks p.sm h
  refine ⟨{ p with blocks := bs', sm := sm', leaveBlock := false }, ?_, rfl, hr⟩
  rw [Parser.leave, hl]
  rfl

/-- Any number of ends in the long syntax. -/
theorem ends_long : ∀ {n : ℕ} {p : Parser}, AllLong p.blocks →
    (List.replicate n Item.blockEnd).foldlM Item.read p = some q →
      AllLong q.blocks ∧ q.fsms = p.fsms
  | 0, p, hp, h => Option.some.inj h ▸ ⟨hp, rfl⟩
  | n + 1, p, hp, h => by
    rw [List.replicate_succ, List.foldlM_cons] at h
    obtain ⟨p₁, h₁, h⟩ := Option.bind_eq_some_iff.1 h
    obtain ⟨hq, hfsms⟩ := ends_long (leave_long hp h₁).2 h
    exact ⟨hq, hfsms.trans (leave_fsms h₁)⟩

theorem room_le (n : ℕ) (hbs : bs.head? ≠ some true) :
    room bs ≤ room (List.replicate n true ++ bs) := by
  cases n
  case zero => rfl
  case succ n =>
    rw [room_of_head hbs, List.replicate_succ, List.cons_append, room, List.count_append,
      List.count_replicate]
    simp

end Ends

section Documents

variable {p q q' : Parser} {bs opened : List Bool} {last b : Bool} {n : ℕ}
  {long long' short short' : List Item} {l : Leaf} {name : List Char} {attr : Option (List Char)}

/-- The parser of the abbreviated text is that of the long one, with its own blocks open. Or it
holds the same machines where only ends of blocks follow, and can leave as many blocks. -/
def Unwound (last : Bool) (bs : List Bool) (q q' : Parser) : Prop :=
  q' = q.withBlocks bs ∨ last = true ∧ q'.fsms = q.fsms ∧ room bs ≤ room q'.blocks

/-- Read inside the blocks `opened`, the abbreviated items do what the long ones do, and leave
those blocks. -/
def Unfolds (last : Bool) (opened : List Bool) (long short : List Item) : Prop :=
  ∀ ⦃p q : Parser⦄ ⦃bs : List Bool⦄, p.Settled → AllLong p.blocks → bs.head? ≠ some true →
    long.foldlM Item.read p = some q → AllLong q.blocks ∧
      ∃ q', short.foldlM Item.read (p.withBlocks (opened ++ bs)) = some q' ∧ Unwound last bs q q'

theorem Unfolds.nil : Unfolds last [] [] [] := by
  intro p q bs _ hp _ h
  obtain rfl := Option.some.inj h
  exact ⟨hp, _, rfl, .inl rfl⟩

/-- Where blocks may be left open, nothing may follow. -/
theorem Unfolds.append (h : Unfolds (last && b) opened long short)
    (h' : Unfolds last [] long' short') (hnil : b = true → long' = [] ∧ short' = []) :
    Unfolds last opened (long ++ long') (short ++ short') := by
  intro p q bs hset hp hbs hrun
  rw [List.foldlM_append] at hrun
  obtain ⟨p₁, h₁, hrun⟩ := Option.bind_eq_some_iff.1 hrun
  obtain ⟨hp₁, q₁, hq₁, hunw⟩ := h hset hp hbs h₁
  rw [List.foldlM_append, hq₁]
  rcases hunw with rfl | ⟨hlast, hfsms, hroom⟩
  · exact h' (run_settled hset h₁) hp₁ hbs hrun
  · obtain ⟨hlast, hb⟩ := Bool.and_eq_true_iff.1 hlast
    obtain ⟨rfl, rfl⟩ := hnil hb
    obtain rfl := Option.some.inj hrun
    exact ⟨hp₁, q₁, rfl, .inr ⟨hlast, hfsms, hroom⟩⟩

/-- A leaf in `n` abbreviated blocks: a value unwinds them, another leaf leaves them open. -/
theorem leaf_unfolds (h : n = 0 ∨ l.isProperty = true ∨ last = true) :
    Unfolds last (List.replicate n true) (l.items ++ List.replicate n .blockEnd) l.items := by
  intro p q bs hset hp hbs hrun
  rw [List.foldlM_append] at hrun
  obtain ⟨p₁, h₁, hends⟩ := Option.bind_eq_some_iff.1 hrun
  by_cases hl : l.isProperty = true
  · rcases l with ⟨name, value⟩ | _ | _ <;> simp only [Leaf.isProperty, Bool.false_eq_true] at hl
    obtain ⟨q₁, hb, hleave, hother⟩ := property_items hset h₁
    have hlong : AllLong q₁.blocks := by
      rw [hb]
      exact List.forall_mem_cons.2 ⟨rfl, hp⟩
    have hchain : (List.replicate (n + 1) Item.blockEnd).foldlM Item.read q₁ = some q := by
      rw [List.replicate_succ, List.foldlM_cons]
      exact Option.bind_eq_some_iff.2 ⟨p₁, hleave, hends⟩
    refine ⟨(ends_long hlong hchain).1, q.withBlocks bs, ?_, .inl rfl⟩
    rw [hother]
    exact leave_chain n hlong hbs hchain
  · obtain ⟨hb, hother⟩ := leaf_items (by simpa using hl) hset h₁
    have hlong : AllLong p₁.blocks := by
      rw [hb]
      exact hp
    obtain ⟨hq, hfsms⟩ := ends_long hlong hends
    refine ⟨hq, _, hother _, ?_⟩
    rcases h with rfl | h
    · obtain rfl := Option.some.inj hends
      exact .inl rfl
    · exact .inr ⟨h.resolve_left hl, hfsms.symm, room_le n hbs⟩

/-- A block that is not abbreviated, in `n` blocks that are. -/
theorem block_unfolds (h : Unfolds last [] long short) :
    Unfolds last (List.replicate n true)
      (blockHead name attr .blockStart ++ (long ++ List.replicate (n + 1) .blockEnd))
      (blockHead name attr .blockStart ++ (short ++ [.blockEnd])) := by
  intro p q bs hset hp hbs hrun
  rw [List.foldlM_append] at hrun
  obtain ⟨p₁, h₁, hrun⟩ := Option.bind_eq_some_iff.1 hrun
  rw [List.foldlM_append] at hrun
  obtain ⟨p₂, h₂, hends⟩ := Option.bind_eq_some_iff.1 hrun
  obtain ⟨hb, hother⟩ := (head_items hset h₁).1
  have hlong : AllLong p₁.blocks := by
    rw [hb]
    exact List.forall_mem_cons.2 ⟨rfl, hp⟩
  obtain ⟨hp₂, q₂, hq₂, hunw⟩ :=
    @h _ _ (false :: (List.replicate n true ++ bs)) (run_settled hset h₁) hlong (by simp) h₂
  obtain ⟨hq, hfsms⟩ := ends_long hp₂ hends
  have hshort : (blockHead name attr .blockStart ++ (short ++ [Item.blockEnd])).foldlM Item.read
      (p.withBlocks (List.replicate n true ++ bs)) = q₂.leave := by
    rw [List.foldlM_append, hother, Option.bind_eq_bind, Option.bind_some, List.foldlM_append,
      List.singleton_append]
    rw [List.nil_append] at hq₂
    rw [hq₂]
    show q₂.leave.bind some = q₂.leave
    rcases q₂.leave <;> rfl
  refine ⟨hq, ?_⟩
  rw [hshort]
  rcases hunw with rfl | ⟨hlast, hfsms', hroom⟩
  · exact ⟨_, leave_chain n hp₂ hbs hends, .inl rfl⟩
  · -- blocks are open inside this one, and there is room for its end
    have hcount : room (false :: (List.replicate n true ++ bs)) = room bs + 1 := by
      rw [room, List.count_append, List.count_replicate, room_of_head hbs]
      simp
    obtain ⟨q₃, hleave, hfsms₃, hroom₃⟩ := leave_room (p := q₂) (by omega)
    exact ⟨q₃, hleave, .inr ⟨hlast, hfsms₃.trans (hfsms'.trans hfsms.symm), by omega⟩⟩

/-- An abbreviated block is one more that its item unwinds. -/
theorem abbreviated_unfolds
    (h : Unfolds last (List.replicate (n + 1) true)
      (long ++ List.replicate (n + 1) .blockEnd) short) :
    Unfolds last (List.replicate n true)
      (blockHead name attr .blockStart ++ (long ++ List.replicate (n + 1) .blockEnd))
      (blockHead name attr .dot ++ short) := by
  intro p q bs hset hp hbs hrun
  rw [List.foldlM_append] at hrun
  obtain ⟨p₁, h₁, hrun⟩ := Option.bind_eq_some_iff.1 hrun
  obtain ⟨⟨hb, -⟩, hdot⟩ := head_items hset h₁
  have hlong : AllLong p₁.blocks := by
    rw [hb]
    exact List.forall_mem_cons.2 ⟨rfl, hp⟩
  rw [List.foldlM_append, hdot]
  exact h (run_settled hset h₁) hlong hbs hrun

theorem Body.eq_nil {doc : Body} (h : doc.isNil = true) : doc = .nil := by
  rcases doc <;> first | rfl | simp [Body.isNil] at h

/-- An item of a document and the rest of it, which is nothing inside an abbreviated block. -/
theorem rest_unfolds {rest : Body} {front front' : List Item} (hone : n ≠ 0 → rest.isNil = true)
    (hfront : Unfolds (last && rest.isNil) (List.replicate n true)
      (front ++ List.replicate n .blockEnd) front')
    (hrest : n = 0 → Unfolds last [] rest.long rest.short) :
    Unfolds last (List.replicate n true)
      (front ++ rest.long ++ List.replicate n .blockEnd) (front' ++ rest.short) := by
  have hnil : rest.isNil = true → rest.long = [] ∧ rest.short = [] := by
    intro h
    rw [Body.eq_nil h]
    exact ⟨rfl, rfl⟩
  cases n
  case zero =>
    simp only [List.replicate_zero, List.append_nil] at hfront ⊢
    exact hfront.append (hrest rfl) hnil
  case succ n =>
    have hone' := hone (by simp)
    obtain ⟨hlong, hshort⟩ := hnil hone'
    rw [hone', Bool.and_true] at hfront
    rw [hlong, hshort, List.append_nil, List.append_nil]
    exact hfront

/-- A document that stands in `n` abbreviated blocks. -/
theorem Body.unfolds : ∀ (doc : Body) {n : ℕ} {last : Bool}, doc.abbreviable = true →
    (n ≠ 0 → doc.isOne = true) → doc.unwinds (n ≠ 0) last = true →
      Unfolds last (List.replicate n true) (doc.long ++ List.replicate n .blockEnd) doc.short
  | .nil, n, last, _, hone, _ => by
    have hn : n = 0 := by
      by_contra hne
      simpa [isOne] using hone hne
    subst hn
    exact Unfolds.nil
  | .leaf l rest, n, last, habbr, hone, hunw => by
    simp only [unwinds, Bool.and_eq_true] at hunw
    obtain ⟨hleaf, hrest⟩ := hunw
    refine rest_unfolds hone (leaf_unfolds ?_) ?_
    · by_cases hn : n = 0
      · exact .inl hn
      · simpa [hn] using hleaf
    · rintro rfl
      simpa using rest.unfolds (n := 0) habbr (by simp) hrest
  | .block abbreviated name attr body rest, n, last, habbr, hone, hunw => by
    simp only [unwinds, abbreviable, Bool.and_eq_true] at hunw habbr
    obtain ⟨hbody, hrest⟩ := hunw
    obtain ⟨⟨hitem, habbr⟩, habbr'⟩ := habbr
    have hlong : (block abbreviated name attr body rest).long =
        blockHead name attr .blockStart ++ (body.long ++ [.blockEnd]) ++ rest.long := by
      simp [long]
    have hends : blockHead name attr .blockStart ++ (body.long ++ [Item.blockEnd]) ++
        List.replicate n .blockEnd =
          blockHead name attr .blockStart ++ (body.long ++ List.replicate (n + 1) .blockEnd) := by
      simp [List.replicate_succ]
    have hrest' : n = 0 → Unfolds last [] rest.long rest.short := by
      rintro rfl
      simpa using rest.unfolds (n := 0) habbr' (by simp) hrest
    rw [hlong]
    cases abbreviated
    case false =>
      have ih := body.unfolds (n := 0) habbr (by simp) hbody
      simp only [List.replicate_zero, List.append_nil] at ih
      have hshort : (block false name attr body rest).short =
          blockHead name attr .blockStart ++ (body.short ++ [.blockEnd]) ++ rest.short := by
        simp [short]
      rw [hshort]
      refine rest_unfolds hone ?_ hrest'
      rw [hends]
      exact block_unfolds ih
    case true =>
      have ih := body.unfolds (n := n + 1) habbr (fun _ => by simpa using hitem)
        (by simpa using hbody)
      have hshort : (block true name attr body rest).short =
          blockHead name attr .dot ++ body.short ++ rest.short := by
        simp [short]
      rw [hshort]
      refine rest_unfolds hone ?_ hrest'
      rw [hends]
      exact abbreviated_unfolds ih

end Documents

section Files

variable {doc : Body} {long short src : List Char} {items : List Item} {r : Cursor} {p : Parser}

theorem run_fileItems (h : fileItems src = some items) :
    (reading src).lexemes.foldlM Lexeme.step {} = items.foldlM Item.read {} :=
  run_items fresh_settled (by simp) (.inl rfl) (lex_word isEof .none src) h

/-- Where every line of a model and every attribute that is the one item of an abbreviated block
is followed by ends of blocks only, the abbreviated text is accepted as the long one is. -/
theorem accepted_of_unwinds (hlong : fileItems long = some doc.long)
    (hshort : fileItems short = some doc.short) (habbr : doc.abbreviable = true)
    (hunw : doc.unwinds false true = true) : AsAccepted long short := by
  intro r p h
  have hrun := foldlM_of_parseRun h
  rw [run_fileItems hlong] at hrun
  have hunf := @Body.unfolds doc 0 true habbr (by simp) hunw
  simp only [List.replicate_zero, List.append_nil] at hunf
  obtain ⟨-, q, hq, hres⟩ := @hunf _ _ [] fresh_settled (by simp [AllLong]) (by simp) hrun
  have hfsms : q.fsms = p.fsms := by
    rcases hres with rfl | ⟨-, hfsms, -⟩
    · rfl
    · exact hfsms
  obtain ⟨r', h'⟩ := parseRun_of_foldlM ((run_fileItems hshort).trans hq)
  exact ⟨r', q, h', hfsms⟩

/-- A machine described by abbreviated blocks, the model of its transitions the last of them. -/
def abbreviated : Body :=
  .block false "m".toList none
    (.block true "data".toList none (.leaf (.property "global".toList "x".toList) .nil)
      (.block false "states".toList none
        (.block true "a".toList (some "init".toList)
          (.block true "enterer".toList none (.leaf (.property "func".toList "f".toList) .nil) .nil)
          (.block false "b".toList none .nil .nil))
        (.block true "transitions".toList none
          (.block true "model".toList none
            (.leaf (.line (some "t".toList) "a".toList true "b".toList) .nil) .nil) .nil))) .nil

def abbreviatedLong : List Char :=
  "m \x7b data \x7b global: x; \x7d ".toList ++
  "states \x7b a @init \x7b enterer \x7b func: f; \x7d \x7d b \x7b\x7d \x7d ".toList ++
  "transitions \x7b model \x7b t: a -> b; \x7d \x7d \x7d".toList

def abbreviatedShort : List Char :=
  "m \x7b data.global: x; ".toList ++
  "states \x7b a @init.enterer.func: f; b \x7b\x7d \x7d ".toList ++
  "transitions.model.t: a -> b; \x7d".toList

theorem abbreviated_accepted : (∃ r p, parseRun abbreviatedLong = .ok (r, p)) ∧
    AsAccepted abbreviatedLong abbreviatedShort :=
  ⟨exists_parseRun (by decide +kernel), @accepted_of_unwinds abbreviated _ _ (by decide +kernel)
    (by decide +kernel) (by decide) (by decide)⟩

/-- A machine with states behind its model, which is to be abbreviated. -/
def modelFirst : Body :=
  .block false "m".toList none
    (.block false "transitions".toList none
      (.block true "model".toList none
        (.leaf (.line (some "t".toList) "a".toList false "b".toList) .nil) .nil)
      (.block false "states".toList none .nil .nil)) .nil

def modelFirstLong : List Char :=
  "m\x7btransitions\x7bmodel\x7bt:a>b;\x7d\x7dstates\x7b\x7d\x7d".toList

/-- Its model is still open where the transitions end, so `states` is read as a transition. -/
def modelFirstShort : List Char :=
  "m\x7btransitions\x7bmodel.t:a>b;\x7dstates\x7b\x7d\x7d".toList

theorem modelFirst_not_accepted : ¬ ∀ (doc : Body) (long short : List Char),
    fileItems long = some doc.long → fileItems short = some doc.short → doc.abbreviable = true →
      AsAccepted long short := by
  intro h
  have hfirst := h modelFirst modelFirstLong modelFirstShort (by decide +kernel) (by decide +kernel)
    (by decide)
  obtain ⟨r, p, hlong⟩ := exists_parseRun (show
    (parseRun modelFirstLong).toOption.isSome = true by decide +kernel)
  obtain ⟨r', p', hshort, -⟩ := hfirst r p hlong
  have hrefused : (parseRun modelFirstShort).toOption.isSome = false := by decide +kernel
  rw [hshort] at hrefused
  simp [Except.toOption] at hrefused

-- What is read in the wrong block may come out the same: here the machine `data` is read as a
-- block of `m`, and the block in it as the machine.
example :
    let rest := "data\x7btransitions\x7bmodel\x7b\x7d\x7ddata\x7b\x7d\x7d".toList
    let machines (src : List Char) := (parserParse src).map fun f => (f.name, f.states.keys, f.init)
    machines ("m\x7bstates.s@init;\x7d".toList ++ rest) =
      machines ("m\x7bstates\x7bs@init;\x7d\x7d".toList ++ rest) := by
  decide +kernel

end Files

end Estate.Cc
