import Estate.Cc.Nesting
import Estate.Proofs.Tokens

/-!
# The blocks and the state of the parser

A character that keeps the blocks in step with the state is exactly one of `KeepsStep`, so they
stay in step along a run exactly when every round is one (`inStep_iff`).
-/

namespace Estate.Cc

/-! ## Leaving a block -/

/-- The states in which the end of a block leads to the parent state. -/
def Sm.Climbs (sm : Sm) : Prop :=
  sm ≠ .transitionFrom ∧ sm ≠ .transitionTo ∧ sm ≠ .stateAttribute ∧ sm ≠ .stateEob

theorem parent_depth {sm : Sm} (h : sm.Climbs) (h0 : sm.depth ≠ 0) :
    sm.parent.depth + 1 = sm.depth ∧ sm.parent.Climbs := by
  obtain ⟨h₁, h₂, h₃, h₄⟩ := h
  cases sm <;> simp_all [Sm.parent, Sm.depth, Sm.Climbs]

/-- Every block left is a state left. -/
theorem blockLeave_inStep : ∀ {blocks blocks' : List Bool} {sm sm' : Sm}, sm.Climbs →
    blocks.length = sm.depth → blockLeave blocks sm = some (blocks', sm') →
      blocks'.length = sm'.depth ∧ sm'.Climbs
  | [], _, _, _, _, _, h => by simp [blockLeave] at h
  | b :: blocks, blocks', sm, sm', hc, hl, h => by
    have hne : sm.depth ≠ 0 := by
      rw [← hl]
      simp
    obtain ⟨hd, hc'⟩ := parent_depth hc hne
    have hl' : blocks.length = sm.parent.depth := by
      simp only [List.length_cons] at hl
      omega
    unfold blockLeave at h
    split_ifs at h with ht
    · exact blockLeave_inStep hc' hl' h
    · simp only [Option.some.injEq, Prod.mk.injEq] at h
      obtain ⟨rfl, rfl⟩ := h
      exact ⟨hl', hc'⟩

/-- In the other states blocks are left and the state stays. -/
theorem blockLeave_stuck {sm : Sm} (hs : sm.parent = sm) : ∀ {blocks blocks' : List Bool} {sm' : Sm},
    blockLeave blocks sm = some (blocks', sm') → sm' = sm ∧ blocks'.length < blocks.length
  | [], _, _, h => by simp [blockLeave] at h
  | b :: blocks, blocks', sm', h => by
    unfold blockLeave at h
    rw [hs] at h
    split_ifs at h
    · obtain ⟨h₁, h₂⟩ := blockLeave_stuck hs h
      exact ⟨h₁, Nat.lt_succ_of_lt h₂⟩
    · simp only [Option.some.injEq, Prod.mk.injEq] at h
      obtain ⟨rfl, rfl⟩ := h
      exact ⟨rfl, Nat.lt_succ_self _⟩

section Round

variable {p q : Parser} {m : Mark} {l : Lexeme}

theorem hand_nesting : p.hand.blocks = p.blocks ∧ p.hand.sm = p.sm ∧ p.hand.buf = p.buf ∧
    p.hand.leaveBlock = p.leaveBlock := by
  unfold Parser.hand
  split_ifs <;> exact ⟨rfl, rfl, rfl, rfl⟩

theorem leave_nesting (h : p.leave = some q) : blockLeave p.blocks p.sm = some (q.blocks, q.sm) := by
  unfold Parser.leave at h
  obtain ⟨b, hb, rfl⟩ := Option.map_eq_some_iff.1 h
  exact hb

/-- What a mark does to the blocks and the state. -/
theorem mark_nesting (h : (Lexeme.mark m).step p = some q) :
    ∃ p₁, m.prepare p = some p₁ ∧
      (p₁.leaveBlock = false ∧ q.blocks = p₁.blocks ∧ q.sm = smAfter p₁.sm p.buf m.char ∨
        p₁.leaveBlock = true ∧
          blockLeave p₁.blocks (smAfter p₁.sm p.buf m.char) = some (q.blocks, q.sm)) := by
  obtain ⟨p₁, q₁, hp, ht, hq⟩ := mark_ok h
  obtain ⟨hf, hsm⟩ := ht.frame
  obtain ⟨hb, hs, hbuf, hl⟩ := hand_nesting (p := p₁)
  rw [hs, hbuf, (prepare_frame hp).buf] at hsm
  refine ⟨p₁, hp, ?_⟩
  rcases hq with ⟨hl', rfl⟩ | ⟨hl', hq⟩
  · exact .inl ⟨by rw [← hl, ← hf.leaveBlock, hl'], hf.blocks.trans hb, hsm⟩
  · refine .inr ⟨by rw [← hl, ← hf.leaveBlock, hl'], ?_⟩
    rw [← leave_nesting hq, ← hb, ← hf.blocks, ← hsm]
    rfl

/-- The lexemes that nest the blocks as they nest the state. -/
def Lexeme.Keeps (p : Parser) : Lexeme → Prop
  | .blockEnd => p.sm ≠ .transitionFrom ∧ p.sm ≠ .transitionTo ∧ p.sm ≠ .stateAttribute
  | .mark .dot | .mark .blockStart =>
    (p.sm = .data → p.buf = "global".toList) ∧ p.sm ≠ .transitionStart
  | .mark .colon => p.sm = .data → p.buf = "global".toList
  | _ => True

/-- A block opened before the token nests as deep as the state the token leads to. -/
theorem enter_depth {sm : Sm} {buf : List Char} {c : Char} (hb : smBlockIs sm = true) (hc : c ≠ '@')
    (hs : c ≠ ';') : sm.depth + 1 = (smAfter sm buf c).depth ↔
      (sm = .data → buf = "global".toList) ∧ sm ≠ .transitionStart := by
  cases sm
  case data =>
    by_cases hg : buf = "global".toList
    · have hafter : smAfter .data buf c = .dataGlobalProp := if_pos hg
      rw [hafter]
      exact iff_of_true rfl ⟨fun _ => hg, by simp⟩
    · have hafter : smAfter .data buf c = .data := if_neg hg
      rw [hafter]
      exact iff_of_false (by decide) fun h => hg (h.1 rfl)
  case transitionStart => simp [smAfter, Sm.depth]
  case states => simp [smAfter, if_neg hc, Sm.depth]
  case stateAttribute => simp [smAfter, if_neg hs, Sm.depth]
  all_goals
    simp only [smBlockIs, Bool.false_eq_true] at hb
  all_goals
    simp only [smAfter, reduceCtorEq, false_implies, ne_eq, not_false_iff, and_self, iff_true]
    first | rfl | split_ifs <;> rfl

theorem smAfter_ne_eob {sm : Sm} {buf : List Char} {c : Char} (h : sm ≠ .stateEob) :
    smAfter sm buf c ≠ .stateEob := by
  cases sm <;> simp only [smAfter] <;> (try split_ifs) <;> first | exact h | simp

/-- Blocks and state in step, in a state that the parser has. -/
structure Parser.Nested (p : Parser) : Prop where
  inStep : p.InStep
  known : p.sm ≠ .stateEob

theorem climbs_iff (h : p.sm ≠ .stateEob) : p.sm.Climbs ↔
    p.sm ≠ .transitionFrom ∧ p.sm ≠ .transitionTo ∧ p.sm ≠ .stateAttribute := by
  simp only [Sm.Climbs, h, ne_eq, not_false_iff, and_true]

theorem step_blockEnd_nested (hp : p.Settled) (hn : p.Nested)
    (h : Lexeme.blockEnd.step p = some q) :
    (q.InStep ↔ Lexeme.blockEnd.Keeps p) ∧ q.sm ≠ .stateEob := by
  rw [step_blockEnd hp] at h
  have hl := leave_nesting h
  by_cases hc : p.sm.Climbs
  · obtain ⟨hd, hc'⟩ := blockLeave_inStep hc hn.inStep hl
    exact ⟨iff_of_true hd ((climbs_iff hn.known).1 hc), hc'.2.2.2⟩
  · have hstuck : p.sm.parent = p.sm := by
      have hc' := mt (climbs_iff hn.known).2 hc
      cases hsm : p.sm <;> simp_all [Sm.parent]
    obtain ⟨hsm, hlt⟩ := blockLeave_stuck hstuck hl
    refine ⟨iff_of_false (fun hd => ?_) (mt (climbs_iff hn.known).2 hc), hsm ▸ hn.known⟩
    have hin := hn.inStep
    unfold Parser.InStep at hd hin
    rw [hsm] at hd
    omega

theorem enter_nested (hn : p.Nested) {abbr : Bool} {p₁ : Parser}
    (hp : blockEnter p abbr = some p₁) {c : Char} (hc : c ≠ '@') (hs : c ≠ ';')
    (hb : q.blocks = p₁.blocks) (hsm : q.sm = smAfter p₁.sm p.buf c) :
    (q.InStep ↔ (p.sm = .data → p.buf = "global".toList) ∧ p.sm ≠ .transitionStart) ∧
      q.sm ≠ .stateEob := by
  obtain ⟨hblock, rfl⟩ := blockEnter_some hp
  have hin := hn.inStep
  unfold Parser.InStep at hin ⊢
  rw [hb, hsm, ← enter_depth hblock hc hs, List.length_cons, hin]
  exact ⟨Iff.rfl, smAfter_ne_eob hn.known⟩

/-- A mark that opens no block and closes none. -/
theorem flat_nested (hn : p.Nested) {sm : Sm} (hb : q.blocks = p.blocks) (hsm : q.sm = sm)
    (hd : sm.depth = p.sm.depth) (hk : sm ≠ .stateEob) : q.InStep ∧ q.sm ≠ .stateEob := by
  have hin := hn.inStep
  unfold Parser.InStep at hin ⊢
  rw [hb, hsm, hin, hd]
  exact ⟨rfl, hk⟩

/-- An arrow stands after a token of the model. -/
theorem anonymousTransit_from {format : String}
    (h : (anonymousTransit p format).sm = .transitionFrom) :
    (p.sm = .transitionStart ∨ p.sm = .transitionFrom) ∧
      (anonymousTransit p format).blocks = p.blocks ∧
      (anonymousTransit p format).leaveBlock = p.leaveBlock := by
  unfold anonymousTransit at h ⊢
  split_ifs at h ⊢ with hs
  · exact ⟨.inl hs.1, rfl, rfl⟩
  · exact ⟨.inr h, rfl, rfl⟩

/-- Only an arrow changes the state before its token, where a line begins without a name. -/
theorem prepare_sm (h : m.prepare p = some q) :
    (m = .greater ∨ m = .arrow) ∧ (p.sm = .transitionStart ∨ p.sm = .transitionFrom) ∧
        q.sm = .transitionFrom ∨
      ¬ (m = .greater ∨ m = .arrow) ∧ q.sm = p.sm := by
  rcases prepare_cases h with ⟨hm, format, hfrom, rfl⟩ | ⟨hm, bs, b, rfl⟩
  · exact .inl ⟨hm, (anonymousTransit_from hfrom).1, hfrom⟩
  · exact .inr ⟨hm, rfl⟩

theorem arrow_nested (hp : p.Settled) (hn : p.Nested) {format : String} {p₁ : Parser} {c : Char}
    (hprep : (if (anonymousTransit p format).sm = .transitionFrom then
      some { anonymousTransit p format with hasToken := true } else none) = some p₁)
    (hq : p₁.leaveBlock = false ∧ q.blocks = p₁.blocks ∧ q.sm = smAfter p₁.sm p.buf c ∨
      p₁.leaveBlock = true ∧
        blockLeave p₁.blocks (smAfter p₁.sm p.buf c) = some (q.blocks, q.sm)) :
    q.InStep ∧ q.sm ≠ .stateEob := by
  split_ifs at hprep with hfrom
  obtain ⟨hs, hb, hl⟩ := anonymousTransit_from hfrom
  obtain rfl := (Option.some.inj hprep).symm
  rw [hp.leaveBlock] at hl
  rcases hq with ⟨-, hb', hsm⟩ | ⟨hl', -⟩
  · refine flat_nested hn (hb'.trans hb) (hsm.trans (congrArg (smAfter · p.buf c) hfrom)) ?_
      (by simp [smAfter])
    rcases hs with hs | hs <;> rw [hs] <;> rfl
  · exact absurd (hl.symm.trans hl') (by simp)

theorem step_mark_nested (hp : p.Settled) (hn : p.Nested) (h : (Lexeme.mark m).step p = some q) :
    (q.InStep ↔ (Lexeme.mark m).Keeps p) ∧ q.sm ≠ .stateEob := by
  obtain ⟨p₁, hprep, hq⟩ := mark_nesting h
  have hl := hp.leaveBlock
  have hopen : ∀ {abbr : Bool}, blockEnter p abbr = some p₁ → m.char ≠ '@' → m.char ≠ ';' →
      (q.InStep ↔ (p.sm = .data → p.buf = "global".toList) ∧ p.sm ≠ .transitionStart) ∧
        q.sm ≠ .stateEob := by
    intro abbr hprep hc hs
    have hl' : p₁.leaveBlock = false := by rw [(blockEnter_some hprep).2, hl]
    rcases hq with ⟨-, hb, hsm⟩ | ⟨hl'', -⟩
    · exact enter_nested hn hprep hc hs hb hsm
    · simp [hl'] at hl''
  unfold Mark.prepare at hprep
  rcases m <;> simp only at hprep
  case dot => exact hopen hprep (by decide) (by decide)
  case blockStart => exact hopen hprep (by decide) (by decide)
  case arobase =>
    split_ifs at hprep with hs
    obtain rfl := (Option.some.inj hprep).symm
    rcases hq with ⟨-, hb, hsm⟩ | ⟨hl', -⟩
    · have hafter : q.sm = .stateAttribute := by
        rw [hsm, hs]
        rfl
      obtain ⟨hin, hk⟩ := flat_nested hn hb hafter (by rw [hs]; rfl) (by simp)
      exact ⟨iff_of_true hin trivial, hk⟩
    · simp [hl] at hl'
  case colon =>
    split_ifs at hprep with hs hs'
    · have hnot : p.sm ≠ .transitionStart := by
        rcases hs with hs | hs | hs <;> simp [hs]
      obtain ⟨hin, hk⟩ := hopen hprep (by decide) (by decide)
      exact ⟨hin.trans (and_iff_left hnot), hk⟩
    · obtain rfl := (Option.some.inj hprep).symm
      rcases hq with ⟨-, hb, hsm⟩ | ⟨hl', -⟩
      · have hafter : q.sm = .transitionFrom := by
          rw [hsm, hs']
          rfl
        obtain ⟨hin, hk⟩ := flat_nested hn hb hafter (by rw [hs']; rfl) (by simp)
        exact ⟨iff_of_true hin fun hd => by simp [hs'] at hd, hk⟩
      · simp [hl] at hl'
  case semicolon =>
    split_ifs at hprep with hs hs'
    · obtain rfl := (Option.some.inj hprep).symm
      rcases hq with ⟨hl', -⟩ | ⟨-, hleave⟩
      · simp at hl'
      · have hafter : smAfter p.sm p.buf Mark.semicolon.char = p.sm := by
          rcases hs with hs | hs | hs | hs | hs <;> rw [hs] <;> rfl
        have hclimbs : p.sm.Climbs := by
          rcases hs with hs | hs | hs | hs | hs <;> simp [hs, Sm.Climbs]
        simp only [hafter] at hleave
        obtain ⟨hd, hc⟩ := blockLeave_inStep hclimbs hn.inStep hleave
        exact ⟨iff_of_true hd trivial, hc.2.2.2⟩
    · obtain rfl := (Option.some.inj hprep).symm
      rcases hq with ⟨-, hb, hsm⟩ | ⟨hl', -⟩
      · rcases hs' with hs' | hs'
        · have hafter : q.sm = .transitionStart := by
            rw [hsm, hs']
            rfl
          obtain ⟨hin, hk⟩ := flat_nested hn hb hafter (by rw [hs']; rfl) (by simp)
          exact ⟨iff_of_true hin trivial, hk⟩
        · have hafter : q.sm = .states := by
            rw [hsm, hs']
            rfl
          obtain ⟨hin, hk⟩ := flat_nested hn hb hafter (by rw [hs']; rfl) (by simp)
          exact ⟨iff_of_true hin trivial, hk⟩
      · simp [hl] at hl'
  case greater =>
    obtain ⟨hin, hk⟩ := arrow_nested hp hn hprep hq
    exact ⟨iff_of_true hin trivial, hk⟩
  case arrow =>
    obtain ⟨hin, hk⟩ := arrow_nested hp hn hprep hq
    exact ⟨iff_of_true hin trivial, hk⟩

/-- A lexeme leaves blocks and state in step exactly when it is one that keeps them so. -/
theorem step_nested (hp : p.Settled) (hn : p.Nested) (h : l.step p = some q) :
    (q.InStep ↔ l.Keeps p) ∧ q.sm ≠ .stateEob := by
  rcases l with _ | c | m | _ | _ | _
  case white =>
    rw [step_white hp] at h
    obtain rfl := Option.some.inj h
    obtain ⟨hin, hk⟩ := hn
    split_ifs <;> exact ⟨iff_of_true hin trivial, hk⟩
  case word =>
    obtain ⟨-, -, -, rfl⟩ := step_word.1 h
    exact ⟨iff_of_true hn.inStep trivial, hn.known⟩
  case mark => exact step_mark_nested hp hn h
  case blockEnd => exact step_blockEnd_nested hp hn h
  case comment => exact Option.some.inj h ▸ ⟨iff_of_true hn.inStep trivial, hn.known⟩
  case bad => simp [Lexeme.step] at h

end Round

section Run

variable {p q : Parser} {r r' : Cursor} {c : Char}

/-- What a successful round is: nothing for the parser, or the step of a lexeme. -/
theorem parseRound_ok (hp : p.Settled) (h : parseRound r p c = .ok (r', q)) :
    (r.comments = .none → c = '/') ∧ q = p ∨
      r.comments = .none ∧ c = '-' ∧ (Lexeme.mark .arrow).step p = some q ∨
      r.comments = .none ∧ c ≠ '/' ∧ c ≠ '-' ∧ (charLexeme c).step p = some q := by
  have hopt : (parseRound r p c).toOption = some (r', q) := by
    rw [h]
    rfl
  rcases hm : r.comments
  case singleLine =>
    simp only [parseRound, hm, Except.ok.injEq, Prod.mk.injEq] at h
    exact .inl ⟨by simp, h.2.symm⟩
  case multipleLines =>
    refine .inl ⟨by simp, ?_⟩
    simp only [parseRound, hm] at h
    split_ifs at h
    · split at h <;> exact (Prod.mk.inj (Except.ok.inj h)).2.symm
    · exact (Prod.mk.inj (Except.ok.inj h)).2.symm
  case none =>
    by_cases hs : c = '/'
    · subst hs
      refine .inl ⟨fun _ => rfl, ?_⟩
      rcases hg : charNextGet r with ⟨d, r₁⟩
      by_cases h₁ : d = some '/'
      · rw [parseRound_singleLine hp hm (by rw [hg, h₁])] at h
        exact (Prod.mk.inj (Except.ok.inj h)).2.symm
      by_cases h₂ : d = some '*'
      · rw [parseRound_multipleLines hp hm (by rw [hg, h₂])] at h
        exact (Prod.mk.inj (Except.ok.inj h)).2.symm
      rw [parseRound_slash hm (by rwa [hg]) (by rwa [hg])] at hopt
      simp at hopt
    by_cases hd : c = '-'
    · subst hd
      refine .inr (.inl ⟨rfl, rfl, ?_⟩)
      by_cases hg : (charNextGet r).1 = some '>'
      · obtain ⟨ds, hptr⟩ := charNextGet_head hg
        rw [parseRound_arrow hm hptr] at hopt
        obtain ⟨q', hq', he⟩ := Option.map_eq_some_iff.1 hopt
        rw [hq', (Prod.mk.inj he).2]
      · rw [parseRound_dash hm hg] at hopt
        simp at hopt
    · refine .inr (.inr ⟨rfl, hs, hd, ?_⟩)
      rw [parseRound_char hp hm hs hd] at hopt
      obtain ⟨q', hq', he⟩ := Option.map_eq_some_iff.1 hopt
      rw [hq', (Prod.mk.inj he).2]

theorem keeps_iff : (charLexeme c).Keeps p ↔ KeepsStep p c := by
  have hfree : charCase c ≠ .blockEnd → charCase c ≠ .blockStart → charCase c ≠ .dot →
      charCase c ≠ .colon → KeepsStep p c := by
    intro h₁ h₂ h₃ h₄
    refine ⟨fun h => absurd (h ▸ rfl) h₁, fun _ h => ?_, fun _ =>
      ⟨fun h => h₂ (h ▸ rfl), fun h => h₃ (h ▸ rfl)⟩⟩
    rcases h with h | h | h
    · exact absurd (h ▸ rfl) h₂
    · exact absurd (h ▸ rfl) h₃
    · exact absurd (h ▸ rfl) h₄
  unfold charLexeme
  rcases hc : charCase c <;> simp only
  case blockEnd =>
    obtain rfl := eq_of_charCase (c := c) (by rw [hc]; rfl)
    exact ⟨fun h => ⟨fun _ => h, by simp, by simp⟩, fun h => h.blockEnd rfl⟩
  case blockStart =>
    obtain rfl := eq_of_charCase (c := c) (by rw [hc]; rfl)
    exact ⟨fun h => ⟨by simp, fun hd _ => h.1 hd, fun hm => absurd hm h.2⟩,
      fun h => ⟨fun hd => h.data hd (.inl rfl), fun hm => (h.model hm).1 rfl⟩⟩
  case dot =>
    obtain rfl := eq_of_charCase (c := c) (by rw [hc]; rfl)
    exact ⟨fun h => ⟨by simp, fun hd _ => h.1 hd, fun hm => absurd hm h.2⟩,
      fun h => ⟨fun hd => h.data hd (.inr (.inl rfl)), fun hm => (h.model hm).2 rfl⟩⟩
  case colon =>
    obtain rfl := eq_of_charCase (c := c) (by rw [hc]; rfl)
    exact ⟨fun h => ⟨by simp, fun hd _ => h hd, by simp⟩,
      fun h hd => h.data hd (.inr (.inr rfl))⟩
  all_goals
    rw [hc] at hfree
    exact iff_of_true trivial (hfree (by simp) (by simp) (by simp) (by simp))

theorem round_nested (hp : p.Settled) (hn : p.Nested) (h : parseRound r p c = .ok (r', q)) :
    q.Settled ∧ q.sm ≠ .stateEob ∧ (q.InStep ↔ (r.comments = .none → KeepsStep p c)) := by
  rcases parseRound_ok hp h with ⟨hc, rfl⟩ | ⟨hc, rfl, hstep⟩ | ⟨hc, -, -, hstep⟩
  · refine ⟨hp, hn.known, iff_of_true hn.inStep fun hm => ?_⟩
    rw [hc hm]
    exact keeps_iff.1 trivial
  · obtain ⟨hin, hk⟩ := step_nested hp hn hstep
    exact ⟨settled_of_step hp hstep, hk, iff_of_true (hin.2 trivial) fun _ => keeps_iff.1 trivial⟩
  · obtain ⟨hin, hk⟩ := step_nested hp hn hstep
    refine ⟨settled_of_step hp hstep, hk, hin.trans (keeps_iff.trans ?_)⟩
    exact ⟨fun h _ => h, fun h => h hc⟩

/-- Every round of the run over a file meets the condition. -/
def RunKeepsStep (src : List Char) : Prop :=
  ∀ r r₁ r₂ p q c, Reached src r p → charNextGet r = (some c, r₁) →
    parseRound r₁ p c = .ok (r₂, q) → r₁.comments = .none → KeepsStep p c

theorem nested_of_reached {src : List Char} (hk : RunKeepsStep src) (h : Reached src r p) :
    p.Settled ∧ p.Nested := by
  induction h with
  | start => exact ⟨fresh_settled, rfl, by simp⟩
  | round hr hg hround ih =>
    obtain ⟨hs, hkn, hin⟩ := round_nested ih.1 ih.2 hround
    exact ⟨hs, hin.2 (hk _ _ _ _ _ _ hr hg hround), hkn⟩

theorem known_of_reached {src : List Char} (hk : ∀ r p, Reached src r p → p.InStep)
    (h : Reached src r p) : p.Settled ∧ p.Nested := by
  induction h with
  | start => exact ⟨fresh_settled, rfl, by simp⟩
  | round hr hg hround ih =>
    obtain ⟨hs, hkn, -⟩ := round_nested ih.1 ih.2 hround
    exact ⟨hs, hk _ _ (.round hr hg hround), hkn⟩

/-- The blocks and the state stay in step over a file exactly when every round keeps them so. -/
theorem inStep_iff (src : List Char) :
    (∀ r p, Reached src r p → p.InStep) ↔ RunKeepsStep src := by
  refine ⟨fun hall r r₁ r₂ p q c hr hg hround => ?_,
    fun hk r p hr => (nested_of_reached hk hr).2.inStep⟩
  obtain ⟨hs, hn⟩ := known_of_reached hall hr
  exact (round_nested hs hn hround).2.2.1 (hall _ _ (.round hr hg hround))

/-- A brace that stands for no block of the language: `data` counts it and stays `data`. -/
def strayBlock : List Char := "m\x7bdata\x7bx\x7b".toList

theorem reached_of_parseLoop {src : List Char} : ∀ {fuel : ℕ} {r r' : Cursor} {p q : Parser},
    Reached src r p → parseLoop fuel r p = .ok (r', q) → ∃ r'', Reached src r'' q
  | 0, r, r', p, q, hr, h => ⟨r, (Prod.mk.inj (Except.ok.inj h)).2 ▸ hr⟩
  | fuel + 1, r, r', p, q, hr, h => by
    unfold parseLoop at h
    split at h
    · exact ⟨r, (Prod.mk.inj (Except.ok.inj h)).2 ▸ hr⟩
    · rename_i c r₁ hg
      split at h
      · simp at h
      · rename_i hround
        exact reached_of_parseLoop (.round hr hg hround) h

theorem strayBlock_not_inStep : ¬ ∀ r p, Reached strayBlock r p → p.InStep := by
  intro h
  obtain ⟨r, p, hrun⟩ := exists_parseRun (show (parseRun strayBlock).toOption.isSome = true by
    decide +kernel)
  obtain ⟨r', hr⟩ := reached_of_parseLoop .start hrun
  have hout : (parseRun strayBlock).toOption.map (fun q => (q.2.blocks.length, q.2.sm)) =
      some (3, .data) := by decide +kernel
  rw [hrun] at hout
  simp only [Except.toOption, Option.map_some, Option.some.injEq, Prod.mk.injEq] at hout
  have hin := h r' p hr
  unfold Parser.InStep at hin
  rw [hout.1, hout.2] at hin
  exact absurd hin (by decide)

end Run

end Estate.Cc
