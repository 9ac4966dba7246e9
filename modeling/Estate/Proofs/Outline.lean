import Estate.Proofs.Blocks
import Estate.Proofs.Machines

/-!
# Which accepted files are complete

As long as it finds no error, the parser moves through the states as the outline of the file moves
through the zones (`outline_eq`). It returns its list wherever the file ends, so an accepted file
is complete exactly when its outline is closed.
-/

namespace Estate.Cc

/-- The zone of a state. -/
def Sm.zone : Sm → Zone
  | .none => .file
  | .fsm => .machine
  | .transitions => .transitions
  | .transitionStart => .model
  | .transitionFrom => .origin
  | .transitionTo => .target
  | .transition => .transition
  | .transitionCb => .transitionCb
  | .transitionCbFuncProp | .transitionCbDataProp => .transitionProp
  | .states => .states
  | .state | .stateEob => .state
  | .stateCb => .stateCb
  | .stateCbFuncProp | .stateCbDataProp => .stateProp
  | .stateAttribute => .attribute
  | .data => .data
  | .dataGlobalProp => .key

section Outline

variable {p q : Parser} {m : Mark} {l : Lexeme} {bs : List Bool}

theorem zone_parent {sm : Sm} (h : sm ≠ .stateEob) : sm.parent.zone = sm.zone.parent := by
  cases sm <;> first | rfl | exact absurd rfl h

theorem parent_ne_eob {sm : Sm} (h : sm ≠ .stateEob) : sm.parent ≠ .stateEob := by
  cases sm <;> first | exact absurd rfl h | simp [Sm.parent]

theorem zone_smAfter {sm : Sm} {buf : List Char} (h : sm ≠ .stateEob)
    (hm : sm = .transitionStart → m ≠ .greater ∧ m ≠ .arrow) :
    (smAfter sm buf m.char).zone = sm.zone.next buf m := by
  cases sm
  case fsm =>
    simp only [smAfter, Sm.zone, Zone.next]
    split_ifs <;> rfl
  case data =>
    simp only [smAfter, Sm.zone, Zone.next]
    split_ifs <;> rfl
  case transitions =>
    simp only [smAfter, Sm.zone, Zone.next]
    split_ifs <;> rfl
  case stateCb =>
    simp only [smAfter]
    split_ifs <;> rfl
  case transitionCb =>
    simp only [smAfter]
    split_ifs <;> rfl
  case states => rcases m <;> rfl
  case stateAttribute => rcases m <;> rfl
  case transitionStart =>
    have hne := hm rfl
    have hnext : ¬ (m = .greater ∨ m = .arrow) := by tauto
    simp only [Sm.zone, Zone.next, if_neg hnext]
    rfl
  case stateEob => exact absurd rfl h
  all_goals rfl

theorem closeBlock_eq : ∀ {blocks blocks' : List Bool} {sm sm' : Sm}, sm ≠ .stateEob →
    blockLeave blocks sm = some (blocks', sm') → closeBlock blocks sm.zone = (blocks', sm'.zone)
  | [], _, _, _, _, h => by simp [blockLeave] at h
  | b :: blocks, blocks', sm, sm', hne, h => by
    unfold blockLeave at h
    unfold closeBlock
    rw [← zone_parent hne]
    split_ifs at h ⊢
    · exact closeBlock_eq (parent_ne_eob hne) h
    · simp only [Option.some.injEq, Prod.mk.injEq] at h
      rw [h.1, h.2]

/-- What the outline keeps of a parser. -/
def Parser.outline (p : Parser) : Outline := ⟨p.sm.zone, p.blocks, p.buf⟩

theorem closes_iff {sm : Sm} : Mark.semicolon.closes sm.zone = true ↔ sm.IsProp := by
  cases sm <;> simp [Mark.closes, Sm.zone, Sm.IsProp]

/-! ### Marks -/

/-- A parser with other blocks open. -/
abbrev Parser.withBlocks (p : Parser) (bs : List Bool) : Parser := { p with blocks := bs }

theorem anonymousTransit_withBlocks {format : String} :
    anonymousTransit (p.withBlocks bs) format = (anonymousTransit p format).withBlocks bs := by
  unfold anonymousTransit
  simp only
  split_ifs <;> rfl

/-- What a mark opens stands before the blocks there are. -/
theorem prepare_withBlocks : m.prepare (p.withBlocks bs) =
    (m.prepare p).map (·.withBlocks (m.opens p.sm.zone ++ bs)) := by
  unfold Mark.prepare
  rcases m <;> simp only [blockEnter, anonymousTransit_withBlocks]
  case dot => split_ifs <;> rfl
  case blockStart => split_ifs <;> rfl
  case arobase => split_ifs <;> rfl
  case colon =>
    by_cases hs : p.sm = .stateCb ∨ p.sm = .transitionCb ∨ p.sm = .data
    · rw [if_pos hs, if_pos hs]
      rcases hs with hs | hs | hs <;> simp only [hs, smBlockIs] <;> rfl
    · rw [if_neg hs, if_neg hs]
      by_cases hs' : p.sm = .transitionStart
      · rw [if_pos hs', if_pos hs', hs']
        rfl
      · rw [if_neg hs', if_neg hs']
        rfl
  case semicolon => split_ifs <;> rfl
  case greater => split_ifs <;> rfl
  case arrow => split_ifs <;> rfl

theorem prepare_blocks (h : m.prepare p = some q) : q.blocks = m.opens p.sm.zone ++ p.blocks := by
  have hw : m.prepare p = (m.prepare p).map (·.withBlocks (m.opens p.sm.zone ++ p.blocks)) :=
    @prepare_withBlocks p m p.blocks
  rw [h] at hw
  exact congrArg Parser.blocks (Option.some.inj hw)

/-- Only a value has the block it stands in end. -/
theorem prepare_leaveBlock (hp : p.leaveBlock = false) (h : m.prepare p = some q) :
    q.leaveBlock = m.closes p.sm.zone := by
  have henter : ∀ abbr, blockEnter p abbr = some q → q.leaveBlock = false := by
    intro abbr h
    rw [(blockEnter_some h).2]
    exact hp
  have hanon : ∀ format, (anonymousTransit p format).leaveBlock = false := by
    intro format
    unfold anonymousTransit
    split_ifs <;> exact hp
  unfold Mark.prepare at h
  rcases m <;> simp only at h
  case dot => exact henter _ h
  case blockStart => exact henter _ h
  case arobase =>
    split_ifs at h
    exact Option.some.inj h ▸ hp
  case colon =>
    split_ifs at h
    · exact henter _ h
    · exact Option.some.inj h ▸ hp
  case semicolon =>
    split_ifs at h with hs hs'
    · rw [closes_iff.2 hs, ← Option.some.inj h]
    · rw [← Option.some.inj h]
      exact hp.trans (by simpa using mt closes_iff.1 hs)
  case greater =>
    split_ifs at h
    exact Option.some.inj h ▸ hanon _
  case arrow =>
    split_ifs at h
    exact Option.some.inj h ▸ hanon _

/-- The zone a mark leads to. -/
theorem mark_zone {p₁ : Parser} (hk : p.sm ≠ .stateEob) (h : m.prepare p = some p₁) :
    (smAfter p₁.sm p.buf m.char).zone = p.sm.zone.next p.buf m ∧
      smAfter p₁.sm p.buf m.char ≠ .stateEob := by
  rcases prepare_sm h with ⟨hm, hs, hs'⟩ | ⟨hm, hs⟩
  · rw [hs']
    refine ⟨?_, by simp [smAfter]⟩
    rcases hs with hs | hs <;> rw [hs] <;> simp [smAfter, Sm.zone, Zone.next, hm]
  · rw [hs]
    exact ⟨zone_smAfter hk fun _ => not_or.1 hm, smAfter_ne_eob hk⟩

theorem step_mark_outline (hp : p.Settled) (hk : p.sm ≠ .stateEob)
    (h : (Lexeme.mark m).step p = some q) :
    q.outline = p.outline.step (.mark m) ∧ q.sm ≠ .stateEob := by
  obtain ⟨p₁, hprep, hq⟩ := mark_nesting h
  obtain ⟨hz, hne⟩ := mark_zone hk hprep
  have hbuf := (mark_handed h).1
  have hb := prepare_blocks hprep
  have hl := prepare_leaveBlock hp.leaveBlock hprep
  rcases hq with ⟨hl', hb', hsm⟩ | ⟨hl', hleave⟩
  · have hc : m.closes p.sm.zone = false := hl.symm.trans hl'
    refine ⟨?_, hsm ▸ hne⟩
    simp only [Outline.step_mark, Parser.outline, hc, Bool.false_eq_true, if_false, hbuf, hb', hb,
      hsm, hz]
  · have hc : m.closes p.sm.zone = true := hl.symm.trans hl'
    refine ⟨?_, blockLeave_induct (P := (· ≠ .stateEob)) (fun _ => parent_ne_eob) hleave hne⟩
    have hclose := closeBlock_eq hne hleave
    rw [hz, hb] at hclose
    simp only [Outline.step_mark, Parser.outline, hc, if_true, Outline.close, hclose, hbuf]

theorem step_outline (hp : p.Settled) (hk : p.sm ≠ .stateEob) (h : l.step p = some q) :
    q.outline = p.outline.step l ∧ q.sm ≠ .stateEob := by
  rcases l with _ | c | m | _ | _ | _
  case white =>
    rw [step_white hp] at h
    obtain rfl := Option.some.inj h
    split_ifs <;> exact ⟨rfl, hk⟩
  case word =>
    obtain ⟨-, -, -, rfl⟩ := step_word.1 h
    exact ⟨rfl, hk⟩
  case mark => exact step_mark_outline hp hk h
  case blockEnd =>
    rw [step_blockEnd hp] at h
    have hl := leave_nesting h
    refine ⟨?_, blockLeave_induct (P := (· ≠ .stateEob)) (fun _ => parent_ne_eob) hl hk⟩
    show q.outline = p.outline.close
    simp only [Outline.close, Parser.outline, closeBlock_eq hk hl, (leave_frame h).1]
  case comment => exact Option.some.inj h ▸ ⟨rfl, hk⟩
  case bad => simp [Lexeme.step] at h

theorem run_outline : ∀ {ls : List Lexeme} {p q : Parser}, p.Settled → p.sm ≠ .stateEob →
    ls.foldlM Lexeme.step p = some q →
      q.outline = ls.foldl Outline.step p.outline ∧ q.sm ≠ .stateEob
  | [], p, q, _, hk, h => Option.some.inj h ▸ ⟨rfl, hk⟩
  | l :: ls, p, q, hp, hk, h => by
    rw [List.foldlM_cons] at h
    obtain ⟨p₁, hl, h⟩ := Option.bind_eq_some_iff.1 h
    obtain ⟨ho, hk₁⟩ := step_outline hp hk hl
    rw [List.foldl_cons, ← ho]
    exact run_outline (settled_of_step hp hl) hk₁ h

end Outline

/-! ## The end of a file -/

section Ends

variable {src : List Char} {r : Cursor} {p : Parser}

theorem zone_file {sm : Sm} : sm.zone = .file ↔ sm = .none := by
  cases sm <;> simp [Sm.zone]

/-- What the parser is left with at the end of a file is the outline of the file. -/
theorem outline_eq (h : parseRun src = .ok (r, p)) :
    p.outline = outline src ∧ r.comments = (reading src).comments := by
  have hrun := parseRun_eq src
  rw [h] at hrun
  obtain ⟨q, hq, he⟩ := Option.map_eq_some_iff.1 hrun.symm
  obtain ⟨hc, rfl⟩ := Prod.mk.inj he
  exact ⟨(run_outline fresh_settled (by simp) hq).1, hc.symm⟩

/-- A file that is read to its end is complete exactly when everything it opens is closed. -/
theorem completed_iff (h : parseRun src = .ok (r, p)) : Completed r p ↔ Closed src := by
  obtain ⟨ho, hc⟩ := outline_eq h
  unfold Closed
  rw [← ho, ← hc]
  constructor
  · intro hd
    refine ⟨?_, hd.comments⟩
    simp only [Parser.outline, hd.sm, hd.blocks, hd.buf]
    rfl
  · rintro ⟨hnil, hcom⟩
    obtain ⟨hz, hb, hw⟩ := Outline.mk.inj hnil
    have hsm : p.sm = .none := zone_file.1 hz
    refine ⟨hsm, hb, hw, hcom, ?_⟩
    exact (parseRun_built h).fsms_filled (by simp [hsm]) (by simp [hsm])

theorem completed_oneKey : ∃ r p, parseRun oneKey = .ok (r, p) ∧ Completed r p := by
  obtain ⟨r, p, h⟩ := exists_parseRun (show (parseRun oneKey).toOption.isSome = true by
    decide_cbv)
  exact ⟨r, p, h, (completed_iff h).2 ⟨by decide +kernel, by decide +kernel⟩⟩

/-- A file that ends behind the origin of a transition. -/
def cutTransit : List Char := "m\x7btransitions\x7bmodel\x7bt:a->".toList

/-- It is accepted, with three open blocks and a transition that leads nowhere. -/
theorem cutTransit_not_completed : parserParse cutTransit ≠ [] ∧
    ∃ r p, parseRun cutTransit = .ok (r, p) ∧ ¬ Completed r p := by
  obtain ⟨r, p, h⟩ := exists_parseRun (show (parseRun cutTransit).toOption.isSome = true by
    decide_cbv)
  refine ⟨by decide_cbv, r, p, h, fun hd => ?_⟩
  have hout : (parseRun cutTransit).toOption.map (fun q => q.2.sm) = some .transitionTo := by
    decide_cbv
  rw [h] at hout
  simp [Except.toOption, hd.sm] at hout

end Ends

end Estate.Cc
