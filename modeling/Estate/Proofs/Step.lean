import Estate.Proofs.Lexeme
import Estate.Lib.Hash

/-!
# What a lexeme does to the parser

A mark prepares the parser (`Mark.prepare`), hands the token over and clears it, and may end a
block. No token touches the blocks, and the state it leads to depends on the state, the token and
the character only (`smAfter`).
-/

namespace Estate.Cc

/-! ## Tokens -/

/-- The state a token leads to. -/
def smAfter (sm : Sm) (buf : List Char) (c : Char) : Sm :=
  match sm with
  | .none => .fsm
  | .fsm =>
    if buf = "data".toList then .data
    else if buf = "transitions".toList then .transitions
    else .states
  | .data => if buf = "global".toList then .dataGlobalProp else .data
  | .states => if c = '@' then .stateAttribute else .state
  | .state => .stateCb
  | .stateAttribute => if c = ';' then .states else .state
  | .stateCb => if buf = "func".toList then .stateCbFuncProp else .stateCbDataProp
  | .transitions => if buf = "model".toList then .transitionStart else .transition
  | .transition => .transitionCb
  | .transitionCb => if buf = "func".toList then .transitionCbFuncProp else .transitionCbDataProp
  | .transitionStart => .transitionFrom
  | .transitionFrom => .transitionTo
  | .transitionTo => .transitionStart
  | sm => sm

/-- The states in which a token may only lead to another state. -/
def opening : List Sm :=
  [.fsm, .data, .stateCb, .transitions, .transition, .transitionCb, .stateEob]

/-- What a token can do, with what was found to allow it. -/
inductive TokenStep (p : Parser) (c : Char) : Parser → Prop
  | machine : p.sm = .none →
      TokenStep p c { p with parse := p.parse ++ p.f.toList, f := some (fsmNew p.buf), sm := .fsm }
  | enter : p.sm ∈ opening → TokenStep p c { p with sm := smAfter p.sm p.buf c }
  | key {f : Fsm} : p.sm = .dataGlobalProp → p.f = some f → p.buf ∉ f.dataKeys →
      TokenStep p c { p with f := some { f with dataKeys := f.dataKeys.insert p.buf p.buf } }
  | state {f : Fsm} : p.sm = .states → p.f = some f → p.buf ∉ f.states →
      TokenStep p c { p with
        f := some { f with states := f.states.insert p.buf (stateNew p.buf) }
        s := some p.buf
        sm := smAfter .states p.buf c }
  | callback {s : Stringshare} {exiter : Bool} : p.sm = .state → p.s = some s →
      TokenStep p c { p with cb := some ⟨s, exiter⟩, sm := .stateCb }
  | init {f : Fsm} {s : Stringshare} : p.sm = .stateAttribute → p.f = some f → p.s = some s →
      f.init = none →
      TokenStep p c { p with
        f := some { f with init := some s }, sm := smAfter .stateAttribute p.buf c }
  | stateProp (hbuf : p.buf ≠ []) {q : Parser} {g : Cb → Cb} :
      p.sm = .stateCbFuncProp ∧ g = (fun cb => { cb with func := some p.buf }) ∨
        p.sm = .stateCbDataProp ∧ g = (fun cb => { cb with data := some p.buf }) →
      p.modifyCallback g = .ok q → TokenStep p c q
  | describe {f : Fsm} : p.sm = .transitions → p.buf ≠ "model".toList → p.f = some f →
      p.buf ∈ f.transitions →
      TokenStep p c { p with t := some (.entry p.buf), sm := .transition }
  | transitProp (hbuf : p.buf ≠ []) {q : Parser} {g : Cb → Cb} :
      p.sm = .transitionCbFuncProp ∧ g = (fun cb => { cb with func := some p.buf }) ∨
        p.sm = .transitionCbDataProp ∧ g = (fun cb => { cb with data := some p.buf }) →
      p.modifyTransit (fun t => { t with cb := g t.cb }) = .ok q → TokenStep p c q
  | transit {f : Fsm} : p.sm = .transitionStart → p.buf ≠ [] → p.f = some f →
      p.buf ∉ f.transitions →
      TokenStep p c { p with
        f := some { f with transitions := f.transitions.insert p.buf (transitNew p.buf) }
        t := some (.entry p.buf)
        sm := .transitionFrom }
  | origin {q : Parser} : p.sm = .transitionFrom → p.buf ≠ [] →
      p.modifyTransit (fun t => { t with fromState := some p.buf }) = .ok q →
      TokenStep p c { q with sm := .transitionTo }
  | target {q : Parser} : p.sm = .transitionTo → p.buf ≠ [] →
      p.modifyTransit (fun t => { t with toState := some p.buf }) = .ok q →
      TokenStep p c { q with sm := .transitionStart, t := none }

section Token

variable {p q : Parser} {c : Char}

theorem fsm_ok {f : Fsm} (h : p.fsm = .ok f) : p.f = some f := by
  unfold Parser.fsm at h
  split at h
  · simp at h
  · rename_i hf
    rw [hf, Except.ok.inj h]

theorem nonEmpty_ok {text : List Char} {next : Except Fail Parser}
    (h : nonEmpty p text next = .ok q) : p.buf ≠ [] ∧ next = .ok q := by
  unfold nonEmpty at h
  split_ifs at h with hb
  exact ⟨hb, h⟩

theorem cbToken_ok {cb : Except Fail Cb} {funcProp dataProp : Sm}
    (h : cbToken p cb funcProp dataProp = .ok q) :
    q = { p with sm := if p.buf = "func".toList then funcProp else dataProp } := by
  unfold cbToken at h
  split_ifs at h with hf hd
  · split at h
    · simp at h
    · split_ifs at h
      rw [← Except.ok.inj h, if_pos hf]
  · split at h
    · simp at h
    · split_ifs at h
      rw [← Except.ok.inj h, if_neg hf]
  · simp [invalidToken] at h

theorem tokenStep_enter {x y : Sm} (hsm : p.sm = x) (hq : ({ p with sm := y } : Parser) = q)
    (hy : smAfter x p.buf c = y) (hx : x ∈ opening) : TokenStep p c q := by
  subst hsm hy hq
  exact .enter hx

theorem tokenStep_of_token (h : token p c = .ok q) : TokenStep p c q := by
  unfold token at h
  split at h <;> rename_i hsm
  case h_1 => exact Except.ok.inj h ▸ .machine hsm
  case h_2 =>
    split_ifs at h with h₁ h₂ h₃
    · exact tokenStep_enter hsm (Except.ok.inj h) (by simp [smAfter, h₁]) (by decide)
    · exact tokenStep_enter hsm (Except.ok.inj h) (by simp [smAfter, h₂]) (by decide)
    · exact tokenStep_enter hsm (Except.ok.inj h) (by simp [smAfter, h₃]) (by decide)
  case h_3 =>
    split_ifs at h with h₁
    · exact tokenStep_enter hsm (Except.ok.inj h) (by simp [smAfter, h₁]) (by decide)
    · refine tokenStep_enter (y := .data) hsm ?_ (by simp only [smAfter, if_neg h₁]) (by decide)
      rw [← hsm]
      exact Except.ok.inj h
  case h_4 =>
    split at h
    · simp at h
    · rename_i f hf
      split at h
      · simp at h
      · rename_i hn
        exact Except.ok.inj h ▸ .key hsm (fsm_ok hf) (AList.lookup_eq_none.1 hn)
  case h_5 =>
    split at h
    · simp at h
    · rename_i f hf
      split at h
      · simp at h
      · rename_i hn
        exact Except.ok.inj h ▸ .state hsm (fsm_ok hf) (AList.lookup_eq_none.1 hn)
  case h_6 =>
    split at h
    · simp at h
    · rename_i s hs
      split_ifs at h
      · exact Except.ok.inj h ▸ .callback hsm hs
      · exact Except.ok.inj h ▸ .callback hsm hs
      · simp [invalidToken] at h
  case h_7 =>
    by_cases hb : p.buf = "init".toList
    · rw [if_pos hb] at h
      split at h
      · rename_i f s hf hs
        by_cases hi : f.init = none
        · rw [if_neg (by simpa using hi)] at h
          exact Except.ok.inj h ▸ .init hsm hf hs hi
        · simp [hi] at h
      · simp at h
    · rw [if_neg hb] at h
      cases h
  case h_8 => exact tokenStep_enter hsm (cbToken_ok h).symm rfl (by decide)
  case h_9 => exact .stateProp (nonEmpty_ok h).1 (.inl ⟨hsm, rfl⟩) (nonEmpty_ok h).2
  case h_10 => exact .stateProp (nonEmpty_ok h).1 (.inr ⟨hsm, rfl⟩) (nonEmpty_ok h).2
  case h_11 =>
    split_ifs at h with h₁
    · exact tokenStep_enter hsm (Except.ok.inj h) (by simp [smAfter, h₁]) (by decide)
    · split at h
      · simp at h
      · rename_i f hf
        split at h
        · simp at h
        · rename_i hn
          exact Except.ok.inj h ▸ .describe hsm h₁ (fsm_ok hf) (Lib.mem_of_lookup hn)
  case h_12 =>
    split_ifs at h
    · exact tokenStep_enter hsm (Except.ok.inj h) rfl (by decide)
    · simp [invalidToken] at h
  case h_13 => exact tokenStep_enter hsm (cbToken_ok h).symm rfl (by decide)
  case h_14 =>
    exact .transitProp (nonEmpty_ok h).1 (g := fun cb => { cb with func := some p.buf })
      (.inl ⟨hsm, rfl⟩) (nonEmpty_ok h).2
  case h_15 =>
    exact .transitProp (nonEmpty_ok h).1 (g := fun cb => { cb with data := some p.buf })
      (.inr ⟨hsm, rfl⟩) (nonEmpty_ok h).2
  case h_16 =>
    obtain ⟨hb, h⟩ := nonEmpty_ok h
    split at h
    · simp at h
    · rename_i f hf
      split at h
      · simp at h
      · rename_i hn
        exact Except.ok.inj h ▸ .transit hsm hb (fsm_ok hf) (AList.lookup_eq_none.1 hn)
  case h_17 =>
    obtain ⟨hb, h⟩ := nonEmpty_ok h
    split at h
    · simp at h
    · rename_i hm
      exact Except.ok.inj h ▸ .origin hsm hb hm
  case h_18 =>
    obtain ⟨hb, h⟩ := nonEmpty_ok h
    split at h
    · simp at h
    · rename_i hm
      exact Except.ok.inj h ▸ .target hsm hb hm
  case h_19 =>
    refine tokenStep_enter (y := .stateEob) hsm ?_ rfl (by decide)
    rw [← hsm]
    exact Except.ok.inj h

/-- What no token changes. -/
structure SameFrame (p q : Parser) : Prop where
  blocks : q.blocks = p.blocks
  hasToken : q.hasToken = p.hasToken
  buf : q.buf = p.buf
  leaveBlock : q.leaveBlock = p.leaveBlock
  handed : q.handed = p.handed

/-- Writes through `t` change the transition it points to. -/
theorem modifyTransit_ok {g : Transit → Transit} (h : p.modifyTransit g = .ok q) :
    (∃ t, p.t = some (.loose t) ∧ q = { p with t := some (.loose (g t)) }) ∨
      ∃ name f, p.t = some (.entry name) ∧ p.f = some f ∧
        q = { p with f := some { f with transitions := hashModify f.transitions name g } } := by
  unfold Parser.modifyTransit at h
  split at h
  · simp at h
  · rename_i t ht
    exact .inl ⟨t, ht, (Except.ok.inj h).symm⟩
  · rename_i name ht
    split at h
    · simp at h
    · rename_i f hf
      exact .inr ⟨name, f, ht, hf, (Except.ok.inj h).symm⟩

theorem modifyCallback_ok {g : Cb → Cb} (h : p.modifyCallback g = .ok q) :
    ∃ ptr f, p.cb = some ptr ∧ p.f = some f ∧
      q = { p with
        f := some { f with
          states := hashModify f.states ptr.state fun s => s.modifyCb ptr.exiter g } } := by
  unfold Parser.modifyCallback at h
  split at h
  · rename_i ptr f hc hf
    exact ⟨ptr, f, hc, hf, (Except.ok.inj h).symm⟩
  · simp at h

theorem modifyTransit_frame {g : Transit → Transit} (h : p.modifyTransit g = .ok q) :
    SameFrame p q ∧ q.sm = p.sm := by
  rcases modifyTransit_ok h with ⟨t, -, rfl⟩ | ⟨name, f, -, -, rfl⟩ <;>
    exact ⟨⟨rfl, rfl, rfl, rfl, rfl⟩, rfl⟩

theorem TokenStep.frame (h : TokenStep p c q) :
    SameFrame p q ∧ q.sm = smAfter p.sm p.buf c := by
  cases h
  case machine hsm => exact ⟨⟨rfl, rfl, rfl, rfl, rfl⟩, by rw [hsm]; rfl⟩
  case enter => exact ⟨⟨rfl, rfl, rfl, rfl, rfl⟩, rfl⟩
  case key hsm _ _ => exact ⟨⟨rfl, rfl, rfl, rfl, rfl⟩, by simp only [hsm]; rfl⟩
  case state hsm _ _ => exact ⟨⟨rfl, rfl, rfl, rfl, rfl⟩, by rw [hsm]⟩
  case callback hsm _ => exact ⟨⟨rfl, rfl, rfl, rfl, rfl⟩, by rw [hsm]; rfl⟩
  case init hsm _ _ _ => exact ⟨⟨rfl, rfl, rfl, rfl, rfl⟩, by rw [hsm]⟩
  case stateProp hsm hm =>
    obtain ⟨ptr, f, -, -, rfl⟩ := modifyCallback_ok hm
    refine ⟨⟨rfl, rfl, rfl, rfl, rfl⟩, ?_⟩
    rcases hsm with ⟨hsm, -⟩ | ⟨hsm, -⟩ <;> simp only [hsm] <;> rfl
  case describe hsm hb _ _ =>
    refine ⟨⟨rfl, rfl, rfl, rfl, rfl⟩, ?_⟩
    rw [hsm]
    exact (if_neg hb).symm
  case transitProp hsm hm =>
    obtain ⟨hf, hs⟩ := modifyTransit_frame hm
    refine ⟨hf, hs.trans ?_⟩
    rcases hsm with ⟨hsm, -⟩ | ⟨hsm, -⟩ <;> rw [hsm] <;> rfl
  case transit hsm _ _ _ => exact ⟨⟨rfl, rfl, rfl, rfl, rfl⟩, by rw [hsm]; rfl⟩
  case origin q hsm _ hm =>
    obtain ⟨hf, -⟩ := modifyTransit_frame hm
    exact ⟨⟨hf.blocks, hf.hasToken, hf.buf, hf.leaveBlock, hf.handed⟩, by rw [hsm]; rfl⟩
  case target q hsm _ hm =>
    obtain ⟨hf, -⟩ := modifyTransit_frame hm
    exact ⟨⟨hf.blocks, hf.hasToken, hf.buf, hf.leaveBlock, hf.handed⟩, by rw [hsm]; rfl⟩

end Token

section Frame

variable {p : Parser} {c : Char} {b : Bool} {bs : List Bool} {k : Transit → Transit}

/-- A parser with other blocks, that has or has not seen a blank behind the token it reads. -/
abbrev Parser.withFrame (p : Parser) (b : Bool) (bs : List Bool) : Parser :=
  { p with stopWord := b, blocks := bs }

/-- A change of the transition, where it is in no hash. -/
def TransitPtr.loosely (k : Transit → Transit) : TransitPtr → TransitPtr
  | .entry name => .entry name
  | .loose t => .loose (k t)

/-- The change concerns nothing that a token looks at or writes. -/
structure Aside (k : Transit → Transit) : Prop where
  cb : ∀ t, (k t).cb = t.cb
  modifyCb : ∀ (g : Cb → Cb) t, k { t with cb := g t.cb } = { k t with cb := g (k t).cb }
  fromState : ∀ x t, k { t with fromState := x } = { k t with fromState := x }
  toState : ∀ x t, k { t with toState := x } = { k t with toState := x }

abbrev Parser.withLoose (p : Parser) (k : Transit → Transit) : Parser :=
  { p with t := p.t.map (TransitPtr.loosely k) }

/-- Both changes. -/
abbrev Parser.reframe (p : Parser) (b : Bool) (bs : List Bool) (k : Transit → Transit) : Parser :=
  (p.withFrame b bs).withLoose k

theorem modifyTransit_reframe {g : Transit → Transit} (hg : ∀ t, k (g t) = g (k t)) :
    (p.reframe b bs k).modifyTransit g = (p.modifyTransit g).map (·.reframe b bs k) := by
  unfold Parser.modifyTransit
  rcases ht : p.t with _ | ⟨name⟩ | ⟨t⟩
  · simp only [ht, Option.map_none, Except.map]
  · rcases p.f with _ | f
    · simp only [ht, Option.map_some, TransitPtr.loosely, Except.map]
    · simp only [ht, Option.map_some, TransitPtr.loosely, Except.map, Parser.reframe,
        Parser.withLoose]
  · simp only [ht, Option.map_some, TransitPtr.loosely, Except.map, Parser.reframe,
      Parser.withLoose, hg]

theorem transit_reframe (hk : Aside k) :
    (p.reframe b bs k).transit.map Transit.cb = p.transit.map Transit.cb := by
  unfold Parser.transit
  rcases ht : p.t with _ | ⟨name⟩ | ⟨t⟩
  · simp only [ht, Option.map_none]
  · simp only [ht, Option.map_some, TransitPtr.loosely]
  · simp only [ht, Option.map_some, TransitPtr.loosely, Except.map, hk.cb]

theorem modifyCallback_reframe {g : Cb → Cb} :
    (p.reframe b bs k).modifyCallback g = (p.modifyCallback g).map (·.reframe b bs k) := by
  unfold Parser.modifyCallback Parser.reframe
  rcases p.cb with _ | ptr <;> rcases p.f with _ | f <;> rfl

theorem nonEmpty_reframe {text : List Char} {next next' : Except Fail Parser}
    (h : next' = next.map (·.reframe b bs k)) :
    nonEmpty (p.reframe b bs k) text next' = (nonEmpty p text next).map (·.reframe b bs k) := by
  by_cases hb : p.buf = []
  · simp [nonEmpty, hb, Except.map]
  · simp [nonEmpty, hb, h]

theorem cbToken_reframe {cb : Except Fail Cb} {funcProp dataProp : Sm} :
    cbToken (p.reframe b bs k) cb funcProp dataProp =
      (cbToken p cb funcProp dataProp).map (·.reframe b bs k) := by
  unfold cbToken
  rcases cb with e | cb <;> simp only <;> split_ifs <;> rfl

theorem token_reframe (hk : Aside k) :
    token (p.reframe b bs k) c = (token p c).map (·.reframe b bs k) := by
  unfold token
  rcases hsm : p.sm <;> simp only
  case none => rfl
  case fsm => split_ifs <;> rfl
  case data => split_ifs <;> rfl
  case dataGlobalProp =>
    unfold Parser.fsm
    rcases p.f with _ | f
    · rfl
    · simp only
      rcases hashFind f.dataKeys (some p.buf) <;> rfl
  case states =>
    unfold Parser.fsm
    rcases p.f with _ | f
    · rfl
    · simp only
      rcases hashFind f.states (some p.buf) <;> rfl
  case state =>
    rcases p.s with _ | s
    · rfl
    · simp only
      split_ifs <;> rfl
  case stateAttribute =>
    rcases p.f with _ | f <;> rcases p.s with _ | s <;> simp only <;> split_ifs <;> rfl
  case stateCb => exact cbToken_reframe
  case stateCbFuncProp => exact nonEmpty_reframe modifyCallback_reframe
  case stateCbDataProp => exact nonEmpty_reframe modifyCallback_reframe
  case transitions =>
    unfold Parser.fsm
    split_ifs
    · rfl
    · rcases p.f with _ | f
      · rfl
      · simp only
        rcases hashFind f.transitions (some p.buf) <;> rfl
  case transition => split_ifs <;> rfl
  case transitionCb =>
    rw [transit_reframe hk]
    exact cbToken_reframe
  case transitionCbFuncProp =>
    exact nonEmpty_reframe (modifyTransit_reframe (hk.modifyCb fun cb => { cb with func := p.buf }))
  case transitionCbDataProp =>
    exact nonEmpty_reframe (modifyTransit_reframe (hk.modifyCb fun cb => { cb with data := p.buf }))
  case transitionStart =>
    refine nonEmpty_reframe ?_
    unfold Parser.fsm
    rcases p.f with _ | f
    · rfl
    · simp only
      rcases hashFind f.transitions (some p.buf) <;> rfl
  case transitionFrom =>
    refine nonEmpty_reframe ?_
    rw [modifyTransit_reframe (hk.fromState _)]
    rcases p.modifyTransit fun t => { t with fromState := some p.buf } with e | q <;> rfl
  case transitionTo =>
    refine nonEmpty_reframe ?_
    rw [modifyTransit_reframe (hk.toState _)]
    rcases p.modifyTransit fun t => { t with toState := some p.buf } with e | q <;> rfl
  case stateEob => rfl

theorem aside_id : Aside id := ⟨fun _ => rfl, fun _ _ => rfl, fun _ _ => rfl, fun _ _ => rfl⟩

theorem withLoose_id : p.withLoose id = p := by
  have h : TransitPtr.loosely id = id := by
    funext ptr
    rcases ptr with ⟨name⟩ | ⟨t⟩ <;> rfl
  rw [Parser.withLoose, h, Option.map_id_fun, id]

theorem token_withFrame : token (p.withFrame b bs) c = (token p c).map (·.withFrame b bs) := by
  have h := @token_reframe p c b bs id aside_id
  simpa only [Parser.reframe, withLoose_id] using h

theorem token_withLoose (hk : Aside k) :
    token (p.withLoose k) c = (token p c).map (·.withLoose k) := by
  have hself : token p c = (token p c).map (·.withFrame p.stopWord p.blocks) := token_withFrame
  rw [hself]
  refine (token_reframe hk).trans ?_
  rcases token p c with e | q <;> rfl

end Frame

/-! ## Marks -/

/-- What `c` holds when the token before a mark is looked at. -/
def Mark.char : Mark → Char
  | .dot => '.'
  | .blockStart => '\x7b'
  | .arobase => '@'
  | .colon => ':'
  | .semicolon => ';'
  | .greater | .arrow => '>'

/-- The states that a value is read in. -/
abbrev Sm.IsProp (sm : Sm) : Prop :=
  sm = .stateCbFuncProp ∨ sm = .stateCbDataProp ∨ sm = .transitionCbFuncProp ∨
    sm = .transitionCbDataProp ∨ sm = .dataGlobalProp

/-- The parser with the token before a mark to be looked at. -/
def Mark.prepare (p : Parser) : Mark → Option Parser
  | .dot => blockEnter p true
  | .blockStart => blockEnter p false
  | .arobase => if p.sm = .states then some { p with hasToken := true } else none
  | .colon =>
    if p.sm = .stateCb ∨ p.sm = .transitionCb ∨ p.sm = .data then blockEnter p false
    else if p.sm = .transitionStart then some { p with hasToken := true } else none
  | .semicolon =>
    if p.sm.IsProp then some { p with leaveBlock := true, hasToken := true }
    else if p.sm = .transitionTo ∨ p.sm = .stateAttribute then some { p with hasToken := true }
    else none
  | .greater =>
    let p := anonymousTransit p "#TR_"
    if p.sm = .transitionFrom then some { p with hasToken := true } else none
  | .arrow =>
    let p := anonymousTransit p "TR_"
    if p.sm = .transitionFrom then some { p with hasToken := true } else none

/-- The token is put on record. -/
def Parser.hand (p : Parser) : Parser :=
  if p.buf ≠ [] then { p with handed := p.handed ++ [p.buf] } else p

/-- The token has been looked at. -/
def Parser.clear (p : Parser) : Parser := { p with hasToken := false, stopWord := false, buf := [] }

/-- The end of a block. -/
def Parser.leave (p : Parser) : Option Parser :=
  (blockLeave p.blocks p.sm).map fun b => { p with blocks := b.1, sm := b.2, leaveBlock := false }

section Steps

variable {p q : Parser} {m : Mark} {c : Char}

/-- What the token before a mark leads to. -/
def Parser.look (p : Parser) (c : Char) : Option Parser :=
  (token p.hand c).toOption.bind fun q => if q.leaveBlock then q.clear.leave else some q.clear

theorem settle_of_hasToken (h : p.hasToken = true) : (settle p c).toOption = p.look c := by
  have hhand : (if p.hasToken ∧ p.buf ≠ [] then { p with handed := p.handed ++ [p.buf] } else p :
      Parser) = p.hand := by
    simp [h, Parser.hand]
  have htok : p.hand.hasToken = true := by
    unfold Parser.hand
    split_ifs <;> exact h
  unfold settle Parser.look
  simp only [hhand, htok, if_true]
  rcases ht : token p.hand c with e | q
  · rfl
  · have hq : q.hasToken = true := (tokenStep_of_token ht).frame.1.hasToken.trans htok
    simp only [hq, if_true, Except.toOption, Option.bind_some, Parser.clear, Parser.leave]
    by_cases hl : q.leaveBlock = true
    · simp only [hl, if_true]
      rcases blockLeave q.blocks q.sm with _ | ⟨bs, sm⟩ <;> rfl
    · simp only [hl]
      rfl

theorem blockEnter_some {abbr : Bool} (h : blockEnter p abbr = some q) :
    smBlockIs p.sm = true ∧ q = { p with blocks := abbr :: p.blocks, hasToken := true } := by
  unfold blockEnter at h
  split_ifs at h with hb
  exact ⟨hb, (Option.some.inj h).symm⟩

/-- What a mark prepares: an arrow may begin a line without a name, and another mark changes no more
than the blocks and what the round is to do. -/
theorem prepare_cases (h : m.prepare p = some q) :
    (m = .greater ∨ m = .arrow) ∧ (∃ format, (anonymousTransit p format).sm = .transitionFrom ∧
        q = { anonymousTransit p format with hasToken := true }) ∨
      ¬ (m = .greater ∨ m = .arrow) ∧
        ∃ bs b, q = { p with blocks := bs, hasToken := true, leaveBlock := b } := by
  have henter : ∀ abbr, blockEnter p abbr = some q →
      ∃ bs b, q = { p with blocks := bs, hasToken := true, leaveBlock := b } :=
    fun abbr h => ⟨_, _, (blockEnter_some h).2⟩
  unfold Mark.prepare at h
  rcases m <;> simp only at h
  case dot => exact .inr ⟨by simp, henter _ h⟩
  case blockStart => exact .inr ⟨by simp, henter _ h⟩
  case colon =>
    split_ifs at h
    · exact .inr ⟨by simp, henter _ h⟩
    · exact .inr ⟨by simp, _, _, (Option.some.inj h).symm⟩
  case greater =>
    split_ifs at h with hfrom
    exact .inl ⟨.inl rfl, _, hfrom, (Option.some.inj h).symm⟩
  case arrow =>
    split_ifs at h with hfrom
    exact .inl ⟨.inr rfl, _, hfrom, (Option.some.inj h).symm⟩
  all_goals
    split_ifs at h <;> exact .inr ⟨by simp, _, _, (Option.some.inj h).symm⟩

theorem prepare_hasToken (h : m.prepare p = some q) : q.hasToken = true := by
  rcases prepare_cases h with ⟨-, format, -, rfl⟩ | ⟨-, bs, b, rfl⟩ <;> rfl

/-- The round of a mark succeeds as far as its preparation does. -/
theorem round_of_special {cs : List Char} {o : Option Parser} {d : Char}
    (h : (special { ptr := cs } p c).2.toOption = o.map (d, ·))
    (ho : ∀ q, o = some q → q.hasToken = true) :
    Lexeme.step.round p c cs = o.bind fun p => p.look d := by
  unfold Lexeme.step.round
  rcases hs : (special { ptr := cs } p c).2 with e | ⟨d', q⟩ <;> rw [hs] at h <;> rcases o with _ | q'
  · rfl
  · simp [Except.toOption] at h
  · simp [Except.toOption] at h
  · simp only [Except.toOption, Option.map_some, Option.some.injEq, Prod.mk.injEq] at h
    obtain ⟨rfl, rfl⟩ := h
    exact settle_of_hasToken (ho q rfl)

theorem step_mark : (Lexeme.mark m).step p = (m.prepare p).bind fun p => p.look m.char := by
  rcases m
  case dot =>
    refine round_of_special ?_ fun q => prepare_hasToken (m := .dot)
    have hc : charCase '.' = .dot := by decide
    simp only [special, hc, Mark.prepare, Mark.char]
    rcases blockEnter p true <;> rfl
  case blockStart =>
    refine round_of_special ?_ fun q => prepare_hasToken (m := .blockStart)
    have hc : charCase '\x7b' = .blockStart := by decide
    simp only [special, hc, Mark.prepare, Mark.char]
    rcases blockEnter p false <;> rfl
  case arobase =>
    refine round_of_special ?_ fun q => prepare_hasToken (m := .arobase)
    have hc : charCase '@' = .arobase := by decide
    simp only [special, hc, Mark.prepare, Mark.char]
    split_ifs <;> rfl
  case colon =>
    refine round_of_special ?_ fun q => prepare_hasToken (m := .colon)
    have hc : charCase ':' = .colon := by decide
    simp only [special, hc, Mark.prepare, Mark.char]
    rcases blockEnter p false <;> split_ifs <;> rfl
  case semicolon =>
    refine round_of_special ?_ fun q => prepare_hasToken (m := .semicolon)
    have hc : charCase ';' = .semicolon := by decide
    simp only [special, hc, Mark.prepare, Mark.char, Sm.IsProp]
    split_ifs <;> rfl
  case greater =>
    refine round_of_special ?_ fun q => prepare_hasToken (m := .greater)
    have hc : charCase '>' = .greater := by decide
    simp only [special, hc, Mark.prepare, Mark.char, ite_not, ne_eq]
    split_ifs <;> rfl
  case arrow =>
    refine round_of_special ?_ fun q => prepare_hasToken (m := .arrow)
    have hc : charCase '-' = .dash := by decide
    have hg : charNextGet { ptr := ['>'] } = (some '>', { ptr := [], col := 2 }) := by decide
    simp only [special, hc, Mark.prepare, Mark.char, hg, ite_not, ne_eq]
    split_ifs <;> rfl

theorem step_blockEnd (hp : p.Settled) : Lexeme.blockEnd.step p = p.leave := by
  have hc : charCase '\x7d' = .blockEnd := by decide
  simp only [Lexeme.step, Lexeme.step.round, special, hc, Except.bind, settle, hp.hasToken,
    Bool.false_eq_true, false_and, if_false, if_true, Parser.leave]
  rcases blockLeave p.blocks p.sm with _ | ⟨bs, sm⟩ <;> rfl

theorem step_word : (Lexeme.word c).step p = some q ↔
    ¬ (charCase c = .digit ∧ p.buf = []) ∧ p.stopWord = false ∧ p.buf.length + 1 < 2048 ∧
      q = { p with buf := p.buf ++ [c] } := by
  simp only [Lexeme.step, wordChar]
  split_ifs with hd hs hl
  · simp [hd]
  · simp [Except.toOption, hs]
  · simp only [Except.toOption, reduceCtorEq, false_iff]
    omega
  · have hs' : p.stopWord = false := by simpa using hs
    have hl' : p.buf.length + 1 < 2048 := by omega
    simp only [Except.toOption, Option.some.injEq]
    refine ⟨fun h => ⟨hd, hs', hl', h.symm⟩, fun h => h.2.2.2.symm⟩

end Steps

end Estate.Cc
