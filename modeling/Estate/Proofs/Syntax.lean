import Estate.Proofs.Layout

/-!
# The lines and the blocks inside a machine

Every line and every block of the syntax is a triple over its items, from the state it is read in
back to that state.
-/

namespace Estate.Cc

open Lib

section Tokens

variable {p q : Parser} {g : List Fsm} {f f' : Fsm} {sm sm' : Sm} {n : ℕ} {w v : List Char}
  {m : Mark}

theorem closes : Triple Item.step (Parser.At g f sm (n + 1)) [.blockEnd] (Parser.At g f sm.parent n) :=
  .one fun _ h => by
    obtain ⟨q, hq, hat, -⟩ := step_closes h
    exact ⟨q, hq, hat⟩

/-- The name of a property of a callback. -/
def cbKey : Bool → List Char
  | false => "func".toList
  | true => "data".toList

def Cb.given (cb : Cb) : Bool → Option Stringshare
  | false => cb.func
  | true => cb.data

def Cb.give (cb : Cb) (v : Stringshare) : Bool → Cb
  | false => { cb with func := some v }
  | true => { cb with data := some v }

theorem cbKey_identifier (b : Bool) : Identifier (cbKey b) := by
  cases b <;> decide

/-- The body of a callback, where every property can be given once. -/
theorem cbBody {I : Cb → Parser → Prop} (hprop : ∀ b cb v, cb.given b = none → Identifier v →
    Triple Item.step (I cb) (property (cbKey b) v) (I (cb.give v b))) {cb : Cb} {body : List Item}
    (hv : cb.Valid) (h : CbBody cb body) : Triple Item.step (I {}) body (I cb) := by
  rcases h with _ | _ | _ | _ | _
  case none => exact .nil
  case func v => exact hprop false {} v rfl (hv.1 v rfl)
  case data v => exact hprop true {} v rfl (hv.2 v rfl)
  case funcData v d =>
    exact (hprop false {} v rfl (hv.1 v rfl)).append (hprop true _ d rfl (hv.2 d rfl))
  case dataFunc v d =>
    exact (hprop true {} d rfl (hv.2 d rfl)).append (hprop false _ v rfl (hv.1 v rfl))

/-- A machine with another callback of a transition. -/
abbrev Fsm.setTransitCb (f : Fsm) (name : Stringshare) (cb : Cb) : Fsm :=
  { f with transitions := hashModify f.transitions name fun t => { t with cb := cb } }

/-- A machine with another callback of a state. -/
abbrev Fsm.setStateCb (f : Fsm) (ptr : CbPtr) (cb : Cb) : Fsm :=
  { f with states := hashModify f.states ptr.state fun s => s.modifyCb ptr.exiter fun _ => cb }

/-- The callback of a transition is `cb`, and its block is being read. -/
def Parser.InTransitCb (g : List Fsm) (f : Fsm) (n : ℕ) (name : Stringshare) (cb : Cb)
    (p : Parser) : Prop :=
  p.At g (f.setTransitCb name cb) .transitionCb n ∧ p.t = some (.entry name)

theorem cbToken_key {b : Bool} {cb : Cb} {funcProp dataProp : Sm} (hbuf : p.buf = cbKey b)
    (hcb : cb.given b = none) : cbToken p (.ok cb) funcProp dataProp =
      .ok { p with sm := if b then dataProp else funcProp } := by
  cases b
  · have hfunc : cb.func = none := hcb
    simp [cbToken, hbuf, cbKey, hfunc]
  · have hdata : cb.data = none := hcb
    simp [cbToken, hbuf, cbKey, hdata]

/-- The state in which a property of a transition's callback is read. -/
def transitProp : Bool → Sm
  | false => .transitionCbFuncProp
  | true => .transitionCbDataProp

theorem token_transitProp {b : Bool} {c : Char} (hsm : p.sm = transitProp b) (hbuf : p.buf ≠ []) :
    token p c = p.modifyTransit fun t => { t with cb := t.cb.give p.buf b } := by
  unfold token
  cases b <;> simp only [hsm, transitProp, nonEmpty, if_neg hbuf] <;> rfl

theorem transitCb_property {name : Stringshare} {t₀ : Transit}
    (hl : f.transitions.lookup name = some t₀) (b : Bool) (cb : Cb) (v : Stringshare)
    (hcb : cb.given b = none) (hv : Identifier v) : Triple Item.step
      (Parser.InTransitCb g f n name cb) (property (cbKey b) v)
      (Parser.InTransitCb g f n name (cb.give v b)) := by
  rintro p ⟨h, ht⟩
  have hget : (p.shown (cbKey b) (false :: p.blocks) false).transit = .ok { t₀ with cb := cb } := by
    simp [Parser.shown, Parser.transit, ht, h.f, lookup_hashModify, hl]
  have hopen : token (p.shown (cbKey b) (false :: p.blocks) false) ':' =
      .ok { p.shown (cbKey b) (false :: p.blocks) false with sm := transitProp b } := by
    have hsm : (p.shown (cbKey b) (false :: p.blocks) false).sm = .transitionCb := h.sm
    unfold token
    simp only [hsm, hget, Except.map]
    refine (cbToken_key rfl hcb).trans ?_
    cases b <;> rfl
  obtain ⟨hstep, hat⟩ := step_opens h (cbKey_identifier b) (.inr ⟨rfl, .inr (.inl rfl)⟩) hopen
    rfl h.f rfl
  generalize hq : Parser.clear _ = q at hstep hat
  have hqt : q.t = some (.entry name) := by
    rw [← hq]
    exact ht
  have hvalue : token (q.shown v q.blocks true) ';' = .ok { q.shown v q.blocks true with
      f := some (f.setTransitCb name (cb.give v b)) } := by
    rw [token_transitProp (p := q.shown v q.blocks true) hat.sm hv.nonempty]
    simp only [Parser.modifyTransit, Parser.shown, hqt, hat.f, hashModify_hashModify]
  have hprop : (transitProp b).IsProp := by
    cases b <;> decide
  obtain ⟨q', hq', hat', ht', -⟩ := step_value hat hv hprop hvalue rfl rfl hat.sm
  refine ⟨q', run_property hstep hq', ?_, ht'.trans hqt⟩
  cases b <;> exact hat'

/-- The callback of a state that is being entered or left is `cb`, and its block is being read. -/
def Parser.InStateCb (g : List Fsm) (f : Fsm) (n : ℕ) (ptr : CbPtr) (cb : Cb) (p : Parser) : Prop :=
  p.At g (f.setStateCb ptr cb) .stateCb n ∧ p.cb = some ptr ∧ p.s = some ptr.state

def stateProp : Bool → Sm
  | false => .stateCbFuncProp
  | true => .stateCbDataProp

theorem token_stateProp {b : Bool} {c : Char} (hsm : p.sm = stateProp b) (hbuf : p.buf ≠ []) :
    token p c = p.modifyCallback fun cb => cb.give p.buf b := by
  unfold token
  cases b <;> simp only [hsm, stateProp, nonEmpty, if_neg hbuf] <;> rfl

theorem modifyCb_modifyCb {s : State} {exiter : Bool} {h h' : Cb → Cb} :
    (s.modifyCb exiter h).modifyCb exiter h' = s.modifyCb exiter fun cb => h' (h cb) := by
  cases exiter <;> rfl

theorem stateCb_property {ptr : CbPtr} {s₀ : State} (hl : f.states.lookup ptr.state = some s₀)
    (b : Bool) (cb : Cb) (v : Stringshare) (hcb : cb.given b = none) (hv : Identifier v) :
    Triple Item.step (Parser.InStateCb g f n ptr cb) (property (cbKey b) v)
      (Parser.InStateCb g f n ptr (cb.give v b)) := by
  rintro p ⟨h, hc, hs⟩
  have hget : (p.shown (cbKey b) (false :: p.blocks) false).callback = .ok cb := by
    have hcb' : (s₀.modifyCb ptr.exiter fun _ => cb).cb ptr.exiter = cb := by
      cases ptr.exiter <;> rfl
    simp [Parser.shown, Parser.callback, hc, h.f, lookup_hashModify, hl, hcb']
  have hopen : token (p.shown (cbKey b) (false :: p.blocks) false) ':' =
      .ok { p.shown (cbKey b) (false :: p.blocks) false with sm := stateProp b } := by
    have hsm : (p.shown (cbKey b) (false :: p.blocks) false).sm = .stateCb := h.sm
    unfold token
    simp only [hsm, hget]
    refine (cbToken_key rfl hcb).trans ?_
    cases b <;> rfl
  obtain ⟨hstep, hat⟩ := step_opens h (cbKey_identifier b) (.inr ⟨rfl, .inl rfl⟩) hopen
    rfl h.f rfl
  generalize hq : Parser.clear _ = q at hstep hat
  have hqc : q.cb = some ptr ∧ q.s = some ptr.state := by
    rw [← hq]
    exact ⟨hc, hs⟩
  have hvalue : token (q.shown v q.blocks true) ';' = .ok { q.shown v q.blocks true with
      f := some (f.setStateCb ptr (cb.give v b)) } := by
    rw [token_stateProp (p := q.shown v q.blocks true) hat.sm hv.nonempty]
    simp only [Parser.modifyCallback, Parser.shown, hqc.1, hat.f, hashModify_hashModify,
      modifyCb_modifyCb]
  have hprop : (stateProp b).IsProp := by
    cases b <;> decide
  obtain ⟨q', hq', hat', -, hs', hc'⟩ :=
    step_value hat hv hprop hvalue rfl rfl hat.sm
  refine ⟨q', run_property hstep hq', ?_, hc'.trans hqc.1, hs'.trans hqc.2⟩
  cases b <;> exact hat'

/-- A callback block, from the state around it back to that state. -/
theorem cbBlock {P I : Cb → Parser → Prop} {name : List Char} {cb : Cb} {items : List Item}
    (hopen : Triple Item.step (P {}) [.token name .blockStart] (I {}))
    (hprop : ∀ b cb v, cb.given b = none → Identifier v →
      Triple Item.step (I cb) (property (cbKey b) v) (I (cb.give v b)))
    (hclose : Triple Item.step (I cb) [.blockEnd] (P cb)) (hv : cb.Valid)
    (h : CbBlock name cb items) : Triple Item.step (P {}) items (P cb) := by
  rcases h with ⟨hbody⟩ | _
  · exact hopen.cons ((cbBody hprop hv hbody).append hclose)
  · exact .nil

/-- The description of a transition that has no callback yet. -/
theorem description {t : TransitDescr} {items : List Item} (hv : t.Valid)
    (hl : f.transitions.lookup t.name = some t.bare) (hne : t.name ≠ "model".toList)
    (h : Description t items) : Triple Item.step (Parser.At g f .transitions n) items
      (Parser.At g (f.setTransitCb t.name t.cb) .transitions n) := by
  obtain ⟨hcb⟩ := h
  have hself : f.setTransitCb t.name {} = f := by
    rw [Fsm.setTransitCb, hashModify_self hl rfl]
  let P (cb : Cb) (p : Parser) : Prop :=
    p.At g (f.setTransitCb t.name cb) .transition (n + 1) ∧ p.t = some (.entry t.name)
  have hbegin : Triple Item.step (Parser.At g f .transitions n) [.token t.name .blockStart]
      (P {}) := by
    refine .one fun p hp => ?_
    have ht : token (p.shown t.name (false :: p.blocks) false) '\x7b' =
        .ok { p.shown t.name (false :: p.blocks) false with
          t := some (.entry t.name), sm := .transition } := by
      unfold token
      simp only [Parser.shown, hp.sm, if_neg hne, Parser.fsm, hp.f, hashFind, hl]
    obtain ⟨hstep, hat⟩ := step_opens hp hv.name (.inl ⟨rfl, rfl⟩) ht rfl hp.f rfl
    refine ⟨_, hstep, ?_, rfl⟩
    rw [hself]
    exact hat
  have hopen : Triple Item.step (P {}) [.token "cb".toList .blockStart]
      (Parser.InTransitCb g f (n + 2) t.name {}) := by
    refine .one fun p hp => ?_
    have ht : token (p.shown "cb".toList (false :: p.blocks) false) '\x7b' =
        .ok { p.shown "cb".toList (false :: p.blocks) false with sm := .transitionCb } := by
      unfold token
      simp only [Parser.shown, hp.1.sm, if_true]
    obtain ⟨hstep, hat⟩ :=
      step_opens hp.1 (by decide) (.inl ⟨rfl, rfl⟩) ht rfl hp.1.f rfl
    exact ⟨_, hstep, hat, hp.2⟩
  have hclose : ∀ cb, Triple Item.step (Parser.InTransitCb g f (n + 2) t.name cb) [.blockEnd]
      (P cb) := fun cb => .one fun p hp => by
    obtain ⟨q, hq, hat, ht, -⟩ := step_closes hp.1
    exact ⟨q, hq, hat, ht.trans hp.2⟩
  have hbody := cbBlock (P := P) hopen (transitCb_property hl) (hclose t.cb) hv.cb hcb
  exact hbegin.cons (hbody.append (closes.weaken (fun _ hp => hp.1) fun _ hp => hp))

/-! ## Lines and properties of a machine -/

theorem data_property {k : Stringshare} (hk : Identifier k) (hnew : k ∉ f.dataKeys) :
    Triple Item.step (Parser.At g f .data n) (property "global".toList k)
      (Parser.At g { f with dataKeys := f.dataKeys.insert k k } .data n) := by
  intro p h
  have hopen : token (p.shown "global".toList (false :: p.blocks) false) ':' =
      .ok { p.shown "global".toList (false :: p.blocks) false with sm := .dataGlobalProp } := by
    unfold token
    simp only [Parser.shown, h.sm, if_true]
  obtain ⟨hstep, hat⟩ := step_opens h (by decide) (.inr ⟨rfl, .inr (.inr rfl)⟩) hopen
    rfl h.f (show _ = Sm.dataGlobalProp from rfl)
  generalize Parser.clear _ = q at hstep hat
  have hvalue : token (q.shown k q.blocks true) ';' = .ok { q.shown k q.blocks true with
      f := some { f with dataKeys := f.dataKeys.insert k k } } := by
    have hsm : q.sm = .dataGlobalProp := hat.sm
    unfold token
    simp only [Parser.shown, hsm, Parser.fsm, hat.f, hashFind, hashAdd, AList.lookup_eq_none.2 hnew]
  obtain ⟨q', hq', hat', -⟩ := step_value hat hk (by decide) hvalue rfl rfl hat.sm
  exact ⟨q', run_property hstep hq', hat'⟩

theorem modifyTransit_entry {name : Stringshare} {h : Transit → Transit}
    (ht : p.t = some (.entry name)) (hf : p.f = some f) : p.modifyTransit h = .ok { p with
      f := some { f with transitions := hashModify f.transitions name h } } := by
  simp only [Parser.modifyTransit, ht, hf]

theorem line {t : TransitDescr} {items : List Item} (hv : t.Valid) (hnew : t.name ∉ f.transitions)
    (h : Line t items) : Triple Item.step (Parser.At g f .transitionStart n) items
      (Parser.At g { f with transitions := f.transitions.insert t.name t.bare }
        .transitionStart n) := by
  obtain ⟨hm⟩ := h
  rename_i m
  intro p h
  have hname : token (p.shown t.name p.blocks false) ':' = .ok { p.shown t.name p.blocks false with
      f := some { f with transitions := f.transitions.insert t.name (transitNew t.name) }
      t := some (.entry t.name)
      sm := .transitionFrom } := by
    have hsm : (p.shown t.name p.blocks false).sm = .transitionStart := h.sm
    have hbuf : (p.shown t.name p.blocks false).buf ≠ [] := hv.name.nonempty
    unfold token
    simp only [hsm, nonEmpty, if_neg hbuf, Parser.fsm]
    simp only [Parser.shown, h.f, hashFind, hashAdd, AList.lookup_eq_none.2 hnew]
  obtain ⟨hstep, hat⟩ := step_stays h hv.name (.inr (.inl ⟨rfl, rfl⟩)) hname rfl rfl rfl
  generalize hq : Parser.clear _ = q at hstep hat
  have hqt : q.t = some (.entry t.name) := by
    rw [← hq]
    rfl
  have horigin : token (q.shown t.origin q.blocks false) m.char =
      .ok { q.shown t.origin q.blocks false with
        f := some { f with
          transitions := f.transitions.insert t.name
            { transitNew t.name with fromState := some t.origin } }
        sm := .transitionTo } := by
    have hsm : (q.shown t.origin q.blocks false).sm = .transitionFrom := hat.sm
    have hbuf : (q.shown t.origin q.blocks false).buf ≠ [] := hv.origin.nonempty
    unfold token
    simp only [hsm, nonEmpty, if_neg hbuf]
    simp only [modifyTransit_entry (p := q.shown t.origin q.blocks false) hqt hat.f,
      hashModify_insert]
    rfl
  obtain ⟨hstep₁, hat₁⟩ :=
    step_stays hat hv.origin (.inr (.inr (.inl ⟨hm, rfl⟩))) horigin rfl rfl rfl
  generalize hq₁ : Parser.clear _ = q₁ at hstep₁ hat₁
  have hqt₁ : q₁.t = some (.entry t.name) := by
    rw [← hq₁]
    exact hqt
  have htarget : token (q₁.shown t.target q₁.blocks false) ';' =
      .ok { q₁.shown t.target q₁.blocks false with
        f := some { f with transitions := f.transitions.insert t.name t.bare }
        t := none
        sm := .transitionStart } := by
    have hsm : (q₁.shown t.target q₁.blocks false).sm = .transitionTo := hat₁.sm
    have hbuf : (q₁.shown t.target q₁.blocks false).buf ≠ [] := hv.target.nonempty
    unfold token
    simp only [hsm, nonEmpty, if_neg hbuf]
    simp only [modifyTransit_entry (p := q₁.shown t.target q₁.blocks false) hqt₁ hat₁.f,
      hashModify_insert]
    rfl
  obtain ⟨hstep₂, hat₂⟩ :=
    step_stays hat₁ hv.target (.inr (.inr (.inr ⟨rfl, rfl⟩))) htarget rfl rfl rfl
  refine ⟨_, ?_, hat₂⟩
  simp [hstep, hstep₁, hstep₂]

/-! ## States -/

/-- The block of a state is being read. -/
def Parser.InState (g : List Fsm) (f : Fsm) (n : ℕ) (name : Stringshare) (p : Parser) : Prop :=
  p.At g f .state n ∧ p.s = some name

def slotName : Bool → List Char
  | false => "enterer".toList
  | true => "exiter".toList

theorem stateCb_block (ptr : CbPtr) {s₀ : State} {cb : Cb} {items : List Item}
    (hl : f.states.lookup ptr.state = some s₀) (hs₀ : s₀.cb ptr.exiter = {}) (hv : cb.Valid)
    (h : CbBlock (slotName ptr.exiter) cb items) :
    Triple Item.step (Parser.InState g f n ptr.state) items
      (Parser.InState g (f.setStateCb ptr cb) n ptr.state) := by
  have hself : f.setStateCb ptr {} = f := by
    have hsame : (s₀.modifyCb ptr.exiter fun _ => {}) = s₀ := by
      rw [← hs₀]
      cases ptr.exiter <;> rfl
    rw [Fsm.setStateCb, hashModify_self hl hsame]
  have hopen : Triple Item.step (Parser.InState g (f.setStateCb ptr {}) n ptr.state)
      [.token (slotName ptr.exiter) .blockStart] (Parser.InStateCb g f (n + 1) ptr {}) := by
    refine .one fun p ⟨hp, hs⟩ => ?_
    have ht : token (p.shown (slotName ptr.exiter) (false :: p.blocks) false) '\x7b' =
        .ok { p.shown (slotName ptr.exiter) (false :: p.blocks) false with
          cb := some ptr, sm := .stateCb } := by
      have hne : ¬ "exiter".toList = "enterer".toList := by decide
      obtain ⟨name, exiter⟩ := ptr
      unfold token
      cases exiter <;> simp only [Parser.shown, hp.sm, hs]
      · exact if_pos rfl
      · exact (if_neg hne).trans (if_pos rfl)
    have hw : Identifier (slotName ptr.exiter) := by
      cases ptr.exiter <;> decide
    obtain ⟨hstep, hat⟩ := step_opens hp hw (.inl ⟨rfl, rfl⟩) ht rfl hp.f rfl
    exact ⟨_, hstep, hat, rfl, hs⟩
  have hclose : Triple Item.step (Parser.InStateCb g f (n + 1) ptr cb) [.blockEnd]
      (Parser.InState g (f.setStateCb ptr cb) n ptr.state) := .one fun p hp => by
    obtain ⟨q, hq, hat, -, hs, -⟩ := step_closes hp.1
    exact ⟨q, hq, hat, hs.trans hp.2.2⟩
  have hblock := cbBlock (P := fun cb => Parser.InState g (f.setStateCb ptr cb) n ptr.state) hopen
    (stateCb_property hl) hclose hv h
  rwa [hself] at hblock

theorem stateBody {s : StateDescr} {items : List Item} (hv : s.Valid) (h : StateBody s items) :
    Triple Item.step
      (Parser.InState g { f with states := f.states.insert s.name (stateNew s.name) } n s.name)
      items (Parser.InState g { f with states := f.states.insert s.name s.state } n s.name) := by
  have hslot : ∀ (st : State) (exiter : Bool) (cb : Cb) (body : List Item), st.cb exiter = {} →
      cb.Valid → CbBlock (slotName exiter) cb body → Triple Item.step
        (Parser.InState g { f with states := f.states.insert s.name st } n s.name) body
        (Parser.InState g { f with
          states := f.states.insert s.name (st.modifyCb exiter fun _ => cb) } n s.name) := by
    intro st exiter cb body hst hcb hbody
    have hblock := stateCb_block (g := g) (n := n) ⟨s.name, exiter⟩
      (f := { f with states := f.states.insert s.name st }) (AList.lookup_insert _) hst hcb hbody
    simpa only [Fsm.setStateCb, hashModify_insert] using hblock
  rcases h with ⟨he, hx⟩ | ⟨he, hx⟩
  · exact (hslot _ false _ _ rfl hv.enterer he).append (hslot _ true _ _ rfl hv.exiter hx)
  · exact (hslot _ true _ _ rfl hv.exiter hx).append (hslot _ false _ _ rfl hv.enterer he)

theorem stateBlock {s : StateDescr} {init : Option Stringshare} {items : List Item}
    (hv : s.Valid) (hnew : s.name ∉ f.states) (hinit : init = some s.name → f.init = none)
    (h : StateBlock init s items) : Triple Item.step (Parser.At g f .states n) items
      (Parser.At g { f with
        states := f.states.insert s.name s.state
        init := if init = some s.name then init else f.init } .states n) := by
  have hclose : ∀ f', Triple Item.step (Parser.InState g f' (n + 1) s.name) [.blockEnd]
      (Parser.At g f' .states n) := fun f' => closes.weaken (fun _ hp => hp.1) fun _ hp => hp
  have hnone : f.states.lookup s.name = none := AList.lookup_eq_none.2 hnew
  rcases h with ⟨hne, hbody⟩ | ⟨heq, hbody⟩
  · have hopen : Triple Item.step (Parser.At g f .states n) [.token s.name .blockStart]
        (Parser.InState g { f with states := f.states.insert s.name (stateNew s.name) } (n + 1)
          s.name) := by
      refine .one fun p hp => ?_
      have ht : token (p.shown s.name (false :: p.blocks) false) '\x7b' =
          .ok { p.shown s.name (false :: p.blocks) false with
            f := some { f with states := f.states.insert s.name (stateNew s.name) }
            s := some s.name
            sm := .state } := by
        unfold token
        simp only [Parser.shown, hp.sm, Parser.fsm, hp.f, hashFind, hashAdd, hnone]
        rfl
      obtain ⟨hstep, hat⟩ :=
        step_opens hp hv.name (.inl ⟨rfl, rfl⟩) ht rfl rfl rfl
      exact ⟨_, hstep, hat, rfl⟩
    rw [if_neg hne]
    exact hopen.cons ((stateBody hv hbody).append (hclose _))
  · have hmark : Triple Item.step (Parser.At g f .states n) [.token s.name .arobase]
        (fun p => p.At g { f with states := f.states.insert s.name (stateNew s.name) }
          .stateAttribute n ∧ p.s = some s.name) := by
      refine .one fun p hp => ?_
      have ht : token (p.shown s.name p.blocks false) '@' =
          .ok { p.shown s.name p.blocks false with
            f := some { f with states := f.states.insert s.name (stateNew s.name) }
            s := some s.name
            sm := .stateAttribute } := by
        unfold token
        simp only [Parser.shown, hp.sm, Parser.fsm, hp.f, hashFind, hashAdd, hnone]
        rfl
      obtain ⟨hstep, hat⟩ :=
        step_stays hp hv.name (.inl ⟨rfl, rfl⟩) ht rfl rfl rfl
      exact ⟨_, hstep, hat, rfl⟩
    have hopen : Triple Item.step (fun p : Parser =>
          p.At g { f with states := f.states.insert s.name (stateNew s.name) }
            .stateAttribute n ∧ p.s = some s.name) [.token "init".toList .blockStart]
        (Parser.InState g { f with
          states := f.states.insert s.name (stateNew s.name), init := some s.name } (n + 1)
          s.name) := by
      refine .one fun p hps => ?_
      obtain ⟨hp, hs⟩ := hps
      have ht : token (p.shown "init".toList (false :: p.blocks) false) '\x7b' =
          .ok { p.shown "init".toList (false :: p.blocks) false with
            f := some { f with
              states := f.states.insert s.name (stateNew s.name), init := some s.name }
            sm := .state } := by
        unfold token
        simp only [Parser.shown, hp.sm, if_true, hp.f, hs, hinit heq, ne_eq, not_true_eq_false,
          if_false]
        rfl
      obtain ⟨hstep, hat⟩ :=
        step_opens hp (by decide) (.inl ⟨rfl, rfl⟩) ht rfl rfl rfl
      exact ⟨_, hstep, hat, hs⟩
    have hinside := stateBody (g := g) (f := { f with init := some s.name }) (n := n + 1) hv hbody
    rw [if_pos heq, heq]
    exact hmark.cons (hopen.cons (hinside.append (hclose _)))

end Tokens

end Estate.Cc
