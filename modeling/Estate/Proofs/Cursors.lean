import Estate.Proofs.Machines

/-!
# The pointers of the parser

Where a token is looked at, `f`, `s`, `cb` and `t` point to what the handler of the state goes
through: the state and the transition that the machine being read has named last. No part of the
program keeps these names, so a run is followed together with them.
-/

namespace Estate.Cc

open Lib

/-- The names last given to a state and to a transition of the machine being read. -/
structure LastNamed where
  state : Option Stringshare := none
  transit : Option Stringshare := none

/-- The names after a token. -/
def LastNamed.next (n : LastNamed) (p : Parser) : LastNamed :=
  match p.sm with
  | .none => {}
  | .states => { n with state := some p.buf }
  | .transitions => if p.buf = "model".toList then n else { n with transit := some p.buf }
  | .transitionStart => { n with transit := some p.buf }
  | _ => n

/-- The parser when it looks at a token, in a round that starts with the character `c`, and the
character at hand then. -/
def tokenOf (r : Cursor) (p : Parser) (c : Char) : Option (Parser × Char) :=
  match r.comments, (special r p c).2 with
  | .none, .ok (d, q) => if q.hasToken then some (q.hand, d) else none
  | _, _ => none

def LastNamed.after (n : LastNamed) (r : Cursor) (p : Parser) (c : Char) : LastNamed :=
  match tokenOf r p c with
  | none => n
  | some (q, _) => n.next q

/-- The rounds of the loop over a file, with the names last given. -/
inductive Follows (src : List Char) : Cursor → Parser → LastNamed → Prop
  | start : Follows src { ptr := src } {} {}
  | round {r r₁ r₂ : Cursor} {p q : Parser} {n : LastNamed} {c : Char} : Follows src r p n →
    charNextGet r = (some c, r₁) → parseRound r₁ p c = .ok (r₂, q) →
    Follows src r₂ q (n.after r₁ p c)

/-- The first rounds of the loop. -/
def follow (src : List Char) : ℕ → Option (Cursor × Parser × LastNamed)
  | 0 => some ({ ptr := src }, {}, {})
  | k + 1 =>
    match follow src k with
    | none => none
    | some (r, p, n) =>
      match charNextGet r with
      | (none, _) => none
      | (some c, r) =>
        match parseRound r p c with
        | .error _ => none
        | .ok (r', q) => some (r', q, n.after r p c)

theorem follows_of_follow {src : List Char} : ∀ {k : ℕ} {r : Cursor} {p : Parser} {n : LastNamed},
    follow src k = some (r, p, n) → Follows src r p n
  | 0, r, p, n, h => by
    obtain ⟨rfl, rfl, rfl⟩ := by simpa [follow] using h
    exact .start
  | k + 1, r, p, n, h => by
    unfold follow at h
    split at h
    · cases h
    · rename_i hk
      split at h
      · cases h
      · rename_i hg
        split at h
        · cases h
        · rename_i hround
          obtain ⟨rfl, rfl, rfl⟩ := by simpa using h
          exact .round (follows_of_follow hk) hg hround

/-- In the course of parsing a file, the parser looks at a token. -/
def LooksAt (src : List Char) (p : Parser) (c : Char) (n : LastNamed) : Prop :=
  ∃ r r₁ q d, Follows src r q n ∧ charNextGet r = (some d, r₁) ∧ tokenOf r₁ q d = some (p, c)

/-- The states whose handlers go through `f`. -/
def Sm.usesFsm : Sm → Bool
  | .dataGlobalProp | .states | .stateAttribute | .transitions | .transitionStart => true
  | _ => false

/-- The states whose handlers go through `s`. -/
def Sm.usesState : Sm → Bool
  | .state | .stateAttribute => true
  | _ => false

/-- The states whose handlers go through `cb`. -/
def Sm.usesCb : Sm → Bool
  | .stateCb | .stateCbFuncProp | .stateCbDataProp => true
  | _ => false

/-- The states of the description of a transition. -/
def Sm.describes : Sm → Bool
  | .transition | .transitionCb | .transitionCbFuncProp | .transitionCbDataProp => true
  | _ => false

/-- The states whose handlers go through `t` in a line of the model. -/
def Sm.usesLine : Sm → Bool
  | .transitionFrom | .transitionTo => true
  | _ => false

/-- Every pointer that the handler of the state goes through is valid. -/
structure CursorsValid (p : Parser) : Prop where
  fsm : p.sm.usesFsm = true → ∃ f, p.f = some f
  state : p.sm.usesState = true ∨ p.sm.usesCb = true →
    ∃ f s, p.f = some f ∧ p.s = some s ∧ s ∈ f.states
  cb : p.sm.usesCb = true → ∃ s exiter, p.s = some s ∧ p.cb = some ⟨s, exiter⟩
  transit : p.sm.describes = true →
    ∃ f name, p.f = some f ∧ p.t = some (.entry name) ∧ name ∈ f.transitions
  line : p.sm.usesLine = true → ∃ t, p.t = some t ∧
    ∀ name, t = .entry name → ∃ f, p.f = some f ∧ name ∈ f.transitions

/-- What is written for the value of a property. -/
def Parser.property (p : Parser) (cb : Cb) : Cb :=
  if p.sm = .stateCbFuncProp ∨ p.sm = .transitionCbFuncProp then { cb with func := some p.buf }
  else { cb with data := some p.buf }

/-- The value of a property goes to the state or the transition last named. -/
structure Attaches (n : LastNamed) (p q : Parser) : Prop where
  state : p.sm = .stateCbFuncProp ∨ p.sm = .stateCbDataProp →
    ∃ f s exiter, p.f = some f ∧ n.state = some s ∧ s ∈ f.states ∧ p.cb = some ⟨s, exiter⟩ ∧
      q.f = some { f with
        states := hashModify f.states s fun st => st.modifyCb exiter p.property }
  transit : p.sm = .transitionCbFuncProp ∨ p.sm = .transitionCbDataProp →
    ∃ f name, p.f = some f ∧ n.transit = some name ∧ name ∈ f.transitions ∧
      q.f = some { f with
        transitions := hashModify f.transitions name fun t => { t with cb := p.property t.cb } }

/-! ## What leaves the pointers valid -/

section Keep

variable {p q : Parser} {n : LastNamed} {c d : Char}

/-- There is a machine outside `SM_NONE`, the pointers are valid, and they follow the names. -/
structure Pointing (p : Parser) (n : LastNamed) : Prop where
  machine : p.sm ≠ .none → ∃ f, p.f = some f
  valid : CursorsValid p
  state : p.sm.usesState = true ∨ p.sm.usesCb = true → n.state = p.s
  transit : p.sm.describes = true → p.t = n.transit.map .entry

theorem fresh_pointing : Pointing {} {} where
  machine h := absurd rfl h
  valid := by constructor <;> simp [Sm.usesFsm, Sm.usesState, Sm.usesCb, Sm.describes, Sm.usesLine]
  state := by simp [Sm.usesState, Sm.usesCb]
  transit := by simp [Sm.describes]

/-- In a state whose handler goes through no pointer but `f`, the machine is all that counts. -/
theorem pointing_of_machine {f : Fsm} (hf : p.f = some f)
    (hs : p.sm.usesState = false ∧ p.sm.usesCb = false)
    (ht : p.sm.describes = false ∧ p.sm.usesLine = false) : Pointing p n where
  machine _ := ⟨f, hf⟩
  valid := by constructor <;> simp [hf, hs, ht]
  state := by simp [hs]
  transit := by simp [ht]

theorem pointing_of_state {f : Fsm} {name : Stringshare} (hf : p.f = some f) (hs : p.s = some name)
    (hmem : name ∈ f.states) (hn : n.state = some name)
    (hcb : p.sm.usesCb = true → ∃ exiter, p.cb = some ⟨name, exiter⟩)
    (ht : p.sm.describes = false ∧ p.sm.usesLine = false) : Pointing p n where
  machine _ := ⟨f, hf⟩
  valid :=
    { fsm := fun _ => ⟨f, hf⟩
      state := fun _ => ⟨f, name, hf, hs, hmem⟩
      cb := fun hu => ⟨name, (hcb hu).imp fun _ h => ⟨hs, h⟩⟩
      transit := by simp [ht]
      line := by simp [ht] }
  state := fun _ => hn.trans hs.symm
  transit := by simp [ht]

theorem pointing_of_line {f : Fsm} {ptr : TransitPtr} (hf : p.f = some f) (ht : p.t = some ptr)
    (hmem : ∀ name, ptr = .entry name → name ∈ f.transitions)
    (hdescribes : p.sm.describes = true → ∃ name, ptr = .entry name ∧ n.transit = some name)
    (hs : p.sm.usesState = false ∧ p.sm.usesCb = false) : Pointing p n where
  machine _ := ⟨f, hf⟩
  valid :=
    { fsm := fun _ => ⟨f, hf⟩
      state := by simp [hs]
      cb := by simp [hs]
      transit := fun hu => by
        obtain ⟨name, rfl, -⟩ := hdescribes hu
        exact ⟨f, name, hf, ht, hmem name rfl⟩
      line := fun _ => ⟨ptr, ht, fun name h => ⟨f, hf, hmem name h⟩⟩ }
  state := by simp [hs]
  transit := fun hu => by
    obtain ⟨name, rfl, hn⟩ := hdescribes hu
    rw [ht, hn]
    rfl

/-- The pointers and the state decide. -/
theorem Pointing.congr (h : Pointing p n) (hf : q.f = p.f) (ht : q.t = p.t) (hs : q.s = p.s)
    (hc : q.cb = p.cb) (hsm : q.sm = p.sm) : Pointing q n := by
  obtain ⟨h₀, ⟨h₁, h₂, h₃, h₄, h₅⟩, h₆, h₇⟩ := h
  refine ⟨?_, ?_, ?_, ?_⟩
  · rwa [hsm, hf]
  · constructor <;> rw [hsm] <;> simp only [hf, ht, hs, hc] <;> assumption
  · rwa [hsm, hs]
  · rwa [hsm, ht]

/-- A state that is left for its parent uses the pointers that the parent uses. -/
theorem parent_uses (sm : Sm) : (sm.parent ≠ .none → sm ≠ .none) ∧
    (sm.parent.usesState = true ∨ sm.parent.usesCb = true →
      sm.usesState = true ∨ sm.usesCb = true) ∧
    (sm.parent.usesCb = true → sm.usesCb = true) ∧
    (sm.parent.describes = true → sm.describes = true) ∧
    (sm.parent.usesLine = true → sm.usesLine = true) := by
  cases sm <;> decide

theorem usesFsm_ne_none {sm : Sm} (h : sm.usesFsm = true) : sm ≠ .none := by
  rintro rfl
  exact absurd h (by decide)

theorem Pointing.parent (h : Pointing p n) : Pointing { p with sm := p.sm.parent } n := by
  obtain ⟨hnone, hstate, hcb, hdescribes, hline⟩ := parent_uses p.sm
  exact
    { machine := fun hne => h.machine (hnone hne)
      valid :=
        { fsm := fun hu => h.machine (hnone (usesFsm_ne_none hu))
          state := fun hu => h.valid.state (hstate hu)
          cb := fun hu => h.valid.cb (hcb hu)
          transit := fun hu => h.valid.transit (hdescribes hu)
          line := fun hu => h.valid.line (hline hu) }
      state := fun hu => h.state (hstate hu)
      transit := fun hu => h.transit (hdescribes hu) }

theorem Pointing.transit_name {name : Stringshare} (h : Pointing p n)
    (hdescribes : p.sm.describes = true) (hptr : p.t = some (.entry name)) :
    n.transit = some name := by
  have ht := h.transit hdescribes
  rw [hptr] at ht
  rcases hn : n.transit with _ | name'
  · simp [hn] at ht
  · simp only [hn, Option.map_some, Option.some.injEq, TransitPtr.entry.injEq] at ht
    rw [ht]

theorem Pointing.leave (h : Pointing p n) (hq : p.leave = some q) : Pointing q n := by
  obtain ⟨⟨blocks, sm⟩, hl, rfl⟩ := Option.map_eq_some_iff.1 hq
  have hsm : Pointing { p with sm := sm } n :=
    blockLeave_induct (P := fun sm => Pointing { p with sm := sm } n)
      (fun sm (hsm : Pointing { p with sm := sm } n) => hsm.parent) hl h
  exact hsm.congr rfl rfl rfl rfl rfl

/-- What the switch does to the pointers: nothing, or it makes the transition of a line without a
name. -/
theorem special_pointing {r : Cursor} (h : Pointing p n) (hs : (special r p c).2 = .ok (d, q)) :
    Pointing q n := by
  have hanon : ∀ {format : String}, (anonymousTransit p format).sm = .transitionFrom →
      Pointing (anonymousTransit p format) n := by
    intro format hsm
    unfold anonymousTransit at hsm ⊢
    split_ifs at hsm ⊢ with hstart
    · obtain ⟨f, hf⟩ := h.machine (by simp [hstart.1])
      refine ⟨fun _ => ⟨f, hf⟩, ?_, by simp [Sm.usesState, Sm.usesCb], by simp [Sm.describes]⟩
      constructor <;> simp [Sm.usesFsm, Sm.usesState, Sm.usesCb, Sm.describes]
    · exact h
  have hsame : ∀ {p' : Parser}, (Except.ok (c, p') : Except Fail (Char × Parser)) = .ok (d, q) →
      p'.f = p.f → p'.t = p.t → p'.s = p.s → p'.cb = p.cb → p'.sm = p.sm → Pointing q n := by
    intro p' heq hf ht hs' hcb hsm
    obtain ⟨-, rfl⟩ := Prod.mk.inj (Except.ok.inj heq)
    exact h.congr hf ht hs' hcb hsm
  have henter : ∀ {abbr : Bool} {p' : Parser}, blockEnter p abbr = some p' →
      (Except.ok (c, p') : Except Fail (Char × Parser)) = .ok (d, q) → Pointing q n := by
    intro abbr p' hp heq
    obtain ⟨-, rfl⟩ := blockEnter_some hp
    exact hsame heq rfl rfl rfl rfl rfl
  have hword : (wordChar p c).map (c, ·) = .ok (d, q) → Pointing q n := by
    intro heq
    unfold wordChar at heq
    split_ifs at heq
    · simp [Except.map] at heq
    · simp [Except.map] at heq
    · exact hsame heq rfl rfl rfl rfl rfl
  unfold special at hs
  rcases hc : charCase c <;> simp only [hc] at hs
  case slash =>
    split at hs <;> simp only [Except.ok.injEq, Prod.mk.injEq, reduceCtorEq] at hs
    · exact hs.2 ▸ h
    · exact hs.2 ▸ h
  case dot =>
    split at hs
    · rename_i hp
      exact henter hp hs
    · simp [invalidChar, Except.map] at hs
  case blockStart =>
    split at hs
    · rename_i hp
      exact henter hp hs
    · simp [invalidChar, Except.map] at hs
  case arobase =>
    split_ifs at hs
    · exact hsame hs rfl rfl rfl rfl rfl
    · simp [invalidChar, Except.map] at hs
  case colon =>
    split_ifs at hs
    · split at hs
      · rename_i hp
        exact henter hp hs
      · simp [invalidChar, Except.map] at hs
    · exact hsame hs rfl rfl rfl rfl rfl
    · simp [invalidChar, Except.map] at hs
  case semicolon =>
    split_ifs at hs
    · exact hsame hs rfl rfl rfl rfl rfl
    · exact hsame hs rfl rfl rfl rfl rfl
    · simp [invalidChar, Except.map] at hs
  case dash =>
    split_ifs at hs with hsm
    · simp [invalidChar, Except.map] at hs
    · split at hs
      · obtain ⟨-, rfl⟩ := Prod.mk.inj (Except.ok.inj hs)
        exact (hanon (not_not.1 hsm)).congr rfl rfl rfl rfl rfl
      · simp at hs
  case greater =>
    split_ifs at hs with hsm
    · obtain ⟨-, rfl⟩ := Prod.mk.inj (Except.ok.inj hs)
      exact (hanon (not_not.1 hsm)).congr rfl rfl rfl rfl rfl
  case blockEnd => exact hsame hs rfl rfl rfl rfl rfl
  case white =>
    split_ifs at hs
    · exact hsame hs rfl rfl rfl rfl rfl
    · exact hsame hs rfl rfl rfl rfl rfl
  case digit =>
    split_ifs at hs
    exact hword hs
  case letter => exact hword hs
  case other => simp at hs

/-- A token that opens a block leads to a state that uses no more pointers, but for the name of a
transition to describe. -/
theorem enter_uses {sm : Sm} {buf : List Char} (hsm : sm ∈ opening)
    (hmodel : sm = .transitions → buf = "model".toList) :
    sm ≠ .none ∧ ((smAfter sm buf c).usesState = true ∨ (smAfter sm buf c).usesCb = true →
      sm.usesCb = true) ∧
    ((smAfter sm buf c).describes = true → sm.describes = true) ∧
    (smAfter sm buf c).usesLine = false := by
  simp only [opening, List.mem_cons, List.not_mem_nil, or_false] at hsm
  rcases hsm with rfl | rfl | rfl | rfl | rfl | rfl | rfl <;> simp only [smAfter]
  case inr.inr.inr.inl =>
    rw [if_pos (hmodel rfl)]
    decide
  all_goals first | decide | (split_ifs <;> decide)

/-- The names are given in other states, or by another word. -/
theorem next_of_opening (hsm : p.sm ∈ opening)
    (hmodel : p.sm = .transitions → p.buf = "model".toList) : n.next p = n := by
  unfold LastNamed.next
  simp only [opening, List.mem_cons, List.not_mem_nil, or_false] at hsm
  rcases hsm with hsm | hsm | hsm | hsm | hsm | hsm | hsm <;> rw [hsm]
  exact if_pos (hmodel hsm)

theorem Pointing.enter (h : Pointing p n) (hsm : p.sm ∈ opening)
    (hmodel : p.sm = .transitions → p.buf = "model".toList) :
    Pointing { p with sm := smAfter p.sm p.buf c } (n.next p) := by
  obtain ⟨hne, hcb, hdescribes, hline⟩ := enter_uses (c := c) hsm hmodel
  rw [next_of_opening hsm hmodel]
  exact
    { machine := fun _ => h.machine hne
      valid :=
        { fsm := fun _ => h.machine hne
          state := fun hu => h.valid.state (.inr (hcb hu))
          cb := fun hu => h.valid.cb (hcb (.inr hu))
          transit := fun hu => h.valid.transit (hdescribes hu)
          line := fun hu => absurd (hline.symm.trans hu) (by decide) }
      state := fun hu => h.state (.inr (hcb hu))
      transit := fun hu => h.transit (hdescribes hu) }

/-- A word among the transitions names one of the machine's, but for `model`. -/
theorem token_describe (h : token p c = .ok q) (hsm : p.sm = .transitions)
    (hb : p.buf ≠ "model".toList) : ∃ f, p.f = some f ∧ p.buf ∈ f.transitions ∧
      q = { p with t := some (.entry p.buf), sm := .transition } := by
  unfold token at h
  rw [hsm] at h
  simp only [if_neg hb] at h
  split at h
  · simp at h
  · rename_i f hf
    split at h
    · simp at h
    · rename_i hn
      exact ⟨f, fsm_ok hf, mem_of_lookup hn, (Except.ok.inj h).symm⟩

/-- A token leads from valid pointers to valid ones, and gives the names it reads. -/
theorem token_pointing (ht : token p c = .ok q) (h : Pointing p n) : Pointing q (n.next p) := by
  by_cases hdescribe : p.sm = .transitions ∧ p.buf ≠ "model".toList
  · obtain ⟨hsm, hb⟩ := hdescribe
    obtain ⟨f, hf, hmem, rfl⟩ := token_describe ht hsm hb
    have hnext : (n.next p).transit = some p.buf := by
      rw [LastNamed.next, hsm]
      exact congrArg LastNamed.transit (if_neg hb)
    exact pointing_of_line hf rfl (fun name hname => TransitPtr.entry.inj hname ▸ hmem)
      (fun _ => ⟨p.buf, rfl, hnext⟩) ⟨rfl, rfl⟩
  have hmodel : p.sm = .transitions → p.buf = "model".toList := by
    intro hsm
    by_contra hb
    exact hdescribe ⟨hsm, hb⟩
  cases tokenStep_of_token ht
  case machine hsm => exact pointing_of_machine rfl ⟨rfl, rfl⟩ ⟨rfl, rfl⟩
  case enter hsm => exact h.enter hsm hmodel
  case key f hsm hf _ =>
    refine pointing_of_machine rfl ?_ ?_ <;>
      simp [hsm, Sm.usesState, Sm.usesCb, Sm.describes, Sm.usesLine]
  case state f hsm hf _ =>
    have hnext : (n.next p).state = some p.buf := by rw [LastNamed.next, hsm]
    refine pointing_of_state rfl rfl ((AList.mem_insert _).2 (.inl rfl)) hnext ?_ ?_ <;>
      simp only [smAfter] <;> split_ifs <;> simp [Sm.usesCb, Sm.describes, Sm.usesLine]
  case callback name exiter hsm hs =>
    obtain ⟨f, name', hf, hs', hmem⟩ := h.valid.state (.inl (by rw [hsm]; rfl))
    obtain rfl : name' = name := Option.some.inj (hs'.symm.trans hs)
    have hnext : (n.next p).state = some name' := by
      rw [LastNamed.next, hsm]
      exact (h.state (.inl (by rw [hsm]; rfl))).trans hs
    exact pointing_of_state hf hs hmem hnext (fun _ => ⟨exiter, rfl⟩) ⟨rfl, rfl⟩
  case init f name hsm hf hs _ =>
    obtain ⟨f', name', hf', hs', hmem⟩ := h.valid.state (.inl (by rw [hsm]; rfl))
    obtain rfl : name' = name := Option.some.inj (hs'.symm.trans hs)
    obtain rfl : f' = f := Option.some.inj (hf'.symm.trans hf)
    have hnext : (n.next p).state = some name' := by
      rw [LastNamed.next, hsm]
      exact (h.state (.inl (by rw [hsm]; rfl))).trans hs
    refine pointing_of_state rfl hs hmem hnext ?_ ?_ <;>
      simp only [smAfter] <;> split_ifs <;> simp [Sm.usesCb, Sm.describes, Sm.usesLine]
  case stateProp g hsm hm =>
    have hprop : p.sm.usesCb = true ∧ n.next p = n ∧ p.sm.describes = false ∧
        p.sm.usesLine = false := by
      rcases hsm with ⟨hsm, -⟩ | ⟨hsm, -⟩ <;> rw [LastNamed.next, hsm] <;> exact ⟨rfl, rfl, rfl, rfl⟩
    obtain ⟨hcb, hnext, hnot⟩ := hprop
    obtain ⟨ptr, f, -, hf, rfl⟩ := modifyCallback_ok hm
    obtain ⟨f', name, hf', hs, hmem⟩ := h.valid.state (.inr hcb)
    obtain ⟨name', exiter, hs', hptr⟩ := h.valid.cb hcb
    obtain rfl : f' = f := Option.some.inj (hf'.symm.trans hf)
    obtain rfl : name' = name := Option.some.inj (hs'.symm.trans hs)
    have hname : n.state = some name' := (h.state (.inr hcb)).trans hs
    rw [hnext]
    exact pointing_of_state rfl hs (mem_hashModify.2 hmem) hname (fun _ => ⟨exiter, hptr⟩) hnot
  case describe f hsm hb hf hmem => exact absurd (hmodel hsm) hb
  case transitProp g hsm hm =>
    have hprop : p.sm.describes = true ∧ n.next p = n ∧ p.sm.usesState = false ∧
        p.sm.usesCb = false := by
      rcases hsm with ⟨hsm, -⟩ | ⟨hsm, -⟩ <;> rw [LastNamed.next, hsm] <;> exact ⟨rfl, rfl, rfl, rfl⟩
    obtain ⟨hdescribes, hnext, hnot⟩ := hprop
    obtain ⟨f, name, hf, hptr, hmem⟩ := h.valid.transit hdescribes
    have hname : n.transit = some name := h.transit_name hdescribes hptr
    rw [hnext]
    rcases modifyTransit_ok hm with ⟨t, hline, -⟩ | ⟨name', f', hentry, hf', rfl⟩
    · simp [hptr] at hline
    · obtain rfl : f' = f := Option.some.inj (hf'.symm.trans hf)
      exact pointing_of_line rfl hptr
        (fun x hx => mem_hashModify.2 (TransitPtr.entry.inj hx ▸ hmem)) (fun _ => ⟨name, rfl, hname⟩)
        hnot
  case transit f hsm hb hf _ =>
    exact pointing_of_line rfl rfl
      (fun x hx => (AList.mem_insert _).2 (.inl (TransitPtr.entry.inj hx).symm))
      (by simp [Sm.describes]) ⟨rfl, rfl⟩
  case origin q hsm _ hm =>
    obtain ⟨ptr, hptr, hentry⟩ := h.valid.line (by rw [hsm]; rfl)
    rcases modifyTransit_ok hm with ⟨t, hline, rfl⟩ | ⟨name, f, hname, hf, rfl⟩
    · obtain ⟨f, hf⟩ := h.machine (by simp [hsm])
      exact pointing_of_line hf rfl (fun x hx => by simp at hx) (by simp [Sm.describes])
        ⟨rfl, rfl⟩
    · obtain rfl : ptr = .entry name := Option.some.inj (hptr.symm.trans hname)
      obtain ⟨f', hf', hmem⟩ := hentry name rfl
      obtain rfl : f' = f := Option.some.inj (hf'.symm.trans hf)
      exact pointing_of_line rfl hname
        (fun x hx => mem_hashModify.2 (TransitPtr.entry.inj hx ▸ hmem))
        (by simp [Sm.describes]) ⟨rfl, rfl⟩
  case target q hsm _ hm =>
    rcases modifyTransit_ok hm with ⟨t, hline, rfl⟩ | ⟨name, f, hname, hf, rfl⟩
    · obtain ⟨f, hf⟩ := h.machine (by simp [hsm])
      exact pointing_of_machine hf ⟨rfl, rfl⟩ ⟨rfl, rfl⟩
    · exact pointing_of_machine rfl ⟨rfl, rfl⟩ ⟨rfl, rfl⟩

/-- The handlers stop at NULL only through a pointer. -/
theorem nonEmpty_not_fault {text : List Char} {next : Except Fail Parser}
    (hnext : next ≠ .error .fault) : nonEmpty p text next ≠ .error .fault := by
  unfold nonEmpty
  split_ifs
  · simp
  · exact hnext

theorem cbToken_not_fault {cb : Except Fail Cb} {x y : Sm} (hcb : ∃ v, cb = .ok v) :
    cbToken p cb x y ≠ .error .fault := by
  obtain ⟨v, rfl⟩ := hcb
  unfold cbToken invalidToken
  simp only
  split_ifs <;> simp

theorem modifyTransit_not_fault {g : Transit → Transit} {ptr : TransitPtr} (ht : p.t = some ptr)
    (hf : ∀ name, ptr = .entry name → ∃ f, p.f = some f) :
    ∃ q, p.modifyTransit g = .ok q := by
  unfold Parser.modifyTransit
  rw [ht]
  cases ptr with
  | loose t => exact ⟨_, rfl⟩
  | entry name =>
    obtain ⟨f, hf⟩ := hf name rfl
    rw [hf]
    exact ⟨_, rfl⟩

/-- With valid pointers no handler goes through NULL. -/
theorem token_not_fault (h : CursorsValid p) : token p c ≠ .error .fault := by
  have hfsm : p.sm.usesFsm = true → ∃ f, p.fsm = .ok f := fun hu => by
    obtain ⟨f, hf⟩ := h.fsm hu
    exact ⟨f, by rw [Parser.fsm, hf]⟩
  have hcallback : p.sm.usesCb = true → ∃ ptr f v, p.cb = some ptr ∧ p.f = some f ∧
      p.callback = .ok v := fun hu => by
    obtain ⟨f, s, hf, hs, hmem⟩ := h.state (.inr hu)
    obtain ⟨s', exiter, hs', hcb⟩ := h.cb hu
    obtain rfl : s' = s := Option.some.inj (hs'.symm.trans hs)
    obtain ⟨st, hst⟩ := Option.isSome_iff_exists.1 (AList.lookup_isSome.2 hmem)
    exact ⟨⟨s', exiter⟩, f, st.cb exiter, hcb, hf, by simp [Parser.callback, hcb, hf, hst]⟩
  have htransit : p.sm.describes = true → ∃ t, p.transit = .ok t := fun hu => by
    obtain ⟨f, name, hf, ht, hmem⟩ := h.transit hu
    obtain ⟨t, hn⟩ := Option.isSome_iff_exists.1 (AList.lookup_isSome.2 hmem)
    exact ⟨t, by simp [Parser.transit, ht, hf, hn]⟩
  have hmodifyCallback : p.sm.usesCb = true → ∀ g, p.modifyCallback g ≠ .error .fault :=
    fun hu g => by
      obtain ⟨ptr, f, -, hcb, hf, -⟩ := hcallback hu
      simp [Parser.modifyCallback, hcb, hf]
  have hmodifyTransit : p.sm.describes = true ∨ p.sm.usesLine = true → ∀ g, ∃ q,
      p.modifyTransit g = .ok q := fun hu g => by
    rcases hu with hu | hu
    · obtain ⟨f, name, hf, ht, -⟩ := h.transit hu
      exact modifyTransit_not_fault ht fun _ _ => ⟨f, hf⟩
    · obtain ⟨ptr, ht, hentry⟩ := h.line hu
      exact modifyTransit_not_fault ht fun name hname =>
        (hentry name hname).imp fun _ hf => hf.1
  unfold token
  split <;> rename_i hsm <;> rw [hsm] at hfsm hcallback htransit hmodifyCallback hmodifyTransit
  case h_2 | h_3 => split_ifs <;> simp
  case h_12 =>
    unfold invalidToken
    split_ifs <;> simp
  case h_4 | h_5 =>
    obtain ⟨f, hf⟩ := hfsm rfl
    rw [hf]
    simp only
    split <;> simp
  case h_6 =>
    obtain ⟨f, s, -, hs, -⟩ := h.state (.inl (by rw [hsm]; rfl))
    unfold invalidToken
    rw [hs]
    simp only
    split_ifs <;> simp
  case h_7 =>
    obtain ⟨f, s, hf, hs, -⟩ := h.state (.inl (by rw [hsm]; rfl))
    rw [hf, hs]
    simp only
    split_ifs <;> simp
  case h_8 =>
    obtain ⟨-, -, v, -, -, hv⟩ := hcallback rfl
    exact cbToken_not_fault ⟨v, hv⟩
  case h_9 | h_10 => exact nonEmpty_not_fault (hmodifyCallback rfl _)
  case h_11 =>
    obtain ⟨f, hf⟩ := hfsm rfl
    rw [hf]
    split_ifs
    · simp
    · simp only
      split <;> simp
  case h_13 =>
    obtain ⟨t, ht⟩ := htransit rfl
    exact cbToken_not_fault ⟨t.cb, by rw [ht]; rfl⟩
  case h_14 | h_15 =>
    refine nonEmpty_not_fault ?_
    obtain ⟨q, hq⟩ := hmodifyTransit (.inl rfl) _
    rw [hq]
    simp
  case h_16 =>
    refine nonEmpty_not_fault ?_
    obtain ⟨f, hf⟩ := hfsm rfl
    rw [hf]
    simp only
    split <;> simp
  case h_17 | h_18 =>
    refine nonEmpty_not_fault ?_
    obtain ⟨q, hq⟩ := hmodifyTransit (.inr rfl) _
    rw [hq]
    simp
  all_goals simp

/-- A property is written through `cb` in a state, through `t` in a transition. -/
theorem token_property (h : token p c = .ok q) :
    (p.sm = .stateCbFuncProp ∨ p.sm = .stateCbDataProp →
      p.modifyCallback p.property = .ok q) ∧
    (p.sm = .transitionCbFuncProp ∨ p.sm = .transitionCbDataProp →
      p.modifyTransit (fun t => { t with cb := p.property t.cb }) = .ok q) := by
  have hprop : p.property = if p.sm = .stateCbFuncProp ∨ p.sm = .transitionCbFuncProp then
      (fun cb : Cb => { cb with func := some p.buf })
      else fun cb => { cb with data := some p.buf } := by
    funext cb
    unfold Parser.property
    split_ifs <;> rfl
  rw [hprop]
  unfold token at h
  refine ⟨fun hsm => ?_, fun hsm => ?_⟩ <;> rcases hsm with hsm | hsm <;> rw [hsm] at h ⊢ <;>
    exact (nonEmpty_ok h).2

/-- The value of a property is written for what was named last. -/
theorem Pointing.attaches (h : Pointing p n) (ht : token p c = .ok q) : Attaches n p q where
  state hsm := by
    have hcb : p.sm.usesCb = true := by rcases hsm with hsm | hsm <;> rw [hsm] <;> rfl
    obtain ⟨f, s, hf, hs, hmem⟩ := h.valid.state (.inr hcb)
    obtain ⟨s', exiter, hs', hptr⟩ := h.valid.cb hcb
    obtain rfl : s' = s := Option.some.inj (hs'.symm.trans hs)
    refine ⟨f, s', exiter, hf, (h.state (.inr hcb)).trans hs, hmem, hptr, ?_⟩
    obtain ⟨ptr, f', hptr', hf', rfl⟩ := modifyCallback_ok ((token_property ht).1 hsm)
    obtain rfl : ptr = ⟨s', exiter⟩ := Option.some.inj (hptr'.symm.trans hptr)
    obtain rfl : f' = f := Option.some.inj (hf'.symm.trans hf)
    rfl
  transit hsm := by
    have hdescribes : p.sm.describes = true := by rcases hsm with hsm | hsm <;> rw [hsm] <;> rfl
    obtain ⟨f, name, hf, hptr, hmem⟩ := h.valid.transit hdescribes
    refine ⟨f, name, hf, h.transit_name hdescribes hptr, hmem, ?_⟩
    rcases modifyTransit_ok ((token_property ht).2 hsm) with ⟨t, hline, -⟩ | ⟨name', f', ht', hf', rfl⟩
    · simp [hptr] at hline
    · obtain rfl : name' = name := TransitPtr.entry.inj (Option.some.inj (ht'.symm.trans hptr))
      obtain rfl : f' = f := Option.some.inj (hf'.symm.trans hf)
      rfl

/-! ## Rounds and runs -/

theorem Pointing.hand (h : Pointing p n) : Pointing p.hand n := by
  unfold Parser.hand
  split_ifs
  · exact h.congr rfl rfl rfl rfl rfl
  · exact h

theorem Pointing.look (h : Pointing p n) (hq : p.look c = some q) :
    Pointing q (n.next p.hand) := by
  unfold Parser.look at hq
  obtain ⟨p', hp', hq⟩ := Option.bind_eq_some_iff.1 hq
  have ht : token p.hand c = .ok p' := by
    rcases htok : token p.hand c with e | p''
    · simp [htok, Except.toOption] at hp'
    · simpa [htok, Except.toOption] using hp'
  have hclear : Pointing p'.clear (n.next p.hand) :=
    (token_pointing ht h.hand).congr rfl rfl rfl rfl rfl
  split_ifs at hq
  · exact hclear.leave hq
  · exact Option.some.inj hq ▸ hclear

/-- Without a token, a round can only end a block. -/
theorem settle_without (hp : p.hasToken = false) (h : settle p c = .ok q) :
    q = p ∨ p.leave = some q := by
  simp only [settle, hp, Bool.false_eq_true, false_and, if_false] at h
  split_ifs at h with hl
  · unfold Parser.leave
    split at h
    · simp at h
    · rename_i bs sm hb
      exact .inr (by simp [hb, ← Except.ok.inj h, hp])
  · exact .inl (Except.ok.inj h).symm

theorem settle_error {e : Fail} (h : settle p c = .error e) :
    (p.hasToken = true ∧ token p.hand c = .error e) ∨ e ≠ .fault := by
  by_cases hp : p.hasToken = true
  · have hhand : (if p.hasToken ∧ p.buf ≠ [] then { p with handed := p.handed ++ [p.buf] } else p :
        Parser) = p.hand := by
      simp [hp, Parser.hand]
    have htok : p.hand.hasToken = true := by
      unfold Parser.hand
      split_ifs <;> exact hp
    unfold settle at h
    simp only [hhand, htok, if_true] at h
    split at h
    · rename_i e' he'
      obtain rfl : e' = e := Except.error.inj h
      exact .inl ⟨hp, he'⟩
    · split_ifs at h <;> split at h <;> simp only [Except.error.injEq, reduceCtorEq] at h <;>
        exact .inr (h ▸ by simp)
  · simp only [settle, hp, Bool.false_eq_true, false_and, if_false] at h
    split_ifs at h
    split at h <;> simp only [Except.error.injEq, reduceCtorEq] at h
    exact .inr (h ▸ by simp)

/-- What the switch refuses is malformed. -/
theorem special_error {r : Cursor} {e : Fail} (h : (special r p c).2 = .error e) : e ≠ .fault := by
  have hparse : ∀ {text : List Char},
      (Except.error (.parseError text) : Except Fail (Char × Parser)) = .error e → e ≠ .fault := by
    rintro text h rfl
    cases h
  have hword : (wordChar p c).map (c, ·) = .error e → e ≠ .fault := by
    intro h
    unfold wordChar at h
    split_ifs at h
    · exact hparse h
    · exact hparse h
    · cases h
  unfold special at h
  rcases hc : charCase c <;> simp only [hc] at h
  case slash =>
    split at h
    · cases h
    · cases h
    · exact hparse h
  case dot | blockStart =>
    split at h
    · cases h
    · exact hparse h
  case arobase =>
    split_ifs at h
    exact hparse h
  case colon =>
    split_ifs at h
    · split at h
      · cases h
      · exact hparse h
    · exact hparse h
  case semicolon =>
    split_ifs at h
    exact hparse h
  case dash =>
    split_ifs at h
    · exact hparse h
    · split at h
      · cases h
      · exact hparse h
  case greater =>
    split_ifs at h
    exact hparse h
  case blockEnd | white => cases h
  case digit =>
    split_ifs at h
    · exact hparse h
    · exact hword h
  case letter => exact hword h
  case other => exact hparse h

/-- What the token of a round is, if there is one. -/
theorem tokenOf_of_special {r r' : Cursor} {p' : Parser} (hr : r.comments = .none)
    (hs : special r p c = (r', .ok (d, p'))) :
    tokenOf r p c = if p'.hasToken then some (p'.hand, d) else none := by
  simp only [tokenOf, hr, hs]

/-- A round looks at its token, or leaves the pointers to the state. -/
theorem round_pointing {r r' : Cursor} (h : Pointing p n) (hr : parseRound r p c = .ok (r', q)) :
    Pointing q (n.after r p c) := by
  have hcomment : r.comments ≠ .none → q = p → Pointing q (n.after r p c) := by
    rintro hcom rfl
    have hnone : tokenOf r q c = none := by
      unfold tokenOf
      split
      · exact absurd ‹_› hcom
      · rfl
    simp only [LastNamed.after, hnone]
    exact h
  unfold parseRound at hr
  split at hr <;> rename_i hcom
  case h_1 => exact hcomment (by simp [hcom]) (Prod.mk.inj (Except.ok.inj hr)).2.symm
  case h_2 =>
    refine hcomment (by simp [hcom]) ?_
    split_ifs at hr
    · split at hr <;> exact (Prod.mk.inj (Except.ok.inj hr)).2.symm
    · exact (Prod.mk.inj (Except.ok.inj hr)).2.symm
  case h_3 =>
    rcases hs : special r p c with ⟨r₁, e | ⟨d, p'⟩⟩
    · simp [hs, Except.bind] at hr
    · have h' : Pointing p' n := special_pointing h (by rw [hs])
      simp only [hs, Except.bind] at hr
      split at hr
      · simp at hr
      · rename_i q' hq
        obtain ⟨-, rfl⟩ := Prod.mk.inj (Except.ok.inj hr)
        rw [LastNamed.after, tokenOf_of_special hcom hs]
        by_cases ht : p'.hasToken = true
        · simp only [ht, if_true]
          refine h'.look (c := d) ?_
          rw [← settle_of_hasToken ht, hq]
          rfl
        · simp only [ht]
          rcases settle_without (by simpa using ht) hq with rfl | hleave
          · exact h'
          · exact h'.leave hleave

theorem round_not_fault {r : Cursor} {e : ParseError} (h : Pointing p n)
    (hr : parseRound r p c = .error e) : e.fail ≠ .fault := by
  unfold parseRound at hr
  split at hr <;> rename_i hcom
  case h_1 => cases hr
  case h_2 =>
    split_ifs at hr
    split at hr <;> cases hr
  case h_3 =>
    rcases hs : special r p c with ⟨r₁, e' | ⟨d, p'⟩⟩
    · simp only [hs, Except.bind, Except.error.injEq] at hr
      rw [← hr]
      exact special_error (r := r) (by rw [hs])
    · have h' : Pointing p' n := special_pointing h (by rw [hs])
      simp only [hs, Except.bind] at hr
      split at hr
      · rename_i e' he
        simp only [Except.error.injEq] at hr
        rw [← hr]
        rcases settle_error he with ⟨-, ht⟩ | hne
        · rintro rfl
          exact token_not_fault h'.hand.valid ht
        · exact hne
      · cases hr

theorem pointing_of_follows {src : List Char} {r : Cursor} (h : Follows src r p n) :
    Pointing p n := by
  induction h with
  | start => exact fresh_pointing
  | round _ _ hround ih => exact round_pointing ih hround

/-- Where a token is looked at, the pointers are those of a run. -/
theorem pointing_of_looksAt {src : List Char} (h : LooksAt src p c n) : Pointing p n := by
  obtain ⟨r, r₁, q, d, hfollows, -, htok⟩ := h
  have hq := pointing_of_follows hfollows
  unfold tokenOf at htok
  split at htok
  · rename_i hs
    split_ifs at htok
    obtain ⟨rfl, rfl⟩ := Prod.mk.inj (Option.some.inj htok)
    exact (special_pointing hq hs).hand
  · cases htok

theorem loop_not_fault {src : List Char} {e : ParseError} : ∀ {fuel : ℕ} {r : Cursor} {p : Parser}
    {n : LastNamed}, Follows src r p n → parseLoop fuel r p = .error e → e.fail ≠ .fault
  | 0, r, p, n, hr, h => by cases h
  | fuel + 1, r, p, n, hr, h => by
    unfold parseLoop at h
    split at h
    · cases h
    · rename_i c r₁ hg
      split at h
      · rename_i e' hround
        obtain rfl : e' = e := Except.error.inj h
        exact round_not_fault (pointing_of_follows hr) hround
      · rename_i hround
        exact loop_not_fault (.round hr hg hround) h

end Keep

/-- Whatever the file, no token is looked at with a pointer that its handler cannot go through, and
a property goes to what has been named last. -/
theorem cursors_valid (src : List Char) :
    (∀ p c n, LooksAt src p c n → CursorsValid p ∧ token p c ≠ .error .fault ∧
      ∀ q, token p c = .ok q → Attaches n p q) ∧
    ∀ e, parseRun src = .error e → e.fail ≠ .fault := by
  refine ⟨fun p c n h => ?_, fun e he => loop_not_fault .start he⟩
  have hp := pointing_of_looksAt h
  exact ⟨hp.valid, token_not_fault hp.valid, fun q hq => hp.attaches hq⟩

/-- A value is read where the blocks and the state have gone out of step. -/
def strayValue : List Char :=
  "m\x7bdata\x7bx\x7b\x7dstates.s.exiter.func:f;".toList

theorem strayValue_valid : ∃ p c n, LooksAt strayValue p c n ∧
    (p.sm = .stateCbFuncProp ∧ ¬ p.InStep ∧ n.state = some "s".toList) ∧ CursorsValid p ∧
    token p c ≠ .error .fault ∧ ∀ q, token p c = .ok q → Attaches n p q := by
  have hrun : ((follow strayValue 32).bind fun x => (charNextGet x.1).1.bind fun d =>
      (tokenOf (charNextGet x.1).2 x.2.1 d).map fun y =>
        (y.1.sm, y.1.blocks.length, x.2.2.state)) =
      some (.stateCbFuncProp, 6, some "s".toList) := by decide +kernel
  obtain ⟨⟨r, q, n⟩, hfollow, hrun⟩ := Option.bind_eq_some_iff.1 hrun
  obtain ⟨d, hget, hrun⟩ := Option.bind_eq_some_iff.1 hrun
  obtain ⟨⟨p, c⟩, htok, hrun⟩ := Option.map_eq_some_iff.1 hrun
  obtain ⟨hsm, hblocks, hname⟩ : p.sm = .stateCbFuncProp ∧ p.blocks.length = 6 ∧
      n.state = some "s".toList := by simpa using hrun
  have hlooks : LooksAt strayValue p c n :=
    ⟨r, _, q, d, follows_of_follow hfollow, Prod.ext hget rfl, htok⟩
  refine ⟨p, c, n, hlooks, ⟨hsm, ?_, hname⟩, (cursors_valid strayValue).1 p c n hlooks⟩
  unfold Parser.InStep
  rw [hsm, hblocks]
  decide

end Estate.Cc
