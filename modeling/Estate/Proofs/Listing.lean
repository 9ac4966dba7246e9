import Estate.Cc.Listing
import Estate.Proofs.Outline

/-!
# Which model lines become transitions

A line with a name is entered in the machine when its name is read, and its entry gets its states
one by one (`Listed`). A line without a name is kept in a transition that no machine holds, and is
dropped at its `;`. So the transitions are the lines exactly when every line has a name and none
is left open at the end of the file (`linesKept_iff`).
-/

namespace Estate.Cc

open Lib

section Pairs

variable {f : Fsm} {name : Stringshare} {t : Transit}

def Transit.pair (t : Transit) : Option Stringshare × Option Stringshare :=
  (t.fromState, t.toState)

/-- A write to an entry exchanges its states, and leaves those of the others. -/
theorem exists_pairs_modify (hl : f.transitions.lookup name = some t) :
    ∃ rest, f.pairs.Perm (t.pair :: rest) ∧ ∀ g : Transit → Transit,
      ({ f with transitions := hashModify f.transitions name g } : Fsm).pairs.Perm
        ((g t).pair :: rest) := by
  obtain ⟨rest, hperm, hrep⟩ := exists_perm_replace hl
  refine ⟨rest.map Transit.pair, hperm.map Transit.pair, fun g => ?_⟩
  have hmod : hashModify f.transitions name g = f.transitions.replace name (g t) := by
    unfold hashModify
    rw [hl]
  rw [hmod]
  exact (hrep (g t)).map Transit.pair

/-- The callbacks of a transition are no matter of its states. -/
theorem pairs_modify_cb {g : Cb → Cb} :
    ({ f with transitions := hashModify f.transitions name fun t => { t with cb := g t.cb } } :
      Fsm).pairs.Perm f.pairs := by
  rcases hl : f.transitions.lookup name with _ | t
  · have hmod : hashModify f.transitions name (fun t => { t with cb := g t.cb }) =
        f.transitions := by
      unfold hashModify
      rw [hl]
    rw [hmod]
  · obtain ⟨rest, hperm, hmod⟩ := exists_pairs_modify hl
    exact (hmod _).trans hperm.symm

theorem pairs_insert (hnew : name ∉ f.transitions) :
    ({ f with transitions := f.transitions.insert name (transitNew name) } : Fsm).pairs =
      (none, none) :: f.pairs := by
  simp only [Fsm.pairs, Fsm.transits, AList.entries_insert_of_notMem hnew]
  rfl

end Pairs

section Listed

variable {p q : Parser} {l : Listing} {c : Char} {m : Mark}

/-- A line of the model is being read. -/
def Sm.InLine (sm : Sm) : Prop := sm = .transitionFrom ∨ sm = .transitionTo

/-- The entry of the line being read. -/
def Listing.begun (l : Listing) : Sm → List (Option Stringshare × Option Stringshare)
  | .transitionFrom => if l.named then [(none, none)] else []
  | .transitionTo => if l.named then [(some l.origin, none)] else []
  | _ => []

theorem begun_of_not_inLine {sm : Sm} (h : ¬ sm.InLine) : l.begun sm = [] := by
  cases sm <;> first | rfl | simp [Sm.InLine] at h

theorem toState_of_begun {t : Transit} (h : [t.pair] = l.begun .transitionFrom) :
    t.toState = none := by
  unfold Listing.begun at h
  split_ifs at h
  exact congrArg Prod.snd (List.cons.inj h).1

theorem fromState_of_begun {t : Transit} (h : [t.pair] = l.begun .transitionTo) :
    t.fromState = some l.origin := by
  unfold Listing.begun at h
  split_ifs at h
  exact congrArg Prod.fst (List.cons.inj h).1

/-- A machine holds the lines that have a name, and the one being read. -/
def Records (begun : List (Option Stringshare × Option Stringshare)) (f : Fsm)
    (xs : List ModelLine) : Prop :=
  f.pairs.Perm ((xs.filter ModelLine.named).map ModelLine.pair ++ begun)

/-- The machines hold what has been listed, and `t` points to the line being read. -/
structure Listed (p : Parser) (l : Listing) : Prop where
  past : List.Forall₂ (Records []) p.parse l.past
  last : Option.Rel (Records (l.begun p.sm)) p.f l.last
  named : p.sm.InLine → l.named = true → ∃ n f t, p.t = some (.entry n) ∧ p.f = some f ∧
    f.transitions.lookup n = some t ∧ [t.pair] = l.begun p.sm
  loose : p.sm.InLine → l.named = false → ∃ t, p.t = some (.loose t)

theorem fresh_listed : Listed {} {} :=
  ⟨.nil, .none, by simp [Sm.InLine], by simp [Sm.InLine]⟩

theorem Listed.records (h : Listed p l) {f : Fsm} (hf : p.f = some f) :
    ∃ xs, l.last = some xs ∧ Records (l.begun p.sm) f xs := by
  have hlast := h.last
  rw [hf] at hlast
  rcases hl : l.last with _ | xs
  · rw [hl] at hlast
    cases hlast
  · rw [hl] at hlast
    cases hlast with
    | some hr => exact ⟨xs, rfl, hr⟩

/-- The machines, the pointer and the line decide. -/
theorem Listed.congr (h : Listed p l) (hparse : q.parse = p.parse) (hf : q.f = p.f)
    (ht : q.t = p.t) (hsm : q.sm = p.sm) : Listed q l := by
  refine ⟨hparse ▸ h.past, ?_, ?_, ?_⟩
  · rw [hf, hsm]
    exact h.last
  · rw [hf, hsm, ht]
    exact h.named
  · rw [hsm, ht]
    exact h.loose

/-- A step outside the lines of the model. -/
theorem Listed.quiet (h : Listed p l) (hp : ¬ p.sm.InLine) (hq : ¬ q.sm.InLine)
    (hparse : q.parse = p.parse)
    (hf : q.f = p.f ∨ ∃ f f', p.f = some f ∧ q.f = some f' ∧ f'.pairs.Perm f.pairs) :
    Listed q l := by
  refine ⟨hparse ▸ h.past, ?_, fun hl => absurd hl hq, fun hl => absurd hl hq⟩
  rw [begun_of_not_inLine hq, ← begun_of_not_inLine hp (l := l)]
  rcases hf with hf | ⟨f, f', hf, hf', hperm⟩
  · exact hf ▸ h.last
  · obtain ⟨xs, hl, hr⟩ := h.records hf
    rw [hf', hl]
    exact .some (hperm.trans hr)

/-! ## Tokens -/

/-- What a token adds to the listing, the arrows of the lines without a name apart. -/
def Listing.token (l : Listing) (sm : Sm) (word : Stringshare) : Listing :=
  match sm with
  | .none => { l with past := l.past ++ l.last.toList, last := some [] }
  | .transitionStart => { l with named := true }
  | .transitionFrom => { l with origin := word }
  | .transitionTo => { l with last := l.last.map (· ++ [⟨l.named, l.origin, word⟩]) }
  | _ => l

theorem not_inLine_of_opening {sm : Sm} {buf : List Char} (h : sm ∈ opening) :
    ¬ sm.InLine ∧ ¬ (smAfter sm buf c).InLine ∧ ∀ l : Listing, l.token sm buf = l := by
  cases sm <;> first | exact absurd h (by decide) | skip
  all_goals
    refine ⟨by simp [Sm.InLine], ?_, fun l => rfl⟩
    simp only [smAfter, Sm.InLine]
    try split_ifs
    all_goals simp

theorem rel_toList {α β : Type*} {R : α → β → Prop} {a : Option α} {b : Option β}
    (h : Option.Rel R a b) : List.Forall₂ R a.toList b.toList := by
  cases h with
  | none => exact .nil
  | some h => exact .cons h .nil

theorem rel_map {α β : Type*} {R S : α → β → Prop} {a : Option α} {b : Option β} {g : β → β}
    (h : Option.Rel R a b) (hg : ∀ x y, R x y → S x (g y)) : Option.Rel S a (b.map g) := by
  cases h with
  | none => exact .none
  | some h => exact .some (hg _ _ h)

/-- The entry of the line being read is exchanged for one with another state. -/
theorem Listed.write (h : Listed p l) (hsm : p.sm.InLine) {name : Stringshare} {f : Fsm}
    {g : Transit → Transit} {pair : Option Stringshare × Option Stringshare}
    (ht : p.t = some (.entry name)) (hf : p.f = some f)
    (hpair : ∀ t, [t.pair] = l.begun p.sm → (g t).pair = pair) :
    l.named = true ∧
      (∃ t, (hashModify f.transitions name g).lookup name = some t ∧ t.pair = pair) ∧
      ∃ xs, l.last = some xs ∧
        Records [pair] { f with transitions := hashModify f.transitions name g } xs := by
  have hnamed : l.named = true := by
    rcases hn : l.named with _ | _
    · obtain ⟨t, ht'⟩ := h.loose hsm hn
      simp [ht] at ht'
    · rfl
  obtain ⟨n, f', t, ht', hf', hlook, hbegun⟩ := h.named hsm hnamed
  obtain rfl : name = n := by simpa [ht] using ht'
  obtain rfl : f = f' := by simpa [hf] using hf'
  have hpt := hpair t hbegun
  obtain ⟨xs, hl, hrec⟩ := h.records hf
  refine ⟨hnamed, ⟨g t, ?_, hpt⟩, xs, hl, ?_⟩
  · rw [lookup_hashModify, if_pos rfl, hlook]
    rfl
  · obtain ⟨rest, hperm, hmod⟩ := exists_pairs_modify hlook
    unfold Records at hrec ⊢
    rw [← hbegun] at hrec
    have hrest : rest.Perm ((xs.filter ModelLine.named).map ModelLine.pair) :=
      ((hperm.symm.trans hrec).trans (List.perm_append_singleton _ _)).cons_inv
    rw [← hpt]
    exact ((hmod g).trans (hrest.cons _)).trans (List.perm_append_singleton _ _).symm

/-- A line without a name is in no entry. -/
theorem Listed.unnamed (h : Listed p l) (hsm : p.sm.InLine) {t : Transit}
    (ht : p.t = some (.loose t)) : l.named = false ∧ l.begun p.sm = [] := by
  have hnamed : l.named = false := by
    rcases hn : l.named with _ | _
    · rfl
    · obtain ⟨n, f, t', ht', -⟩ := h.named hsm hn
      simp [ht] at ht'
  refine ⟨hnamed, ?_⟩
  rcases hsm with hsm | hsm <;> simp [hsm, Listing.begun, hnamed]

theorem TokenStep.listed (hs : TokenStep p c q) (h : Listed p l) :
    Listed q (l.token p.sm p.buf) := by
  cases hs
  case machine hsm =>
    have hlast := h.last
    rw [begun_of_not_inLine (by simp [Sm.InLine, hsm])] at hlast
    rw [hsm]
    refine ⟨List.rel_append h.past (rel_toList hlast), .some ?_, by simp [Sm.InLine],
      by simp [Sm.InLine]⟩
    exact List.Perm.refl _
  case enter hsm =>
    obtain ⟨hp, hq, hl⟩ := @not_inLine_of_opening c p.sm p.buf hsm
    rw [hl]
    exact h.quiet hp hq rfl (.inl rfl)
  case key f hsm hf hkey =>
    rw [hsm]
    exact h.quiet (by simp [Sm.InLine, hsm]) (by simp [Sm.InLine]) rfl
      (.inr ⟨f, _, hf, rfl, .refl _⟩)
  case state f hsm hf hnew =>
    have hq : ¬ (smAfter .states p.buf c).InLine := by
      simp only [smAfter, Sm.InLine]
      split_ifs <;> simp
    rw [hsm]
    exact h.quiet (by simp [Sm.InLine, hsm]) hq rfl (.inr ⟨f, _, hf, rfl, .refl _⟩)
  case callback s exiter hsm _ =>
    rw [hsm]
    exact h.quiet (by simp [Sm.InLine, hsm]) (by simp [Sm.InLine]) rfl (.inl rfl)
  case init f s hsm hf hs hinit =>
    have hq : ¬ (smAfter .stateAttribute p.buf c).InLine := by
      simp only [smAfter, Sm.InLine]
      split_ifs <;> simp
    rw [hsm]
    exact h.quiet (by simp [Sm.InLine, hsm]) hq rfl (.inr ⟨f, _, hf, rfl, .refl _⟩)
  case stateProp g hsm hm =>
    obtain ⟨ptr, f, -, hf, rfl⟩ := modifyCallback_ok hm
    have hp : ¬ p.sm.InLine ∧ l.token p.sm p.buf = l := by
      rcases hsm with ⟨hsm, -⟩ | ⟨hsm, -⟩ <;> simp [Sm.InLine, hsm, Listing.token]
    rw [hp.2]
    exact h.quiet hp.1 hp.1 rfl (.inr ⟨f, _, hf, rfl, .refl _⟩)
  case describe hsm _ hf _ =>
    rw [hsm]
    exact h.quiet (by simp [Sm.InLine, hsm]) (by simp [Sm.InLine]) rfl (.inl rfl)
  case transitProp g hsm hm =>
    have hp : ¬ p.sm.InLine ∧ l.token p.sm p.buf = l := by
      rcases hsm with ⟨hsm, -⟩ | ⟨hsm, -⟩ <;> simp [Sm.InLine, hsm, Listing.token]
    rw [hp.2]
    rcases modifyTransit_ok hm with ⟨t, -, rfl⟩ | ⟨name, f, -, hf, rfl⟩
    · exact h.quiet hp.1 hp.1 rfl (.inl rfl)
    · exact h.quiet hp.1 hp.1 rfl (.inr ⟨f, _, hf, rfl, pairs_modify_cb⟩)
  case transit f hsm _ hf hnew =>
    obtain ⟨xs, hl, hr⟩ := h.records hf
    rw [begun_of_not_inLine (by simp [Sm.InLine, hsm])] at hr
    rw [hsm]
    refine ⟨h.past, ?_, fun _ _ => ⟨p.buf, _, transitNew p.buf, rfl, rfl, ?_, rfl⟩,
      fun _ hn => by simp [Listing.token] at hn⟩
    · simp only [Listing.token, hl]
      refine .some ?_
      unfold Records at hr ⊢
      rw [pairs_insert hnew]
      rw [List.append_nil] at hr
      exact (hr.cons _).trans (List.perm_append_singleton _ _).symm
    · exact AList.lookup_insert _
  case origin q hsm _ hm =>
    have hin : p.sm.InLine := .inl hsm
    rw [hsm]
    rcases modifyTransit_ok hm with ⟨t, ht, rfl⟩ | ⟨name, f, ht, hf, rfl⟩
    · obtain ⟨hnamed, hbegun⟩ := h.unnamed hin ht
      refine ⟨h.past, ?_, fun _ hn => by simp [Listing.token, hnamed] at hn, fun _ _ => ⟨_, rfl⟩⟩
      have hnone : (l.token .transitionFrom p.buf).begun .transitionTo = [] := by
        simp [Listing.token, Listing.begun, hnamed]
      rw [hnone, ← hbegun]
      exact h.last
    · obtain ⟨hnamed, ⟨t, hlook, hpair⟩, xs, hl, hrec⟩ :=
        h.write hin ht hf (g := fun t => { t with fromState := some p.buf }) fun t hb =>
          congrArg (Prod.mk (some p.buf)) (toState_of_begun (l := l) (t := t) (hsm ▸ hb))
      have hbegun : (l.token .transitionFrom p.buf).begun .transitionTo =
          [(some p.buf, none)] := by
        simp [Listing.token, Listing.begun, hnamed]
      refine ⟨h.past, ?_, fun _ _ => ⟨name, _, t, ht, rfl, hlook, ?_⟩,
        fun _ hn => by simp [Listing.token, hnamed] at hn⟩
      · rw [hbegun]
        exact hl ▸ .some hrec
      · rw [hbegun, hpair]
  case target q hsm _ hm =>
    have hin : p.sm.InLine := .inr hsm
    have hout : ¬ Sm.transitionStart.InLine := by simp [Sm.InLine]
    rw [hsm]
    rcases modifyTransit_ok hm with ⟨t, ht, rfl⟩ | ⟨name, f, ht, hf, rfl⟩
    · obtain ⟨hnamed, hbegun⟩ := h.unnamed hin ht
      refine ⟨h.past, ?_, fun hl => absurd hl hout, fun hl => absurd hl hout⟩
      have hdrop : ∀ f xs, Records (l.begun p.sm) f xs →
          Records [] f (xs ++ [⟨l.named, l.origin, p.buf⟩]) := by
        intro f xs hr
        unfold Records at hr ⊢
        simpa [hnamed, hbegun] using hr
      exact rel_map h.last hdrop
    · obtain ⟨hnamed, -, xs, hl, hrec⟩ :=
        h.write hin ht hf (g := fun t => { t with toState := some p.buf }) fun t hb =>
          congrArg (Prod.mk · (some p.buf)) (fromState_of_begun (l := l) (t := t) (hsm ▸ hb))
      refine ⟨h.past, ?_, fun hl => absurd hl hout, fun hl => absurd hl hout⟩
      simp only [Listing.token, hl, Option.map_some, Listing.begun]
      refine .some ?_
      unfold Records at hrec ⊢
      simpa [hnamed, ModelLine.pair] using hrec

/-! ## Lexemes -/

theorem mark_eq_token {sm : Sm} (hz : l.outline.zone = sm.zone)
    (hm : sm = .transitionStart → m ≠ .greater ∧ m ≠ .arrow) :
    l.mark m = l.token sm l.outline.word := by
  unfold Listing.mark
  rw [hz]
  cases sm
  case transitionStart =>
    obtain ⟨hg, ha⟩ := hm rfl
    simp [Sm.zone, Listing.token, hg, ha]
  all_goals rfl

/-- Before an arrow, a line without a name gets a transition of its own. -/
theorem anonymousTransit_listed (h : Listed p l) {format : String}
    (hfrom : (anonymousTransit p format).sm = .transitionFrom)
    (ho : l.outline = p.outline) (hm : m = .greater ∨ m = .arrow) :
    ∃ l₁, Listed (anonymousTransit p format) l₁ ∧
      l.mark m = l₁.token (anonymousTransit p format).sm p.buf := by
  have hz : l.outline.zone = p.sm.zone := congrArg Outline.zone ho
  have hw : l.outline.word = p.buf := congrArg Outline.word ho
  rw [hfrom]
  unfold anonymousTransit at hfrom ⊢
  split_ifs at hfrom ⊢ with hs
  · refine ⟨{ l with named := false }, ⟨h.past, ?_, by simp, fun _ _ => ⟨_, rfl⟩⟩, ?_⟩
    · have hlast := h.last
      rw [begun_of_not_inLine (by simp [Sm.InLine, hs.1])] at hlast
      exact hlast
    · simp only [Listing.mark, hz, hs.1, Sm.zone, if_pos hm, hw]
      rfl
  · refine ⟨l, h, ?_⟩
    rw [mark_eq_token (hz.trans (congrArg Sm.zone hfrom)) (by simp), hw]

theorem prepare_listed (h : Listed p l) (hq : m.prepare p = some q)
    (ho : l.outline = p.outline) :
    ∃ l₁, Listed q l₁ ∧ l.mark m = l₁.token q.sm q.buf := by
  have hz : l.outline.zone = p.sm.zone := congrArg Outline.zone ho
  have hw : l.outline.word = p.buf := congrArg Outline.word ho
  rcases prepare_cases hq with ⟨hm, format, hfrom, rfl⟩ | ⟨hm, bs, b, rfl⟩
  · obtain ⟨l₁, h₁, hl₁⟩ := anonymousTransit_listed h hfrom ho hm
    have hbuf := (anonymousTransit_frame (p := p) format).buf
    exact ⟨l₁, h₁.congr rfl rfl rfl rfl, hl₁.trans (congrArg (l₁.token _) hbuf.symm)⟩
  · -- the marks but the arrows leave the line as it is
    refine ⟨l, h.congr rfl rfl rfl rfl, ?_⟩
    rw [mark_eq_token hz fun _ => not_or.1 hm, hw]

theorem leave_listed (h : Listed p l) (hq : p.leave = some q) : Listed q l := by
  unfold Parser.leave at hq
  obtain ⟨⟨blocks, sm⟩, hl, rfl⟩ := Option.map_eq_some_iff.1 hq
  by_cases hp : p.sm.InLine
  · have hup : ∀ sm : Sm, sm = p.sm → sm.parent = p.sm := by
      rintro _ rfl
      rcases hp with hp | hp <;> rw [hp] <;> rfl
    exact h.congr rfl rfl rfl (blockLeave_induct hup hl rfl)
  · have hup : ∀ sm : Sm, ¬ sm.InLine → ¬ sm.parent.InLine := by
      intro sm
      cases sm <;> simp [Sm.parent, Sm.InLine]
    exact h.quiet hp (blockLeave_induct hup hl hp) rfl (.inl rfl)

theorem Listed.withOutline (h : Listed p l) (o : Outline) : Listed p { l with outline := o } :=
  ⟨h.past, h.last, h.named, h.loose⟩

theorem hand_listed (h : Listed p l) : Listed p.hand l ∧ p.hand.sm = p.sm := by
  unfold Parser.hand
  split_ifs
  · exact ⟨h.congr rfl rfl rfl rfl, rfl⟩
  · exact ⟨h, rfl⟩

theorem step_listed {x : Lexeme} (hp : p.Settled) (h : Listed p l) (ho : l.outline = p.outline)
    (hq : x.step p = some q) : Listed q (l.step x) := by
  rcases x with _ | c | m | _ | _ | _
  case white =>
    rw [step_white hp] at hq
    obtain rfl := Option.some.inj hq
    split_ifs
    · exact (h.withOutline _).congr rfl rfl rfl rfl
    · exact h.withOutline _
  case word =>
    obtain ⟨-, -, -, rfl⟩ := step_word.1 hq
    exact (h.withOutline _).congr rfl rfl rfl rfl
  case mark =>
    obtain ⟨p₁, q₁, hprep, htok, hq⟩ := mark_ok hq
    obtain ⟨l₁, h₁, hl₁⟩ := prepare_listed h hprep ho
    obtain ⟨hhand, hsm⟩ := hand_listed h₁
    have hlisted := htok.listed hhand
    rw [hsm, (hand_frame (p := p₁)).1, ← hl₁] at hlisted
    have hclear : Listed q₁.clear (l.mark m) := hlisted.congr rfl rfl rfl rfl
    rcases hq with ⟨-, rfl⟩ | ⟨-, hl⟩
    · exact hclear.withOutline _
    · exact (leave_listed hclear hl).withOutline _
  case blockEnd =>
    rw [step_blockEnd hp] at hq
    exact (leave_listed h hq).withOutline _
  case comment => exact Option.some.inj hq ▸ h.withOutline _
  case bad => simp [Lexeme.step] at hq

theorem step_outline_eq (x : Lexeme) : (l.step x).outline = l.outline.step x := by
  cases x <;> rfl

/-- The machines are listed along a whole file. -/
theorem run_listed : ∀ {ls : List Lexeme} {p q : Parser} {l : Listing}, p.Settled →
    p.sm ≠ .stateEob → Listed p l → l.outline = p.outline → ls.foldlM Lexeme.step p = some q →
      Listed q (ls.foldl Listing.step l) ∧ (ls.foldl Listing.step l).outline = q.outline
  | [], p, q, l, _, _, h, ho, hq => Option.some.inj hq ▸ ⟨h, ho⟩
  | x :: ls, p, q, l, hp, hk, h, ho, hq => by
    rw [List.foldlM_cons] at hq
    obtain ⟨p₁, hx, hq⟩ := Option.bind_eq_some_iff.1 hq
    obtain ⟨ho₁, hk₁⟩ := step_outline hp hk hx
    have hout : (l.step x).outline = p₁.outline := by
      rw [step_outline_eq, ho, ho₁]
    rw [List.foldl_cons]
    exact run_listed (settled_of_step hp hx) hk₁ (step_listed hp h ho hx) hout hq

end Listed

section Ends

variable {src : List Char} {r : Cursor} {p : Parser} {l : Listing}

theorem parseRun_listed (h : parseRun src = .ok (r, p)) :
    Listed p (listing src) ∧ (listing src).outline = p.outline :=
  run_listed fresh_settled (by simp) fresh_listed rfl (foldlM_of_parseRun h)

/-- A machine that holds the lines with a name holds all lines exactly when each has a name and
none is being read. -/
theorem Records.kept_iff {begun : List (Option Stringshare × Option Stringshare)} {f : Fsm}
    {xs : List ModelLine} (h : Records begun f xs) (hb : ∀ e ∈ begun, e.2 = none) :
    f.pairs.Perm (xs.map ModelLine.pair) ↔ (∀ x ∈ xs, x.named = true) ∧ begun = [] := by
  unfold Records at h
  constructor
  · intro hkept
    have hperm := h.symm.trans hkept
    have hnil : begun = [] := by
      refine List.eq_nil_iff_forall_not_mem.2 fun e he => ?_
      obtain ⟨x, -, rfl⟩ := List.mem_map.1 (hperm.subset (List.mem_append_right _ he))
      exact absurd (hb _ he) (by simp [ModelLine.pair])
    refine ⟨?_, hnil⟩
    have hlen := hperm.length_eq
    rw [hnil, List.append_nil, List.length_map, List.length_map] at hlen
    exact List.length_filter_eq_length_iff.1 hlen
  · rintro ⟨hnamed, rfl⟩
    rwa [List.append_nil, List.filter_eq_self.2 hnamed] at h

theorem forall₂_append_iff {α β : Type*} {R S : α → β → Prop} {as as' : List α} {bs bs' : List β}
    (h : List.Forall₂ R as bs) : List.Forall₂ S (as ++ as') (bs ++ bs') ↔
      List.Forall₂ S as bs ∧ List.Forall₂ S as' bs' := by
  induction h with
  | nil => simp
  | cons _ _ ih => simp [ih, and_assoc]

theorem kept_past_iff {fs : List Fsm} {lines : List (List ModelLine)}
    (h : List.Forall₂ (Records []) fs lines) :
    LinesKept fs lines ↔ ∀ xs ∈ lines, ∀ x ∈ xs, x.named = true := by
  unfold LinesKept
  induction h with
  | nil => simp
  | cons hr _ ih =>
    rw [List.forall₂_cons, ih, hr.kept_iff (by simp)]
    simp

theorem begun_toState (sm : Sm) : ∀ e ∈ l.begun sm, e.2 = none := by
  intro e he
  cases sm <;> simp only [Listing.begun] at he <;> (try split_ifs at he) <;> simp_all

theorem begun_eq_nil_iff (sm : Sm) : l.begun sm = [] ↔ ¬ (l.named = true ∧ sm.InLine) := by
  cases sm <;> simp [Listing.begun, Sm.InLine]

theorem kept_last_iff (h : Option.Rel (Records (l.begun p.sm)) p.f l.last) :
    LinesKept p.f.toList l.last.toList ↔
      (∀ xs ∈ l.last.toList, ∀ x ∈ xs, x.named = true) ∧ (p.f = none ∨ l.begun p.sm = []) := by
  unfold LinesKept
  rcases hf : p.f with _ | f <;> rcases hl : l.last with _ | xs <;> rw [hf, hl] at h <;> cases h
  · simp
  · rename_i hr
    simp [hr.kept_iff (begun_toState p.sm)]

theorem inLine_iff {sm : Sm} : sm.InLine ↔ sm.zone = .origin ∨ sm.zone = .target := by
  cases sm <;> simp [Sm.zone, Sm.InLine]

/-- The machines of a file that is read to its end have the lines of its models as their
transitions exactly when every line has a name, and the file does not end inside a line that has
one. -/
theorem linesKept_iff (h : parseRun src = .ok (r, p)) :
    LinesKept p.fsms (listing src).lines ↔
      (∀ xs ∈ (listing src).lines, ∀ x ∈ xs, x.named = true) ∧ ¬ (listing src).Begun := by
  obtain ⟨hl, ho⟩ := parseRun_listed h
  have hopen : (listing src).Begun ↔ (listing src).begun p.sm ≠ [] := by
    rw [Ne, begun_eq_nil_iff, not_not, inLine_iff, Listing.Begun, ho]
    rfl
  have hlast : p.f = none ∨ (listing src).begun p.sm = [] ↔ ¬ (listing src).Begun := by
    rw [hopen, not_not, or_iff_right_of_imp]
    intro hf
    by_contra hne
    obtain ⟨hn, hin⟩ := hopen.2 hne
    obtain ⟨n, f, t, -, hf', -⟩ := hl.named (inLine_iff.2 (by rwa [ho] at hin)) hn
    simp [hf] at hf'
  have hsplit : LinesKept p.fsms (listing src).lines ↔
      LinesKept p.parse (listing src).past ∧
        LinesKept p.f.toList (listing src).last.toList := forall₂_append_iff hl.past
  rw [hsplit, kept_past_iff hl.past, kept_last_iff hl.last, hlast, ← and_assoc]
  simp only [Listing.lines, List.forall_mem_append]

/-- A model with both forms of lines. -/
def anonymousLine : List Char := "m{transitions{model{t:a->b;b>c;}}}".toList

/-- The line without a name is read, and lost. -/
theorem anonymousLine_lost : (listing anonymousLine).lines =
      [[⟨true, "a".toList, "b".toList⟩, ⟨false, "b".toList, "c".toList⟩]] ∧
    ∃ r p, parseRun anonymousLine = .ok (r, p) ∧
      ¬ LinesKept p.fsms (listing anonymousLine).lines := by
  have hlines : (listing anonymousLine).lines =
      [[⟨true, "a".toList, "b".toList⟩, ⟨false, "b".toList, "c".toList⟩]] := by decide +kernel
  have hpairs : (parseRun anonymousLine).toOption.map (fun q => q.2.fsms.map Fsm.pairs) =
      some [[(some "a".toList, some "b".toList)]] := by decide_cbv
  obtain ⟨r, p, h⟩ := exists_parseRun (show (parseRun anonymousLine).toOption.isSome = true by
    decide_cbv)
  refine ⟨hlines, r, p, h, fun hkept => ?_⟩
  rw [h] at hpairs
  have hlen : (p.fsms.map Fsm.pairs).map List.length = [1] :=
    congrArg (List.map List.length) (Option.some.inj hpairs)
  rw [hlines] at hkept
  unfold LinesKept at hkept
  rcases hfs : p.fsms with _ | ⟨f, _ | ⟨g, fs⟩⟩
  · simp [hfs] at hlen
  · rw [hfs, List.forall₂_cons] at hkept
    have hle := hkept.1.length_eq
    simp [hfs] at hlen
    simp [hlen] at hle
  · simp [hfs] at hlen

/-- Two lines with names. -/
def namedLines : List Char := "m{transitions{model{t:a->b;u:b>c;}}}".toList

theorem namedLines_kept : ∃ r p, parseRun namedLines = .ok (r, p) ∧
    LinesKept p.fsms (listing namedLines).lines := by
  obtain ⟨r, p, h⟩ := exists_parseRun (show (parseRun namedLines).toOption.isSome = true by
    decide_cbv)
  have hlisting : listing namedLines =
      { last := some [⟨true, "a".toList, "b".toList⟩, ⟨true, "b".toList, "c".toList⟩]
        named := true
        origin := "b".toList } := by decide +kernel
  refine ⟨r, p, h, ?_⟩
  rw [linesKept_iff h, hlisting]
  simp [Listing.lines, Listing.Begun]

end Ends

end Estate.Cc
