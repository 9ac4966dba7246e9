import Estate.Cc.Ledger
import Mathlib.Tactic.Abel

/-!
# What a run of `estate_cc` gives back

The parser gives back what it takes, or its machines hold it, but for the lines without a name.
-/

namespace Estate.Cc

open Lib

/-! ## Freeing -/

@[simp] theorem held_none : held none = 0 := rfl

theorem shareOps_spends (s : Option Stringshare) : Spends 0 (shareOps s) (held s) := by
  cases s with
  | none => exact .nil
  | some s => exact Spends.takes [Res.string s]

theorem unshareOps_spends (s : Option Stringshare) : Spends (held s) (unshareOps s) 0 := by
  cases s with
  | none => exact .nil
  | some s => exact Spends.gives [Res.string s]

theorem stateFree_spends (s : State) : Spends s.holds (stateFreeOps s) 0 := by
  have harray : Spends (if s.trs ≠ [] then {Res.array} else 0 : Multiset Res)
      (if s.trs ≠ [] then [.give .array] else []) 0 := by
    split_ifs
    · exact .give _
    · exact .nil
  exact (unshareOps_spends _).clear <| (unshareOps_spends _).clear <| (unshareOps_spends _).clear <|
    (unshareOps_spends _).clear <| (unshareOps_spends _).clear <| harray.clear (.give _)

theorem transitFree_spends (t : Transit) : Spends t.holds (transitFreeOps t) 0 :=
  (unshareOps_spends _).clear <| (unshareOps_spends _).clear <| (unshareOps_spends _).clear <|
    (unshareOps_spends _).clear <| (unshareOps_spends _).clear (.give _)

theorem foreach_spends (ord : HashOrder) {α : Type} {h : EinaHash α} {holds : α → Multiset Res}
    {ops : α → List (Op Res)} (hops : ∀ x, Spends (holds x) (ops x) 0) :
    Spends ((h.entries.map fun e => holds e.2).sum + {.hash})
      ((ord.foreach h).flatMap ops ++ [.give .hash]) 0 := by
  have hperm : (ord.foreach h).Perm (h.entries.map Sigma.snd) := (ord.perm _).map _
  have hspends := Spends.flatMap_give (f := holds) (fun x _ => hops x) hperm
  rw [List.map_map] at hspends
  exact hspends.clear (.give _)

theorem fsmFree_spends (ord : HashOrder) (f : Fsm) : Spends f.holds (fsmFreeOps ord f) 0 := by
  have htransits := foreach_spends ord (h := f.transitions) transitFree_spends
  have hstates := foreach_spends ord (h := f.states) stateFree_spends
  have hkeys := foreach_spends ord (h := f.dataKeys) fun key => unshareOps_spends (some key)
  rw [Fsm.holds, Fsm.transits, Fsm.stateList, List.map_map, List.map_map]
  exact (unshareOps_spends _).clear <| htransits.clear <| hstates.clear <| hkeys.clear (.give _)

theorem parseFree_spends (ord : HashOrder) (fsms : List Fsm) :
    Spends (fsms.map Fsm.holds).sum (parserParseFreeOps ord fsms) 0 :=
  Spends.flatMap_give (fun f _ => fsmFree_spends ord f) (.refl _)

theorem stateNew_spends (name : Stringshare) :
    Spends 0 (stateNewOps (some name)) (stateNew name).holds := by
  have h : (stateNew name).holds = {Res.state} + held (some name) := by
    simp [State.holds, stateNew, add_comm]
  rw [h]
  exact Spends.both (.take Res.state) (shareOps_spends _)

theorem transitNew_spends (name : Stringshare) :
    Spends 0 (transitNewOps name) (transitNew name).holds := by
  have h : (transitNew name).holds = {Res.transit} + held (some name) := by
    simp [Transit.holds, transitNew, add_comm]
  rw [h]
  exact Spends.both (.take Res.transit) (shareOps_spends _)

theorem fsmNew_spends (name : Stringshare) : Spends 0 (fsmNewOps name) (fsmNew name).holds := by
  have hhashes : Spends 0 [.take Res.hash, .take .hash, .take .hash]
      ({Res.hash} + ({Res.hash} + {Res.hash})) := Spends.takes [Res.hash, .hash, .hash]
  have h : (fsmNew name).holds =
      {Res.fsm} + (held (some name) + ({Res.hash} + ({Res.hash} + {Res.hash}))) := by
    simp only [Fsm.holds, fsmNew, Fsm.transits, Fsm.stateList, AList.empty_entries, List.map_nil,
      List.sum_nil, zero_add]
    abel
  rw [h]
  exact Spends.both (.take Res.fsm) ((shareOps_spends (some name)).both hhashes)

/-! ## Reading -/

/-- What a machine holds, its initial state included. -/
def Fsm.keeps (f : Fsm) : Multiset Res := f.holds + held f.init

/-- The line without a name that is being read. -/
def Parser.loose (p : Parser) : List Transit :=
  match p.t with
  | some (.loose t) => [t]
  | _ => []

/-- What the machines and the line hold. -/
def Parser.keeps (p : Parser) : Multiset Res :=
  (p.fsms.map Fsm.keeps).sum + (p.loose.map Transit.holds).sum

section Sums

variable {α : Type} {h : EinaHash α} {w : α → Multiset Res} {name : Stringshare} {a : α}
  {m : Multiset Res}

theorem sum_insert (hnew : name ∉ h) :
    (((h.insert name a).entries.map Sigma.snd).map w).sum =
      ((h.entries.map Sigma.snd).map w).sum + w a := by
  rw [AList.entries_insert_of_notMem hnew, List.map_cons, List.map_cons, List.sum_cons, add_comm]

theorem sum_modify {g : α → α} (hl : h.lookup name = some a) (hg : w (g a) = w a + m) :
    (((hashModify h name g).entries.map Sigma.snd).map w).sum =
      ((h.entries.map Sigma.snd).map w).sum + m := by
  obtain ⟨rest, hperm, hrep⟩ := exists_perm_replace hl
  have hmod : hashModify h name g = h.replace name (g a) := by rw [hashModify, hl]
  rw [hmod, ((hrep (g a)).map w).sum_eq, (hperm.map w).sum_eq, List.map_cons, List.map_cons,
    List.sum_cons, List.sum_cons, hg]
  abel

end Sums

section Machine

variable {f : Fsm} {name : Stringshare} {m : Multiset Res}

theorem keeps_states {states : EinaHash State}
    (h : ((states.entries.map Sigma.snd).map State.holds).sum =
      (f.stateList.map State.holds).sum + m) :
    ({ f with states := states } : Fsm).keeps = f.keeps + m := by
  simp only [Fsm.keeps, Fsm.holds, Fsm.stateList, Fsm.transits] at h ⊢
  rw [h]
  abel

theorem keeps_transits {transitions : EinaHash Transit}
    (h : ((transitions.entries.map Sigma.snd).map Transit.holds).sum =
      (f.transits.map Transit.holds).sum + m) :
    ({ f with transitions := transitions } : Fsm).keeps = f.keeps + m := by
  simp only [Fsm.keeps, Fsm.holds, Fsm.stateList, Fsm.transits] at h ⊢
  rw [h]
  abel

theorem keeps_key (hnew : name ∉ f.dataKeys) :
    ({ f with dataKeys := f.dataKeys.insert name name } : Fsm).keeps =
      f.keeps + held (some name) := by
  simp only [Fsm.keeps, Fsm.holds, Fsm.stateList, Fsm.transits,
    AList.entries_insert_of_notMem hnew, List.map_cons, List.sum_cons]
  abel

theorem keeps_init (hi : f.init = none) :
    ({ f with init := some name } : Fsm).keeps = f.keeps + held (some name) := by
  simp only [Fsm.keeps, Fsm.holds, Fsm.stateList, Fsm.transits, hi, held_none, add_zero]

theorem fsmNew_keeps : (fsmNew name).keeps = (fsmNew name).holds := by
  simp [Fsm.keeps, fsmNew]

end Machine

/-- A transition of a line without a name. -/
structure Transit.Nameless (t : Transit) : Prop where
  name : ∃ i, t.name = "TR_".toList ++ fmtNat i ∨ t.name = "#TR_".toList ++ fmtNat i
  cb : t.cb = {}

/-- What the next value goes to has none, and a line without a name is read to its end. -/
structure Unfilled (p : Parser) : Prop where
  loose : ∀ t, p.t = some (.loose t) → p.sm.usesLine = true ∧ t.Nameless
  origin : p.sm = .transitionFrom → ∀ t, p.transit = .ok t → t.fromState = none ∧ t.toState = none
  target : p.sm = .transitionTo → ∀ t, p.transit = .ok t → t.toState = none
  stateFunc : p.sm = .stateCbFuncProp → ∀ cb, p.callback = .ok cb → cb.func = none
  stateData : p.sm = .stateCbDataProp → ∀ cb, p.callback = .ok cb → cb.data = none
  transitFunc : p.sm = .transitionCbFuncProp → ∀ t, p.transit = .ok t → t.cb.func = none
  transitData : p.sm = .transitionCbDataProp → ∀ t, p.transit = .ok t → t.cb.data = none

/-- The states in which a token is a value. -/
def Sm.IsValue (sm : Sm) : Prop :=
  sm = .stateCbFuncProp ∨ sm = .stateCbDataProp ∨ sm = .transitionCbFuncProp ∨
    sm = .transitionCbDataProp ∨ sm = .transitionFrom ∨ sm = .transitionTo

/-- The line without a name that a token ends. -/
def Parser.finished (p : Parser) : List Transit :=
  if p.sm = .transitionTo then p.loose.map fun t => { t with toState := some p.buf } else []

section Token

variable {p q : Parser} {n : LastNamed} {c : Char} {f g : Fsm} {m : Multiset Res}

theorem keeps_congr (hparse : q.parse = p.parse) (hf : q.f = p.f) (ht : q.t = p.t) :
    q.keeps = p.keeps := by
  simp only [Parser.keeps, Parser.fsms, Parser.loose, hparse, hf, ht]

/-- The last machine changes. -/
theorem keeps_update (hparse : q.parse = p.parse) (hf : p.f = some f) (hg : q.f = some g)
    (hloose : q.loose = p.loose) (h : g.keeps = f.keeps + m) : q.keeps = p.keeps + m := by
  simp only [Parser.keeps, Parser.fsms, hparse, hf, hg, hloose, Option.toList_some, List.map_append,
    List.map_cons, List.map_nil, List.sum_append, List.sum_cons, List.sum_nil, h]
  abel

theorem loose_of_not_line (h : Unfilled p) (hsm : p.sm.usesLine = false) : p.loose = [] := by
  unfold Parser.loose
  split
  · rename_i t ht
    exact absurd ((h.loose t ht).1.symm.trans hsm) (by decide)
  · rfl

theorem finished_nil (hsm : p.sm ≠ .transitionTo) : p.finished = [] := if_neg hsm

/-- A token that takes what a change of the last machine adds. -/
theorem spends_update {k : Multiset Res} (hops : Spends 0 (tokenOps p) k)
    (hsm : p.sm ≠ .transitionTo) (h : q.keeps = p.keeps + k) :
    ∃ m, Spends 0 (tokenOps p) m ∧
      p.keeps + m = q.keeps + (p.finished.map Transit.holds).sum := by
  refine ⟨k, hops, ?_⟩
  rw [finished_nil hsm, h, List.map_nil, List.sum_nil, add_zero]

/-- A value is taken for the transition that `t` points to. -/
theorem modifyTransit_keeps {g : Transit → Transit} {ptr : TransitPtr} (hptr : p.t = some ptr)
    (hentry : ∀ name, ptr = .entry name → ∃ f, p.f = some f ∧ name ∈ f.transitions)
    (hm : p.modifyTransit g = .ok q)
    (hg : ∀ t, p.transit = .ok t → (g t).holds = t.holds + m) : q.keeps = p.keeps + m := by
  rcases modifyTransit_ok hm with ⟨t, ht, rfl⟩ | ⟨name, f, ht, hf, rfl⟩
  · have htransit : p.transit = .ok t := by rw [Parser.transit, ht]
    simp only [Parser.keeps, Parser.fsms, Parser.loose, ht, List.map_cons, List.map_nil,
      List.sum_cons, List.sum_nil, hg t htransit]
    abel
  · obtain rfl : ptr = .entry name := Option.some.inj (hptr.symm.trans ht)
    obtain ⟨f', hf', hmem⟩ := hentry name rfl
    obtain rfl : f' = f := Option.some.inj (hf'.symm.trans hf)
    obtain ⟨t, hl⟩ := Option.isSome_iff_exists.1 (AList.lookup_isSome.2 hmem)
    have htransit : p.transit = .ok t := by
      rw [Parser.transit, ht]
      simp only [hf, Option.bind_some, hl]
    exact keeps_update rfl hf rfl rfl (keeps_transits (sum_modify hl (hg t htransit)))

theorem modifyCallback_keeps {k : Cb → Cb} {s : Stringshare} {exiter : Bool}
    (hptr : p.cb = some ⟨s, exiter⟩) (hf : p.f = some f) (hmem : s ∈ f.states)
    (hm : p.modifyCallback k = .ok q)
    (hk : ∀ cb, p.callback = .ok cb →
      held (k cb).func + held (k cb).data = held cb.func + held cb.data + m) :
    q.keeps = p.keeps + m := by
  obtain ⟨ptr, f', hptr', hf', rfl⟩ := modifyCallback_ok hm
  obtain rfl : f' = f := Option.some.inj (hf'.symm.trans hf)
  obtain rfl : ptr = ⟨s, exiter⟩ := Option.some.inj (hptr'.symm.trans hptr)
  obtain ⟨st, hl⟩ := Option.isSome_iff_exists.1 (AList.lookup_isSome.2 hmem)
  have hcb := hk (st.cb exiter) (by
    rw [Parser.callback, hptr]
    simp only [hf, Option.bind_some, hl])
  have hst : (st.modifyCb exiter k).holds = st.holds + m := by
    rcases exiter
    · simp only [State.cb, State.modifyCb, State.holds, Bool.false_eq_true, if_false] at hcb ⊢
      rw [← add_assoc, hcb]
      abel
    · simp only [State.cb, State.modifyCb, State.holds, if_true] at hcb ⊢
      rw [← add_assoc (held (k st.exiter).func), hcb]
      abel
  exact keeps_update rfl hf rfl rfl (keeps_states (sum_modify hl hst))

theorem valueOps_spends (hsm : p.sm.IsValue) (hb : p.buf ≠ []) :
    Spends 0 (tokenOps p) (held (some p.buf)) := by
  have hops : tokenOps p = shareOps (some p.buf) := by
    rcases hsm with h | h | h | h | h | h <;> simp only [tokenOps, h, if_neg hb]
  rw [hops]
  exact shareOps_spends _

/-- Where a token only opens a block, nothing is taken. -/
theorem enterOps (hsm : p.sm ∈ opening) (hmodel : p.sm = .transitions → p.buf = "model".toList) :
    tokenOps p = [] := by
  simp only [opening, List.mem_cons, List.not_mem_nil, or_false] at hsm
  rcases hsm with h | h | h | h | h | h | h <;> simp only [tokenOps, h]
  exact if_pos (hmodel h)

theorem token_attribute (ht : token p c = .ok q) (hsm : p.sm = .stateAttribute) :
    p.buf = "init".toList := by
  by_contra hb
  unfold token at ht
  simp only [hsm, if_neg hb] at ht
  cases ht

/-- The name of a transition to describe is given back. -/
theorem describe_spends (ht : token p c = .ok q) (h : Unfilled p) (hsm : p.sm = .transitions)
    (hb : p.buf ≠ "model".toList) : ∃ m, Spends 0 (tokenOps p) m ∧
      p.keeps + m = q.keeps + (p.finished.map Transit.holds).sum := by
  obtain ⟨f, hf, hmem, rfl⟩ := token_describe ht hsm hb
  obtain ⟨t, hl⟩ := Option.isSome_iff_exists.1 (AList.lookup_isSome.2 hmem)
  have hops : tokenOps p = shareOps (some p.buf) ++ unshareOps (some p.buf) := by
    simp only [tokenOps, hsm, if_neg hb, hf, Option.bind_some, hashFind, hl]
  have hloose := loose_of_not_line h (by rw [hsm]; rfl)
  refine spends_update (k := 0) ?_ (by simp [hsm]) ?_
  · rw [hops]
    exact (shareOps_spends _).append (unshareOps_spends _)
  · rw [add_zero, Parser.keeps, Parser.keeps, hloose]
    rfl

/-- What a token takes and does not give back is held by the machines, or by the line without a name
that the token ends. -/
theorem token_spends (ht : token p c = .ok q) (h : Unfilled p) (hp : Pointing p n) :
    ∃ m, Spends 0 (tokenOps p) m ∧
      p.keeps + m = q.keeps + (p.finished.map Transit.holds).sum := by
  by_cases hdescribe : p.sm = .transitions ∧ p.buf ≠ "model".toList
  · exact describe_spends ht h hdescribe.1 hdescribe.2
  have hinit := token_attribute ht
  have hmodel : p.sm = .transitions → p.buf = "model".toList := by
    intro hsm
    by_contra hb
    exact hdescribe ⟨hsm, hb⟩
  have hstep := tokenStep_of_token ht
  clear ht hdescribe
  cases hstep
  case machine hsm =>
    have hops : tokenOps p = fsmNewOps p.buf := by simp only [tokenOps, hsm]
    refine spends_update (k := (fsmNew p.buf).holds) (hops ▸ fsmNew_spends _) (by simp [hsm]) ?_
    simp only [Parser.keeps, Parser.fsms, Parser.loose, Option.toList_some, List.map_append,
      List.map_cons, List.map_nil, List.sum_append, List.sum_cons, List.sum_nil, fsmNew_keeps]
    abel
  case enter hsm =>
    refine spends_update (k := 0) (enterOps hsm hmodel ▸ .nil) (fun heq => ?_)
      ((keeps_congr rfl rfl rfl).trans (add_zero _).symm)
    rw [heq] at hsm
    exact absurd hsm (by decide)
  case key f hsm hf hnew =>
    have hops : tokenOps p = shareOps (some p.buf) := by
      simp only [tokenOps, hsm, hf, Option.bind_some, hashFind, AList.lookup_eq_none.2 hnew,
        List.append_nil]
    exact spends_update (hops ▸ shareOps_spends _) (by simp [hsm])
      (keeps_update rfl hf rfl rfl (keeps_key hnew))
  case state f hsm hf hnew =>
    have hops : tokenOps p = stateNewOps (some p.buf) := by simp only [tokenOps, hsm]
    exact spends_update (hops ▸ stateNew_spends _) (by simp [hsm])
      (keeps_update rfl hf rfl rfl (keeps_states (sum_insert hnew)))
  case callback hsm _ =>
    have hops : tokenOps p = [] := by simp only [tokenOps, hsm]
    exact spends_update (k := 0) (hops ▸ .nil) (by simp [hsm])
      ((keeps_congr rfl rfl rfl).trans (add_zero _).symm)
  case init f s hsm hf hs hi =>
    have hops : tokenOps p = shareOps (some s) := by
      simp only [tokenOps, hsm, if_pos (hinit hsm), hf, hi, ne_eq, not_true_eq_false, if_false, hs]
    exact spends_update (hops ▸ shareOps_spends _) (by simp [hsm])
      (keeps_update rfl hf rfl rfl (keeps_init hi))
  case stateProp hb g hsm hm =>
    have hcb : p.sm.usesCb = true := by rcases hsm with ⟨hsm, -⟩ | ⟨hsm, -⟩ <;> rw [hsm] <;> rfl
    obtain ⟨f, s, hf, hs, hmem⟩ := hp.valid.state (.inr hcb)
    obtain ⟨s', exiter, hs', hptr⟩ := hp.valid.cb hcb
    obtain rfl : s' = s := Option.some.inj (hs'.symm.trans hs)
    refine spends_update (valueOps_spends ?_ hb) ?_ (modifyCallback_keeps hptr hf hmem hm ?_)
    · rcases hsm with ⟨hsm, -⟩ | ⟨hsm, -⟩ <;> simp [Sm.IsValue, hsm]
    · rcases hsm with ⟨hsm, -⟩ | ⟨hsm, -⟩ <;> simp [hsm]
    · intro cb hcb'
      rcases hsm with ⟨hsm, rfl⟩ | ⟨hsm, rfl⟩
      · rw [h.stateFunc hsm cb hcb', held_none]
        abel
      · rw [h.stateData hsm cb hcb', held_none]
        abel
  case describe hsm hb _ _ => exact absurd (hmodel hsm) hb
  case transitProp hb g hsm hm =>
    have hdescribes : p.sm.describes = true := by
      rcases hsm with ⟨hsm, -⟩ | ⟨hsm, -⟩ <;> rw [hsm] <;> rfl
    obtain ⟨f, name, hf, hptr, hmem⟩ := hp.valid.transit hdescribes
    refine spends_update (valueOps_spends ?_ hb) ?_ (modifyTransit_keeps hptr ?_ hm ?_)
    · rcases hsm with ⟨hsm, -⟩ | ⟨hsm, -⟩ <;> simp [Sm.IsValue, hsm]
    · rcases hsm with ⟨hsm, -⟩ | ⟨hsm, -⟩ <;> simp [hsm]
    · exact fun x hx => ⟨f, hf, TransitPtr.entry.inj hx ▸ hmem⟩
    · intro t htransit
      rcases hsm with ⟨hsm, rfl⟩ | ⟨hsm, rfl⟩
      · simp only [Transit.holds, h.transitFunc hsm t htransit, held_none]
        abel
      · simp only [Transit.holds, h.transitData hsm t htransit, held_none]
        abel
  case transit f hsm hb hf hnew =>
    have hops : tokenOps p = transitNewOps p.buf := by simp only [tokenOps, hsm, if_neg hb]
    have hloose := loose_of_not_line h (by rw [hsm]; rfl)
    exact spends_update (hops ▸ transitNew_spends _) (by simp [hsm])
      (keeps_update rfl hf rfl hloose.symm (keeps_transits (sum_insert hnew)))
  case origin q hsm hb hm =>
    obtain ⟨ptr, hptr, hentry⟩ := hp.valid.line (by rw [hsm]; rfl)
    have hkeeps : q.keeps = p.keeps + held (some p.buf) := by
      refine modifyTransit_keeps hptr hentry hm fun t htransit => ?_
      simp only [Transit.holds, (h.origin hsm t htransit).1, held_none]
      abel
    refine spends_update (valueOps_spends (by simp [Sm.IsValue, hsm]) hb) (by simp [hsm]) ?_
    rw [← hkeeps]
    exact keeps_congr rfl rfl rfl
  case target q hsm hb hm =>
    obtain ⟨ptr, hptr, hentry⟩ := hp.valid.line (by rw [hsm]; rfl)
    have hkeeps : q.keeps = p.keeps + held (some p.buf) := by
      refine modifyTransit_keeps hptr hentry hm fun t htransit => ?_
      simp only [Transit.holds, h.target hsm t htransit, held_none]
      abel
    refine ⟨held (some p.buf), valueOps_spends (by simp [Sm.IsValue, hsm]) hb, ?_⟩
    have hfinished : q.loose = p.finished := by
      rw [Parser.finished, if_pos hsm]
      rcases modifyTransit_ok hm with ⟨t, ht', rfl⟩ | ⟨name, f, ht', hf, rfl⟩ <;>
        simp [Parser.loose, ht']
    rw [← hkeeps, ← hfinished]
    simp [Parser.keeps, Parser.fsms, Parser.loose]

end Token

section Unfilled

variable {p q : Parser} {n : LastNamed} {c : Char}

theorem fresh_unfilled : Unfilled {} := by
  constructor <;> simp

theorem Unfilled.congr (h : Unfilled p) (hf : q.f = p.f) (ht : q.t = p.t) (hcb : q.cb = p.cb)
    (hsm : q.sm = p.sm) : Unfilled q := by
  have htransit : q.transit = p.transit := by simp only [Parser.transit, ht, hf]
  have hcallback : q.callback = p.callback := by simp only [Parser.callback, hcb, hf]
  obtain ⟨h₁, h₂, h₃, h₄, h₅, h₆, h₇⟩ := h
  constructor <;> simp only [ht, hsm, htransit, hcallback] <;> assumption

/-- The states that wait for a value. -/
def Sm.awaits (sm : Sm) : Bool :=
  sm.usesLine || sm = .stateCbFuncProp || sm = .stateCbDataProp || sm = .transitionCbFuncProp ||
    sm = .transitionCbDataProp

/-- In a state that waits for no value there is nothing to fill. -/
theorem unfilled_of_quiet (hsm : q.sm.awaits = false) (ht : ∀ t, q.t ≠ some (.loose t)) :
    Unfilled q := by
  have hnot : ∀ sm : Sm, sm.awaits = true → q.sm ≠ sm := by
    rintro _ hsm' rfl
    exact absurd (hsm.symm.trans hsm') (by decide)
  exact
    { loose := fun t h => absurd h (ht t)
      origin := fun h => absurd h (hnot _ rfl)
      target := fun h => absurd h (hnot _ rfl)
      stateFunc := fun h => absurd h (hnot _ rfl)
      stateData := fun h => absurd h (hnot _ rfl)
      transitFunc := fun h => absurd h (hnot _ rfl)
      transitData := fun h => absurd h (hnot _ rfl) }

theorem Unfilled.not_loose (h : Unfilled p) (hsm : p.sm.usesLine = false) (t : Transit) :
    p.t ≠ some (.loose t) := by
  intro ht
  exact absurd ((h.loose t ht).1.symm.trans hsm) (by decide)

/-- A block that ends leaves a line where it is, and leads to no state that waits for a value. -/
theorem parent_awaits (sm : Sm) : sm.parent = sm ∧ sm.usesLine = true ∨
    sm.parent.awaits = false ∧ sm.usesLine = false := by
  cases sm <;> decide

theorem Unfilled.leave (h : Unfilled p) (hq : p.leave = some q) : Unfilled q := by
  obtain ⟨⟨blocks, sm⟩, hl, rfl⟩ := Option.map_eq_some_iff.1 hq
  have hsm : Unfilled { p with sm := sm } := by
    refine blockLeave_induct (P := fun sm => Unfilled { p with sm := sm }) (fun sm hsm => ?_) hl h
    rcases parent_awaits sm with ⟨hstay, -⟩ | ⟨hquiet, hline⟩
    · rwa [hstay]
    · exact unfilled_of_quiet hquiet (hsm.not_loose hline)
  exact hsm.congr rfl rfl rfl rfl

/-- The end of a property leads to no state that waits for a value. -/
theorem leave_of_prop (hsm : p.sm.IsProp) (ht : ∀ t, p.t ≠ some (.loose t))
    (hq : p.leave = some q) : Unfilled q := by
  obtain ⟨⟨blocks, sm⟩, hl, rfl⟩ := Option.map_eq_some_iff.1 hq
  refine unfilled_of_quiet ?_ ht
  have hquiet : sm.awaits = false ∧ sm.usesLine = false := by
    rcases hb : p.blocks with _ | ⟨b, bs⟩
    · rw [hb] at hl
      cases hl
    rw [hb, blockLeave] at hl
    have hparent : p.sm.parent.awaits = false ∧ p.sm.parent.usesLine = false := by
      rcases hsm with h | h | h | h | h <;> rw [h] <;> decide
    split_ifs at hl
    · refine blockLeave_induct (P := fun sm => sm.awaits = false ∧ sm.usesLine = false)
        (fun sm hsm => ?_) hl hparent
      rcases parent_awaits sm with ⟨-, hline⟩ | ⟨hquiet, -⟩
      · exact absurd (hsm.2.symm.trans hline) (by decide)
      · refine ⟨hquiet, ?_⟩
        revert hquiet
        cases sm <;> decide
    · rw [← (Prod.mk.inj (Option.some.inj hl)).2]
      exact hparent
  exact hquiet.1

theorem cbToken_unset {cb : Except Fail Cb} {x y : Sm} (h : cbToken p cb x y = .ok q) :
    ∃ v, cb = .ok v ∧ (p.buf = "func".toList → v.func = none) ∧
      (p.buf ≠ "func".toList → v.data = none) := by
  unfold cbToken at h
  split_ifs at h with hf hd
  · split at h
    · cases h
    · rename_i v
      split_ifs at h with hv
      exact ⟨v, rfl, fun _ => not_not.1 hv, fun hne => absurd hf hne⟩
  · split at h
    · cases h
    · rename_i v
      split_ifs at h with hv
      exact ⟨v, rfl, fun heq => absurd heq hf, fun _ => not_not.1 hv⟩
  · cases h

/-- A word in the block of a callback leads to a value that has not been given. -/
theorem word_unfilled (ht : token p c = .ok q) (h : Unfilled p)
    (hsm : p.sm = .stateCb ∨ p.sm = .transitionCb) : Unfilled q := by
  rcases hsm with hsm | hsm
  · have hloose := h.not_loose (by rw [hsm]; rfl)
    simp only [token, hsm] at ht
    obtain ⟨v, hv, hfunc, hdata⟩ := cbToken_unset ht
    obtain rfl := cbToken_ok ht
    have hcallback : ∀ cb, p.callback = .ok cb → cb = v := fun cb hcb =>
      Except.ok.inj (hcb.symm.trans hv)
    exact
      { loose := fun t htl => absurd htl (hloose t)
        origin := fun hx => by split_ifs at hx
        target := fun hx => by split_ifs at hx
        stateFunc := fun hx cb hcb => by
          split_ifs at hx with hb
          exact hcallback cb hcb ▸ hfunc hb
        stateData := fun hx cb hcb => by
          split_ifs at hx with hb
          exact hcallback cb hcb ▸ hdata hb
        transitFunc := fun hx => by split_ifs at hx
        transitData := fun hx => by split_ifs at hx }
  · have hloose := h.not_loose (by rw [hsm]; rfl)
    simp only [token, hsm] at ht
    obtain ⟨v, hv, hfunc, hdata⟩ := cbToken_unset ht
    obtain rfl := cbToken_ok ht
    have htransit : ∀ t, p.transit = .ok t → t.cb = v := fun t htt => by
      rw [htt] at hv
      exact Except.ok.inj hv
    exact
      { loose := fun t htl => absurd htl (hloose t)
        origin := fun hx => by split_ifs at hx
        target := fun hx => by split_ifs at hx
        stateFunc := fun hx => by split_ifs at hx
        stateData := fun hx => by split_ifs at hx
        transitFunc := fun hx t htt => by
          split_ifs at hx with hb
          exact htransit t htt ▸ hfunc hb
        transitData := fun hx t htt => by
          split_ifs at hx with hb
          exact htransit t htt ▸ hdata hb }

/-- A line waits for its states. -/
theorem unfilled_of_line (hsm : q.sm.usesLine = true)
    (hloose : ∀ t, q.t = some (.loose t) → t.Nameless)
    (horigin : q.sm = .transitionFrom →
      ∀ t, q.transit = .ok t → t.fromState = none ∧ t.toState = none)
    (htarget : q.sm = .transitionTo → ∀ t, q.transit = .ok t → t.toState = none) :
    Unfilled q := by
  have hnot : ∀ sm : Sm, sm.usesLine = false → q.sm ≠ sm := by
    rintro _ hsm' rfl
    exact absurd (hsm.symm.trans hsm') (by decide)
  exact
    { loose := fun t h => ⟨hsm, hloose t h⟩
      origin := horigin
      target := htarget
      stateFunc := fun h => absurd h (hnot _ rfl)
      stateData := fun h => absurd h (hnot _ rfl)
      transitFunc := fun h => absurd h (hnot _ rfl)
      transitData := fun h => absurd h (hnot _ rfl) }

/-- A token leads to a state whose value is still to be given, unless it is the value of a property
itself. -/
theorem token_unfilled (ht : token p c = .ok q) (h : Unfilled p) (hp : Pointing p n)
    (hprop : ¬ p.sm.IsProp) : Unfilled q := by
  by_cases hword : p.sm = .stateCb ∨ p.sm = .transitionCb
  · exact word_unfilled ht h hword
  have hstep := tokenStep_of_token ht
  clear ht
  cases hstep
  case machine hsm => exact unfilled_of_quiet rfl (h.not_loose (by rw [hsm]; rfl))
  case enter hsm =>
    have hquiet : (smAfter p.sm p.buf c).awaits = false ∧ p.sm.usesLine = false := by
      simp only [opening, List.mem_cons, List.not_mem_nil, or_false] at hsm
      rcases hsm with hsm | hsm | hsm | hsm | hsm | hsm | hsm
      case inr.inr.inl => exact absurd (.inl hsm) hword
      case inr.inr.inr.inr.inr.inl => exact absurd (.inr hsm) hword
      all_goals
        simp only [hsm, smAfter]
        refine ⟨?_, rfl⟩
        try split_ifs
        all_goals rfl
    exact unfilled_of_quiet hquiet.1 (h.not_loose hquiet.2)
  case key hsm _ _ => exact absurd (by simp [Sm.IsProp, hsm]) hprop
  case state hsm _ _ =>
    refine unfilled_of_quiet ?_ (h.not_loose (by rw [hsm]; rfl))
    simp only [smAfter]
    split_ifs <;> rfl
  case callback hsm _ => exact unfilled_of_quiet rfl (h.not_loose (by rw [hsm]; rfl))
  case init hsm _ _ _ =>
    refine unfilled_of_quiet ?_ (h.not_loose (by rw [hsm]; rfl))
    simp only [smAfter]
    split_ifs <;> rfl
  case stateProp hsm _ => rcases hsm with ⟨hsm, -⟩ | ⟨hsm, -⟩ <;> simp [Sm.IsProp, hsm] at hprop
  case describe hsm _ _ _ => exact unfilled_of_quiet rfl (by simp)
  case transitProp hsm _ => rcases hsm with ⟨hsm, -⟩ | ⟨hsm, -⟩ <;> simp [Sm.IsProp, hsm] at hprop
  case transit f hsm _ hf _ =>
    refine unfilled_of_line rfl (by simp) (fun _ t htransit => ?_) (by simp)
    simp only [Parser.transit, Option.bind_some, AList.lookup_insert] at htransit
    obtain rfl := Except.ok.inj htransit
    exact ⟨rfl, rfl⟩
  case origin q hsm hb hm =>
    rcases modifyTransit_ok hm with ⟨t, hline, rfl⟩ | ⟨name, f, hname, hf, rfl⟩
    · have htransit : p.transit = .ok t := by rw [Parser.transit, hline]
      obtain ⟨-, hto⟩ := h.origin hsm t htransit
      obtain ⟨-, hnameless⟩ := h.loose t hline
      refine unfilled_of_line rfl (fun u hu => ?_) (by simp) (fun _ u hu => ?_)
      · obtain rfl := TransitPtr.loose.inj (Option.some.inj hu)
        exact ⟨hnameless.name, hnameless.cb⟩
      · obtain rfl := Except.ok.inj hu
        exact hto
    · obtain ⟨ptr, hptr, hentry⟩ := hp.valid.line (by rw [hsm]; rfl)
      obtain rfl : ptr = .entry name := Option.some.inj (hptr.symm.trans hname)
      obtain ⟨f', hf', hmem⟩ := hentry name rfl
      obtain rfl : f' = f := Option.some.inj (hf'.symm.trans hf)
      obtain ⟨t, hl⟩ := Option.isSome_iff_exists.1 (AList.lookup_isSome.2 hmem)
      have htransit : p.transit = .ok t := by
        rw [Parser.transit, hname]
        simp only [hf, Option.bind_some, hl]
      obtain ⟨-, hto⟩ := h.origin hsm t htransit
      refine unfilled_of_line rfl (by simp [hname]) (by simp) (fun _ u hu => ?_)
      have hmod : (hashModify f'.transitions name fun t => { t with fromState := some p.buf }).lookup
          name = some { t with fromState := some p.buf } := by
        rw [hashModify, hl]
        exact lookup_replace_self hmem
      simp only [Parser.transit, hname, Option.bind_some, hmod] at hu
      obtain rfl := Except.ok.inj hu
      exact hto
  case target q hsm _ hm => exact unfilled_of_quiet rfl (by simp)

end Unfilled

section Round

variable {p q : Parser} {n : LastNamed} {r r' : Cursor} {c d : Char}

/-- The same machines, pointers and state. -/
structure Beside (p q : Parser) : Prop where
  parse : q.parse = p.parse
  f : q.f = p.f
  t : q.t = p.t
  cb : q.cb = p.cb
  sm : q.sm = p.sm
  anonymous : q.anonymous = p.anonymous

theorem Beside.keeps (h : Beside p q) : q.keeps = p.keeps := keeps_congr h.parse h.f h.t

theorem Beside.unfilled (h : Beside p q) (hp : Unfilled p) : Unfilled q :=
  hp.congr h.f h.t h.cb h.sm

/-- The switch may begin a line without a name. -/
inductive LineBegun (p : Parser) (c : Char) : Parser → Prop
  | same : specialOps p c = [] → LineBegun p c p
  | line (format : String) : format = "TR_" ∨ format = "#TR_" →
      (anonymousTransit p format).sm = .transitionFrom → specialOps p c = anonymousOps p format →
      LineBegun p c (anonymousTransit p format)

/-- What the switch does, where it goes on: a value ends its block. -/
structure Prepares (p : Parser) (c : Char) (q : Parser) : Prop where
  begun : ∃ p₁, LineBegun p c p₁ ∧ Beside p₁ q
  prop : q.hasToken = true → q.sm.IsProp → q.leaveBlock = true

theorem special_prepares (hp : p.hasToken = false) (hs : (special r p c).2 = .ok (d, q)) :
    Prepares p c q := by
  have hsame : ∀ {p' : Parser}, (Except.ok (c, p') : Except Fail (Char × Parser)) = .ok (d, q) →
      specialOps p c = [] → Beside p p' →
      (p'.hasToken = true → p'.sm.IsProp → p'.leaveBlock = true) → Prepares p c q := by
    intro p' heq hops hbeside hprop
    obtain ⟨-, rfl⟩ := Prod.mk.inj (Except.ok.inj heq)
    exact ⟨⟨p, .same hops, hbeside⟩, hprop⟩
  have hquiet : ∀ {p' : Parser}, (Except.ok (c, p') : Except Fail (Char × Parser)) = .ok (d, q) →
      specialOps p c = [] → Beside p p' → p'.hasToken = p.hasToken → Prepares p c q := by
    intro p' heq hops hbeside htok
    exact hsame heq hops hbeside fun h => absurd (htok.symm.trans h) (by simp [hp])
  have henter : ∀ {abbr : Bool} {p' : Parser}, blockEnter p abbr = some p' →
      (Except.ok (c, p') : Except Fail (Char × Parser)) = .ok (d, q) → specialOps p c = [] →
      Prepares p c q := by
    intro abbr p' hp' heq hops
    obtain ⟨hb, rfl⟩ := blockEnter_some hp'
    refine hsame heq hops ⟨rfl, rfl, rfl, rfl, rfl, rfl⟩ fun _ hsm => ?_
    rcases hsm with h | h | h | h | h <;> (rw [h] at hb; cases hb)
  have hword : (wordChar p c).map (c, ·) = .ok (d, q) → specialOps p c = [] → Prepares p c q := by
    intro heq hops
    unfold wordChar at heq
    split_ifs at heq
    · simp [Except.map] at heq
    · simp [Except.map] at heq
    · exact hquiet heq hops ⟨rfl, rfl, rfl, rfl, rfl, rfl⟩ rfl
  have hline : ∀ {format : String}, format = "TR_" ∨ format = "#TR_" →
      (anonymousTransit p format).sm = .transitionFrom → specialOps p c = anonymousOps p format →
      Prepares p c { anonymousTransit p format with hasToken := true } := by
    intro format hformat hsm hops
    refine ⟨⟨_, .line format hformat hsm hops, ⟨rfl, rfl, rfl, rfl, rfl, rfl⟩⟩, fun _ h => ?_⟩
    simp only [Sm.IsProp, hsm] at h
    simp at h
  have hops : charCase c ≠ .dash → charCase c ≠ .greater → specialOps p c = [] := by
    intro h₁ h₂
    unfold specialOps
    split <;> simp_all
  unfold special at hs
  rcases hc : charCase c <;> simp only [hc] at hs
  case dash =>
    split_ifs at hs with hsm
    · simp [invalidChar, Except.map] at hs
    · split at hs
      · obtain ⟨-, rfl⟩ := Prod.mk.inj (Except.ok.inj hs)
        exact hline (.inl rfl) (not_not.1 hsm) (by rw [specialOps, hc])
      · simp at hs
  case greater =>
    split_ifs at hs with hsm
    · obtain ⟨-, rfl⟩ := Prod.mk.inj (Except.ok.inj hs)
      exact hline (.inr rfl) (not_not.1 hsm) (by rw [specialOps, hc])
  all_goals have hops := hops (by simp [hc]) (by simp [hc])
  case slash =>
    split at hs <;> simp only [Except.ok.injEq, Prod.mk.injEq, reduceCtorEq] at hs
    · exact hs.2 ▸ ⟨⟨p, .same hops, ⟨rfl, rfl, rfl, rfl, rfl, rfl⟩⟩, by simp [hp]⟩
    · exact hs.2 ▸ ⟨⟨p, .same hops, ⟨rfl, rfl, rfl, rfl, rfl, rfl⟩⟩, by simp [hp]⟩
  case dot | blockStart =>
    split at hs
    · rename_i hp'
      exact henter hp' hs hops
    · simp [invalidChar, Except.map] at hs
  case arobase =>
    split_ifs at hs with hsm
    · exact hsame hs hops ⟨rfl, rfl, rfl, rfl, rfl, rfl⟩ (by simp [Sm.IsProp, hsm])
    · simp [invalidChar, Except.map] at hs
  case colon =>
    split_ifs at hs with hcb hsm
    · split at hs
      · rename_i hp'
        exact henter hp' hs hops
      · simp [invalidChar, Except.map] at hs
    · exact hsame hs hops ⟨rfl, rfl, rfl, rfl, rfl, rfl⟩ (by simp [Sm.IsProp, hsm])
    · simp [invalidChar, Except.map] at hs
  case semicolon =>
    split_ifs at hs with hprop hend
    · exact hsame hs hops ⟨rfl, rfl, rfl, rfl, rfl, rfl⟩ fun _ _ => rfl
    · refine hsame hs hops ⟨rfl, rfl, rfl, rfl, rfl, rfl⟩ fun _ h => absurd h hprop
    · simp [invalidChar, Except.map] at hs
  case blockEnd => exact hquiet hs hops ⟨rfl, rfl, rfl, rfl, rfl, rfl⟩ rfl
  case white =>
    split_ifs at hs
    · exact hquiet hs hops ⟨rfl, rfl, rfl, rfl, rfl, rfl⟩ rfl
    · exact hquiet hs hops ⟨rfl, rfl, rfl, rfl, rfl, rfl⟩ rfl
  case digit =>
    split_ifs at hs
    exact hword hs hops
  case letter => exact hword hs hops
  case other => simp at hs

/-- A line that is begun is held. -/
theorem LineBegun.spends {p₁ : Parser} (hb : LineBegun p c p₁) (h : Unfilled p) :
    Unfilled p₁ ∧ p₁.loose.length + p.anonymous = p.loose.length + p₁.anonymous ∧
      ∃ m, Spends 0 (specialOps p c) m ∧ p₁.keeps = p.keeps + m := by
  rcases hb with hops | ⟨format, hformat, hsm, hops⟩
  · exact ⟨h, rfl, 0, hops ▸ .nil, (add_zero _).symm⟩
  rw [hops]
  unfold anonymousOps anonymousTransit
  split_ifs with hstart
  · have hloose : p.loose = [] := by rw [Parser.loose, hstart.2]
    refine ⟨unfilled_of_line rfl ?_ ?_ (by simp), ?_, _, transitNew_spends _, ?_⟩
    · intro t ht
      obtain rfl := TransitPtr.loose.inj (Option.some.inj ht)
      refine ⟨⟨p.anonymous, ?_⟩, rfl⟩
      rcases hformat with rfl | rfl
      · exact .inl rfl
      · exact .inr rfl
    · intro _ t ht
      obtain rfl := Except.ok.inj ht
      exact ⟨rfl, rfl⟩
    · rw [hloose]
      show 1 + p.anonymous = 0 + (p.anonymous + 1)
      omega
    · rw [Parser.keeps, Parser.keeps, hloose]
      simp [Parser.fsms, Parser.loose]
  · exact ⟨h, rfl, 0, .nil, (add_zero _).symm⟩

theorem beside_hand : Beside p p.hand := by
  unfold Parser.hand
  split_ifs <;> exact ⟨rfl, rfl, rfl, rfl, rfl, rfl⟩

theorem leave_keeps (h : p.leave = some q) :
    q.keeps = p.keeps ∧ q.loose = p.loose ∧ q.anonymous = p.anonymous := by
  obtain ⟨b, -, rfl⟩ := Option.map_eq_some_iff.1 h
  exact ⟨rfl, rfl, rfl⟩

theorem token_anonymous (h : TokenStep p d q) : q.anonymous = p.anonymous := by
  cases h
  case stateProp hm => obtain ⟨ptr, f, -, -, rfl⟩ := modifyCallback_ok hm; rfl
  case transitProp hm => rcases modifyTransit_ok hm with ⟨t, -, rfl⟩ | ⟨name, f, -, -, rfl⟩ <;> rfl
  case origin hm => rcases modifyTransit_ok hm with ⟨t, -, rfl⟩ | ⟨name, f, -, -, rfl⟩ <;> rfl
  case target hm => rcases modifyTransit_ok hm with ⟨t, -, rfl⟩ | ⟨name, f, -, -, rfl⟩ <;> rfl
  all_goals rfl

/-- A line stays, or the token ends it. -/
theorem token_loose (ht : token p d = .ok q) (h : Unfilled p) :
    q.loose.length + p.finished.length = p.loose.length := by
  have hquiet : p.sm ≠ .transitionTo → q.t = p.t → q.loose.length + p.finished.length =
      p.loose.length := by
    intro hsm heq
    rw [finished_nil hsm, Parser.loose, Parser.loose, heq]
    rfl
  have hnone : p.sm.usesLine = false → (∀ t, q.t ≠ some (.loose t)) →
      q.loose.length + p.finished.length = p.loose.length := by
    intro hsm hq
    have hto : p.sm ≠ .transitionTo := by
      intro heq
      rw [heq] at hsm
      cases hsm
    rw [finished_nil hto, loose_of_not_line h hsm]
    unfold Parser.loose
    split
    · exact absurd ‹_› (hq _)
    · rfl
  cases tokenStep_of_token ht
  case machine hsm => exact hquiet (by simp [hsm]) rfl
  case enter hsm =>
    refine hquiet (fun heq => ?_) rfl
    rw [heq] at hsm
    exact absurd hsm (by decide)
  case key hsm _ _ => exact hquiet (by simp [hsm]) rfl
  case state hsm _ _ => exact hquiet (by simp [hsm]) rfl
  case callback hsm _ => exact hquiet (by simp [hsm]) rfl
  case init hsm _ _ _ => exact hquiet (by simp [hsm]) rfl
  case stateProp hsm hm =>
    obtain ⟨ptr, f, -, -, rfl⟩ := modifyCallback_ok hm
    rcases hsm with ⟨hsm, -⟩ | ⟨hsm, -⟩ <;> exact hquiet (by simp [hsm]) rfl
  case describe hsm _ _ _ => exact hnone (by rw [hsm]; rfl) (by simp)
  case transitProp hsm hm =>
    have hline : p.sm.usesLine = false := by
      rcases hsm with ⟨hsm, -⟩ | ⟨hsm, -⟩ <;> rw [hsm] <;> rfl
    rcases modifyTransit_ok hm with ⟨t, ht', -⟩ | ⟨name, f, ht', -, rfl⟩
    · exact absurd ht' (h.not_loose hline t)
    · exact hnone hline (by simp [ht'])
  case transit hsm _ _ _ => exact hnone (by rw [hsm]; rfl) (by simp)
  case origin hsm _ hm =>
    rw [finished_nil (by simp [hsm])]
    rcases modifyTransit_ok hm with ⟨t, ht', rfl⟩ | ⟨name, f, ht', -, rfl⟩ <;>
      simp [Parser.loose, ht']
  case target hsm _ hm =>
    rw [Parser.finished, if_pos hsm, List.length_map]
    exact Nat.zero_add _

theorem finished_nameless (h : Unfilled p) : ∀ t ∈ p.finished, t.Nameless := by
  intro t ht
  unfold Parser.finished Parser.loose at ht
  split_ifs at ht
  · split at ht
    · rename_i u hu
      obtain rfl := by simpa using ht
      obtain ⟨-, hnameless⟩ := h.loose u hu
      exact ⟨hnameless.name, hnameless.cb⟩
    · simp at ht
  · simp at ht

/-- Some lines without a name. -/
def Lost (lost : List Transit) : Prop := ∀ t ∈ lost, t.Nameless

/-- What lines hold. -/
def holdsOf (lines : List Transit) : Multiset Res := (lines.map Transit.holds).sum

theorem clear_beside : Beside p p.clear := ⟨rfl, rfl, rfl, rfl, rfl, rfl⟩

theorem look_spends (h : Unfilled p) (hp : Pointing p n)
    (hprop : p.sm.IsProp → p.leaveBlock = true) (hq : p.look d = some q) :
    Unfilled q ∧ ∃ lost, Lost lost ∧ Spends p.keeps (tokenOps p.hand) (q.keeps + holdsOf lost) ∧
      q.loose.length + lost.length = p.loose.length ∧ q.anonymous = p.anonymous := by
  have hhand : Beside p p.hand := beside_hand
  have hloose : p.hand.loose = p.loose := by rw [Parser.loose, Parser.loose, hhand.t]
  unfold Parser.look at hq
  obtain ⟨q₁, ht, hq⟩ := Option.bind_eq_some_iff.1 hq
  have ht : token p.hand d = .ok q₁ := by
    rcases htok : token p.hand d with e | q₂ <;> simp_all [Except.toOption]
  have hstep := tokenStep_of_token ht
  obtain ⟨m, hops, hkeeps⟩ := token_spends ht (hhand.unfilled h) hp.hand
  have hcount := token_loose ht (hhand.unfilled h)
  have hleave : Unfilled q ∧ q.keeps = q₁.keeps ∧ q.loose = q₁.loose ∧
      q.anonymous = q₁.anonymous := by
    by_cases hsm : p.sm.IsProp
    · have hq₁ : q₁.leaveBlock = true := by
        rw [hstep.frame.1.leaveBlock]
        have hkept : p.hand.leaveBlock = p.leaveBlock := by unfold Parser.hand; split_ifs <;> rfl
        rw [hkept, hprop hsm]
      rw [if_pos hq₁] at hq
      have hsame : q₁.sm = p.sm := by
        rw [hstep.frame.2, hhand.sm]
        rcases hsm with hsm | hsm | hsm | hsm | hsm <;> rw [hsm] <;> rfl
      have hline : p.hand.sm.usesLine = false := by
        rw [hhand.sm]
        rcases hsm with hsm | hsm | hsm | hsm | hsm <;> rw [hsm] <;> rfl
      have hnone : q₁.loose = [] := by
        rw [loose_of_not_line (hhand.unfilled h) hline] at hcount
        exact List.length_eq_zero_iff.1 (Nat.eq_zero_of_add_eq_zero_right hcount)
      refine ⟨leave_of_prop (p := q₁.clear) (by rwa [Parser.clear, hsame]) (fun t ht => ?_) hq,
        leave_keeps (p := q₁.clear) hq⟩
      have ht : q₁.t = some (.loose t) := ht
      simp [Parser.loose, ht] at hnone
    · have hunfilled : Unfilled q₁.clear := clear_beside.unfilled
        (token_unfilled ht (hhand.unfilled h) hp.hand (by rwa [hhand.sm]))
      split_ifs at hq
      · exact ⟨hunfilled.leave hq, leave_keeps (p := q₁.clear) hq⟩
      · exact Option.some.inj hq ▸ ⟨hunfilled, rfl, rfl, rfl⟩
  obtain ⟨hunfilled, hqk, hql, hqa⟩ := hleave
  refine ⟨hunfilled, p.hand.finished, finished_nameless (hhand.unfilled h), ?_, ?_, ?_⟩
  · have hframe := hops.frame p.hand.keeps
    rw [zero_add, add_comm, hkeeps, ← hqk, hhand.keeps] at hframe
    exact hframe
  · rw [hql, hcount, hloose]
  · rw [hqa, token_anonymous hstep, hhand.anonymous]

/-- A round goes on with the comment, or with what the switch has prepared. -/
theorem round_cases (hr : parseRound r p c = .ok (r', q)) :
    (r.comments ≠ .none ∧ q = p) ∨ (r.comments = .none ∧ ∃ r₁ d p', special r p c = (r₁, .ok (d, p')) ∧
      settle p' d = .ok q) := by
  unfold parseRound at hr
  split at hr <;> rename_i hcom
  case h_1 => exact .inl ⟨by simp [hcom], (Prod.mk.inj (Except.ok.inj hr)).2.symm⟩
  case h_2 =>
    refine .inl ⟨by simp [hcom], ?_⟩
    split_ifs at hr
    · split at hr <;> exact (Prod.mk.inj (Except.ok.inj hr)).2.symm
    · exact (Prod.mk.inj (Except.ok.inj hr)).2.symm
  case h_3 =>
    rcases hs : special r p c with ⟨r₁, e | ⟨d, p'⟩⟩
    · simp [hs, Except.bind] at hr
    · simp only [hs, Except.bind] at hr
      split at hr
      · simp at hr
      · rename_i q' hq
        obtain ⟨-, rfl⟩ := Prod.mk.inj (Except.ok.inj hr)
        exact .inr ⟨hcom, r₁, d, p', rfl, hq⟩

/-- What a round takes and does not give back is held behind it, or by a line that it ends. -/
theorem round_spends (hset : p.Settled) (h : Unfilled p) (hp : Pointing p n)
    (hr : parseRound r p c = .ok (r', q)) : q.Settled ∧ Unfilled q ∧ ∃ lost, Lost lost ∧
      Spends p.keeps (roundOps r p c) (q.keeps + holdsOf lost) ∧
      q.loose.length + lost.length + p.anonymous = p.loose.length + q.anonymous := by
  rcases round_cases hr with ⟨hcom, rfl⟩ | ⟨hcom, r₁, d, p', hs, hq⟩
  · have hops : roundOps r q c = [] := by
      have hnone : tokenOf r q c = none := by
        unfold tokenOf
        split
        · exact absurd ‹_› hcom
        · rfl
      simp only [roundOps, if_neg hcom, hnone, List.append_nil]
    exact ⟨hset, h, [], by simp [Lost], by rw [hops, holdsOf]; simpa using Spends.nil, by simp⟩
  have hs' : (special r p c).2 = .ok (d, p') := by rw [hs]
  obtain ⟨⟨p₁, hbegins, hbeside⟩, hprop⟩ := special_prepares hset.hasToken hs'
  obtain ⟨h₁, hcount, m, hops, hkeeps⟩ := hbegins.spends h
  have h' : Unfilled p' := hbeside.unfilled h₁
  have hp' : Pointing p' n := special_pointing hp hs'
  have hloose : p'.loose = p₁.loose := by rw [Parser.loose, Parser.loose, hbeside.t]
  have hbegin : Spends p.keeps (specialOps p c) p'.keeps := by
    have hframe := hops.frame p.keeps
    rwa [zero_add, add_comm, ← hkeeps, ← hbeside.keeps] at hframe
  have hround : roundOps r p c =
      specialOps p c ++ if p'.hasToken then tokenOps p'.hand else [] := by
    rw [roundOps, if_pos hcom, tokenOf_of_special hcom hs]
    split_ifs <;> rfl
  rw [hround]
  refine ⟨settled_of_settle hq, ?_⟩
  rw [← hbeside.anonymous, ← hloose] at hcount
  by_cases ht : p'.hasToken = true
  · have hlook : p'.look d = some q := by
      rw [← settle_of_hasToken ht, hq]
      rfl
    obtain ⟨hunfilled, lost, hlost, hspends, hlen, hanon⟩ := look_spends h' hp' (hprop ht) hlook
    rw [if_pos ht]
    exact ⟨hunfilled, lost, hlost, hbegin.append hspends, by omega⟩
  · rw [if_neg ht, List.append_nil]
    have hleft : Unfilled q ∧ q.keeps = p'.keeps ∧ q.loose = p'.loose ∧
        q.anonymous = p'.anonymous := by
      rcases settle_without (by simpa using ht) hq with rfl | hleave
      · exact ⟨h', rfl, rfl, rfl⟩
      · exact ⟨h'.leave hleave, leave_keeps hleave⟩
    obtain ⟨hunfilled, hqk, hql, hqa⟩ := hleft
    refine ⟨hunfilled, [], by simp [Lost], ?_, ?_⟩
    · rw [hqk, holdsOf, List.map_nil, List.sum_nil, add_zero]
      exact hbegin
    · rw [hql, hqa, List.length_nil]
      omega

theorem lost_loose (h : Unfilled p) : Lost p.loose := by
  intro t ht
  unfold Parser.loose at ht
  split at ht
  · rename_i u hu
    obtain rfl := List.mem_singleton.1 ht
    exact (h.loose t hu).2
  · cases ht

theorem keeps_eq : p.keeps = (p.fsms.map Fsm.keeps).sum + holdsOf p.loose := rfl

/-- What a token that fails may have taken: one string, or one object that it has made. -/
def Loss (last : Multiset Res) : Prop :=
  last = 0 ∨ ∃ s, last = held (some s) ∨ last = (stateNew s).holds ∨ last = (transitNew s).holds

theorem tokenOps_loss (hsm : p.sm ≠ .none) : ∃ last, Spends 0 (tokenOps p) last ∧ Loss last := by
  have hzero : Spends (0 : Multiset Res) [] 0 ∧ Loss 0 := ⟨.nil, .inl rfl⟩
  have hshare : ∀ s, ∃ last, Spends 0 (shareOps s) last ∧ Loss last := by
    intro s
    refine ⟨_, shareOps_spends s, ?_⟩
    cases s with
    | none => exact .inl rfl
    | some s => exact .inr ⟨s, .inl rfl⟩
  have hkept : ∀ {s : Stringshare}, ∃ last, Spends 0 (shareOps (some s) ++ []) last ∧ Loss last := by
    intro s
    rw [List.append_nil]
    exact hshare (some s)
  have hback : ∀ {s : Stringshare}, ∃ last,
      Spends 0 (shareOps (some s) ++ unshareOps (some s)) last ∧ Loss last := fun {s} =>
    ⟨0, (shareOps_spends _).append (unshareOps_spends _), .inl rfl⟩
  unfold tokenOps
  rcases hs : p.sm <;> simp only
  case none => exact absurd hs hsm
  case dataGlobalProp =>
    split
    · exact hback
    · exact hkept
  case states => exact ⟨_, stateNew_spends _, .inr ⟨p.buf, .inr (.inl rfl)⟩⟩
  case stateAttribute =>
    split_ifs
    · rcases p.f with _ | f
      · exact ⟨0, hzero⟩
      · simp only
        split_ifs
        · exact ⟨0, hzero⟩
        · exact hshare p.s
    · exact ⟨0, hzero⟩
  case transitions =>
    split_ifs
    · exact ⟨0, hzero⟩
    · split
      · exact hkept
      · exact hback
  case transitionStart =>
    split_ifs
    · exact ⟨0, hzero⟩
    · exact ⟨_, transitNew_spends _, .inr ⟨p.buf, .inr (.inr rfl)⟩⟩
  case stateCbFuncProp | stateCbDataProp | transitionCbFuncProp | transitionCbDataProp |
      transitionFrom | transitionTo =>
    split_ifs
    · exact ⟨0, hzero⟩
    · exact hshare (some p.buf)
  all_goals exact ⟨0, hzero⟩

/-- What is held and lost when the switch refuses a character. -/
theorem special_loses (h : Unfilled p) : ∃ lost, Lost lost ∧
    Spends p.keeps (specialOps p c) ((p.fsms.map Fsm.keeps).sum + holdsOf lost) := by
  have hstay : Spends p.keeps [] ((p.fsms.map Fsm.keeps).sum + holdsOf p.loose) := .nil
  have hline : ∀ {format : String}, format = "TR_" ∨ format = "#TR_" → ∃ lost, Lost lost ∧
      Spends p.keeps (anonymousOps p format) ((p.fsms.map Fsm.keeps).sum + holdsOf lost) := by
    intro format hformat
    unfold anonymousOps
    split_ifs with hstart
    · have hloose : p.loose = [] := by rw [Parser.loose, hstart.2]
      refine ⟨[transitNew (format.toList ++ fmtNat p.anonymous)], ?_, ?_⟩
      · intro t ht
        obtain rfl := List.mem_singleton.1 ht
        refine ⟨⟨p.anonymous, ?_⟩, rfl⟩
        rcases hformat with rfl | rfl
        · exact .inl rfl
        · exact .inr rfl
      · have hkeeps : p.keeps = (p.fsms.map Fsm.keeps).sum := by
          simp [keeps_eq, hloose, holdsOf]
        have hframe := (transitNew_spends (format.toList ++ fmtNat p.anonymous)).frame p.keeps
        rw [zero_add, add_comm] at hframe
        simpa [holdsOf, ← hkeeps] using hframe
    · exact ⟨_, lost_loose h, hstay⟩
  unfold specialOps
  split
  · exact hline (.inl rfl)
  · exact hline (.inr rfl)
  · exact ⟨_, lost_loose h, hstay⟩

theorem token_lost (ht : token p d = .ok q) (h : Unfilled p) (hp : Pointing p n) :
    Lost q.loose := by
  by_cases hsm : p.sm.IsProp
  · have hline : p.sm.usesLine = false := by
      rcases hsm with hsm | hsm | hsm | hsm | hsm <;> rw [hsm] <;> rfl
    have hcount := token_loose ht h
    rw [loose_of_not_line h hline] at hcount
    have hnone : q.loose = [] :=
      List.length_eq_zero_iff.1 (Nat.eq_zero_of_add_eq_zero_right hcount)
    simp [Lost, hnone]
  · exact lost_loose (token_unfilled ht h hp hsm)

/-- What is held and lost behind a round that fails. -/
theorem round_loses {e : ParseError} (hset : p.Settled) (h : Unfilled p) (hp : Pointing p n)
    (hr : parseRound r p c = .error e) : ∃ lost last, Lost lost ∧ Loss last ∧
      Spends p.keeps (roundOps r p c)
        (((leftFsms r p c).map Fsm.keeps).sum + holdsOf lost + last) := by
  have hcom : r.comments = .none := by
    unfold parseRound at hr
    split at hr <;> rename_i hcom
    · cases hr
    · split_ifs at hr
      split at hr <;> cases hr
    · exact hcom
  rcases hs : special r p c with ⟨r₁, e' | ⟨d, p'⟩⟩
  · have hnone : tokenOf r p c = none := by simp only [tokenOf, hcom, hs]
    obtain ⟨lost, hlost, hspends⟩ := special_loses (c := c) h
    refine ⟨lost, 0, hlost, .inl rfl, ?_⟩
    simpa only [roundOps, leftFsms, hnone, if_pos hcom, List.append_nil, add_zero] using hspends
  have hs' : (special r p c).2 = .ok (d, p') := by rw [hs]
  have hsettle : ∃ e', settle p' d = .error e' := by
    rcases hq : settle p' d with e' | q
    · exact ⟨e', rfl⟩
    · simp only [parseRound, hcom, hs, Except.bind, hq] at hr
      cases hr
  obtain ⟨e', hsettle⟩ := hsettle
  obtain ⟨⟨p₁, hbegins, hbeside⟩, -⟩ := special_prepares hset.hasToken hs'
  obtain ⟨h₁, -, m, hops, hkeeps⟩ := hbegins.spends h
  have h' : Unfilled p' := hbeside.unfilled h₁
  have hp' : Pointing p' n := special_pointing hp hs'
  have hbegin : Spends p.keeps (specialOps p c) p'.keeps := by
    have hframe := hops.frame p.keeps
    rwa [zero_add, add_comm, ← hkeeps, ← hbeside.keeps] at hframe
  have hfsms : p'.fsms = p.fsms := by
    have hsame : p₁.fsms = p.fsms := by
      rcases hbegins with _ | ⟨format, -, -, -⟩
      · rfl
      · unfold anonymousTransit
        split_ifs <;> rfl
    rw [Parser.fsms, hbeside.parse, hbeside.f]
    exact hsame
  by_cases ht : p'.hasToken = true
  · have htok : tokenOf r p c = some (p'.hand, d) := by rw [tokenOf_of_special hcom hs, if_pos ht]
    have hhand : Beside p' p'.hand := beside_hand
    have hunfilled : Unfilled p'.hand := hhand.unfilled h'
    simp only [roundOps, leftFsms, htok, if_pos hcom]
    rcases hq : token p'.hand d with e'' | q
    · have hsm : p'.hand.sm ≠ .none := by
        intro hsm
        simp [token, hsm] at hq
      obtain ⟨last, htaken, hlast⟩ := tokenOps_loss hsm
      refine ⟨p'.hand.loose, last, lost_loose hunfilled, hlast, hbegin.append ?_⟩
      show Spends p'.keeps _ ((p'.hand.fsms.map Fsm.keeps).sum + holdsOf p'.hand.loose + last)
      have hframe := htaken.frame p'.keeps
      rw [zero_add, add_comm] at hframe
      rwa [← keeps_eq, hhand.keeps]
    · obtain ⟨m', htaken, hkept⟩ := token_spends hq hunfilled hp'.hand
      refine ⟨p'.hand.finished ++ q.loose, 0, ?_, .inl rfl, hbegin.append ?_⟩
      · intro t ht'
        rcases List.mem_append.1 ht' with ht' | ht'
        · exact finished_nameless hunfilled t ht'
        · exact token_lost hq hunfilled hp'.hand t ht'
      · show Spends p'.keeps _
          ((q.fsms.map Fsm.keeps).sum + holdsOf (p'.hand.finished ++ q.loose) + 0)
        have hframe := htaken.frame p'.keeps
        have heq : (q.fsms.map Fsm.keeps).sum + holdsOf (p'.hand.finished ++ q.loose) + 0 =
            p'.keeps + m' := by
          rw [← hhand.keeps, hkept, keeps_eq, holdsOf, holdsOf, List.map_append, List.sum_append]
          abel
        rwa [zero_add, add_comm, ← heq] at hframe
  · have hnone : tokenOf r p c = none := by rw [tokenOf_of_special hcom hs, if_neg ht]
    refine ⟨p'.loose, 0, lost_loose h', .inl rfl, ?_⟩
    simp only [roundOps, leftFsms, hnone, if_pos hcom, List.append_nil, add_zero, ← hfsms]
    exact hbegin

end Round

section Loop

variable {p : Parser} {n : LastNamed} {r : Cursor}

/-- What the loop takes and does not give back is held by the machines, but for the lines without a
name and for what its last token has made, if it fails. -/
theorem loop_spends : ∀ {fuel : ℕ} {r : Cursor} {p : Parser} {n : LastNamed}, p.Settled →
    Unfilled p → Pointing p n → ∃ lost last, Lost lost ∧ Loss last ∧
      Spends p.keeps (parseLoopOps fuel r p).1
        (((parseLoopOps fuel r p).2.map Fsm.keeps).sum + holdsOf lost + last) ∧
      ∀ r' q, parseLoop fuel r p = .ok (r', q) → (parseLoopOps fuel r p).2 = q.fsms ∧ last = 0 ∧
        lost.length + p.anonymous = p.loose.length + q.anonymous := by
  have hstop : ∀ {p : Parser}, Unfilled p → ∃ lost last, Lost lost ∧ Loss last ∧
      Spends p.keeps [] ((p.fsms.map Fsm.keeps).sum + holdsOf lost + last) ∧
      ∀ q, p = q → p.fsms = q.fsms ∧ last = 0 ∧
        lost.length + p.anonymous = p.loose.length + q.anonymous := by
    intro p h
    refine ⟨p.loose, 0, lost_loose h, .inl rfl, ?_, ?_⟩
    · rw [add_zero]
      exact Spends.nil
    · rintro q rfl
      exact ⟨rfl, rfl, rfl⟩
  intro fuel
  induction fuel with
  | zero =>
    intro r p n _ h _
    obtain ⟨lost, last, hlost, hlast, hspends, hend⟩ := hstop h
    exact ⟨lost, last, hlost, hlast, hspends, fun r' q hq =>
      hend q (Prod.mk.inj (Except.ok.inj hq)).2⟩
  | succ fuel ih =>
    intro r p n hset h hp
    rcases hg : charNextGet r with ⟨_ | c, r₁⟩
    · obtain ⟨lost, last, hlost, hlast, hspends, hend⟩ := hstop h
      simp only [parseLoopOps, parseLoop, hg]
      exact ⟨lost, last, hlost, hlast, hspends, fun r' q hq =>
        hend q (Prod.mk.inj (Except.ok.inj hq)).2⟩
    · rcases hround : parseRound r₁ p c with e | ⟨r₂, q⟩
      · obtain ⟨lost, last, hlost, hlast, hspends⟩ := round_loses hset h hp hround
        simp only [parseLoopOps, parseLoop, hg, hround]
        exact ⟨lost, last, hlost, hlast, hspends, fun r' q hq => by cases hq⟩
      · obtain ⟨hset', h', lost, hlost, hspends, hcount⟩ := round_spends hset h hp hround
        obtain ⟨lost', last, hlost', hlast, hspends', hend⟩ :=
          ih (r := r₂) hset' h' (round_pointing hp hround)
        simp only [parseLoopOps, parseLoop, hg, hround]
        refine ⟨lost ++ lost', last, ?_, hlast, hspends.append ?_, fun r' q' hq => ?_⟩
        · intro t ht
          rcases List.mem_append.1 ht with ht | ht
          · exact hlost t ht
          · exact hlost' t ht
        · have hframe := hspends'.frame (holdsOf lost)
          have heq : ((parseLoopOps fuel r₂ q).2.map Fsm.keeps).sum + holdsOf (lost ++ lost') + last =
              ((parseLoopOps fuel r₂ q).2.map Fsm.keeps).sum + holdsOf lost' + last +
                holdsOf lost := by
            simp only [holdsOf, List.map_append, List.sum_append]
            abel
          rwa [← heq] at hframe
        · obtain ⟨hfsms, hzero, hcount'⟩ := hend r' q' hq
          refine ⟨hfsms, hzero, ?_⟩
          rw [List.length_append]
          omega

/-- What a parser takes for a file. -/
theorem parse_spends (src : List Char) : ∃ lost last, Lost lost ∧ Loss last ∧
    Spends 0 (parserParseOps src).1
      (((parserParseOps src).2.map Fsm.keeps).sum + holdsOf lost + last) ∧
    ∀ r p, parseRun src = .ok (r, p) →
      (parserParseOps src).2 = p.fsms ∧ last = 0 ∧ lost.length = p.anonymous := by
  obtain ⟨lost, last, hlost, hlast, hspends, hend⟩ := @loop_spends (src.length + 1)
    { ptr := src } {} {} fresh_settled fresh_unfilled fresh_pointing
  refine ⟨lost, last, hlost, hlast, hspends, fun r p h => ?_⟩
  obtain ⟨hfsms, hzero, hcount⟩ := hend r p h
  exact ⟨hfsms, hzero, by simpa [Parser.loose] using hcount⟩

end Loop

end Estate.Cc
