import Estate.Proofs.Syntax

/-!
# Parsing undoes printing

A machine is built block by block (`Fsm.Holds`), and a file machine by machine, so the text of a
list of descriptions is parsed into the machines they describe (`parserParse_renders`).
-/

namespace Estate.Cc

open Lib

/-! ## Blocks of the syntax -/

section Names

variable {α β : Type} {name : α → Stringshare} {l done : List α} {a : α} {h : EinaHash β}
  {val : α → β}

theorem named_append {n : Stringshare} :
    named name (l ++ [a]) n = (named name l n).or (if name a = n then some a else none) := by
  unfold named
  rw [List.find?_append]
  by_cases ha : name a = n <;> simp [ha]

theorem named_eq_none {n : Stringshare} (hn : n ∉ l.map name) : named name l n = none := by
  unfold named
  rw [List.find?_eq_none]
  intro b hb
  simpa using fun he => hn (List.mem_map.2 ⟨b, hb, he⟩)

theorem named_some {n : Stringshare} (ha : named name l n = some a) : a ∈ l ∧ name a = n := by
  unfold named at ha
  exact ⟨List.mem_of_find?_eq_some ha, by simpa using List.find?_some ha⟩

theorem named_mem (hl : (l.map name).Nodup) (ha : a ∈ l) : named name l (name a) = some a := by
  rcases hn : named name l (name a) with _ | b
  · unfold named at hn
    rw [List.find?_eq_none] at hn
    simpa using hn a ha
  · obtain ⟨hb, he⟩ := named_some hn
    rw [List.inj_on_of_nodup_map hl hb ha he]

/-- A name that no item before has. -/
theorem name_new {κ : Type} {key : α → κ} (hl : (l.map key).Nodup) (hp : done ++ [a] <+: l) :
    key a ∉ done.map key := by
  obtain ⟨rest, rfl⟩ := hp
  simp only [List.map_append, List.map_cons, List.map_nil, List.append_assoc] at hl
  intro hmem
  exact (List.nodup_append.1 hl).2.2 _ hmem _ (by simp) rfl

theorem lookup_insert_named (hl : ∀ n, h.lookup n = (named name done n).map val)
    (hnew : name a ∉ done.map name) (n : Stringshare) :
    (h.insert (name a) (val a)).lookup n = (named name (done ++ [a]) n).map val := by
  rw [named_append]
  by_cases hn : n = name a
  · subst hn
    rw [AList.lookup_insert, named_eq_none hnew, if_pos rfl]
    rfl
  · rw [AList.lookup_insert_ne hn, hl, if_neg (Ne.symm hn), Option.or_none]

theorem notMem_of_lookup (hl : ∀ n, h.lookup n = (named name done n).map val)
    (hnew : name a ∉ done.map name) : name a ∉ h := by
  rw [← AList.lookup_eq_none, hl, named_eq_none hnew]
  rfl

end Names

section Blocks

variable {g : List Fsm} {n : ℕ} {sm : Sm} {F F' : Fsm → Prop}

/-- Between two items, in a machine with `F`. -/
def Made (g : List Fsm) (sm : Sm) (n : ℕ) (F : Fsm → Prop) (p : Parser) : Prop :=
  ∃ f, F f ∧ p.At g f sm n

theorem made {l : List Item} {sm' : Sm}
    (h : ∀ f, F f → Triple Item.step (Parser.At g f sm n) l (Made g sm' n F')) :
    Triple Item.step (Made g sm n F) l (Made g sm' n F') := by
  rintro p ⟨f, hf, hp⟩
  exact h f hf p hp

/-- A token that only names the block it opens. -/
def Opens (sm sm' : Sm) (w : List Char) : Prop :=
  ∀ p : Parser, p.sm = sm → p.buf = w → token p '\x7b' = .ok { p with sm := sm' }

theorem made_block {sm' : Sm} {w : List Char} {body : List Item} (hw : Identifier w)
    (hb : smBlockIs sm = true) (hopens : Opens sm sm' w) (hparent : sm'.parent = sm)
    (hbody : Triple Item.step (Made g sm' (n + 1) F) body (Made g sm' (n + 1) F')) :
    Triple Item.step (Made g sm n F) (block w body) (Made g sm n F') := by
  have hopen : Triple Item.step (Made g sm n F) [.token w .blockStart] (Made g sm' (n + 1) F) := by
    refine .one fun p ⟨f, hf, hp⟩ => ?_
    have ht := hopens (p.shown w (false :: p.blocks) false) hp.sm rfl
    obtain ⟨hstep, hat⟩ := step_opens hp hw (.inl ⟨rfl, hb⟩) ht rfl hp.f rfl
    exact ⟨_, hstep, f, hf, hat⟩
  have hclose : Triple Item.step (Made g sm' (n + 1) F') [.blockEnd] (Made g sm n F') := by
    refine .one fun p ⟨f, hf, hp⟩ => ?_
    obtain ⟨q, hq, hat, -⟩ := step_closes hp
    exact ⟨q, hq, f, hf, hparent ▸ hat⟩
  exact hopen.cons (hbody.append hclose)

/-- What a machine holds when so much of its description has been read. -/
structure Fsm.Holds (name : Stringshare) (keys : List Stringshare)
    (transits : Stringshare → Option Transit) (states : List StateDescr)
    (init : Option Stringshare) (f : Fsm) : Prop where
  name : f.name = name
  dataKeys : ∀ n, f.dataKeys.lookup n = (named id keys n).map id
  transitions : ∀ n, f.transitions.lookup n = transits n
  states : ∀ n, f.states.lookup n = (named StateDescr.name states n).map StateDescr.state
  init : f.init = init

variable {name : Stringshare} {keys : List Stringshare} {transits : Stringshare → Option Transit}
  {states : List StateDescr} {init : Option Stringshare} {items : List Item}

theorem dataBlock (hk : ∀ k ∈ keys, Identifier k) (hnodup : keys.Nodup)
    (h : DataBlock keys items) : Triple Item.step
      (Made g .fsm n (Fsm.Holds name [] transits states init)) items
      (Made g .fsm n (Fsm.Holds name keys transits states init)) := by
  rcases h with _ | _
  case omitted => exact .nil
  have hopens : Opens .fsm .data "data".toList := by
    intro p hsm hbuf
    unfold token
    simp only [hsm, hbuf, if_true]
  refine made_block (by decide) rfl hopens rfl ?_
  refine Triple.flatten (r := fun k l => l = property "global".toList k)
    (I := fun done => Made g .data (n + 1) (Fsm.Holds name done transits states init)) ?_
    (List.nil_append keys) ?_
  · rintro done k _ hp rfl
    have hnew : id k ∉ done.map id := name_new (by simpa using hnodup) hp
    have hmem : k ∈ keys := hp.subset (by simp)
    refine made fun f hf => ?_
    have hfresh : k ∉ f.dataKeys := notMem_of_lookup hf.dataKeys hnew
    refine (data_property (hk k hmem) hfresh).weaken (fun _ hp => hp) fun p hp => ⟨_, ?_, hp⟩
    exact ⟨hf.name, lookup_insert_named hf.dataKeys hnew, hf.transitions, hf.states, hf.init⟩
  · rw [List.forall₂_map_right_iff]
    exact List.forall₂_same.2 fun k _ => rfl

/-- The transitions of a model when some have been described. -/
def described (ts done : List TransitDescr) (k : Stringshare) : Option Transit :=
  (named TransitDescr.name ts k).map fun t => if t ∈ done then t.transit else t.bare

theorem described_one {ts done : List TransitDescr} {t : TransitDescr}
    (hnodup : (ts.map TransitDescr.name).Nodup) (ht : t ∈ ts) (k : Stringshare) :
    (if k = t.name then (described ts done k).map fun x => { x with cb := t.cb }
      else described ts done k) = described ts (done ++ [t]) k := by
  unfold described
  split_ifs with hk
  · subst hk
    rw [named_mem hnodup ht]
    by_cases hd : t ∈ done <;> simp [hd, TransitDescr.transit]
  · rcases hx : named TransitDescr.name ts k with _ | x
    · rfl
    · have hne : x ≠ t := by
        rintro rfl
        exact hk (named_some hx).2.symm
      simp [hne]

theorem described_all {ts done : List TransitDescr}
    (hall : ∀ t ∈ ts, t.cb ≠ {} → t ∈ done) (k : Stringshare) :
    described ts done k = (named TransitDescr.name ts k).map TransitDescr.transit := by
  unfold described
  rcases hx : named TransitDescr.name ts k with _ | x
  · rfl
  · by_cases hd : x ∈ done
    · simp [hd]
    · have hcb : x.cb = {} := by
        by_contra hne
        exact hd (hall x (named_some hx).1 hne)
      simp [hd, TransitDescr.transit, hcb, TransitDescr.bare]

theorem transitionsBlock {ts : List TransitDescr} (hv : ∀ t ∈ ts, t.Valid)
    (hnodup : (ts.map TransitDescr.name).Nodup) (h : TransitionsBlock ts items) :
    Triple Item.step
      (Made g .fsm n (Fsm.Holds name keys (fun _ => none) states init)) items
      (Made g .fsm n (Fsm.Holds name keys
        (fun k => (named TransitDescr.name ts k).map TransitDescr.transit) states init)) := by
  rcases h with ⟨hlines, hdnodup, hsub, hall, hmodel, hdescrs⟩ | _
  case omitted => exact .nil
  rename_i ds lines descrs
  have hopens : Opens .fsm .transitions "transitions".toList := by
    intro p hsm hbuf
    have hne : ¬ "transitions".toList = "data".toList := by decide
    unfold token
    simp only [hsm, hbuf, if_neg hne, if_true]
  have hmodelOpens : Opens .transitions .transitionStart "model".toList := by
    intro p hsm hbuf
    unfold token
    simp only [hsm, hbuf, if_true]
  refine made_block (by decide) rfl hopens rfl (.append ?_ (Q := Made g .transitions (n + 1)
    (Fsm.Holds name keys (described ts []) states init)) ?_)
  · refine made_block (by decide) rfl hmodelOpens rfl ?_
    refine (Triple.flatten (I := fun done => Made g .transitionStart (n + 2) (Fsm.Holds name keys
      (fun k => (named TransitDescr.name done k).map TransitDescr.bare) states init)) ?_
      (List.nil_append ts) hlines).weaken (fun _ hp => hp) fun p ⟨f, hf, hp⟩ => ⟨f, ?_, hp⟩
    · intro done t l hp hl
      have hnew := name_new hnodup hp
      refine made fun f hf => ?_
      refine (line (hv t (hp.subset (by simp))) (notMem_of_lookup hf.transitions hnew) hl).weaken
        (fun _ hp => hp) fun p hp => ⟨_, ?_, hp⟩
      exact ⟨hf.name, hf.dataKeys, lookup_insert_named hf.transitions hnew, hf.states, hf.init⟩
    · exact ⟨hf.name, hf.dataKeys, fun k => by simp [hf.transitions, described], hf.states, hf.init⟩
  · refine (Triple.flatten (I := fun done => Made g .transitions (n + 1)
      (Fsm.Holds name keys (described ts done) states init)) ?_ (List.nil_append ds)
      hdescrs).weaken (fun _ hp => hp) fun p ⟨f, hf, hp⟩ => ⟨f, ?_, hp⟩
    · intro done t l hp hl
      have htd : t ∈ ds := hp.subset (by simp)
      have hmem : t ∈ ts := hsub htd
      have hfresh : t ∉ done := by
        simpa using @name_new _ ds done t _ id (by simpa using hdnodup) hp
      have hne : t.name ≠ "model".toList := by
        by_cases hcb : t.cb = {}
        · exact hmodel t htd hcb
        · exact (hv t hmem).model hcb
      refine made fun f hf => ?_
      have hlookup : f.transitions.lookup t.name = some t.bare := by
        rw [hf.transitions, described, named_mem hnodup hmem]
        simp [hfresh]
      refine (description (hv t hmem) hlookup hne hl).weaken (fun _ hp => hp) fun p hp => ⟨_, ?_, hp⟩
      refine ⟨hf.name, hf.dataKeys, fun k => ?_, hf.states, hf.init⟩
      rw [lookup_hashModify, hf.transitions, described_one hnodup hmem]
    · refine ⟨hf.name, hf.dataKeys, fun k => ?_, hf.states, hf.init⟩
      rw [hf.transitions, described_all hall]

theorem statesBlock (hv : ∀ s ∈ states, s.Valid) (hnodup : (states.map StateDescr.name).Nodup)
    (hinit : ∀ i ∈ init, i ∈ states.map StateDescr.name) (h : StatesBlock init states items) :
    Triple Item.step (Made g .fsm n (Fsm.Holds name keys transits [] none)) items
      (Made g .fsm n (Fsm.Holds name keys transits states init)) := by
  rcases h with ⟨hblocks⟩ | _
  case omitted =>
    rcases init with _ | i
    · exact .nil
    · simpa using hinit i rfl
  have hopens : Opens .fsm .states "states".toList := by
    intro p hsm hbuf
    have hne : ¬ "states".toList = "data".toList := by decide
    have hne' : ¬ "states".toList = "transitions".toList := by decide
    unfold token
    simp only [hsm, hbuf, if_neg hne, if_neg hne', if_true]
  refine made_block (by decide) rfl hopens rfl ?_
  refine (Triple.flatten (I := fun done => Made g .states (n + 1) (Fsm.Holds name keys transits done
    (init.filter fun i => i ∈ done.map StateDescr.name))) ?_ (List.nil_append states)
    hblocks).weaken (fun p ⟨f, hf, hp⟩ => ⟨f, ?_, hp⟩) fun p ⟨f, hf, hp⟩ => ⟨f, ?_, hp⟩
  · intro done s l hp hl
    have hnew := name_new hnodup hp
    refine made fun f hf => ?_
    have hfirst : init = some s.name → f.init = none := by
      rintro rfl
      rw [hf.init]
      simpa using hnew
    refine (stateBlock (hv s (hp.subset (by simp))) (notMem_of_lookup hf.states hnew) hfirst
      hl).weaken (fun _ hp => hp) fun p hp => ⟨_, ?_, hp⟩
    refine ⟨hf.name, hf.dataKeys, hf.transitions, lookup_insert_named hf.states hnew, ?_⟩
    rcases init with _ | i
    · simp [hf.init]
    · by_cases hi : i = s.name <;> simp [hf.init, hi, Option.filter]
  · exact ⟨hf.name, hf.dataKeys, hf.transitions, hf.states, by simp [hf.init]⟩
  · refine ⟨hf.name, hf.dataKeys, hf.transitions, hf.states, hf.init.trans ?_⟩
    rcases init with _ | i
    · rfl
    · exact Option.filter_some_pos (by simpa using hinit i rfl)

end Blocks

/-! ## Files -/

section Files

variable {p : Parser} {g : List Fsm} {d : Descr} {items : List Item} {src : List Char}

/-- Between two machines. -/
structure Parser.Top (g : List Fsm) (p : Parser) : Prop extends p.Ready where
  fsms : p.fsms = g
  sm : p.sm = .none
  blocks : p.blocks = []

theorem fresh_top : Parser.Top [] {} where
  hasToken := rfl
  leaveBlock := rfl
  buf := rfl
  stopWord := rfl
  fsms := rfl
  sm := rfl
  blocks := rfl

theorem machine_opens {name : Stringshare} (hw : Identifier name) : Triple Item.step
    (Parser.Top g) [.token name .blockStart]
    (Made g .fsm 1 (Fsm.Holds name [] (fun _ => none) [] none)) := by
  refine .one fun p h => ?_
  have ht : token (p.shown name (false :: p.blocks) false) '\x7b' =
      .ok { p.shown name (false :: p.blocks) false with
        parse := p.parse ++ p.f.toList, f := some (fsmNew name), sm := .fsm } := by
    unfold token
    simp only [Parser.shown, h.sm]
  have hprep : Mark.blockStart.prepare { p with buf := name } = some
      { p with buf := name, blocks := false :: p.blocks, hasToken := true, leaveBlock := false } := by
    simp [Mark.prepare, blockEnter, h.sm, smBlockIs, h.leaveBlock]
  refine ⟨_, step_shown hw hprep ht, fsmNew name, ?_, at_clear rfl h.fsms rfl rfl ?_⟩
  · exact ⟨rfl, fun _ => rfl, fun _ => rfl, fun _ => rfl, rfl⟩
  · exact congrArg (false :: ·) h.blocks

theorem machine_closes {F : Fsm → Prop} : Triple Item.step (Made g .fsm 1 F) [.blockEnd]
    (fun p => ∃ f, F f ∧ p.Top (g ++ [f])) := by
  refine .one fun p ⟨f, hf, hp⟩ => ?_
  obtain ⟨q, hq, hat, -⟩ := step_closes hp
  refine ⟨q, hq, f, hf, hat.toReady, ?_, hat.sm, hat.blocks⟩
  rw [Parser.fsms, hat.parse, hat.f]
  rfl

/-- The block of a machine adds the machine that it describes. -/
theorem machineBlock (hv : d.Valid) (h : MachineBlock d items) : Triple Item.step
    (Parser.Top g) items (fun p => ∃ f, d.Describes f ∧ p.Top (g ++ [f])) := by
  obtain ⟨hdata, htransitions, hstates⟩ := h
  refine (machine_opens hv.name).cons (.append (Q := Made g .fsm 1 (Fsm.Holds d.name d.dataKeys
    (fun k => (named TransitDescr.name d.transits k).map TransitDescr.transit) d.states d.init))
    ?_ (machine_closes.weaken (fun _ hp => hp) ?_))
  · exact (dataBlock hv.dataKeys hv.dataKeys_nodup hdata).append
      ((transitionsBlock hv.transits hv.transits_nodup htransitions).append
        (statesBlock hv.states hv.states_nodup hv.init hstates))
  · rintro p ⟨f, hf, hp⟩
    exact ⟨f, ⟨hf.name, by simpa using hf.dataKeys, hf.transitions, hf.states, hf.init⟩, hp⟩

/-- A text in which the blocks of machines stand is parsed into these machines. -/
theorem parserParse_layout {ds : List Descr} {machines : List (List Item)}
    (hv : ∀ d ∈ ds, d.Valid) (hmachines : List.Forall₂ MachineBlock ds machines)
    (hlayout : Layout machines.flatten src) :
    List.Forall₂ Descr.Describes ds (parserParse src) := by
  have hrun : Triple Item.step (fun p => ∃ g, List.Forall₂ Descr.Describes [] g ∧ p.Top g)
      machines.flatten (fun p => ∃ g, List.Forall₂ Descr.Describes ds g ∧ p.Top g) := by
    refine Triple.flatten
      (I := fun done p => ∃ g, List.Forall₂ Descr.Describes done g ∧ Parser.Top g p) ?_
      (List.nil_append ds) hmachines
    intro done d l hp hl
    refine Triple.exists_pre fun g => ?_
    rintro p ⟨hg, htop⟩
    obtain ⟨q, hq, f, hf, htop'⟩ := machineBlock (hv d (hp.subset (by simp))) hl p htop
    exact ⟨q, hq, g ++ [f], List.rel_append hg (.cons hf .nil), htop'⟩
  obtain ⟨q, hq, g, hg, htop⟩ := hrun {} ⟨[], .nil, fresh_top⟩
  have hread : (reading src).lexemes.foldlM Lexeme.step {} = some q :=
    read_layout hlayout fresh_top.toReady hq
  rw [parserParse_eq, hread]
  show List.Forall₂ Descr.Describes ds q.fsms
  rw [htop.fsms]
  exact hg

/-- A text that describes machines is parsed into exactly these, in their order. -/
theorem parserParse_renders {ds : List Descr} (hv : ∀ d ∈ ds, d.Valid) (h : Renders ds src) :
    List.Forall₂ Descr.Describes ds (parserParse src) := by
  obtain ⟨machines, hmachines, hlayout⟩ := h
  exact parserParse_layout hv hmachines hlayout

/-- Each item on a line of its own. -/
def Item.print : Item → List Char
  | .token w m => '\n' :: w ++ ' ' :: m.text
  | .blockEnd => ['\n', '\x7d']

theorem layout_print : ∀ items : List Item, Layout items (items.flatMap Item.print)
  | [] => .nil (by simp [Blanks])
  | .token w m :: items => by
    have h := Layout.token (w := w) (m := m) (show Blanks ['\n'] by simp [Blanks]; decide)
      (show Blanks [' '] by simp [Blanks]; decide) (layout_print items)
    simpa [Item.print] using h
  | .blockEnd :: items => by
    have h := Layout.blockEnd (show Blanks ['\n'] by simp [Blanks]; decide) (layout_print items)
    simpa [Item.print] using h

/-- A door that opens with a callback, and starts closed. -/
def push : TransitDescr where
  name := "push".toList
  origin := "closed".toList
  target := "open".toList
  cb := { func := some "on_push".toList, data := some "key".toList }

def pull : TransitDescr where
  name := "pull".toList
  origin := "open".toList
  target := "closed".toList

def closedDoor : StateDescr where
  name := "closed".toList
  exiter := { func := some "on_exit".toList }

def openDoor : StateDescr where
  name := "open".toList

def door : Descr where
  name := "door".toList
  dataKeys := ["key".toList]
  transits := [push, pull]
  states := [closedDoor, openDoor]
  init := some "closed".toList

theorem door_valid : door.Valid where
  name := by decide
  dataKeys := by decide
  transits := by
    have hpush : push.Valid :=
      ⟨by decide, by decide, by decide, ⟨by decide, by decide⟩, by decide⟩
    have hpull : pull.Valid :=
      ⟨by decide, by decide, by decide, ⟨by decide, by decide⟩, by decide⟩
    simpa [door] using ⟨hpush, hpull⟩
  states := by
    have hclosed : closedDoor.Valid :=
      ⟨by decide, ⟨by decide, by decide⟩, ⟨by decide, by decide⟩⟩
    have hopen : openDoor.Valid :=
      ⟨by decide, ⟨by decide, by decide⟩, ⟨by decide, by decide⟩⟩
    simpa [door] using ⟨hclosed, hopen⟩
  dataKeys_nodup := by decide
  transits_nodup := by decide
  states_nodup := by decide
  init := by decide

def doorLines : List (List Item) :=
  [[.token "push".toList .colon, .token "closed".toList .greater, .token "open".toList .semicolon],
    [.token "pull".toList .colon, .token "open".toList .arrow, .token "closed".toList .semicolon]]

def doorPush : List Item :=
  block "push".toList (block "cb".toList
    (property "data".toList "key".toList ++ property "func".toList "on_push".toList))

def doorStates : List (List Item) :=
  [.token "closed".toList .arobase :: block "init".toList
      (block "exiter".toList (property "func".toList "on_exit".toList)),
    block "open".toList []]

def doorItems : List Item :=
  block "door".toList (block "data".toList (property "global".toList "key".toList) ++
    (block "transitions".toList (block "model".toList doorLines.flatten ++ doorPush) ++
      block "states".toList doorStates.flatten))

theorem door_block : MachineBlock door doorItems := by
  have hlines : List.Forall₂ Line door.transits doorLines :=
    .cons (.intro (.inl rfl)) (.cons (.intro (.inr rfl)) .nil)
  have hpush : List.Forall₂ Description [push] [doorPush] := .cons (.intro (.given .dataFunc)) .nil
  have hempty : StateBody openDoor [] := @StateBody.entererFirst openDoor [] [] .omitted .omitted
  have hstates : List.Forall₂ (StateBlock door.init) door.states doorStates :=
    .cons (.init rfl (@StateBody.entererFirst closedDoor [] _ .omitted (.given .func)))
      (.cons (.plain (by decide) hempty) .nil)
  have htransitions := TransitionsBlock.given hlines (List.nodup_singleton push)
    (by decide) (by decide) (by decide) hpush
  exact .intro .given htransitions (.given hstates)

theorem parserParse_door : List.Forall₂ Descr.Describes [door]
    (parserParse (doorItems.flatMap Item.print)) := by
  refine parserParse_renders (by simpa using door_valid)
    ⟨[doorItems], .cons door_block .nil, ?_⟩
  rw [List.flatten_singleton]
  exact layout_print doorItems

end Files

end Estate.Cc
