import Estate.Lib.Pairs
import Estate.Proofs.Caching
import Estate.Proofs.Travel

/-!
# Stringshare references over the life of a machine

Each initialisation takes one reference to each string it is given, each binding takes one to its
key, and every other call gives back what it takes. `estate_machine_free` gives back the references
of the transitions, but of a state with a key for its enterer it gives the key of its exiter back
twice, of a state without one it gives no key back, and it gives back none of the bindings. All
counts are back where they were exactly when these slips cancel out (`machineFree_balances_iff`).
-/

namespace Estate

open Lib

variable {W : Type}

/-- How often a list names a string. -/
def refs (l : List (Option Stringshare)) (k : Stringshare) : ℤ := (l.count (some k) : ℕ)

theorem refs_cons (o o' : Option Stringshare) (l : List (Option Stringshare)) (k : Stringshare) :
    refs (o :: o' :: l) k = refs [o] k + refs (o' :: l) k := by
  simp only [refs, List.count_cons, List.count_nil]
  push_cast
  ring

theorem refs_singleton (s k : Stringshare) : refs [some s] k = if k = s then 1 else 0 := by
  simp only [refs, List.count_cons, List.count_nil, beq_iff_eq, Option.some.injEq, Nat.zero_add]
  by_cases h : k = s
  · simp [h]
  · rw [if_neg h, if_neg (Ne.symm h)]
    rfl

/-- The strings a state has been given. -/
def State.strings (s : State) : List (Option Stringshare) := [s.name, s.enterer.key, s.exiter.key]

/-- The strings a transition has been given. -/
def Transition.strings (t : Transition) : List (Option Stringshare) :=
  [t.name, t.cb.key, t.stEnterer.key, t.stExiter.key]

/-- The strings that `estate_state_deinit` gives back. -/
def State.released (s : State) : List (Option Stringshare) :=
  s.name :: if s.enterer.key ≠ none then [s.exiter.key, s.exiter.key] else []

def Process.strings (p : Process W) : Push → Addr → List (Option Stringshare)
  | .state, a => (p.state a).strings
  | .transition, a => (p.transition a).strings

/-- How often some slots name a string. -/
def held (f : Addr → List (Option Stringshare)) (slots : List Addr) (k : Stringshare) : ℤ :=
  refs (slots.flatMap f) k

section Held

variable {f g : Addr → List (Option Stringshare)} {k : Stringshare}

theorem held_append (l l' : List Addr) : held f (l ++ l') k = held f l k + held f l' k := by
  simp [held, refs]

theorem held_cons (a : Addr) (l : List Addr) : held f (a :: l) k = refs (f a) k + held f l k := by
  simp [held, refs]

theorem held_perm {l l' : List Addr} (h : l.Perm l') : held f l k = held f l' k := by
  simp only [held, refs, (h.flatMap_right f).count_eq]

theorem held_congr {l : List Addr} (h : ∀ a ∈ l, f a = g a) : held f l k = held g l k := by
  simp only [held, List.flatMap_congr h]

end Held

theorem share_shares (p : Process W) (s k : Stringshare) :
    (p.share s).shares k = p.shares k + refs [some s] k := by
  rw [refs_singleton]
  simp only [Process.share, Function.update_apply]
  split_ifs with h
  · rw [h]
  · rw [add_zero]

theorem unshare_shares (p : Process W) (s k : Stringshare) :
    (p.unshare s).shares k = p.shares k - refs [some s] k := by
  rw [refs_singleton]
  simp only [Process.unshare, Function.update_apply]
  split_ifs with h
  · rw [h]
  · rw [sub_zero]

theorem shareKey_shares (p : Process W) (key : Option Stringshare) (k : Stringshare) :
    (p.shareKey key).shares k = p.shares k + refs [key] k := by
  cases key with
  | none => simp [Process.shareKey, refs]
  | some s => exact share_shares p s k

theorem unshareKey_shares (p : Process W) (key : Option Stringshare) (k : Stringshare) :
    (p.unshareKey key).shares k = p.shares k - refs [key] k := by
  cases key with
  | none => simp [Process.unshareKey, refs]
  | some s => exact unshare_shares p s k

/-- What is taken since a process is what the initialised slots hold, and the others hold nothing. -/
structure Accounted (p₀ p : Process W) (done : Push → List Addr) : Prop where
  shares : ∀ k, p.shares k = p₀.shares k + held (p.strings .state) (done .state) k
    + held (p.strings .transition) (done .transition) k
  empty : ∀ kind, ∀ a ∉ done kind, ∀ s ∈ p.strings kind a, s = none

theorem Accounted.of_same {p₀ p q : Process W} {done : Push → List Addr} (h : Accounted p₀ p done)
    (hs : q.shares = p.shares) (hstr : ∀ kind a, q.strings kind a = p.strings kind a) :
    Accounted p₀ q done where
  shares := by
    intro k
    rw [hs, h.shares, held_congr fun a _ => hstr .state a, held_congr fun a _ => hstr .transition a]
  empty := by
    intro kind a ha s hmem
    rw [hstr] at hmem
    exact h.empty kind a ha s hmem

/-- A slot that held nothing is given its strings. -/
theorem Accounted.init {p₀ p q : Process W} {done done' : Push → List Addr} {kind : Push} {a : Addr}
    (h : Accounted p₀ p done) (ha : a ∉ done kind) (hdone : done' kind = done kind ++ [a])
    (hother : ∀ kind', kind' ≠ kind → done' kind' = done kind')
    (hs : ∀ k, q.shares k = p.shares k + refs (q.strings kind a) k)
    (hstr : ∀ kind' b, (kind' ≠ kind ∨ b ≠ a) → q.strings kind' b = p.strings kind' b) :
    Accounted p₀ q done' where
  shares := by
    intro k
    have hsame : ∀ kind', kind' ≠ kind → held (q.strings kind') (done' kind') k =
        held (p.strings kind') (done kind') k := by
      intro kind' hne
      rw [hother kind' hne]
      exact held_congr fun b _ => hstr kind' b (.inl hne)
    have hnew : held (q.strings kind) (done' kind) k =
        held (p.strings kind) (done kind) k + refs (q.strings kind a) k := by
      rw [hdone, held_append, held_cons]
      have hrest : held (q.strings kind) (done kind) k = held (p.strings kind) (done kind) k :=
        held_congr fun b hb => hstr kind b (.inr fun hba => ha (hba ▸ hb))
      rw [hrest]
      simp [held, refs]
    rw [hs, h.shares]
    cases kind
    · rw [hnew, hsame .transition (by simp)]
      ring
    · rw [hnew, hsame .state (by simp)]
      ring
  empty := by
    intro kind' b hb s hmem
    by_cases hkind : kind' = kind
    · subst hkind
      rw [hdone, List.mem_append, List.mem_singleton, not_or] at hb
      rw [hstr kind' b (.inr hb.2)] at hmem
      exact h.empty kind' b hb.1 s hmem
    · rw [hother kind' hkind] at hb
      rw [hstr kind' b (.inl hkind)] at hmem
      exact h.empty kind' b hb s hmem

theorem setState_strings (p : Process W) (st : Addr) (s : State)
    (h : s.strings = (p.state st).strings) (kind : Push) (a : Addr) :
    (p.setState st s).strings kind a = p.strings kind a := by
  cases kind
  · by_cases ha : a = st
    · subst ha
      simpa [Process.strings] using h
    · simp [Process.strings, ha]
  · rfl

theorem stateNew_strings {heap : Heap} {p q : Process W} {n : UInt32} {st : Addr}
    (h : stateNew heap p n = some (q, st)) :
    q.shares = p.shares ∧ ∀ kind a, q.strings kind a = p.strings kind a := by
  have hmp : ∀ mp kind a, (p.setMempool mp).strings kind a = p.strings kind a :=
    fun mp kind a => by cases kind <;> rfl
  rcases stateNew_cases h with ⟨-, -, rfl⟩ | ⟨-, rfl⟩
  · exact ⟨rfl, hmp _⟩
  · exact ⟨rfl, fun kind a => (setState_strings _ _ _ (by rfl) kind a).trans (hmp _ kind a)⟩

theorem ctor_key (c : Option CbCtor) {w : CbWrapper} (h : w.key = none) :
    ((c.map CbCtor.wrapper).getD w).key = ctorKey c := by
  cases c
  · exact h
  · rfl

theorem stateInit_accounted {p₀ p : Process W} {done done' : Push → List Addr} {st : Addr}
    {name : Option Stringshare} {transitions : Option (List Addr)} {n : UInt32}
    {enterer exiter : Option CbCtor} (h : Accounted p₀ p done)
    (hok : (stateInit p st name transitions n enterer exiter).2 = true) (hst : st ∉ done .state)
    (hdone : done' .state = done .state ++ [st]) (hother : done' .transition = done .transition) :
    Accounted p₀ (stateInit p st name transitions n enterer exiter).1 done' := by
  have hempty : ∀ s ∈ (p.state st).strings, s = none := h.empty .state st hst
  obtain ⟨he, hx⟩ := setTransit_wrappers (p.state st) n transitions
  rcases stateInit_cases p st name transitions n enterer exiter with hc | ⟨name', hc⟩ <;>
    rw [hc] at hok ⊢
  · simp at hok
  · have hstr : ((p.state st).inited name' transitions n enterer exiter).strings =
        [some name', ctorKey enterer, ctorKey exiter] := by
      simp only [State.inited, State.strings]
      rw [ctor_key enterer (by rw [he]; exact hempty _ (by simp [State.strings])),
        ctor_key exiter (by rw [hx]; exact hempty _ (by simp [State.strings]))]
    refine h.init hst hdone (fun kind hkind => ?_) (fun k => ?_) fun kind b hb => ?_
    · cases kind
      · exact absurd rfl hkind
      · exact hother
    · have hself : ∀ p' : Process W, (p'.setState st
          ((p.state st).inited name' transitions n enterer exiter)).strings .state st =
            [some name', ctorKey enterer, ctorKey exiter] := by
        intro p'
        simpa [Process.strings] using hstr
      rw [hself, refs_cons, refs_cons]
      have hshares : (((p.shareKey (ctorKey enterer)).shareKey (ctorKey exiter)).share name').shares k
          = p.shares k + refs [ctorKey enterer] k + refs [ctorKey exiter] k + refs [some name'] k := by
        rw [share_shares, shareKey_shares, shareKey_shares]
      refine hshares.trans ?_
      ring
    · cases kind
      · have hne : b ≠ st := hb.resolve_left (by simp)
        simp [Process.strings, hne, shareKey_frame]
      · simp [Process.strings, shareKey_frame]

theorem transitionInit_accounted {p₀ p q : Process W} {done done' : Push → List Addr} {tr : Addr}
    {name : Option Stringshare} {src dst : Addr} {cb enterer exiter : Option CbCtor}
    (h : Accounted p₀ p done)
    (hq : transitionInit p tr name src dst cb enterer exiter = some (q, true))
    (htr : tr ∉ done .transition) (hdone : done' .transition = done .transition ++ [tr])
    (hother : done' .state = done .state) : Accounted p₀ q done' := by
  have hempty : ∀ s ∈ (p.transition tr).strings, s = none := h.empty .transition tr htr
  rcases transitionInit_cases hq with ⟨-, hb⟩ | ⟨-, n, len, rfl⟩
  · simp at hb
  · have hstr : ((p.transition tr).inited n src dst cb enterer exiter len).strings =
        [some n, ctorKey cb, ctorKey enterer, exiter.bind fun c => c.shared len] := by
      have h1 := hempty (p.transition tr).cb.key (by simp [Transition.strings])
      have h2 := hempty (p.transition tr).stEnterer.key (by simp [Transition.strings])
      have h3 := hempty (p.transition tr).stExiter.key (by simp [Transition.strings])
      cases cb <;> cases enterer <;> cases exiter <;>
        simp [Transition.inited, Transition.strings, ctorKey, h1, h2, h3]
    refine h.init htr hdone (fun kind hkind => ?_) (fun k => ?_) fun kind b hb => ?_
    · cases kind
      · exact hother
      · exact absurd rfl hkind
    · have hself : ∀ p' : Process W, (p'.setTransition tr
          ((p.transition tr).inited n src dst cb enterer exiter len)).strings .transition tr =
            [some n, ctorKey cb, ctorKey enterer, exiter.bind fun c => c.shared len] := by
        intro p'
        simpa [Process.strings] using hstr
      rw [hself, refs_cons, refs_cons, refs_cons]
      have hshares : ((((p.share n).shareKey (ctorKey cb)).shareKey (ctorKey enterer)).shareKey
          (exiter.bind fun c => c.shared len)).shares k = p.shares k + refs [some n] k +
            refs [ctorKey cb] k + refs [ctorKey enterer] k +
            refs [exiter.bind fun c => c.shared len] k := by
        rw [shareKey_shares, shareKey_shares, shareKey_shares, share_shares]
      refine hshares.trans ?_
      ring
    · cases kind
      · simp [Process.strings, shareKey_frame]
      · have hne : b ≠ tr := hb.resolve_left (by simp)
        simp [Process.strings, hne, shareKey_frame]

/-- A call takes what the slot it initialises holds then. -/
theorem buildCall_accounted {heap : Heap} {p₀ p q : Process W} {done : Push → List Addr}
    {c : BuildCall} (h : Accounted p₀ p done) (hq : buildCall heap p c = some q)
    (hnodup : ∀ kind, (done kind ++ inited p c kind).Nodup) :
    Accounted p₀ q fun kind => done kind ++ inited p c kind := by
  have hnone : ∀ {c : BuildCall}, (∀ kind, inited p c kind = []) → q.shares = p.shares →
      (∀ kind a, q.strings kind a = p.strings kind a) →
      Accounted p₀ q fun kind => done kind ++ inited p c kind := by
    intro c hc hs hstr
    have hdone : (fun kind => done kind ++ inited p c kind) = done := by
      funext kind
      rw [hc, List.append_nil]
    rw [hdone]
    exact h.of_same hs hstr
  have hfresh : ∀ {kind : Push} {a : Addr}, inited p c kind = [a] → a ∉ done kind := by
    intro kind a hc ha
    have hd := hnodup kind
    rw [hc] at hd
    exact (List.nodup_append.1 hd).2.2 a ha a (List.mem_singleton.2 rfl) rfl
  cases c with
  | stateNew n =>
    obtain ⟨⟨q', st⟩, hnew, rfl⟩ := Option.map_eq_some_iff.1 hq
    obtain ⟨hs, hstr⟩ := stateNew_strings hnew
    exact hnone (fun kind => by cases kind <;> rfl) hs hstr
  | transitionNew =>
    have he : (transitionNew heap p).1 = q := Option.some.inj hq
    refine hnone (fun kind => by cases kind <;> rfl) (by rw [← he]; rfl) fun kind a => ?_
    rw [← he]
    cases kind <;> rfl
  | stateInit st name trs n enterer exiter =>
    have he : (stateInit p st name trs n enterer exiter).1 = q := Option.some.inj hq
    by_cases hok : (stateInit p st name trs n enterer exiter).2 = true
    · have hslot : inited p (.stateInit st name trs n enterer exiter) .state = [st] := if_pos hok
      rw [← he]
      refine stateInit_accounted h hok (hfresh hslot) ?_ (List.append_nil _)
      rw [hslot]
    · have hsame : (stateInit p st name trs n enterer exiter).1 = p := by
        rcases stateInit_cases p st name trs n enterer exiter with hc | ⟨name', hc⟩
        · rw [hc]
        · rw [hc] at hok
          exact absurd rfl hok
      rw [hsame] at he
      rw [← he] at hnone ⊢
      refine hnone (fun kind => ?_) rfl fun _ _ => rfl
      cases kind
      · exact if_neg hok
      · rfl
  | transitionInit tr name src dst cb enterer exiter =>
    obtain ⟨⟨q', b⟩, hinit, rfl⟩ := Option.map_eq_some_iff.1 hq
    cases b
    · have hsame : q' = p := by
        rcases transitionInit_cases hinit with ⟨hc, -⟩ | ⟨hb, -⟩
        · exact hc
        · simp at hb
      refine hnone (fun kind => ?_) (by rw [hsame]) fun _ _ => by rw [hsame]
      cases kind
      · rfl
      · exact if_neg (by simp [hinit])
    · have hslot : inited p (.transitionInit tr name src dst cb enterer exiter) .transition =
          [tr] := if_pos (by simp [hinit])
      refine transitionInit_accounted h hinit (hfresh hslot) ?_ (List.append_nil _)
      rw [hslot]
  | stateAdd st =>
    have he : (machineStateAdd p st).1 = q := Option.some.inj hq
    obtain ⟨hs, ht, hshares⟩ := he ▸ (machineAdd_frame p st).1
    refine hnone (fun kind => by cases kind <;> rfl) hshares fun kind a => ?_
    cases kind <;> simp only [Process.strings, hs, ht]
  | transitionAdd tr =>
    have he : (machineTransitionAdd p tr).1 = q := Option.some.inj hq
    obtain ⟨hs, ht, hshares⟩ := he ▸ (machineAdd_frame p tr).2
    refine hnone (fun kind => by cases kind <;> rfl) hshares fun kind a => ?_
    cases kind <;> simp only [Process.strings, hs, ht]

theorem build_accounted {heap : Heap} {p₀ : Process W} :
    ∀ {calls : List BuildCall} {p q : Process W} {done : Push → List Addr}, Accounted p₀ p done →
      build heap p calls = some q →
      (∀ kind, (done kind ++ initialised heap p calls kind).Nodup) →
      Accounted p₀ q fun kind => done kind ++ initialised heap p calls kind
  | [], p, q, done, h, hq, _ => by
    obtain rfl : p = q := Option.some.inj hq
    simpa [initialised] using h
  | c :: calls, p, q, done, h, hq, hnodup => by
    obtain ⟨p', hc, hb⟩ := build_cons.1 hq
    simp only [initialised, hc, ← List.append_assoc] at hnodup ⊢
    have hstep := buildCall_accounted h hc fun kind => (List.nodup_append.1 (hnodup kind)).1
    exact build_accounted hstep hb hnodup

theorem accounted_fresh {mach : Machine} {shares : Stringshare → ℤ} {w : W} :
    Accounted (.fresh mach shares w) (.fresh mach shares w) fun _ => [] where
  shares := by simp [held, refs]
  empty := by
    intro kind a _ s hs
    cases kind <;>
      simpa [Process.strings, Process.fresh, State.strings, Transition.strings] using hs

/-- What has been taken when a machine is built, each slot initialised at most once. -/
theorem build_shares {heap : Heap} {mach : Machine} {shares : Stringshare → ℤ} {w : W}
    {calls : List BuildCall} {p : Process W}
    (hb : build heap (.fresh mach shares w) calls = some p)
    (hnodup : ∀ kind, (initialised heap (.fresh mach shares w) calls kind).Nodup)
    (k : Stringshare) :
    p.shares k = shares k +
      held (p.strings .state) (initialised heap (.fresh mach shares w) calls .state) k +
      held (p.strings .transition) (initialised heap (.fresh mach shares w) calls .transition) k :=
  (build_accounted accounted_fresh hb hnodup).shares k

/-- Whether a key is bound. -/
def boundCount (p : Process W) (k : Stringshare) : ℤ :=
  (hashFind p.mach.data (some k)).elim 0 fun _ => 1

/-- A run takes a reference for each binding it makes, and the slots keep their strings. -/
structure KeepsShares (p q : Process W) : Prop where
  shares : ∀ k, q.shares k - boundCount q k = p.shares k - boundCount p k
  strings : ∀ kind a, q.strings kind a = p.strings kind a

theorem KeepsShares.trans {p q r : Process W} (h : KeepsShares p q) (h' : KeepsShares q r) :
    KeepsShares p r where
  shares k := (h'.shares k).trans (h.shares k)
  strings kind a := (h'.strings kind a).trans (h.strings kind a)

theorem KeepsShares.of_eq {p q : Process W} (hs : q.shares = p.shares)
    (hd : q.mach.data = p.mach.data) (hst : q.state = p.state)
    (htr : q.transition = p.transition) : KeepsShares p q where
  shares k := by simp only [boundCount, hs, hd]
  strings kind a := by cases kind <;> simp only [Process.strings, hst, htr]

/-- A stringshare taken and given back. -/
theorem KeepsShares.bracket {p q : Process W} {s : Stringshare} (h : KeepsShares (p.share s) q) :
    KeepsShares p (q.unshare s) where
  shares k := by
    have hk := h.shares k
    rw [share_shares] at hk
    rw [unshare_shares]
    have hq : boundCount (q.unshare s) k = boundCount q k := rfl
    have hp : boundCount (p.share s) k = boundCount p k := rfl
    rw [hq]
    rw [hp] at hk
    linarith
  strings kind a := by
    have hq : (q.unshare s).strings kind a = q.strings kind a := by cases kind <;> rfl
    have hp : (p.share s).strings kind a = p.strings kind a := by cases kind <;> rfl
    rw [hq, h.strings, hp]

/-- The one call that takes a string for good is a binding. -/
theorem apiCall_shares {env : Env W} {run : Process W → CStr → Process W × Option Bool}
    {p q : Process W} {c : Call} {b : Bool} (hc : ∀ t, c ≠ .transitionDo t)
    (hcall : apiCall env run p c = (q, some b)) : KeepsShares p q := by
  cases apiCall_step env hc hcall with
  | same => exact .of_eq rfl rfl rfl rfl
  | refused shr => exact KeepsShares.bracket (.of_eq rfl rfl rfl rfl)
  | bound shr value hfind =>
    refine ⟨fun k => ?_, fun kind a => by cases kind <;> rfl⟩
    have hshares : ((p.share shr).shares k : ℤ) = p.shares k + refs [some shr] k :=
      share_shares p shr k
    have hbound : boundCount ((p.share shr).setMach
        { p.mach with data := hashAdd p.mach.data (some shr) value }) k =
          boundCount p k + refs [some shr] k := by
      have hadd : hashFind (hashAdd p.mach.data (some shr) value) (some k) =
          if k = shr then some value else hashFind p.mach.data (some k) :=
        hashFind_insert _ _ _ _
      rw [refs_singleton]
      refine (congrArg (fun o => Option.elim o 0 fun _ => (1 : ℤ)) hadd).trans ?_
      by_cases hk : k = shr
      · subst hk
        have hnone : boundCount p k = 0 :=
          congrArg (fun o => Option.elim o 0 fun _ => (1 : ℤ)) hfind
        simp [hnone]
      · simp [hk, boundCount]
    have htotal := congrArg₂ (· - ·) hshares hbound
    simp only [] at htotal
    refine htotal.trans ?_
    ring
  | locked current _ => exact .of_eq rfl rfl rfl rfl
  | registered mp _ => exact .of_eq rfl rfl rfl rfl
  | globalData data => exact .of_eq rfl rfl rfl rfl
  | errorCb func => exact .of_eq rfl rfl rfl rfl

/-- A wrapper whose key stays names the same strings. -/
theorem setWrapper_shares (p : Process W) (r : WrapperRef) {w : CbWrapper}
    (h : w.key = (p.wrapper r).key) : KeepsShares p (p.setWrapper r w) where
  shares k := by cases r <;> rfl
  strings kind a := by
    cases r with
    | enterer st =>
      have hkey : w.key = (p.state st).enterer.key := h
      exact setState_strings p st _ (by simp [State.strings, hkey]) kind a
    | exiter st =>
      have hkey : w.key = (p.state st).exiter.key := h
      exact setState_strings p st _ (by simp [State.strings, hkey]) kind a
    | cb tr =>
      cases kind
      · rfl
      · by_cases ha : a = tr
        · subst ha
          have hkey : w.key = (p.transition a).cb.key := h
          simp [Process.strings, Process.setWrapper, Transition.strings, hkey]
        · simp [Process.strings, Process.setWrapper, ha]

theorem keepsShares_preserves (env : Env W) : Preserves env KeepsShares where
  refl _ := .of_eq rfl rfl rfl rfl
  trans := KeepsShares.trans
  world _ _ := .of_eq rfl rfl rfl rfl
  log _ _ _ := .of_eq rfl rfl rfl rfl
  call := apiCall_shares
  defer _ _ := .of_eq rfl rfl rfl rfl
  bracket := KeepsShares.bracket

theorem keepsShares_fires (env : Env W) : Fires env KeepsShares :=
  .of_pieces (keepsShares_preserves env)
    { chosen := fun _ _ => .of_eq rfl rfl rfl rfl
      entering := fun p wrp _ _ =>
        (setWrapper_shares p wrp ((miscCbCache_frame _ _).2.1)).trans (.of_eq rfl rfl rfl rfl)
      leaving := fun p wrp _ _ result =>
        (@setWrapper_shares _ p wrp { p.wrapper wrp with result := result } rfl).trans
          (.of_eq rfl rfl rfl rfl)
      moved := fun _ _ => .of_eq rfl rfl rfl rfl }

theorem unshareKey_frame (p : Process W) (key : Option Stringshare) :
    (p.unshareKey key).state = p.state ∧ (p.unshareKey key).transition = p.transition := by
  cases key <;> exact ⟨rfl, rfl⟩

/-- A release of slots, one after the other, of which none changes what another holds. -/
theorem foldl_release {free : Process W → Addr → Process W}
    {released : Process W → Addr → List (Option Stringshare)} {ok : Addr → Prop}
    (hshares : ∀ p a, ok a → ∀ k, (free p a).shares k = p.shares k - refs (released p a) k)
    (hreleased : ∀ p a b, released (free p a) b = released p b) (k : Stringshare) :
    ∀ (l : List Addr) (p : Process W), (∀ a ∈ l, ok a) →
      (l.foldl free p).shares k = p.shares k - held (released p) l k
  | [], p, _ => by simp [held, refs]
  | a :: l, p, h => by
    have htail := foldl_release hshares hreleased k l (free p a)
      fun b hb => h b (List.mem_cons_of_mem _ hb)
    rw [List.foldl_cons, htail, hshares p a (h a List.mem_cons_self), held_cons,
      held_congr fun b _ => hreleased p a b]
    ring

theorem transitionFree_shares (p : Process W) (tr : Addr) (k : Stringshare) :
    (transitionFree p tr).shares k = p.shares k - refs (p.transition tr).strings k := by
  simp only [transitionFree, transitionDeinit, unshareKey_shares, Transition.strings]
  rw [refs_cons, refs_cons, refs_cons]
  ring

theorem transitionFree_frame (p : Process W) (tr : Addr) :
    (transitionFree p tr).state = p.state ∧ (transitionFree p tr).transition = p.transition := by
  simp [transitionFree, transitionDeinit, unshareKey_frame]

theorem stateDeinit_frame (p : Process W) (st : Addr) : (stateDeinit p st).state = p.state := by
  unfold stateDeinit
  simp only []
  split_ifs <;> simp [unshareKey_frame]

/-- What `estate_state_free` gives back. -/
theorem stateFree_shares (p : Process W) {st : Addr} (hst : st ≠ 0) (k : Stringshare) :
    (stateFree p st).shares k = p.shares k - refs (p.state st).released k := by
  have hdeinit : (stateFree p st).shares = (stateDeinit p st).shares := rfl
  rw [hdeinit, stateDeinit, if_neg hst]
  simp only []
  by_cases he : (p.state st).enterer.key = none
  · simp only [State.released, he, ne_eq, not_true_eq_false, if_false, unshareKey_shares]
  · simp only [State.released, he, ne_eq, not_false_eq_true, if_true, unshareKey_shares]
    rw [refs_cons, refs_cons]
    ring

theorem stateFree_released (p : Process W) (st a : Addr) :
    ((stateFree p st).state a).released = (p.state a).released := by
  by_cases ha : a = st
  · subst ha
    simp [stateFree, State.released, stateDeinit_frame]
  · simp [stateFree, ha, stateDeinit_frame]

/-- The slots that `estate_machine_free` releases. -/
def freed (sz : Sizes) (p : Process W) (kind : Push) : List Addr :=
  (freedSlots sz p.mach.mempool kind).map Int.toNat

theorem machineFree_shares (sz : Sizes) (p : Process W) (hst : ∀ st ∈ freed sz p .state, st ≠ 0)
    (k : Stringshare) : (machineFree sz p).shares k = p.shares k -
      held (p.strings .transition) (freed sz p .transition) k -
      held (fun st => (p.state st).released) (freed sz p .state) k := by
  obtain ⟨p₁, hp₁⟩ : ∃ p₁, p₁ = p.setMach { p.mach with data := ∅ } := ⟨_, rfl⟩
  obtain ⟨p₂, hp₂⟩ : ∃ p₂, p₂ = (freed sz p .transition).foldl transitionFree p₁ := ⟨_, rfl⟩
  have hfree : (machineFree sz p).shares = ((freed sz p .state).foldl stateFree p₂).shares := by
    simp only [machineFree, mempoolFree, freed, hp₂, hp₁, List.foldl_map]
    rfl
  have hframe : ∀ (l : List Addr) (q : Process W), (l.foldl transitionFree q).state = q.state := by
    intro l
    induction l with
    | nil => exact fun _ => rfl
    | cons a l ih => exact fun q => (ih _).trans (transitionFree_frame q a).1
  have htransitions := @foldl_release W transitionFree (fun q a => (q.transition a).strings)
    (fun _ => True) (fun q a _ => transitionFree_shares q a)
    (fun q a b => by rw [(transitionFree_frame q a).2]) k (freed sz p .transition) p₁ (by simp)
  have hstates := @foldl_release W stateFree (fun q st => (q.state st).released) (· ≠ 0)
    (fun q st h => stateFree_shares q h) stateFree_released k (freed sz p .state) p₂ hst
  rw [hfree, hstates, hp₂, htransitions, hframe]
  subst hp₁
  rfl

/-! ## A machine that is complete -/

/-- Pushes within what was announced all hand a slot out. -/
theorem results_some {sz : Sizes} {states transitions : UInt32} {mp : Mempool} {ops : List Push}
    (hf : Fresh sz states transitions mp)
    (hle : ∀ kind, ops.count kind ≤ announced states transitions kind) (kind : Push) :
    ∀ o ∈ results sz mp ops kind, o ≠ none := by
  intro o ho
  obtain ⟨⟨kind', o'⟩, hmem, rfl⟩ := List.mem_map.1 ho
  obtain ⟨hpush, hkind⟩ := List.mem_filter.1 hmem
  obtain rfl : kind' = kind := by simpa using hkind
  obtain ⟨i, hi⟩ := List.mem_iff_getElem?.1 hpush
  rw [getElem?_pushes] at hi
  obtain ⟨op, hop, he⟩ := Option.map_eq_some_iff.1 hi
  obtain ⟨rfl, hr⟩ := Prod.mk.inj he
  have hlt : (ops.take i).count op < announced states transitions op :=
    ((count_take_lt (Nat.lt_succ_self i) hop).trans_le
      ((List.take_sublist (i + 1) ops).count_le op)).trans_le (hle op)
  show o' ≠ none
  rw [← hr]
  cases op
  · have hroom := slot_le (s := sz.state) hlt
    rw [push_state_eq hf, if_neg]
    · simp
    · simp only [announced] at hroom
      rw [Nat.succ_mul]
      omega
  · have hlt' : (ops.take i).count .transition < transitions.toNat := hlt
    rw [push_transition_eq hf, if_pos hlt']
    simp

section Complete

variable {heap : Heap} {states transitions : UInt32} {mach : Machine} {shares : Stringshare → ℤ}
  {w : W} {calls : List BuildCall} {p : Process W}

theorem slots_nodup (hnew : machineNew heap states transitions = some mach)
    (honce : BuiltOnce heap states transitions (.fresh mach shares w) calls) (kind : Push) :
    (slots heap mach.mempool calls kind).Nodup := by
  have hhanded : Handed (mach.mempool.top kind) (kind.size heap.sizes)
      (answers heap mach.mempool calls kind) := results_handed _ _ _ _
  exact hhanded.nodup (kind.size_pos heap.sizes) (results_some
    (mempoolNew_fresh _ (machineNew_some hnew).1) (fun kind => (honce.pushed kind).le) kind)

/-- The slots that are released are the ones that were handed out. -/
theorem freed_perm (hnew : machineNew heap states transitions = some mach)
    (hb : build heap (.fresh mach shares w) calls = some p)
    (honce : BuiltOnce heap states transitions (.fresh mach shares w) calls)
    (hs : p.mach.mempool.statesReg = p.mach.statesCount)
    (ht : p.mach.mempool.transitReg = p.mach.transitCount) (kind : Push) :
    (freed heap.sizes p kind).Perm (slots heap mach.mempool calls kind) := by
  obtain ⟨hpool, ⟨hstates, htransit⟩, -, -⟩ := machineNew_some hnew
  obtain ⟨mp, hmp⟩ := build_mach hb
  have hlen : (answers heap mach.mempool calls kind).length = announced states transitions kind :=
    (results_length _ _ _ _).trans (honce.pushed kind)
  have hreg : (p.mach.mempool.reg kind).toNat = (answers heap mach.mempool calls kind).length := by
    rw [hlen]
    cases kind
    · exact congrArg UInt32.toNat (hs.trans (by rw [hmp]; exact hstates))
    · exact congrArg UInt32.toNat (ht.trans (by rw [hmp]; exact htransit))
  have htop : (p.mach.mempool.top kind : ℤ) = (mach.mempool.top kind : ℕ) +
      ((answers heap mach.mempool calls kind).length : ℤ) * (kind.size heap.sizes : ℕ) := by
    rw [build_top kind hb, hlen, honce.pushed kind]
    push_cast
    rfl
  have hhanded : Handed (mach.mempool.top kind) (kind.size heap.sizes)
      (answers heap mach.mempool calls kind) := results_handed _ _ _ _
  rw [freed, freedSlots, htop, hreg]
  exact hhanded.pops_perm (results_some (mempoolNew_fresh _ hpool)
    (fun kind => (honce.pushed kind).le) kind)

/-- A state is initialised only at an address. -/
theorem initialised_ne_zero : ∀ {calls : List BuildCall} {p : Process W},
    ∀ st ∈ initialised heap p calls .state, st ≠ 0
  | [], _, st, h => by simp [initialised] at h
  | c :: calls, p, st, h => by
    rw [initialised, List.mem_append] at h
    rcases h with h | h
    · cases c with
      | stateInit st' name trs n enterer exiter =>
        rintro rfl
        simp only [inited, statesInited] at h
        split_ifs at h with hok
        · obtain rfl := List.mem_singleton.1 h
          simp [stateInit] at hok
        · simp at h
      | _ => simp [inited, statesInited] at h
    · split at h
      · simp at h
      · exact initialised_ne_zero st h

/-- The enterer and exiter keys of states. -/
def enterers (p : Process W) (st : Addr) : Option Stringshare := (p.state st).enterer.key

def exiters (p : Process W) (st : Addr) : Option Stringshare := (p.state st).exiter.key

/-- States have both keys or none, and their enterer keys are their exiter keys in another order. -/
structure Paired (p : Process W) (slots : List Addr) : Prop where
  both : ∀ st ∈ slots, enterers p st = none ↔ exiters p st = none
  keys : (slots.filterMap (enterers p)).Perm (slots.filterMap (exiters p))

theorem refs_toList (o : Option Stringshare) (k : Stringshare) :
    refs [o] k = (o.toList.count k : ℕ) := by
  cases o
  · rfl
  · simp [refs, List.count_cons]

/-- What states hold beyond what they give back. -/
theorem held_sub_released (p : Process W) (k : Stringshare) : ∀ l : List Addr,
    held (p.strings .state) l k - held (fun st => (p.state st).released) l k =
      ((l.filterMap (enterers p)).count k : ℕ) + ((l.filterMap (exiters p)).count k : ℕ) -
        2 * ((seconds l (enterers p) (exiters p)).count k : ℕ)
  | [] => by simp [held, refs, seconds]
  | st :: l => by
    have ih := held_sub_released p k l
    have hcons : ∀ f : Addr → Option Stringshare, ((st :: l).filterMap f).count k =
        (f st).toList.count k + (l.filterMap f).count k := by
      intro f
      rw [List.filterMap_cons]
      cases f st <;> simp [List.count_cons, Nat.add_comm]
    have hstrings : refs (p.strings .state st) k =
        refs [(p.state st).name] k + (enterers p st).toList.count k +
          (exiters p st).toList.count k := by
      simp only [Process.strings, State.strings]
      rw [refs_cons, refs_cons, ← add_assoc, refs_toList (p.state st).enterer.key,
        refs_toList (p.state st).exiter.key]
      rfl
    rw [held_cons, held_cons, hcons, hcons, hstrings]
    by_cases he : (p.state st).enterer.key = none
    · have hnone : enterers p st = none := he
      have hseconds : seconds (st :: l) (enterers p) (exiters p) =
          seconds l (enterers p) (exiters p) := by simp [seconds, hnone]
      have hreleased : (p.state st).released = [(p.state st).name] := by simp [State.released, he]
      rw [hseconds, hreleased]
      push_cast
      linarith
    · have hsome : (enterers p st).isSome = true := Option.isSome_iff_ne_none.2 he
      have hseconds : (seconds (st :: l) (enterers p) (exiters p)).count k =
          (exiters p st).toList.count k + (seconds l (enterers p) (exiters p)).count k := by
        simp only [seconds, List.filter_cons, hsome, if_true]
        rw [List.filterMap_cons]
        cases exiters p st <;> simp [List.count_cons, Nat.add_comm]
      have hreleased : (p.state st).released =
          [(p.state st).name, (p.state st).exiter.key, (p.state st).exiter.key] := by
        simp [State.released, he]
      rw [hseconds, hreleased, refs_cons, refs_cons, refs_toList (p.state st).exiter.key]
      have hx : (p.state st).exiter.key = exiters p st := rfl
      rw [hx]
      push_cast
      linarith

/-- What the library has not given back of a string when a machine is freed. -/
theorem machineFree_count {env : Env W} {q : Process W} {s₀ : Addr}
    (hnew : machineNew heap states transitions = some mach)
    (hb : build heap (.fresh mach shares w) calls = some p)
    (honce : BuiltOnce heap states transitions (.fresh mach shares w) calls)
    (hl : (machineLock p s₀).mach.locked = true) (hrun : Run env (machineLock p s₀) q)
    (k : Stringshare) :
    (machineFree heap.sizes q).shares k - shares k = boundCount q k +
      (((slots heap mach.mempool calls .state).filterMap (enterers p)).count k : ℕ) +
      (((slots heap mach.mempool calls .state).filterMap (exiters p)).count k : ℕ) -
      2 * ((seconds (slots heap mach.mempool calls .state) (enterers p) (exiters p)).count k : ℕ) := by
  obtain ⟨-, -, ⟨hopen, -⟩, hempty⟩ := machineNew_some hnew
  obtain ⟨mp, hmp⟩ := build_mach hb
  have hp : p.mach.locked = false := by rw [hmp]; exact hopen
  obtain ⟨hs₀, hsreg, htreg⟩ := complete_of_machineLock hp hl
  have hlock := machineLock_complete hs₀ hsreg htreg
  obtain ⟨h, ht⟩ := (moves_preserves env).run (moves_fires env) hrun hl
  have hkeep := (keepsShares_preserves env).run (keepsShares_fires env) hrun
  rw [hlock] at ht hkeep
  have hpool : q.mach.mempool = p.mach.mempool := ht.keeps.mempool
  have hstrings : ∀ kind a, q.strings kind a = p.strings kind a := by
    intro kind a
    rw [hkeep.strings]
    cases kind <;> rfl
  -- The slots released are those handed out, and those are the ones initialised.
  have hfreed : ∀ kind, (freed heap.sizes q kind).Perm (slots heap mach.mempool calls kind) := by
    intro kind
    rw [freed, hpool]
    exact freed_perm hnew hb honce hsreg htreg kind
  have hperm : ∀ kind, (initialised heap (.fresh mach shares w) calls kind).Perm
      (slots heap mach.mempool calls kind) := honce.once
  have hbuild := build_shares hb (fun kind => (hperm kind).nodup_iff.2
    (slots_nodup hnew honce kind)) k
  rw [held_perm (hperm .state), held_perm (hperm .transition)] at hbuild
  have hreleased : ∀ st, (q.state st).released = (p.state st).released := by
    intro st
    have hst := hstrings .state st
    simp only [Process.strings, State.strings, List.cons.injEq, and_true] at hst
    obtain ⟨hn, he, hx⟩ := hst
    simp only [State.released, hn, he, hx]
  have hfree := machineFree_shares heap.sizes q (fun st hst =>
    initialised_ne_zero st ((hperm .state).mem_iff.2 ((hfreed .state).mem_iff.1 hst))) k
  rw [held_perm (hfreed .state), held_perm (hfreed .transition),
    held_congr fun a _ => hstrings .transition a, held_congr fun a _ => hreleased a] at hfree
  have hrunk := hkeep.shares k
  have hfirst : boundCount p k = 0 := by
    simp [boundCount, hmp, Process.fresh, hempty, hashFind]
  have hstates := held_sub_released p k (slots heap mach.mempool calls .state)
  have hpk : boundCount ((p.setMach { p.mach with currentState := s₀, locked := true }).record
      (.locked p.mach.currentState s₀)) k = boundCount p k := rfl
  rw [hpk, hfirst] at hrunk
  simp only [Process.record, Process.setMach] at hrunk
  linarith

/-- Once a machine is built, each slot initialised once, locked and run, and freed, all counts are
back where they were exactly when nothing is bound, each state has both keys or none, and the
enterer keys are the exiter keys in another order. -/
theorem machineFree_balances_iff {env : Env W} {q : Process W} {s₀ : Addr}
    (hnew : machineNew heap states transitions = some mach)
    (hb : build heap (.fresh mach shares w) calls = some p)
    (honce : BuiltOnce heap states transitions (.fresh mach shares w) calls)
    (hl : (machineLock p s₀).mach.locked = true) (hrun : Run env (machineLock p s₀) q) :
    (∀ k, (machineFree heap.sizes q).shares k = shares k) ↔
      (∀ key, hashFind q.mach.data (some key) = none) ∧
        Paired p (slots heap mach.mempool calls .state) := by
  obtain ⟨side, hside⟩ : ∃ side : Stringshare → ℕ, ∀ k, boundCount q k = (side k : ℕ) ∧
      (side k = 0 ↔ hashFind q.mach.data (some k) = none) := by
    refine ⟨fun k => (hashFind q.mach.data (some k)).toList.length, fun k => ?_⟩
    unfold boundCount
    rcases hfind : hashFind q.mach.data (some k) with _ | value <;> simp [hfind]
  have hcount : ∀ k, (machineFree heap.sizes q).shares k = shares k ↔
      side k + ((slots heap mach.mempool calls .state).filterMap (enterers p)).count k +
        ((slots heap mach.mempool calls .state).filterMap (exiters p)).count k =
      2 * (seconds (slots heap mach.mempool calls .state) (enterers p) (exiters p)).count k := by
    intro k
    have hk := machineFree_count hnew hb honce hl hrun k
    rw [(hside k).1] at hk
    omega
  rw [forall_congr' hcount, pairs_balance_iff side, forall_congr' fun k => (hside k).2]
  exact ⟨fun ⟨hnone, hboth, hkeys⟩ => ⟨hnone, hboth, hkeys⟩,
    fun ⟨hnone, hpaired⟩ => ⟨hnone, hpaired.both, hpaired.keys⟩⟩

end Complete

/-! ## A state with one key -/

theorem keyed_once : BuiltOnce roomyHeap 2 1 (.fresh newMachine.mach (fun _ => 0) ()) keyed where
  pushed kind := by cases kind <;> rfl
  once kind := by
    cases kind
    · exact List.Perm.refl [4224, 4312]
    · exact List.Perm.refl [4400]

/-- The first state of `keyed` has a key for its exiter and none for its enterer, and its key is
never given back. -/
theorem keyed_leaks : ∃ p,
    build roomyHeap (.fresh newMachine.mach (fun _ => 0) ()) keyed = some p ∧
    BuiltOnce roomyHeap 2 1 (.fresh newMachine.mach (fun _ => 0) ()) keyed ∧
    (machineLock p 4224).mach.locked = true ∧
    Run ringing (machineLock p 4224) (machineLock p 4224) ∧
    (machineFree roomyHeap.sizes (machineLock p 4224)).shares "bell".toList = 1 :=
  ⟨_, rfl, keyed_once, rfl, .start, rfl⟩

theorem keyed_balance : ∃ p,
    build roomyHeap (.fresh newMachine.mach (fun _ => 0) ()) keyed = some p ∧
    ((∀ k, (machineFree roomyHeap.sizes (machineLock p 4224)).shares k = 0) ↔
      (∀ key, hashFind (machineLock p 4224).mach.data (some key) = none) ∧
        Paired p (slots roomyHeap newMachine.mach.mempool keyed .state)) := by
  obtain ⟨p, hb, hl⟩ : ∃ p, build roomyHeap (.fresh newMachine.mach (fun _ => 0) ()) keyed = some p ∧
      (machineLock p 4224).mach.locked = true := ⟨_, rfl, rfl⟩
  have hrun : Run ringing (machineLock p 4224) (machineLock p 4224) := .start
  exact ⟨p, hb, machineFree_balances_iff newMachine_new hb keyed_once hl hrun⟩

end Estate
