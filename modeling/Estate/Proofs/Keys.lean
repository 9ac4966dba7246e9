import Estate.Proofs.Compile
import Estate.Proofs.Install
import Estate.Proofs.Loaded

/-!
# The data key of a callback, from the file to the machine

The generator writes a key between two quotes in a buffer of 128 bytes, and takes its length from
what `snprintf` would have written. A key that fits comes through the generated text and the
initialisation as it is; a longer one loses its closing quote.
-/

namespace Estate.Cc

/-- The callbacks that the parser can give a key. -/
inductive KeyPlace
  | enterer (s : State)
  | exiter (s : State)
  | cb (t : Transit)

def KeyPlace.callback : KeyPlace → Cb
  | .enterer s => s.enterer
  | .exiter s => s.exiter
  | .cb t => t.cb

/-- The statement that initialises the wrapper of a callback. -/
def KeyPlace.stmt : KeyPlace → Stmt
  | .enterer s | .exiter s => eachStatesGcInitCb s
  | .cb t => eachTransitionsGcInitCb t

section Place

variable {W : Type}

/-- The wrapper of a callback, in the state or the transition that its variable points to. -/
def KeyPlace.wrapper (l : Loading W) : KeyPlace → Option CbWrapper
  | .enterer s => (l.stateVar s.name).map fun st => (l.proc.state st).enterer
  | .exiter s => (l.stateVar s.name).map fun st => (l.proc.state st).exiter
  | .cb t => (l.transitVar t.name).map fun tr => (l.proc.transition tr).cb

end Place

/-- The text of a key is a literal for all of it, with its length beside; the loader leaves a
wrapper with that key, and what is registered for it is what that wrapper looks up. -/
structure KeySurvives (prog : Program) (place : KeyPlace) (key : Stringshare) : Prop where
  literal : prog.keyValue (ctorText place.callback).key = some (some key)
  length : (ctorText place.callback).keyLen = key.length
  loaded : ∀ {W : Type} (heap : Heap) (l l' : Loading W),
    place.stmt.exec heap prog l = some l' → ∃ w, place.wrapper l' = some w ∧ w.key = some key ∧
      ∀ (env : Env W) (p q : Process W) (arg : CStr) (v : Addr), env.deref p.world arg = key →
        machineDataSet env p arg v = (q, true) → hashFind q.mach.data w.key = some v

/-! ## What becomes of a key -/

section Text

variable {prog : Program} {c : Cb} {key : Stringshare}

/-- No identifier ends with a quote. -/
theorem quote_not_spelled (hkey : Spelled key) : '\x22' ∉ key := fun h => by
  rcases hkey _ h with hq | hq <;> exact absurd hq (by decide)

/-- A key that is too long for the buffer loses its closing quote. -/
theorem keyValue_cut (hd : c.data = some key) (hkey : Spelled key) (hlong : 125 < key.length) :
    prog.keyValue (ctorText c).key = none := by
  have htext : (ctorText c).key = '\x22' :: key.take 126 := by
    simp only [ctorText, hd, stringizeData, snprintf]
    rw [List.take_succ_cons, List.take_append_of_le_length hlong]
  have hlast : (key.take 126).getLast? ≠ some '\x22' := fun h =>
    quote_not_spelled hkey (List.mem_of_mem_take (List.mem_of_getLast? h))
  rw [htext, Program.keyValue, if_neg (by simp), if_neg fun h => hlast h.2]

/-- A constructor that compiles has a key that fits. -/
theorem fits_of_ctor {k : CbCtor} (hc : c.Spelled) (hk : prog.ctor (ctorText c) = some k) :
    c.Fits := by
  intro key hd
  by_contra hlong
  rw [Program.ctor, keyValue_cut hd (hc.data key hd) (by omega)] at hk
  simp at hk

theorem keyValue_whole (hlit : ∀ s, Spelled s → prog.literal s = some s) (hd : c.data = some key)
    (hkey : Spelled key) (hfit : c.Fits) : prog.keyValue (ctorText c).key = some (some key) := by
  have hne : '\x22' :: (key ++ ['\x22']) ≠ "NULL".toList := by simp
  rw [(ctorText_some hd hfit).1, Program.keyValue, if_neg hne, if_pos (by simp)]
  simp [hlit key hkey]

/-- The constructor that the compiler makes of a key that fits. -/
theorem shared_of_ctor {k : CbCtor} (hvalue : prog.keyValue (ctorText c).key = some (some key))
    (hlen : (ctorText c).keyLen = key.length) (hsmall : key.length ≤ 125)
    (hk : prog.ctor (ctorText c) = some k) :
    (k.key.map fun s => s.takeD k.keyLen.toNat '\x00') = some key := by
  simp only [Program.ctor, hvalue, Option.bind_eq_bind, Option.bind_some] at hk
  obtain ⟨a, -, hk⟩ := Option.bind_eq_some_iff.1 hk
  obtain rfl := Option.some.inj hk
  simp only [hlen, toNat_ofNat_small (n := key.length) (by omega), List.takeD_eq_take _ le_rfl,
    List.take_length, Option.map_some]

end Text

/-! ## What the loader makes of a constructor -/

section Exec

variable {W : Type} {heap : Heap} {prog : Program} {l l' : Loading W}

/-- The wrapper of a place is made from the constructor of its own callback. -/
theorem exec_installs {place : KeyPlace} (h : place.stmt.exec heap prog l = some l') :
    ∃ k w w₀, prog.ctor (ctorText place.callback) = some k ∧ place.wrapper l' = some w ∧
      Installed (some k) w₀ w := by
  have hstate : ∀ s : State, (eachStatesGcInitCb s).exec heap prog l = some l' →
      ∃ st enterer exiter, l'.stateVar s.name = some st ∧
        prog.ctor (ctorText s.enterer) = some enterer ∧
        prog.ctor (ctorText s.exiter) = some exiter ∧
        Installed (some enterer) (l.proc.state st).enterer (l'.proc.state st).enterer ∧
        Installed (some exiter) (l.proc.state st).exiter (l'.proc.state st).exiter := by
    intro s h
    simp only [eachStatesGcInitCb, Stmt.exec, Option.bind_eq_bind, Option.bind_eq_some_iff,
      Option.some.injEq] at h
    obtain ⟨st, hst, array, -, enterer, hent, exiter, hex, p, hinit, q, hadd, rfl⟩ := h
    have hinstalls := stateInit_installs _ _ _ _ _ _ p (checked_some hinit)
    have hframe : q.state = p.state := by
      rw [← (machineAdd_frame p st).1.1, checked_some hadd]
    simp only [hframe]
    exact ⟨st, enterer, exiter, hst, hent, hex, hinstalls⟩
  cases place with
  | enterer s =>
    obtain ⟨st, enterer, -, hst, hent, -, hw, -⟩ := hstate s h
    exact ⟨enterer, _, _, hent, by rw [KeyPlace.wrapper, hst]; rfl, hw⟩
  | exiter s =>
    obtain ⟨st, -, exiter, hst, -, hex, -, hw⟩ := hstate s h
    exact ⟨exiter, _, _, hex, by rw [KeyPlace.wrapper, hst]; rfl, hw⟩
  | cb t =>
    simp only [KeyPlace.stmt, eachTransitionsGcInitCb, Stmt.exec, Option.bind_eq_bind,
      Option.bind_eq_some_iff, Option.some.injEq] at h
    obtain ⟨tr, htr, src, -, dst, -, cb, hcb, enterer, -, exiter, -, r, hr, p, hinit, q, hadd,
      rfl⟩ := h
    rw [checked_some hinit] at hr
    rcases transitionInit_cases hr with ⟨-, hb⟩ | ⟨-, n, len, hp⟩
    · simp at hb
    · obtain ⟨-, -, hframe, -⟩ := machineAdd_frame p tr
      rw [checked_some hadd] at hframe
      refine ⟨cb, _, (l.proc.transition tr).cb, hcb, by rw [KeyPlace.wrapper, htr]; rfl, ?_⟩
      show Installed _ _ (q.transition tr).cb
      rw [hframe, hp]
      simp only [Process.setTransition, Function.update_self]
      exact (inited_installed _ n len).1

theorem machineDataSet_find {env : Env W} {p q : Process W} {arg : CStr} {v : Addr}
    (h : machineDataSet env p arg v = (q, true)) :
    hashFind q.mach.data (some (env.deref p.world arg)) = some v := by
  unfold machineDataSet at h
  split_ifs at h
  · simp at h
  · simp at h
  · simp at h
  · simp only [] at h
    split at h
    · simp at h
    · split_ifs at h
      · obtain ⟨rfl, -⟩ := Prod.mk.inj h
        exact AList.lookup_insert _
      · simp at h

end Exec

/-- A key of identifier characters survives if and only if it fits between two quotes in the buffer
of the generator. -/
theorem keySurvives_iff {prog : Program} (hlit : ∀ s, Spelled s → prog.literal s = some s)
    {place : KeyPlace} {key : Stringshare} (hd : place.callback.data = some key)
    (hkey : Spelled key) : KeySurvives prog place key ↔ key.length ≤ 125 := by
  constructor
  · intro h
    by_contra hlong
    have hcut : prog.keyValue (ctorText place.callback).key = none :=
      keyValue_cut hd hkey (Nat.lt_of_not_le hlong)
    rw [h.literal] at hcut
    simp at hcut
  · intro hsmall
    have hfit : place.callback.Fits := fun k hk => by
      obtain rfl : key = k := Option.some.inj (hd.symm.trans hk)
      exact hsmall
    have hvalue := keyValue_whole hlit hd hkey hfit
    have hlen := (ctorText_some hd hfit).2
    refine ⟨hvalue, hlen, fun heap l l' hexec => ?_⟩
    obtain ⟨k, w, w₀, hk, hw, -, hwkey⟩ := exec_installs hexec
    rw [shared_of_ctor hvalue hlen hsmall hk] at hwkey
    refine ⟨w, hw, hwkey, fun env p q arg v harg hset => ?_⟩
    rw [hwkey, ← harg]
    exact machineDataSet_find hset

/-- A state whose enterer has a key of that many characters. -/
def longKey (n : ℕ) : List Char :=
  "m\x7bstates\x7ba\x7benterer\x7bfunc:f;data:".toList ++ List.replicate n 'k' ++
    ";\x7d\x7d\x7d\x7d".toList

theorem keySurvives_longKey : KeySurvives plainProgram
    (.enterer { name := ['a'], enterer := ⟨some ['f'], some (List.replicate 125 'k')⟩ })
    (List.replicate 125 'k') :=
  (keySurvives_iff (fun _ _ => rfl) rfl fun c hc => by
    rw [List.eq_of_mem_replicate hc]
    decide).2 (by simp)

/-- The parser accepts a key of 126 characters, and the compiler finds no literal for it. -/
theorem longKey_cut :
    ((parserParse (longKey 126)).map fun f => f.stateList.map fun s => s.enterer.data) =
        [[some (List.replicate 126 'k')]] ∧
      ∀ prog, ¬ KeySurvives prog
        (.enterer { name := ['a'], enterer := ⟨some ['f'], some (List.replicate 126 'k')⟩ })
        (List.replicate 126 'k') := by
  refine ⟨by decide +kernel, fun prog h => ?_⟩
  have hcut : prog.keyValue
      (ctorText ⟨some ['f'], some (List.replicate 126 'k')⟩).key = none := by
    refine keyValue_cut rfl (fun c hc => ?_) (by simp)
    rw [List.eq_of_mem_replicate hc]
    decide
  exact absurd (h.literal.symm.trans hcut) (by simp)

end Estate.Cc
