import Estate.Lib.Printf
import Estate.Proofs.Requests

/-!
# The names in a message are read as a format

`estate_machine_transition_do` prints the message of a failed call into a buffer of 2048 bytes, and
logs it before it hands it to the error callback. The logger takes the message itself for the format. The fixed parts of the message hold no per cent sign, so what the logger makes of it
depends on the names in it alone (`reportsSafely_iff`).
-/

namespace Estate

open Lib.Printf

variable {W : Type}

section Report

variable (env : Env W) (p : Process W) (t : CStr)

/-- The message as a whole: a transition that is not found, or one that does not leave the current
state. -/
def failureText : List Char :=
  match findTransition env p (env.deref p.world t) with
  | none =>
    "Could not find transition \"".toList ++ env.deref p.world t ++ "\" at current state (".toList
      ++ fmtStr (p.state p.mach.currentState).name ++ ")".toList
  | some tr =>
    "Wtf?! Transition \"".toList ++ fmtStr (p.transition tr).name ++ "\" is inconsistent".toList

/-- The logger gets a format for which it needs no argument, as it gets none, and the error callback
the name of the call and a message that fits into the buffer with its final NUL. -/
def ReportsSafely (q : Process W) : Prop :=
  ∃ format rest, q.trace =
      p.trace ++ .attempt t (env.deref p.world t) :: .log format :: rest ∧
    arguments format = some 0 ∧
    (p.mach.errorCb ≠ 0 → ∃ msg rest', rest = .errorCb t msg :: rest' ∧
      (msg ++ ['\x00']).length ≤ 2048)

/-- In the names that the message shows, as far as they fit, the per cent signs stand in pairs. -/
def NamesPaired : Prop :=
  match findTransition env p (env.deref p.world t) with
  | none => paired ((env.deref p.world t).take 2020) = true ∧
      paired ((fmtStr (p.state p.mach.currentState).name).take
        (2000 - (env.deref p.world t).length)) = true
  | some tr => paired ((fmtStr (p.transition tr).name).take 2029) = true

end Report

section Text

variable {as ds : List Char}

/-- A text in front without a per cent sign changes nothing. -/
theorem paired_append_left : ∀ {as : List Char}, '%' ∉ as → paired (as ++ ds) = paired ds
  | [], _ => rfl
  | a :: as, h => by
    rw [List.cons_append, paired_cons fun ha => h (ha ▸ List.mem_cons_self)]
    exact paired_append_left fun ha => h (List.mem_cons_of_mem _ ha)

/-- A name behind such a text, and before a text that starts with another character, counts with the
part of it that fits. -/
theorem paired_take (has : '%' ∉ as) (hds : ds.head? ≠ some '%') (name : List Char) (n : ℕ) :
    paired ((as ++ (name ++ ds)).take n) =
      (paired (name.take (n - as.length)) &&
        paired (ds.take (n - as.length - name.length))) := by
  have hhead : ∀ k, (ds.take k).head? ≠ some '%' := by
    intro k
    rcases k with _ | k
    · simp
    · rcases ds with _ | ⟨d, ds⟩
      · simp
      · exact hds
  rw [List.take_append, List.take_append, paired_append_left fun h => has (List.mem_of_mem_take h),
    paired_append (hhead _)]

/-- What stands behind the last name. -/
theorem paired_take_end {es : List Char} (has : '%' ∉ as) (hes : '%' ∉ es) (name : List Char)
    (n : ℕ) : paired ((as ++ (name ++ es)).take n) = paired (name.take (n - as.length)) := by
  have hhead : es.head? ≠ some '%' := fun h => hes (List.mem_of_mem_head? h)
  rw [paired_take has hhead, paired_of_not_mem fun h => hes (List.mem_of_mem_take h), Bool.and_true]

variable (env : Env W) (p : Process W) (t : CStr)

/-- What the logger is handed. -/
def failureMsg : List Char := (snprintf 2048 (failureText env p t)).1

theorem failureMsg_fits : (failureMsg env p t ++ ['\x00']).length ≤ 2048 := by
  simp only [failureMsg, snprintf, List.length_append, List.length_take, List.length_singleton]
  omega

theorem paired_failureMsg : paired (failureMsg env p t) = true ↔ NamesPaired env p t := by
  unfold failureMsg failureText NamesPaired snprintf
  rcases findTransition env p (env.deref p.world t) with _ | tr
  · have hlen : "Could not find transition \"".toList.length = 27 ∧
        "\" at current state (".toList.length = 20 := by decide
    have hfit : ∀ n, 2048 - 1 - 27 - n - 20 = 2000 - n := by omega
    simp only [List.append_assoc]
    rw [paired_take (by decide) (by simp), paired_take_end (by decide) (by decide), hlen.1, hlen.2,
      hfit, Bool.and_eq_true]
  · have hlen : "Wtf?! Transition \"".toList.length = 18 := by decide
    simp only [List.append_assoc]
    rw [paired_take_end (by decide) (by decide), hlen]

end Text

section Call

variable {env : Env W} {run : Process W → CStr → Process W × Option Bool} {p q : Process W}
  {t : CStr}

/-- A call that fails past its guards has logged its message, and ends in the tail of the
function. -/
theorem transitionRun_failed (h : transitionRun env run p t = (q, some false)) :
    transitionFail env run (((p.log (.attempt t (env.deref p.world t))).share
      (env.deref p.world t)).log (.log (failureMsg env p t))) t (env.deref p.world t)
        (failureMsg env p t) = (q, some false) := by
  unfold transitionRun at h
  unfold failureMsg failureText
  simp only [findTransition_log_share] at h
  rcases hf : findTransition env p (env.deref p.world t) with _ | tr <;> rw [hf] at h
  · exact h
  · by_cases hfrom : (p.transition tr).fromState = p.mach.currentState
    · simp only [] at h
      rw [if_neg (by exact not_not.2 hfrom)] at h
      -- a transition that is performed is not a failure
      split at h
      · cases h
      · split at h <;> cases h
    · simp only [] at h
      rw [if_pos (by exact hfrom)] at h
      exact h

/-- The tail hands the message over where there is an error callback. -/
theorem transitionFail_trace (hr : Grows run) {shr : Stringshare} {msg : List Char}
    {b : Option Bool} (h : transitionFail env run p t shr msg = (q, b)) :
    ∃ rest, q.trace = p.trace ++ rest ∧
      (p.mach.errorCb ≠ 0 → ∃ rest', rest = .errorCb t msg :: rest') := by
  unfold transitionFail at h
  split_ifs at h with he
  · obtain ⟨rfl, -⟩ := Prod.mk.inj h
    exact ⟨[], (List.append_nil _).symm, fun hne => absurd he hne⟩
  · have hgrows := runProg_grows env hr
      (env.errorCallback (p.log (.errorCb t msg)).mach.errorCb t msg (p.log (.errorCb t msg)))
      (p.log (.errorCb t msg))
    have hq : (p.log (.errorCb t msg)).trace <+: q.trace := by
      simp only [] at h
      split at h <;> rename_i hrun <;> rw [hrun] at hgrows <;>
        obtain ⟨rfl, -⟩ := Prod.mk.inj h <;> exact hgrows
    obtain ⟨rest', hrest'⟩ := hq
    exact ⟨.errorCb t msg :: rest', by rw [← hrest']; exact List.append_assoc _ _ _,
      fun _ => ⟨rest', rfl⟩⟩

/-- What a failed call adds to the trace, first of all. -/
theorem transitionDo_failed (hl : p.mach.locked = true) (hc : p.mach.inCb = cbUnlocked)
    (ht : t ≠ 0) {fuel : ℕ} (h : machineTransitionDo env fuel p t = (q, some false)) :
    ∃ rest, q.trace = p.trace ++ .attempt t (env.deref p.world t) ::
        .log (failureMsg env p t) :: rest ∧
      (p.mach.errorCb ≠ 0 → ∃ rest', rest = .errorCb t (failureMsg env p t) :: rest') := by
  rcases fuel with _ | fuel
  · rw [machineTransitionDo, transitionEnter_run hl hc ht] at h
    cases h
  · rw [machineTransitionDo, transitionEnter_run hl hc ht] at h
    obtain ⟨rest, htrace, hcb⟩ :=
      transitionFail_trace (transitionDo_grows env fuel) (transitionRun_failed h)
    refine ⟨rest, ?_, hcb⟩
    rw [htrace]
    simp only [Process.log, Process.share, List.append_assoc, List.cons_append, List.nil_append]

/-- The report is safe when the message is a format without arguments. -/
theorem reportsSafely_iff_paired (hl : p.mach.locked = true) (hc : p.mach.inCb = cbUnlocked)
    (ht : t ≠ 0) {fuel : ℕ} (h : machineTransitionDo env fuel p t = (q, some false)) :
    ReportsSafely env p t q ↔ paired (failureMsg env p t) = true := by
  obtain ⟨rest, htrace, hcb⟩ := transitionDo_failed hl hc ht h
  rw [← arguments_eq_zero_iff]
  constructor
  · rintro ⟨format, rest', htrace', hargs, -⟩
    have heq := List.append_cancel_left (htrace.symm.trans htrace')
    simp only [List.cons.injEq, true_and, Event.log.injEq] at heq
    rw [heq.1]
    exact hargs
  · intro hargs
    refine ⟨failureMsg env p t, rest, htrace, hargs, fun hne => ?_⟩
    obtain ⟨rest', hrest'⟩ := hcb hne
    exact ⟨failureMsg env p t, rest', hrest', failureMsg_fits env p t⟩

/-- A failed call reports safely exactly when, in the names that its message shows and as far as
they fit, the per cent signs stand in pairs. -/
theorem reportsSafely_iff (hl : p.mach.locked = true) (hc : p.mach.inCb = cbUnlocked) (ht : t ≠ 0)
    {fuel : ℕ} (h : machineTransitionDo env fuel p t = (q, some false)) :
    ReportsSafely env p t q ↔ NamesPaired env p t := by
  rw [reportsSafely_iff_paired hl hc ht h, paired_failureMsg]

end Call

section Names

/-- A caller with one string to ask for, and an error callback. -/
def asking (name : Stringshare) : Env Unit := { forwarding with deref := fun _ _ => name }

def askedProcess : Process Unit :=
  { forwardingProcess with mach := { forwardingProcess.mach with errorCb := 9 } }

/-- A transition that the state does not have. -/
theorem unknown_reported : ∃ q,
    machineTransitionDo (asking "100%% c".toList) 1 askedProcess 20 = (q, some false) ∧
      ReportsSafely (asking "100%% c".toList) askedProcess 20 q := by
  have hfail : (machineTransitionDo (asking "100%% c".toList) 1 askedProcess 20).2 = some false := by
    decide
  refine ⟨_, Prod.ext rfl hfail, ?_⟩
  exact (reportsSafely_iff rfl rfl (by decide) (Prod.ext rfl hfail)).2
    ((paired_failureMsg _ _ _).1 (by decide))

/-- A name that asks the logger for a string it is not given. -/
theorem percent_not_reported : ∃ q,
    machineTransitionDo (asking "%s".toList) 1 askedProcess 20 = (q, some false) ∧
      arguments (failureMsg (asking "%s".toList) askedProcess 20) = some 1 ∧
        ¬ ReportsSafely (asking "%s".toList) askedProcess 20 q := by
  have hfail : (machineTransitionDo (asking "%s".toList) 1 askedProcess 20).2 = some false := by
    decide
  refine ⟨_, Prod.ext rfl hfail, by decide, fun h => ?_⟩
  have hpaired := (reportsSafely_iff_paired rfl rfl (by decide) (Prod.ext rfl hfail)).1 h
  exact absurd hpaired (by decide)

end Names

end Estate
