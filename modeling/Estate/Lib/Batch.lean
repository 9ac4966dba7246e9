import Mathlib.Data.List.Basic

/-!
# A batch of writes

A list of steps that may fail, each of them writing one place of its own. Where the places are
distinct, a batch that ends has made every write, and has touched nothing else (`Writes.batch`).
-/

namespace Estate.Lib

variable {ι σ α β : Type*}

/-- A property that every step keeps is kept by the batch. -/
theorem foldlM_inv {step : σ → ι → Option σ} {inv : σ → Prop}
    (h : ∀ s i s', inv s → step s i = some s' → inv s') :
    ∀ {is : List ι} {s s' : σ}, inv s → is.foldlM step s = some s' → inv s'
  | [], s, s', hs, hrun => by
    simp only [List.foldlM_nil, Option.pure_def, Option.some.injEq] at hrun
    exact hrun ▸ hs
  | i :: is, s, s', hs, hrun => by
    obtain ⟨s₁, hstep, hrest⟩ := Option.bind_eq_some_iff.1 ((List.foldlM_cons).symm.trans hrun)
    exact foldlM_inv h (h _ _ _ hs hstep) hrest

/-- A quantity that every step raises by the same amount. -/
theorem foldlM_count {step : σ → ι → Option σ} {μ : σ → ℕ} {d : ℕ}
    (h : ∀ s i s', step s i = some s' → μ s' = μ s + d) :
    ∀ {is : List ι} {s s' : σ}, is.foldlM step s = some s' → μ s' = μ s + is.length * d
  | [], s, s', hrun => by
    simp only [List.foldlM_nil, Option.pure_def, Option.some.injEq] at hrun
    simp [hrun]
  | i :: is, s, s', hrun => by
    obtain ⟨s₁, hstep, hrest⟩ := Option.bind_eq_some_iff.1 ((List.foldlM_cons).symm.trans hrun)
    rw [foldlM_count h hrest, h _ _ _ hstep, List.length_cons, Nat.succ_mul]
    omega

/-- Steps that each go through, given what is still to come, go through together. -/
theorem foldlM_progress {step : σ → ι → Option σ} {inv : List ι → σ → Prop}
    (h : ∀ i is s, inv (i :: is) s → ∃ s', step s i = some s' ∧ inv is s') :
    ∀ {is : List ι} {s : σ}, inv is s → ∃ s', is.foldlM step s = some s' ∧ inv [] s'
  | [], s, hs => ⟨s, rfl, hs⟩
  | i :: is, s, hs => by
    obtain ⟨s₁, hstep, hs₁⟩ := h i is s hs
    obtain ⟨s', hrun, hs'⟩ := foldlM_progress h hs₁
    exact ⟨s', by rw [List.foldlM_cons, hstep]; exact hrun, hs'⟩

/-- Wherever the invariant holds, a step keeps it, leaves its own place as it should be, and the
other places as they were. -/
structure Writes (step : σ → ι → Option σ) (inv : σ → Prop) (read : σ → α → β) (place : ι → α)
    (post : ι → β → Prop) : Prop where
  keep : ∀ s i s', inv s → step s i = some s' → inv s'
  write : ∀ s i s', inv s → step s i = some s' → post i (read s' (place i))
  frame : ∀ s i s', inv s → step s i = some s' → ∀ a, a ≠ place i → read s' a = read s a

variable {step : σ → ι → Option σ} {inv : σ → Prop} {read : σ → α → β} {place : ι → α}
  {post : ι → β → Prop}

theorem Writes.batch (h : Writes step inv read place post) :
    ∀ {is : List ι} {s s' : σ}, (is.map place).Nodup → inv s → is.foldlM step s = some s' →
      inv s' ∧ (∀ i ∈ is, post i (read s' (place i))) ∧
        ∀ a, a ∉ is.map place → read s' a = read s a
  | [], s, s', _, hs, hrun => by
    simp only [List.foldlM_nil, Option.pure_def, Option.some.injEq] at hrun
    subst hrun
    exact ⟨hs, by simp, fun _ _ => rfl⟩
  | i :: is, s, s', hd, hs, hrun => by
    obtain ⟨s₁, hstep, hrest⟩ := Option.bind_eq_some_iff.1 ((List.foldlM_cons).symm.trans hrun)
    obtain ⟨hi, hd⟩ := List.nodup_cons.1 hd
    obtain ⟨hinv, hpost, hframe⟩ := h.batch hd (h.keep _ _ _ hs hstep) hrest
    refine ⟨hinv, ?_, ?_⟩
    · intro j hj
      rcases List.mem_cons.1 hj with rfl | hj
      · rw [hframe _ hi]
        exact h.write _ _ _ hs hstep
      · exact hpost j hj
    · intro a ha
      obtain ⟨hai, ha⟩ := not_or.1 (mt List.mem_cons.2 ha)
      rw [hframe a ha, h.frame _ _ _ hs hstep a hai]

/-- Where each step writes a counter at its own place and raises it, the places of a batch hold the
values of the counter, one after the other. -/
theorem foldlM_places (read : σ → α → ℕ) (μ : σ → ℕ) {d : ℕ}
    (hcount : ∀ s i s', step s i = some s' → μ s' = μ s + d)
    (hwrite : ∀ s i s', step s i = some s' → read s' (place i) = μ s)
    (hframe : ∀ s i s', step s i = some s' → ∀ a, a ≠ place i → read s' a = read s a) :
    ∀ {is : List ι} {s s' : σ}, (is.map place).Nodup → is.foldlM step s = some s' →
      is.map (fun i => read s' (place i)) = (List.range is.length).map fun j => μ s + j * d
  | [], _, _, _, _ => rfl
  | i :: is, s, s', hd, hrun => by
    obtain ⟨s₁, hstep, hrest⟩ := Option.bind_eq_some_iff.1 ((List.foldlM_cons).symm.trans hrun)
    obtain ⟨hi, hd⟩ := List.nodup_cons.1 hd
    have hwrites : Writes step (fun _ => True) read place fun _ _ => True :=
      ⟨fun _ _ _ _ _ => trivial, fun _ _ _ _ _ => trivial, fun s i s' _ => hframe s i s'⟩
    have hhead : read s' (place i) = μ s :=
      ((hwrites.batch hd trivial hrest).2.2 _ hi).trans (hwrite _ _ _ hstep)
    rw [List.map_cons, foldlM_places read μ hcount hwrite hframe hd hrest, hhead,
      hcount _ _ _ hstep, List.length_cons, List.range_succ_eq_map, List.map_cons, List.map_map,
      Nat.zero_mul, Nat.add_zero]
    refine congrArg _ (List.map_congr_left fun j _ => ?_)
    rw [Function.comp_apply, Nat.succ_mul, Nat.add_assoc, Nat.add_comm d]

end Estate.Lib
