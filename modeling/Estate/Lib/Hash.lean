import Mathlib.Data.List.AList

/-!
# Replacing entries of association lists

What `AList.replace` does to a lookup, and lookups told apart by membership of an entry.
-/

namespace Estate.Lib

variable {κ : Type*} {β : Type*} [DecidableEq κ]

theorem dlookup_kreplace_self {a : κ} {b : β} :
    ∀ {l : List (Σ _ : κ, β)}, a ∈ l.keys → (l.kreplace a b).dlookup a = some b
  | [], h => by simp at h
  | ⟨a', b'⟩ :: l, h => by
    by_cases he : a = a'
    · subst he
      rw [List.kreplace, List.lookmap_cons_some _ _ (b := ⟨a, b⟩) (by simp)]
      simp
    · rw [List.kreplace, List.lookmap_cons_none _ _ (by simp [he]),
        List.dlookup_cons_ne _ (⟨a', b'⟩ : Σ _ : κ, β) he]
      exact dlookup_kreplace_self (by simpa [he] using h)

theorem dlookup_kreplace_ne {a c : κ} {b : β} (hc : c ≠ a) :
    ∀ {l : List (Σ _ : κ, β)}, (l.kreplace a b).dlookup c = l.dlookup c
  | [] => rfl
  | ⟨a', b'⟩ :: l => by
    by_cases he : a = a'
    · subst he
      rw [List.kreplace, List.lookmap_cons_some _ _ (b := ⟨a, b⟩) (by simp),
        List.dlookup_cons_ne _ (⟨a, b⟩ : Σ _ : κ, β) hc,
        List.dlookup_cons_ne _ (⟨a, b'⟩ : Σ _ : κ, β) hc]
    · rw [List.kreplace, List.lookmap_cons_none _ _ (by simp [he])]
      by_cases hca : c = a'
      · subst hca
        simp
      · rw [List.dlookup_cons_ne _ (⟨a', b'⟩ : Σ _ : κ, β) hca,
          List.dlookup_cons_ne _ (⟨a', b'⟩ : Σ _ : κ, β) hca]
        exact dlookup_kreplace_ne hc

theorem kreplace_kreplace {a : κ} {b b' : β} :
    ∀ {l : List (Σ _ : κ, β)}, (l.kreplace a b).kreplace a b' = l.kreplace a b'
  | [] => rfl
  | ⟨a', c⟩ :: l => by
    unfold List.kreplace
    by_cases he : a = a'
    · subst he
      rw [List.lookmap_cons_some _ _ (b := ⟨a, b⟩) (by simp),
        List.lookmap_cons_some _ _ (b := ⟨a, b'⟩) (by simp),
        List.lookmap_cons_some _ _ (b := ⟨a, b'⟩) (by simp)]
    · rw [List.lookmap_cons_none _ _ (by simp [he]), List.lookmap_cons_none _ _ (by simp [he]),
        List.lookmap_cons_none _ _ (by simp [he])]
      exact congrArg _ kreplace_kreplace

variable {s : AList fun _ : κ => β}

theorem replace_replace {a : κ} {b b' : β} : (s.replace a b).replace a b' = s.replace a b' :=
  AList.ext kreplace_kreplace

theorem replace_insert {a : κ} {b b' : β} : (s.insert a b).replace a b' = s.insert a b' := by
  refine AList.ext ?_
  show (s.insert a b).entries.kreplace a b' = _
  rw [AList.entries_insert, AList.entries_insert, List.kreplace,
    List.lookmap_cons_some _ _ (b := ⟨a, b'⟩) (by simp)]

theorem lookup_replace_self {a : κ} {b : β} (h : a ∈ s) : (s.replace a b).lookup a = some b :=
  dlookup_kreplace_self h

theorem lookup_replace_ne {a c : κ} {b : β} (h : c ≠ a) :
    (s.replace a b).lookup c = s.lookup c :=
  dlookup_kreplace_ne h

theorem mem_entries_iff {a : κ} {b : β} : ⟨a, b⟩ ∈ s.entries ↔ s.lookup a = some b :=
  (AList.mem_lookup_iff (s := s)).symm

theorem replace_self {a : κ} {b : β} (h : s.lookup a = some b) : s.replace a b = s :=
  AList.ext (List.kreplace_self s.nodupKeys (mem_entries_iff.2 h))

/-- A replaced value is exchanged for one that is found, and the others stay. -/
theorem exists_perm_kreplace {a : κ} {b : β} :
    ∀ {l : List (Σ _ : κ, β)}, l.dlookup a = some b → ∃ rest : List β,
      (l.map Sigma.snd).Perm (b :: rest) ∧
        ∀ b', ((l.kreplace a b').map Sigma.snd).Perm (b' :: rest)
  | [], h => by simp at h
  | ⟨a', c⟩ :: l, h => by
    unfold List.kreplace
    by_cases he : a = a'
    · subst he
      obtain rfl : c = b := by simpa using h
      refine ⟨l.map Sigma.snd, List.Perm.refl _, fun b' => ?_⟩
      rw [List.lookmap_cons_some _ _ (b := ⟨a, b'⟩) (by simp)]
      exact List.Perm.refl _
    · rw [List.dlookup_cons_ne _ (⟨a', c⟩ : Σ _ : κ, β) he] at h
      obtain ⟨rest, hl, hr⟩ := exists_perm_kreplace h
      refine ⟨c :: rest, (hl.cons c).trans (.swap _ _ _), fun b' => ?_⟩
      rw [List.lookmap_cons_none _ _ (by simp [he])]
      exact ((hr b').cons c).trans (.swap _ _ _)

theorem exists_perm_replace {a : κ} {b : β} (h : s.lookup a = some b) : ∃ rest : List β,
    (s.entries.map Sigma.snd).Perm (b :: rest) ∧
      ∀ b', ((s.replace a b').entries.map Sigma.snd).Perm (b' :: rest) :=
  exists_perm_kreplace h

theorem mem_of_lookup {a : κ} {b : β} (h : s.lookup a = some b) : a ∈ s :=
  AList.lookup_isSome.1 (by rw [h]; rfl)

end Estate.Lib
