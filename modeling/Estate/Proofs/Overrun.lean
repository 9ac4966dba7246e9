import Estate.Proofs.Rendering
import Estate.Proofs.Verdict

/-!
# The buffer of duplicate detection

The parser keeps each name within its own buffer of 2048 bytes, and the check prints two of them
into one buffer of that size. `snprintf` returns the length of the whole text, so the key is read
past the text when the two names are long together, and then says less than the names do.
-/

namespace Estate.Cc

section Keys

variable {t u : Transit}

/-- What a longer text says behind its first 2047 characters is not in the key. -/
theorem transitKey_congr (beyond : ℕ → Char) (hlen : t.keyText.length = u.keyText.length)
    (htake : t.keyText.take 2047 = u.keyText.take 2047) :
    transitKey beyond t = transitKey beyond u := by
  rw [transitKey_eq, transitKey_eq, hlen, htake]

/-- No identifier is what a NULL pointer prints as. -/
theorem Ident.ne_null {x : List Char} (h : Ident x) : x ≠ "(null)".toList := by
  rintro rfl
  exact h.spelled.not_mem (c := '(') (by decide) (by decide)

theorem fmtStr_inj {x y : Option Stringshare} (hx : ∀ s, x = some s → Ident s)
    (hy : ∀ s, y = some s → Ident s) (h : fmtStr x = fmtStr y) : x = y := by
  rcases x with _ | x <;> rcases y with _ | y
  · rfl
  · exact absurd h.symm (hy y rfl).ne_null
  · exact absurd h (hx x rfl).ne_null
  · exact congrArg some h

theorem colon_not_mem_fmtStr {x : Option Stringshare} (hx : ∀ s, x = some s → Ident s) :
    ':' ∉ fmtStr x := by
  rcases x with _ | x
  · decide
  · exact (hx x rfl).spelled.not_mem (by decide)

/-- The whole text tells the ends. -/
theorem ends_of_keyText (ht : t.Worded) (hu : u.Worded) (h : t.keyText = u.keyText) :
    t.fromState = u.fromState ∧ t.toState = u.toState := by
  obtain ⟨hfrom, hto⟩ := append_colon_inj (colon_not_mem_fmtStr ht.fromState)
    (colon_not_mem_fmtStr hu.fromState) h
  exact ⟨fmtStr_inj ht.fromState hu.fromState hfrom, fmtStr_inj ht.toState hu.toState hto⟩

end Keys

section Parsed

variable {src : List Char} {f g : Fsm} {t u : Transit}

theorem worded_of_parsed (hf : f ∈ parserParse src) (ht : t ∈ f.transits) : t.Worded :=
  mem_transits_of_lookup (parserParse_worded src f hf).transits t ht

/-- Duplicate detection is safe for two transitions of a file exactly when the names of the ends of
each have at most 2046 characters together. -/
theorem keySafe_iff (hf : f ∈ parserParse src) (hg : g ∈ parserParse src) (ht : t ∈ f.transits)
    (hu : u ∈ g.transits) : KeySafe t u ↔
      (fmtStr t.fromState).length + (fmtStr t.toState).length ≤ 2046 ∧
        (fmtStr u.fromState).length + (fmtStr u.toState).length ≤ 2046 := by
  have hshort : ∀ v : Transit, v.Stored ↔
      (fmtStr v.fromState).length + (fmtStr v.toState).length ≤ 2046 := by
    intro v
    rw [stored_iff, length_keyText]
    omega
  rw [← hshort, ← hshort]
  refine ⟨KeySafe.stored, fun hs => ⟨hs, fun beyond beyond' hkey => ?_⟩⟩
  rw [hs.1.key, hs.2.key] at hkey
  exact ends_of_keyText (worded_of_parsed hf ht) (worded_of_parsed hg hu) hkey

/-- Two transitions that leave one state. -/
def shortFile : List Char := "m \x7b transitions.model \x7b t: a > b; u: a -> c; \x7d \x7d".toList

theorem shortFile_keySafe : ∃ f ∈ parserParse shortFile, ∃ t ∈ f.transits, ∃ u ∈ f.transits,
    t.toState ≠ u.toState ∧ KeySafe t u := by
  have hread : ∃ f ∈ parserParse shortFile, ∃ t ∈ f.transits, ∃ u ∈ f.transits,
      t.toState ≠ u.toState ∧ (fmtStr t.fromState).length + (fmtStr t.toState).length ≤ 2046 ∧
        (fmtStr u.fromState).length + (fmtStr u.toState).length ≤ 2046 := by
    decide +kernel
  obtain ⟨f, hf, t, ht, u, hu, hne, hshort⟩ := hread
  exact ⟨f, hf, t, ht, u, hu, hne, (keySafe_iff hf hf ht hu).2 hshort⟩

end Parsed

/-! ## A name of the full length -/

section Long

/-- The longest name that the parser takes. -/
def longName : Stringshare := List.replicate 2047 'a'

def toB : TransitDescr where
  name := "t".toList
  origin := longName
  target := "b".toList

def toC : TransitDescr where
  name := "u".toList
  origin := longName
  target := "c".toList

/-- Two transitions leave the state with the long name. -/
def longFork : Descr where
  name := "m".toList
  transits := [toB, toC]

theorem length_longName : longName.length = 2047 := List.length_replicate

theorem longName_identifier : Identifier longName where
  nonempty := List.ne_nil_of_length_pos (by rw [length_longName]; omega)
  length := length_longName.le
  chars := by
    intro c hc
    obtain rfl := List.eq_of_mem_replicate hc
    decide
  head := by
    intro c hc
    obtain rfl := List.eq_of_mem_replicate (List.mem_of_mem_head? hc)
    decide

theorem longFork_valid : longFork.Valid where
  name := by decide
  dataKeys := by simp [longFork]
  transits := by
    have hcb : ({} : Cb).Valid := ⟨by simp, by simp⟩
    have hb : toB.Valid := ⟨by decide, longName_identifier, by decide, hcb, by simp [toB]⟩
    have hc : toC.Valid := ⟨by decide, longName_identifier, by decide, hcb, by simp [toC]⟩
    simpa [longFork] using ⟨hb, hc⟩
  states := by simp [longFork]
  dataKeys_nodup := by simp [longFork]
  transits_nodup := by decide
  states_nodup := by simp [longFork]
  init := by simp [longFork]

def longLines : List (List Item) :=
  [[.token "t".toList .colon, .token longName .greater, .token "b".toList .semicolon],
    [.token "u".toList .colon, .token longName .greater, .token "c".toList .semicolon]]

def longItems : List Item :=
  block "m".toList ([] ++ (block "transitions".toList
    (block "model".toList longLines.flatten ++ [].flatten) ++ []))

theorem longFork_block : MachineBlock longFork longItems := by
  have hlines : List.Forall₂ Line longFork.transits longLines :=
    .cons (.intro (.inl rfl)) (.cons (.intro (.inl rfl)) .nil)
  exact .intro .omitted (.given hlines .nil (by simp) (by simp [longFork, toB, toC]) (by simp) .nil)
    .omitted

/-- The file with both of them. -/
def longFile : List Char := longItems.flatMap Item.print

theorem longFile_described : ∃ f, longFork.Describes f ∧ f ∈ parserParse longFile := by
  have h : List.Forall₂ Descr.Describes [longFork] (parserParse longFile) := by
    refine parserParse_layout (by simpa using longFork_valid) (.cons longFork_block .nil) ?_
    rw [List.flatten_singleton]
    exact layout_print longItems
  obtain ⟨f, fs, hf, -, hfs⟩ := List.forall₂_cons_left_iff.1 h
  exact ⟨f, hf, hfs ▸ List.mem_cons_self⟩

/-- Whatever the stack holds, the transitions to two different states get one key, and it is read
past what was stored. -/
theorem longFile_not_keySafe : ∃ f ∈ parserParse longFile, ∃ t ∈ f.transits, ∃ u ∈ f.transits,
    ¬ KeySafe t u ∧ t.toState ≠ u.toState ∧
      ∀ beyond : ℕ → Char, transitKey beyond t = transitKey beyond u := by
  obtain ⟨f, hd, hf⟩ := longFile_described
  have hmem : ∀ n t, f.transitions.lookup n = some t → t ∈ f.transits := fun n t hl =>
    List.mem_map.2 ⟨⟨n, t⟩, Lib.mem_entries_iff.2 hl, rfl⟩
  have hlen : toB.transit.keyText.length = 2049 ∧ toC.transit.keyText.length = 2049 := by
    simp [length_keyText, TransitDescr.transit, TransitDescr.bare, toB, toC, fmtStr,
      length_longName]
  -- the name fills the buffer
  have htake : toB.transit.keyText.take 2047 = toC.transit.keyText.take 2047 :=
    (List.take_left' length_longName).trans (List.take_left' length_longName).symm
  refine ⟨f, hf, toB.transit, hmem "t".toList _ ?_, toC.transit, hmem "u".toList _ ?_,
    fun h => ?_, by decide, fun beyond => ?_⟩
  · rw [hd.transitions]
    rfl
  · rw [hd.transitions]
    rfl
  · have := stored_iff.1 h.stored.1
    omega
  · exact transitKey_congr beyond (hlen.1.trans hlen.2.symm) htake

end Long

end Estate.Cc
