import LazyOS.Fs.Names

namespace LazyOS.Fs

open LazyOS.Data
open LazyOS.Disk

/-! Which file a name is taken for.  `comp_file_name` compares as many characters as
the name has, and `create_file` stores eight. -/

/-- The slot that a lookup by exact name would give. -/
structure FirstNamed (root : RootDir) (name : CString) (slot : Fin 224) : Prop where
  used : InUse (root slot)
  named : (root slot).name = fieldText name
  first : ∀ earlier < slot, InUse (root earlier) → (root earlier).name ≠ fieldText name

/-- The first slot that `comp_file_name` accepts, in use or not. -/
structure FirstMatch (root : RootDir) (name : CString) (slot : Fin 224) : Prop where
  accepted : compFileName (root slot).name name = true
  first : ∀ earlier < slot, compFileName (root earlier).name name = false

/-- Spaces stand behind the characters that are compared. -/
def PaddedFrom (stored : Fin 8 → Byte) (name : CString) : Prop :=
  ∀ k : Fin 8, strnlen name 8 ≤ k → stored k = 0x20

theorem findFile_iff_firstMatch {root : RootDir} {name : CString} {slot : Fin 224} :
    findFile root name = some slot ↔ FirstMatch root name slot := by
  rw [findFile_eq_some]
  exact ⟨fun found => ⟨found.1, found.2⟩, fun found => ⟨found.accepted, found.first⟩⟩

theorem eq_fieldText_iff (stored : Fin 8 → Byte) (name : CString) :
    stored = fieldText name ↔
      compFileName stored name = true ∧ PaddedFrom stored name := by
  constructor
  · rintro rfl
    refine ⟨compFileName_fieldText name, fun k past => ?_⟩
    unfold fieldText
    rw [if_neg (by omega)]
  · rintro ⟨accepted, padded⟩
    unfold compFileName at accepted
    simp only [decide_eq_true_eq] at accepted
    funext k
    unfold fieldText
    by_cases below : (k : Nat) < strnlen name 8
    · rw [if_pos ⟨ne_zero_of_lt_strnlen below, below⟩, accepted k below]
    · rw [if_neg (by omega), padded k (by omega)]

theorem FirstNamed.unique {root : RootDir} {name : CString} {left right : Fin 224}
    (first : FirstNamed root name left) (second : FirstNamed root name right) :
    left = right := by
  rcases lt_trichotomy left right with less | same | less
  · exact absurd first.named (second.first left less first.used)
  · exact same
  · exact absurd second.named (first.first right less second.used)

theorem FirstNamed.accepted {root : RootDir} {name : CString} {slot : Fin 224}
    (first : FirstNamed root name slot) : compFileName (root slot).name name = true :=
  ((eq_fieldText_iff _ _).mp first.named).1

def namedArgs (text : String) : CreateArgs :=
  { blankArgs 5 with nameT := literalString text }

end LazyOS.Fs
