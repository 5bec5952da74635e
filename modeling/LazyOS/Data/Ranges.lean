import Mathlib.Tactic

namespace LazyOS.Data

universe u

/-! Ledgers of half-open ranges: a list of owners, each holding one nonempty
range of cells, no two ranges sharing a cell. -/

structure Range where
  first : Nat
  length : Nat
deriving DecidableEq, Repr

namespace Range

def stop (range : Range) : Nat := range.first + range.length

def Contains (range : Range) (cell : Nat) : Prop :=
  range.first ≤ cell ∧ cell < range.stop

instance (range : Range) (cell : Nat) : Decidable (range.Contains cell) :=
  inferInstanceAs (Decidable (_ ∧ _))

def Disjoint (left right : Range) : Prop :=
  ∀ cell, left.Contains cell → ¬ right.Contains cell

theorem Disjoint.symm {left right : Range} (disjoint : left.Disjoint right) :
    right.Disjoint left :=
  fun cell inRight inLeft => disjoint cell inLeft inRight

theorem contains_iff {range : Range} {cell : Nat} :
    range.Contains cell ↔
      range.first ≤ cell ∧ cell < range.first + range.length := Iff.rfl

theorem contains_first {range : Range} (positive : 0 < range.length) :
    range.Contains range.first := by
  unfold Contains stop
  omega

end Range

structure Ledger {Owner : Type u} (extent : Owner → Range) (capacity : Nat) where
  owners : List Owner
  nonempty : ∀ owner ∈ owners, 0 < (extent owner).length
  inside : ∀ owner ∈ owners, (extent owner).stop ≤ capacity
  disjoint : owners.Pairwise fun left right =>
    (extent left).Disjoint (extent right)

namespace Ledger

variable {Owner : Type u} {extent : Owner → Range} {capacity : Nat}

def Covered (ledger : Ledger extent capacity) (cell : Nat) : Prop :=
  ∃ owner ∈ ledger.owners, (extent owner).Contains cell

def empty (extent : Owner → Range) (capacity : Nat) :
    Ledger extent capacity where
  owners := []
  nonempty := by simp
  inside := by simp
  disjoint := .nil

def reserve (ledger : Ledger extent capacity) (owner : Owner)
    (positive : 0 < (extent owner).length)
    (fits : (extent owner).stop ≤ capacity)
    (fresh : ∀ cell, (extent owner).Contains cell → ¬ ledger.Covered cell) :
    Ledger extent capacity where
  owners := owner :: ledger.owners
  nonempty := by
    intro candidate member
    rcases List.mem_cons.mp member with rfl | later
    · exact positive
    · exact ledger.nonempty candidate later
  inside := by
    intro candidate member
    rcases List.mem_cons.mp member with rfl | later
    · exact fits
    · exact ledger.inside candidate later
  disjoint := by
    refine List.pairwise_cons.mpr ⟨?_, ledger.disjoint⟩
    intro other member cell inNew inOther
    exact fresh cell inNew ⟨other, member, inOther⟩

def retain (ledger : Ledger extent capacity) (keep : Owner → Bool) :
    Ledger extent capacity where
  owners := ledger.owners.filter keep
  nonempty := fun owner member =>
    ledger.nonempty owner (List.mem_filter.mp member).1
  inside := fun owner member =>
    ledger.inside owner (List.mem_filter.mp member).1
  disjoint := ledger.disjoint.filter keep

theorem covered_reserve {ledger : Ledger extent capacity} {owner : Owner}
    {positive : 0 < (extent owner).length}
    {fits : (extent owner).stop ≤ capacity}
    {fresh : ∀ cell, (extent owner).Contains cell → ¬ ledger.Covered cell}
    (cell : Nat) :
    (ledger.reserve owner positive fits fresh).Covered cell ↔
      (extent owner).Contains cell ∨ ledger.Covered cell := by
  simp [Covered, reserve]

theorem extent_eq_of_common {ledger : Ledger extent capacity}
    {left right : Owner} (inLeft : left ∈ ledger.owners)
    (inRight : right ∈ ledger.owners) {cell : Nat}
    (leftCell : (extent left).Contains cell)
    (rightCell : (extent right).Contains cell) : left = right := by
  by_contra different
  have symmetric : Std.Symm fun first second =>
      (extent first).Disjoint (extent second) :=
    ⟨fun _ _ disjoint => disjoint.symm⟩
  have apart : (extent left).Disjoint (extent right) :=
    ledger.disjoint.forall inLeft inRight different
  exact apart cell leftCell rightCell

theorem eq_of_first {ledger : Ledger extent capacity} {left right : Owner}
    (inLeft : left ∈ ledger.owners) (inRight : right ∈ ledger.owners)
    (first : (extent left).first = (extent right).first) : left = right := by
  have leftCell := Range.contains_first (ledger.nonempty left inLeft)
  have rightCell := Range.contains_first (ledger.nonempty right inRight)
  rw [first] at leftCell
  exact extent_eq_of_common inLeft inRight leftCell rightCell

end Ledger

end LazyOS.Data
