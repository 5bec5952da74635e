import Mathlib.Logic.Equiv.Basic
import Mathlib.Order.Lattice

namespace LazyOS.Data

universe u

variable {Key : Type u} [LinearOrder Key]

/-! Keys in level order as a binary tree with its greatest key at the root, and the
two ways in which the order is repaired after it broke at one place. -/

def parentPlace (i : Nat) : Nat := (i - 1) / 2

theorem parentPlace_lt {i : Nat} (below : 0 < i) : parentPlace i < i := by
  unfold parentPlace
  omega

def HeapOrdered (key : Nat → Key) (count : Nat) : Prop :=
  ∀ i, 0 < i → i < count → key i ≤ key (parentPlace i)

/-- The order may be broken only between `place` and its parent. -/
structure BrokenAbove (key : Nat → Key) (count place : Nat) : Prop where
  others : ∀ i, 0 < i → i < count → i ≠ place → key i ≤ key (parentPlace i)
  around : 0 < place → ∀ i, 0 < i → i < count → parentPlace i = place →
    key i ≤ key (parentPlace place)

/-- The order may be broken only between `place` and its children. -/
structure BrokenBelow (key : Nat → Key) (count place : Nat) : Prop where
  others : ∀ i, 0 < i → i < count → parentPlace i ≠ place →
    key i ≤ key (parentPlace i)
  around : 0 < place → ∀ i, 0 < i → i < count → parentPlace i = place →
    key i ≤ key (parentPlace place)

variable {key : Nat → Key} {count place : Nat}

theorem HeapOrdered.le_root (ordered : HeapOrdered key count) :
    ∀ i, i < count → key i ≤ key 0 := by
  intro i
  induction i using Nat.strong_induction_on with
  | _ i ih =>
      intro inside
      cases i with
      | zero => exact le_refl _
      | succ i =>
          have smaller := parentPlace_lt (Nat.succ_pos i)
          calc key (i + 1) ≤ key (parentPlace (i + 1)) :=
                ordered _ (Nat.succ_pos i) inside
            _ ≤ key 0 := ih _ smaller (smaller.trans inside)

theorem HeapOrdered.congr {other : Nat → Key} (ordered : HeapOrdered key count)
    (same : ∀ i, i < count → other i = key i) : HeapOrdered other count := by
  intro i below inside
  rw [same i inside, same _ ((parentPlace_lt below).trans inside)]
  exact ordered i below inside

theorem BrokenAbove.heapOrdered (broken : BrokenAbove key count place)
    (fits : 0 < place → key place ≤ key (parentPlace place)) :
    HeapOrdered key count := by
  intro i below inside
  by_cases here : i = place
  · subst here
    exact fits below
  · exact broken.others i below inside here

theorem BrokenAbove.swap (broken : BrokenAbove key count place) (below : 0 < place)
    (inside : place < count) (greater : key (parentPlace place) < key place) :
    BrokenAbove (key ∘ Equiv.swap place (parentPlace place)) count
      (parentPlace place) := by
  have distinct : parentPlace place ≠ place := (parentPlace_lt below).ne
  have atPlace : (key ∘ Equiv.swap place (parentPlace place)) place =
      key (parentPlace place) := by
    simp
  have atParent : (key ∘ Equiv.swap place (parentPlace place)) (parentPlace place) =
      key place := by
    simp
  have elsewhere : ∀ i, i ≠ place → i ≠ parentPlace place →
      (key ∘ Equiv.swap place (parentPlace place)) i = key i := by
    intro i notPlace notParent
    rw [Function.comp_apply, Equiv.swap_apply_of_ne_of_ne notPlace notParent]
  constructor
  · intro i positive i_lt notParent
    by_cases here : i = place
    · subst here
      rw [atPlace, atParent]
      exact greater.le
    · rw [elsewhere i here notParent]
      have kept := broken.others i positive i_lt here
      by_cases child : parentPlace i = place
      · rw [child, atPlace]
        exact broken.around below i positive i_lt child
      · by_cases sibling : parentPlace i = parentPlace place
        · rw [sibling, atParent]
          exact (sibling ▸ kept).trans greater.le
        · rw [elsewhere _ child sibling]
          exact kept
  · intro positive i i_positive i_lt child
    have above := parentPlace_lt positive
    have lower := parentPlace_lt below
    have parent := broken.others _ positive (lower.trans inside) distinct
    rw [elsewhere _ (above.trans lower).ne above.ne]
    by_cases here : i = place
    · subst here
      rw [atPlace]
      exact parent
    · have notParent : i ≠ parentPlace place := by
        intro same
        rw [same] at child
        exact above.ne child
      rw [elsewhere i here notParent]
      exact (child ▸ broken.others i i_positive i_lt here).trans parent

theorem BrokenBelow.heapOrdered (broken : BrokenBelow key count place)
    (fits : ∀ i, 0 < i → i < count → parentPlace i = place → key i ≤ key place) :
    HeapOrdered key count := by
  intro i below inside
  by_cases child : parentPlace i = place
  · rw [child]
    exact fits i below inside child
  · exact broken.others i below inside child

theorem BrokenBelow.swap (broken : BrokenBelow key count place) {child : Nat}
    (positive : 0 < child) (inside : child < count) (below : parentPlace child = place)
    (greater : key place < key child)
    (greatest : ∀ i, 0 < i → i < count → parentPlace i = place → key i ≤ key child) :
    BrokenBelow (key ∘ Equiv.swap place child) count child := by
  have lower : place < child := below ▸ parentPlace_lt positive
  have atPlace : (key ∘ Equiv.swap place child) place = key child := by
    simp
  have atChild : (key ∘ Equiv.swap place child) child = key place := by
    simp
  have elsewhere : ∀ i, i ≠ place → i ≠ child →
      (key ∘ Equiv.swap place child) i = key i := by
    intro i notPlace notChild
    rw [Function.comp_apply, Equiv.swap_apply_of_ne_of_ne notPlace notChild]
  constructor
  · intro i i_positive i_lt notBelow
    by_cases here : i = child
    · subst here
      rw [atChild, below, atPlace]
      exact greater.le
    · by_cases top : i = place
      · subst top
        have upper := parentPlace_lt i_positive
        rw [atPlace, elsewhere _ upper.ne (upper.trans lower).ne]
        exact broken.around i_positive child positive inside below
      · rw [elsewhere i top here]
        by_cases sibling : parentPlace i = place
        · rw [sibling, atPlace]
          exact greatest i i_positive i_lt sibling
        · rw [elsewhere _ sibling notBelow]
          exact broken.others i i_positive i_lt sibling
  · intro _ i i_positive i_lt beneath
    have deeper : child < i := beneath ▸ parentPlace_lt i_positive
    rw [elsewhere i (lower.trans deeper).ne' deeper.ne', below, atPlace]
    have kept := broken.others i i_positive i_lt (by rw [beneath]; exact lower.ne')
    exact beneath ▸ kept

end LazyOS.Data
