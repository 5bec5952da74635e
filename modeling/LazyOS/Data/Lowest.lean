import Mathlib.Data.Nat.Nth
import Mathlib.Tactic

namespace LazyOS.Data

/-! The lowest numbers with a property, taken one after another. -/

section

variable (p : Nat → Prop) [DecidablePred p]

/-- `number` is among those that come at places `first`, …, `stop - 1` when the
numbers with property `p` are listed upwards. -/
def Placed (first stop number : Nat) : Prop :=
  p number ∧ first ≤ Nat.count p number ∧ Nat.count p number < stop

variable {p}

theorem not_placed_empty (place number : Nat) : ¬ Placed p place place number := by
  rintro ⟨-, lower, upper⟩
  omega

theorem nth_of_lt_count {place bound : Nat} (some : place < Nat.count p bound) :
    Nat.nth p place < bound ∧ p (Nat.nth p place) ∧
      Nat.count p (Nat.nth p place) = place := by
  have few : ∀ finite : (Set.ofPred p).Finite, place < finite.toFinset.card :=
    fun finite => some.trans_le (Nat.count_le_card finite bound)
  exact ⟨Nat.nth_lt_of_lt_count some, Nat.nth_mem place few, Nat.count_nth few⟩

theorem count_of_least {stop number : Nat} (holds : p number)
    (rest : ¬ Placed p 0 stop number)
    (below : ∀ lower < number, p lower → Placed p 0 stop lower) :
    Nat.count p number = stop := by
  have atLeast : stop ≤ Nat.count p number := by
    by_contra less
    exact rest ⟨holds, Nat.zero_le _, by omega⟩
  by_contra different
  obtain ⟨less, property, place⟩ :=
    nth_of_lt_count (show stop < Nat.count p number by omega)
  have placed := (below _ less property).2.2
  omega

theorem nth_of_count {place number : Nat} (holds : p number)
    (counted : Nat.count p number = place) : Nat.nth p place = number := by
  rw [← counted]
  exact Nat.nth_count holds

theorem placed_succ_iff {first stop number : Nat} (holds : p number)
    (counted : Nat.count p number = stop) (ordered : first ≤ stop) (other : Nat) :
    Placed p first (stop + 1) other ↔ Placed p first stop other ∨ other = number := by
  constructor
  · rintro ⟨property, lower, upper⟩
    by_cases last : Nat.count p other = stop
    · exact .inr (Nat.count_injective property holds (last.trans counted.symm))
    · exact .inl ⟨property, lower, by omega⟩
  · rintro (⟨property, lower, upper⟩ | rfl)
    · exact ⟨property, lower, by omega⟩
    · exact ⟨holds, by omega, by omega⟩

theorem placed_pred_iff {first stop number : Nat} (holds : p number)
    (counted : Nat.count p number = first) (other : Nat) :
    Placed p (first + 1) stop other ↔ Placed p first stop other ∧ other ≠ number := by
  constructor
  · rintro ⟨property, lower, upper⟩
    refine ⟨⟨property, by omega, upper⟩, ?_⟩
    rintro rfl
    omega
  · rintro ⟨⟨property, lower, upper⟩, different⟩
    have later : Nat.count p other ≠ first := fun same =>
      different (Nat.count_injective property holds (same.trans counted.symm))
    exact ⟨property, by omega, upper⟩

end

theorem find?_finRange {count : Nat} {test : Fin count → Bool} {found : Fin count} :
    (List.finRange count).find? test = some found ↔
      test found = true ∧ ∀ earlier < found, test earlier = false := by
  rw [List.find?_eq_some_iff_getElem]
  refine and_congr_right fun _ => ⟨?_, fun earlier => ?_⟩
  · rintro ⟨i, bound, rfl, before⟩ earlier less
    rw [List.getElem_finRange] at less
    have tested := before earlier (by simpa [Fin.lt_def] using less)
    rw [List.getElem_finRange] at tested
    simpa using tested
  · refine ⟨found, by simp, by simp, fun j less => ?_⟩
    rw [List.getElem_finRange]
    simpa using earlier _ (by simpa [Fin.lt_def] using less)

end LazyOS.Data
