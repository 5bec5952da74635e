import Mathlib.Tactic

namespace LazyOS.Data

universe u

/-! The cells of an array that count as shown, in the order of their positions, and what
writing behind the last of them and clearing it does. -/

variable {Value : Type u} (Shown : Value → Prop) [DecidablePred Shown]

def shownIn (cells : Nat → Value) (start stop : Nat) : List Value :=
  ((List.range' start (stop - start)).map cells).filter fun cell => Shown cell

variable {Shown} {cells other : Nat → Value} {start stop : Nat}

theorem mem_shownIn {cell : Value} :
    cell ∈ shownIn Shown cells start stop ↔
      ∃ k, start ≤ k ∧ k < stop ∧ cells k = cell ∧ Shown cell := by
  unfold shownIn
  simp only [List.mem_filter, List.mem_map, List.mem_range'_1, decide_eq_true_eq]
  constructor
  · rintro ⟨⟨k, ⟨lower, upper⟩, same⟩, shown⟩
    exact ⟨k, lower, by omega, same, shown⟩
  · rintro ⟨k, lower, upper, same, shown⟩
    exact ⟨⟨k, ⟨lower, by omega⟩, same⟩, shown⟩

theorem shownIn_eq_nil :
    shownIn Shown cells start stop = [] ↔
      ∀ k, start ≤ k → k < stop → ¬ Shown (cells k) := by
  rw [List.eq_nil_iff_forall_not_mem]
  constructor
  · intro none k lower upper shown
    exact none _ (mem_shownIn.mpr ⟨k, lower, upper, rfl, shown⟩)
  · rintro none cell member
    obtain ⟨k, lower, upper, rfl, shown⟩ := mem_shownIn.mp member
    exact none k lower upper shown

theorem shownIn_congr (agree : ∀ k, start ≤ k → k < stop → cells k = other k) :
    shownIn Shown cells start stop = shownIn Shown other start stop := by
  unfold shownIn
  congr 1
  refine List.map_congr_left fun k member => ?_
  obtain ⟨lower, upper⟩ := List.mem_range'_1.mp member
  exact agree k lower (by omega)

theorem shownIn_split {middle : Nat} (lower : start ≤ middle) (upper : middle ≤ stop) :
    shownIn Shown cells start stop =
      shownIn Shown cells start middle ++ shownIn Shown cells middle stop := by
  unfold shownIn
  rw [← List.filter_append, ← List.map_append]
  congr 2
  have sizes : stop - start = (middle - start) + (stop - middle) := by omega
  have next : middle = start + 1 * (middle - start) := by omega
  rw [sizes, ← List.range'_append, ← next]

theorem shownIn_singleton {here : Nat} (shown : Shown (cells here)) :
    shownIn Shown cells here (here + 1) = [cells here] := by
  unfold shownIn
  rw [Nat.add_sub_cancel_left, List.range'_one, List.map_singleton,
    List.filter_cons_of_pos (by simpa using shown), List.filter_nil]

theorem shownIn_concat {here : Nat} (lower : start ≤ here) (upper : here < stop)
    (shown : Shown (cells here))
    (behind : ∀ k, here < k → k < stop → ¬ Shown (cells k)) :
    shownIn Shown cells start stop = shownIn Shown cells start here ++ [cells here] := by
  have rest : shownIn Shown cells (here + 1) stop = [] :=
    shownIn_eq_nil.mpr fun k after bound => behind k after bound
  rw [shownIn_split lower upper.le, shownIn_split (Nat.le_succ here) upper,
    shownIn_singleton shown, rest, List.append_nil]

theorem shownIn_of_unshown {here : Nat} (lower : start ≤ here) (upper : here ≤ stop)
    (behind : ∀ k, here ≤ k → k < stop → ¬ Shown (cells k)) :
    shownIn Shown cells start stop = shownIn Shown cells start here := by
  rw [shownIn_split lower upper, shownIn_eq_nil.mpr behind, List.append_nil]

theorem shownIn_update_before {here : Nat} (value : Value) :
    shownIn Shown (Function.update cells here value) start here =
      shownIn Shown cells start here :=
  shownIn_congr fun _ _ upper => Function.update_of_ne upper.ne _ _

theorem shownIn_write {here : Nat} (lower : start ≤ here) (upper : here < stop)
    (behind : ∀ k, here ≤ k → k < stop → ¬ Shown (cells k)) {value : Value}
    (shown : Shown value) :
    shownIn Shown (Function.update cells here value) start stop =
      shownIn Shown cells start stop ++ [value] := by
  have here' : Function.update cells here value here = value := Function.update_self ..
  rw [shownIn_concat lower upper (here'.symm ▸ shown) fun k after bound => by
      rw [Function.update_of_ne after.ne']
      exact behind k after.le bound,
    shownIn_update_before, here', shownIn_of_unshown lower upper.le behind]

theorem shownIn_erase {here : Nat} (lower : start ≤ here) (upper : here < stop)
    (shown : Shown (cells here))
    (behind : ∀ k, here < k → k < stop → ¬ Shown (cells k)) {value : Value}
    (hidden : ¬ Shown value) :
    shownIn Shown (Function.update cells here value) start stop =
      (shownIn Shown cells start stop).dropLast := by
  rw [shownIn_concat lower upper shown behind, List.dropLast_concat,
    shownIn_of_unshown lower upper.le fun k after bound => ?_, shownIn_update_before]
  rcases Nat.eq_or_lt_of_le after with rfl | beyond
  · rw [Function.update_self]
    exact hidden
  · rw [Function.update_of_ne beyond.ne']
    exact behind k beyond bound

end LazyOS.Data
