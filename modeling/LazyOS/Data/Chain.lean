import Mathlib.Tactic

namespace LazyOS.Data

universe u v

variable {Cell : Type u} {Value : Type v}

/-! Chains threaded through a table: every cell holds the name of the next cell,
or the stop value. -/

inductive Chain (read : Cell → Value) (index : Value → Cell) (stop : Value) :
    Cell → List Cell → Prop
  | last {cell : Cell} (ends : read cell = stop) : Chain read index stop cell []
  | link {cell : Cell} {rest : List Cell} (goes : read cell ≠ stop)
      (tail : Chain read index stop (index (read cell)) rest) :
      Chain read index stop cell (index (read cell) :: rest)

namespace Chain

variable {read other : Cell → Value} {index : Value → Cell} {stop : Value}
variable {cell : Cell} {rest : List Cell}

theorem congr (chain : Chain read index stop cell rest)
    (agree : ∀ current ∈ cell :: rest, read current = other current) :
    Chain other index stop cell rest := by
  induction chain with
  | last ends =>
      exact .last ((agree _ (by simp)).symm.trans ends)
  | link goes tail ih =>
      rename_i current following
      have here : read current = other current := agree _ (by simp)
      rw [here] at goes ih ⊢
      exact .link goes (ih fun inner member => agree inner (by
        rw [here]
        exact List.mem_cons_of_mem _ member))

theorem next (chain : Chain read index stop cell rest) {i : Nat} {current following : Cell}
    (here : (cell :: rest)[i]? = some current) (after : rest[i]? = some following) :
    read current ≠ stop ∧ index (read current) = following := by
  induction chain generalizing i with
  | last ends => cases after
  | link goes tail ih =>
      cases i with
      | zero =>
          obtain rfl := Option.some.inj here
          exact ⟨goes, Option.some.inj after⟩
      | succ i => exact ih here after

theorem ends (chain : Chain read index stop cell rest) {last : Cell}
    (isLast : (cell :: rest).getLast? = some last) : read last = stop := by
  induction chain with
  | last ends =>
      obtain rfl := Option.some.inj isLast
      exact ends
  | link goes tail ih =>
      rw [List.getLast?_cons_cons] at isLast
      exact ih isLast

theorem unique {other : List Cell} (chain : Chain read index stop cell rest)
    (second : Chain read index stop cell other) : rest = other := by
  induction chain generalizing other with
  | last ends =>
      cases second with
      | last _ => rfl
      | link goes _ => exact absurd ends goes
  | link goes tail ih =>
      cases second with
      | last ends => exact absurd ends goes
      | link _ others => rw [ih others]

theorem from_member (chain : Chain read index stop cell rest) {current : Cell}
    (member : current ∈ cell :: rest) :
    ∃ tail, Chain read index stop current tail ∧ tail.length ≤ rest.length := by
  induction chain with
  | last ends =>
      obtain rfl := List.mem_singleton.mp member
      exact ⟨[], .last ends, le_rfl⟩
  | link goes tail ih =>
      rcases List.mem_cons.mp member with rfl | later
      · exact ⟨_, .link goes tail, le_rfl⟩
      · obtain ⟨others, found, shorter⟩ := ih later
        exact ⟨others, found, shorter.trans (Nat.le_succ _)⟩

theorem nodup (chain : Chain read index stop cell rest) : (cell :: rest).Nodup := by
  induction chain with
  | last ends => exact List.nodup_singleton _
  | link goes tail ih =>
      refine List.nodup_cons.mpr ⟨fun again => ?_, ih⟩
      obtain ⟨others, found, shorter⟩ := tail.from_member again
      rw [← unique (.link goes tail) found, List.length_cons] at shorter
      omega

end Chain

variable [DecidableEq Cell]

def linkCells (encode : Cell → Value) (stop : Value) :
    (Cell → Value) → Cell → List Cell → Cell → Value
  | table, cell, [] => Function.update table cell stop
  | table, cell, next :: rest =>
      linkCells encode stop (Function.update table cell (encode next)) next rest

def clearCells (free : Value) (table : Cell → Value) (cells : List Cell) :
    Cell → Value :=
  fun cell => if cell ∈ cells then free else table cell

theorem linkCells_of_notMem (encode : Cell → Value) (stop : Value)
    (table : Cell → Value) (cell : Cell) (rest : List Cell) {current : Cell}
    (outside : current ∉ cell :: rest) :
    linkCells encode stop table cell rest current = table current := by
  induction rest generalizing table cell with
  | nil =>
      simp only [List.mem_singleton] at outside
      simp only [linkCells, Function.update_of_ne outside]
  | cons next rest ih =>
      rw [List.mem_cons, not_or] at outside
      obtain ⟨different, later⟩ := outside
      simp only [linkCells]
      rw [ih _ _ later, Function.update_of_ne different]

/-- The threaded cells form a chain, when cells can be read back from their
encoding and none is encoded as the stop value. -/
theorem chain_linkCells {encode : Cell → Value} {index : Value → Cell}
    {stop : Value} (table : Cell → Value) (cell : Cell) (rest : List Cell)
    (distinct : (cell :: rest).Nodup)
    (decodes : ∀ current ∈ rest, index (encode current) = current)
    (proper : ∀ current ∈ rest, encode current ≠ stop) :
    Chain (linkCells encode stop table cell rest) index stop cell rest := by
  induction rest generalizing table cell with
  | nil => exact .last (by simp [linkCells])
  | cons next rest ih =>
      obtain ⟨fresh, distinct⟩ := List.nodup_cons.mp distinct
      have tail := ih (Function.update table cell (encode next)) next distinct
        (fun current member => decodes current (List.mem_cons_of_mem _ member))
        (fun current member => proper current (List.mem_cons_of_mem _ member))
      have here : linkCells encode stop table cell (next :: rest) cell =
          encode next := by
        simp only [linkCells]
        rw [linkCells_of_notMem _ _ _ _ _ fresh, Function.update_self]
      have follows : index (linkCells encode stop table cell (next :: rest) cell) =
          next := by
        rw [here]
        exact decodes next (by simp)
      have goes : linkCells encode stop table cell (next :: rest) cell ≠ stop := by
        rw [here]
        exact proper next (by simp)
      have link : Chain (linkCells encode stop table cell (next :: rest)) index stop
          cell (index (linkCells encode stop table cell (next :: rest) cell) ::
            rest) :=
        .link goes (by rw [follows]; exact tail)
      rwa [follows] at link

end LazyOS.Data
