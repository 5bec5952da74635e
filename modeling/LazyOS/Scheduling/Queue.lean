import Mathlib.Logic.Equiv.Basic
import Mathlib.Data.List.Nodup
import Mathlib.Data.List.Perm.Lattice
import LazyOS.Data.Word

namespace LazyOS.Scheduling

open LazyOS.Data

universe u

variable {α : Type u}

/-! The priority queue of `queue.c`, over any type of elements.  `priority` reads
the priority of an element. -/

def maxProcesses : Nat := 256

structure PriorityQueue (α : Type u) where
  data : Nat → α
  size : Nat

namespace PriorityQueue

def swap (q : PriorityQueue α) (a b : Nat) : PriorityQueue α :=
  { q with data := Function.update (Function.update q.data a (q.data b)) b (q.data a) }

def bubbleUpLoop (priority : α → Nat) :
    (turns : Nat) → PriorityQueue α → (i : Nat) → PriorityQueue α
  | 0, q, _ => q
  | turns + 1, q, i =>
      if i > 0 then
        let parent := (i - 1) / 2
        if priority (q.data i) > priority (q.data parent) then
          bubbleUpLoop priority turns (q.swap i parent) parent
        else q
      else q

def bubbleUp (priority : α → Nat) (q : PriorityQueue α) (i : Nat) : PriorityQueue α :=
  bubbleUpLoop priority i q i

def largestChild (priority : α → Nat) (q : PriorityQueue α) (i : Nat) : Nat :=
  let left := 2 * i + 1
  let right := 2 * i + 2
  let largest := i
  let largest :=
    if left < q.size ∧ priority (q.data left) > priority (q.data largest) then left
    else largest
  if right < q.size ∧ priority (q.data right) > priority (q.data largest) then right
  else largest

def bubbleDownLoop (priority : α → Nat) :
    (turns : Nat) → PriorityQueue α → (i : Nat) → PriorityQueue α
  | 0, q, _ => q
  | turns + 1, q, i =>
      let largest := largestChild priority q i
      if largest = i then q
      else bubbleDownLoop priority turns (q.swap i largest) largest

def bubbleDown (priority : α → Nat) (q : PriorityQueue α) (i : Nat) :
    PriorityQueue α :=
  bubbleDownLoop priority q.size q i

def pqInit (q : PriorityQueue α) : PriorityQueue α := { q with size := 0 }

def pqPush (priority : α → Nat) (q : PriorityQueue α) (proc : α) : PriorityQueue α :=
  if q.size ≥ maxProcesses then q
  else
    let q := { q with data := Function.update q.data q.size proc }
    let q := bubbleUp priority q q.size
    { q with size := q.size + 1 }

def pqPop (priority : α → Nat) (q : PriorityQueue α) : Option α × PriorityQueue α :=
  if q.size = 0 then (none, q)
  else
    let top := q.data 0
    let q := { q with size := q.size - 1 }
    let q := { q with data := Function.update q.data 0 (q.data q.size) }
    (some top, bubbleDown priority q 0)

def pqPeek (q : PriorityQueue α) : Option α :=
  if q.size ≠ 0 then some (q.data 0) else none

def pqIsEmpty (q : PriorityQueue α) : Bool := q.size = 0

def contents (q : PriorityQueue α) : List α := (List.range q.size).map q.data

theorem contents_length (q : PriorityQueue α) : q.contents.length = q.size := by
  simp [contents]

theorem contents_eq_nil {q : PriorityQueue α} (empty : q.pqIsEmpty = true) :
    q.contents = [] := by
  have size : q.size = 0 := of_decide_eq_true empty
  simp [contents, size]

theorem swap_data (q : PriorityQueue α) (a b : Nat) :
    (q.swap a b).data = q.data ∘ Equiv.swap a b := by
  funext i
  simp only [swap, Function.comp_apply, Equiv.swap_apply_def]
  by_cases atB : i = b
  · subst atB
    rw [Function.update_self]
    split
    · rename_i same
      rw [same]
    · rw [if_pos rfl]
  · rw [Function.update_of_ne atB]
    by_cases atA : i = a
    · subst atA
      rw [Function.update_self, if_pos rfl]
    · rw [Function.update_of_ne atA, if_neg atA, if_neg atB]

theorem map_swap_perm (q : PriorityQueue α) {a b count : Nat} (a_lt : a < count)
    (b_lt : b < count) :
    ((List.range count).map (q.swap a b).data).Perm
      ((List.range count).map q.data) := by
  have places : ((List.range count).map (Equiv.swap a b)).Perm (List.range count) := by
    rw [List.perm_ext_iff_of_nodup
      (List.nodup_range.map (Equiv.swap a b).injective) List.nodup_range]
    intro i
    have stays : ∀ j < count, Equiv.swap a b j < count := by
      intro j j_lt
      rw [Equiv.swap_apply_def]
      split
      · exact b_lt
      · split
        · exact a_lt
        · exact j_lt
    simp only [List.mem_map, List.mem_range]
    constructor
    · rintro ⟨j, j_lt, rfl⟩
      exact stays j j_lt
    · intro i_lt
      exact ⟨Equiv.swap a b i, stays i i_lt, Equiv.swap_apply_self a b i⟩
  rw [swap_data, ← List.map_map]
  exact places.map q.data

theorem bubbleUpLoop_perm (priority : α → Nat) (turns : Nat) (q : PriorityQueue α)
    {i count : Nat} (inside : i < count) :
    (bubbleUpLoop priority turns q i).size = q.size ∧
    ((List.range count).map (bubbleUpLoop priority turns q i).data).Perm
      ((List.range count).map q.data) := by
  induction turns generalizing q i with
  | zero => exact ⟨rfl, .refl _⟩
  | succ turns ih =>
      simp only [bubbleUpLoop]
      split
      · split
        · have parent : (i - 1) / 2 < count := by omega
          obtain ⟨size, perm⟩ := ih (q.swap i ((i - 1) / 2)) parent
          exact ⟨size, perm.trans (q.map_swap_perm inside parent)⟩
        · exact ⟨rfl, .refl _⟩
      · exact ⟨rfl, .refl _⟩

theorem largestChild_lt (priority : α → Nat) {q : PriorityQueue α} {i : Nat}
    (inside : i < q.size) : largestChild priority q i < q.size := by
  simp only [largestChild]
  split <;> split <;> omega

theorem largestChild_of_ge (priority : α → Nat) {q : PriorityQueue α} {i : Nat}
    (outside : q.size ≤ i) : largestChild priority q i = i := by
  simp only [largestChild]
  rw [if_neg (by omega), if_neg (by omega)]

theorem bubbleDownLoop_perm (priority : α → Nat) (turns : Nat) (q : PriorityQueue α)
    (i : Nat) : (bubbleDownLoop priority turns q i).contents.Perm q.contents := by
  induction turns generalizing q i with
  | zero => exact .refl _
  | succ turns ih =>
      simp only [bubbleDownLoop]
      split
      · exact .refl _
      · rename_i moves
        by_cases inside : i < q.size
        · exact (ih _ _).trans
            (q.map_swap_perm inside (largestChild_lt priority inside))
        · exact absurd (largestChild_of_ge priority (by omega)) moves

theorem contents_snoc (q : PriorityQueue α) (proc : α) :
    (List.range (q.size + 1)).map (Function.update q.data q.size proc) =
      q.contents ++ [proc] := by
  rw [List.range_succ, List.map_append, List.map_singleton, Function.update_self]
  congr 1
  apply List.map_congr_left
  intro i member
  rw [Function.update_of_ne (List.mem_range.mp member).ne]

theorem pqPush_perm (priority : α → Nat) {q : PriorityQueue α} (proc : α)
    (room : q.size < maxProcesses) :
    (pqPush priority q proc).contents.Perm (proc :: q.contents) := by
  obtain ⟨size, perm⟩ := bubbleUpLoop_perm priority q.size
    { q with data := Function.update q.data q.size proc } (Nat.lt_succ_self q.size)
  unfold pqPush
  rw [if_neg (by omega)]
  simp only [bubbleUp, contents, size]
  refine perm.trans ?_
  rw [contents_snoc]
  exact List.perm_append_singleton proc q.contents

theorem pqPush_nonempty (priority : α → Nat) {q : PriorityQueue α} (proc : α)
    (room : q.size < maxProcesses) : (pqPush priority q proc).pqIsEmpty = false := by
  have length := (pqPush_perm priority proc room).length_eq
  rw [contents_length, List.length_cons] at length
  simp [pqIsEmpty, length]

theorem pqPop_perm (priority : α → Nat) {q : PriorityQueue α}
    (nonempty : q.pqIsEmpty = false) :
    ∃ top rest, pqPop priority q = (some top, rest) ∧
      (top :: rest.contents).Perm q.contents := by
  have positive : q.size ≠ 0 := of_decide_eq_false nonempty
  obtain ⟨size, sizeEq⟩ := Nat.exists_eq_succ_of_ne_zero positive
  rw [pqPop, if_neg positive]
  refine ⟨_, _, rfl, ?_⟩
  refine ((bubbleDownLoop_perm priority _ _ 0).cons (q.data 0)).trans ?_
  simp only [contents, sizeEq, Nat.succ_sub_one]
  -- The last element has taken the place of the first.
  cases size with
  | zero => simp
  | succ size =>
      have kept : (List.range (size + 1)).map
          (Function.update q.data 0 (q.data (size + 1))) =
          q.data (size + 1) :: (List.range size).map fun i => q.data (i + 1) := by
        rw [List.range_succ_eq_map, List.map_cons, Function.update_self, List.map_map]
        congr 1
      have all : (List.range (size + 1).succ).map q.data =
          q.data 0 :: ((List.range size).map fun i => q.data (i + 1)) ++
            [q.data (size + 1)] := by
        rw [List.range_succ, List.map_append, List.range_succ_eq_map, List.map_cons,
          List.map_map]
        rfl
      rw [kept, all, List.cons_append]
      exact (List.perm_append_singleton _ _).symm.cons _

end PriorityQueue

end LazyOS.Scheduling
