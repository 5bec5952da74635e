import LazyOS.Data.HeapOrder
import LazyOS.Data.Run
import LazyOS.Scheduling.Queue

namespace LazyOS.Scheduling

open LazyOS.Data

universe u

variable {α : Type u}

/-! The order of the priority queue.  The two loops are described once by their
executions, and what they do to the order is an induction over these. -/

namespace PriorityQueue

def keys (priority : α → Nat) (q : PriorityQueue α) (i : Nat) : Nat :=
  priority (q.data i)

theorem keys_swap (priority : α → Nat) (q : PriorityQueue α) (a b : Nat) :
    keys priority (q.swap a b) = keys priority q ∘ Equiv.swap a b := by
  funext i
  simp only [keys, swap_data, Function.comp_apply]

inductive BubblesUp (priority : α → Nat) :
    PriorityQueue α → Nat → PriorityQueue α → Prop
  | root {q : PriorityQueue α} : BubblesUp priority q 0 q
  | fits {q : PriorityQueue α} {i : Nat} (below : 0 < i)
      (le : keys priority q i ≤ keys priority q (parentPlace i)) :
      BubblesUp priority q i q
  | rises {q after : PriorityQueue α} {i : Nat} (below : 0 < i)
      (greater : keys priority q (parentPlace i) < keys priority q i)
      (rest : BubblesUp priority (q.swap i (parentPlace i)) (parentPlace i) after) :
      BubblesUp priority q i after

inductive BubblesDown (priority : α → Nat) :
    PriorityQueue α → Nat → PriorityQueue α → Prop
  | rests {q : PriorityQueue α} {i : Nat} (largest : largestChild priority q i = i) :
      BubblesDown priority q i q
  | sinks {q after : PriorityQueue α} {i : Nat}
      (moves : largestChild priority q i ≠ i)
      (rest : BubblesDown priority (q.swap i (largestChild priority q i))
        (largestChild priority q i) after) :
      BubblesDown priority q i after

theorem bubbleUpLoop_executes (priority : α → Nat) {turns : Nat}
    (q : PriorityQueue α) {i : Nat} (enough : i ≤ turns) :
    BubblesUp priority q i (bubbleUpLoop priority turns q i) := by
  induction turns generalizing q i with
  | zero =>
      cases Nat.le_zero.mp enough
      exact .root
  | succ turns ih =>
      simp only [bubbleUpLoop]
      split
      · rename_i below
        have lower : parentPlace i < i := parentPlace_lt below
        split
        · rename_i greater
          exact .rises below greater (ih _ (by omega))
        · rename_i notGreater
          exact .fits below (not_lt.mp notGreater)
      · rename_i atRoot
        cases Nat.eq_zero_of_not_pos atRoot
        exact .root

theorem bubbleUp_executes (priority : α → Nat) (q : PriorityQueue α) (i : Nat) :
    BubblesUp priority q i (bubbleUp priority q i) :=
  bubbleUpLoop_executes priority q (le_refl i)

theorem largestChild_spec (priority : α → Nat) (q : PriorityQueue α) (i : Nat) :
    (∀ c, 0 < c → c < q.size → parentPlace c = i →
      keys priority q c ≤ keys priority q (largestChild priority q i)) ∧
    (largestChild priority q i ≠ i →
      0 < largestChild priority q i ∧ largestChild priority q i < q.size ∧
      parentPlace (largestChild priority q i) = i ∧
      keys priority q i < keys priority q (largestChild priority q i)) := by
  have child : ∀ c, 0 < c → parentPlace c = i → c = 2 * i + 1 ∨ c = 2 * i + 2 := by
    intro c positive parent
    unfold parentPlace at parent
    omega
  have left : parentPlace (2 * i + 1) = i := by unfold parentPlace; omega
  have right : parentPlace (2 * i + 2) = i := by unfold parentPlace; omega
  constructor
  · intro c positive inside parent
    simp only [largestChild, keys]
    rcases child c positive parent with rfl | rfl
    · split <;> split <;> omega
    · split <;> split <;> omega
  · simp only [largestChild, keys]
    split
    · split
      · intro _
        refine ⟨by omega, by omega, right, by omega⟩
      · intro _
        refine ⟨by omega, by omega, left, by omega⟩
    · split
      · intro _
        refine ⟨by omega, by omega, right, by omega⟩
      · intro moves
        exact absurd rfl moves

theorem bubbleDownLoop_executes (priority : α → Nat) {turns : Nat}
    (q : PriorityQueue α) {i : Nat} (enough : q.size ≤ turns + i) :
    BubblesDown priority q i (bubbleDownLoop priority turns q i) := by
  induction turns generalizing q i with
  | zero => exact .rests (largestChild_of_ge priority (by omega))
  | succ turns ih =>
      simp only [bubbleDownLoop]
      split
      · rename_i rests
        exact .rests rests
      · rename_i moves
        obtain ⟨positive, -, parent, -⟩ := (largestChild_spec priority q i).2 moves
        have lower := parentPlace_lt positive
        refine .sinks moves (ih _ ?_)
        change q.size ≤ _
        omega

theorem bubbleDown_executes (priority : α → Nat) (q : PriorityQueue α) (i : Nat) :
    BubblesDown priority q i (bubbleDown priority q i) :=
  bubbleDownLoop_executes priority q (Nat.le_add_right _ _)

variable {priority : α → Nat} {q after : PriorityQueue α} {i : Nat}

theorem BubblesUp.size (loop : BubblesUp priority q i after) : after.size = q.size := by
  induction loop with
  | root => rfl
  | fits => rfl
  | rises _ _ _ ih => exact ih

theorem BubblesUp.heapOrdered {count : Nat} (loop : BubblesUp priority q i after)
    (inside : i < count) (broken : BrokenAbove (keys priority q) count i) :
    HeapOrdered (keys priority after) count := by
  induction loop with
  | root => exact broken.heapOrdered fun below => absurd below (lt_irrefl 0)
  | fits _ le => exact broken.heapOrdered fun _ => le
  | rises below greater _ ih =>
      apply ih ((parentPlace_lt below).trans inside)
      rw [keys_swap]
      exact broken.swap below inside greater

theorem BubblesDown.size (loop : BubblesDown priority q i after) :
    after.size = q.size := by
  induction loop with
  | rests => rfl
  | sinks _ _ ih => exact ih

theorem BubblesDown.heapOrdered (loop : BubblesDown priority q i after)
    (broken : BrokenBelow (keys priority q) q.size i) :
    HeapOrdered (keys priority after) after.size := by
  induction loop with
  | @rests q i largest =>
      have greatest := (largestChild_spec priority q i).1
      rw [largest] at greatest
      exact broken.heapOrdered greatest
  | @sinks q after i moves _ ih =>
      obtain ⟨greatest, child⟩ := largestChild_spec priority q i
      obtain ⟨positive, inside, parent, greater⟩ := child moves
      apply ih
      rw [keys_swap]
      exact broken.swap positive inside parent greater greatest

/-- No element has a higher priority than its parent. -/
def InOrder (priority : α → Nat) (q : PriorityQueue α) : Prop :=
  HeapOrdered (keys priority q) q.size

theorem pqPush_inOrder {proc : α} (ordered : InOrder priority q)
    (room : q.size < maxProcesses) : InOrder priority (pqPush priority q proc) := by
  have loop := bubbleUp_executes priority
    { q with data := Function.update q.data q.size proc } q.size
  have kept : ∀ i, i < q.size →
      keys priority { q with data := Function.update q.data q.size proc } i =
        keys priority q i := by
    intro i inside
    simp only [keys, Function.update_of_ne inside.ne]
  have broken : BrokenAbove
      (keys priority { q with data := Function.update q.data q.size proc })
      (q.size + 1) q.size := by
    constructor
    · intro i below inside notLast
      have before : i < q.size := by omega
      rw [kept i before, kept _ ((parentPlace_lt below).trans before)]
      exact ordered i below before
    · intro _ i below inside parent
      have lower := parentPlace_lt below
      omega
  have result := loop.heapOrdered (Nat.lt_succ_self q.size) broken
  unfold InOrder pqPush
  rw [if_neg (not_le.mpr room)]
  simp only [loop.size]
  exact result

theorem pqPop_inOrder {top : Option α} {rest : PriorityQueue α}
    (ordered : InOrder priority q) (popped : pqPop priority q = (top, rest)) :
    InOrder priority rest := by
  unfold pqPop at popped
  split at popped
  · cases popped
    exact ordered
  · rename_i nonempty
    cases popped
    apply (bubbleDown_executes priority _ 0).heapOrdered
    constructor
    · intro i below inside notRoot
      have before : i < q.size := Nat.lt_of_lt_of_le inside (Nat.sub_le q.size 1)
      have kept := ordered i below before
      simp only [keys] at kept ⊢
      rw [Function.update_of_ne below.ne', Function.update_of_ne notRoot]
      exact kept
    · intro positive
      exact absurd positive (lt_irrefl 0)

theorem pqPop_maximal (ordered : InOrder priority q) {top : α} {rest : PriorityQueue α}
    (popped : pqPop priority q = (some top, rest)) :
    ∀ proc ∈ q.contents, priority proc ≤ priority top := by
  have first : top = q.data 0 := by
    unfold pqPop at popped
    split at popped
    · cases popped
    · cases popped
      rfl
  intro proc member
  obtain ⟨i, inside, rfl⟩ := List.mem_map.mp member
  rw [first]
  exact ordered.le_root i (List.mem_range.mp inside)

theorem pqPeek_eq_pqPop (priority : α → Nat) (q : PriorityQueue α) :
    q.pqPeek = (pqPop priority q).1 := by
  unfold pqPeek pqPop
  by_cases empty : q.size = 0
  · rw [if_neg (not_not.mpr empty), if_pos empty]
  · rw [if_pos empty, if_neg empty]

inductive Drains (priority : α → Nat) : PriorityQueue α → List α → Prop
  | empty {q : PriorityQueue α} (empty : q.pqIsEmpty = true) : Drains priority q []
  | pop {q rest : PriorityQueue α} {top : α} {tops : List α}
      (popped : pqPop priority q = (some top, rest))
      (drains : Drains priority rest tops) : Drains priority q (top :: tops)

theorem drains_sorted {size : Nat} (sized : q.size = size)
    (ordered : InOrder priority q) :
    ∃ tops, Drains priority q tops ∧ tops.Perm q.contents ∧
      tops.Pairwise fun earlier later => priority later ≤ priority earlier := by
  induction size generalizing q with
  | zero =>
      have empty : q.pqIsEmpty = true := decide_eq_true sized
      refine ⟨[], .empty empty, ?_, .nil⟩
      rw [contents_eq_nil empty]
  | succ size ih =>
      have nonempty : q.pqIsEmpty = false := by
        simp [pqIsEmpty, sized]
      obtain ⟨top, rest, popped, perm⟩ := pqPop_perm priority nonempty
      have length := perm.length_eq
      rw [List.length_cons, contents_length, contents_length] at length
      obtain ⟨tops, drains, same, sorted⟩ :=
        ih (by omega) (pqPop_inOrder ordered popped)
      refine ⟨top :: tops, .pop popped drains, (same.cons top).trans perm, ?_⟩
      refine List.pairwise_cons.mpr ⟨?_, sorted⟩
      intro proc member
      apply pqPop_maximal ordered popped proc
      exact perm.mem_iff.mp (List.mem_cons_of_mem top (same.mem_iff.mp member))

end PriorityQueue

structure QueueHistory (α : Type u) where
  queue : PriorityQueue α
  priority : α → Nat
  pushed : List α
  popped : List α

inductive QueueOp (α : Type u) where
  | push (proc : α)
  | pop
  | reprioritise (priority : α → Nat)

inductive QueueStep (history : QueueHistory α) :
    QueueOp α → QueueHistory α → Prop
  | push {proc : α} (room : history.queue.size < maxProcesses) :
      QueueStep history (.push proc)
        { history with
          queue := PriorityQueue.pqPush history.priority history.queue proc
          pushed := proc :: history.pushed }
  | pop {top : Option α} {rest : PriorityQueue α}
      (popped : PriorityQueue.pqPop history.priority history.queue = (top, rest)) :
      QueueStep history .pop
        { history with queue := rest, popped := top.toList ++ history.popped }
  | reprioritise {priority : α → Nat}
      (queued : ∀ proc ∈ history.queue.contents,
        priority proc = history.priority proc) :
      QueueStep history (.reprioritise priority) { history with priority := priority }

structure QueueInv (history : QueueHistory α) : Prop where
  ordered : PriorityQueue.InOrder history.priority history.queue
  balance : (history.queue.contents ++ history.popped).Perm history.pushed

theorem queueStep_inv {history after : QueueHistory α} {op : QueueOp α}
    (inv : QueueInv history) (step : QueueStep history op after) : QueueInv after := by
  cases step with
  | push room =>
      refine ⟨PriorityQueue.pqPush_inOrder inv.ordered room, ?_⟩
      have pushed := PriorityQueue.pqPush_perm history.priority ‹α› room
      exact (pushed.append_right history.popped).trans (inv.balance.cons _)
  | pop popped =>
      refine ⟨PriorityQueue.pqPop_inOrder inv.ordered popped, ?_⟩
      cases empty : history.queue.pqIsEmpty with
      | true =>
          have size : history.queue.size = 0 := of_decide_eq_true empty
          rw [PriorityQueue.pqPop, if_pos size] at popped
          cases popped
          exact inv.balance
      | false =>
          obtain ⟨top, rest, taken, perm⟩ :=
            PriorityQueue.pqPop_perm history.priority empty
          rw [taken] at popped
          cases popped
          refine List.Perm.trans ?_ ((perm.append_right history.popped).trans inv.balance)
          simp only [Option.toList_some, List.cons_append]
          exact List.perm_middle
  | reprioritise queued =>
      refine ⟨?_, inv.balance⟩
      apply inv.ordered.congr
      intro i inside
      apply queued
      exact List.mem_map.mpr ⟨i, List.mem_range.mpr inside, rfl⟩

/-- In every state of every history the queue is in order and holds what was pushed
and not popped; popping and peeking give a process of greatest priority; popping until
the queue is empty gives all of them by falling priority; and both loops end. -/
theorem queue_correct {q : PriorityQueue α} {priority : α → Nat}
    {ops : List (QueueOp α)} {history : QueueHistory α}
    (run : Run QueueStep ⟨q.pqInit, priority, [], []⟩ ops history) :
    (∀ i, 0 < i → i < history.queue.size →
      history.priority (history.queue.data i) ≤
        history.priority (history.queue.data ((i - 1) / 2))) ∧
    (history.queue.contents ++ history.popped).Perm history.pushed ∧
    (history.queue.pqIsEmpty = false →
      ∃ top rest,
        PriorityQueue.pqPop history.priority history.queue = (some top, rest) ∧
        history.queue.pqPeek = some top ∧ top ∈ history.queue.contents ∧
        ∀ proc ∈ history.queue.contents,
          history.priority proc ≤ history.priority top) ∧
    (∃ tops, PriorityQueue.Drains history.priority history.queue tops ∧
      tops.Perm history.queue.contents ∧
      tops.Pairwise fun earlier later =>
        history.priority later ≤ history.priority earlier) ∧
    ∀ (q : PriorityQueue α) (i : Nat),
      PriorityQueue.BubblesUp history.priority q i
        (PriorityQueue.bubbleUp history.priority q i) ∧
      PriorityQueue.BubblesDown history.priority q i
        (PriorityQueue.bubbleDown history.priority q i) := by
  have start : QueueInv ⟨q.pqInit, priority, [], []⟩ :=
    ⟨fun i _ inside => absurd inside (Nat.not_lt_zero i), .refl _⟩
  have inv := run.invariant QueueInv (fun _ _ _ => queueStep_inv) start
  refine ⟨inv.ordered, inv.balance, ?_, ?_, ?_⟩
  · intro nonempty
    obtain ⟨top, rest, popped, perm⟩ :=
      PriorityQueue.pqPop_perm history.priority nonempty
    refine ⟨top, rest, popped, ?_, perm.mem_iff.mp List.mem_cons_self,
      PriorityQueue.pqPop_maximal inv.ordered popped⟩
    rw [PriorityQueue.pqPeek_eq_pqPop history.priority, popped]
  · exact PriorityQueue.drains_sorted rfl inv.ordered
  · intro q i
    exact ⟨PriorityQueue.bubbleUp_executes _ q i,
      PriorityQueue.bubbleDown_executes _ q i⟩

def testPriority : Nat → Nat
  | 1 => 10
  | 2 => 50
  | 3 => 30
  | 4 => 70
  | 5 => 20
  | _ => 100

theorem queue_correct_tests :
    ∃ history : QueueHistory Nat,
      Run QueueStep ⟨PriorityQueue.pqInit ⟨fun _ => 0, 9⟩, testPriority, [], []⟩
        [.push 1, .push 2, .push 3, .push 4, .push 5, .push 6, .pop] history ∧
      history.popped = [6] ∧
      (history.queue.contents ++ history.popped).Perm [6, 5, 4, 3, 2, 1] ∧
      ∃ top, history.queue.pqPeek = some top ∧
        ∀ proc ∈ history.queue.contents, testPriority proc ≤ testPriority top := by
  have run : Run QueueStep
      ⟨PriorityQueue.pqInit ⟨fun _ => 0, 9⟩, testPriority, [], []⟩
      [.push 1, .push 2, .push 3, .push 4, .push 5, .push 6, .pop] _ :=
    .next (.push (by decide)) (.next (.push (by decide)) (.next (.push (by decide))
      (.next (.push (by decide)) (.next (.push (by decide)) (.next (.push (by decide))
        (.next (.pop Prod.mk.eta.symm) (.done _)))))))
  obtain ⟨-, balance, maximal, -⟩ := queue_correct run
  obtain ⟨top, rest, -, peek, -, greatest⟩ := maximal (by decide)
  exact ⟨_, run, by decide, balance, top, peek, greatest⟩

end LazyOS.Scheduling
