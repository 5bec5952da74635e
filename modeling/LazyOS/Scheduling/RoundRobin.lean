import LazyOS.Scheduling.Calls

namespace LazyOS.Scheduling

open LazyOS.Data
open LazyOS.Memory

universe u

/-! Ticks among processes of equal priority.  The queue puts the process that comes
back where the one that leaves was, at its front, so that two processes take turns
and the others stay where they are. -/

namespace PriorityQueue

variable {α : Type u} {priority : α → Nat} {q : PriorityQueue α}

theorem contents_cons {top : α} {tail : List α} (contents : q.contents = top :: tail) :
    q.size = tail.length + 1 ∧ q.data 0 = top ∧
      (List.range tail.length).map (fun i => q.data (i + 1)) = tail := by
  have size : q.size = tail.length + 1 := by
    rw [← contents_length, contents, List.length_cons]
  rw [PriorityQueue.contents, size, List.range_succ_eq_map, List.map_cons,
    List.map_map] at contents
  exact ⟨size, (List.cons.inj contents).1, (List.cons.inj contents).2⟩

theorem pqPush_level {proc : α} (room : q.size < maxProcesses)
    (level : ∀ i < q.size, priority proc ≤ priority (q.data i)) :
    pqPush priority q proc = ⟨Function.update q.data q.size proc, q.size + 1⟩ := by
  have stays : bubbleUp priority { q with data := Function.update q.data q.size proc }
      q.size = { q with data := Function.update q.data q.size proc } := by
    unfold bubbleUp
    cases size : q.size with
    | zero => rfl
    | succ last =>
        have parent : last / 2 < last + 1 := by omega
        have le := level (last / 2) (by omega)
        simp only [bubbleUpLoop, Nat.add_sub_cancel]
        rw [if_pos (Nat.succ_pos last), Function.update_self,
          Function.update_of_ne parent.ne, if_neg (not_lt.mpr le)]
  unfold pqPush
  rw [if_neg (not_le.mpr room)]
  simp only [stays]

theorem largestChild_level {level : Nat} {i : Nat}
    (equal : ∀ j < q.size, priority (q.data j) = level)
    (here : priority (q.data i) = level) : largestChild priority q i = i := by
  have none : ∀ child, ¬ (child < q.size ∧
      priority (q.data child) > priority (q.data i)) := by
    rintro child ⟨inside, greater⟩
    rw [equal child inside, here] at greater
    exact lt_irrefl level greater
  simp only [largestChild]
  rw [if_neg (none _), if_neg (none _)]

theorem pqPop_level {level last : Nat} (size : q.size = last + 1)
    (equal : ∀ j < q.size, priority (q.data j) = level) :
    pqPop priority q =
      (some (q.data 0), ⟨Function.update q.data 0 (q.data last), last⟩) := by
  have moved : ∀ j < last + 1,
      priority (Function.update q.data 0 (q.data last) j) = level := by
    intro j inside
    by_cases first : j = 0
    · subst first
      rw [Function.update_self]
      exact equal last (by omega)
    · rw [Function.update_of_ne first]
      exact equal j (by omega)
  have rests : bubbleDown priority ⟨Function.update q.data 0 (q.data last), last⟩ 0 =
      ⟨Function.update q.data 0 (q.data last), last⟩ := by
    unfold bubbleDown
    cases last with
    | zero => rfl
    | succ rest =>
        have largest : largestChild priority
            ⟨Function.update q.data 0 (q.data (rest + 1)), rest + 1⟩ 0 = 0 :=
          largestChild_level (fun j inside => moved j (by
            change j < rest + 1 at inside
            omega)) (moved 0 (by omega))
        simp only [bubbleDownLoop, largest, if_true]
  unfold pqPop
  rw [if_neg (by omega)]
  simp only [size, Nat.add_sub_cancel, rests]

theorem requeue_level {level : Nat} {prev top : α} {tail : List α}
    (contents : q.contents = top :: tail) (room : q.size < maxProcesses)
    (equal : ∀ proc ∈ prev :: top :: tail, priority proc = level) :
    ∃ rest, pqPop priority (pqPush priority q prev) = (some top, rest) ∧
      rest.contents = prev :: tail := by
  obtain ⟨size, first, others⟩ := contents_cons contents
  have queued : ∀ i < q.size, priority (q.data i) = level := by
    intro i inside
    apply equal
    refine List.mem_cons_of_mem _ (contents ▸ ?_)
    exact List.mem_map.mpr ⟨i, List.mem_range.mpr inside, rfl⟩
  have here := equal prev List.mem_cons_self
  rw [pqPush_level room fun i inside => by rw [here, queued i inside]]
  have pushed : ∀ j < q.size + 1,
      priority (Function.update q.data q.size prev j) = level := by
    intro j inside
    by_cases last : j = q.size
    · rw [last, Function.update_self]
      exact here
    · rw [Function.update_of_ne last]
      exact queued j (by omega)
  rw [pqPop_level (q := ⟨Function.update q.data q.size prev, q.size + 1⟩) rfl pushed]
  simp only [Function.update_self]
  refine ⟨⟨Function.update (Function.update q.data q.size prev) 0 prev, q.size⟩, ?_, ?_⟩
  · rw [Function.update_of_ne (by omega), first]
  · have kept : ∀ i ∈ List.range tail.length,
        Function.update (Function.update q.data q.size prev) 0 prev (i + 1) =
          q.data (i + 1) := by
      intro i member
      have inside := List.mem_range.mp member
      rw [Function.update_of_ne (by omega), Function.update_of_ne (by omega)]
    simp only [PriorityQueue.contents, size, List.range_succ_eq_map, List.map_cons,
      Function.update_self, List.map_map]
    rw [size] at kept
    exact congrArg (prev :: ·) ((List.map_congr_left kept).trans others)

end PriorityQueue

def Event.dispatchedSlot : Event → Option Slot
  | .dispatched (.slot slot) => some slot
  | _ => none

def Sched.dispatched (s : Sched) : List Slot := s.log.filterMap Event.dispatchedSlot

def TickStep (s : Sched) (tick : SwitchEnv × Int) (after : Sched) : Prop :=
  s.expiring tick.2 = none ∧ after = s.scheduler tick.1 tick.2

namespace Sched

theorem priority_setState (s : Sched) (slot : Slot) (state : ProcessState) :
    (s.setState slot state).priority = s.priority :=
  field_update (fun process => process.priority.toNat) s.procs rfl

theorem priority_setBurst (s : Sched) (slot : Slot) (burstTime : Int) :
    (s.setBurst slot burstTime).priority = s.priority :=
  field_update (fun process => process.priority.toNat) s.procs rfl

theorem field_contextSwitch {Field : Type} (field : Process → Field)
    (sp : ∀ process esp, field { process with sp := esp } = field process)
    (state : ∀ process code, field { process with state := code } = field process)
    (env : SwitchEnv) (curr : Option ProcPtr) (next : ProcPtr) (s : Sched) :
    (fun slot => field ((s.contextSwitch env curr next).procs slot)) =
      fun slot => field (s.procs slot) := by
  have saved : (fun slot => field ((s.saveContext env curr).procs slot)) =
      fun slot => field (s.procs slot) := by
    rcases curr with _ | _ | other
    · rfl
    · rfl
    · exact field_update field s.procs (sp _ _)
  rw [← saved]
  cases next with
  | kernel => rfl
  | slot next => exact field_update field _ (state _ _)

theorem priority_contextSwitch (env : SwitchEnv) (curr : Option ProcPtr)
    (next : ProcPtr) (s : Sched) :
    (s.contextSwitch env curr next).priority = s.priority :=
  field_contextSwitch (fun process => process.priority.toNat) (fun _ _ => rfl)
    (fun _ _ => rfl) env curr next s

theorem reap_level (s : Sched) :
    s.reap.priority = s.priority ∧ s.reap.dispatched = s.dispatched := by
  unfold reap
  cases s.zombie <;> exact ⟨rfl, rfl⟩

/-- `first` has the CPU, `second` is at the front of the queue, and all have the same
priority. -/
structure Turn (s : Sched) (first second : Slot) (others : List Slot) : Prop where
  executing : s.executingProcess = some first
  contents : s.readyQueue.contents = second :: others
  room : s.readyQueue.size < maxProcesses
  equal : ∀ slot ∈ first :: second :: others, s.priority slot = s.priority first

theorem runNext_of_pop (env : SwitchEnv) (curr : Option ProcPtr) {s : Sched}
    {next : Slot} {rest : PriorityQueue Slot}
    (popped : PriorityQueue.pqPop s.priority s.readyQueue = (some next, rest)) :
    (s.runNext env curr).executingProcess = some next ∧
      (s.runNext env curr).readyQueue = rest ∧
      (s.runNext env curr).priority = s.priority ∧
      (s.runNext env curr).dispatched = next :: s.dispatched := by
  simp only [runNext, popped]
  refine ⟨contextSwitch_executingProcess .., contextSwitch_readyQueue .., ?_, ?_⟩
  · exact (priority_contextSwitch ..).trans (priority_setState ..)
  · rw [dispatched, contextSwitch_log]
    exact List.filterMap_cons_some rfl

theorem scheduler_requeues {s : Sched} {first : Slot} {tick : SwitchEnv × Int}
    (executing : s.executingProcess = some first) (unexpired : s.expiring tick.2 = none)
    (nonempty : s.readyQueue.pqIsEmpty ≠ true) :
    ∃ ready : Sched,
      s.scheduler tick.1 tick.2 = ready.runNext tick.1 (some (.slot first)) ∧
      ready.priority = s.priority ∧ ready.dispatched = s.dispatched ∧
      ready.readyQueue = PriorityQueue.pqPush s.priority s.readyQueue first := by
  have left : ¬ s.burstAfter tick.2 first ≤ 0 := by
    intro expired
    rw [expiring, executing, Option.filter_some, decide_eq_true expired] at unexpired
    cases unexpired
  obtain ⟨reapPriority, reapDispatched⟩ := s.reap_level
  have sameQueue : ∀ burstTime, (s.reap.setBurst first burstTime).readyQueue =
      s.readyQueue := fun _ => s.reap_eq.2.1
  have samePriority : ∀ burstTime,
      ((s.reap.setBurst first burstTime).setState first .ready).priority =
        s.priority := by
    intro burstTime
    rw [priority_setState, priority_setBurst, reapPriority]
  rw [scheduler_eq tick.1 tick.2 executing]
  simp only [if_neg left]
  rw [sameQueue, if_neg nonempty, samePriority]
  exact ⟨_, rfl, samePriority _, reapDispatched, rfl⟩

theorem Turn.tick {s after : Sched} {first second : Slot} {others : List Slot}
    {tick : SwitchEnv × Int} (turn : Turn s first second others)
    (step : TickStep s tick after) :
    Turn after second first others ∧
      after.dispatched = second :: s.dispatched := by
  obtain ⟨unexpired, rfl⟩ := step
  have nonempty : s.readyQueue.pqIsEmpty ≠ true := by
    intro empty
    cases turn.contents.symm.trans (PriorityQueue.contents_eq_nil empty)
  obtain ⟨ready, runs, readyPriority, readyDispatched, queue⟩ :=
    scheduler_requeues turn.executing unexpired nonempty
  obtain ⟨rest, popped, contents⟩ :=
    PriorityQueue.requeue_level turn.contents turn.room turn.equal
  have pops : PriorityQueue.pqPop ready.priority ready.readyQueue =
      (some second, rest) := by
    rw [readyPriority, queue]
    exact popped
  obtain ⟨executing, readyQueue, priority, dispatches⟩ :=
    runNext_of_pop tick.1 (some (.slot first)) pops
  rw [runs]
  refine ⟨⟨executing, readyQueue ▸ contents, ?_, ?_⟩, ?_⟩
  · have size := congrArg List.length turn.contents
    rw [PriorityQueue.contents_length] at size
    rw [readyQueue, ← PriorityQueue.contents_length, contents]
    exact size ▸ turn.room
  · intro slot member
    have swapped : slot ∈ first :: second :: others :=
      (List.Perm.swap first second others).mem_iff.mp member
    rw [priority, readyPriority, turn.equal slot swapped,
      turn.equal second (by simp)]
  · rw [dispatches, readyDispatched]

theorem Turn.ticks {s after : Sched} {first second : Slot} {others : List Slot}
    {ticks : List (SwitchEnv × Int)} (turn : Turn s first second others)
    (run : Run TickStep s ticks after) {slot : Slot} (waits : slot ≠ first)
    (notSecond : slot ≠ second) :
    after.dispatched.count slot = s.dispatched.count slot := by
  induction run generalizing first second with
  | done _ => rfl
  | next step _ ih =>
      obtain ⟨swapped, dispatched⟩ := turn.tick step
      rw [ih swapped notSecond waits, dispatched, List.count_cons_of_ne notSecond.symm]

end Sched

theorem two_take_turns {s after : Sched} {first second : Slot}
    {ticks : List (SwitchEnv × Int)} (turn : Sched.Turn s first second [])
    (distinct : [first, second].Nodup) (run : Run TickStep s ticks after)
    (count : ticks.length = 2) :
    ∀ slot ∈ [first, second],
      after.dispatched.count slot = s.dispatched.count slot + 1 := by
  have different : first ≠ second := by
    simpa using distinct
  match ticks, run, count with
  | [_, _], .next step (.next again (.done _)), _ =>
      obtain ⟨swapped, once⟩ := turn.tick step
      obtain ⟨-, twice⟩ := swapped.tick again
      intro slot member
      rw [twice, once]
      rcases List.mem_pair.mp member with rfl | rfl
      · rw [List.count_cons_self, List.count_cons_of_ne different.symm]
      · rw [List.count_cons_of_ne different, List.count_cons_self]

/-- Among processes of one priority, of which none ends, every process is dispatched
exactly once in as many ticks as there are processes exactly when only one waits: with
more of them all but two starve. -/
theorem round_robin_iff {s after : Sched} {prev : Slot}
    {ticks : List (SwitchEnv × Int)} (executing : s.executingProcess = some prev)
    (ready : 1 ≤ s.readyQueue.size) (distinct : s.live.Nodup)
    (equal : ∀ slot ∈ s.live, s.priority slot = s.priority prev)
    (run : Run TickStep s ticks after) (count : ticks.length = s.readyQueue.size + 1) :
    (∀ slot ∈ s.live, after.dispatched.count slot = s.dispatched.count slot + 1) ↔
      s.readyQueue.size = 1 := by
  have live : s.live = prev :: s.readyQueue.contents := by
    simp only [Sched.live, executing, Option.toList_some, List.singleton_append]
  cases contents : s.readyQueue.contents with
  | nil =>
      have size := congrArg List.length contents
      rw [PriorityQueue.contents_length, List.length_nil] at size
      omega
  | cons second others =>
      have size := congrArg List.length contents
      rw [PriorityQueue.contents_length, List.length_cons] at size
      rw [contents] at live
      rw [live] at distinct equal ⊢
      have waiting : s.readyQueue.contents.Nodup :=
        contents ▸ (List.nodup_cons.mp distinct).2
      have turn : Sched.Turn s prev second others :=
        ⟨executing, contents, readyQueue_room waiting, equal⟩
      cases others with
      | nil =>
          have one : s.readyQueue.size = 1 := size
          rw [one] at count
          exact iff_of_true (two_take_turns turn distinct run count) one
      | cons third rest =>
          refine iff_of_false (fun once => ?_) (by rw [size]; simp)
          have different : third ≠ prev ∧ third ≠ second := by
            simp only [List.nodup_cons, List.mem_cons, not_or] at distinct
            exact ⟨Ne.symm distinct.1.2.1, Ne.symm distinct.2.1.1⟩
          have starves := turn.ticks run different.1 different.2
          have dispatched := once third (by simp)
          omega

/-- `first` has the CPU and `waiting` are in the queue, as they were created. -/
def levelSched (first : Slot) (waiting : List Slot) : Sched :=
  { bootSched smallMemory with
    procs := fun slot =>
      { (bootSched smallMemory).procs slot with
        state := .ready
        priority := 1
        burstTime := 400 }
    executingProcess := some first
    readyQueue := ⟨fun i => waiting.getD i first, waiting.length⟩ }

def levelTicks (count : Nat) : List (SwitchEnv × Int) :=
  List.replicate count (⟨0, .code⟩, 10)

theorem round_robin_iff_two :
    ∃ after, Run TickStep (levelSched 0 [1]) (levelTicks 2) after ∧
      ∀ slot ∈ (levelSched 0 [1]).live,
        after.dispatched.count slot = (levelSched 0 [1]).dispatched.count slot + 1 := by
  have executing : (levelSched 0 [1]).executingProcess = some 0 := rfl
  have run : Run TickStep (levelSched 0 [1]) (levelTicks 2) _ :=
    .next ⟨by decide +kernel, rfl⟩ <| .next ⟨by decide +kernel, rfl⟩ (.done _)
  have equal : ∀ slot ∈ (levelSched 0 [1]).live,
      (levelSched 0 [1]).priority slot = (levelSched 0 [1]).priority 0 := fun _ _ => rfl
  have turns := round_robin_iff executing (Nat.le_refl 1) (by decide) equal run rfl
  exact ⟨_, run, turns.mpr rfl⟩

theorem third_process_starves :
    ∃ after, Run TickStep (levelSched 0 [1, 2]) (levelTicks 3) after ∧
      (levelSched 0 [1, 2]).live = [0, 1, 2] ∧
      (∀ slot ∈ (levelSched 0 [1, 2]).live, (levelSched 0 [1, 2]).priority slot = 1) ∧
      ¬ ∀ slot ∈ (levelSched 0 [1, 2]).live,
        after.dispatched.count slot = (levelSched 0 [1, 2]).dispatched.count slot + 1 := by
  have run : Run TickStep (levelSched 0 [1, 2]) (levelTicks 3) _ :=
    .next ⟨by decide +kernel, rfl⟩ <| .next ⟨by decide +kernel, rfl⟩ <|
      .next ⟨by decide +kernel, rfl⟩ (.done _)
  have turn : (levelSched 0 [1, 2]).Turn 0 1 [2] :=
    ⟨rfl, rfl, by decide, fun _ _ => rfl⟩
  refine ⟨_, run, rfl, fun _ _ => rfl, fun once => ?_⟩
  have starves := turn.ticks run (by decide : (2 : Slot) ≠ 0) (by decide)
  have dispatched := once 2 (by decide)
  omega

end LazyOS.Scheduling
