import LazyOS.Memory.Directories
import LazyOS.Memory.PmmRuns

namespace LazyOS.Memory

open LazyOS.Data

/-! Two pages in a fresh directory.  Both lie behind the same entry of the directory,
so the first of them needs a table and the second one uses it. -/

/-- A request that fails leaves the heap as it is, so it fails again. -/
def PageHeap.Persistent (heap : PageHeap) : Prop :=
  ∀ calls used, heap.answer calls used = 0 → heap.answer (calls + 1) used = 0

structure FreshDirectory (directory : Nat) (s : PagingState) : Prop where
  page : IsPage directory
  used : directory ∈ s.used
  blank : ∀ j, kernelSharedPdEntries ≤ j → j < 1024 → s.ram.load directory j = 0

theorem copyEntriesLoop_blank (directory kernelDirectory : Nat) (remaining i : Nat)
    (ram : Ram) {j : Nat} (above : i + remaining ≤ j) :
    (copyEntriesLoop directory kernelDirectory remaining i ram).load directory j =
      ram.load directory j := by
  induction remaining generalizing i ram with
  | zero => rfl
  | succ remaining ih =>
      simp only [copyEntriesLoop]
      rw [ih (i + 1) _ (by omega), Ram.load_store_of_index _ _ (by omega)]

variable {heap : PageHeap} {kernel directory : Nat} {s : PagingState}

theorem pagingNewProcessDirectory_fresh {ptr : Nat} {after : PagingState}
    (made : pagingNewProcessDirectory heap kernel s = (ptr, after))
    (nonzero : ptr ≠ 0) :
    FreshDirectory (after.ram.load ptr 0).toNat after ∧
      after.calls = s.calls + 2 ∧
      after.used = (after.ram.load ptr 0).toNat :: s.used ∧
      (after.ram.load ptr 0).toNat ∉ 0 :: s.used := by
  rcases pagingNewProcessDirectory_cases heap kernel s with
    failed | ⟨directory, nonnull, page, unused,
      failed | ⟨ptr, -, ptrPage, ptrFresh, returned⟩⟩
  · rw [failed] at made
    cases made
    exact absurd rfl nonzero
  · rw [failed] at made
    cases made
    exact absurd rfl nonzero
  · rw [returned] at made
    cases made
    have named : (((directoryRam kernel directory s.ram).clear ptr 4).store ptr 0
        (BitVec.ofNat 32 directory)).load ptr 0 = BitVec.ofNat 32 directory :=
      Ram.load_store_self ..
    simp only [named, toNat_of_isPage page]
    refine ⟨⟨page, List.mem_cons_self, ?_⟩, trivial, trivial,
      List.not_mem_cons_of_ne_of_not_mem nonnull unused⟩
    intro j high j_lt
    have apart : directory ≠ ptr := fun same => ptrFresh (same ▸ List.mem_cons_self)
    rw [load_pointer _ _ ptrPage page apart j_lt, directoryRam,
      copyEntriesLoop_blank _ _ _ _ _ (by omega), Ram.load_clear_self _ _ j_lt]

theorem pagingNewProcessDirectory_served (kernel : Nat)
    (first : heap.answer s.calls s.used ≠ 0)
    (second : heap.answer (s.calls + 1) (heap.answer s.calls s.used :: s.used) ≠ 0) :
    (pagingNewProcessDirectory heap kernel s).1 ≠ 0 ∧
      (pagingNewProcessDirectory heap kernel s).2.used =
        heap.answer s.calls s.used :: s.used := by
  obtain ⟨directory, -, -, -, allocated⟩ :=
    kzalloc_of_memory heap (4 * pagingTotalEntriesPerTable) first
  have answered : directory = heap.answer s.calls s.used := by
    rw [← kzalloc_answer heap (4 * pagingTotalEntriesPerTable) s, allocated]
  subst answered
  obtain ⟨ptr, nonzero, -, -, pointed⟩ := kzalloc_of_memory heap 4
    (s := ⟨copyEntriesLoop (heap.answer s.calls s.used) kernel kernelSharedPdEntries 0
      (s.ram.clear (heap.answer s.calls s.used) (4 * pagingTotalEntriesPerTable)),
      s.bitmap, s.calls + 1, heap.answer s.calls s.used :: s.used⟩) second
  simp only [pagingNewProcessDirectory, allocated, if_neg first, PagingState.use,
    pointed, if_neg nonzero]
  exact ⟨nonzero, rfl⟩

theorem pagingNewProcessDirectory_needs {kernel : Nat}
    (nonzero : (pagingNewProcessDirectory heap kernel s).1 ≠ 0) :
    heap.answer s.calls s.used ≠ 0 ∧
      heap.answer (s.calls + 1) (heap.answer s.calls s.used :: s.used) ≠ 0 := by
  have first : heap.answer s.calls s.used ≠ 0 := by
    intro none
    refine nonzero ?_
    simp only [pagingNewProcessDirectory, kzalloc, if_pos none, if_true]
  refine ⟨first, fun none => nonzero ?_⟩
  simp only [pagingNewProcessDirectory, kzalloc, if_neg first, PagingState.use, none,
    if_true]

section Page

variable {virt phys : Word} {d i : Nat}

theorem pagingSet_unserved (indexes : pagingGetIndexes virt = some (d, i))
    (absent : s.ram.load directory d = 0) (none : heap.answer s.calls s.used = 0) :
    (pagingSet heap directory virt phys s).2 = { s with calls := s.calls + 1 } := by
  have failed : kzalloc heap (4 * pagingTotalEntriesPerTable) s =
      (0, { s with calls := s.calls + 1 }) := by
    simp only [kzalloc, none, if_true]
  simp only [pagingSet, indexes, absent, if_neg not_present_zero, failed, if_true]

theorem pagingSet_served (used : directory ∈ s.used)
    (indexes : pagingGetIndexes virt = some (d, i))
    (absent : s.ram.load directory d = 0) (memory : heap.answer s.calls s.used ≠ 0) :
    ∃ table, IsPage table ∧ table ≠ directory ∧
      (pagingSet heap directory virt phys s).2 =
        { s with
          ram := ((s.ram.clear table (4 * pagingTotalEntriesPerTable)).store directory d
            (BitVec.ofNat 32 table ||| tableFlags)).store table i phys
          calls := s.calls + 1
          used := table :: s.used } := by
  obtain ⟨table, nonzero, page, unused, allocated⟩ :=
    kzalloc_of_memory heap (4 * pagingTotalEntriesPerTable) memory
  refine ⟨table, page, fun same => unused (same ▸ used), ?_⟩
  have behind : (frameOf (BitVec.ofNat 32 table ||| tableFlags)).toNat = table :=
    tableOf_or page (by decide)
  unfold tableFlags at behind ⊢
  simp only [pagingSet, indexes, absent, if_neg not_present_zero, allocated,
    if_neg nonzero, PagingState.use, PagingState.store, BitVec.or_assoc, behind]

theorem pagingSet_present {table : Nat} (page : IsPage table)
    (indexes : pagingGetIndexes virt = some (d, i))
    (entry : s.ram.load directory d = BitVec.ofNat 32 table ||| tableFlags) :
    (pagingSet heap directory virt phys s).2 = s.store table i phys := by
  have behind : (frameOf (BitVec.ofNat 32 table ||| tableFlags)).toNat = table :=
    tableOf_or page (by decide)
  have present : Present (BitVec.ofNat 32 table ||| tableFlags) :=
    present_or _ (by decide)
  simp only [pagingSet, indexes, entry, if_pos present, behind]

end Page

theorem ofInt_of_toUInt32 {value : Int} {address : Nat}
    (physical : toUInt32 value = address) :
    BitVec.ofInt 32 value = BitVec.ofNat 32 address := by
  apply BitVec.eq_of_toNat_eq
  rw [BitVec.toNat_ofInt, BitVec.toNat_ofNat, ← physical,
    Nat.mod_eq_of_lt (toUInt32_lt value)]
  rfl

structure TwoFrames (bitmap last : Bitmap) (low high : Nat) : Prop where
  apart : low < high
  bound : high < 2 ^ 20
  lowClear : bitAt bitmap low = false
  highClear : bitAt bitmap high = false
  below : ∀ frame < high, frame ≠ low → bitAt bitmap frame = true
  marked : ∀ frame, bitAt last frame =
    (bitAt bitmap frame || decide (frame = low) || decide (frame = high))

def HasTwoFrames (bitmap : Bitmap) : Prop :=
  ∃ low high, low < high ∧ high < 2 ^ 20 ∧ bitAt bitmap low = false ∧
    bitAt bitmap high = false

theorem Grant.second {bitmap middle last : Bitmap} {low high : Nat}
    (clear : bitAt bitmap low = false)
    (below : ∀ lower < low, bitAt bitmap lower = true)
    (marked : ∀ position,
      bitAt middle position = (bitAt bitmap position || decide (position = low)))
    (bound : high < 2 ^ 20) (nextClear : bitAt middle high = false)
    (nextBelow : ∀ lower < high, bitAt middle lower = true)
    (nextMarked : ∀ position,
      bitAt last position = (bitAt middle position || decide (position = high))) :
    TwoFrames bitmap last low high := by
  rw [marked, Bool.or_eq_false_iff, decide_eq_false_iff_not] at nextClear
  have apart : low < high := by
    by_contra notLess
    have lower : high < low := lt_of_le_of_ne (not_lt.mp notLess) nextClear.2
    rw [below high lower] at nextClear
    exact Bool.noConfusion nextClear.1
  refine ⟨apart, bound, clear, nextClear.1, ?_, ?_⟩
  · intro frame less notLow
    have taken := nextBelow frame less
    rw [marked, decide_eq_false notLow, Bool.or_false] at taken
    exact taken
  · intro frame
    rw [nextMarked, marked]

theorem not_hasTwoFrames_of_full {bitmap middle : Bitmap} {low : Nat}
    (marked : ∀ position,
      bitAt middle position = (bitAt bitmap position || decide (position = low)))
    (full : ∀ frame < 2 ^ 20, bitAt middle frame = true) : ¬ HasTwoFrames bitmap := by
  rintro ⟨first, second, apart, bound, firstClear, secondClear⟩
  have firstTaken := full first (apart.trans bound)
  have secondTaken := full second bound
  rw [marked, firstClear, Bool.false_or, decide_eq_true_eq] at firstTaken
  rw [marked, secondClear, Bool.false_or, decide_eq_true_eq] at secondTaken
  omega

structure TwoMapped (directory d i j : Nat) (flags : Word) (s after : PagingState)
    (low high table : Nat) : Prop where
  frames : TwoFrames s.bitmap after.bitmap low high
  page : IsPage table
  entry : after.ram.load directory d = BitVec.ofNat 32 table ||| tableFlags
  first : after.ram.load table i = BitVec.ofNat 32 (4096 * low) ||| flags
  second : after.ram.load table j = BitVec.ofNat 32 (4096 * high) ||| flags
  used : after.used = table :: s.used
  calls : after.calls = s.calls + 1

inductive TwoPages (heap : PageHeap) (directory d i j : Nat) (flags : Word)
    (s : PagingState) : Bool × PagingState → Prop
  | short {after : PagingState} (few : ¬ HasTwoFrames s.bitmap)
      (blank : ∀ k, kernelSharedPdEntries ≤ k → k < 1024 → k ≠ d →
        after.ram.load directory k = 0) :
      TwoPages heap directory d i j flags s (false, after)
  | bare {after : PagingState} (none : heap.answer s.calls s.used = 0)
      (blank : after.ram.load directory d = 0) :
      TwoPages heap directory d i j flags s (true, after)
  | mapped {after : PagingState} {low high table : Nat}
      (mapped : TwoMapped directory d i j flags s after low high table) :
      TwoPages heap directory d i j flags s (true, after)

section Pages

variable {v flags : Word} {d i j : Nat}

structure OneMapped (directory d i : Nat) (value : Word) (s after : PagingState)
    (table : Nat) : Prop where
  page : IsPage table
  apart : table ≠ directory
  entries : ∀ k < 1024, after.ram.load directory k =
    if k = d then BitVec.ofNat 32 table ||| tableFlags else s.ram.load directory k
  first : after.ram.load table i = value
  bitmap : after.bitmap = s.bitmap
  used : after.used = table :: s.used
  calls : after.calls = s.calls + 1

theorem pagingSet_oneMapped (fresh : FreshDirectory directory s) {virt value : Word}
    (indexes : pagingGetIndexes virt = some (d, i))
    (absent : s.ram.load directory d = 0) (memory : heap.answer s.calls s.used ≠ 0) :
    ∃ table, OneMapped directory d i value s
      (pagingSet heap directory virt value s).2 table := by
  obtain ⟨d_lt, i_lt, -⟩ := pagingGetIndexes_eq_some indexes
  obtain ⟨table, page, apart, set⟩ := pagingSet_served fresh.used indexes absent memory
  refine ⟨table, ?_⟩
  rw [set]
  refine ⟨page, apart, ?_, Ram.load_store_self .., rfl, rfl, rfl⟩
  intro k k_lt
  refine (Ram.load_store_of_page _ _ page fresh.page i_lt k_lt apart.symm).trans ?_
  by_cases same : k = d
  · subst same
    rw [if_pos rfl, Ram.load_store_self]
  · rw [if_neg same, Ram.load_store_of_index _ _ same,
      Ram.load_clear_of_page _ page fresh.page (by decide) k_lt apart.symm]

theorem OneMapped.second (heap : PageHeap) {middle : PagingState} {table : Nat}
    {virt first : Word} (second : Word) (bitmap : Bitmap)
    (fresh : FreshDirectory directory s)
    (mapped : OneMapped directory d i first s middle table) (d_lt : d < 1024)
    (indexes : pagingGetIndexes virt = some (d, j)) (different : i ≠ j) :
    (pagingSet heap directory virt second { middle with bitmap := bitmap }).2 =
        { middle with ram := middle.ram.store table j second, bitmap := bitmap } ∧
      (middle.ram.store table j second).load directory d =
        BitVec.ofNat 32 table ||| tableFlags ∧
      (middle.ram.store table j second).load table i = first := by
  obtain ⟨-, j_lt, -⟩ := pagingGetIndexes_eq_some indexes
  have entry := (mapped.entries d d_lt).trans (if_pos rfl)
  refine ⟨?_, ?_, ?_⟩
  · exact pagingSet_present (s := { middle with bitmap := bitmap }) mapped.page indexes
      entry
  · rw [Ram.load_store_of_page _ _ mapped.page fresh.page j_lt d_lt mapped.apart.symm,
      entry]
  · rw [Ram.load_store_of_index _ _ different, mapped.first]

theorem vmmAllocLoop_two (flags : Word)
    (persistent : heap.answer s.calls s.used = 0 →
      heap.answer (s.calls + 1) s.used = 0)
    (fresh : FreshDirectory directory s)
    (here : pagingGetIndexes (pageAt v 0) = some (d, i))
    (next : pagingGetIndexes (pageAt v 1) = some (d, j)) (different : i ≠ j)
    (above : kernelSharedPdEntries ≤ d) :
    TwoPages heap directory d i j flags s
      (vmmAllocLoop heap directory v flags 2 0 s) := by
  obtain ⟨d_lt, i_lt, -⟩ := pagingGetIndexes_eq_some here
  have absent := fresh.blank d above d_lt
  have grant := getFreePhysicalAddress_grant s.bitmap
  simp only [vmmAllocLoop]
  generalize getFreePhysicalAddress s.bitmap = result at grant
  cases grant with
  | exhausted full =>
      rw [if_pos rfl]
      refine .short ?_ fun k high k_lt _ => fresh.blank k high k_lt
      rintro ⟨low, high, apart, bound, clear, -⟩
      rw [full low (apart.trans bound)] at clear
      exact Bool.noConfusion clear
  | lowest low lowBound lowClear lowBelow address middle lowPhysical lowMarked =>
      rw [if_neg (success_ne_noMemory lowPhysical), pagingSet_bitmap]
      have grant := getFreePhysicalAddress_grant middle
      simp only
      generalize getFreePhysicalAddress middle = result at grant
      -- The table decides what becomes of both pages.
      by_cases none : heap.answer s.calls s.used = 0
      · rw [pagingSet_unserved (s := { s with bitmap := middle }) here absent none]
        cases grant with
        | exhausted full =>
            rw [if_pos rfl]
            exact .short (not_hasTwoFrames_of_full lowMarked full)
              fun k high k_lt _ => fresh.blank k high k_lt
        | lowest high highBound _ _ address last highPhysical _ =>
            rw [if_neg (success_ne_noMemory highPhysical), pagingSet_unserved
              (s := { s with bitmap := last, calls := s.calls + 1 }) next absent
              (persistent none)]
            exact .bare none absent
      · obtain ⟨table, mapped⟩ := pagingSet_oneMapped
          (s := { s with bitmap := middle }) ⟨fresh.page, fresh.used, fresh.blank⟩ here
          absent none
        generalize (pagingSet heap directory (pageAt v 0) _
          { s with bitmap := middle }).2 = after at mapped
        cases grant with
        | exhausted full =>
            rw [if_pos rfl]
            refine .short (not_hasTwoFrames_of_full lowMarked full)
              fun k high k_lt notHere => ?_
            exact (mapped.entries k k_lt).trans
              ((if_neg notHere).trans (fresh.blank k high k_lt))
        | lowest high highBound highClear highBelow nextAddress last highPhysical
            highMarked =>
            have frames := Grant.second lowClear lowBelow lowMarked highBound highClear
              highBelow highMarked
            obtain ⟨set, entry, first⟩ := OneMapped.second heap
              (BitVec.ofInt 32 nextAddress ||| flags) last
              (s := { s with bitmap := middle })
              ⟨fresh.page, fresh.used, fresh.blank⟩ mapped d_lt next different
            rw [if_neg (success_ne_noMemory highPhysical), set]
            refine .mapped ⟨frames, mapped.page, entry, ?_, ?_, mapped.used,
              mapped.calls⟩
            · rw [first, ofInt_of_toUInt32 lowPhysical]
            · refine (Ram.load_store_self ..).trans ?_
              rw [ofInt_of_toUInt32 highPhysical]

structure OneTable (directory d : Nat) (s : PagingState) : Prop where
  page : IsPage directory
  used : directory ∈ s.used
  blank : ∀ k, kernelSharedPdEntries ≤ k → k < 1024 → k ≠ d →
    s.ram.load directory k = 0
  table : s.ram.load directory d = 0 ∨
    ∃ table, IsPage table ∧ table ≠ directory ∧
      s.ram.load directory d = BitVec.ofNat 32 table ||| tableFlags

theorem FreshDirectory.oneTable (fresh : FreshDirectory directory s)
    (above : kernelSharedPdEntries ≤ d) (d_lt : d < 1024) :
    OneTable directory d s :=
  ⟨fresh.page, fresh.used, fun k high k_lt _ => fresh.blank k high k_lt,
    .inl (fresh.blank d above d_lt)⟩

theorem pagingSet_oneTable (inv : OneTable directory d s) {virt : Word} (phys : Word)
    (indexes : pagingGetIndexes virt = some (d, i)) :
    OneTable directory d (pagingSet heap directory virt phys s).2 := by
  obtain ⟨d_lt, i_lt, -⟩ := pagingGetIndexes_eq_some indexes
  rcases inv.table with absent | ⟨table, page, apart, entry⟩
  · by_cases none : heap.answer s.calls s.used = 0
    · rw [pagingSet_unserved indexes absent none]
      exact ⟨inv.page, inv.used, inv.blank, inv.table⟩
    · obtain ⟨table, page, apart, set⟩ := pagingSet_served inv.used indexes absent none
      have kept : ∀ ram : Ram, ∀ k < 1024,
          (ram.store table i phys).load directory k = ram.load directory k :=
        fun ram k k_lt =>
          Ram.load_store_of_page _ _ page inv.page i_lt k_lt apart.symm
      rw [set]
      refine ⟨inv.page, List.mem_cons_of_mem _ inv.used, fun k high k_lt other => ?_,
        .inr ⟨table, page, apart, ?_⟩⟩
      · rw [kept _ k k_lt, Ram.load_store_of_index _ _ other,
          Ram.load_clear_of_page _ page inv.page (by decide) k_lt apart.symm]
        exact inv.blank k high k_lt other
      · rw [kept _ d d_lt, Ram.load_store_self]
  · have kept : ∀ k < 1024,
        (s.store table i phys).ram.load directory k = s.ram.load directory k :=
      fun k k_lt => Ram.load_store_of_page _ _ page inv.page i_lt k_lt apart.symm
    rw [pagingSet_present page indexes entry]
    refine ⟨inv.page, inv.used, fun k high k_lt other => ?_,
      .inr ⟨table, page, apart, ?_⟩⟩
    · rw [kept k k_lt]
      exact inv.blank k high k_lt other
    · rw [kept d d_lt]
      exact entry

theorem vmmAllocLoop_oneTable (heap : PageHeap) (flags : Word) {remaining first : Nat}
    (inv : OneTable directory d s)
    (behind : ∀ k < first + remaining, ∃ i, pagingGetIndexes (pageAt v k) = some (d, i)) :
    OneTable directory d (vmmAllocLoop heap directory v flags remaining first s).2 := by
  induction remaining generalizing first s with
  | zero => exact inv
  | succ remaining ih =>
      have marked : ∀ bitmap, OneTable directory d { s with bitmap := bitmap } :=
        fun _ => ⟨inv.page, inv.used, inv.blank, inv.table⟩
      simp only [vmmAllocLoop]
      split
      · exact marked _
      · obtain ⟨i, indexes⟩ := behind first (by omega)
        refine ih (pagingSet_oneTable (marked _) _ indexes) fun k less => ?_
        exact behind k (by omega)

theorem vmmAllocLoop_unserved (flags : Word) {remaining first : Nat}
    (absent : s.ram.load directory d = 0)
    (none : ∀ k < remaining, heap.answer (s.calls + k) s.used = 0)
    (behind : ∀ k < first + remaining, ∃ i, pagingGetIndexes (pageAt v k) = some (d, i)) :
    (vmmAllocLoop heap directory v flags remaining first s).2.ram = s.ram := by
  induction remaining generalizing first s with
  | zero => rfl
  | succ remaining ih =>
      simp only [vmmAllocLoop]
      split
      · rfl
      · obtain ⟨i, indexes⟩ := behind first (by omega)
        rw [pagingSet_unserved
          (s := { s with bitmap := (getFreePhysicalAddress s.bitmap).2 }) indexes absent
          (none 0 (by omega))]
        refine ih absent (fun k less => ?_) fun k less => behind k (by omega)
        have later := none (k + 1) (by omega)
        rwa [Nat.add_comm k, ← Nat.add_assoc] at later

theorem TwoMapped.translation {after : PagingState} {low high table : Nat}
    (mapped : TwoMapped directory d i j flags s after low high table)
    (present : Present flags) (page frame : Nat) (here : page / 1024 = d)
    (which : page % 1024 = i ∧ frame = low ∨ page % 1024 = j ∧ frame = high) :
    Memory.translation after.ram directory page =
      some (BitVec.ofNat 32 table ||| tableFlags,
        BitVec.ofNat 32 (4096 * frame) ||| flags) := by
  have behind : tableOf (BitVec.ofNat 32 table ||| tableFlags) = table :=
    tableOf_or mapped.page (by decide)
  have entry : Present (BitVec.ofNat 32 table ||| tableFlags) := present_or _ (by decide)
  have found : after.ram.load table (page % 1024) =
      BitVec.ofNat 32 (4096 * frame) ||| flags := by
    rcases which with ⟨rfl, rfl⟩ | ⟨rfl, rfl⟩
    · exact mapped.first
    · exact mapped.second
  simp only [Memory.translation, pagingTotalEntriesPerTable, here, mapped.entry,
    if_pos entry, behind, found, if_pos (present_or _ present)]

end Pages

theorem freePhysicalFrame_one (bitmap : Bitmap) (physicalAddr : Nat) :
    ∃ frame, ∀ position, position ≠ frame →
      bitAt (freePhysicalFrame bitmap physicalAddr) position =
        bitAt bitmap position := by
  refine ⟨physicalAddr / 4096, fun position other => ?_⟩
  rw [bitAt_freePhysicalFrame, decide_eq_false other, Bool.not_false, Bool.and_true]

theorem freeVmm_one (directory : Nat) (virtStart : Word) (s : PagingState)
    {size : Word} (one : pageCount size = 1) :
    (freeVmm directory virtStart size s).2.used = s.used ∧
    ∃ frame, ∀ position, position ≠ frame →
      bitAt (freeVmm directory virtStart size s).2.bitmap position =
        bitAt s.bitmap position := by
  unfold freeVmm
  split
  · exact ⟨rfl, 0, fun _ _ => rfl⟩
  · rw [one]
    simp only [freeVmmLoop]
    split
    · exact ⟨rfl, 0, fun _ _ => rfl⟩
    · split
      · split
        · exact ⟨rfl, freePhysicalFrame_one _ _⟩
        · exact ⟨rfl, 0, fun _ _ => rfl⟩
      · exact ⟨rfl, 0, fun _ _ => rfl⟩

end LazyOS.Memory
