import LazyOS.Memory.BootMap
import LazyOS.Memory.HeapUndo
import LazyOS.Memory.PageRequests

namespace LazyOS.Memory

open LazyOS.Data

/-! The kernel's heap while it only grows.  What is taken are its lowest blocks, so every
request gets the next one. -/

/-- The lowest `first` blocks are taken and the others are as `create_heap` left them. -/
structure TakenBelow (region : Region) (entries : Int → Byte) (first : Nat) : Prop where
  free : ∀ block, FreeBlock region entries block ↔ first ≤ block ∧ block < region.capacity
  zero : FreeMeansZero region (region.heap entries)

section Blocks

variable {region : Region} {entries : Int → Byte} {first : Nat}

theorem TakenBelow.freeRun (below : TakenBelow region entries first) {start count : Nat}
    (some : 0 < count) :
    (region.heap entries).table.FreeRun ⟨start, count⟩ ↔
      first ≤ start ∧ start + count ≤ region.capacity := by
  constructor
  · rintro ⟨inside, free⟩
    have inside : start + count ≤ region.capacity := inside
    have here : FreeBlock region entries start :=
      ⟨by omega, free start (Range.contains_first some)⟩
    exact ⟨((below.free start).mp here).1, inside⟩
  · rintro ⟨lower, inside⟩
    refine ⟨inside, fun block contains => ?_⟩
    rw [Range.contains_iff] at contains
    simp only at contains
    exact ((below.free block).mpr (by omega)).2

theorem TakenBelow.firstFit (below : TakenBelow region entries first) {start count : Nat}
    (some : 0 < count) (fit : FirstFit (region.heap entries).table count start) :
    start = first := by
  obtain ⟨lower, inside⟩ := (below.freeRun some).mp fit.run
  by_contra different
  exact fit.least first (by omega) ((below.freeRun some).mpr ⟨le_refl _, by omega⟩)

theorem TakenBelow.malloc (below : TakenBelow region entries first) (size : Nat)
    (positive : 1 ≤ size) (bounded : size ≤ 0xFFFFF000)
    (room : first + blocksFor size ≤ region.capacity) :
    ∃ after, heapMalloc (region.heap entries) size =
        (region.start + 4096 * first, region.heap after) ∧
      TakenBelow region after (first + blocksFor size) := by
  have some := blocksFor_pos positive
  have run := (below.freeRun some).mpr ⟨le_refl first, room⟩
  obtain ⟨start, fit, called⟩ := heapMalloc_fits positive bounded ⟨first, run⟩
  obtain rfl := below.firstFit some fit
  refine ⟨(heapMarkBlocksTaken (region.heap entries) start (blocksFor size)).table.entries,
    called, fun block => ?_, ?_⟩
  · have entry := heapMarkBlocksTaken_apply (region.heap entries) ⟨start, blocksFor size⟩
      some fit.bounded block
    have before := below.free block
    unfold FreeBlock HeapTable.IsFree at before ⊢
    simp only [Region.heap_entries] at entry before ⊢
    rw [entry]
    by_cases inside : Range.Contains ⟨start, blocksFor size⟩ block
    · have marked := heapGetEntryType_blockMark ⟨start, blocksFor size⟩ block
      rw [Range.contains_iff] at inside
      simp only at inside
      rw [if_pos (by rw [Range.contains_iff]; exact inside)]
      exact iff_of_false (fun free => marked free.2) (by omega)
    · rw [if_neg inside, before]
      rw [Range.contains_iff] at inside
      simp only at inside
      omega
  · have kept := heapMalloc_freeMeansZero below.zero size
    rw [called] at kept
    exact kept

theorem TakenBelow.fits (below : TakenBelow region entries first) {count : Nat}
    (some : 0 < count) (room : first + count ≤ region.capacity) :
    FirstFit (region.heap entries).table count first := by
  refine ⟨(below.freeRun some).mpr ⟨le_refl first, room⟩, fun start less run => ?_⟩
  have lower := ((below.freeRun some).mp run).1
  omega

theorem TakenBelow.release (below : TakenBelow region entries first) {size : Nat}
    (one : blocksFor size = 1) (room : first < region.capacity) (near : first < 2 ^ 19) :
    ∃ after, mallocThenFree (region.heap entries) size = region.heap after ∧
      TakenBelow region after first := by
  have positive : 1 ≤ size := by
    unfold blocksFor at one
    omega
  have bounded : size ≤ 0xFFFFF000 := by
    unfold blocksFor at one
    omega
  have fit : FirstFit (region.heap entries).table (blocksFor size) first := by
    rw [one]
    exact below.fits Nat.one_pos room
  have restored : ∀ block < region.capacity,
      (mallocThenFree (region.heap entries) size).table.entries block = entries block :=
    fun _ inside => fit.undone below.zero.zero positive bounded near (.inl one) inside
  have zero : FreeMeansZero region (mallocThenFree (region.heap entries) size) :=
    heapFree_freeMeansZero (heapMalloc_freeMeansZero below.zero size) _
  have heap := zero.heap_eq
  refine ⟨_, heap, fun block => ?_, heap ▸ zero⟩
  rw [← below.free block]
  refine and_congr_right fun inside => ?_
  unfold HeapTable.IsFree
  rw [Region.heap_entries, Region.heap_entries, restored block inside]

theorem TakenBelow.page (below : TakenBelow region entries first)
    (room : first < region.capacity) :
    (heapMalloc (region.heap entries) pagingPageSize).1 = region.start + 4096 * first ∧
      TakenBelow region (requestPage region entries) (first + 1) := by
  have one : blocksFor pagingPageSize = 1 := by decide
  obtain ⟨after, called, taken⟩ := below.malloc pagingPageSize (by decide)
    (by decide) (by omega)
  unfold requestPage
  rw [called]
  rw [one] at taken
  exact ⟨rfl, taken⟩

theorem TakenBelow.pages (below : TakenBelow region entries first) (count : Nat)
    (room : first + count ≤ region.capacity) :
    TakenBelow region (requestPages region count entries) (first + count) := by
  induction count with
  | zero => exact below
  | succ count ih =>
      rw [requestPages_succ]
      exact ((ih (by omega)).page (by omega)).2

end Blocks

/-- The blocks that hold directories and tables are among the lowest `first`. -/
def UsedBelow (region : Region) (first : Nat) (used : List Nat) : Prop :=
  ∀ block ∈ used, ∃ place < first, block = region.start + 4096 * place

section Pages

variable {region : Region} {entries : Int → Byte} {first since count : Nat}
  {used : List Nat} {s : PagingState}

theorem UsedBelow.mono (holds : UsedBelow region first used) {later : Nat}
    (grows : first ≤ later) : UsedBelow region later used := by
  intro block member
  obtain ⟨place, less, rfl⟩ := holds block member
  exact ⟨place, by omega, rfl⟩

theorem UsedBelow.unused (holds : UsedBelow region first used) :
    (region.start + 4096 * first) ∉ used := by
  intro member
  obtain ⟨place, less, same⟩ := holds _ member
  omega

theorem UsedBelow.cons (holds : UsedBelow region first used) :
    UsedBelow region (first + 1) ((region.start + 4096 * first) :: used) := by
  intro block member
  rcases List.mem_cons.mp member with rfl | member
  · exact ⟨first, Nat.lt_succ_self first, rfl⟩
  · exact holds.mono (Nat.le_succ first) block member

theorem UsedBelow.isPage (holds : UsedBelow region first used)
    (room : first ≤ region.capacity) : ∀ block ∈ used, IsPage block := by
  intro block member
  obtain ⟨place, less, rfl⟩ := holds block member
  exact region.isPage (by omega)

theorem TakenBelow.answer (below : TakenBelow region entries first) (since count : Nat)
    (room : first + count < region.capacity) (holds : UsedBelow region (first + count) used) :
    (kernelPages region entries since).answer (since + count) used =
      region.start + 4096 * (first + count) := by
  have page := ((below.pages count (by omega)).page room).1
  simp only [kernelPages, Nat.add_sub_cancel_left, page, if_neg holds.unused]

theorem TakenBelow.serves (below : TakenBelow region entries first) (since requests : Nat)
    (room : first + count + requests ≤ region.capacity)
    (holds : UsedBelow region (first + count) used) :
    (kernelPages region entries since).Serves requests (since + count) used := by
  induction requests generalizing count used with
  | zero => trivial
  | succ requests ih =>
      have start := region.start_pos
      have answered := below.answer since count (by omega) holds
      refine ⟨by omega, ?_⟩
      rw [answered, Nat.add_assoc]
      exact ih (by omega) holds.cons

end Pages

section Directory

variable {region : Region} {entries : Int → Byte} {first since count : Nat}
  {flags : Word} {directory : Nat} {s : PagingState}

theorem kzalloc_bitmap (heap : PageHeap) (bytes : Nat) (s : PagingState) :
    (kzalloc heap bytes s).2.bitmap = s.bitmap := by
  rcases kzalloc_cases heap bytes s with failed | ⟨block, -, -, -, allocated⟩
  · rw [failed]
  · rw [allocated]

theorem newTablesLoop_bitmap (heap : PageHeap) (directory : Nat) (flags : Word)
    (remaining i : Nat) (offset : Word) (s : PagingState) :
    (newTablesLoop heap directory flags remaining i offset s).bitmap = s.bitmap := by
  induction remaining generalizing i offset s with
  | zero => rfl
  | succ remaining ih =>
      simp only [newTablesLoop]
      rw [ih]
      exact kzalloc_bitmap heap _ s

/-- After `count` more requests the directories and tables are in the lowest `first + count`
blocks. -/
structure Grown (region : Region) (first since count : Nat) (s : PagingState) : Prop where
  calls : s.calls = since + count
  used : UsedBelow region (first + count) s.used

theorem newTablesLoop_grown (below : TakenBelow region entries first) (flags : Word)
    (count remaining i : Nat) (offset : Word) (all : i + remaining ≤ 1024)
    (room : first + count + remaining ≤ region.capacity) (page : IsPage directory)
    (member : directory ∈ s.used) (grown : Grown region first since count s) :
    Grown region first since (count + remaining)
      (newTablesLoop (kernelPages region entries since) directory flags remaining i offset
        s) := by
  induction remaining generalizing i offset s count with
  | zero => exact grown
  | succ remaining ih =>
      have start := region.start_pos
      have answered := below.answer since count (by omega) grown.used
      rw [← grown.calls] at answered
      have served : (kernelPages region entries since).answer s.calls s.used ≠ 0 := by
        omega
      obtain ⟨table, after, adds, turn⟩ :=
        newTablesLoop_turn flags remaining i offset page member (by omega) served
      rw [turn, ← Nat.add_assoc, Nat.add_right_comm]
      refine ih (count + 1) (i + 1) _ (by omega) (by omega) ?_ ⟨?_, ?_⟩
      · rw [adds.used]
        exact List.mem_cons_of_mem _ member
      · rw [adds.calls, grown.calls, Nat.add_assoc]
      · rw [adds.used, adds.answered, answered]
        exact grown.used.cons

structure BootDirectory (region : Region) (first since : Nat) (flags : Word)
    (bitmap : Bitmap) (directory : Nat) (s : PagingState) : Prop where
  place : directory = region.start + 4096 * first
  maps : MapsTables directory flags 1024 s
  grown : Grown region first since 1026 s
  bitmap : s.bitmap = bitmap

theorem kzalloc_below (below : TakenBelow region entries first) (bytes : Nat)
    (room : first + count < region.capacity) (grown : Grown region first since count s) :
    kzalloc (kernelPages region entries since) bytes s =
      (region.start + 4096 * (first + count),
        { s with
          ram := s.ram.clear (region.start + 4096 * (first + count)) bytes
          calls := s.calls + 1 }) := by
  have start := region.start_pos
  have answered := below.answer since count room grown.used
  rw [← grown.calls] at answered
  unfold kzalloc
  rw [answered]
  exact if_neg (by omega)

theorem pagingNew4gb_below (below : TakenBelow region entries first) (flags : Word)
    (room : first + 1026 ≤ region.capacity) (blank : s.used = []) :
    ∃ ptr after, pagingNew4gb (kernelPages region entries s.calls) flags s = (ptr, after) ∧
      BootDirectory region first s.calls flags s.bitmap (after.ram.load ptr 0).toNat
        after := by
  have empty : Grown region first s.calls 0 s :=
    ⟨rfl, fun block member => absurd (blank ▸ member) List.not_mem_nil⟩
  have allocated := kzalloc_below below (4 * pagingTotalEntriesPerTable) (by omega) empty
  have free : FreeBlock region entries first := (below.free first).mpr ⟨le_refl _, by omega⟩
  have page := free.isPage
  have start : MapsTables (region.start + 4096 * first) flags 0
      { s with
        ram := s.ram.clear (region.start + 4096 * first) (4 * pagingTotalEntriesPerTable)
        calls := s.calls + 1
        used := (region.start + 4096 * first) :: s.used } :=
    ⟨page, List.mem_cons_self, fun k k_lt => absurd k_lt (Nat.not_lt_zero k)⟩
  obtain ⟨maps, -⟩ := newTablesLoop_maps pagingTotalEntriesPerTable 0 1 (by decide)
    (below.serves s.calls 1025 (by omega) empty.used.cons) start
  have grown := newTablesLoop_grown below flags 1
    pagingTotalEntriesPerTable 0 0 (by decide)
    (by unfold pagingTotalEntriesPerTable; omega) page start.used
    ⟨rfl, empty.used.cons⟩
  have bitmap := newTablesLoop_bitmap (kernelPages region entries s.calls)
    (region.start + 4096 * first) flags pagingTotalEntriesPerTable 0 0
    { s with
      ram := s.ram.clear (region.start + 4096 * first) (4 * pagingTotalEntriesPerTable)
      calls := s.calls + 1
      used := (region.start + 4096 * first) :: s.used }
  rw [tableOffset_zero] at maps
  refine ⟨_, _, Prod.mk.eta.symm, ?_⟩
  simp only [pagingNew4gb, allocated, PagingState.use, Nat.add_zero]
  generalize newTablesLoop (kernelPages region entries s.calls)
    (region.start + 4096 * first) flags pagingTotalEntriesPerTable 0 0 _ = filled
    at maps grown bitmap ⊢
  have next : first + (1 + pagingTotalEntriesPerTable) = first + 1025 := rfl
  have pointed := kzalloc_below below 4 (by omega) grown
  have ptrPage := ((below.free (first + 1025)).mpr ⟨by omega, by omega⟩).isPage
  have unused := grown.used.unused
  rw [next] at pointed unused
  have apart : ∀ block ∈ filled.used, block ≠ region.start + 4096 * (first + 1025) :=
    fun block member same => unused (same ▸ member)
  have kept : MapsTables (region.start + 4096 * first) flags 1024 { filled with
      ram := (filled.ram.clear (region.start + 4096 * (first + 1025)) 4).store
        (region.start + 4096 * (first + 1025)) 0
        (BitVec.ofNat 32 (region.start + 4096 * first))
      calls := filled.calls + 1 } := by
    refine maps.keep (fun _ member => member) ?_ ?_
    · intro k k_lt
      exact load_pointer _ _ ptrPage page (apart _ maps.used) k_lt
    · intro table tableUsed tablePage _ j j_lt
      exact load_pointer _ _ ptrPage tablePage (apart table tableUsed) j_lt
  simp only [pointed, PagingState.store, Ram.load_store_self, toNat_of_isPage page]
  refine ⟨rfl, kept, ⟨?_, ?_⟩, bitmap⟩
  · exact congrArg (· + 1) grown.calls
  · exact grown.used.mono (by omega)

/-- Every page is mapped to itself, with the flags given. -/
def IdentityTranslated (ram : Ram) (directory : Nat) (flags : Word) : Prop :=
  ∀ page < totalPages, ∃ entry,
    translation ram directory page = some (entry, identityEntry flags page)

theorem MapsTables.entry (maps : MapsTables directory flags 1024 s)
    (low : flags.toNat < 4096) {i : Nat} (i_lt : i < 1024) :
    ∃ table ∈ s.used, IsPage table ∧ table ≠ directory ∧
      tableOf (s.ram.load directory i) = table ∧
      (Present flags → Present (s.ram.load directory i)) ∧
      ∀ j < 1024, s.ram.load table j = identityEntry flags (1024 * i + j) := by
  obtain ⟨table, used, page, apart, entry, words⟩ := maps.tables i i_lt
  refine ⟨table, used, page, apart, ?_, fun present => ?_, words⟩
  · rw [entry, tableOf_or page (writable_low low)]
  · rw [entry, BitVec.or_comm flags, ← BitVec.or_assoc]
    exact present_or _ present

theorem MapsTables.identityTranslated (maps : MapsTables directory flags 1024 s)
    (low : flags.toNat < 4096) (present : Present flags) :
    IdentityTranslated s.ram directory flags := by
  intro page inside
  obtain ⟨table, -, -, -, behind, linked, words⟩ := maps.entry low (directory_index_lt inside)
  have word : s.ram.load table (page % 1024) = identityEntry flags page := by
    rw [words _ (Nat.mod_lt _ (by decide)), Nat.div_add_mod]
  refine ⟨s.ram.load directory (page / 1024), ?_⟩
  simp only [translation, pagingTotalEntriesPerTable, if_pos (linked present), behind, word]
  exact if_pos (present_or _ present)

theorem MapsTables.spaces (maps : MapsTables directory flags 1024 s)
    (pages : ∀ block ∈ s.used, IsPage block) (low : flags.toNat < 4096)
    (present : Present flags) : SpacesInv directory s [directory] := by
  have only : ∀ other ∈ [directory], other = directory := fun other member =>
    List.mem_singleton.mp member
  refine ⟨⟨pages, ?_, ?_, ?_⟩, List.mem_singleton.mpr rfl, ?_, ?_⟩
  · intro other member
    exact only other member ▸ maps.used
  · intro other member i i_lt _
    obtain rfl := only other member
    obtain ⟨table, used, -, apart, behind, -⟩ := maps.entry low i_lt
    rw [behind]
    exact ⟨used, fun isDirectory => apart (only table isDirectory)⟩
  · intro left leftIn right rightIn i i_lt j j_lt _ _ same
    obtain rfl := only left leftIn
    obtain rfl := only right rightIn
    obtain ⟨first, -, -, -, firstBehind, -, firstWords⟩ := maps.entry low i_lt
    obtain ⟨second, -, -, -, secondBehind, -, secondWords⟩ := maps.entry low j_lt
    rw [firstBehind, secondBehind] at same
    subst same
    -- The first word of a table tells which one it is.
    have words := (firstWords 0 (by decide)).symm.trans (secondWords 0 (by decide))
    have frames := congrArg tableOf words
    rw [identityEntry_frame low (by unfold totalPages; omega),
      identityEntry_frame low (by unfold totalPages; omega)] at frames
    unfold pagingPageSize at frames
    exact ⟨by omega, .inl rfl⟩
  · intro other member i _
    rw [only other member]
  · intro i i_lt
    obtain ⟨-, -, -, -, -, linked, -⟩ := maps.entry low (lt_of_lt_shared i_lt)
    exact linked present

end Directory

section Requests

variable {region : Region} {entries : Int → Byte} {first since count directory : Nat}
  {s : PagingState}

theorem pagingSet_grown (below : TakenBelow region entries first) (directory : Nat)
    (virt phys : Word)
    (room : first + count < region.capacity) (grown : Grown region first since count s) :
    ∃ more ≤ 1, Grown region first since (count + more)
      (pagingSet (kernelPages region entries since) directory virt phys s).2 := by
  unfold pagingSet
  split
  · exact ⟨0, Nat.zero_le 1, grown⟩
  · simp only
    split
    · exact ⟨0, Nat.zero_le 1, grown.calls, grown.used⟩
    · have start := region.start_pos
      rw [kzalloc_below below (4 * pagingTotalEntriesPerTable) room grown]
      simp only [if_neg (show ¬ region.start + 4096 * (first + count) = 0 by omega)]
      refine ⟨1, le_refl 1, ?_, grown.used.cons⟩
      exact congrArg (· + 1) grown.calls

theorem vmmAllocLoop_grown (below : TakenBelow region entries first)
    (virtStart flags : Word) (remaining i : Nat)
    (room : first + count + remaining ≤ region.capacity)
    (grown : Grown region first since count s) :
    ∃ more ≤ remaining, Grown region first since (count + more)
      (vmmAllocLoop (kernelPages region entries since) directory virtStart flags remaining i
        s).2 := by
  induction remaining generalizing i s count with
  | zero => exact ⟨0, le_refl 0, grown⟩
  | succ remaining ih =>
      simp only [vmmAllocLoop]
      have taken : Grown region first since count
          { s with bitmap := (getFreePhysicalAddress s.bitmap).2 } := ⟨grown.calls, grown.used⟩
      split
      · exact ⟨0, Nat.zero_le _, taken⟩
      · obtain ⟨set, one, mapped⟩ := pagingSet_grown below directory
          (pageAt virtStart i) _ (by omega) taken
        obtain ⟨more, few, rest⟩ := ih (i + 1) (by omega) mapped
        exact ⟨set + more, by omega, by rwa [← Nat.add_assoc]⟩

theorem vmmAllocLoop_marks (heap : PageHeap) (virtStart flags : Word) (remaining i : Nat)
    {position : Nat} (set : bitAt s.bitmap position = true) :
    bitAt (vmmAllocLoop heap directory virtStart flags remaining i s).2.bitmap position =
      true := by
  induction remaining generalizing i s with
  | zero => exact set
  | succ remaining ih =>
      have granted : bitAt (getFreePhysicalAddress s.bitmap).2 position = true := by
        have grant := getFreePhysicalAddress_grant s.bitmap
        generalize getFreePhysicalAddress s.bitmap = result at grant
        cases grant with
        | exhausted full => exact set
        | lowest frame bound clear below address result physical marked =>
            rw [marked, set]
            rfl
      simp only [vmmAllocLoop]
      split
      · exact granted
      · exact ih (i + 1) (by rwa [pagingSet_bitmap])

theorem pagingNewProcessDirectory_grown (kernel : Nat)
    (below : TakenBelow region entries first) (room : first + 2 ≤ region.capacity)
    (holds : UsedBelow region first s.used) :
    let result := pagingNewProcessDirectory (kernelPages region entries s.calls) kernel s
    result.1 ≠ 0 ∧ Grown region first s.calls 2 result.2 := by
  have start := region.start_pos
  have directory : (kernelPages region entries s.calls).answer s.calls s.used =
      region.start + 4096 * first := below.answer s.calls 0 (by omega) holds
  have pointer : (kernelPages region entries s.calls).answer (s.calls + 1)
      ((region.start + 4096 * first) :: s.used) = region.start + 4096 * (first + 1) :=
    below.answer s.calls 1 (by omega) holds.cons
  have first : (kernelPages region entries s.calls).answer s.calls s.used ≠ 0 := by omega
  have second : (kernelPages region entries s.calls).answer (s.calls + 1)
      ((kernelPages region entries s.calls).answer s.calls s.used :: s.used) ≠ 0 := by
    rw [directory, pointer]
    omega
  obtain ⟨nonzero, used⟩ := pagingNewProcessDirectory_served kernel first second
  refine ⟨nonzero, ?_, ?_⟩
  · exact (pagingNewProcessDirectory_fresh rfl nonzero).2.1
  · rw [used, directory]
    exact holds.cons.mono (Nat.le_succ _)

end Requests

/-- The directories own their tables, and what they translate to is as it was. -/
structure SpacesKept (kernel : Nat) (directories : List Nat) (s after : PagingState) :
    Prop where
  spaces : SpacesInv kernel after directories
  same : ∀ directory ∈ directories, ∀ page < totalPages,
    translation after.ram directory page = translation s.ram directory page

section Kept

variable {kernel directory : Nat} {directories : List Nat} {s middle after : PagingState}

theorem SpacesKept.trans (first : SpacesKept kernel directories s middle)
    (second : SpacesKept kernel directories middle after) :
    SpacesKept kernel directories s after := by
  refine ⟨second.spaces, fun other otherIn page inside => ?_⟩
  rw [second.same other otherIn page inside, first.same other otherIn page inside]

theorem SpacesInv.kept_of_words (inv : SpacesInv kernel s directories)
    (used : after.used = s.used)
    (words : ∀ block ∈ s.used, ∀ j < 1024, after.ram.load block j = s.ram.load block j) :
    SpacesKept kernel directories s after := by
  refine ⟨inv.congr used fun other otherIn => words other (inv.owned.used other otherIn),
    fun other otherIn page inside => ?_⟩
  exact inv.owned.translation_of_kept words otherIn inside

theorem SpacesInv.tail (inv : SpacesInv kernel s (directory :: directories))
    (member : kernel ∈ directories) : SpacesInv kernel s directories := by
  have wider : ∀ other ∈ directories, other ∈ directory :: directories :=
    fun _ => List.mem_cons_of_mem directory
  refine ⟨⟨inv.owned.pages, ?_, ?_, ?_⟩, member, ?_, inv.shared.present⟩
  · exact fun other otherIn => inv.owned.used other (wider other otherIn)
  · intro other otherIn i i_lt present
    obtain ⟨used, apart⟩ := inv.owned.tables other (wider other otherIn) i i_lt present
    exact ⟨used, fun isDirectory => apart (wider _ isDirectory)⟩
  · exact fun left leftIn right rightIn =>
      inv.owned.alone left (wider left leftIn) right (wider right rightIn)
  · exact fun other otherIn => inv.shared.same other (wider other otherIn)

theorem SpacesKept.tail (kept : SpacesKept kernel (directory :: directories) s after)
    (member : kernel ∈ directories) : SpacesKept kernel directories s after :=
  ⟨kept.spaces.tail member, fun other otherIn =>
    kept.same other (List.mem_cons_of_mem directory otherIn)⟩

theorem pagingNewProcessDirectory_kept {heap : PageHeap} {ptr : Nat}
    (inv : SpacesInv kernel s directories)
    (made : pagingNewProcessDirectory heap kernel s = (ptr, after)) (nonzero : ptr ≠ 0) :
    SpacesInv kernel after ((after.ram.load ptr 0).toNat :: directories) ∧
      SpacesKept kernel directories s after ∧
      (after.ram.load ptr 0).toNat ∉ directories := by
  obtain ⟨-, -, -, unused⟩ := pagingNewProcessDirectory_fresh made nonzero
  obtain ⟨ptr', after', made', words, result⟩ := pagingNewProcessDirectory_spec heap inv
  rw [made] at made'
  cases made'
  obtain ⟨zero, -⟩ | ⟨-, spaces⟩ := result
  · exact absurd zero nonzero
  · refine ⟨spaces, ⟨spaces.tail inv.shared.kernelIn, ?_⟩, fun isDirectory => ?_⟩
    · exact fun other otherIn page inside =>
        inv.owned.translation_of_kept words otherIn inside
    · exact unused (List.mem_cons_of_mem _ (inv.owned.used _ isDirectory))

theorem Keeps.kept {high : Prop}
    (keeps : Keeps kernel (directory :: directories) directory high s after) (above : high)
    (member : kernel ∈ directories) (other : directory ∉ directories) :
    SpacesKept kernel directories s after := by
  refine ⟨keeps.inv.tail member, fun target targetIn => ?_⟩
  refine keeps.apart above target (List.mem_cons_of_mem _ targetIn) ?_
  exact fun same => other (same ▸ targetIn)

end Kept

section Frames

variable {before bitmap last : Bitmap} {taken low high : Nat}

theorem HoldsFrames.count_free (holds : HoldsFrames before bitmap 0 taken) {frame : Nat}
    (bound : frame < 2 ^ 20) (clear : bitAt bitmap frame = false) :
    FreeFrame before frame ∧ taken ≤ Nat.count (FreeFrame before) frame := by
  have unheld : ¬ (bitAt before frame = true ∨
      Placed (FreeFrame before) 0 taken frame) := by
    rw [← holds frame, clear]
    decide
  obtain ⟨unset, unplaced⟩ := not_or.mp unheld
  have free : FreeFrame before frame := ⟨bound, by simpa using unset⟩
  refine ⟨free, ?_⟩
  by_contra fewer
  exact unplaced ⟨free, Nat.zero_le _, by omega⟩

theorem HoldsFrames.hasTwoFrames_iff (holds : HoldsFrames before bitmap 0 taken) :
    HasTwoFrames bitmap ↔ taken + 2 ≤ freeFrames before := by
  constructor
  · rintro ⟨low, high, less, bound, lowClear, highClear⟩
    obtain ⟨lowFree, lowest⟩ := holds.count_free (less.trans bound) lowClear
    obtain ⟨highFree, -⟩ := holds.count_free bound highClear
    have first := Nat.count_strict_mono lowFree less
    have second := Nat.count_strict_mono highFree bound
    unfold freeFrames
    omega
  · intro enough
    have clear : ∀ place, taken ≤ place → place < freeFrames before →
        freeFrame before place < 2 ^ 20 ∧
          bitAt bitmap (freeFrame before place) = false := by
      intro place later inside
      obtain ⟨bound, free, counted⟩ := freeFrame_spec inside
      refine ⟨bound, ?_⟩
      rw [← Bool.not_eq_true, holds]
      rintro (set | placed)
      · rw [free.2] at set
        cases set
      · have := placed.2.2
        omega
    obtain ⟨-, lowClear⟩ := clear taken (le_refl _) (by omega)
    obtain ⟨highBound, highClear⟩ := clear (taken + 1) (Nat.le_succ _) (by omega)
    have ordered : freeFrame before taken < freeFrame before (taken + 1) := by
      by_contra reversed
      have counted := Nat.count_monotone (FreeFrame before) (not_lt.mp reversed)
      rw [(freeFrame_spec (by omega)).2.2, (freeFrame_spec (by omega)).2.2] at counted
      omega
    exact ⟨_, _, ordered, highBound, lowClear, highClear⟩

theorem TwoFrames.next (frames : TwoFrames bitmap last low high)
    (holds : HoldsFrames before bitmap 0 taken) :
    low = freeFrame before taken ∧ high = freeFrame before (taken + 1) ∧
      HoldsFrames before last 0 (taken + 2) := by
  have apart := frames.apart
  have held : ∀ lower < high, lower ≠ low → FreeFrame before lower →
      Placed (FreeFrame before) 0 taken lower := fun lower less other free =>
    ((holds lower).mp (frames.below lower less other)).resolve_left (by simp [free.2])
  obtain ⟨lowFree, lowLeast⟩ := holds.count_free (apart.trans frames.bound) frames.lowClear
  obtain ⟨highFree, highLeast⟩ := holds.count_free frames.bound frames.highClear
  have lowCount : Nat.count (FreeFrame before) low = taken :=
    count_of_least lowFree (fun placed => by have := placed.2.2; omega)
      fun lower less free => held lower (by omega) (by omega) free
  have after := Nat.count_strict_mono lowFree apart
  have highCount : Nat.count (FreeFrame before) high = taken + 1 := by
    refine count_of_least highFree (fun placed => by have := placed.2.2; omega)
      fun lower less free => ?_
    by_cases same : lower = low
    · subst same
      exact ⟨free, Nat.zero_le _, by omega⟩
    · obtain ⟨-, -, upper⟩ := held lower less same free
      exact ⟨free, Nat.zero_le _, by omega⟩
  refine ⟨(nth_of_count lowFree lowCount).symm, (nth_of_count highFree highCount).symm,
    fun position => ?_⟩
  rw [frames.marked, Bool.or_eq_true, Bool.or_eq_true, holds position, decide_eq_true_eq,
    decide_eq_true_eq, placed_succ_iff highFree highCount (Nat.zero_le _),
    placed_succ_iff lowFree lowCount (Nat.zero_le _), or_assoc, or_assoc, or_assoc]

theorem not_hasTwoFrames_of_marks (few : ¬ HasTwoFrames bitmap)
    (marks : ∀ position, bitAt bitmap position = true → bitAt last position = true) :
    ¬ HasTwoFrames last := by
  rintro ⟨low, high, less, bound, lowClear, highClear⟩
  have clear : ∀ position, bitAt last position = false → bitAt bitmap position = false := by
    intro position unset
    rw [← Bool.not_eq_true] at unset ⊢
    exact fun set => unset (marks position set)
  exact few ⟨low, high, less, bound, clear low lowClear, clear high highClear⟩

/-- `tried` times two frames have been asked for, the first time with `frames` taken. -/
structure FramesLeft (frames : Bitmap) (tried : Nat) (bitmap : Bitmap) : Prop where
  marked : ∀ frame, bitAt frames frame = true → bitAt bitmap frame = true
  held : tried ≤ freeFrames frames / 2 → HoldsFrames frames bitmap 0 (2 * tried)
  spent : freeFrames frames / 2 < tried → ¬ HasTwoFrames bitmap

section Left

variable {frames : Bitmap} {tried : Nat}

theorem FramesLeft.none (frames : Bitmap) : FramesLeft frames 0 frames :=
  ⟨fun _ => id, fun _ => HoldsFrames.refl frames 0,
    fun less => absurd less (Nat.not_lt_zero _)⟩

theorem FramesLeft.hasTwoFrames_iff (left : FramesLeft frames tried bitmap) :
    HasTwoFrames bitmap ↔ tried < freeFrames frames / 2 := by
  by_cases few : freeFrames frames / 2 < tried
  · exact iff_of_false (left.spent few) (by omega)
  · rw [(left.held (by omega)).hasTwoFrames_iff]
    omega

theorem FramesLeft.refused (left : FramesLeft frames tried bitmap)
    (few : ¬ HasTwoFrames bitmap)
    (marks : ∀ position, bitAt bitmap position = true → bitAt last position = true) :
    FramesLeft frames (tried + 1) last := by
  refine ⟨fun frame set => marks frame (left.marked frame set), fun enough => ?_,
    fun _ => not_hasTwoFrames_of_marks few marks⟩
  exact absurd (left.hasTwoFrames_iff.mpr enough) few

theorem FramesLeft.granted (left : FramesLeft frames tried bitmap)
    (pair : TwoFrames bitmap last low high) :
    FramesLeft frames (tried + 1) last ∧ low = freeFrame frames (2 * tried) ∧
      high = freeFrame frames (2 * tried + 1) := by
  have two : HasTwoFrames bitmap :=
    ⟨low, high, pair.apart, pair.bound, pair.lowClear, pair.highClear⟩
  have enough := left.hasTwoFrames_iff.mp two
  obtain ⟨lowNext, highNext, holds⟩ := pair.next (left.held enough.le)
  refine ⟨⟨fun frame set => ?_, fun _ => holds, fun few => by omega⟩, lowNext, highNext⟩
  rw [pair.marked, left.marked frame set]
  rfl

end Left

end Frames

end LazyOS.Memory
