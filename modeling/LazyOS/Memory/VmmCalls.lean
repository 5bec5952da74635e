import LazyOS.Memory.VmmRanges

namespace LazyOS.Memory

open LazyOS.Data

/-! Whole calls of `vmm_alloc` and `free_vmm`. -/

section

variable {heap : PageHeap} {directory : Nat} {virtStart size flags : Word}
  {s after : PagingState}

theorem vmmAlloc_of_loop (aligned : pagingIsAligned virtStart = true)
    (ran : vmmAllocLoop heap directory virtStart flags (pageCount size) 0 s =
      (true, after)) :
    vmmAlloc heap directory virtStart size flags s =
      (toInt32 (virtStart.toNat + 4096 * pageCount size : Nat), after) := by
  unfold vmmAlloc
  rw [aligned, ran]
  simp only [Bool.not_true, Bool.false_eq_true, if_false]
  rw [pageAt_toNat, toInt32_mod]

theorem vmmAlloc_of_short (aligned : pagingIsAligned virtStart = true)
    (ran : vmmAllocLoop heap directory virtStart flags (pageCount size) 0 s =
      (false, after)) :
    vmmAlloc heap directory virtStart size flags s = (0, after) := by
  unfold vmmAlloc
  rw [aligned, ran]
  rfl

/-- Every page of the range is mapped, with these flags, to a frame of its own that
was free before. -/
def RangeMapped (directory : Nat) (virtStart flags : Word) (pages : Nat)
    (s after : PagingState) : Prop :=
  ∃ frames : Nat → Nat,
    (∀ j < pages, ∀ k < pages, frames j = frames k → j = k) ∧
    ∀ k < pages, FreeFrame s.bitmap (frames k) ∧
      bitAt after.bitmap (frames k) = true ∧
      ∃ pdEntry ptEntry,
        translation after.ram directory (rangePage virtStart k) =
          some (pdEntry, ptEntry) ∧
        tableOf ptEntry = 4096 * frames k ∧ ptEntry &&& 0xFFF = flags

/-- The call succeeds, or it reports a failure and has changed nothing. -/
def AllOrNothing (heap : PageHeap) (directory : Nat) (virtStart size flags : Word)
    (s : PagingState) : Prop :=
  let result := vmmAlloc heap directory virtStart size flags s
  result.1 = toInt32 (virtStart.toNat + 4096 * pagesFor size : Nat) ∧
      RangeMapped directory virtStart flags (pagesFor size) s result.2 ∨
    (result.1 = 0 ∨ result.1 = -einvarg) ∧ result.2.bitmap = s.bitmap ∧
      ∀ page < totalPages, translation result.2.ram directory page =
        translation s.ram directory page

/-- There are frames for all pages and blocks for all tables that are missing, and
the flags are flags only and say that the page is present. -/
structure RangeServed (heap : PageHeap) (directory : Nat) (virtStart size flags : Word)
    (s : PagingState) : Prop where
  frames : pagesFor size ≤ freeFrames s.bitmap
  tables : heap.Serves
    (missingTables s.ram directory virtStart 0 (pagesFor size)).card s.calls s.used
  low : flags.toNat < 4096
  present : Present flags

theorem RangeMapped.pages_le {pages taken : Nat}
    (mapped : RangeMapped directory virtStart flags pages s after)
    (holds : HoldsFrames s.bitmap after.bitmap 0 taken) : pages ≤ taken := by
  obtain ⟨frames, distinct, each⟩ := mapped
  have placed : ∀ k < pages, Placed (FreeFrame s.bitmap) 0 taken (frames k) := by
    intro k less
    obtain ⟨free, set, -⟩ := each k less
    refine ((holds _).mp set).resolve_left ?_
    rw [free.2]
    decide
  have bound := Finset.card_le_card_of_injOn (s := Finset.range pages)
    (t := Finset.range taken) (fun k => Nat.count (FreeFrame s.bitmap) (frames k)) ?_ ?_
  · rwa [Finset.card_range, Finset.card_range] at bound
  · intro k member
    have less : k < pages := by simpa using member
    simpa using (placed k less).2.2
  · intro j jMember k kMember same
    have j_lt : j < pages := by simpa using jMember
    have k_lt : k < pages := by simpa using kMember
    exact distinct j j_lt k k_lt
      (Nat.count_injective (placed j j_lt).1 (placed k k_lt).1 same)

theorem RangeMapped.present {pages k : Nat}
    (mapped : RangeMapped directory virtStart flags pages s after) (less : k < pages) :
    Present (pageEntry after.ram directory (rangePage virtStart k)) := by
  obtain ⟨frames, -, each⟩ := mapped
  obtain ⟨-, -, pdEntry, ptEntry, found, -, -⟩ := each k less
  obtain ⟨entry, present⟩ := translation_eq_some found
  rwa [entry]

theorem RangeMapped.proper {pages : Nat}
    (mapped : RangeMapped directory virtStart flags pages s after) (some : 0 < pages) :
    flags.toNat < 4096 ∧ Present flags := by
  obtain ⟨frames, -, each⟩ := mapped
  obtain ⟨-, -, pdEntry, ptEntry, found, -, rfl⟩ := each 0 some
  refine ⟨?_, ?_⟩
  · rw [and_0xFFF]
    exact Nat.mod_lt _ (by decide)
  · have present := (translation_eq_some found).2
    unfold Present at present ⊢
    rwa [BitVec.and_assoc,
      show (0xFFF : Word) &&& pagingIsPresent = pagingIsPresent by decide]

theorem mapEntry_flags {before : Bitmap} {k : Nat} (enough : k < freeFrames before)
    (low : flags.toNat < 4096) : mapEntry before flags k &&& 0xFFF = flags := by
  have bound := (freeFrame_spec enough).1
  apply BitVec.eq_of_toNat_eq
  have frame : 4096 * freeFrame before k % 2 ^ 32 = 2 ^ 12 * freeFrame before k := by
    omega
  rw [and_0xFFF, mapEntry, BitVec.toNat_or, BitVec.toNat_ofNat, frame,
    ← Nat.two_pow_add_eq_or_of_lt (by omega : flags.toNat < 2 ^ 12)]
  omega

theorem AllocEnd.rangeMapped {pages : Nat}
    (ended : AllocEnd heap directory virtStart flags s.bitmap 0 pages s after)
    (enough : pages ≤ freeFrames s.bitmap)
    (tables : heap.Serves (missingTables s.ram directory virtStart 0 pages).card s.calls
      s.used) (low : flags.toNat < 4096) (present : Present flags) :
    RangeMapped directory virtStart flags pages s after := by
  refine ⟨freeFrame s.bitmap, ?_, ?_⟩
  · intro j j_lt k k_lt same
    have jCount := (freeFrame_spec (show j < freeFrames s.bitmap by omega)).2.2
    have kCount := (freeFrame_spec (show k < freeFrames s.bitmap by omega)).2.2
    rw [same] at jCount
    omega
  · intro k less
    have free : k < freeFrames s.bitmap := by omega
    have entry := ended.mapped tables k (Nat.zero_le k) less
    have found : translation after.ram directory (rangePage virtStart k) =
        some (after.ram.load directory (rangePage virtStart k / 1024),
          mapEntry s.bitmap flags k) := by
      rw [translation_eq, entry, if_pos (present_mapEntry _ present k)]
    exact ⟨(freeFrame_spec free).2.1, ended.frames.freeFrame_set less free, _, _, found,
      frameOf_mapEntry free low, mapEntry_flags free low⟩

/-- A size that wraps asks for no page, and what is returned is no error unless the
range starts at 0. -/
theorem allOrNothing_of_wrap (aligned : pagingIsAligned virtStart = true)
    (large : 0xFFFFF000 < size.toNat) :
    AllOrNothing heap directory virtStart size flags s ↔ virtStart = 0 := by
  have ran : vmmAllocLoop heap directory virtStart flags (pageCount size) 0 s =
      (true, s) := by
    rw [pageCount_of_wrap large]
    rfl
  have call := vmmAlloc_of_loop aligned ran
  rw [pageCount_of_wrap large, Nat.mul_zero, Nat.add_zero] at call
  unfold AllOrNothing
  simp only [call]
  constructor
  · rintro (⟨-, mapped⟩ | ⟨reported, -⟩)
    · have none := mapped.pages_le (HoldsFrames.refl _ 0)
      unfold pagesFor at none
      omega
    · have value := toUInt32_toInt32 (virtStart.toNat : Int)
      rw [toUInt32_natCast, Nat.mod_eq_of_lt virtStart.isLt] at value
      rw [pagingIsAligned_iff] at aligned
      apply BitVec.eq_of_toNat_eq
      rcases reported with zero | invalid
      · rw [zero, show toUInt32 0 = 0 by decide] at value
        rw [← value]
        rfl
      · rw [invalid] at value
        have refused : toUInt32 (-einvarg) = 2 ^ 32 - 2 := by decide
        omega
  · rintro rfl
    exact .inr ⟨.inl (by decide), trivial, fun _ _ => trivial⟩

theorem allOrNothing_of_short (aligned : pagingIsAligned virtStart = true)
    (fits : size.toNat ≤ 0xFFFFF000) (few : freeFrames s.bitmap < pagesFor size) :
    AllOrNothing heap directory virtStart size flags s ↔ freeFrames s.bitmap = 0 := by
  constructor
  · intro all
    by_contra some
    obtain ⟨after, ran, holds⟩ := vmmAllocLoop_short heap directory virtStart flags
      (pagesFor size) 0 (HoldsFrames.refl s.bitmap 0) (Nat.zero_le _) (by omega)
    rw [← pageCount_of_fits fits] at ran
    have call := vmmAlloc_of_short aligned ran
    unfold AllOrNothing at all
    simp only [call] at all
    rcases all with ⟨-, mapped⟩ | ⟨-, same, -⟩
    · have := mapped.pages_le holds
      omega
    · exact holds.ne (by omega) (by omega) same
  · intro none
    obtain ⟨pages, count⟩ := Nat.exists_eq_add_one_of_ne_zero (n := pagesFor size) (by omega)
    have ran : vmmAllocLoop heap directory virtStart flags (pageCount size) 0 s =
        (false, s) := by
      rw [pageCount_of_fits fits, count]
      rcases (HoldsFrames.refl s.bitmap 0).grant with ⟨-, exhausted⟩ | ⟨more, -⟩
      · simp only [vmmAllocLoop, exhausted, if_true]
      · omega
    have call := vmmAlloc_of_short aligned ran
    unfold AllOrNothing
    simp only [call]
    exact .inr ⟨.inl trivial, trivial, fun _ _ => trivial⟩

theorem allOrNothing_of_enough (aligned : pagingIsAligned virtStart = true)
    (distinct : DistinctTables directory s.ram s.used)
    (fits : size.toNat ≤ 0xFFFFF000) (some : 0 < pagesFor size)
    (enough : pagesFor size ≤ freeFrames s.bitmap) :
    AllOrNothing heap directory virtStart size flags s ↔
      RangeServed heap directory virtStart size flags s := by
  have short := pagesFor_lt fits
  obtain ⟨after, ran, ended⟩ := vmmAllocLoop_end heap flags aligned (pagesFor size) 0
    distinct (HoldsFrames.refl s.bitmap 0) (by omega) (by omega)
  rw [Nat.zero_add] at ended
  rw [← pageCount_of_fits fits] at ran
  have call := vmmAlloc_of_loop aligned ran
  rw [pageCount_of_fits fits] at call
  unfold AllOrNothing
  simp only [call]
  constructor
  · rintro (⟨-, mapped⟩ | ⟨-, same, -⟩)
    · obtain ⟨low, present⟩ := mapped.proper some
      exact ⟨enough, ended.served fun k _ less => mapped.present less, low, present⟩
    · exact absurd same (ended.frames.ne some (by omega))
  · intro served
    exact .inl ⟨trivial, ended.rangeMapped enough served.tables served.low served.present⟩

/-- A call is all or nothing exactly when it asks for no page, or finds no free frame
at all, or finds frames and tables for every page and is given proper flags; a size
that wraps counts as refused only where the range starts at 0. -/
theorem vmm_alloc_all_or_nothing_iff (heap : PageHeap) (size flags : Word)
    (distinct : DistinctTables directory s.ram s.used)
    (aligned : pagingIsAligned virtStart = true) :
    AllOrNothing heap directory virtStart size flags s ↔
      size = 0 ∨ 0xFFFFF000 < size.toNat ∧ virtStart = 0 ∨
        size.toNat ≤ 0xFFFFF000 ∧ (freeFrames s.bitmap = 0 ∨
          RangeServed heap directory virtStart size flags s) := by
  by_cases large : 0xFFFFF000 < size.toNat
  · rw [allOrNothing_of_wrap aligned large]
    constructor
    · exact fun zero => .inr (.inl ⟨large, zero⟩)
    · rintro (rfl | ⟨-, zero⟩ | ⟨fits, -⟩)
      · exact absurd large (by decide)
      · exact zero
      · omega
  have fits : size.toNat ≤ 0xFFFFF000 := by omega
  by_cases empty : size = 0
  · refine iff_of_true ?_ (.inl empty)
    have pages : pagesFor size = 0 := by
      rw [empty]
      rfl
    have ran : vmmAllocLoop heap directory virtStart flags (pageCount size) 0 s =
        (true, s) := by
      rw [pageCount_of_fits fits, pages]
      rfl
    have call := vmmAlloc_of_loop aligned ran
    rw [pageCount_of_fits fits] at call
    unfold AllOrNothing
    simp only [call, pages]
    exact .inl ⟨trivial, fun _ => 0, fun j less => absurd less (Nat.not_lt_zero j),
      fun k less => absurd less (Nat.not_lt_zero k)⟩
  have some : 0 < pagesFor size := by
    have positive : size.toNat ≠ 0 := fun zero => empty (BitVec.eq_of_toNat_eq zero)
    unfold pagesFor
    omega
  rw [or_iff_right empty, or_iff_right (fun wrapped => large wrapped.1),
    and_iff_right fits]
  by_cases few : freeFrames s.bitmap < pagesFor size
  · rw [allOrNothing_of_short aligned fits few]
    refine (or_iff_left fun served => ?_).symm
    have := served.frames
    omega
  · rw [allOrNothing_of_enough aligned distinct fits some (by omega)]
    exact (or_iff_right (by omega)).symm

end

theorem emptyDirectory_served {pages : Nat} (few : pages = 2) :
    smallHeap.Serves
      (missingTables emptyDirectory.ram 0x1000 0xC0000000 0 pages).card
      emptyDirectory.calls emptyDirectory.used := by
  subst few
  have one : (missingTables emptyDirectory.ram 0x1000 0xC0000000 0 2).card = 1 := by
    decide +kernel
  rw [one]
  exact ⟨by decide +kernel, trivial⟩

theorem emptyDirectory_frames : 2 ≤ freeFrames emptyDirectory.bitmap :=
  (show 2 ≤ Nat.count (FreeFrame emptyDirectory.bitmap) 2 by decide +kernel).trans
    (Nat.count_monotone _ (by decide))

theorem vmm_alloc_all_or_nothing_iff_two_pages :
    AllOrNothing smallHeap 0x1000 0xC0000000 8192 7 emptyDirectory :=
  (vmm_alloc_all_or_nothing_iff smallHeap 8192 7 distinctTables_empty (by decide)).mpr
    (.inr (.inr ⟨by decide, .inr ⟨emptyDirectory_frames,
      emptyDirectory_served (by decide), by decide, by decide⟩⟩))

def emptyHeap : PageHeap := pageHeap 0 (by norm_num)

/-- Without memory for a table the page stays unmapped, its frame stays taken, and
the call returns as if it had succeeded. -/
theorem unmapped_page_reported_mapped :
    ¬ ∀ (heap : PageHeap) (directory : Nat) (virtStart size flags : Word)
        (s : PagingState), DistinctTables directory s.ram s.used →
      pagingIsAligned virtStart = true →
      AllOrNothing heap directory virtStart size flags s := by
  intro always
  have all := always emptyHeap 0x1000 0xC0000000 4096 7 emptyDirectory
    distinctTables_empty (by decide)
  rcases all with ⟨-, mapped⟩ | ⟨reported, -⟩
  · exact absurd (mapped.present (k := 0) (by decide)) (by decide +kernel)
  · exact absurd reported (by decide +kernel)

section

variable {heap : PageHeap} {directory : Nat} {virtStart size flags : Word}
  {s : PagingState}

structure FreeUndoesAlloc (directory : Nat) (virtStart : Word) (pages : Nat)
    (s allocated freed : PagingState) : Prop where
  physical : ∀ k < pages,
    pagingGetPhysical allocated.ram directory (pageAt virtStart k) =
      BitVec.ofNat 32 (4096 * freeFrame s.bitmap k)
  bitmap : freed.bitmap = s.bitmap
  unmapped : ∀ k < pages,
    translation freed.ram directory (rangePage virtStart k) = none
  others : ∀ page < totalPages, (∀ k < pages, page ≠ rangePage virtStart k) →
    translation allocated.ram directory page = translation s.ram directory page ∧
      translation freed.ram directory page = translation s.ram directory page

theorem freeVmm_of_loop {after : PagingState}
    (aligned : pagingIsAligned virtStart = true)
    (ran : freeVmmLoop directory virtStart (pageCount size) 0 s = (0, after)) :
    freeVmm directory virtStart size s = (0, after) := by
  unfold freeVmm
  rw [aligned, ran]
  rfl

/-- `free_vmm` gives back what `vmm_alloc` took: page `k` of the range lies in the
`k`-th lowest frame that was free, and afterwards the bitmap and the mappings of all
other pages are what they were. -/
theorem free_vmm_undoes_vmm_alloc
    (distinct : DistinctTables directory s.ram s.used)
    (aligned : pagingIsAligned virtStart = true) (fits : size.toNat ≤ 0xFFFFF000)
    (low : flags.toNat < 4096) (present : Present flags)
    (frames : pagesFor size ≤ freeFrames s.bitmap)
    (tables : heap.Serves
      (missingTables s.ram directory virtStart 0 (pagesFor size)).card s.calls s.used) :
    FreeUndoesAlloc directory virtStart (pagesFor size) s
      (vmmAlloc heap directory virtStart size flags s).2
      (freeVmm directory virtStart size
        (vmmAlloc heap directory virtStart size flags s).2).2 := by
  have short := pagesFor_lt fits
  obtain ⟨allocated, ran, ended⟩ := vmmAllocLoop_end heap flags aligned (pagesFor size) 0
    distinct (HoldsFrames.refl s.bitmap 0) (by omega) (by omega)
  rw [Nat.zero_add] at ended
  have mapped := ended.mapped tables
  obtain ⟨freed, freeRan, changes, released, cleared⟩ := freeVmmLoop_end aligned low
    present (pagesFor size) 0 ended.changes.distinct
    (by rw [Nat.zero_add]; exact ended.frames) (by omega) (by omega)
    (fun k lower upper => mapped k lower (by omega))
  rw [Nat.zero_add] at changes released cleared
  rw [← pageCount_of_fits fits] at ran freeRan
  rw [vmmAlloc_of_loop aligned ran, freeVmm_of_loop aligned freeRan]
  refine ⟨?_, released.eq, ?_, ?_⟩
  · intro k less
    rw [pagingGetPhysical_of_entry (pageAt_aligned aligned k)
      (mapped k (Nat.zero_le k) less) (present_mapEntry _ present k)]
    apply BitVec.eq_of_toNat_eq
    have bound := (freeFrame_spec (show k < freeFrames s.bitmap by omega)).1
    rw [BitVec.toNat_ofNat, Nat.mod_eq_of_lt (by omega)]
    exact frameOf_mapEntry (by omega) low
  · intro k less
    rw [translation_eq_none_iff, cleared k (Nat.zero_le k) less]
    exact not_present_zero
  · intro page inside apart
    have alloc := ended.changes.translation_outside inside fun k _ => apart k
    have free := changes.translation_outside inside fun k _ => apart k
    exact ⟨alloc, free.trans alloc⟩

end

theorem free_vmm_undoes_vmm_alloc_two_pages :
    FreeUndoesAlloc 0x1000 0xC0000000 (pagesFor 8192) emptyDirectory
      (vmmAlloc smallHeap 0x1000 0xC0000000 8192 7 emptyDirectory).2
      (freeVmm 0x1000 0xC0000000 8192
        (vmmAlloc smallHeap 0x1000 0xC0000000 8192 7 emptyDirectory).2).2 :=
  free_vmm_undoes_vmm_alloc distinctTables_empty (by decide) (by decide)
    (by decide) (by decide) emptyDirectory_frames (emptyDirectory_served (by decide))

/-- In a directory that is its own table the entry of the second page is an entry of the
directory: once the page is mapped, its frame counts as a table, and what the frame
holds maps another page. -/
theorem self_mapped_range_maps_more :
    TablesApart 0x1000 selfMapped.ram ∧ pagesFor 4096 = 1 ∧
      translation selfMapped.ram 0x1000 (rangePage 0x1000 0) = none ∧
      1 ≤ freeFrames selfMapped.bitmap ∧
      smallHeap.Serves (missingTables selfMapped.ram 0x1000 0x1000 0 1).card
        selfMapped.calls selfMapped.used ∧
      frameAt selfMapped.ram 0x1000 1024 = none ∧
      frameAt (vmmAlloc smallHeap 0x1000 0x1000 4096 7 selfMapped).2.ram 0x1000 1024 =
        some 0x3000 ∧
      ¬ FreeUndoesAlloc 0x1000 0x1000 (pagesFor 4096) selfMapped
        (vmmAlloc smallHeap 0x1000 0x1000 4096 7 selfMapped).2
        (freeVmm 0x1000 0x1000 4096
          (vmmAlloc smallHeap 0x1000 0x1000 4096 7 selfMapped).2).2 := by
  have before : frameAt selfMapped.ram 0x1000 1024 = none := by
    decide +kernel
  have allocated : frameAt (vmmAlloc smallHeap 0x1000 0x1000 4096 7 selfMapped).2.ram
      0x1000 1024 = some 0x3000 := by
    decide +kernel
  have present : (missingTables selfMapped.ram 0x1000 0x1000 0 1).card = 0 := by
    decide +kernel
  refine ⟨tablesApart_selfMapped, by decide, by decide +kernel,
    le_trans (by decide) emptyDirectory_frames, ?_, before, allocated, fun undoes => ?_⟩
  · rw [present]
    trivial
  · have kept := (undoes.others 1024 (by decide) (by decide +kernel)).1
    unfold frameAt at before allocated
    rw [kept, before] at allocated
    cases allocated

end LazyOS.Memory
