import LazyOS.Memory.Directories

namespace LazyOS.Memory

open LazyOS.Data

/-! Runs of paging operations over the boot directory and the directories built
from it. -/

variable {kernel : Nat} {s after : PagingState} {directories : List Nat}

def RangeAbove (virtStart : Word) (remaining i : Nat) : Prop :=
  ∀ k, i ≤ k → k < i + remaining → sharedEnd ≤ (pageAt virtStart k).toNat

theorem RangeAbove.first {virtStart : Word} {remaining i : Nat}
    (above : RangeAbove virtStart (remaining + 1) i) :
    sharedEnd ≤ (pageAt virtStart i).toNat :=
  above i le_rfl (by omega)

theorem RangeAbove.rest {virtStart : Word} {remaining i : Nat}
    (above : RangeAbove virtStart (remaining + 1) i) :
    RangeAbove virtStart remaining (i + 1) :=
  fun k lower upper => above k (by omega) (by omega)

theorem vmmAllocLoop_keeps (heap : PageHeap) {directory : Nat}
    (virtStart flags : Word) (remaining i : Nat)
    (inv : SpacesInv kernel s directories) (member : directory ∈ directories) :
    Keeps kernel directories directory (RangeAbove virtStart remaining i) s
      (vmmAllocLoop heap directory virtStart flags remaining i s).2 := by
  induction remaining generalizing i s with
  | zero => exact inv.keeps_of_ram _ _ rfl rfl
  | succ remaining ih =>
      simp only [vmmAllocLoop]
      have taken : Keeps kernel directories directory True s
          { s with bitmap := (getFreePhysicalAddress s.bitmap).2 } :=
        inv.keeps_of_ram _ _ rfl rfl
      split
      · exact taken.mono fun _ => trivial
      · have mapped := pagingSet_keeps heap (pageAt virtStart i)
          (BitVec.ofInt 32 (getFreePhysicalAddress s.bitmap).1 ||| flags) taken.inv
          member
        exact ((taken.trans mapped).trans (ih (i + 1) mapped.inv)).mono
          fun above => ⟨⟨trivial, above.first⟩, above.rest⟩

theorem vmmAlloc_keeps (heap : PageHeap) {directory : Nat}
    (virtStart size flags : Word) (inv : SpacesInv kernel s directories)
    (member : directory ∈ directories) :
    Keeps kernel directories directory (RangeAbove virtStart (pageCount size) 0) s
      (vmmAlloc heap directory virtStart size flags s).2 := by
  have loop := vmmAllocLoop_keeps heap virtStart flags (pageCount size) 0 inv member
  unfold vmmAlloc
  split
  · exact inv.keeps_of_ram _ _ rfl rfl
  · split <;> rename_i looped <;> rwa [looped] at loop

theorem freeVmmLoop_keeps {directory : Nat} (virtStart : Word) (remaining i : Nat)
    (inv : SpacesInv kernel s directories) (member : directory ∈ directories) :
    Keeps kernel directories directory (RangeAbove virtStart remaining i) s
      (freeVmmLoop directory virtStart remaining i s).2 := by
  induction remaining generalizing i s with
  | zero => exact inv.keeps_of_ram _ _ rfl rfl
  | succ remaining ih =>
      simp only [freeVmmLoop]
      cases indexes : pagingGetIndexes (pageAt virtStart i) with
      | none => exact inv.keeps_of_ram _ _ rfl rfl
      | some pair =>
          obtain ⟨dirIdx, tblIdx⟩ := pair
          obtain ⟨dirIdx_lt, tblIdx_lt, rfl⟩ := pagingGetIndexes_eq_some indexes
          simp only
          split
          · rename_i present
            split
            · generalize freePhysicalFrame s.bitmap _ = bitmap
              have freed : Keeps kernel directories directory True s
                  { s with bitmap := bitmap } := inv.keeps_of_ram _ _ rfl rfl
              have stored := freed.inv.keeps_store 0 member dirIdx_lt tblIdx_lt present
              exact ((freed.trans stored).trans (ih (i + 1) stored.inv)).mono
                fun above : RangeAbove virtStart (remaining + 1) i =>
                  ⟨⟨trivial, shared_le_index above.first⟩, above.rest⟩
            · exact (ih (i + 1) inv).mono RangeAbove.rest
          · exact (ih (i + 1) inv).mono RangeAbove.rest

theorem freeVmm_keeps {directory : Nat} (virtStart size : Word)
    (inv : SpacesInv kernel s directories) (member : directory ∈ directories) :
    Keeps kernel directories directory (RangeAbove virtStart (pageCount size) 0) s
      (freeVmm directory virtStart size s).2 := by
  unfold freeVmm
  split
  · exact inv.keeps_of_ram _ _ rfl rfl
  · exact freeVmmLoop_keeps virtStart (pageCount size) 0 inv member

inductive PagingOp where
  | set (directory : Nat) (virtualAddr physicalAddr : Word)
  | alloc (directory : Nat) (virtStart size flags : Word)
  | free (directory : Nat) (virtStart size : Word)
  | newDirectory

def PagingOp.target : PagingOp → Option Nat
  | .set directory _ _ => some directory
  | .alloc directory _ _ _ => some directory
  | .free directory _ _ => some directory
  | .newDirectory => none

def PagingOp.Above : PagingOp → Prop
  | .set _ virtualAddr _ => sharedEnd ≤ virtualAddr.toNat
  | .alloc _ virtStart size _ => RangeAbove virtStart (pageCount size) 0
  | .free _ virtStart size => RangeAbove virtStart (pageCount size) 0
  | .newDirectory => True

structure AddressSpaces where
  kernel : Nat
  state : PagingState
  directories : List Nat

def bootSpaces (heap : PageHeap) (flags : Word) (s : PagingState) : AddressSpaces :=
  let (ptr, s) := pagingNew4gb heap flags s
  let kernel := (s.ram.load ptr 0).toNat
  ⟨kernel, s, [kernel]⟩

def AddressSpaces.run (heap : PageHeap) (spaces : AddressSpaces) :
    PagingOp → AddressSpaces
  | .set directory virtualAddr physicalAddr =>
      { spaces with
        state := (pagingSet heap directory virtualAddr physicalAddr spaces.state).2 }
  | .alloc directory virtStart size flags =>
      { spaces with
        state := (vmmAlloc heap directory virtStart size flags spaces.state).2 }
  | .free directory virtStart size =>
      { spaces with state := (freeVmm directory virtStart size spaces.state).2 }
  | .newDirectory =>
      let (ptr, s) := pagingNewProcessDirectory heap spaces.kernel spaces.state
      if ptr = 0 then { spaces with state := s }
      else
        { spaces with
          state := s
          directories := (s.ram.load ptr 0).toNat :: spaces.directories }

def PagingStep (heap : PageHeap) (spaces : AddressSpaces) (op : PagingOp)
    (after : AddressSpaces) : Prop :=
  (∀ directory, op.target = some directory → directory ∈ spaces.directories) ∧
    after = spaces.run heap op

def AddressSpaces.Inv (spaces : AddressSpaces) : Prop :=
  SpacesInv spaces.kernel spaces.state spaces.directories

/-- An operation above 128 MiB is seen from no directory but its own. -/
def Unseen (op : PagingOp) (spaces after : AddressSpaces) : Prop :=
  op.Above → ∀ directory ∈ spaces.directories, op.target ≠ some directory →
    ∀ page < totalPages, translation after.state.ram directory page =
      translation spaces.state.ram directory page

theorem pagingStep_spec {heap : PageHeap} {spaces after : AddressSpaces}
    {op : PagingOp} (inv : spaces.Inv) (step : PagingStep heap spaces op after) :
    after.Inv ∧ Unseen op spaces after := by
  obtain ⟨targeted, rfl⟩ := step
  have other : ∀ {target directory : Nat}, some target ≠ some directory →
      directory ≠ target := fun different same => different (congrArg some same.symm)
  cases op with
  | set target virtualAddr physicalAddr =>
      have keeps := pagingSet_keeps heap virtualAddr physicalAddr inv (targeted target rfl)
      exact ⟨keeps.inv, fun above directory member different =>
        keeps.apart above directory member (other different)⟩
  | alloc target virtStart size flags =>
      have keeps := vmmAlloc_keeps heap virtStart size flags inv (targeted target rfl)
      exact ⟨keeps.inv, fun above directory member different =>
        keeps.apart above directory member (other different)⟩
  | free target virtStart size =>
      have keeps := freeVmm_keeps virtStart size inv (targeted target rfl)
      exact ⟨keeps.inv, fun above directory member different =>
        keeps.apart above directory member (other different)⟩
  | newDirectory =>
      obtain ⟨ptr, s, made, kept, result⟩ := pagingNewProcessDirectory_spec heap inv
      have state : (spaces.run heap .newDirectory).state = s := by
        simp only [AddressSpaces.run, made]
        split <;> rfl
      refine ⟨?_, ?_⟩
      · rcases result with ⟨failed, kept⟩ | ⟨returned, extended⟩
        · simp only [AddressSpaces.run, made, if_pos failed]
          exact kept
        · simp only [AddressSpaces.run, made, if_neg returned]
          exact extended
      · intro _ directory member _ page inside
        rw [state]
        exact inv.owned.translation_of_kept kept member inside

theorem bootSpaces_inv {heap : PageHeap} {flags : Word} (blank : s.used = [])
    (memory : HasBootMemory heap s.calls) (low : flags.toNat < 4096)
    (present : Present flags) : (bootSpaces heap flags s).Inv := by
  obtain ⟨ptr, after, made, inv⟩ := pagingNew4gb_spec blank memory low present
  simp only [bootSpaces, made]
  exact inv

/-- Directories share everything below 128 MiB and nothing above. -/
theorem address_spaces_shared_and_isolated {heap : PageHeap} {flags : Word}
    (blank : s.used = []) (memory : HasBootMemory heap s.calls)
    (low : flags.toNat < 4096) (present : Present flags) {ops : List PagingOp}
    {spaces : AddressSpaces}
    (run : Run (PagingStep heap) (bootSpaces heap flags s) ops spaces) :
    (∀ left ∈ spaces.directories, ∀ right ∈ spaces.directories,
      ∀ page < sharedPages,
        translation spaces.state.ram left page =
          translation spaces.state.ram right page) ∧
    ∀ op after, PagingStep heap spaces op after → Unseen op spaces after := by
  have inv := run.invariant AddressSpaces.Inv
    (fun _ _ _ inv step => (pagingStep_spec inv step).1)
    (bootSpaces_inv blank memory low present)
  refine ⟨fun left leftIn right rightIn page inside =>
    SpacesInv.same_translation inv leftIn rightIn inside, ?_⟩
  exact fun op after step => (pagingStep_spec inv step).2

def firstFreePage (count : Nat) (used : List Nat) : Nat :=
  ((((List.range count).map fun i => 4096 * (i + 1)).find? (· ∉ used)).getD 0)

theorem firstFreePage_cases (count : Nat) (used : List Nat) :
    firstFreePage count used = 0 ∧ count ≤ used.length ∨
    ∃ i < count, firstFreePage count used = 4096 * (i + 1) ∧
      firstFreePage count used ∉ used := by
  unfold firstFreePage
  cases found : ((List.range count).map fun i => 4096 * (i + 1)).find? (· ∉ used) with
  | none =>
      refine .inl ⟨rfl, ?_⟩
      have covered : (List.range count).map (fun i => 4096 * (i + 1)) ⊆ used := by
        intro block member
        have inUse := List.find?_eq_none.mp found block member
        simpa using inUse
      have distinct : ((List.range count).map fun i => 4096 * (i + 1)).Nodup :=
        List.nodup_range.map fun left right same => by omega
      have bound := (List.subperm_of_subset distinct covered).length_le
      rwa [List.length_map, List.length_range] at bound
  | some block =>
      refine .inr ?_
      obtain ⟨i, bound, rfl⟩ := List.mem_map.mp (List.mem_of_find?_eq_some found)
      have fresh := List.find?_some found
      exact ⟨i, List.mem_range.mp bound, rfl, by simpa using fresh⟩

def pageHeap (count : Nat) (small : count ≤ 2 ^ 16) : PageHeap where
  answer := fun _ used => firstFreePage count used
  aligned := by
    intro _ used
    rcases firstFreePage_cases count used with ⟨none, -⟩ | ⟨i, -, block, -⟩
    · rw [none]
      exact Nat.dvd_zero _
    · rw [block]
      exact Dvd.intro _ rfl
  inside := by
    intro _ used
    unfold pagingPageSize
    rcases firstFreePage_cases count used with ⟨none, -⟩ | ⟨i, bound, block, -⟩ <;>
      omega
  fresh := by
    intro _ used nonzero
    rcases firstFreePage_cases count used with ⟨none, -⟩ | ⟨i, -, -, fresh⟩
    · exact absurd none nonzero
    · exact fresh

theorem pageHeap_hasBootMemory {count : Nat} (small : count ≤ 2 ^ 16)
    (enough : 1026 ≤ count) (calls : Nat) :
    HasBootMemory (pageHeap count small) calls := by
  intro used short
  change firstFreePage count used ≠ 0
  rcases firstFreePage_cases count used with ⟨-, long⟩ | ⟨i, -, block, -⟩ <;> omega

def smallHeap : PageHeap := pageHeap 1100 (by norm_num)

theorem bootSpaces_kernelIn (heap : PageHeap) (flags : Word) (s : PagingState) :
    (bootSpaces heap flags s).kernel ∈ (bootSpaces heap flags s).directories :=
  List.mem_cons_self

theorem run_newDirectory_alloc (heap : PageHeap) {spaces : AddressSpaces}
    (kernelIn : spaces.kernel ∈ spaces.directories) :
    ∃ last, Run (PagingStep heap) spaces
      [.newDirectory, .alloc spaces.kernel 0xC0000000 8192 7] last := by
  have still : spaces.kernel ∈ (spaces.run heap .newDirectory).directories := by
    simp only [AddressSpaces.run]
    split
    · exact kernelIn
    · exact List.mem_cons_of_mem _ kernelIn
  refine ⟨_, .next ⟨?_, rfl⟩ (.next ⟨?_, rfl⟩ (.done _))⟩
  · intro directory target
    cases target
  · intro directory target
    obtain rfl := Option.some.inj target
    exact still

theorem address_spaces_shared_and_isolated_two_steps :
    ∃ ops spaces, ops.length = 2 ∧
      Run (PagingStep smallHeap)
        (bootSpaces smallHeap 7 ⟨fun _ => 0, fun _ => 0, 0, []⟩) ops spaces ∧
      ∀ left ∈ spaces.directories, ∀ right ∈ spaces.directories,
        ∀ page < sharedPages,
          translation spaces.state.ram left page =
            translation spaces.state.ram right page := by
  obtain ⟨spaces, run⟩ := run_newDirectory_alloc smallHeap
    (bootSpaces_kernelIn smallHeap 7 ⟨fun _ => 0, fun _ => 0, 0, []⟩)
  exact ⟨_, spaces, rfl, run, (address_spaces_shared_and_isolated rfl
    (pageHeap_hasBootMemory _ (by norm_num) 0) (by decide) (by decide) run).1⟩

end LazyOS.Memory
