import LazyOS.Memory.HeapRuns
import LazyOS.Memory.HeapCalls

namespace LazyOS.Memory

open LazyOS.Data

/-! What the clients of the heap find in their memory.  Each of them takes its object for
an array of its own. -/

structure ClientMemory where
  heap : HeapState
  ram : Nat → Byte

inductive ClientOp where
  | kmalloc (size : Nat)
  | kzalloc (size : Nat)
  | kfree (ptr : Nat)
  | store (ptr offset : Nat) (value : Byte)

namespace ClientMemory

def apply (memory : ClientMemory) : ClientOp → ClientMemory
  | .kmalloc size => { memory with heap := memory.heap.apply (.malloc size) }
  | .kzalloc size =>
      { heap := memory.heap.apply (.malloc size)
        ram := (Kheap.kzalloc memory.heap.heap memory.ram size).2 }
  | .kfree ptr => { memory with heap := memory.heap.apply (.free ptr) }
  | .store ptr offset value =>
      { memory with ram := Function.update memory.ram (ptr + offset) value }

theorem kfree_ram (memory : ClientMemory) (ptr : Nat) :
    (memory.apply (.kfree ptr)).ram = memory.ram := by
  cases memory
  rfl

theorem kfree_live (memory : ClientMemory) (ptr : Nat) :
    (memory.apply (.kfree ptr)).heap.live =
      memory.heap.live.filter fun object => object.pointer ≠ ptr := by
  obtain ⟨⟨heap, live⟩, ram⟩ := memory
  rfl

def load (memory : ClientMemory) (ptr offset : Nat) : Byte := memory.ram (ptr + offset)

end ClientMemory

/-- The heap serves the call, and a store goes into an object that is held. -/
def ClientOp.Legal (memory : ClientMemory) : ClientOp → Prop
  | .kmalloc size | .kzalloc size =>
      (HeapOp.malloc size).Allowed memory.heap ∧ (HeapOp.malloc size).Served memory.heap
  | .kfree ptr =>
      (HeapOp.free ptr).Allowed memory.heap ∧ (HeapOp.free ptr).Served memory.heap
  | .store ptr offset _ => ∃ object ∈ memory.heap.live,
      object.pointer = ptr ∧ offset < object.size

/-- What the clients know of their objects: by pointer and offset, the byte that was
stored last, and nothing of a byte that was never stored. -/
abbrev Contents := Nat → Nat → Option Byte

def Contents.apply (contents : Contents) (memory : ClientMemory) : ClientOp → Contents
  | .kmalloc size =>
      let ptr := (heapMalloc memory.heap.heap size).1
      if ptr = 0 then contents else Function.update contents ptr fun _ => none
  | .kzalloc size =>
      let ptr := (heapMalloc memory.heap.heap size).1
      if ptr = 0 then contents else Function.update contents ptr fun _ => some 0
  | .kfree _ => contents
  | .store ptr offset value =>
      Function.update contents ptr (Function.update (contents ptr) offset (some value))

structure Clients where
  memory : ClientMemory
  contents : Contents

def ClientStep (clients : Clients) (op : ClientOp) (after : Clients) : Prop :=
  op.Legal clients.memory ∧
    after = ⟨clients.memory.apply op, clients.contents.apply clients.memory op⟩

section Objects

variable {region : Region} {heap : HeapState} {object other : Allocation}
variable {offset offset' : Nat}

theorem HeapInv.size_pos (inv : HeapInv region heap) (member : object ∈ heap.live) :
    0 < object.size := by
  obtain ⟨ledger, owners, -⟩ := inv.accounted
  have some := ledger.nonempty object (owners ▸ member)
  simp only [Allocation.range, blocksFor] at some
  omega

theorem HeapInv.byte_block (inv : HeapInv region heap) (member : object ∈ heap.live)
    (inside : offset < object.size) :
    (object.range region.start).Contains
      ((object.pointer + offset - region.start) / 4096) := by
  have placed := inv.placed object member
  have holds := blocksFor_holds object.size
  rw [Range.contains_iff]
  have length : (object.range region.start).length = blocksFor object.size := rfl
  rw [length]
  omega

theorem HeapInv.byte_inside (inv : HeapInv region heap) (member : object ∈ heap.live)
    (inside : offset < object.size) :
    region.start ≤ object.pointer + offset ∧ object.pointer + offset < region.stop := by
  obtain ⟨ledger, owners, -⟩ := inv.accounted
  have placed := inv.placed object member
  have fits := ledger.inside object (owners ▸ member)
  have holds := blocksFor_holds object.size
  have ordered := region.start_le
  have length : (object.range region.start).length = blocksFor object.size := rfl
  unfold Range.stop at fits
  rw [length] at fits
  unfold Region.capacity heapBlockSize at fits
  omega

theorem HeapInv.byte_unique (inv : HeapInv region heap) (member : object ∈ heap.live)
    (member' : other ∈ heap.live) (inside : offset < object.size)
    (inside' : offset' < other.size)
    (same : object.pointer + offset = other.pointer + offset') :
    object = other ∧ offset = offset' := by
  have block := inv.byte_block member inside
  have block' := inv.byte_block member' inside'
  rw [← same] at block'
  obtain ⟨ledger, owners, -⟩ := inv.accounted
  obtain rfl := ledger.extent_eq_of_common (owners ▸ member) (owners ▸ member') block block'
  exact ⟨rfl, Nat.add_left_cancel same⟩

end Objects

structure ClientInv (region : Region) (clients : Clients) : Prop where
  heap : HeapInv region clients.memory.heap
  known : ∀ object ∈ clients.memory.heap.live, ∀ offset < object.size, ∀ value,
    clients.contents object.pointer offset = some value →
      clients.memory.load object.pointer offset = value

section Steps

variable {region : Region} {clients : Clients}

theorem malloc_live (heap : HeapState) {size : Nat}
    (some : (heapMalloc heap.heap size).1 ≠ 0) :
    (heap.apply (.malloc size)).live = ⟨(heapMalloc heap.heap size).1, size⟩ :: heap.live :=
  if_neg some

theorem malloc_live_null (heap : HeapState) {size : Nat}
    (null : (heapMalloc heap.heap size).1 = 0) :
    (heap.apply (.malloc size)).live = heap.live := if_pos null

theorem kzalloc_ram (heap : Heap) (ram : Nat → Byte) (size : Nat) :
    (Kheap.kzalloc heap ram size).2 = if (heapMalloc heap size).1 = 0 then ram
      else Kheap.clearBytes ram (heapMalloc heap size).1 size := by
  unfold Kheap.kzalloc Kheap.kmalloc
  simp only
  split <;> rfl

theorem new_held (heap : HeapState) {size : Nat}
    (some : (heapMalloc heap.heap size).1 ≠ 0) :
    ⟨(heapMalloc heap.heap size).1, size⟩ ∈ (heap.apply (.malloc size)).live := by
  rw [malloc_live heap some]
  exact List.mem_cons_self

theorem clearBytes_apply (ram : Nat → Byte) {ptr size address : Nat}
    (bounded : ptr + size ≤ 2 ^ 32) (word : address < 2 ^ 32) :
    Kheap.clearBytes ram ptr size address =
      if ptr ≤ address ∧ address < ptr + size then 0 else ram address := by
  unfold Kheap.clearBytes
  refine if_congr ?_ rfl rfl
  unfold toUInt32
  omega

theorem new_apart {heap : HeapState} {size : Nat}
    (inv : HeapInv region (heap.apply (.malloc size)))
    (some : (heapMalloc heap.heap size).1 ≠ 0) {object : Allocation}
    (member : object ∈ heap.live) {offset offset' : Nat} (inside : offset < object.size)
    (inside' : offset' < size) :
    object.pointer + offset ≠ (heapMalloc heap.heap size).1 + offset' := by
  intro same
  have live := malloc_live heap some
  have block := inv.byte_block (live ▸ List.mem_cons_of_mem _ member) inside
  have block' := inv.byte_block (new_held heap some) inside'
  simp only at block'
  rw [same] at block
  obtain ⟨ledger, owners, -⟩ := inv.accounted
  have apart := ledger.disjoint
  rw [owners, live, List.pairwise_cons] at apart
  exact apart.1 object member _ block' block

theorem new_size_pos {heap : HeapState} {size : Nat}
    (inv : HeapInv region (heap.apply (.malloc size)))
    (some : (heapMalloc heap.heap size).1 ≠ 0) : 0 < size :=
  inv.size_pos (new_held heap some)

/-- A request, with what the new object holds and whatever became of the bytes outside
of the objects that were held. -/
theorem ClientInv.request (before : ClientInv region clients) {size : Nat}
    (allowed : (HeapOp.malloc size).Allowed clients.memory.heap)
    (served : (HeapOp.malloc size).Served clients.memory.heap) {ram : Nat → Byte}
    (initial : Option Byte)
    (kept : ∀ object ∈ clients.memory.heap.live, ∀ offset < object.size,
      ram (object.pointer + offset) = clients.memory.ram (object.pointer + offset))
    (holds : (heapMalloc clients.memory.heap.heap size).1 ≠ 0 → ∀ value, initial = some value →
      ∀ offset < size, ram ((heapMalloc clients.memory.heap.heap size).1 + offset) = value) :
    ClientInv region ⟨⟨clients.memory.heap.apply (.malloc size), ram⟩,
      if (heapMalloc clients.memory.heap.heap size).1 = 0 then clients.contents
      else Function.update clients.contents (heapMalloc clients.memory.heap.heap size).1
        fun _ => initial⟩ := by
  have inv := before.heap.malloc allowed served
  refine ⟨inv, ?_⟩
  intro object member offset inside value known
  simp only [ClientMemory.load] at member known ⊢
  by_cases null : (heapMalloc clients.memory.heap.heap size).1 = 0
  · rw [malloc_live_null _ null] at member
    rw [if_pos null] at known
    rw [kept object member offset inside]
    exact before.known object member offset inside value known
  · rw [malloc_live _ null] at member
    rw [if_neg null] at known
    cases List.mem_cons.mp member with
    | inl new =>
        subst new
        rw [Function.update_self] at known
        exact holds null value known offset inside
    | inr held =>
        have first := new_apart inv null held (before.heap.size_pos held)
          (new_size_pos inv null)
        rw [Nat.add_zero, Nat.add_zero] at first
        rw [Function.update_of_ne first] at known
        rw [kept object held offset inside]
        exact before.known object held offset inside value known

theorem ClientInv.kzalloc (before : ClientInv region clients) {size : Nat}
    (allowed : (HeapOp.malloc size).Allowed clients.memory.heap)
    (served : (HeapOp.malloc size).Served clients.memory.heap) :
    ClientInv region ⟨clients.memory.apply (.kzalloc size),
      clients.contents.apply clients.memory (.kzalloc size)⟩ := by
  have inv := before.heap.malloc allowed served
  have below := region.stop_lt
  have cleared : (heapMalloc clients.memory.heap.heap size).1 ≠ 0 → ∀ address < 2 ^ 32,
      (Kheap.kzalloc clients.memory.heap.heap clients.memory.ram size).2 address =
        if (heapMalloc clients.memory.heap.heap size).1 ≤ address ∧
          address < (heapMalloc clients.memory.heap.heap size).1 + size then 0
        else clients.memory.ram address := by
    intro some address word
    have positive := new_size_pos inv some
    have last := inv.byte_inside (new_held _ some) (Nat.sub_one_lt_of_lt positive)
    simp only at last
    rw [kzalloc_ram, if_neg some]
    exact clearBytes_apply _ (by omega) word
  refine before.request allowed served (some 0) ?_ ?_
  · intro object member offset inside
    by_cases null : (heapMalloc clients.memory.heap.heap size).1 = 0
    · rw [kzalloc_ram, if_pos null]
    · have address := before.heap.byte_inside member inside
      rw [cleared null _ (by omega), if_neg]
      rintro ⟨above, under⟩
      refine new_apart inv null member inside (Nat.sub_lt_left_of_lt_add above under) ?_
      omega
  · intro some value zero offset inside
    have address := inv.byte_inside (new_held _ some) inside
    simp only at address
    rw [cleared some _ (by omega), if_pos (by omega)]
    exact Option.some.inj zero

theorem ClientInv.kfree (before : ClientInv region clients) {ptr : Nat}
    (allowed : (HeapOp.free ptr).Allowed clients.memory.heap)
    (served : (HeapOp.free ptr).Served clients.memory.heap) :
    ClientInv region ⟨clients.memory.apply (.kfree ptr), clients.contents⟩ := by
  refine ⟨before.heap.free allowed served, ?_⟩
  intro object member offset inside value known
  simp only at member known ⊢
  rw [ClientMemory.kfree_live] at member
  unfold ClientMemory.load
  rw [ClientMemory.kfree_ram]
  exact before.known object (List.mem_of_mem_filter member) offset inside value known

theorem ClientInv.store (before : ClientInv region clients) {object : Allocation}
    (held : object ∈ clients.memory.heap.live) {offset : Nat} (inside : offset < object.size)
    (value : Byte) :
    ClientInv region ⟨clients.memory.apply (.store object.pointer offset value),
      clients.contents.apply clients.memory (.store object.pointer offset value)⟩ := by
  refine ⟨before.heap, ?_⟩
  intro other member offset' inside' value' known
  simp only [ClientMemory.apply, Contents.apply, ClientMemory.load] at member known ⊢
  by_cases here : other.pointer + offset' = object.pointer + offset
  · obtain ⟨rfl, rfl⟩ := before.heap.byte_unique member held inside' inside here
    rw [Function.update_self, Function.update_self] at known
    rw [Function.update_self]
    exact Option.some.inj known
  · have unchanged : clients.contents other.pointer offset' = some value' := by
      by_cases same : other.pointer = object.pointer
      · rw [same, Function.update_self] at known
        rw [same]
        have apart : offset' ≠ offset := fun equal => here (by rw [same, equal])
        rwa [Function.update_of_ne apart] at known
      · rwa [Function.update_of_ne same] at known
    rw [Function.update_of_ne here]
    exact before.known other member offset' inside' value' unchanged

theorem clientStep_inv {op : ClientOp} {after : Clients} (before : ClientInv region clients)
    (step : ClientStep clients op after) : ClientInv region after := by
  obtain ⟨legal, rfl⟩ := step
  cases op with
  | kmalloc size =>
      exact before.request legal.1 legal.2 none (fun _ _ _ _ => rfl)
        (fun _ _ unknown => by cases unknown)
  | kzalloc size => exact before.kzalloc legal.1 legal.2
  | kfree ptr => exact before.kfree legal.1 legal.2
  | store ptr offset value =>
      obtain ⟨object, held, rfl, inside⟩ := legal
      exact before.store held inside value

end Steps

def bootClients (region : Region) (table : HeapTable) (ram : Nat → Byte) : Clients :=
  ⟨⟨bootState region table, ram⟩, fun _ _ => none⟩

/-- In every state of every run of calls that the heap serves and of stores into held
objects, the bytes of an object lie in the region, no two objects have a byte in common,
and every byte reads as it was stored last, or as zero if it was only ever cleared by
`kzalloc`: whatever the other clients do, an object is an array of its own. -/
theorem heap_objects_private (region : Region) (table : HeapTable) (ram : Nat → Byte)
    (accepted : (createHeap region.start region.stop table).1 = 0)
    {ops : List ClientOp} {clients : Clients}
    (run : Run ClientStep (bootClients region table ram) ops clients) :
    (∀ object ∈ clients.memory.heap.live, ∀ offset < object.size,
      region.start ≤ object.pointer + offset ∧
        object.pointer + offset < region.stop) ∧
    (∀ object ∈ clients.memory.heap.live, ∀ other ∈ clients.memory.heap.live,
      ∀ offset < object.size, ∀ offset' < other.size,
        object.pointer + offset = other.pointer + offset' →
          object = other ∧ offset = offset') ∧
    ∀ object ∈ clients.memory.heap.live, ∀ offset < object.size, ∀ value,
      clients.contents object.pointer offset = some value →
        clients.memory.load object.pointer offset = value := by
  have inv := run.invariant (ClientInv region)
    (fun _ _ _ before step => clientStep_inv before step)
    ⟨bootState_inv accepted, fun _ _ _ _ _ known => by cases known⟩
  exact ⟨fun _ member _ inside => inv.heap.byte_inside member inside,
    fun _ member _ member' _ inside _ inside' same =>
      inv.heap.byte_unique member member' inside inside' same, inv.known⟩

def twoObjects : List ClientOp :=
  [.kzalloc 4096, .kmalloc 8192, .store 0x01001000 8191 0xAA]

def Clients.after (clients : Clients) (ops : List ClientOp) : Clients :=
  ops.foldl (fun clients op =>
    ⟨clients.memory.apply op, clients.contents.apply clients.memory op⟩) clients

theorem heap_objects_private_two :
    Run ClientStep (bootClients threeBlocks blankTable fun _ => 0xFF) twoObjects
      ((bootClients threeBlocks blankTable fun _ => 0xFF).after twoObjects) ∧
    ((bootClients threeBlocks blankTable fun _ => 0xFF).after twoObjects).memory.load
      0x01000000 4095 = 0 ∧
    ((bootClients threeBlocks blankTable fun _ => 0xFF).after twoObjects).memory.load
      0x01001000 8191 = 0xAA := by
  have first : (HeapOp.malloc 4096).Served (bootState threeBlocks blankTable) := by
    refine .inl ⟨0, by decide +kernel, fun block contains => ?_⟩
    rw [Range.contains_iff] at contains
    simp only [blocksFor] at contains
    obtain rfl : block = 0 := by omega
    decide +kernel
  have second : (HeapOp.malloc 8192).Served
      ((bootState threeBlocks blankTable).apply (.malloc 4096)) := by
    refine .inl ⟨1, by decide +kernel, fun block contains => ?_⟩
    rw [Range.contains_iff] at contains
    simp only [blocksFor] at contains
    obtain rfl | rfl : block = 1 ∨ block = 2 := by omega
    · decide +kernel
    · decide +kernel
  have run : Run ClientStep (bootClients threeBlocks blankTable fun _ => 0xFF) twoObjects
      ((bootClients threeBlocks blankTable fun _ => 0xFF).after twoObjects) := by
    refine .next ⟨⟨by simp [HeapOp.Allowed], first⟩, rfl⟩ <|
      .next ⟨⟨by simp [HeapOp.Allowed], second⟩, rfl⟩ <|
        .next ⟨⟨⟨0x01001000, 8192⟩, ?_, rfl, by decide⟩, rfl⟩ (.done _)
    decide +kernel
  obtain ⟨-, -, known⟩ := heap_objects_private threeBlocks blankTable _
    (by decide +kernel) run
  exact ⟨run, known ⟨0x01000000, 4096⟩ (by decide +kernel) 4095 (by decide) 0
      (by decide +kernel),
    known ⟨0x01001000, 8192⟩ (by decide +kernel) 8191 (by decide) 0xAA
      (by decide +kernel)⟩

end LazyOS.Memory
