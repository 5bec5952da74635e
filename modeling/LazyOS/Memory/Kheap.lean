import LazyOS.Memory.Heap

namespace LazyOS.Memory.Kheap

open LazyOS.Data

/-! The kernel's allocator of `kheap.c`: the block heap under its own names, and
`kzalloc`, which clears what it hands out. -/

def kmalloc (kernelHeap : Heap) (size : Nat) : Nat × Heap :=
  heapMalloc kernelHeap size

def kfree (kernelHeap : Heap) (ptr : Nat) : Heap := heapFree kernelHeap ptr

/-- `memset(ptr, 0x00, size)` in the 32-bit address space. -/
def clearBytes (ram : Nat → Byte) (ptr size : Nat) : Nat → Byte := fun address =>
  if toUInt32 ((address : Int) - ptr) < size then 0 else ram address

def kzalloc (kernelHeap : Heap) (ram : Nat → Byte) (size : Nat) :
    (Nat × Heap) × (Nat → Byte) :=
  let allocated := kmalloc kernelHeap size
  if allocated.1 = 0 then ((0, allocated.2), ram)
  else (allocated, clearBytes ram allocated.1 size)

end LazyOS.Memory.Kheap
