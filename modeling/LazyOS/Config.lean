import Mathlib.Logic.Function.Basic

namespace LazyOS

/-! Constants of `config.h` and `status.h`. -/

def heapSizeBytes : Nat := 104857600

def heapBlockSize : Nat := 4096

def heapAddress : Nat := 0x01000000

def sectorSize : Nat := 512

def einvarg : Int := 2

def noMemory : Int := 3

def eio : Int := 5

end LazyOS
