import LazyOS.Config
import LazyOS.Data.Pic8259

namespace LazyOS.Interrupts

open LazyOS.Data

/-! Where an interrupt goes: `PIC_remap` of `pic.c` gives each line its vector, and
`idt_init` of `idt.c` gives each vector its wrapper. -/

def picOffset : Int := 32

def pic1Command : Nat := 0x20

def pic1Data : Nat := pic1Command + 1

def pic2Command : Nat := 0xA0

def pic2Data : Nat := pic2Command + 1

def icw1Icw4 : Int := 0x01

def icw1Init : Int := 0x10

def icw4Mode8086 : Int := 0x01

def cascadeIrq : Nat := 2

/-- `outb` on a port of the controllers; its value is an `unsigned char`. -/
def outb (pics : PicPair) (port : Nat) (val : Int) : PicPair :=
  let val := BitVec.ofInt 8 val
  if port = pic1Command then { pics with master := pics.master.writeCommand val }
  else if port = pic1Data then { pics with master := pics.master.writeData val }
  else if port = pic2Command then { pics with slave := pics.slave.writeCommand val }
  else if port = pic2Data then { pics with slave := pics.slave.writeData val }
  else pics

def picRemap (offset1 : Int) (pics : PicPair) : PicPair :=
  let pics := outb pics pic1Command (icw1Init + icw1Icw4)
  let pics := outb pics pic2Command (icw1Init + icw1Icw4)
  let pics := outb pics pic1Data offset1
  let pics := outb pics pic2Data (offset1 + 8)
  let pics := outb pics pic1Data (2 ^ cascadeIrq)
  let pics := outb pics pic2Data 2
  let pics := outb pics pic1Data icw4Mode8086
  let pics := outb pics pic2Data icw4Mode8086
  let pics := outb pics pic1Data 0
  outb pics pic2Data 0

structure Remapped (pics : PicPair) : Prop where
  masterVector : pics.master.vector = 0x20
  slaveVector : pics.slave.vector = 0x28
  masterCascade : pics.master.cascade = 4
  slaveCascade : pics.slave.cascade = 2
  masterMode : pics.master.mode = 1
  slaveMode : pics.slave.mode = 1
  masterMask : pics.master.mask = 0
  slaveMask : pics.slave.mask = 0

theorem picRemap_remapped (pics : PicPair) : Remapped (picRemap picOffset pics) :=
  ⟨rfl, rfl, rfl, rfl, rfl, rfl, rfl, rfl⟩

theorem picRemap_idle (pics : PicPair) :
    (picRemap picOffset pics).master.Idle ∧ (picRemap picOffset pics).slave.Idle :=
  ⟨fun _ => rfl, fun _ => rfl⟩

def lazyosTotalInterrupts : Nat := 256

def kernelCodeSelector : Half := 0x08

/-- `struct idt_desc`, packed. -/
structure IdtDesc where
  offset1 : Half
  selector : Half
  zero : Byte
  typeAttributes : Byte
  offset2 : Half

def sizeofIdtDesc : Nat := 8

def IdtDesc.bytes (desc : IdtDesc) : Nat → Byte
  | 0 => leByte desc.offset1.toNat 0
  | 1 => leByte desc.offset1.toNat 1
  | 2 => leByte desc.selector.toNat 0
  | 3 => leByte desc.selector.toNat 1
  | 4 => desc.zero
  | 5 => desc.typeAttributes
  | 6 => leByte desc.offset2.toNat 0
  | k => leByte desc.offset2.toNat (k - 6)

abbrev IdtDescriptors := Fin 256 → IdtDesc

def IdtDescriptors.bytes (descriptors : IdtDescriptors) : Nat → Byte := fun k =>
  if inside : k / sizeofIdtDesc < 256 then
    (descriptors ⟨k / sizeofIdtDesc, inside⟩).bytes (k % sizeofIdtDesc)
  else 0

inductive Wrapper where
  | isr (vector : Fin 32)
  | irq0
  | irq1
  | noInterrupt
deriving DecidableEq

def descOf (address : Word) : IdtDesc where
  offset1 := BitVec.ofNat 16 (address &&& 0x0000ffff).toNat
  selector := kernelCodeSelector
  zero := 0
  typeAttributes := 0x8E
  offset2 := BitVec.ofNat 16 (address >>> 16).toNat

def idtSet (descriptors : IdtDescriptors) (interruptNum : Fin 256) (address : Word) :
    IdtDescriptors :=
  Function.update descriptors interruptNum (descOf address)

/-- `address` is where the linker has put the wrappers. -/
def idtInit (address : Wrapper → Word) : IdtDescriptors :=
  let descriptors : IdtDescriptors := fun _ => ⟨0, 0, 0, 0, 0⟩
  let descriptors := (List.finRange 256).foldl
    (fun descriptors i => idtSet descriptors i (address .noInterrupt)) descriptors
  let descriptors := (List.finRange 32).foldl
    (fun descriptors i => idtSet descriptors (i.castLE (by decide)) (address (.isr i)))
    descriptors
  let descriptors := idtSet descriptors 0x20 (address .irq0)
  idtSet descriptors 0x21 (address .irq1)

structure IdtrDesc where
  limit : Half
  base : Word

def idtrDescriptor (base : Word) : IdtrDesc :=
  ⟨BitVec.ofNat 16 (sizeofIdtDesc * lazyosTotalInterrupts - 1), base⟩

structure Gate where
  offset : Word
  selector : Half
  present : Bool
  privilege : Nat
  gateType : Nat
deriving DecidableEq

def Gate.decode (bytes : Nat → Byte) : Gate where
  offset := BitVec.ofNat 32 (leValue 2 bytes + 2 ^ 16 * leValue 2 fun k => bytes (6 + k))
  selector := BitVec.ofNat 16 (leValue 2 fun k => bytes (2 + k))
  present := (bytes 5).getLsbD 7
  privilege := (bytes 5).toNat / 32 % 4
  gateType := (bytes 5).toNat % 16

def gateOf (idtr : IdtrDesc) (memory : Nat → Byte) (vector : Byte) : Option Gate :=
  if sizeofIdtDesc * vector.toNat + 7 ≤ idtr.limit.toNat then
    some (Gate.decode fun k => memory (idtr.base.toNat + sizeofIdtDesc * vector.toNat + k))
  else none

structure IdtLoaded (address : Wrapper → Word) (idtr : IdtrDesc) (memory : Nat → Byte) :
    Prop where
  register : ∃ base, idtr = idtrDescriptor base
  table : ∀ k < sizeofIdtDesc * lazyosTotalInterrupts,
    memory (idtr.base.toNat + k) = (idtInit address).bytes k

def wrapperOf (vector : Byte) : Wrapper :=
  if below : vector.toNat < 32 then .isr ⟨vector.toNat, below⟩
  else if vector = 0x20 then .irq0
  else if vector = 0x21 then .irq1
  else .noInterrupt

def kernelGate (address : Word) : Gate := ⟨address, kernelCodeSelector, true, 0, 0xE⟩

theorem foldl_idtSet_of_notMem {count : Nat} (place : Fin count → Fin 256)
    (address : Fin count → Word) {indices : List (Fin count)} (descriptors : IdtDescriptors)
    {n : Fin 256} (outside : ∀ i ∈ indices, place i ≠ n) :
    indices.foldl (fun descriptors i => idtSet descriptors (place i) (address i))
      descriptors n = descriptors n := by
  induction indices generalizing descriptors with
  | nil => rfl
  | cons i rest ih =>
      rw [List.foldl_cons, ih _ fun j member => outside j (List.mem_cons_of_mem _ member)]
      exact Function.update_of_ne (outside i List.mem_cons_self).symm _ _

theorem foldl_idtSet_of_mem {count : Nat} {place : Fin count → Fin 256}
    (distinct : Function.Injective place) (address : Fin count → Word)
    {indices : List (Fin count)} (descriptors : IdtDescriptors) {i : Fin count}
    (member : i ∈ indices) :
    indices.foldl (fun descriptors i => idtSet descriptors (place i) (address i))
      descriptors (place i) = descOf (address i) := by
  induction indices generalizing descriptors with
  | nil => cases member
  | cons j rest ih =>
      rw [List.foldl_cons]
      by_cases later : i ∈ rest
      · exact ih _ later
      · obtain rfl := (List.mem_cons.mp member).resolve_right later
        rw [foldl_idtSet_of_notMem]
        · exact Function.update_self ..
        · rintro k listed same
          exact later (distinct same ▸ listed)

theorem idtInit_apply (address : Wrapper → Word) (vector : Fin 256) :
    idtInit address vector = descOf (address (wrapperOf (BitVec.ofFin vector))) := by
  have value : (BitVec.ofFin vector : Byte).toNat = vector := rfl
  unfold idtInit
  by_cases second : vector = 0x21
  · subst second
    exact Function.update_self ..
  by_cases first : vector = 0x20
  · subst first
    exact (Function.update_of_ne (by decide) _ _).trans (Function.update_self ..)
  have others : ∀ descriptors : IdtDescriptors,
      idtSet (idtSet descriptors 0x20 (address .irq0)) 0x21 (address .irq1) vector =
        descriptors vector := fun descriptors =>
    (Function.update_of_ne second _ _).trans (Function.update_of_ne first _ _)
  rw [others]
  by_cases exception : (vector : Nat) < 32
  · have place : (⟨vector, exception⟩ : Fin 32).castLE (by decide) = vector := rfl
    have set := foldl_idtSet_of_mem (Fin.castLE_injective (by decide : 32 ≤ 256))
      (fun i => address (.isr i))
      ((List.finRange 256).foldl
        (fun descriptors i => idtSet descriptors i (address .noInterrupt))
        fun _ => ⟨0, 0, 0, 0, 0⟩)
      (List.mem_finRange (⟨vector, exception⟩ : Fin 32))
    rw [place] at set
    rw [set]
    unfold wrapperOf
    rw [dif_pos (by rwa [value])]
    rfl
  · rw [foldl_idtSet_of_notMem (fun i : Fin 32 => i.castLE (by decide))
      (fun i => address (.isr i)) _ fun i _ same => exception (by rw [← same]; exact i.isLt)]
    have set := foldl_idtSet_of_mem Function.injective_id
      (fun _ => address .noInterrupt) (fun _ => ⟨0, 0, 0, 0, 0⟩) (List.mem_finRange vector)
    simp only [id_eq] at set
    rw [set]
    unfold wrapperOf
    rw [dif_neg (by rwa [value]), if_neg, if_neg]
    · intro same
      exact second (congrArg BitVec.toFin same)
    · intro same
      exact first (congrArg BitVec.toFin same)

theorem decode_descOf (address : Word) :
    Gate.decode (descOf address).bytes = kernelGate address := by
  have low : leValue 2 (descOf address).bytes = address.toNat % 2 ^ 16 := by
    rw [leValue_congr (fun k bound => (by
      match k, bound with
      | 0, _ => rfl
      | 1, _ => rfl :
        (descOf address).bytes k = leByte (descOf address).offset1.toNat k))]
    rw [leValue_half]
    simp only [descOf, BitVec.toNat_ofNat, BitVec.toNat_and]
    rw [show BitVec.toNat (65535 : Word) = 2 ^ 16 - 1 from rfl,
      Nat.and_two_pow_sub_one_eq_mod, Nat.mod_mod]
  have high : (leValue 2 fun k => (descOf address).bytes (6 + k)) =
      address.toNat / 2 ^ 16 := by
    rw [leValue_congr (fun k bound => (by
      match k, bound with
      | 0, _ => rfl
      | 1, _ => rfl :
        (descOf address).bytes (6 + k) = leByte (descOf address).offset2.toNat k))]
    rw [leValue_half]
    simp only [descOf, BitVec.toNat_ofNat, BitVec.toNat_ushiftRight]
    rw [Nat.shiftRight_eq_div_pow, Nat.mod_eq_of_lt]
    have := address.isLt
    omega
  have offset : address.toNat % 2 ^ 16 + 2 ^ 16 * (address.toNat / 2 ^ 16) = address.toNat :=
    Nat.mod_add_div _ _
  have selector : (leValue 2 fun k => (descOf address).bytes (2 + k)) = 8 := by
    rw [leValue_congr (fun k bound => (by
      match k, bound with
      | 0, _ => rfl
      | 1, _ => rfl :
        (descOf address).bytes (2 + k) = leByte kernelCodeSelector.toNat k))]
    exact leValue_half _
  have attributes : (descOf address).bytes 5 = 0x8E := rfl
  unfold Gate.decode kernelGate
  rw [low, high, offset, selector, attributes, BitVec.ofNat_toNat, BitVec.setWidth_eq]
  rfl

theorem Gate.decode_congr {left right : Nat → Byte} (agree : ∀ k < 8, left k = right k) :
    Gate.decode left = Gate.decode right := by
  unfold Gate.decode
  rw [agree 5 (by decide), leValue_congr fun k inside => agree k (by omega),
    leValue_congr fun k inside => agree (6 + k) (by omega),
    leValue_congr fun k inside => agree (2 + k) (by omega)]

theorem gateOf_eq {address : Wrapper → Word} {idtr : IdtrDesc} {memory : Nat → Byte}
    (loaded : IdtLoaded address idtr memory) (vector : Byte) :
    gateOf idtr memory vector = some (kernelGate (address (wrapperOf vector))) := by
  have bound := vector.isLt
  obtain ⟨base, rfl⟩ := loaded.register
  have limit : (idtrDescriptor base).limit.toNat = 2047 := rfl
  unfold gateOf
  rw [if_pos (by rw [limit]; unfold sizeofIdtDesc; omega), ← decode_descOf]
  have desc := idtInit_apply address vector.toFin
  rw [BitVec.ofFin_toFin] at desc
  refine congrArg some (Gate.decode_congr fun k inside => ?_)
  have quotient : (sizeofIdtDesc * vector.toNat + k) / sizeofIdtDesc = vector.toNat := by
    rw [Nat.mul_add_div (by decide), Nat.div_eq_of_lt (by exact inside), Nat.add_zero]
  have remainder : (sizeofIdtDesc * vector.toNat + k) % sizeofIdtDesc = k := by
    rw [Nat.mul_add_mod, Nat.mod_eq_of_lt (by exact inside)]
  rw [Nat.add_assoc, loaded.table _ (by unfold sizeofIdtDesc lazyosTotalInterrupts; omega)]
  unfold IdtDescriptors.bytes
  simp only [quotient, remainder]
  rw [dif_pos bound, ← desc]
  rfl

end LazyOS.Interrupts
