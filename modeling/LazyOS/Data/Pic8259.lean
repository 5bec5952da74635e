import LazyOS.Data.Word

namespace LazyOS.Data

/-! The 8259 interrupt controller, fully nested: the words that set it up, the line it
serves next and the ends of interrupts it is sent.  A request stays until the processor
acknowledges it; rotations, specific ends and polling are left out. -/

abbrev Line := Fin 8

inductive PicWord where
  | icw2
  | icw3
  | icw4
  | mask
deriving DecidableEq

structure Pic where
  expects : PicWord
  single : Bool
  hasMode : Bool
  vector : Byte
  cascade : Byte
  mode : Byte
  mask : Byte
  requests : Line → Bool
  inService : Line → Bool

namespace Pic

def serving (pic : Pic) : Option Line := (List.finRange 8).find? fun line => pic.inService line

def endOfInterrupt (pic : Pic) : Pic :=
  match pic.serving with
  | none => pic
  | some line => { pic with inService := Function.update pic.inService line false }

def writeCommand (pic : Pic) (value : Byte) : Pic :=
  if value.getLsbD 4 then
    { pic with
      expects := .icw2
      single := value.getLsbD 1
      hasMode := value.getLsbD 0
      mode := 0
      mask := 0
      requests := fun _ => false
      inService := fun _ => false }
  else if value &&& 0xF8 = 0x20 then pic.endOfInterrupt
  else pic

def writeData (pic : Pic) (value : Byte) : Pic :=
  match pic.expects with
  | .icw2 =>
      { pic with
        vector := value &&& 0xF8
        expects := if !pic.single then .icw3 else if pic.hasMode then .icw4 else .mask }
  | .icw3 =>
      { pic with cascade := value, expects := if pic.hasMode then .icw4 else .mask }
  | .icw4 => { pic with mode := value, expects := .mask }
  | .mask => { pic with mask := value }

/-- A line may interrupt when it is requested and not masked, and no line of its
priority or above is being served. -/
def Allows (pic : Pic) (line : Line) : Prop :=
  pic.requests line = true ∧ pic.mask.getLsbD line = false ∧
    ∀ above ≤ line, pic.inService above = false

instance (pic : Pic) (line : Line) : Decidable (pic.Allows line) :=
  inferInstanceAs (Decidable (_ ∧ _))

def interrupting (pic : Pic) : Option Line :=
  (List.finRange 8).find? fun line => decide (pic.Allows line)

def request (pic : Pic) (line : Line) : Pic :=
  { pic with requests := Function.update pic.requests line true }

def acknowledge (pic : Pic) (line : Line) : Pic :=
  { pic with
    requests := Function.update pic.requests line false
    inService :=
      if pic.mode.getLsbD 1 then pic.inService else Function.update pic.inService line true }

def vectorOf (pic : Pic) (line : Line) : Byte := pic.vector ||| BitVec.ofNat 8 line

def Idle (pic : Pic) : Prop := ∀ line, pic.inService line = false

/-- `line` is being served and no other. -/
def Serves (pic : Pic) (line : Line) : Prop :=
  ∀ other, pic.inService other = true ↔ other = line

variable {pic : Pic} {line : Line}

theorem serving_eq_none : pic.serving = none ↔ pic.Idle := by
  unfold serving Idle
  rw [List.find?_eq_none]
  simp

theorem serving_mem (served : pic.serving = some line) : pic.inService line = true := by
  have found := List.find?_some served
  exact found

theorem endOfInterrupt_idle (idle : pic.Idle) : pic.endOfInterrupt = pic := by
  unfold endOfInterrupt
  rw [serving_eq_none.mpr idle]

theorem Serves.serving (serves : pic.Serves line) : pic.serving = some line := by
  cases found : pic.serving with
  | none =>
      have idle := serving_eq_none.mp found line
      rw [(serves line).mpr rfl] at idle
      cases idle
  | some other => rw [(serves other).mp (serving_mem found)]

theorem Serves.endOfInterrupt_idle (serves : pic.Serves line) : pic.endOfInterrupt.Idle := by
  intro other
  unfold endOfInterrupt
  rw [serves.serving]
  by_cases same : other = line
  · subst same
    exact Function.update_self ..
  · simp only [Function.update_of_ne same]
    rw [← Bool.not_eq_true, serves other]
    exact same

theorem Idle.acknowledge_serves (idle : pic.Idle) (ends : pic.mode.getLsbD 1 = false)
    (line : Line) : (pic.acknowledge line).Serves line := by
  intro other
  simp only [acknowledge, ends, Bool.false_eq_true, if_false]
  by_cases same : other = line
  · subst same
    simp
  · simp only [Function.update_of_ne same, idle other, Bool.false_eq_true, same]

theorem Idle.interrupting_isSome (idle : pic.Idle) {line : Line}
    (requested : pic.requests line = true) (unmasked : pic.mask.getLsbD line = false) :
    ∃ first ≤ line, pic.interrupting = some first := by
  have allows : pic.Allows line := ⟨requested, unmasked, fun above _ => idle above⟩
  cases found : pic.interrupting with
  | none =>
      have none := List.find?_eq_none.mp found line (List.mem_finRange line)
      exact absurd (decide_eq_true allows) none
  | some first =>
      refine ⟨first, ?_, rfl⟩
      by_contra later
      obtain ⟨-, index, bound, rfl, before⟩ := List.find?_eq_some_iff_getElem.mp found
      rw [List.getElem_finRange] at later
      have earlier := before line (by simpa [Fin.lt_def] using later)
      simp [allows] at earlier

theorem interrupting_allows (found : pic.interrupting = some line) : pic.Allows line := by
  have tested := List.find?_some found
  exact of_decide_eq_true tested

theorem Allows.lt_of_inService (allows : pic.Allows line) {other : Line}
    (served : pic.inService other = true) : line < other := by
  by_contra above
  have idle := allows.2.2 other (not_lt.mp above)
  rw [served] at idle
  cases idle

end Pic

/-- Two controllers, the second behind a line of the first. -/
structure PicPair where
  master : Pic
  slave : Pic

namespace PicPair

/-- The master as it sees its lines: the slave asks on the ones that its third word
names. -/
def inputs (pair : PicPair) : Pic :=
  { pair.master with
    requests := fun line => pair.master.requests line ||
      pair.master.cascade.getLsbD line && pair.slave.interrupting.isSome }

theorem line_of_slave {irq : Fin 16} (above : ¬(irq : Nat) < 8) : (irq : Nat) - 8 < 8 := by
  omega

def request (pair : PicPair) (irq : Fin 16) : PicPair :=
  if below : (irq : Nat) < 8 then { pair with master := pair.master.request ⟨irq, below⟩ }
  else { pair with slave := pair.slave.request ⟨irq - 8, line_of_slave below⟩ }

/-- The vector that the processor is given.  The slave gives its own when the master
calls the line that it is set up for. -/
def acknowledge (pair : PicPair) : Option (Byte × PicPair) :=
  match pair.inputs.interrupting with
  | none => none
  | some line =>
      if pair.master.cascade.getLsbD line then
        if pair.slave.cascade.toNat % 8 = line then
          pair.slave.interrupting.map fun below =>
            (pair.slave.vectorOf below,
              ⟨pair.master.acknowledge line, pair.slave.acknowledge below⟩)
        else none
      else some (pair.master.vectorOf line, ⟨pair.master.acknowledge line, pair.slave⟩)

inductive Acknowledges (pair : PicPair) (vector : Byte) (after : PicPair) : Prop
  | master (line : Line) (allows : pair.inputs.Allows line)
      (own : pair.master.cascade.getLsbD line = false)
      (given : vector = pair.master.vectorOf line)
      (result : after = ⟨pair.master.acknowledge line, pair.slave⟩)
  | slave (line below : Line) (allows : pair.inputs.Allows line)
      (behind : pair.master.cascade.getLsbD line = true) (allowsBelow : pair.slave.Allows below)
      (given : vector = pair.slave.vectorOf below)
      (result : after = ⟨pair.master.acknowledge line, pair.slave.acknowledge below⟩)

theorem acknowledge_cases {pair after : PicPair} {vector : Byte}
    (acknowledged : pair.acknowledge = some (vector, after)) :
    pair.Acknowledges vector after := by
  unfold acknowledge at acknowledged
  cases found : pair.inputs.interrupting with
  | none =>
      rw [found] at acknowledged
      cases acknowledged
  | some line =>
      have allows := Pic.interrupting_allows found
      simp only [found] at acknowledged
      cases behind : pair.master.cascade.getLsbD line with
      | false =>
          rw [behind, if_neg Bool.false_ne_true, Option.some.injEq, Prod.mk.injEq]
            at acknowledged
          exact .master line allows behind acknowledged.1.symm acknowledged.2.symm
      | true =>
          rw [behind, if_pos rfl] at acknowledged
          split at acknowledged
          · obtain ⟨below, asks, given⟩ := Option.map_eq_some_iff.mp acknowledged
            rw [Prod.mk.injEq] at given
            exact .slave line below allows behind (Pic.interrupting_allows asks)
              given.1.symm given.2.symm
          · cases acknowledged

end PicPair

end LazyOS.Data
