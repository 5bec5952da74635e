import Mathlib.Tactic

namespace LazyOS.Data

universe u

variable {State : Type u}

/-! Counted loops whose body may fail, alone and nested over the rows and columns of
a grid.  A loop is described by the states it passes through. -/

def forLoop (body : Nat → State → Option State) :
    (remaining i : Nat) → State → Option State
  | 0, _, state => some state
  | remaining + 1, i, state => (body i state).bind (forLoop body remaining (i + 1))

/-- `for (int i = 0; i < count; i++)`. -/
def forRange (count : Nat) (body : Nat → State → Option State) (state : State) :
    Option State :=
  forLoop body count 0 state

def forGrid (height width : Nat) (body : Nat → Nat → State → Option State)
    (state : State) : Option State :=
  forRange height (fun y => forRange width (body y)) state

theorem forLoop_eq {body : Nat → State → Option State} (states : Nat → State)
    (remaining i : Nat)
    (step : ∀ k, i ≤ k → k < i + remaining → body k (states k) = some (states (k + 1))) :
    forLoop body remaining i (states i) = some (states (i + remaining)) := by
  induction remaining generalizing i with
  | zero => rfl
  | succ remaining ih =>
      rw [forLoop, step i le_rfl (by omega), Option.bind_some,
        ih (i + 1) fun k lower upper => step k (by omega) (by omega)]
      congr 2
      omega

theorem forRange_eq {body : Nat → State → Option State} (states : Nat → State)
    {count : Nat} (step : ∀ k < count, body k (states k) = some (states (k + 1))) :
    forRange count body (states 0) = some (states count) := by
  unfold forRange
  rw [forLoop_eq states count 0 fun k _ bound => step k (by omega), Nat.zero_add]

theorem forGrid_eq {body : Nat → Nat → State → Option State} (states : Nat → State)
    {height width : Nat}
    (step : ∀ y x, y < height → x < width →
      body y x (states (y * width + x)) = some (states (y * width + x + 1))) :
    forGrid height width body (states 0) = some (states (height * width)) := by
  have row : ∀ y < height, forRange width (body y) (states (y * width)) =
      some (states ((y + 1) * width)) := by
    intro y inside
    have columns : forRange width (body y) (states (y * width + 0)) =
        some (states (y * width + width)) :=
      forRange_eq (fun x => states (y * width + x)) fun x bound => step y x inside bound
    rw [Nat.succ_mul]
    exact columns
  have rows : forRange height (fun y => forRange width (body y)) (states (0 * width)) =
      some (states (height * width)) :=
    forRange_eq (fun y => states (y * width)) row
  rw [Nat.zero_mul] at rows
  exact rows

end LazyOS.Data
