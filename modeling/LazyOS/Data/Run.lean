import Mathlib.Logic.Function.Basic

namespace LazyOS.Data

universe u v

variable {State : Type u} {Label : Type v}

/-! Finite runs of a labelled step relation, and the invariant rule for them. -/

inductive Run (step : State → Label → State → Prop) :
    State → List Label → State → Prop
  | done (state : State) : Run step state [] state
  | next {first middle last : State} {label : Label} {labels : List Label} :
      step first label middle → Run step middle labels last →
        Run step first (label :: labels) last

namespace Run

variable {step : State → Label → State → Prop}

/-- What holds at the start and is kept by each step holds wherever a run
ends.  Every state of a run ends one of its prefixes, so this is the rule for
all states reached. -/
theorem invariant (inv : State → Prop)
    (preserved : ∀ first label last,
      inv first → step first label last → inv last)
    {first last : State} {labels : List Label}
    (run : Run step first labels last) (start : inv first) : inv last := by
  induction run with
  | done _ => exact start
  | next taken _ ih => exact ih (preserved _ _ _ start taken)

theorem mono {other : State → Label → State → Prop}
    (weaker : ∀ first label last, step first label last → other first label last)
    {first last : State} {labels : List Label} (run : Run step first labels last) :
    Run other first labels last := by
  induction run with
  | done _ => exact .done _
  | next taken _ ih => exact .next (weaker _ _ _ taken) ih

theorem append {first middle last : State} {labels others : List Label}
    (run : Run step first labels middle) (rest : Run step middle others last) :
    Run step first (labels ++ others) last := by
  induction run with
  | done _ => exact rest
  | next taken _ ih => exact .next taken (ih rest)

end Run

end LazyOS.Data
