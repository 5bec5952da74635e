import LazyOS.Data.Run

namespace LazyOS.Data

universe u v w x

variable {State : Type u} {Abstract : Type v} {Label : Type w} {Output : Type x}

/-! Machines that answer every label with an output, and the rule that relates two
of them through a view of the one as the other. -/

def answers (step : State → Label → State × Output) :
    State → List Label → State × List Output
  | state, [] => (state, [])
  | state, label :: labels =>
      let answered := step state label
      let rest := answers step answered.1 labels
      (rest.1, answered.2 :: rest.2)

def Admits (step : State → Label → State × Output) (allowed : State → Label → Prop) :
    State → List Label → Prop
  | _, [] => True
  | state, label :: labels =>
      allowed state label ∧ Admits step allowed (step state label).1 labels

variable {step : State → Label → State × Output}
variable {allowed : State → Label → Prop}

theorem answers_append (state : State) (first later : List Label) :
    (answers step state (first ++ later)).1 =
      (answers step (answers step state first).1 later).1 := by
  induction first generalizing state with
  | nil => rfl
  | cons label labels ih => exact ih (step state label).1

theorem Admits.split {state : State} {first later : List Label}
    (admits : Admits step allowed state (first ++ later)) :
    Admits step allowed state first ∧
      Admits step allowed (answers step state first).1 later := by
  induction first generalizing state with
  | nil => exact ⟨trivial, admits⟩
  | cons label labels ih =>
      obtain ⟨before, after⟩ := ih admits.2
      exact ⟨⟨admits.1, before⟩, after⟩

/-- A view that commutes with each allowed step commutes with the whole sequence:
the viewed machine gives the same answers. -/
theorem answers_view {other : Abstract → Label → Abstract × Output}
    (view : State → Abstract)
    (commutes : ∀ state label, allowed state label →
      other (view state) label = (view (step state label).1, (step state label).2))
    {labels : List Label} {state : State} (admits : Admits step allowed state labels) :
    answers other (view state) labels =
      (view (answers step state labels).1, (answers step state labels).2) := by
  induction labels generalizing state with
  | nil => rfl
  | cons label labels ih =>
      obtain ⟨here, later⟩ := admits
      simp only [answers, commutes state label here, ih later]

theorem answers_invariant (inv : State → Prop)
    (preserved : ∀ state label, inv state → allowed state label →
      inv (step state label).1)
    {labels : List Label} {state : State} (start : inv state)
    (admits : Admits step allowed state labels) : inv (answers step state labels).1 := by
  induction labels generalizing state with
  | nil => exact start
  | cons label labels ih =>
      obtain ⟨here, later⟩ := admits
      exact ih (preserved state label start here) later

/-- A relation that every allowed step keeps, the concrete machine printing what the
other answers, links their whole runs. -/
theorem run_of_simulates {Concrete : Type v} {Symbol : Type x}
    {step : State → Label → State × List Symbol} {allowed : State → Label → Prop}
    (steps : Concrete → Label → Concrete → Prop) (related : Concrete → State → Prop)
    (printed : Concrete → List Symbol)
    (simulates : ∀ concrete state label, related concrete state → allowed state label →
      ∃ after, steps concrete label after ∧ related after (step state label).1 ∧
        printed after = printed concrete ++ (step state label).2)
    {labels : List Label} (concrete : Concrete) {state : State}
    (start : related concrete state) (admits : Admits step allowed state labels) :
    ∃ last, Run steps concrete labels last ∧ related last (answers step state labels).1 ∧
      printed last = printed concrete ++ (answers step state labels).2.flatten := by
  induction labels generalizing concrete state with
  | nil => exact ⟨concrete, .done concrete, start, (List.append_nil _).symm⟩
  | cons label labels ih =>
      obtain ⟨here, later⟩ := admits
      obtain ⟨after, taken, kept, shown⟩ := simulates concrete state label start here
      obtain ⟨last, run, ends, screen⟩ := ih after kept later
      refine ⟨last, .next taken run, ends, ?_⟩
      rw [screen, shown, List.append_assoc]
      rfl

end LazyOS.Data
