import Mathlib.Tactic

namespace LazyOS.Data

universe u

variable {α : Type u}

/-! Text laid out in rows: a line ends at each separator, and a line that is longer
than a row goes on in the next one. -/

def wrapLine (width : Nat) [NeZero width] (line : List α) : List (List α) :=
  if line.length ≤ width then [line]
  else line.take width :: wrapLine width (line.drop width)
termination_by line.length
decreasing_by
  have := NeZero.pos width
  rw [List.length_drop]
  omega

def layout (width : Nat) [NeZero width] [BEq α] (separator : α) (text : List α) :
    List (List α) :=
  (text.splitOn separator).flatMap (wrapLine width)

def appendChar (width : Nat) (c : α) : List (List α) → List (List α)
  | [] => [[c]]
  | [row] => if width ≤ row.length then [row, [c]] else [row ++ [c]]
  | row :: next :: rows => row :: appendChar width c (next :: rows)

theorem appendChar_append (width : Nat) (c : α) (front : List (List α))
    {rows : List (List α)} (nonempty : rows ≠ []) :
    appendChar width c (front ++ rows) = front ++ appendChar width c rows := by
  induction front with
  | nil => rfl
  | cons row front ih =>
      obtain ⟨next, others, shape⟩ :=
        List.exists_cons_of_ne_nil (List.append_ne_nil_of_right_ne_nil front nonempty)
      rw [List.cons_append, shape, appendChar, ← shape, ih, List.cons_append]

theorem appendChar_concat (width : Nat) (c : α) (front : List (List α)) (row : List α) :
    appendChar width c (front ++ [row]) =
      if width ≤ row.length then front ++ [row] ++ [[c]] else front ++ [row ++ [c]] := by
  rw [appendChar_append width c front (List.cons_ne_nil row []), appendChar]
  split
  · rw [List.append_assoc]
    rfl
  · rfl

theorem splitOn_concat [BEq α] (separator : α) {c : α}
    (other : (c == separator) = false) (text : List α) :
    ∃ lines line, text.splitOn separator = lines ++ [line] ∧
      (text ++ [c]).splitOn separator = lines ++ [line ++ [c]] := by
  induction text with
  | nil => exact ⟨[], [], by simp, by simp [List.splitOn_cons_eq_if_modifyHead, other]⟩
  | cons first text ih =>
      obtain ⟨lines, line, before, after⟩ := ih
      rw [List.cons_append, List.splitOn_cons_eq_if_modifyHead,
        List.splitOn_cons_eq_if_modifyHead, before, after]
      cases first == separator with
      | true => exact ⟨[] :: lines, line, rfl, rfl⟩
      | false =>
          cases lines with
          | nil => exact ⟨[], first :: line, rfl, rfl⟩
          | cons head lines => exact ⟨(first :: head) :: lines, line, rfl, rfl⟩

section Wrapping

variable {width : Nat} [NeZero width]

theorem wrapLine_short {line : List α} (short : line.length ≤ width) :
    wrapLine width line = [line] := by
  rw [wrapLine, if_pos short]

theorem wrapLine_long {line : List α} (long : width < line.length) :
    wrapLine width line = line.take width :: wrapLine width (line.drop width) := by
  rw [wrapLine, if_neg (by omega)]

theorem wrapLine_ne_nil (line : List α) : wrapLine width line ≠ [] := by
  rw [wrapLine]
  split <;> exact List.cons_ne_nil _ _

theorem wrapLine_concat (line : List α) (c : α) :
    wrapLine width (line ++ [c]) = appendChar width c (wrapLine width line) := by
  have positive := NeZero.pos width
  by_cases short : line.length ≤ width
  · rw [wrapLine_short short, appendChar]
    split
    · have full : line.length = width := by omega
      rw [wrapLine_long (by rw [List.length_append, List.length_singleton]; omega),
        List.take_left' full, List.drop_left' full,
        wrapLine_short (by rw [List.length_singleton]; omega)]
    · exact wrapLine_short (by rw [List.length_append, List.length_singleton]; omega)
  · have long : width < line.length := by omega
    have shorter : (line.drop width).length < line.length := by
      rw [List.length_drop]
      omega
    rw [wrapLine_long long,
      wrapLine_long (by rw [List.length_append, List.length_singleton]; omega),
      List.take_append_of_le_length long.le, List.drop_append_of_le_length long.le,
      wrapLine_concat (line.drop width) c]
    exact (appendChar_append width c [line.take width] (wrapLine_ne_nil _)).symm
termination_by line.length

variable [BEq α] {separator : α}

theorem layout_nil : layout width separator ([] : List α) = [[]] := by
  unfold layout
  rw [List.splitOn_nil, List.flatMap_singleton]
  exact wrapLine_short (Nat.zero_le _)

variable [LawfulBEq α]

theorem layout_separator (text : List α) :
    layout width separator (text ++ [separator]) = layout width separator text ++ [[]] := by
  unfold layout
  rw [List.splitOn_append_cons_self, List.flatMap_append, List.splitOn_nil,
    List.flatMap_singleton]
  exact congrArg _ (wrapLine_short (Nat.zero_le _))

theorem layout_concat {c : α} (other : c ≠ separator) (text : List α) :
    layout width separator (text ++ [c]) =
      appendChar width c (layout width separator text) := by
  obtain ⟨lines, line, before, after⟩ :=
    splitOn_concat separator (by simpa using other) text
  unfold layout
  rw [before, after, List.flatMap_append, List.flatMap_append, List.flatMap_singleton,
    List.flatMap_singleton, wrapLine_concat, appendChar_append _ _ _ (wrapLine_ne_nil _)]

/-- The end of a full row is no row of its own. -/
example : layout 2 0 [1, 1, 0, 1, 1, 1, 0] = [[1, 1], [1, 1], [1], []] := by
  simp [layout, List.splitOn_cons_eq_if_modifyHead, wrapLine]

end Wrapping

end LazyOS.Data
