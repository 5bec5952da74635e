import LazyOS.Data.Rows
import LazyOS.Drivers.Screen

namespace LazyOS.Drivers

open LazyOS.Data

/-! Printed text on the screen: the last rows of its layout. -/

instance : NeZero vgaWidth := ⟨by decide⟩

def textRows (text : List Byte) : List (List Byte) :=
  layout vgaWidth newlineChar text

def shownRows (rows : List (List Byte)) : List (List Byte) :=
  rows.drop (rows.length - vgaHeight)

def rowCell (fg bg : Color) (view : List (List Byte)) (y x : Nat) : Half :=
  match view[y]?.bind fun row => row[x]? with
  | some c => terminalMakeChar c fg bg
  | none => blank

/-- The screen holds the rows in view and is blank otherwise, and the cursor stands
behind the last of them. -/
structure Shows (fg bg : Color) (rows : List (List Byte)) (t : Terminal) : Prop where
  cells : ∀ y < vgaHeight, ∀ x < vgaWidth,
    t.videoMem (y * vgaWidth + x) = rowCell fg bg (shownRows rows) y x
  row : t.terminalRow + 1 = (shownRows rows).length
  col : ∃ last, rows.getLast? = some last ∧ t.terminalCol = last.length

section Cells

variable (fg bg : Color) (view : List (List Byte))

theorem rowCell_concat_nil (y x : Nat) :
    rowCell fg bg (view ++ [[]]) y x = rowCell fg bg view y x := by
  unfold rowCell
  by_cases inside : y < view.length
  · rw [List.getElem?_append_left inside]
  · have beyond : view[y]? = none := List.getElem?_eq_none (by omega)
    rw [List.getElem?_append_right (by omega), beyond]
    cases y - view.length <;> rfl

theorem rowCell_tail (y x : Nat) :
    rowCell fg bg view.tail y x = rowCell fg bg view (y + 1) x := by
  unfold rowCell
  rw [List.getElem?_tail]

theorem rowCell_past {y : Nat} (past : view.length ≤ y) (x : Nat) :
    rowCell fg bg view y x = blank := by
  unfold rowCell
  rw [List.getElem?_eq_none past]
  rfl

theorem rowCell_concat_char (row : List Byte) (c : Byte) (y x : Nat) :
    rowCell fg bg (view ++ [row ++ [c]]) y x =
      if y = view.length ∧ x = row.length then terminalMakeChar c fg bg
      else rowCell fg bg (view ++ [row]) y x := by
  unfold rowCell
  rcases Nat.lt_trichotomy y view.length with early | rfl | late
  · rw [List.getElem?_append_left early, List.getElem?_append_left early,
      if_neg (by omega)]
  · rw [List.getElem?_concat_length, List.getElem?_concat_length, Option.bind_some,
      Option.bind_some]
    rcases Nat.lt_trichotomy x row.length with early | rfl | late
    · rw [List.getElem?_append_left early, if_neg (by omega)]
    · rw [List.getElem?_concat_length, if_pos ⟨rfl, rfl⟩]
    · rw [List.getElem?_eq_none (by simp; omega), List.getElem?_eq_none (by omega),
        if_neg (by omega)]
  · rw [List.getElem?_eq_none (by simp; omega), List.getElem?_eq_none (by simp; omega),
      if_neg (by omega)]

end Cells

theorem shownRows_concat (front : List (List Byte)) (row : List Byte) :
    shownRows (front ++ [row]) =
      front.drop (front.length + 1 - vgaHeight) ++ [row] := by
  unfold shownRows
  rw [List.length_append, List.length_singleton]
  exact List.drop_append_of_le_length (by unfold vgaHeight; omega)

theorem shownRows_of_short {rows : List (List Byte)} (short : rows.length ≤ vgaHeight) :
    shownRows rows = rows := by
  unfold shownRows
  rw [Nat.sub_eq_zero_of_le short, List.drop_zero]

theorem shownRows_push {rows : List (List Byte)} (full : vgaHeight ≤ rows.length)
    (row : List Byte) :
    shownRows (rows ++ [row]) = (shownRows rows).tail ++ [row] := by
  rw [shownRows_concat]
  unfold shownRows
  rw [List.tail_drop, Nat.sub_add_comm full]

theorem shownRows_length (rows : List (List Byte)) :
    (shownRows rows).length = min rows.length vgaHeight := by
  unfold shownRows
  rw [List.length_drop]
  omega

theorem nextRow_shows {fg bg : Color} {rows : List (List Byte)} {t : Terminal}
    (shows : Shows fg bg rows t) :
    ∃ after, nextRow t = some after ∧ Shows fg bg (rows ++ [[]]) after := by
  obtain ⟨cells, row, -⟩ := shows
  rw [shownRows_length] at row
  have col : ∃ last : List Byte, (rows ++ [[]]).getLast? = some last ∧ 0 = last.length :=
    ⟨[], List.getLast?_concat, rfl⟩
  by_cases room : t.terminalRow + 1 < vgaHeight
  · have short : rows.length < vgaHeight := by omega
    have view : shownRows (rows ++ [[]]) = shownRows rows ++ [[]] := by
      rw [shownRows_of_short short.le, shownRows_of_short (by simp; omega)]
    refine ⟨_, nextRow_inside room, fun y inside x column => ?_, ?_, col⟩
    · rw [view, rowCell_concat_nil]
      exact cells y inside x column
    · rw [shownRows_length, List.length_append, List.length_singleton]
      simp only
      omega
  · have last : t.terminalRow + 1 = vgaHeight := by omega
    have full : vgaHeight ≤ rows.length := by omega
    refine ⟨_, nextRow_last last, fun y inside x column => ?_, ?_, col⟩
    · rw [shownRows_push full, rowCell_concat_nil, rowCell_tail]
      have position := grid_inside inside column
      simp only [scrolled]
      by_cases above : y + 1 < vgaHeight
      · have upper := grid_inside (show y < vgaHeight - 1 by omega) column
        rw [if_pos upper, ← cells (y + 1) above x column, Nat.succ_mul]
        congr 1
        omega
      · have bottom : y = vgaHeight - 1 := by omega
        have lower : ¬ y * vgaWidth + x < (vgaHeight - 1) * vgaWidth := by
          rw [bottom]
          omega
        rw [if_neg lower, if_pos position,
          rowCell_past fg bg _ (by rw [shownRows_length]; omega)]
    · rw [shownRows_length, List.length_append, List.length_singleton]
      simp only
      omega

theorem putChar_shows {fg bg : Color} {front : List (List Byte)} {last : List Byte}
    {t : Terminal} (shows : Shows fg bg (front ++ [last]) t)
    (room : last.length < vgaWidth) (c : Byte) :
    ∃ after, ((terminalPutChar t.terminalCol t.terminalRow fg bg c t).map fun t =>
        { t with terminalCol := (t.terminalCol + 1) % 2 ^ 16 }) = some after ∧
      Shows fg bg (front ++ [last ++ [c]]) after := by
  obtain ⟨cells, row, current, isLast, col⟩ := shows
  rw [List.getLast?_concat] at isLast
  obtain rfl := Option.some.inj isLast
  have height : (shownRows (front ++ [last])).length ≤ vgaHeight := by
    rw [shownRows_length]
    exact Nat.min_le_right _ _
  rw [shownRows_concat] at cells
  rw [shownRows_concat, List.length_append, List.length_singleton] at row height
  have atRow : t.terminalRow = (front.drop (front.length + 1 - vgaHeight)).length := by
    omega
  have inside : t.terminalRow < vgaHeight := by omega
  rw [terminalPutChar_eq _ _ _ _ (grid_inside inside (col ▸ room)), Option.map_some]
  refine ⟨_, rfl, fun y bound x column => ?_, ?_, last ++ [c], List.getLast?_concat, ?_⟩
  · rw [shownRows_concat, rowCell_concat_char, ← cells y bound x column]
    simp only [Function.update_apply]
    have place : y * vgaWidth + x = t.terminalRow * vgaWidth + t.terminalCol ↔
        y = (front.drop (front.length + 1 - vgaHeight)).length ∧ x = last.length := by
      rw [← atRow, ← col]
      unfold vgaWidth at *
      omega
    simp only [place]
  · rw [shownRows_concat, List.length_append, List.length_singleton]
    exact row
  · have narrow : (last.length + 1) % 2 ^ 16 = last.length + 1 := by
      unfold vgaWidth at room
      omega
    simp only [col, List.length_append, List.length_singleton, narrow]

theorem terminalWriteChar_newline_shows {fg bg : Color} {rows : List (List Byte)}
    {t : Terminal} (shows : Shows fg bg rows t) :
    ∃ after, terminalWriteChar newlineChar fg bg t = some after ∧
      Shows fg bg (rows ++ [[]]) after := by
  unfold terminalWriteChar
  rw [if_pos rfl]
  exact nextRow_shows shows

theorem terminalWriteChar_shows {fg bg : Color} {rows : List (List Byte)}
    {t : Terminal} (shows : Shows fg bg rows t) {c : Byte} (other : c ≠ newlineChar) :
    ∃ after, terminalWriteChar c fg bg t = some after ∧
      Shows fg bg (appendChar vgaWidth c rows) after := by
  obtain ⟨last, isLast, col⟩ := shows.col
  obtain ⟨front, rfl⟩ := List.getLast?_eq_some_iff.mp isLast
  unfold terminalWriteChar
  rw [if_neg other, appendChar_concat, col]
  by_cases full : vgaWidth ≤ last.length
  · obtain ⟨middle, moved, empty⟩ := nextRow_shows shows
    rw [if_pos full, if_pos full, moved, Option.bind_some]
    exact putChar_shows empty (by decide) c
  · rw [if_neg full, if_neg full, Option.bind_some]
    exact putChar_shows shows (by omega) c

theorem printColor_append (first second : List Byte) (fg bg : Color) (t : Terminal) :
    printColor (first ++ second) fg bg t =
      (printColor first fg bg t).bind (printColor second fg bg) := by
  induction first generalizing t with
  | nil => rfl
  | cons c first ih =>
      rw [List.cons_append, printColor, printColor]
      cases terminalWriteChar c fg bg t with
      | none => rfl
      | some after => exact ih after

theorem printColor_shows {fg bg : Color} {shown : List Byte} {t : Terminal}
    (shows : Shows fg bg (textRows shown) t) (text : List Byte) :
    ∃ after, printColor text fg bg t = some after ∧
      Shows fg bg (textRows (shown ++ text)) after := by
  induction text generalizing shown t with
  | nil =>
      refine ⟨t, rfl, ?_⟩
      rw [List.append_nil]
      exact shows
  | cons c text ih =>
      have step : ∃ middle, terminalWriteChar c fg bg t = some middle ∧
          Shows fg bg (textRows (shown ++ [c])) middle := by
        by_cases newline : c = newlineChar
        · subst newline
          rw [textRows, layout_separator]
          exact terminalWriteChar_newline_shows shows
        · rw [textRows, layout_concat newline]
          exact terminalWriteChar_shows shows newline
      obtain ⟨middle, wrote, shows⟩ := step
      obtain ⟨after, printed, shows⟩ := ih shows
      refine ⟨after, ?_, ?_⟩
      · rw [printColor, wrote]
        exact printed
      · rwa [List.append_assoc] at shows

theorem terminalClear_shows (fg bg : Color) (t : Terminal) :
    ∃ cleared, terminalClear t = some cleared ∧ Shows fg bg (textRows []) cleared := by
  refine ⟨_, terminalClear_eq t, ?_⟩
  rw [textRows, layout_nil]
  refine ⟨fun y inside x column => ?_, rfl, [], rfl, rfl⟩
  have empty : rowCell fg bg (shownRows [[]]) y x = blank := rowCell_concat_nil fg bg [] y x
  rw [empty]
  exact if_pos (grid_inside inside column)

/-- After `terminal_clear`, printing shows the layout of the text; and printing two
texts is printing one behind the other, whatever is on the screen. -/
theorem print_renders_layout (t : Terminal) (fg bg : Color) (text : List Byte) :
    (∃ cleared after, terminalClear t = some cleared ∧
      printColor text fg bg cleared = some after ∧ Shows fg bg (textRows text) after) ∧
    ∀ start more, printColor (text ++ more) fg bg start =
      (printColor text fg bg start).bind (printColor more fg bg) := by
  obtain ⟨cleared, clear, empty⟩ := terminalClear_shows fg bg t
  obtain ⟨after, printed, shows⟩ := printColor_shows empty text
  exact ⟨⟨cleared, after, clear, printed, shows⟩,
    fun start more => printColor_append text more fg bg start⟩

end LazyOS.Drivers
