import LazyOS.Data.Word

namespace LazyOS

open LazyOS.Data

/-! Strings are the memory seen from a `char` pointer; the text ends at the first
zero byte. -/

abbrev CString := Nat → Byte

def strnlenLoop (ch : CString) : (remaining i : Nat) → Nat
  | 0, i => i
  | remaining + 1, i => if ch i = 0 then i else strnlenLoop ch remaining (i + 1)

def strnlen (ch : CString) (max : Nat) : Nat := strnlenLoop ch max 0

def literal (text : String) : List Byte :=
  text.toList.map fun c => BitVec.ofNat 8 c.toNat

theorem strnlenLoop_spec (ch : CString) (remaining i : Nat) :
    i ≤ strnlenLoop ch remaining i ∧
    strnlenLoop ch remaining i ≤ i + remaining ∧
    (∀ k, i ≤ k → k < strnlenLoop ch remaining i → ch k ≠ 0) ∧
    (strnlenLoop ch remaining i < i + remaining →
      ch (strnlenLoop ch remaining i) = 0) := by
  induction remaining generalizing i with
  | zero => exact ⟨le_rfl, le_rfl, fun k above below => by
      simp only [strnlenLoop] at below
      omega, fun inside => by simp [strnlenLoop] at inside⟩
  | succ remaining ih =>
      simp only [strnlenLoop]
      by_cases ended : ch i = 0
      · rw [if_pos ended]
        exact ⟨le_rfl, by omega, fun k above below => by omega, fun _ => ended⟩
      · rw [if_neg ended]
        obtain ⟨lower, upper, text, terminated⟩ := ih (i + 1)
        refine ⟨by omega, by omega, ?_, fun inside => terminated (by omega)⟩
        intro k above below
        by_cases here : k = i
        · exact here ▸ ended
        · exact text k (by omega) below

theorem ne_zero_of_lt_strnlen {ch : CString} {max k : Nat}
    (below : k < strnlen ch max) : ch k ≠ 0 :=
  (strnlenLoop_spec ch max 0).2.2.1 k (by omega) below

theorem strnlen_pos {ch : CString} {max : Nat} (nonempty : ch 0 ≠ 0)
    (positive : 0 < max) : 0 < strnlen ch max := by
  by_contra zero
  have zeroEq : strnlenLoop ch max 0 = 0 := by
    unfold strnlen at zero
    omega
  have ended := (strnlenLoop_spec ch max 0).2.2.2 (by omega)
  rw [zeroEq] at ended
  exact nonempty ended

def literalString (text : String) : CString := fun k => (literal text).getD k 0

/-- The text from `start` to its terminator; `none` when the terminator does not come
within `remaining` bytes. -/
def textAt (ch : CString) : (remaining start : Nat) → Option (List Byte)
  | 0, _ => none
  | remaining + 1, start =>
      if ch start = 0 then some []
      else (textAt ch remaining (start + 1)).map (ch start :: ·)

def strcompLoop : (str1 str2 : List Byte) → Bool
  | [], [] => true
  | c :: rest, d :: others => if c = d then strcompLoop rest others else false
  | _, _ => false

def strcomp (str1 str2 : List Byte) : Bool :=
  if str1.length ≠ str2.length then false else strcompLoop str1 str2

theorem strcompLoop_iff (str1 str2 : List Byte) :
    strcompLoop str1 str2 = true ↔ str1 = str2 := by
  fun_induction strcompLoop str1 str2 with
  | case1 => simp
  | case2 c rest others ih => simp [ih]
  | case3 c rest d others differ => simp [differ]
  | case4 str1 str2 ended unequal =>
      refine iff_of_false Bool.false_ne_true ?_
      rintro rfl
      cases str1 with
      | nil => exact ended rfl rfl
      | cons c rest => exact unequal c rest c rest rfl rfl

theorem strcomp_iff (str1 str2 : List Byte) : strcomp str1 str2 = true ↔ str1 = str2 := by
  unfold strcomp
  by_cases lengths : str1.length = str2.length
  · rw [if_neg (not_not.mpr lengths), strcompLoop_iff]
  · rw [if_pos lengths]
    refine iff_of_false Bool.false_ne_true fun same => lengths (congrArg List.length same)

/-- What `textAt` has found: `text` stands at `start`, without a zero byte in it, and
its terminator after it. -/
structure StringAt (ch : CString) (start : Nat) (text : List Byte) : Prop where
  bytes : ∀ k (inside : k < text.length), ch (start + k) = text[k]
  nonzero : ∀ c ∈ text, c ≠ 0
  ends : ch (start + text.length) = 0

theorem StringAt.tail {ch : CString} {start : Nat} {c : Byte} {rest : List Byte}
    (held : StringAt ch start (c :: rest)) : StringAt ch (start + 1) rest := by
  refine ⟨fun k inside => ?_, fun other member =>
    held.nonzero other (List.mem_cons_of_mem _ member), ?_⟩
  · have later := held.bytes (k + 1) (Nat.succ_lt_succ inside)
    rw [← Nat.succ_add_eq_add_succ] at later
    exact later
  · have ends := held.ends
    rw [List.length_cons, ← Nat.succ_add_eq_add_succ] at ends
    exact ends

theorem StringAt.head {ch : CString} {start : Nat} {c : Byte} {rest : List Byte}
    (held : StringAt ch start (c :: rest)) : ch start = c :=
  held.bytes 0 (Nat.succ_pos _)

theorem textAt_iff {ch : CString} {remaining start : Nat} {text : List Byte} :
    textAt ch remaining start = some text ↔
      text.length < remaining ∧ StringAt ch start text := by
  induction remaining generalizing start text with
  | zero => simp [textAt]
  | succ remaining ih =>
      unfold textAt
      by_cases ended : ch start = 0
      · rw [if_pos ended, Option.some.injEq]
        constructor
        · rintro rfl
          exact ⟨Nat.succ_pos _, fun k inside => absurd inside (Nat.not_lt_zero k),
            fun c member => absurd member List.not_mem_nil, ended⟩
        · rintro ⟨-, held⟩
          cases text with
          | nil => rfl
          | cons c rest =>
              exact absurd (held.head.symm.trans ended) (held.nonzero c List.mem_cons_self)
      · rw [if_neg ended, Option.map_eq_some_iff]
        constructor
        · rintro ⟨rest, found, rfl⟩
          obtain ⟨short, held⟩ := ih.mp found
          refine ⟨Nat.succ_lt_succ short, fun k inside => ?_, ?_, ?_⟩
          · cases k with
            | zero => rfl
            | succ k =>
                rw [← Nat.succ_add_eq_add_succ]
                exact held.bytes k (Nat.lt_of_succ_lt_succ inside)
          · intro c member
            cases List.mem_cons.mp member with
            | inl here => exact here ▸ ended
            | inr later => exact held.nonzero c later
          · rw [List.length_cons, ← Nat.succ_add_eq_add_succ]
            exact held.ends
        · rintro ⟨short, held⟩
          cases text with
          | nil => exact absurd held.ends ended
          | cons c rest =>
              exact ⟨rest, ih.mpr ⟨Nat.lt_of_succ_lt_succ short, held.tail⟩, by rw [held.head]⟩

end LazyOS
