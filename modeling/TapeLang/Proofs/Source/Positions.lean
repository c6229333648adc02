import Mathlib.Algebra.BigOperators.Group.List.Basic
import Mathlib.Algebra.Ring.Nat
import TapeLang.Source.Position

/-!
# Lines and columns are another way to count characters

A line and a column are found by counting newlines, the index of a character by counting characters.
Either determines the other (`lineColumn_inverse`): with the text cut at its newlines, the lines
before the one that is found, each with its newline, and the column make up the index.

A text is a line, or a line, a newline and a text (`lines_induction`). The proofs go along the lines
of the text: `lineColumn_append_of_le` is the step inside the first line, `lineColumn_append` the
one past its newline.
-/

set_option autoImplicit false

namespace TapeLang.Source

/-- An induction on the lines of a text. -/
theorem lines_induction {motive : List Char → Prop}
    (last : ∀ line : List Char, '\n' ∉ line → motive line)
    (more : ∀ line rest : List Char, '\n' ∉ line → motive rest → motive (line ++ '\n' :: rest))
    (source : List Char) : motive source := by
  have hfrom : ∀ source line : List Char, '\n' ∉ line → motive (line ++ source) := by
    intro source
    induction source with
    | nil =>
        intro line hline
        rw [List.append_nil]
        exact last line hline
    | cons c rest ih =>
        intro line hline
        by_cases hc : c = '\n'
        · rw [hc]
          exact more line rest hline (ih [] List.not_mem_nil)
        · -- the first line has one more character
          have hlonger : '\n' ∉ line ++ [c] := by
            rw [List.mem_append, List.mem_singleton, not_or]
            exact ⟨hline, fun heq => hc heq.symm⟩
          have hmotive := ih (line ++ [c]) hlonger
          rw [List.append_assoc] at hmotive
          exact hmotive
  exact hfrom source [] List.not_mem_nil

/-- The index at which a line starts, lines being counted from zero: the lengths of the lines before
it, each with its newline. -/
def lineStart (source : List Char) (k : Nat) : Nat :=
  (((source.splitOn '\n').take k).map fun line => line.length + 1).sum

@[simp] theorem lineStart_zero (source : List Char) : lineStart source 0 = 0 := by
  rw [lineStart, List.take_zero, List.map_nil, List.sum_nil]

theorem lineStart_append {line : List Char} (h : '\n' ∉ line) (rest : List Char) (k : Nat) :
    lineStart (line ++ '\n' :: rest) (k + 1) = line.length + 1 + lineStart rest k := by
  rw [lineStart, List.splitOn_append_cons_self_of_not_mem h, List.take_succ_cons, List.map_cons,
    List.sum_cons, lineStart]

/-! ## Counting -/

namespace LineColumn

/-- A text without a newline stays on the line. -/
theorem foldl_next_of_notMem {line : List Char} (h : '\n' ∉ line) : ∀ p : LineColumn,
    line.foldl next p = ⟨p.line, p.column + line.length⟩ := by
  induction line with
  | nil => exact fun _ => rfl
  | cons c line ih =>
      intro p
      rw [List.mem_cons, not_or] at h
      rw [List.foldl_cons, next, if_neg fun heq => h.1 heq.symm, ih h.2, List.length_cons,
        Nat.add_assoc, Nat.add_comm 1]

/-- Counting does not depend on how many lines lie before. -/
theorem foldl_next_add_line (source : List Char) : ∀ (p : LineColumn) (n : Nat),
    source.foldl next ⟨p.line + n, p.column⟩ =
      ⟨(source.foldl next p).line + n, (source.foldl next p).column⟩ := by
  induction source with
  | nil => exact fun _ _ => rfl
  | cons c rest ih =>
      intro p n
      have hnext : next ⟨p.line + n, p.column⟩ c = ⟨(next p c).line + n, (next p c).column⟩ := by
        simp only [next]
        split
        next => rw [Nat.add_right_comm]
        next => rfl
      rw [List.foldl_cons, List.foldl_cons, hnext, ih]

/-- The order of positions: by line, and on one line by column. -/
def Before (a b : LineColumn) : Prop := a.line < b.line ∨ a.line = b.line ∧ a.column < b.column

theorem Before.irrefl (a : LineColumn) : ¬ a.Before a := by
  rintro (h | h)
  · exact Nat.lt_irrefl _ h
  · exact Nat.lt_irrefl _ h.2

end LineColumn

theorem lineColumn_of_notMem {line : List Char} (h : '\n' ∉ line) (index : Nat) :
    lineColumn line index = ⟨1, min index line.length + 1⟩ := by
  have htake : '\n' ∉ line.take index := fun hmem => h (List.mem_of_mem_take hmem)
  rw [lineColumn, LineColumn.foldl_next_of_notMem htake, List.length_take]
  simp only [LineColumn.start, Nat.add_comm 1]

/-- Up to its newline an index is on the first line. -/
theorem lineColumn_append_of_le {line : List Char} (h : '\n' ∉ line) (rest : List Char)
    {index : Nat} (hindex : index ≤ line.length) :
    lineColumn (line ++ '\n' :: rest) index = ⟨1, index + 1⟩ := by
  have htake : (line ++ '\n' :: rest).take index = line.take index :=
    List.take_append_of_le_length hindex
  rw [lineColumn, htake]
  have hline := lineColumn_of_notMem h index
  rw [lineColumn, Nat.min_eq_left hindex] at hline
  exact hline

/-- Past its newline an index is where it is in the rest, one line further down. -/
theorem lineColumn_append {line : List Char} (h : '\n' ∉ line) (rest : List Char) (index : Nat) :
    lineColumn (line ++ '\n' :: rest) (line.length + 1 + index) =
      ⟨(lineColumn rest index).line + 1, (lineColumn rest index).column⟩ := by
  have htake : (line ++ '\n' :: rest).take (line.length + 1 + index) =
      line ++ '\n' :: rest.take index := by
    rw [Nat.add_assoc, List.take_length_add_append, Nat.add_comm 1, List.take_succ_cons]
  have hnewline : LineColumn.next (line.foldl LineColumn.next .start) '\n' = ⟨1 + 1, 1⟩ := by
    rw [LineColumn.foldl_next_of_notMem h]
    rfl
  rw [lineColumn, htake, List.foldl_append, List.foldl_cons, hnewline]
  exact LineColumn.foldl_next_add_line (rest.take index) .start 1

/-- Where an index lies: on a line, no further from its start than the line is long, and as far from
the start of the text as the index says, unless that is past the end. -/
theorem lineColumn_eq (source : List Char) : ∀ index : Nat,
    ∃ k d line, lineColumn source index = ⟨k + 1, d + 1⟩ ∧ (source.splitOn '\n')[k]? = some line ∧
      d ≤ line.length ∧ lineStart source k + d = min index source.length := by
  induction source using lines_induction with
  | last line hline =>
      intro index
      refine ⟨0, min index line.length, line, lineColumn_of_notMem hline index, ?_, ?_, ?_⟩
      · rw [List.splitOn_eq_singleton hline]
        rfl
      · exact Nat.min_le_right _ _
      · rw [lineStart_zero, Nat.zero_add]
  | more line rest hline ih =>
      intro index
      rw [List.splitOn_append_cons_self_of_not_mem hline]
      by_cases hindex : index ≤ line.length
      · refine ⟨0, index, line, lineColumn_append_of_le hline rest hindex, rfl, hindex, ?_⟩
        rw [lineStart_zero, List.length_append]
        omega
      · -- the index is past the newline, so many characters into the rest
        obtain ⟨i, rfl⟩ := Nat.exists_eq_add_of_lt (Nat.lt_of_not_le hindex)
        rw [Nat.add_right_comm]
        obtain ⟨k, d, text, heq, htext, hd, hstart⟩ := ih i
        refine ⟨k + 1, d, text, ?_, htext, hd, ?_⟩
        · rw [lineColumn_append hline, heq]
        · rw [lineStart_append hline, List.length_append, List.length_cons]
          omega

/-! ## Order -/

theorem lineStart_succ {source line : List Char} {k : Nat}
    (h : (source.splitOn '\n')[k]? = some line) :
    lineStart source (k + 1) = lineStart source k + (line.length + 1) := by
  rw [lineStart, List.take_add_one, h, Option.toList_some, List.map_append, List.sum_append,
    List.map_singleton, List.sum_singleton, lineStart]

theorem lineStart_le {source : List Char} {k k' : Nat} (h : k ≤ k') :
    lineStart source k ≤ lineStart source k' := by
  induction h with
  | refl => exact Nat.le_refl _
  | @step k' _ ih =>
      cases hline : (source.splitOn '\n')[k']? with
      | some line =>
          rw [lineStart_succ hline]
          omega
      | none =>
          have hsame : lineStart source (k' + 1) = lineStart source k' := by
            rw [lineStart, List.take_add_one, hline, Option.toList_none, List.append_nil, lineStart]
          rw [hsame]
          exact ih

/-- Up to the end of the text a later index has a later position. -/
theorem before_of_lt {source : List Char} {i j : Nat} (hij : i < j) (hj : j ≤ source.length) :
    (lineColumn source i).Before (lineColumn source j) := by
  obtain ⟨k, d, line, heq, -, -, hstart⟩ := lineColumn_eq source i
  obtain ⟨k', d', line', heq', hline', hd', hstart'⟩ := lineColumn_eq source j
  rw [heq, heq']
  have hk : k ≤ k' := by
    -- a line further down starts after the end of the line of `j`
    by_contra hlt
    have hnext := lineStart_succ hline'
    have hle : lineStart source (k' + 1) ≤ lineStart source k := lineStart_le (by omega)
    omega
  rcases Nat.lt_or_eq_of_le hk with hlt | rfl
  · exact Or.inl (Nat.succ_lt_succ hlt)
  · refine Or.inr ⟨rfl, ?_⟩
    show d + 1 < d' + 1
    omega

/-- Lines and columns are counted from one. With the text cut at its newlines, the lines before the
line of an index, each with its newline, and the characters before its column are together as many
as the index says, or as the text has if the index is past its end; and the column is on the line or
just after it. So up to the end of the text later indices have later positions, and no two indices
have the same. -/
theorem lineColumn_inverse (source : List Char) :
    (∀ index, 1 ≤ (lineColumn source index).line ∧ 1 ≤ (lineColumn source index).column ∧
      lineStart source ((lineColumn source index).line - 1) +
          ((lineColumn source index).column - 1) = min index source.length ∧
      ∃ line, (source.splitOn '\n')[(lineColumn source index).line - 1]? = some line ∧
        (lineColumn source index).column - 1 ≤ line.length) ∧
    (∀ i j, i < j → j ≤ source.length → (lineColumn source i).Before (lineColumn source j)) ∧
    ∀ i j, i ≤ source.length → j ≤ source.length → lineColumn source i = lineColumn source j →
      i = j := by
  refine ⟨?_, fun i j => before_of_lt, ?_⟩
  · intro index
    obtain ⟨k, d, line, heq, hline, hd, hstart⟩ := lineColumn_eq source index
    rw [heq]
    exact ⟨Nat.le_add_left 1 k, Nat.le_add_left 1 d, hstart, line, hline, hd⟩
  · intro i j hi hj heq
    rcases Nat.lt_trichotomy i j with hlt | rfl | hlt
    · have hbefore := before_of_lt hlt hj
      rw [heq] at hbefore
      exact absurd hbefore (LineColumn.Before.irrefl _)
    · rfl
    · have hbefore := before_of_lt hlt hi
      rw [heq] at hbefore
      exact absurd hbefore (LineColumn.Before.irrefl _)

/-- A line of two characters, an empty line, and a line after whose newline the text ends. -/
def gapped : List Char := "é+\n\n[\n".toList

/-- The first newline is on the line that it ends, and past the end of the text the position is that
of the empty line at its end. The start of the second line is the position of one index only. -/
theorem lineColumn_inverse_gapped :
    lineColumn gapped 2 = ⟨1, 3⟩ ∧ lineColumn gapped 3 = ⟨2, 1⟩ ∧ lineColumn gapped 9 = ⟨4, 1⟩ ∧
      lineStart gapped (4 - 1) + (1 - 1) = min 9 gapped.length ∧
      LineColumn.Before ⟨1, 3⟩ ⟨2, 1⟩ ∧
      ∀ j ≤ gapped.length, lineColumn gapped j = ⟨2, 1⟩ → j = 3 := by
  obtain ⟨hindex, hbefore, hinjective⟩ := lineColumn_inverse gapped
  refine ⟨rfl, rfl, rfl, (hindex 9).2.2.1, hbefore 2 3 (by decide) (by decide), ?_⟩
  exact fun j hj heq => hinjective j 3 hj (by decide) heq

end TapeLang.Source
