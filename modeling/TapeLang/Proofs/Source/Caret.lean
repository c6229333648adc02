import TapeLang.Proofs.Source.Brackets
import TapeLang.Proofs.Source.Positions
import TapeLang.Proofs.Texts
import TapeLang.Source.Excerpt

/-!
# The caret stands under the bracket

An error is shown on five lines, of which the fourth quotes a line of the source and the fifth has a
caret (`caret_under_bracket`). The caret stands as far from the start of the quoted line as the
column says, but not further than just after the line; under a bracket without a partner it stands
under that bracket.

Two notions of a line have to agree. The line of an index is found by counting newlines, and the
line that is quoted by cutting the text into lines, where a carriage return before a newline is cut
away with it and an empty line at the end of the text is none. `line_eq_sourceLine` says that the
line that is quoted is the one that has been counted, without its end.
-/

set_option autoImplicit false

namespace TapeLang.Source

open TapeLang.Text

/-! ## The line that is quoted -/

/-- A line without the carriage return at its end. -/
def withoutReturn (line : List Char) : List Char :=
  if line.getLast? = some '\r' then line.dropLast else line

/-- The line with a number, of the lines between the newlines of a text. The carriage return before
a newline belongs to the end of the line, as the newline does. -/
def sourceLine (source : List Char) (number : Nat) : List Char :=
  let lines := source.splitOn '\n'
  let line := (lines[number - 1]?).getD []
  if number < lines.length then withoutReturn line else line

theorem reverse_dropReturn (line : List Char) :
    (dropReturn line.reverse).reverse = withoutReturn line := by
  rcases List.eq_nil_or_concat' line with rfl | ⟨start, c, rfl⟩
  · rfl
  · rw [withoutReturn, List.getLast?_concat, List.dropLast_concat, List.reverse_concat]
    by_cases hc : c = '\r'
    · rw [if_pos (congrArg some hc), hc, dropReturn, List.reverse_reverse]
    · rw [if_neg fun heq => hc (Option.some.inj heq), dropReturn]
      · rw [List.reverse_cons, List.reverse_reverse]
      · exact fun rest heq => hc (List.cons.inj heq).1

theorem mem_of_mem_withoutReturn {c : Char} {line : List Char} (h : c ∈ withoutReturn line) :
    c ∈ line := by
  rw [withoutReturn] at h
  split at h
  next => exact List.mem_of_mem_dropLast h
  next => exact h

theorem linesFrom_append {line : List Char} (h : '\n' ∉ line) : ∀ current rest : List Char,
    linesFrom current (line ++ rest) = linesFrom (line.reverse ++ current) rest := by
  induction line with
  | nil => exact fun _ _ => rfl
  | cons c line ih =>
      intro current rest
      rw [List.mem_cons, not_or] at h
      rw [List.cons_append, linesFrom, if_neg fun heq => h.1 heq.symm, ih h.2, List.reverse_cons,
        List.append_assoc, List.singleton_append]

theorem lines_of_notMem {line : List Char} (h : '\n' ∉ line) :
    lines line = if line.isEmpty then [] else [line] := by
  have happend := linesFrom_append h [] []
  rw [List.append_nil, List.append_nil] at happend
  rw [lines, happend, linesFrom, List.isEmpty_reverse, List.reverse_reverse]

theorem lines_append {line : List Char} (h : '\n' ∉ line) (rest : List Char) :
    lines (line ++ '\n' :: rest) = withoutReturn line :: lines rest := by
  rw [lines, linesFrom_append h, linesFrom, if_pos rfl, List.append_nil, reverse_dropReturn, lines]

/-- The line that is quoted is the line that is counted. -/
theorem line_eq_sourceLine (source : List Char) : ∀ k : Nat,
    line source (k + 1) = sourceLine source (k + 1) := by
  simp only [line, sourceLine, Nat.add_sub_cancel]
  induction source using lines_induction with
  | last line hline =>
      intro k
      have hone : ¬ k + 1 < 1 := by omega
      rw [lines_of_notMem hline, List.splitOn_eq_singleton hline, List.length_singleton,
        if_neg hone]
      cases line with
      | nil => cases k <;> rfl
      | cons c line => rfl
  | more line rest hline ih =>
      intro k
      rw [lines_append hline, List.splitOn_append_cons_self_of_not_mem hline, List.length_cons]
      cases k with
      | zero =>
          -- something follows the newline, if only an empty line
          have hrest := List.length_pos_of_ne_nil (List.splitOn_ne_nil '\n' rest)
          rw [if_pos (by omega)]
          rfl
      | succ k =>
          rw [List.getElem?_cons_succ, List.getElem?_cons_succ, ih k]
          simp only [Nat.add_lt_add_iff_right]

theorem newline_notMem_of_mem_lines (source : List Char) : ∀ line ∈ lines source, '\n' ∉ line := by
  induction source using lines_induction with
  | last line hline =>
      rw [lines_of_notMem hline]
      split
      next => exact fun _ hmem => absurd hmem List.not_mem_nil
      next =>
        intro line' hmem
        rw [List.mem_singleton.1 hmem]
        exact hline
  | more line rest hline ih =>
      rw [lines_append hline]
      intro line' hmem
      rcases List.mem_cons.1 hmem with rfl | hmem
      · exact fun hnewline => hline (mem_of_mem_withoutReturn hnewline)
      · exact ih line' hmem

theorem newline_notMem_line (source : List Char) (number : Nat) : '\n' ∉ line source number := by
  rw [line]
  cases hline : (lines source)[number - 1]? with
  | none => exact List.not_mem_nil
  | some line => exact newline_notMem_of_mem_lines source line (List.mem_of_getElem? hline)

/-! ## The character at a column -/

/-- A character other than a newline is found on its line. -/
theorem getElem?_of_lineStart {c : Char} (hc : c ≠ '\n') (source : List Char) :
    ∀ {k d : Nat} {text : List Char}, (source.splitOn '\n')[k]? = some text → d ≤ text.length →
      source[lineStart source k + d]? = some c → text[d]? = some c := by
  induction source using lines_induction with
  | last line hline =>
      intro k d text htext hd hchar
      rw [List.splitOn_eq_singleton hline] at htext
      cases k with
      | zero =>
          cases htext
          rw [lineStart_zero, Nat.zero_add] at hchar
          exact hchar
      | succ k => cases htext
  | more line rest hline ih =>
      intro k d text htext hd hchar
      rw [List.splitOn_append_cons_self_of_not_mem hline] at htext
      cases k with
      | zero =>
          cases htext
          rw [lineStart_zero, Nat.zero_add] at hchar
          rcases Nat.lt_or_eq_of_le hd with hlt | rfl
          · rw [List.getElem?_append_left hlt] at hchar
            exact hchar
          · -- after the line comes its newline
            rw [List.getElem?_append_right (Nat.le_refl _), Nat.sub_self] at hchar
            exact absurd (Option.some.inj hchar).symm hc
      | succ k =>
          apply ih htext hd
          rw [lineStart_append hline, Nat.add_assoc, Nat.add_assoc,
            List.getElem?_append_right (Nat.le_add_right _ _), Nat.add_sub_cancel_left,
            Nat.add_comm 1, List.getElem?_cons_succ] at hchar
          exact hchar

theorem getElem?_withoutReturn {c : Char} (hc : c ≠ '\r') {text : List Char} {d : Nat}
    (h : text[d]? = some c) : (withoutReturn text)[d]? = some c := by
  rw [withoutReturn]
  split
  next hreturn =>
    rcases List.eq_nil_or_concat' text with rfl | ⟨start, last, rfl⟩
    · cases hreturn
    · rw [List.getLast?_concat] at hreturn
      rw [List.dropLast_concat]
      by_cases hd : d < start.length
      · rw [List.getElem?_append_left hd] at h
        exact h
      · -- only the carriage return is gone
        have hlast := List.mem_of_getElem? (List.getElem?_append_right (Nat.le_of_not_lt hd) ▸ h)
        rw [List.mem_singleton.1 hlast] at hc
        exact absurd (Option.some.inj hreturn) hc
  next => exact h

/-- At the column of an index the line that is quoted has the character at the index. -/
theorem getElem?_sourceLine {source : List Char} {index : Nat} {c : Char} (hnewline : c ≠ '\n')
    (hreturn : c ≠ '\r') (h : source[index]? = some c) :
    (sourceLine source (lineColumn source index).line)[(lineColumn source index).column - 1]? =
      some c := by
  obtain ⟨k, d, text, heq, htext, hd, hstart⟩ := lineColumn_eq source index
  obtain ⟨hindex, -⟩ := List.getElem?_eq_some_iff.1 h
  -- the index is that of a character, so it is counted in full
  rw [Nat.min_eq_left (Nat.le_of_lt hindex)] at hstart
  rw [← hstart] at h
  have hchar : text[d]? = some c := getElem?_of_lineStart hnewline source htext hd h
  rw [heq, sourceLine]
  simp only [Nat.add_sub_cancel, htext, Option.getD_some]
  split
  next => exact getElem?_withoutReturn hreturn hchar
  next => exact hchar

/-! ## The text that is shown -/

theorem chars_false (palette : Palette) (s : Span) : s.chars palette false = s.text := by
  rw [Span.chars]
  split <;> rfl

theorem text_quotedSpan (marked : Bool) (c : Char) :
    (quotedSpan marked c).text = [quotedChar c] := by
  rw [quotedSpan]
  split
  next => rfl
  next => split <;> rfl

theorem paint_quotedSpans (palette : Palette) (text : List Char) (column : Nat) :
    paint palette false (quotedSpans text column) = text.map quotedChar := by
  rw [paint, quotedSpans, List.flatMap_map]
  simp only [chars_false, text_quotedSpan]
  rw [← List.map_eq_flatMap, ← Function.comp_def quotedChar Prod.fst, ← List.map_map,
    List.zipIdx_map_fst]

theorem countP_zipIdx_lt (text : List Char) (column : Nat) : ∀ start : Nat,
    (text.zipIdx start).countP (fun e => e.2 + 1 < column) =
      min (column - 1 - start) text.length := by
  induction text with
  | nil =>
      intro start
      rw [List.zipIdx_nil, List.countP_nil, List.length_nil, Nat.min_zero]
  | cons c text ih =>
      intro start
      rw [List.zipIdx_cons, List.countP_cons, ih (start + 1), List.length_cons]
      -- from the column on no character counts any more
      by_cases hbefore : start + 1 < column
      · rw [if_pos (decide_eq_true hbefore)]
        omega
      · rw [if_neg (by rw [decide_eq_true_iff]; exact hbefore)]
        omega

/-- The characters that are counted are those before the column, as far as the line goes. -/
theorem caretColumn_eq (text : List Char) (column : Nat) :
    caretColumn text column = min (column - 1) text.length :=
  countP_zipIdx_lt text column 0

/-- What stands before a quoted line: its number and a bar. -/
def label (number : Nat) : List Char := (toString number).toList ++ " | ".toList

/-- The blanks that are as wide as the number of a line. -/
def gutter (number : Nat) : List Char := List.replicate (toString number).length ' '

/-- The line of the caret, the caret being so far from the start of the quoted line. -/
def caretLine (number distance : Nat) : List Char :=
  gutter number ++ " | ".toList ++ List.replicate distance ' ' ++ "^ here".toList

/-- The first two lines: what is wrong, and where. -/
def heading (name : Option String) (position : LineColumn) (e : BracketError) : List (List Char) :=
  ["error: ".toList ++ e.message.toList,
    gutter position.line ++ "--> ".toList ++ (name.getD "<source>").toList ++ ":".toList ++
      (toString position.line).toList ++ ":".toList ++ (toString position.column).toList]

/-- The other three lines: a bar, the quoted line, and the caret. -/
def quotation (text : List Char) (position : LineColumn) : List (List Char) :=
  [gutter position.line ++ " |".toList, label position.line ++ text.map quotedChar,
    caretLine position.line (min (position.column - 1) text.length)]

/-- The text that is shown, line by line. -/
theorem toList_renderError (source : String) (name : Option String) (e : BracketError) :
    (renderError false source name e).toList = ['\n'].intercalate
      (heading name (lineColumn source.toList e.index) e ++
        quotation (line source.toList (lineColumn source.toList e.index).line)
          (lineColumn source.toList e.index) ++ [[]]) := by
  have happend : ∀ a b : List Span,
      paint .standard false (a ++ b) = paint .standard false a ++ paint .standard false b :=
    fun a b => List.flatMap_append
  rw [renderError, renderErrorIn, String.toList_ofList, excerpt]
  simp only [happend, paint_quotedSpans, caretColumn_eq]
  -- what is left are concrete texts around the parts that depend on the error
  simp only [paint, List.flatMap_cons, List.flatMap_nil, chars_false, Span.plain, Span.styled,
    String.toList_append, toList_pushn, heading, quotation, List.cons_append, List.nil_append,
    List.intercalate_cons_cons, List.intercalate_singleton]
  simp [gutter, label, caretLine, List.replicate_succ]

theorem length_label (number : Nat) : (label number).length = (gutter number).length + 3 := by
  rw [label, List.length_append, gutter, List.length_replicate, String.length_toList]
  rfl

/-- The first caret of the line is the one that points. -/
theorem idxOf_caretLine (number distance : Nat) :
    (caretLine number distance).idxOf '^' = (label number).length + distance := by
  have hbefore : '^' ∉ gutter number ++ " | ".toList ++ List.replicate distance ' ' := by
    simp [gutter]
  rw [caretLine, List.idxOf_append, if_neg hbefore, List.length_append, List.length_append,
    List.length_replicate, length_label]
  show 0 + ((gutter number).length + 3 + distance) = _
  rw [Nat.zero_add]

theorem newline_notMem_gutter (number : Nat) : '\n' ∉ gutter number := by
  rw [gutter, List.mem_replicate]
  exact fun h => absurd h.2 (by decide)

theorem newline_notMem_message (e : BracketError) : '\n' ∉ e.message.toList := by
  rw [BracketError.message]
  cases e.bracket <;> decide

theorem newline_notMem_heading {name : Option String} (hname : ∀ n ∈ name, '\n' ∉ n.toList)
    (position : LineColumn) (e : BracketError) :
    ∀ line ∈ heading name position e, '\n' ∉ line := by
  have hsource : '\n' ∉ (name.getD "<source>").toList := by
    cases name with
    | none => decide
    | some n => exact hname n rfl
  have hnumber : ∀ n : Nat, '\n' ∉ (toString n).toList := notMem_toString rfl
  simp only [heading, List.forall_mem_cons, List.mem_append, not_or]
  refine ⟨⟨by decide, newline_notMem_message e⟩, ?_, fun _ hmem => absurd hmem List.not_mem_nil⟩
  exact ⟨⟨⟨⟨⟨⟨newline_notMem_gutter _, by decide⟩, hsource⟩, by decide⟩, hnumber _⟩, by decide⟩,
    hnumber _⟩

theorem newline_notMem_quoted {text : List Char} (h : '\n' ∉ text) :
    '\n' ∉ text.map quotedChar := by
  intro hmem
  obtain ⟨c, hc, heq⟩ := List.mem_map.1 hmem
  rw [quotedChar] at heq
  split at heq
  next => cases heq
  next =>
    rw [heq] at hc
    exact h hc

theorem newline_notMem_quotation {text : List Char} (h : '\n' ∉ text) (position : LineColumn) :
    ∀ line ∈ quotation text position, '\n' ∉ line := by
  have hblanks : ∀ n : Nat, '\n' ∉ List.replicate n ' ' :=
    fun n hmem => absurd (List.eq_of_mem_replicate hmem) (by decide)
  simp only [quotation, label, caretLine, List.forall_mem_cons, List.mem_append, not_or]
  refine ⟨⟨newline_notMem_gutter _, by decide⟩, ⟨⟨notMem_toString rfl _, by decide⟩, ?_⟩,
    ⟨⟨⟨newline_notMem_gutter _, by decide⟩, hblanks _⟩, by decide⟩,
    fun _ hmem => absurd hmem List.not_mem_nil⟩
  exact newline_notMem_quoted h

/-- Five lines are shown, and each of them ends with a newline. -/
theorem splitOn_renderError (source : String) {name : Option String}
    (hname : ∀ n ∈ name, '\n' ∉ n.toList) (e : BracketError) :
    (renderError false source name e).toList.splitOn '\n' =
      heading name (lineColumn source.toList e.index) e ++
        quotation (line source.toList (lineColumn source.toList e.index).line)
          (lineColumn source.toList e.index) ++ [[]] := by
  rw [toList_renderError]
  apply List.splitOn_intercalate
  · simp only [List.forall_mem_append]
    refine ⟨⟨newline_notMem_heading hname _ e, newline_notMem_quotation ?_ _⟩, ?_⟩
    · exact newline_notMem_line source.toList _
    · exact fun line hmem => List.mem_singleton.1 hmem ▸ List.not_mem_nil
  · exact List.append_ne_nil_of_right_ne_nil _ (List.cons_ne_nil _ _)

theorem quotedChar_bracket (b : Bracket) : quotedChar b.char = b.char := by
  cases b <;> rfl

/-- An error is shown on five lines, each with a newline at its end, if the name of the source has
none. The fourth quotes the line of the source on which the index of the error lies, without its end
and with blanks in place of tabs, behind the number of the line. The caret of the fifth stands as
far from the start of the quoted line as the column says, at most just after the line. If the error
is one that reading the source reports, the caret stands under the bracket. -/
theorem caret_under_bracket (source : String) (name : Option String)
    (hname : ∀ n ∈ name, '\n' ∉ n.toList) (e : BracketError) :
    ∃ headline location bar quoted caret : List Char,
      (renderError false source name e).toList.splitOn '\n' =
        [headline, location, bar, quoted, caret, []] ∧
      quoted = label (lineColumn source.toList e.index).line ++
        (sourceLine source.toList (lineColumn source.toList e.index).line).map
          (fun c => if c = '\t' then ' ' else c) ∧
      '^' ∈ caret ∧
      caret.idxOf '^' = (label (lineColumn source.toList e.index).line).length +
        min ((lineColumn source.toList e.index).column - 1)
          (sourceLine source.toList (lineColumn source.toList e.index).line).length ∧
      ∀ errors, parse source = .error errors → e ∈ errors →
        quoted[caret.idxOf '^']? = some e.bracket.char := by
  obtain ⟨k, d, -, heq, -⟩ := lineColumn_eq source.toList e.index
  have hline := line_eq_sourceLine source.toList k
  have hsplit := splitOn_renderError source hname e
  rw [heq] at hsplit ⊢
  rw [hline] at hsplit
  refine ⟨_, _, _, _, _, hsplit, rfl, ?_, idxOf_caretLine _ _, ?_⟩
  · exact List.mem_append_right _ List.mem_cons_self
  · intro errors hparse hmem
    have hchar : source.toList[e.index]? = some e.bracket.char :=
      getElem?_index_errors (errors_of_parseChars_eq_error _ _ hparse) e hmem
    have hbracket : e.bracket.char ≠ '\n' ∧ e.bracket.char ≠ '\r' := by
      cases e.bracket <;> decide
    have hquoted := getElem?_sourceLine hbracket.1 hbracket.2 hchar
    rw [heq] at hquoted
    -- the bracket is on the quoted line, so the caret stands at its column
    obtain ⟨hlt, -⟩ := List.getElem?_eq_some_iff.1 hquoted
    rw [idxOf_caretLine, Nat.min_eq_left (Nat.le_of_lt hlt),
      List.getElem?_append_right (Nat.le_add_right _ _), Nat.add_sub_cancel_left, List.getElem?_map,
      hquoted, Option.map_some, quotedChar_bracket]

/-- A closing bracket behind a tab, on the second of two lines that end with a carriage return and a
newline, among comments. -/
def indented : String := "ä\r\n\t+]é\r\n"

/-- The bracket is shown behind a blank in place of the tab, and the caret stands under it. The
index after the newline at the end is on the empty third line, where the caret stands at its
start. -/
theorem caret_under_bracket_indented :
    parse indented = .error [⟨.closing, 5⟩] ∧
      renderError false indented (some "a.bf") ⟨.closing, 5⟩ =
        "error: this ] has no matching [\n --> a.bf:2:3\n  |\n2 |  +]é\n  |   ^ here\n" ∧
      (∃ headline location bar quoted caret : List Char,
        (renderError false indented (some "a.bf") ⟨.closing, 5⟩).toList.splitOn '\n' =
          [headline, location, bar, quoted, caret, []] ∧
        quoted = "2 |  +]é".toList ∧ quoted[caret.idxOf '^']? = some ']') ∧
      ∃ headline location bar quoted caret : List Char,
        (renderError false indented none ⟨.opening, 20⟩).toList.splitOn '\n' =
          [headline, location, bar, quoted, caret, []] ∧
        quoted = "3 | ".toList ∧ caret.idxOf '^' = 4 + min (1 - 1) 0 := by
  have hparse : parse indented = .error [⟨.closing, 5⟩] := rfl
  refine ⟨hparse, by decide +kernel, ?_, ?_⟩
  · obtain ⟨headline, location, bar, quoted, caret, hlines, hquoted, -, -, hbracket⟩ :=
      caret_under_bracket indented (some "a.bf") (by decide) ⟨.closing, 5⟩
    refine ⟨headline, location, bar, quoted, caret, hlines, ?_, ?_⟩
    · rw [hquoted]
      decide +kernel
    · exact hbracket _ hparse List.mem_cons_self
  · obtain ⟨headline, location, bar, quoted, caret, hlines, hquoted, -, hcaret, -⟩ :=
      caret_under_bracket indented none (by decide) ⟨.opening, 20⟩
    refine ⟨headline, location, bar, quoted, caret, hlines, ?_, ?_⟩
    · rw [hquoted]
      decide +kernel
    · rw [hcaret]
      decide +kernel

end TapeLang.Source
