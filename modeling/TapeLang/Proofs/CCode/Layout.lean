import Mathlib.Data.List.Basic
import TapeLang.CCode.Generate
import TapeLang.Proofs.Texts

/-!
# Generated code is properly nested

From the start of its main function on, generated code closes no block that is not open and leaves
none open, and each of its lines has one tab for every block around it (`main_properly_nested`).

The code can be written line by line by a writer that knows no more of blocks than how many tabs the
next line gets (`Writer`). A block raises this number behind its first line and lowers it before its
last one. The number agrees with the braces that have been written, at any time (`Writer.Sound`):
each of the three calls of the writer keeps this, so the code of a block keeps it, whatever blocks
it has inside. The writer writes the same lines as the function that is told how deep it is, and the
number is in the end what it was before (`write_eq`).
-/

set_option autoImplicit false

namespace TapeLang.CCode

open TapeLang.Text

/-! ## Blocks and lines of a text -/

def openBrace : Char := '\x7b'

def closeBrace : Char := '\x7d'

/-- The number of blocks that are open after a text: its opening braces less its closing ones. -/
def openBlocks (text : List Char) : Int := text.count openBrace - text.count closeBrace

/-- The number of tabs at the start of a line. -/
def tabs (line : List Char) : Nat := (line.takeWhile (· = '\t')).length

/-- Behind its tabs a line starts with a closing brace. -/
def closesBlock (line : List Char) : Bool := (line.dropWhile (· = '\t')).head? = some closeBrace

/-- The number of blocks around a line, `before` being the lines before it. A line that closes a
block stands outside that block. -/
def blocksAround (before : List (List Char)) (line : List Char) : Int :=
  if closesBlock line then openBlocks before.flatten - 1 else openBlocks before.flatten

/-- Each line has one tab for every block around it. -/
def Indented (lines : List (List Char)) : Prop :=
  ∀ before line after, lines = before ++ line :: after →
    (tabs line : Int) = blocksAround before line

/-- No block is closed that is not open, every block is closed in the end, and each line is indented
by one tab for every block around it. -/
structure Nested (text : List Char) : Prop where
  closed_le : ∀ seen, seen <+: text → seen.count closeBrace ≤ seen.count openBrace
  balanced : text.count openBrace = text.count closeBrace
  lines_indented : Indented (text.splitOn '\n')

theorem openBlocks_append (a b : List Char) :
    openBlocks (a ++ b) = openBlocks a + openBlocks b := by
  simp only [openBlocks, List.count_append]
  omega

/-- One more line concerns no line before it. -/
theorem Indented.concat {lines : List (List Char)} {last : List Char} (h : Indented lines)
    (hlast : (tabs last : Int) = blocksAround lines last) : Indented (lines ++ [last]) := by
  intro before line after heq
  rcases List.eq_nil_or_concat' after with rfl | ⟨after, c, rfl⟩
  · obtain ⟨rfl, hline⟩ := List.append_inj' heq rfl
    obtain ⟨rfl, -⟩ := List.cons.inj hline
    exact hlast
  · rw [← List.cons_append, ← List.append_assoc] at heq
    exact h before line after (List.append_inj' heq rfl).1

/-- The characters that matter for the layout of a text. -/
def marks : List Char := ['\n', '\t', openBrace, closeBrace]

/-- A text without a newline, a tab and a brace. -/
def Plain (text : String) : Prop := ∀ c ∈ marks, c ∉ text.toList

instance (text : String) : Decidable (Plain text) :=
  List.decidableBAll (fun c => c ∉ text.toList) marks

namespace Plain

variable {text text' : String}

theorem append (h : Plain text) (h' : Plain text') : Plain (text ++ text') := by
  intro c hc
  rw [String.toList_append, List.mem_append, not_or]
  exact ⟨h c hc, h' c hc⟩

theorem number (n : Nat) : Plain (toString n) := by
  have hdigit : marks.all (fun c => !c.isDigit) = true := by decide
  intro c hc
  apply notMem_toString
  rw [← Bool.not_eq_true']
  exact List.all_eq_true.1 hdigit c hc

/-- A number between two texts. -/
theorem around (h : Plain text) (h' : Plain text') (n : Nat) :
    Plain (text ++ toString n ++ text') :=
  (h.append (number n)).append h'

theorem newline_notMem (h : Plain text) : '\n' ∉ text.toList := h '\n' (by decide)

theorem tab_notMem (h : Plain text) : '\t' ∉ text.toList := h '\t' (by decide)

theorem count_openBrace (h : Plain text) : text.toList.count openBrace = 0 :=
  List.count_eq_zero.2 (h openBrace (by decide))

theorem count_closeBrace (h : Plain text) : text.toList.count closeBrace = 0 :=
  List.count_eq_zero.2 (h closeBrace (by decide))

end Plain

theorem plain_cellText (offset : Int) : Plain (cellText offset) := by
  rw [cellText]
  split
  · decide
  · split
    · exact .around (by decide) (by decide) _
    · exact .around (by decide) (by decide) _

theorem plain_addText (amount : Int8) : Plain (addText amount) := by
  rw [addText]
  split <;> decide

theorem plain_scaledText (factor : Int8) : Plain (scaledText factor) := by
  rw [scaledText]
  split
  · decide
  · exact Plain.append (by decide) (.number _)

/-- A statement takes one line and has no block. -/
theorem plain_text (s : Stmt) : Plain s.text := by
  cases s with
  | reserve n => exact .around (by decide) (by decide) n
  | reserveAhead n => exact .around (by decide) (by decide) n
  | checkLeft n => exact .around (by decide) (by decide) n
  | moveLeft n => exact .around (by decide) (by decide) n
  | moveRight n => exact .around (by decide) (by decide) n
  | add offset amount =>
      apply Plain.append _ (by decide)
      exact ((plain_cellText offset).append (plain_addText amount)).append (.number _)
  | addScaled offset factor =>
      apply Plain.append _ (by decide)
      exact ((plain_cellText offset).append (plain_addText factor)).append (plain_scaledText factor)
  | clear => decide
  | read => decide
  | write => decide
  | release => decide
  | finish => decide

/-- The line in front of a block opens it at its end. -/
theorem plain_guard (g : Guard) : ∃ head, Plain head ∧ g.text = head ++ "\x7b" := by
  cases g with
  | loop => exact ⟨"while (tape[p]) ", by decide, by decide⟩
  | once => exact ⟨"if (tape[p]) ", by decide, by decide⟩

/-! ## A line behind its tabs -/

theorem toList_indented (depth : Nat) (content : String) :
    (indented depth content).toList = List.replicate depth '\t' ++ content.toList := by
  rw [indented, String.toList_append, toList_pushn]
  rfl

theorem count_indented {c : Char} (hc : c ≠ '\t') (depth : Nat) (content : String) :
    (indented depth content).toList.count c = content.toList.count c := by
  have hreplicate : (List.replicate depth '\t').count c = 0 :=
    List.count_eq_zero.2 fun hmem => hc (List.eq_of_mem_replicate hmem)
  rw [toList_indented, List.count_append, hreplicate, Nat.zero_add]

theorem openBlocks_indented (depth : Nat) (content : String) :
    openBlocks (indented depth content).toList = openBlocks content.toList := by
  rw [openBlocks, count_indented (by decide), count_indented (by decide), openBlocks]

section

variable {content : String} (h : '\t' ∉ content.toList) (depth : Nat)

include h

theorem takeWhile_indented :
    (indented depth content).toList.takeWhile (· = '\t') = List.replicate depth '\t' := by
  have hreplicate : ∀ c ∈ List.replicate depth '\t', decide (c = '\t') = true :=
    fun c hc => decide_eq_true (List.eq_of_mem_replicate hc)
  -- the content does not go on with tabs
  have hcontent : content.toList.takeWhile (· = '\t') = [] := by
    cases hchars : content.toList with
    | nil => rfl
    | cons c rest =>
        rw [hchars, List.mem_cons, not_or] at h
        apply List.takeWhile_cons_of_neg
        rw [decide_eq_true_iff]
        exact fun heq => h.1 heq.symm
  rw [toList_indented, List.takeWhile_append_of_pos hreplicate, hcontent, List.append_nil]

theorem tabs_indented : tabs (indented depth content).toList = depth := by
  rw [tabs, takeWhile_indented h, List.length_replicate]

theorem closesBlock_indented :
    closesBlock (indented depth content).toList =
      decide (content.toList.head? = some closeBrace) := by
  -- what does not belong to the tabs is the content
  have hsplit := List.takeWhile_append_dropWhile (p := (· = '\t'))
    (l := (indented depth content).toList)
  rw [takeWhile_indented h] at hsplit
  rw [closesBlock, List.append_cancel_left (hsplit.trans (toList_indented depth content))]

end

/-! ## The text of some lines -/

theorem toList_linesText_cons (line : String) (lines : List String) :
    (linesText (line :: lines)).toList = line.toList ++ '\n' :: (linesText lines).toList := by
  simp [linesText]

theorem toList_linesText_append (lines lines' : List String) :
    (linesText (lines ++ lines')).toList =
      (linesText lines).toList ++ (linesText lines').toList := by
  simp [linesText]

theorem splitOn_linesText {lines : List String} (h : ∀ line ∈ lines, '\n' ∉ line.toList) :
    (linesText lines).toList.splitOn '\n' = lines.map String.toList ++ [[]] := by
  induction lines with
  | nil => rfl
  | cons line lines ih =>
      rw [List.forall_mem_cons] at h
      rw [toList_linesText_cons, List.splitOn_append_cons_self_of_not_mem h.1, ih h.2]
      rfl

/-- Newlines open no block and close none. -/
theorem openBlocks_linesText (lines : List String) :
    openBlocks (linesText lines).toList = openBlocks (lines.map String.toList).flatten := by
  induction lines with
  | nil => rfl
  | cons line lines ih =>
      rw [toList_linesText_cons, ← List.singleton_append, openBlocks_append, openBlocks_append, ih,
        List.map_cons, List.flatten_cons, openBlocks_append]
      show openBlocks line.toList + (0 + _) = _
      rw [Int.zero_add]

/-! ## Writing line by line -/

/-- The lines that have been written, and the number of tabs that the next one gets. -/
structure Writer where
  lines : List String
  indent : Nat
  deriving DecidableEq, Repr

namespace Writer

/-- Nothing has been written. -/
def start : Writer := ⟨[], 0⟩

/-- Writes a line. -/
def line (w : Writer) (content : String) : Writer :=
  { w with lines := w.lines ++ [indented w.indent content] }

/-- Writes the first line of a block. -/
def enter (w : Writer) (content : String) : Writer :=
  { w.line content with indent := w.indent + 1 }

/-- Writes the last line of a block, if there is a tab to take back. -/
def leave (w : Writer) : Option Writer :=
  match w.indent with
  | 0 => none
  | n + 1 => some (line { w with indent := n } "\x7d")

/-- What has been written agrees with the number of tabs: it is the number of blocks that are open,
no block has been closed that was not open, and each line has a tab for every block around it. -/
structure Sound (w : Writer) : Prop where
  newline_notMem : ∀ line ∈ w.lines, '\n' ∉ line.toList
  openBlocks_eq : openBlocks (w.lines.map String.toList).flatten = w.indent
  openBlocks_nonneg : ∀ seen, seen <+: (linesText w.lines).toList → 0 ≤ openBlocks seen
  lines_indented : Indented (w.lines.map String.toList)

namespace Sound

variable {w w' : Writer}

theorem start : Writer.start.Sound where
  newline_notMem := fun _ hmem => absurd hmem List.not_mem_nil
  openBlocks_eq := rfl
  openBlocks_nonneg := by
    intro seen hseen
    rw [List.prefix_nil.1 hseen]
    decide
  lines_indented := by
    intro before line after heq
    exact absurd heq.symm (List.append_ne_nil_of_right_ne_nil _ (List.cons_ne_nil _ _))

/-- One more line keeps the writer sound, if it closes no more blocks than are open, leaves as many
open as the new number of tabs says, and is indented as its place asks. -/
theorem push (h : w.Sound) {content : String} {depth indent : Nat}
    (hnewline : '\n' ∉ content.toList) (htab : '\t' ∉ content.toList)
    (hclosed : content.toList.count closeBrace ≤ w.indent)
    (hopen : w.indent + openBlocks content.toList = indent)
    (hdepth : (depth : Int) =
      if content.toList.head? = some closeBrace then (w.indent : Int) - 1 else w.indent) :
    Sound ⟨w.lines ++ [indented depth content], indent⟩ where
  newline_notMem := by
    have hline : '\n' ∉ (indented depth content).toList := by
      rw [← List.count_eq_zero, count_indented (by decide), List.count_eq_zero]
      exact hnewline
    rw [List.forall_mem_append]
    exact ⟨h.newline_notMem, fun line hmem => List.mem_singleton.1 hmem ▸ hline⟩
  openBlocks_eq := by
    rw [List.map_append, List.flatten_append, openBlocks_append, h.openBlocks_eq, ← hopen,
      ← openBlocks_indented depth content, List.map_singleton, List.flatten_singleton]
  openBlocks_nonneg := by
    intro seen hseen
    rw [toList_linesText_append] at hseen
    -- what has been seen ends in the lines before, or in the new one
    rcases List.prefix_or_prefix_of_prefix hseen (List.prefix_append _ _) with
      hbefore | ⟨new, rfl⟩
    · exact h.openBlocks_nonneg seen hbefore
    · have hcount : new.count closeBrace ≤ content.toList.count closeBrace := by
        rw [← count_indented (by decide) depth content]
        have hle := ((List.prefix_append_right_inj _).1 hseen).sublist.count_le closeBrace
        rw [toList_linesText_cons, List.count_append] at hle
        exact hle
      -- the blocks that the new line closes were open before it
      rw [openBlocks_append, openBlocks_linesText, h.openBlocks_eq, openBlocks]
      omega
  lines_indented := by
    rw [List.map_append]
    apply h.lines_indented.concat
    rw [blocksAround, h.openBlocks_eq, tabs_indented htab, closesBlock_indented htab, hdepth]
    simp only [decide_eq_true_eq]

/-- A line without braces. -/
theorem line (h : w.Sound) {content : String} (hplain : Plain content) :
    (w.line content).Sound := by
  have hhead : content.toList.head? ≠ some closeBrace := fun hhead =>
    hplain closeBrace (by decide) (List.mem_of_mem_head? hhead)
  apply h.push hplain.newline_notMem hplain.tab_notMem
  · rw [hplain.count_closeBrace]
    exact Nat.zero_le _
  · rw [openBlocks, hplain.count_openBrace, hplain.count_closeBrace]
    show (w.indent : Int) + 0 = w.indent
    rw [Int.add_zero]
  · rw [if_neg hhead]

/-- A line that opens a block at its end. -/
theorem enter (h : w.Sound) {head : String} (hplain : Plain head) :
    (w.enter (head ++ "\x7b")).Sound := by
  -- the brace at the end is the only mark of the line
  have hnotMem : ∀ c ∈ marks, c ≠ openBrace → c ∉ (head ++ "\x7b").toList := by
    intro c hc hne
    rw [String.toList_append, List.mem_append, not_or]
    exact ⟨hplain c hc, fun hmem => hne (List.mem_singleton.1 hmem)⟩
  have hclosed : (head ++ "\x7b").toList.count closeBrace = 0 :=
    List.count_eq_zero.2 (hnotMem closeBrace (by decide) (by decide))
  have hopened : (head ++ "\x7b").toList.count openBrace = 1 := by
    rw [String.toList_append, List.count_append, hplain.count_openBrace]
    decide
  apply h.push (hnotMem '\n' (by decide) (by decide)) (hnotMem '\t' (by decide) (by decide))
  · rw [hclosed]
    exact Nat.zero_le _
  · rw [openBlocks, hclosed, hopened]
    rfl
  · rw [if_neg]
    intro hhead
    exact List.count_eq_zero.1 hclosed (List.mem_of_mem_head? hhead)

/-- The line that closes a block. -/
theorem leave (h : w.Sound) (hleave : w.leave = some w') : w'.Sound := by
  rw [Writer.leave] at hleave
  split at hleave
  next => cases hleave
  next n hn =>
    cases hleave
    -- the tab that is taken back stands for the block that the brace closes
    apply h.push (by decide) (by decide)
    · rw [hn]
      exact Nat.succ_le_succ (Nat.zero_le n)
    · rw [hn]
      show ((n : Int) + 1) + (-1) = n
      omega
    · rw [if_pos (by decide), hn]
      show (n : Int) = (n : Int) + 1 - 1
      omega

end Sound

end Writer

/-! ## Writing blocks -/

/-- Writes the lines of a sequence, if the writer never lacks a tab to take back. -/
def Block.write : Block → Writer → Option Writer
  | .done, w => some w
  | .stmt s rest, w => rest.write (w.line s.text)
  | .guarded g body rest, w => do
      let inside ← body.write (w.enter g.text)
      let after ← inside.leave
      rest.write after

/-- The writer writes the lines of a block at its own number of tabs, and has the same number of
tabs afterwards. -/
theorem Block.write_eq (b : Block) : ∀ w : Writer,
    b.write w = some { w with lines := w.lines ++ b.lines w.indent } := by
  induction b with
  | done =>
      intro w
      rw [Block.write, Block.lines, List.append_nil]
  | stmt s rest ih =>
      intro w
      rw [Block.write, ih, Block.lines, Writer.line, List.append_assoc, List.singleton_append]
  | guarded g body rest ihbody ihrest =>
      intro w
      -- the body leaves one tab more than before, which the closing line takes back
      have hleave : ∀ lines, Writer.leave ⟨lines, w.indent + 1⟩ =
          some ⟨lines ++ [indented w.indent "\x7d"], w.indent⟩ := fun _ => rfl
      rw [Block.write, ihbody, Option.bind_eq_bind, Option.bind_some, Writer.enter, hleave,
        Option.bind_some, ihrest, Block.lines, Writer.line]
      simp only [List.append_assoc, List.cons_append, List.nil_append]

/-- Writing a block keeps the writer sound: the step of a guarded block is its opening line, the
body, its closing line and the rest. -/
theorem Writer.Sound.write {b : Block} : ∀ {w w' : Writer}, w.Sound → b.write w = some w' →
    w'.Sound := by
  induction b with
  | done =>
      intro w w' h hwrite
      cases hwrite
      exact h
  | stmt s rest ih =>
      intro w w' h hwrite
      exact ih (h.line (plain_text s)) hwrite
  | guarded g body rest ihbody ihrest =>
      intro w w' h hwrite
      obtain ⟨head, hplain, htext⟩ := plain_guard g
      rw [Block.write, htext, Option.bind_eq_bind, Option.bind_eq_some_iff] at hwrite
      obtain ⟨inside, hinside, hwrite⟩ := hwrite
      rw [Option.bind_eq_some_iff] at hwrite
      obtain ⟨after, hleave, hafter⟩ := hwrite
      have hbody : inside.Sound := ihbody (h.enter hplain) hinside
      exact ihrest (hbody.leave hleave) hafter

/-- Writes the main function. -/
def writeMain (p : Program) : Option Writer := do
  let w ← (mainBlock p).write ((Writer.start.line "int main(void)").enter "\x7b")
  w.leave

theorem writeMain_eq (p : Program) : writeMain p = some ⟨mainLines p, 0⟩ := by
  have hstart : (Writer.start.line "int main(void)").enter "\x7b" =
      ⟨["int main(void)", "\x7b"], 1⟩ := by decide
  rw [writeMain, hstart, Block.write_eq]
  rfl

theorem sound_writeMain {p : Program} {w : Writer} (h : writeMain p = some w) : w.Sound := by
  rw [writeMain, Option.bind_eq_bind, Option.bind_eq_some_iff] at h
  obtain ⟨inside, hinside, hleave⟩ := h
  have hplain : Plain "int main(void)" ∧ Plain "" := by decide
  have hopening : ((Writer.start.line "int main(void)").enter "\x7b").Sound :=
    (Writer.Sound.start.line hplain.1).enter hplain.2
  exact (hopening.write hinside).leave hleave

/-- What a sound writer has written is properly nested once all tabs are taken back. -/
theorem Writer.Sound.nested {w : Writer} (h : w.Sound) (hindent : w.indent = 0) :
    Nested (linesText w.lines).toList where
  closed_le := by
    intro seen hseen
    have hnonneg := h.openBlocks_nonneg seen hseen
    rw [openBlocks] at hnonneg
    omega
  balanced := by
    have hopen := h.openBlocks_eq
    rw [← openBlocks_linesText, openBlocks, hindent] at hopen
    omega
  lines_indented := by
    rw [splitOn_linesText h.newline_notMem]
    apply h.lines_indented.concat
    -- behind the last newline stands nothing, and no block is open there
    rw [blocksAround, h.openBlocks_eq, hindent]
    rfl

/-- Generated code is properly nested. The text of a program, which is what is generated for it
wherever anything is, has the main function behind the preamble, which is the same for all programs.
From there on no block is closed that is not open, all of them are closed in the end, and every line
has one tab for each block around it, a closing brace standing outside its block. A writer that
counts tabs writes the main function, never lacks one to take back, and has none left. -/
theorem main_properly_nested (p : Program) :
    (∀ c log, generate p = .ok (c, log) → c = text p) ∧
    ∃ main, (text p).toList = (linesText (preamble ++ [""])).toList ++ main ∧
      "int main(void)\n".toList <+: main ∧ Nested main ∧
      ∃ w, writeMain p = some w ∧ (linesText w.lines).toList = main ∧ w.indent = 0 := by
  refine ⟨?_, _, ?_, ?_, ?_, _, writeMain_eq p, rfl, rfl⟩
  · intro c log hgenerate
    rw [generate] at hgenerate
    split at hgenerate
    next => exact (Prod.mk.inj (Except.ok.inj hgenerate)).1.symm
    next => cases hgenerate
  · rw [text, ← toList_linesText_append, List.append_assoc, List.singleton_append]
  · have hfirst : "int main(void)\n".toList = "int main(void)".toList ++ ['\n'] := by decide
    rw [mainLines, toList_linesText_cons, hfirst, List.prefix_append_right_inj]
    exact List.prefix_append ['\n'] _
  · exact (sound_writeMain (writeMain_eq p)).nested rfl

/-- A loop around a multiplication to both sides, one by no factor, and another loop. -/
def nesting : Program :=
  .op (.shift 2) (.loop (.op (.multiply (.ofList [(-1, 2), (3, -1)])) (.op (.multiply .empty)
    (.loop (.op (.shift 1) .done) .done))) .done)

/-- The multiplication by no factor has no block, the other one has. -/
theorem main_properly_nested_nesting :
    generate nesting = .ok (text nesting, report nesting) ∧
      ∃ main, (text nesting).toList = (linesText (preamble ++ [""])).toList ++ main ∧
        main = (linesText ["int main(void)", "\x7b", "\treserve(29999);", "\tp += 2;",
          "\treserve(p + 3);", "\twhile (tape[p]) \x7b", "\t\tif (tape[p]) \x7b",
          "\t\t\tif (p < 1) underflow();", "\t\t\ttape[p - 1] += tape[p] * 2;",
          "\t\t\ttape[p + 3] -= tape[p];", "\t\t\ttape[p] = 0;", "\t\t\x7d", "\t\ttape[p] = 0;",
          "\t\twhile (tape[p]) \x7b", "\t\t\tp += 1;", "\t\t\treserve(p + 3);", "\t\t\x7d",
          "\t\x7d", "\tfree(tape);", "\treturn 0;", "\x7d"]).toList ∧ Nested main := by
  have hgenerate : generate nesting = .ok (text nesting, report nesting) := if_pos (by decide)
  have hlines : mainLines nesting = ["int main(void)", "\x7b", "\treserve(29999);", "\tp += 2;",
      "\treserve(p + 3);", "\twhile (tape[p]) \x7b", "\t\tif (tape[p]) \x7b",
      "\t\t\tif (p < 1) underflow();", "\t\t\ttape[p - 1] += tape[p] * 2;",
      "\t\t\ttape[p + 3] -= tape[p];", "\t\t\ttape[p] = 0;", "\t\t\x7d", "\t\ttape[p] = 0;",
      "\t\twhile (tape[p]) \x7b", "\t\t\tp += 1;", "\t\t\treserve(p + 3);", "\t\t\x7d", "\t\x7d",
      "\tfree(tape);", "\treturn 0;", "\x7d"] := by decide +kernel
  obtain ⟨-, main, htext, -, hnested, w, hw, hmain, -⟩ := main_properly_nested nesting
  rw [writeMain_eq, hlines] at hw
  refine ⟨hgenerate, main, htext, ?_, hnested⟩
  rw [← hmain, ← Option.some.inj hw]

end TapeLang.CCode
