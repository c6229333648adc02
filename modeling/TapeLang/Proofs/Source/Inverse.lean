import TapeLang.Proofs.Optimizer.Inventory
import TapeLang.Proofs.Source.Spelling

/-!
# Reading and writing are inverse

A raw program consists of the operations that have a character of their own, and of loops. Reading
gives raw programs only, and writing is the inverse of reading on them (`parse_inverse_print`): what
is written after reading a source text is the text without its comments, and what is read after
writing a raw program is the program.

The characters of a reading are those of the part of the text that has been read
(`chars_read`): a closing bracket without a partner keeps its place between the programs on its two
sides until the opening bracket is found. Comments change no more than the indices of a reading
(`alike_filter`).
-/

set_option autoImplicit false

namespace TapeLang

/-! ## Raw programs -/

/-- An operation that has a character of its own. -/
def Op.isRaw : Op → Bool
  | .shift amount => amount = 1 || amount = -1
  | .add amount offset => (amount = 1 || amount = -1) && offset = 0
  | .input => true
  | .output => true
  | .setZero => false
  | .multiply _ => false

theorem Op.isRaw_iff (o : Op) : o.isRaw = true ↔ ∃ c, Op.ofChar? c = some o := by
  constructor
  · intro h
    cases o with
    | shift amount =>
        simp only [isRaw, Bool.or_eq_true, decide_eq_true_eq] at h
        rcases h with rfl | rfl
        · exact ⟨'>', rfl⟩
        · exact ⟨'<', rfl⟩
    | add amount offset =>
        simp only [isRaw, Bool.and_eq_true, Bool.or_eq_true, decide_eq_true_eq] at h
        rcases h with ⟨rfl | rfl, rfl⟩
        · exact ⟨'+', rfl⟩
        · exact ⟨'-', rfl⟩
    | input => exact ⟨',', rfl⟩
    | output => exact ⟨'.', rfl⟩
    | setZero => cases h
    | multiply factors => cases h
  · rintro ⟨c, hc⟩
    simp only [ofChar?] at hc
    split at hc <;> cases hc <;> rfl

/-- The text of the operation of a character is the character. -/
theorem Op.chars_of_ofChar? {c : Char} {o : Op} (h : Op.ofChar? c = some o) : o.chars = [c] := by
  simp only [ofChar?] at h
  split at h <;> cases h <;> rfl

theorem Op.spelled_of_ofChar? {c : Char} {o : Op} (h : Op.ofChar? c = some o) (rest : Program) :
    o.spelled rest = .op o rest := by
  simp only [ofChar?] at h
  split at h <;> cases h <;> rfl

theorem Op.printOverflow?_of_ofChar? {c : Char} {o : Op} (h : Op.ofChar? c = some o) :
    o.printOverflow? = none := by
  simp only [ofChar?] at h
  split at h <;> cases h <;> rfl

namespace Program

variable {p : Program}

/-- A raw program is spelled by itself. -/
theorem spelled_of_isRaw (h : p.allOps Op.isRaw = true) : p.spelled = p := by
  induction p with
  | done => rfl
  | op o rest ih =>
      rw [allOps_op] at h
      obtain ⟨c, hc⟩ := o.isRaw_iff.1 h.1
      rw [spelled, ih h.2, Op.spelled_of_ofChar? hc]
  | loop body rest ihbody ihrest =>
      rw [allOps_loop] at h
      rw [spelled, ihbody h.1, ihrest h.2]

/-- A raw program can be written. -/
theorem print_of_isRaw (h : p.allOps Op.isRaw = true) : p.print = .ok p.source := by
  refine (print_eq_ok_iff p p.source).2 ⟨?_, rfl⟩
  induction p with
  | done => rfl
  | op o rest ih =>
      rw [allOps_op] at h
      obtain ⟨c, hc⟩ := o.isRaw_iff.1 h.1
      rw [printOverflow?, Op.printOverflow?_of_ofChar? hc, ih h.2]
      rfl
  | loop body rest ihbody ihrest =>
      rw [allOps_loop] at h
      rw [printOverflow?, ihbody h.1, ihrest h.2]
      rfl

end Program

namespace Source

theorem parse_source_of_isRaw {p : Program} (h : p.allOps Op.isRaw = true) :
    parse p.source = .ok p := by
  rw [parse_source, Program.spelled_of_isRaw h]

theorem isRaw_of_parse {source : String} {p : Program} (h : parse source = .ok p) :
    p.allOps Op.isRaw = true :=
  allOps_parse (fun c o ho => o.isRaw_iff.2 ⟨c, ho⟩) h

/-! ## What has been read -/

theorem parseChars_eq_ok_iff_read (l : List Char) (p : Program) :
    parseChars l = .ok p ↔
      (read 0 l).closings = [] ∧ (read 0 l).openings = [] ∧ (read 0 l).program = p := by
  rw [parseChars]
  cases hc : (read 0 l).closings with
  | nil =>
      cases ho : (read 0 l).openings with
      | nil => simp [Reading.errors, hc, ho]
      | cons i rest => simp [Reading.errors, hc, ho]
  | cons e rest => simp [Reading.errors, hc]

/-- The characters of the part of a text that a reading stands for, if it has no opening bracket
without a partner. -/
def Reading.chars (r : Reading) : List Char :=
  r.program.chars ++ r.closings.flatMap fun e => ']' :: e.2.chars

theorem Reading.openings_of_cons {r : Reading} {c : Char} {index : Nat}
    (h : (r.cons c index).openings = []) : r.openings = [] := by
  simp only [cons] at h
  split at h
  next => exact h
  next =>
    split at h
    next => exact h
    next => cases h
  next =>
    split at h
    next => exact h
    next => exact h

/-- One more character is one more character, unless it is a comment. -/
theorem Reading.chars_cons {r : Reading} {c : Char} {index : Nat}
    (h : (r.cons c index).openings = []) :
    (r.cons c index).chars = [c].filter isInstruction ++ r.chars := by
  simp only [cons] at h ⊢
  split
  next => simp [chars, Program.chars, isInstruction]
  next =>
    cases hclosings : r.closings with
    | nil =>
        rw [hclosings] at h
        cases h
    | cons e rest => simp [chars, Program.chars, isInstruction, hclosings]
  next hclosing hopening =>
    cases ho : Op.ofChar? c with
    | none =>
        have hcomment : isInstruction c = false := by simp_all [isInstruction]
        simp [hcomment]
    | some o => simp [chars, Program.chars, isInstruction, ho, Op.chars_of_ofChar? ho]

theorem chars_read (l : List Char) : ∀ start, (read start l).openings = [] →
    (read start l).chars = l.filter isInstruction := by
  induction l with
  | nil => exact fun _ _ => rfl
  | cons c l ih =>
      intro start h
      rw [read_cons] at h ⊢
      rw [Reading.chars_cons h, ih (start + 1) (Reading.openings_of_cons h),
        ← List.filter_append, List.singleton_append]

/-- The text of what has been read is the source without its comments. -/
theorem source_of_parse {source : String} {p : Program} (h : parse source = .ok p) :
    p.source = String.ofList (source.toList.filter isInstruction) := by
  obtain ⟨hclosings, hopenings, rfl⟩ := (parseChars_eq_ok_iff_read _ _).1 h
  rw [Program.source, ← chars_read source.toList 0 hopenings, Reading.chars, hclosings,
    List.flatMap_nil, List.append_nil]

/-! ## Comments -/

/-- Two readings that differ in the indices of brackets at most. -/
structure Reading.Alike (r r' : Reading) : Prop where
  program_eq : r.program = r'.program
  closings_eq : r.closings.map (·.2) = r'.closings.map (·.2)
  openings_eq : r.openings.length = r'.openings.length

theorem Reading.Alike.cons {r r' : Reading} (h : r.Alike r') (c : Char) (index index' : Nat) :
    (r.cons c index).Alike (r'.cons c index') := by
  obtain ⟨hprogram, hclosings, hopenings⟩ := h
  simp only [Reading.cons]
  split
  next => exact ⟨rfl, by simp [hprogram, hclosings], hopenings⟩
  next =>
    -- the first unmatched closing bracket has the same program after it on both sides
    cases hc : r.closings with
    | nil =>
        rw [hc, List.map_nil, eq_comm, List.map_eq_nil_iff] at hclosings
        rw [hclosings]
        exact ⟨hprogram, rfl, congrArg (· + 1) hopenings⟩
    | cons e rest =>
        rw [hc, List.map_cons, eq_comm, List.map_eq_cons_iff] at hclosings
        obtain ⟨e', rest', hc', he, hrest⟩ := hclosings
        rw [hc']
        exact ⟨congrArg₂ Program.loop hprogram he.symm, hrest.symm, hopenings⟩
  next =>
    split
    next => exact ⟨by rw [hprogram], hclosings, hopenings⟩
    next => exact ⟨hprogram, hclosings, hopenings⟩

theorem cons_of_comment {c : Char} (h : isInstruction c = false) (index : Nat) (r : Reading) :
    r.cons c index = r := by
  obtain ⟨hc, ho⟩ := ne_bracket_of_comment h
  have hnone : Op.ofChar? c = none := by simp_all [isInstruction]
  simp only [Reading.cons, hnone]

theorem alike_filter (l : List Char) : ∀ start start',
    (read start l).Alike (read start' (l.filter isInstruction)) := by
  induction l with
  | nil => exact fun _ _ => ⟨rfl, rfl, rfl⟩
  | cons c l ih =>
      intro start start'
      cases hc : isInstruction c with
      | true =>
          rw [List.filter_cons_of_pos hc, read_cons, read_cons]
          exact (ih _ _).cons c start start'
      | false =>
          rw [List.filter_cons_of_neg (by simp [hc]), read_cons, cons_of_comment hc]
          exact ih _ _

/-- Without its comments a source text is read as the same program. -/
theorem parse_filter_eq_ok_iff (source : String) (p : Program) :
    parse (String.ofList (source.toList.filter isInstruction)) = .ok p ↔ parse source = .ok p := by
  obtain ⟨hprogram, hclosings, hopenings⟩ := alike_filter source.toList 0 0
  have hclosings_nil : (read 0 source.toList).closings = [] ↔
      (read 0 (source.toList.filter isInstruction)).closings = [] := by
    rw [← List.map_eq_nil_iff, hclosings, List.map_eq_nil_iff]
  have hopenings_nil : (read 0 source.toList).openings = [] ↔
      (read 0 (source.toList.filter isInstruction)).openings = [] := by
    rw [← List.length_eq_zero_iff, hopenings, List.length_eq_zero_iff]
  rw [parse, parse, String.toList_ofList, parseChars_eq_ok_iff_read, parseChars_eq_ok_iff_read,
    hprogram, hclosings_nil, hopenings_nil]

/-- Reading and writing are inverse to each other. What has been read is written as the source text
without its comments; a raw program is written, and read again as itself; so the raw programs are
those that are read from some source text; and two source texts are read as the same program exactly
if one of them is read at all and they have the same instruction characters. -/
theorem parse_inverse_print :
    (∀ source p, parse source = .ok p →
      p.print = .ok (String.ofList (source.toList.filter isInstruction))) ∧
    (∀ p : Program, p.allOps Op.isRaw = true → ∃ text, p.print = .ok text ∧ parse text = .ok p) ∧
    (∀ p : Program, p.allOps Op.isRaw = true ↔ ∃ source, parse source = .ok p) ∧
    (∀ source source', (∃ p, parse source = .ok p ∧ parse source' = .ok p) ↔
      (∃ p, parse source = .ok p) ∧
        source.toList.filter isInstruction = source'.toList.filter isInstruction) := by
  refine ⟨fun source p h => ?_, fun p h => ?_, fun p => ⟨fun h => ?_, ?_⟩,
    fun source source' => ⟨?_, ?_⟩⟩
  · rw [Program.print_of_isRaw (isRaw_of_parse h), source_of_parse h]
  · exact ⟨p.source, Program.print_of_isRaw h, parse_source_of_isRaw h⟩
  · exact ⟨p.source, parse_source_of_isRaw h⟩
  · rintro ⟨source, h⟩
    exact isRaw_of_parse h
  · rintro ⟨p, h, h'⟩
    have htext := (source_of_parse h).symm.trans (source_of_parse h')
    exact ⟨⟨p, h⟩, String.ofList_injective htext⟩
  · rintro ⟨⟨p, h⟩, hchars⟩
    have h' := (parse_filter_eq_ok_iff source p).2 h
    rw [hchars] at h'
    exact ⟨p, h, (parse_filter_eq_ok_iff source' p).1 h'⟩

/-- A text with comments before, inside and after a loop, and its text without them. -/
theorem parse_inverse_print_commented :
    ∃ p, parse "add +[é >,] ." = .ok p ∧ p.allOps Op.isRaw = true ∧ p.print = .ok "+[>,]." ∧
      parse "+[>,]." = .ok p := by
  obtain ⟨hprint, -, hraw, hsame⟩ := parse_inverse_print
  have hparse : parse "add +[é >,] ." = .ok (.op (.add 1 0)
      (.loop (.op (.shift 1) (.op .input .done)) (.op .output .done))) := rfl
  obtain ⟨p, hp, hp'⟩ := (hsame "add +[é >,] ." "+[>,].").2 ⟨⟨_, hparse⟩, rfl⟩
  exact ⟨p, hp, (hraw p).2 ⟨_, hp⟩, hprint "+[>,]." p hp', hp'⟩

end Source

end TapeLang
