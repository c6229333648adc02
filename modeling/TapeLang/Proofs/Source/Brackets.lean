import Mathlib.Data.List.Infix
import Mathlib.Data.List.Sublists
import TapeLang.Source.Parser

/-!
# Brackets without a partner

A source text is refused exactly if its brackets are not balanced, and then the reported brackets
are the right ones (`parse_brackets`): they stand in the text where the errors say, in ascending
order, the closing ones first; without them the text is read; and no text that is left when fewer
brackets are deleted is read.

All of it follows from how the unmatched brackets of a text change with one more character at its
front (`closings_closing` and the lemmas after it). A deletion is a sublist. That the reported
brackets are fewest rests on one inequality, `closings_add_count_le`: deleting an opening bracket
never leaves fewer closing ones unmatched, and deleting a closing bracket leaves at most one fewer.
-/

set_option autoImplicit false

namespace TapeLang

/-- The character of a bracket. -/
def Bracket.char : Bracket → Char
  | .opening => '['
  | .closing => ']'

namespace Source

/-! ## One more character -/

@[simp] theorem read_nil (start : Nat) : read start [] = .empty := rfl

theorem read_cons (start : Nat) (c : Char) (l : List Char) :
    read start (c :: l) = (read (start + 1) l).cons c start := rfl

/-- A character that is no bracket leaves the unmatched brackets as they are. -/
theorem cons_of_not_bracket {c : Char} (hc : c ≠ ']') (ho : c ≠ '[') (start : Nat) (r : Reading) :
    (r.cons c start).closings = r.closings ∧ (r.cons c start).openings = r.openings := by
  simp only [Reading.cons]
  split
  next => exact ⟨rfl, rfl⟩
  next => exact ⟨rfl, rfl⟩

/-- The indices of the closing brackets without a partner. -/
def closings (start : Nat) (l : List Char) : List Nat := (read start l).closings.map (·.1)

/-- The indices of the opening brackets without a partner. -/
def openings (start : Nat) (l : List Char) : List Nat := (read start l).openings

section Cons

variable (start : Nat) (l : List Char)

@[simp] theorem closings_nil : closings start [] = [] := rfl

@[simp] theorem openings_nil : openings start [] = [] := rfl

@[simp] theorem closings_closing : closings start (']' :: l) = start :: closings (start + 1) l :=
  rfl

@[simp] theorem openings_closing : openings start (']' :: l) = openings (start + 1) l := rfl

/-- An opening bracket takes the first closing bracket that has no partner yet. -/
@[simp] theorem closings_opening :
    closings start ('[' :: l) = (closings (start + 1) l).tail := by
  simp only [closings, read_cons, Reading.cons]
  cases (read (start + 1) l).closings with
  | nil => rfl
  | cons e rest => rfl

theorem openings_opening_of_nil (h : closings (start + 1) l = []) :
    openings start ('[' :: l) = start :: openings (start + 1) l := by
  rw [closings, List.map_eq_nil_iff] at h
  simp only [openings, read_cons, Reading.cons, h]

theorem openings_opening_of_ne_nil (h : closings (start + 1) l ≠ []) :
    openings start ('[' :: l) = openings (start + 1) l := by
  simp only [openings, read_cons, Reading.cons]
  cases hr : (read (start + 1) l).closings with
  | nil => exact absurd (by rw [closings, hr]; rfl) h
  | cons e rest => rfl

variable {c : Char} (hc : c ≠ ']') (ho : c ≠ '[')

include hc ho

theorem closings_other : closings start (c :: l) = closings (start + 1) l := by
  rw [closings, read_cons, (cons_of_not_bracket hc ho start _).1, closings]

theorem openings_other : openings start (c :: l) = openings (start + 1) l := by
  rw [openings, read_cons, (cons_of_not_bracket hc ho start _).2, openings]

end Cons

/-! ## Where the unmatched brackets stand -/

/-- The reported indices ascend, those of closing brackets first, and none of them lies before the
text. -/
theorem pairwise_unmatched (l : List Char) : ∀ start,
    (closings start l ++ openings start l).Pairwise (· < ·) ∧
      ∀ i ∈ closings start l ++ openings start l, start ≤ i := by
  induction l with
  | nil => exact fun start => ⟨List.Pairwise.nil, fun i hi => by cases hi⟩
  | cons c l ih =>
      intro start
      obtain ⟨hpairwise, hge⟩ := ih (start + 1)
      have hlt : ∀ i ∈ closings (start + 1) l ++ openings (start + 1) l, start < i := hge
      have hcons : (start :: (closings (start + 1) l ++ openings (start + 1) l)).Pairwise
          (· < ·) := List.pairwise_cons.2 ⟨hlt, hpairwise⟩
      have hcons_ge : ∀ i ∈ start :: (closings (start + 1) l ++ openings (start + 1) l),
          start ≤ i := by
        intro i hi
        rcases List.mem_cons.1 hi with rfl | hi
        · exact Nat.le_refl _
        · exact Nat.le_of_lt (hlt i hi)
      by_cases hc : c = ']'
      · subst hc
        rw [closings_closing, openings_closing, List.cons_append]
        exact ⟨hcons, hcons_ge⟩
      · by_cases ho : c = '['
        · subst ho
          rw [closings_opening]
          cases h : closings (start + 1) l with
          | nil =>
              rw [h, List.nil_append] at hcons hcons_ge
              rw [openings_opening_of_nil start l h]
              exact ⟨hcons, hcons_ge⟩
          | cons first rest =>
              -- the first closing bracket has found its partner
              have hne : closings (start + 1) l ≠ [] := by simp [h]
              rw [h, List.cons_append] at hpairwise hlt
              rw [openings_opening_of_ne_nil start l hne]
              exact ⟨(List.pairwise_cons.1 hpairwise).2, fun i hi =>
                Nat.le_of_lt (hlt i (List.mem_cons_of_mem first hi))⟩
        · rw [closings_other start l hc ho, openings_other start l hc ho]
          exact ⟨hpairwise, fun i hi => Nat.le_of_lt (hlt i hi)⟩

/-- A reported closing bracket is a closing bracket of the text. -/
theorem mem_zipIdx_of_mem_closings (l : List Char) : ∀ start, ∀ i ∈ closings start l,
    (']', i) ∈ l.zipIdx start := by
  induction l with
  | nil => exact fun start i hi => by cases hi
  | cons c l ih =>
      intro start i hi
      rw [List.zipIdx_cons]
      by_cases hc : c = ']'
      · subst hc
        rw [closings_closing] at hi
        rcases List.mem_cons.1 hi with rfl | hi
        · exact List.mem_cons_self
        · exact List.mem_cons_of_mem _ (ih (start + 1) i hi)
      · apply List.mem_cons_of_mem
        by_cases ho : c = '['
        · subst ho
          rw [closings_opening] at hi
          exact ih (start + 1) i (List.mem_of_mem_tail hi)
        · rw [closings_other start l hc ho] at hi
          exact ih (start + 1) i hi

/-- A reported opening bracket is an opening bracket of the text. -/
theorem mem_zipIdx_of_mem_openings (l : List Char) : ∀ start, ∀ i ∈ openings start l,
    ('[', i) ∈ l.zipIdx start := by
  induction l with
  | nil => exact fun start i hi => by cases hi
  | cons c l ih =>
      intro start i hi
      rw [List.zipIdx_cons]
      by_cases ho : c = '['
      · subst ho
        by_cases h : closings (start + 1) l = []
        · rw [openings_opening_of_nil start l h] at hi
          rcases List.mem_cons.1 hi with rfl | hi
          · exact List.mem_cons_self
          · exact List.mem_cons_of_mem _ (ih (start + 1) i hi)
        · rw [openings_opening_of_ne_nil start l h] at hi
          exact List.mem_cons_of_mem _ (ih (start + 1) i hi)
      · apply List.mem_cons_of_mem
        by_cases hc : c = ']'
        · subst hc
          exact ih (start + 1) i hi
        · rw [openings_other start l hc ho] at hi
          exact ih (start + 1) i hi

/-! ## How many brackets are unmatched -/

/-- Every pair takes one bracket of each kind. -/
theorem openings_add_count (l : List Char) : ∀ start,
    (openings start l).length + l.count ']' = (closings start l).length + l.count '[' := by
  induction l with
  | nil => exact fun start => rfl
  | cons c l ih =>
      intro start
      have ih := ih (start + 1)
      by_cases hc : c = ']'
      · subst hc
        simp only [openings_closing, closings_closing, List.count_cons, List.length_cons]
        simp
        omega
      · by_cases ho : c = '['
        · subst ho
          rw [closings_opening, List.length_tail, List.count_cons_self,
            List.count_cons_of_ne (by decide)]
          by_cases h : closings (start + 1) l = []
          · rw [openings_opening_of_nil start l h, List.length_cons]
            rw [h] at ih ⊢
            simp only [List.length_nil] at ih ⊢
            omega
          · rw [openings_opening_of_ne_nil start l h]
            have hpos := List.length_pos_iff.2 h
            omega
        · rw [closings_other start l hc ho, openings_other start l hc ho,
            List.count_cons_of_ne hc, List.count_cons_of_ne ho]
          exact ih

/-- At most `d` closing brackets are unmatched exactly if no beginning of the text has more than `d`
closing brackets beyond its opening ones. -/
theorem length_closings_le_iff (l : List Char) : ∀ start d,
    (closings start l).length ≤ d ↔
      ∀ front, front <+: l → front.count ']' ≤ front.count '[' + d := by
  induction l with
  | nil =>
      intro start d
      simp
  | cons c l ih =>
      intro start d
      -- a beginning is empty, or the first character and a beginning of the rest
      have hfronts : (∀ front, front <+: c :: l → front.count ']' ≤ front.count '[' + d) ↔
          ∀ front, front <+: l → (c :: front).count ']' ≤ (c :: front).count '[' + d := by
        constructor
        · exact fun h front hfront => h _ (List.cons_prefix_cons.2 ⟨rfl, hfront⟩)
        · intro h front hfront
          rcases List.prefix_cons_iff.1 hfront with rfl | ⟨later, rfl, hlater⟩
          · simp
          · exact h later hlater
      rw [hfronts]
      by_cases hc : c = ']'
      · subst hc
        rw [closings_closing, List.length_cons]
        cases d with
        | zero =>
            refine ⟨fun h => absurd h (Nat.not_succ_le_zero _), fun h => ?_⟩
            have hempty := h [] List.nil_prefix
            simp at hempty
        | succ d =>
            rw [Nat.add_le_add_iff_right, ih (start + 1) d]
            refine forall₂_congr fun front _ => ?_
            rw [List.count_cons_self, List.count_cons_of_ne (by decide)]
            omega
      · by_cases ho : c = '['
        · subst ho
          rw [closings_opening, List.length_tail, Nat.sub_le_iff_le_add, ih (start + 1) (d + 1)]
          refine forall₂_congr fun front _ => ?_
          rw [List.count_cons_self, List.count_cons_of_ne (by decide)]
          omega
        · rw [closings_other start l hc ho, ih (start + 1) d]
          refine forall₂_congr fun front _ => ?_
          rw [List.count_cons_of_ne hc, List.count_cons_of_ne ho]

/-! ## Deletions -/

/-- Of the closing brackets that are deleted, each makes at most one more of them matched; what else
is deleted makes none more matched. -/
theorem closings_add_count_le {rest l : List Char} (h : rest.Sublist l) : ∀ start start',
    (closings start l).length + rest.count ']' ≤ (closings start' rest).length + l.count ']' := by
  induction h with
  | slnil => exact fun start start' => Nat.le_refl _
  | @cons rest l c _ ih =>
      intro start start'
      have ih := ih (start + 1) start'
      by_cases hc : c = ']'
      · subst hc
        rw [closings_closing, List.length_cons, List.count_cons_self]
        omega
      · rw [List.count_cons_of_ne hc]
        by_cases ho : c = '['
        · subst ho
          rw [closings_opening, List.length_tail]
          omega
        · rw [closings_other start l hc ho]
          exact ih
  | @cons_cons rest l c hsub ih =>
      intro start start'
      have ih := ih (start + 1) (start' + 1)
      by_cases hc : c = ']'
      · subst hc
        simp only [closings_closing, List.length_cons, List.count_cons_self]
        omega
      · rw [List.count_cons_of_ne hc, List.count_cons_of_ne hc]
        by_cases ho : c = '['
        · subst ho
          rw [closings_opening, closings_opening, List.length_tail, List.length_tail]
          have hcount := hsub.count_le ']'
          omega
        · rw [closings_other start l hc ho, closings_other start' rest hc ho]
          exact ih

/-- The number of brackets of a text. -/
def bracketCount (l : List Char) : Nat := l.count '[' + l.count ']'

/-- Every deletion leaves so many brackets unmatched that the deleted ones make up for the rest. -/
theorem unmatched_add_bracketCount_le {rest l : List Char} (h : rest.Sublist l)
    (start start' : Nat) :
    (closings start l ++ openings start l).length + bracketCount rest ≤
      (closings start' rest ++ openings start' rest).length + bracketCount l := by
  have hclosings := closings_add_count_le h start start'
  have hl := openings_add_count l start
  have hrest := openings_add_count rest start'
  rw [List.length_append, List.length_append, bracketCount, bracketCount]
  omega

/-! ## Replacements -/

/-- The text with other characters at some indices, the first of which is `start`. -/
def blanked (indices : List Nat) (fill : Nat → Char) (start : Nat) (l : List Char) : List Char :=
  (l.zipIdx start).map fun e => if e.2 ∈ indices then fill e.2 else e.1

theorem blanked_cons (indices : List Nat) (fill : Nat → Char) (start : Nat) (c : Char)
    (l : List Char) :
    blanked indices fill start (c :: l) =
      (if start ∈ indices then fill start else c) :: blanked indices fill (start + 1) l := by
  rw [blanked, List.zipIdx_cons, List.map_cons, blanked]

theorem ne_bracket_of_comment {c : Char} (h : isInstruction c = false) : c ≠ ']' ∧ c ≠ '[' := by
  constructor
  · rintro rfl
    cases h
  · rintro rfl
    cases h

/-- If all unmatched opening brackets of a text and all unmatched closing brackets but the first `j`
are blanked, those `j` are what is left without a partner. An opening bracket further to the front
takes the first closing bracket, so the ones that stay unmatched are always the last. -/
theorem unmatched_blanked {indices : List Nat} {fill : Nat → Char}
    (hfill : ∀ i, isInstruction (fill i) = false) (l : List Char) : ∀ start j,
    (∀ i, start ≤ i → (i ∈ indices ↔ i ∈ (closings start l).drop j ∨ i ∈ openings start l)) →
      closings start (blanked indices fill start l) = (closings start l).take j ∧
        openings start (blanked indices fill start l) = [] := by
  induction l with
  | nil => exact fun start j _ => ⟨(List.take_nil).symm, rfl⟩
  | cons c l ih =>
      intro start j hindices
      have hge := (pairwise_unmatched l (start + 1)).2
      -- the index of the first character is not among those of the rest
      have hnot : ∀ j, ¬ (start ∈ (closings (start + 1) l).drop j ∨
          start ∈ openings (start + 1) l) := by
        rintro j (h | h)
        · exact absurd (hge start (List.mem_append_left _ (List.mem_of_mem_drop h)))
            (Nat.not_succ_le_self start)
        · exact absurd (hge start (List.mem_append_right _ h)) (Nat.not_succ_le_self start)
      rw [blanked_cons]
      by_cases hc : c = ']'
      · subst hc
        rw [closings_closing, openings_closing] at hindices
        rw [closings_closing]
        cases j with
        | zero =>
            have hmem : start ∈ indices :=
              (hindices start (Nat.le_refl _)).2 (Or.inl List.mem_cons_self)
            obtain ⟨hc, ho⟩ := ne_bracket_of_comment (hfill start)
            rw [if_pos hmem, closings_other _ _ hc ho, openings_other _ _ hc ho]
            refine ih (start + 1) 0 fun i hi => ?_
            rw [hindices i (Nat.le_of_succ_le hi), List.drop_zero, List.drop_zero, List.mem_cons]
            have hne : i ≠ start := by omega
            simp only [hne, false_or]
        | succ j =>
            have hmem : start ∉ indices := fun h =>
              hnot j ((hindices start (Nat.le_refl _)).1 h)
            rw [if_neg hmem, closings_closing, openings_closing, List.take_succ_cons]
            obtain ⟨hclosings, hopenings⟩ := ih (start + 1) j fun i hi =>
              hindices i (Nat.le_of_succ_le hi)
            exact ⟨by rw [hclosings], hopenings⟩
      · by_cases ho : c = '['
        · subst ho
          rw [closings_opening] at hindices ⊢
          cases h : closings (start + 1) l with
          | nil =>
              rw [openings_opening_of_nil start l h, h] at hindices
              have hmem : start ∈ indices :=
                (hindices start (Nat.le_refl _)).2 (Or.inr List.mem_cons_self)
              obtain ⟨hc, ho⟩ := ne_bracket_of_comment (hfill start)
              rw [if_pos hmem, closings_other _ _ hc ho, openings_other _ _ hc ho]
              obtain ⟨hclosings, hopenings⟩ := ih (start + 1) j fun i hi => by
                rw [hindices i (Nat.le_of_succ_le hi), h, List.mem_cons]
                have hne : i ≠ start := by omega
                simp [hne]
              exact ⟨by rw [hclosings, h, List.tail_nil], hopenings⟩
          | cons first rest =>
              have hne : closings (start + 1) l ≠ [] := by simp [h]
              rw [openings_opening_of_ne_nil start l hne, h, List.tail_cons] at hindices
              have hdrop : (closings (start + 1) l).drop (j + 1) = rest.drop j := by
                rw [h, List.drop_succ_cons]
              have hmem : start ∉ indices := fun hstart =>
                hnot (j + 1) (by rw [hdrop]; exact (hindices start (Nat.le_refl _)).1 hstart)
              obtain ⟨hclosings, hopenings⟩ := ih (start + 1) (j + 1) fun i hi => by
                rw [hdrop]
                exact hindices i (Nat.le_of_succ_le hi)
              rw [h, List.take_succ_cons] at hclosings
              rw [if_neg hmem, closings_opening,
                openings_opening_of_ne_nil _ _ (by simp [hclosings]), hclosings]
              exact ⟨rfl, hopenings⟩
        · rw [closings_other start l hc ho, openings_other start l hc ho] at hindices
          have hmem : start ∉ indices := fun h => hnot j ((hindices start (Nat.le_refl _)).1 h)
          rw [if_neg hmem, closings_other _ _ hc ho, openings_other _ _ hc ho,
            closings_other start l hc ho]
          exact ih (start + 1) j fun i hi => hindices i (Nat.le_of_succ_le hi)

/-! ## What is read and what is refused -/

/-- Every beginning has at least as many opening brackets as closing ones, and in the whole there
are as many of the one kind as of the other. -/
def Balanced (l : List Char) : Prop :=
  (∀ front, front <+: l → front.count ']' ≤ front.count '[') ∧ l.count '[' = l.count ']'

theorem errors_eq (l : List Char) :
    (read 0 l).errors = (closings 0 l).map (fun i => ⟨.closing, i⟩) ++
      (openings 0 l).map fun i => ⟨.opening, i⟩ := by
  rw [Reading.errors, closings, openings, List.map_map]
  rfl

theorem parseChars_eq_ok_iff (l : List Char) :
    (∃ p, parseChars l = .ok p) ↔ closings 0 l ++ openings 0 l = [] := by
  rw [parseChars]
  simp only [errors_eq]
  cases hc : closings 0 l with
  | nil =>
      cases ho : openings 0 l with
      | nil => simp
      | cons i rest => simp
  | cons i rest => simp

theorem errors_of_parseChars_eq_error (l : List Char) (errors : List BracketError)
    (h : parseChars l = .error errors) : errors = (read 0 l).errors := by
  rw [parseChars] at h
  split at h
  next => cases h
  next =>
    cases h
    rfl

/-- A text is read exactly if it is balanced. -/
theorem balanced_iff (l : List Char) : Balanced l ↔ closings 0 l ++ openings 0 l = [] := by
  have hcount := openings_add_count l 0
  have hclosings := length_closings_le_iff l 0 0
  simp only [Nat.add_zero, Nat.le_zero, List.length_eq_zero_iff] at hclosings
  rw [Balanced, ← hclosings, List.append_eq_nil_iff]
  refine and_congr_right fun h => ?_
  rw [h, List.length_nil] at hcount
  rw [← List.length_eq_zero_iff]
  omega

section Errors

variable {l : List Char} {errors : List BracketError} (h : errors = (read 0 l).errors)

include h

theorem map_index_errors : errors.map (·.index) = closings 0 l ++ openings 0 l := by
  rw [h, errors_eq, List.map_append, List.map_map, List.map_map]
  simp [Function.comp_def]

/-- No opening bracket is reported before a closing one. -/
theorem pairwise_bracket_errors :
    errors.Pairwise fun a b => a.bracket = .opening → b.bracket = .opening := by
  rw [h, errors_eq, List.pairwise_append]
  refine ⟨?_, ?_, ?_⟩
  · exact List.pairwise_map.2 (List.pairwise_of_forall fun _ _ hopening => by cases hopening)
  · exact List.pairwise_map.2 (List.pairwise_of_forall fun _ _ _ => rfl)
  · intro a _ b hb _
    obtain ⟨i, -, rfl⟩ := List.mem_map.1 hb
    rfl

/-- Each error names a bracket of the text. -/
theorem getElem?_index_errors : ∀ e ∈ errors, l[e.index]? = some e.bracket.char := by
  intro e he
  rw [h, errors_eq, List.mem_append, List.mem_map, List.mem_map] at he
  rcases he with ⟨i, hi, rfl⟩ | ⟨i, hi, rfl⟩
  · exact List.mk_mem_zipIdx_iff_getElem?.1 (mem_zipIdx_of_mem_closings l 0 i hi)
  · exact List.mk_mem_zipIdx_iff_getElem?.1 (mem_zipIdx_of_mem_openings l 0 i hi)

/-- Without the reported brackets the text is read. -/
theorem parseChars_blanked {fill : Nat → Char} (hfill : ∀ i, isInstruction (fill i) = false) :
    ∃ p, parseChars (blanked (errors.map (·.index)) fill 0 l) = .ok p := by
  rw [parseChars_eq_ok_iff, map_index_errors h]
  obtain ⟨hclosings, hopenings⟩ := unmatched_blanked hfill l 0 0 fun i _ => List.mem_append
  rw [List.drop_zero] at hclosings hopenings
  rw [hclosings, hopenings, List.take_zero, List.append_nil]

/-- A text that is read has lost at least as many brackets as are reported. -/
theorem length_errors_le {rest : List Char} (hsub : rest.Sublist l)
    (hrest : ∃ p, parseChars rest = .ok p) :
    errors.length + bracketCount rest ≤ bracketCount l := by
  have hle := unmatched_add_bracketCount_le hsub 0 0
  rw [(parseChars_eq_ok_iff rest).1 hrest, ← map_index_errors h, List.length_map, List.length_nil,
    Nat.zero_add] at hle
  exact hle

end Errors

/-- A source text is read exactly if its brackets are balanced. If it is refused, the reported
indices ascend, closing brackets are reported before opening ones, each index is that of a bracket
of its kind, the text is read once every reported bracket is replaced by a comment character, and
no text that is read can be made of it by deleting fewer brackets than are reported. -/
theorem parse_brackets (source : String) :
    ((∃ p, parse source = .ok p) ↔ Balanced source.toList) ∧
    ∀ errors, parse source = .error errors →
      (errors.map (·.index)).Pairwise (· < ·) ∧
      (errors.Pairwise fun a b => a.bracket = .opening → b.bracket = .opening) ∧
      (∀ e ∈ errors, source.toList[e.index]? = some e.bracket.char) ∧
      (∀ fill, (∀ i, isInstruction (fill i) = false) →
        ∃ p, parse (String.ofList (blanked (errors.map (·.index)) fill 0 source.toList)) = .ok p) ∧
      ∀ rest : List Char, rest.Sublist source.toList →
        (∃ p, parse (String.ofList rest) = .ok p) →
          errors.length + bracketCount rest ≤ bracketCount source.toList := by
  refine ⟨?_, fun errors hparse => ?_⟩
  · rw [balanced_iff, parse, parseChars_eq_ok_iff]
  · have herrors := errors_of_parseChars_eq_error source.toList errors hparse
    refine ⟨?_, pairwise_bracket_errors herrors, getElem?_index_errors herrors, ?_, ?_⟩
    · rw [map_index_errors herrors]
      exact (pairwise_unmatched source.toList 0).1
    · intro fill hfill
      rw [parse, String.toList_ofList]
      exact parseChars_blanked herrors hfill
    · intro rest hsub hrest
      rw [parse, String.toList_ofList] at hrest
      exact length_errors_le herrors hsub hrest

/-- A closing bracket before and an opening bracket around a pair, among comments. Two brackets are
reported, and no deletion of one bracket is enough. -/
theorem parse_brackets_stray :
    parse "é]+[x[]" = .error [⟨.closing, 1⟩, ⟨.opening, 3⟩] ∧ ¬ Balanced "é]+[x[]".toList ∧
      (∃ p, parse (String.ofList (blanked [1, 3] (fun _ => '#') 0 "é]+[x[]".toList)) = .ok p) ∧
      ∀ rest : List Char, rest.Sublist "é]+[x[]".toList →
        (∃ p, parse (String.ofList rest) = .ok p) → 2 + bracketCount rest ≤ 4 := by
  have hparse : parse "é]+[x[]" = .error [⟨.closing, 1⟩, ⟨.opening, 3⟩] := rfl
  obtain ⟨hiff, herrors⟩ := parse_brackets "é]+[x[]"
  obtain ⟨-, -, -, hblanked, hfewest⟩ := herrors _ hparse
  refine ⟨hparse, ?_, hblanked (fun _ => '#') fun _ => rfl, hfewest⟩
  intro hbalanced
  obtain ⟨p, hp⟩ := hiff.2 hbalanced
  rw [hparse] at hp
  cases hp

end Source

end TapeLang
