import TapeLang.Proofs.Source.Caret

/-!
# Colours change only styling

An error in colours is the same error without colours, with escape sequences between its characters
(`colours_only_style`). The sequences can be deleted by a reader who knows nothing about the spans:
`unstyled` looks for an escape character, a bracket, some codes and an `m`. What a code may be is
left open. A reader may take digits and semicolons only, or everything up to the next `m`. Which
codes the styles have is left open too, the six styles of `Palette.standard` being one choice.

A span is read back as its text whatever follows it (`unstyled_chars_append`), since both of its
escape sequences are complete and a text without an escape character starts none: neither can join
with what stands behind it, even if that looks like the end of a sequence. An excerpt has such texts
only, if there is no escape character in the source and its name.
-/

set_option autoImplicit false

namespace TapeLang.Text

/-! ## Deleting escape sequences -/

/-- What follows the escape sequence at the start of a text, if there is one: an escape character, a
bracket, any number of codes, and an `m`. -/
def afterEscape? (isCode : Char → Bool) : List Char → Option (List Char)
  | '\x1b' :: '[' :: rest =>
      match rest.dropWhile isCode with
      | 'm' :: after => some after
      | _ => none
  | _ => none

theorem length_lt_of_afterEscape? {isCode : Char → Bool} {text after : List Char}
    (h : afterEscape? isCode text = some after) : after.length < text.length := by
  rw [afterEscape?.eq_def] at h
  split at h
  next rest =>
    split at h
    next after' hdrop =>
      cases h
      have hle := (List.dropWhile_suffix isCode (l := rest)).length_le
      rw [hdrop, List.length_cons] at hle
      simp only [List.length_cons]
      omega
    next => cases h
  next => cases h

/-- A text without its escape sequences. -/
def unstyled (isCode : Char → Bool) : List Char → List Char
  | [] => []
  | c :: rest =>
      match hafter : afterEscape? isCode (c :: rest) with
      | some after =>
          have : after.length < (c :: rest).length := length_lt_of_afterEscape? hafter
          unstyled isCode after
      | none => c :: unstyled isCode rest
termination_by text => text.length
decreasing_by
  · exact this
  · exact Nat.lt_succ_self rest.length

/-- What may count as a code of an escape sequence: digits and semicolons at least, and never the
`m` that ends the sequence. -/
structure Codes (isCode : Char → Bool) : Prop where
  digit : ∀ c : Char, c.isDigit = true → isCode c = true
  semicolon : isCode ';' = true
  terminator : isCode 'm' = false

section

variable {isCode : Char → Bool}

theorem unstyled_of_afterEscape? {text after : List Char}
    (h : afterEscape? isCode text = some after) : unstyled isCode text = unstyled isCode after := by
  cases text with
  | nil => cases h
  | cons c rest =>
      rw [unstyled]
      split
      next after' hafter =>
        rw [hafter] at h
        cases h
        rfl
      next hnone =>
        rw [hnone] at h
        cases h

theorem unstyled_cons_of_ne {c : Char} (h : c ≠ '\x1b') (rest : List Char) :
    unstyled isCode (c :: rest) = c :: unstyled isCode rest := by
  have hnone : afterEscape? isCode (c :: rest) = none := by
    rw [afterEscape?]
    intro rest' heq
    exact absurd (List.cons.inj heq).1 h
  rw [unstyled]
  split
  next after hafter =>
    rw [hnone] at hafter
    cases hafter
  next => rfl

/-- Characters that do not start an escape sequence stay. -/
theorem unstyled_append_of_notMem {text : List Char} (h : '\x1b' ∉ text) (rest : List Char) :
    unstyled isCode (text ++ rest) = text ++ unstyled isCode rest := by
  induction text with
  | nil => rfl
  | cons c text ih =>
      rw [List.mem_cons, not_or] at h
      rw [List.cons_append, unstyled_cons_of_ne (fun heq => h.1 heq.symm), ih h.2, List.cons_append]

/-- A whole escape sequence is deleted, whatever follows it. -/
theorem unstyled_escape_append {codes : String} (hcodes : ∀ c ∈ codes.toList, isCode c = true)
    (hm : isCode 'm' = false) (rest : List Char) :
    unstyled isCode (Span.escape codes ++ rest) = unstyled isCode rest := by
  apply unstyled_of_afterEscape?
  -- the codes are dropped, and nothing behind the first `m` after them
  have hdrop : (codes.toList ++ 'm' :: rest).dropWhile isCode = 'm' :: rest := by
    rw [List.dropWhile_append_of_pos hcodes, List.dropWhile_cons_of_neg (by rw [hm]; decide)]
  rw [Span.escape, List.cons_append, List.cons_append, List.append_assoc, List.singleton_append,
    afterEscape?, hdrop]
  rfl

/-! ## Deleting the styles of spans -/

theorem isCode_of_mem_codes (h : Codes isCode) (palette : Palette) (style : Style) :
    ∀ c ∈ (palette.codes style).toList, isCode c = true := by
  intro c hc
  have hcode := List.all_eq_true.1 (palette.numeric style) c hc
  rw [Bool.or_eq_true, decide_eq_true_iff] at hcode
  rcases hcode with hdigit | rfl
  · exact h.digit c hdigit
  · exact h.semicolon

/-- A span is read back as it is written without colours, whatever follows it. -/
theorem unstyled_chars_append (h : Codes isCode) (palette : Palette) {s : Span}
    (hs : '\x1b' ∉ s.text) (rest : List Char) :
    unstyled isCode (s.chars palette true ++ rest) =
      s.chars palette false ++ unstyled isCode rest := by
  obtain ⟨style, text⟩ := s
  cases style with
  | none => exact unstyled_append_of_notMem hs rest
  | some style =>
      have hend : ∀ c ∈ "0".toList, isCode c = true := by
        intro c hc
        rw [List.mem_singleton.1 hc]
        exact h.digit '0' rfl
      show unstyled isCode
        (Span.escape (palette.codes style) ++ text ++ Span.escape "0" ++ rest) = _
      -- the sequence of the style goes, then the text stays, then the sequence at the end goes
      rw [List.append_assoc, List.append_assoc,
        unstyled_escape_append (isCode_of_mem_codes h palette style) h.terminator,
        unstyled_append_of_notMem hs, unstyled_escape_append hend h.terminator]
      rfl

/-- Spans without escape characters are read back as they are written without colours. -/
theorem unstyled_paint (h : Codes isCode) (palette : Palette) {spans : List Span}
    (hspans : ∀ s ∈ spans, '\x1b' ∉ s.text) :
    unstyled isCode (paint palette true spans) = paint palette false spans := by
  induction spans with
  | nil => rw [paint, List.flatMap_nil, unstyled, paint, List.flatMap_nil]
  | cons s spans ih =>
      rw [List.forall_mem_cons] at hspans
      rw [paint, List.flatMap_cons, unstyled_chars_append h palette hspans.1, ← paint,
        ih hspans.2]
      rfl

theorem mem_paint_false {palette : Palette} {c : Char} {spans : List Span}
    (h : c ∈ paint palette false spans) : ∃ s ∈ spans, c ∈ s.text := by
  obtain ⟨s, hs, hc⟩ := List.mem_flatMap.1 h
  rw [Source.chars_false] at hc
  exact ⟨s, hs, hc⟩

end

end TapeLang.Text

namespace TapeLang.Source

open TapeLang.Text

/-! ## The characters of an excerpt -/

theorem mem_of_mem_lines {c : Char} (source : List Char) :
    ∀ text ∈ lines source, c ∈ text → c ∈ source := by
  induction source using lines_induction with
  | last line hline =>
      rw [lines_of_notMem hline]
      split
      next => exact fun _ hmem => absurd hmem List.not_mem_nil
      next =>
        intro text hmem hc
        rwa [List.mem_singleton.1 hmem] at hc
  | more line rest hline ih =>
      rw [lines_append hline]
      intro text hmem hc
      rcases List.mem_cons.1 hmem with rfl | hmem
      · exact List.mem_append_left _ (mem_of_mem_withoutReturn hc)
      · exact List.mem_append_right _ (List.mem_cons_of_mem _ (ih text hmem hc))

theorem mem_of_mem_line {c : Char} {source : List Char} {number : Nat}
    (h : c ∈ line source number) : c ∈ source := by
  rw [line] at h
  cases hline : (lines source)[number - 1]? with
  | none =>
      rw [hline] at h
      exact absurd h List.not_mem_nil
  | some text =>
      rw [hline] at h
      exact mem_of_mem_lines source text (List.mem_of_getElem? hline) h

/-- Quoting brings in blanks at most. -/
theorem mem_of_mem_quotedSpans {c : Char} {text : List Char} {column : Nat} {s : Span}
    (hs : s ∈ quotedSpans text column) (hc : c ∈ s.text) : c = ' ' ∨ c ∈ text := by
  obtain ⟨⟨d, i⟩, hmem, rfl⟩ := List.mem_map.1 hs
  rw [text_quotedSpan, List.mem_singleton, quotedChar] at hc
  split at hc
  next => exact Or.inl hc
  next =>
    rw [hc]
    exact Or.inr (List.fst_mem_of_mem_zipIdx hmem)

/-- Where the source and its name have no escape character, the texts of an excerpt have none. -/
theorem escape_notMem_excerpt {source : List Char} {name : Option String}
    (hsource : '\x1b' ∉ source) (hname : ∀ n ∈ name, '\x1b' ∉ n.toList) (e : BracketError) :
    ∀ s ∈ excerpt source name e, '\x1b' ∉ s.text := by
  have hnumber : ∀ n : Nat, '\x1b' ∉ (toString n).toList := notMem_toString rfl
  have hblanks : ∀ n : Nat, '\x1b' ∉ ("".pushn ' ' n).toList := by
    intro n hmem
    rw [toList_pushn] at hmem
    exact absurd (List.eq_of_mem_replicate hmem) (by decide)
  have hmessage : '\x1b' ∉ e.message.toList := by
    rw [BracketError.message]
    cases e.bracket <;> decide
  have hgiven : '\x1b' ∉ (name.getD "<source>").toList := by
    cases name with
    | none => decide
    | some n => exact hname n rfl
  have hquoted : ∀ number column, ∀ s ∈ quotedSpans (line source number) column,
      '\x1b' ∉ s.text := by
    intro number column s hs hc
    rcases mem_of_mem_quotedSpans hs hc with hblank | hmem
    · cases hblank
    · exact hsource (mem_of_mem_line hmem)
  simp only [excerpt, List.forall_mem_append, List.forall_mem_cons]
  simp only [Span.plain, Span.styled, String.toList_append, List.mem_append, not_or, hnumber,
    hblanks, hmessage, hgiven]
  -- the quoted line apart, what is left are concrete texts
  simpa using hquoted _ _

/-- The colours of a palette change only the styling of an error. -/
theorem unstyled_renderErrorIn {isCode : Char → Bool} (hcodes : Codes isCode) (palette : Palette)
    {source : String} {name : Option String} (hsource : '\x1b' ∉ source.toList)
    (hname : ∀ n ∈ name, '\x1b' ∉ n.toList) (e : BracketError) :
    '\x1b' ∈ (renderErrorIn palette true source name e).toList ∧
      '\x1b' ∉ (renderErrorIn palette false source name e).toList ∧
      unstyled isCode (renderErrorIn palette true source name e).toList =
        (renderErrorIn palette false source name e).toList := by
  have hspans := escape_notMem_excerpt hsource hname e
  simp only [renderErrorIn, String.toList_ofList]
  refine ⟨List.mem_cons_self, ?_, unstyled_paint hcodes palette hspans⟩
  intro hmem
  obtain ⟨s, hs, hc⟩ := mem_paint_false hmem
  exact hspans s hs hc

/-- Where neither the source nor its name has an escape character, colours change only the styling
of an error: of any error, whether the source has it or not. The text in colours has sequences,
the one without has none, and deleting the sequences from the one gives the other. What else than
digits and semicolons counts as a code makes no difference, nor does it matter which digits and
semicolons the codes of the styles are. -/
theorem colours_only_style {isCode : Char → Bool} (hcodes : Codes isCode) (source : String)
    (name : Option String) (e : BracketError) (hsource : '\x1b' ∉ source.toList)
    (hname : ∀ n ∈ name, '\x1b' ∉ n.toList) :
    '\x1b' ∈ (renderError true source name e).toList ∧
      '\x1b' ∉ (renderError false source name e).toList ∧
      unstyled isCode (renderError true source name e).toList =
        (renderError false source name e).toList ∧
      ∀ palette : Palette,
        '\x1b' ∈ (renderErrorIn palette true source name e).toList ∧
          '\x1b' ∉ (renderErrorIn palette false source name e).toList ∧
          unstyled isCode (renderErrorIn palette true source name e).toList =
            (renderErrorIn palette false source name e).toList := by
  have hpalette := fun palette => unstyled_renderErrorIn hcodes palette hsource hname e
  obtain ⟨hcoloured, hplain, hunstyled⟩ := hpalette .standard
  exact ⟨hcoloured, hplain, hunstyled, hpalette⟩

/-- A closing bracket without a partner, among comments that look like the ends of escape
sequences. -/
def tails : String := "[0m] 1;31m]"

/-- The comments stay as they are behind the sequences that dim them, for a reader who takes digits
and semicolons as codes, and for one who takes everything up to the next `m`. -/
theorem colours_only_style_tails :
    parse tails = .error [⟨.closing, 10⟩] ∧
      renderError true tails (some "2m") ⟨.closing, 10⟩ =
        "\x1b[1;31merror\x1b[0m: \x1b[1mthis ] has no matching [\x1b[0m\n" ++
        " \x1b[1;34m-->\x1b[0m 2m:1:11\n" ++
        "  \x1b[1;34m|\x1b[0m\n" ++
        "\x1b[1;34m1\x1b[0m \x1b[1;34m|\x1b[0m [\x1b[2m0\x1b[0m\x1b[2mm\x1b[0m] " ++
        "\x1b[2m1\x1b[0m\x1b[2m;\x1b[0m\x1b[2m3\x1b[0m\x1b[2m1\x1b[0m\x1b[2mm\x1b[0m" ++
        "\x1b[1;91m]\x1b[0m\n" ++
        "  \x1b[1;34m|\x1b[0m           \x1b[1;36m^ here\x1b[0m\n" ∧
      ∀ isCode ∈ [fun c : Char => c.isDigit || c = ';', fun c : Char => c ≠ 'm'],
        unstyled isCode (renderError true tails (some "2m") ⟨.closing, 10⟩).toList =
          ("error: this ] has no matching [\n --> 2m:1:11\n  |\n" ++
            "1 | [0m] 1;31m]\n  |           ^ here\n").toList := by
  have hplain : renderError false tails (some "2m") ⟨.closing, 10⟩ =
      "error: this ] has no matching [\n --> 2m:1:11\n  |\n" ++
        "1 | [0m] 1;31m]\n  |           ^ here\n" := by decide +kernel
  have hcodes : ∀ isCode ∈ [fun c : Char => c.isDigit || c = ';', fun c : Char => c ≠ 'm'],
      Codes isCode := by
    simp only [List.forall_mem_cons]
    refine ⟨⟨?_, rfl, rfl⟩, ⟨?_, rfl, rfl⟩, fun _ hmem => absurd hmem List.not_mem_nil⟩
    · intro c hc
      rw [hc, Bool.true_or]
    · intro c hc
      refine decide_eq_true fun heq => ?_
      rw [heq] at hc
      cases hc
  refine ⟨by decide +kernel, by decide +kernel, fun isCode hmem => ?_⟩
  rw [← hplain]
  exact (colours_only_style (hcodes isCode hmem) tails (some "2m") ⟨.closing, 10⟩ (by decide)
    (by decide)).2.2.1

end TapeLang.Source
