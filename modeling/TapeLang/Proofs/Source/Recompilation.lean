import TapeLang.Proofs.Optimizer.Merging
import TapeLang.Proofs.Optimizer.Recognition
import TapeLang.Proofs.Source.Moves

/-!
# Optimised programs survive their text

If a program that the optimiser has made of a source text is left as it is by a round, the text of
the program is optimised to the same program again (`optimize_of_print`).

The text spells the operations of the program out. Merging joins the single moves and increments
again and leaves a program that differs from the original in its loops only: one stands for each
`setZero` and for each `multiply` (`mergeRuns_spelled`). The two passes that recognise loops put
these operations back (`refold`), and the last two passes have nothing to do. A `multiply` without
offsets is the exception: it is written as a loop that is recognised as a `setZero`.
-/

set_option autoImplicit false

namespace TapeLang

/-! ## The loops that stand for operations -/

/-- The walk of a multiply loop, merged: from the cell `here` over the entries of a table and back
to the cell zero. -/
def tourBody (here : Int) : List (Int × Int8) → Program
  | [] => .op (.shift (-here)) .done
  | (offset, amount) :: rest =>
      .op (.shift (offset - here)) (.op (.add amount 0) (tourBody offset rest))

/-- The merged body of the loop that stands for a multiplication. -/
def roundBody (factors : Factors) : Program := .op (.add (-1) 0) (tourBody 0 factors.entries)

/-- The merged body of the loop that stands for a `setZero`. -/
def Op.clearBody? : Op → Option Program
  | .setZero => some (.op (.add (-1) 0) .done)
  | _ => none

/-- The merged body of the loop that stands for a multiplication. -/
def Op.transferBody? : Op → Option Program
  | .multiply factors => some (roundBody factors)
  | _ => none

/-- A multiplication that has an offset, or any other operation. -/
def Op.hasTargets : Op → Bool
  | .multiply factors => factors.entries ≠ []
  | _ => true

/-- A multiplication whose offsets and factors are not zero, or any other operation. -/
def Op.isProper : Op → Bool
  | .multiply factors => factors.entries.all fun e => e.1 ≠ 0 && e.2 ≠ 0
  | _ => true

namespace Program

theorem recogniseLoops_tourBody (recognise : Program → Option Op) (entries : List (Int × Int8)) :
    ∀ here, (tourBody here entries).recogniseLoops recognise = tourBody here entries := by
  induction entries with
  | nil => exact fun _ => rfl
  | cons e rest ih =>
      intro here
      rw [tourBody, recogniseLoops, recogniseLoops, ih]

theorem expand_clearBody?_tourBody (entries : List (Int × Int8)) :
    ∀ here, (tourBody here entries).expand Op.clearBody? = tourBody here entries := by
  induction entries with
  | nil => exact fun _ => rfl
  | cons e rest ih =>
      intro here
      rw [tourBody, expand_op_of_none rfl, expand_op_of_none rfl, ih]

/-! ## Recognising the loops -/

/-- What a tour adds to the totals. -/
theorem tally?_tourBody (entries : List (Int × Int8)) : ∀ (here : Int) (totals : Factors),
    (tourBody here entries).tally? here totals =
      some (0, entries.foldl (fun t e => t.bump e.1 e.2) totals) := by
  induction entries with
  | nil =>
      intro here totals
      rw [tourBody, tally?, Int.add_right_neg]
      rfl
  | cons e rest ih =>
      intro here totals
      obtain ⟨offset, amount⟩ := e
      have hthere : here + (offset - here) = offset := by omega
      rw [tourBody, tally?, tally?, hthere, Int.add_zero, ih, List.foldl_cons]

/-- Each entry is added once, for no offset stands twice in a table. -/
theorem get?_foldl_bump (entries : List (Int × Int8)) : ∀ (totals : Factors) (k : Int),
    entries.Pairwise (fun a b => a.1 < b.1) →
      (entries.foldl (fun t e => t.bump e.1 e.2) totals).get? k =
        match entries.lookup k with
        | some amount => some ((totals.get? k).getD 0 + amount)
        | none => totals.get? k := by
  induction entries with
  | nil => exact fun _ _ _ => rfl
  | cons e rest ih =>
      intro totals k hascending
      obtain ⟨offset, amount⟩ := e
      obtain ⟨hfirst, hrest⟩ := List.pairwise_cons.1 hascending
      rw [List.foldl_cons, ih _ k hrest, Factors.get?_bump, List.lookup_cons]
      by_cases hk : k = offset
      · subst hk
        rw [Factors.lookup_eq_none_of_lt hfirst]
        simp
      · have hne : (k == offset) = false := by simpa using hk
        rw [hne, if_neg hk]

/-- The loop that stands for a multiplication is recognised as this multiplication. -/
theorem factors?_roundBody {factors : Factors} (h : (Op.multiply factors).isProper = true) :
    (roundBody factors).factors? = some factors := by
  have hproper : ∀ k v, factors.get? k = some v → k ≠ 0 ∧ v ≠ 0 := by
    intro k v hv
    have hentry := List.all_eq_true.1 h _ ((Factors.mem_entries_iff factors k v).2 hv)
    simpa using hentry
  have htotals : ∀ k, (factors.entries.foldl (fun t e => t.bump e.1 e.2)
      (Factors.empty.bump 0 (-1))).get? k =
        if k = 0 then some (-1) else factors.get? k := by
    intro k
    rw [get?_foldl_bump _ _ _ factors.ascending, Factors.get?_bump, Factors.get?_empty]
    change (match factors.get? k with | some amount => _ | none => _) = _
    cases hk : factors.get? k with
    | none =>
        by_cases hzero : k = 0
        · simp [hzero]
        · simp [hzero]
    | some v => simp [(hproper k v hk).1]
  have htally : (roundBody factors).tally? 0 .empty = some (0,
      factors.entries.foldl (fun t e => t.bump e.1 e.2) (Factors.empty.bump 0 (-1))) := by
    rw [roundBody, tally?, Int.add_zero, tally?_tourBody]
  refine factors?_eq_some_iff.2 ⟨_, htally, ?_, ?_⟩
  · rw [htotals, if_pos rfl]
  · apply Factors.ext_get?
    intro k
    rw [Factors.get?_filter, htotals]
    by_cases hzero : k = 0
    · have hnone : factors.get? k = none := by
        apply Option.eq_none_iff_forall_ne_some.2
        exact fun v hv => (hproper k v hv).1 hzero
      rw [hnone, hzero]
      rfl
    · rw [if_neg hzero]
      cases hk : factors.get? k with
      | none => rfl
      | some v => simp [Option.filter, hzero, (hproper k v hk).2]

/-- The loops of multiplications change nothing about which bodies clear the current cell. -/
theorem isClearBody_expand (p : Program) :
    (p.expand Op.transferBody?).isClearBody = p.isClearBody := by
  cases p with
  | done => rfl
  | loop body rest => rfl
  | op o rest =>
      cases o with
      | multiply factors => rfl
      | shift amount => rfl
      | input => rfl
      | output => rfl
      | setZero => rfl
      | add amount offset =>
          rw [expand_op_of_none rfl]
          cases rest with
          | done => rfl
          | loop body rest => rfl
          | op o rest =>
              cases hbody : o.transferBody? with
              | none => rw [expand_op_of_none hbody]; rfl
              | some body => rw [expand_op_of_some hbody]; rfl

/-- If no loop of a program clears the current cell, the loops that stand for its multiplications do
not either. -/
theorem unrecognised_expand {p : Program} (htargets : p.allOps Op.hasTargets = true)
    (hp : p.Unrecognised clear?) : (p.expand Op.transferBody?).Unrecognised clear? := by
  induction p with
  | done => trivial
  | loop body rest ihbody ihrest =>
      rw [allOps_loop] at htargets
      obtain ⟨hnone, hbody, hrest⟩ := hp
      refine ⟨?_, ihbody htargets.1 hbody, ihrest htargets.2 hrest⟩
      rwa [clear?, isClearBody_expand]
  | op o rest ih =>
      rw [allOps_op] at htargets
      have hrest := ih htargets.2 hp
      cases o with
      | multiply factors =>
          refine ⟨?_, (recogniseLoops_eq_iff _).1 ?_, hrest⟩
          · -- there is a walk after the decrement
            cases hentries : factors.entries with
            | nil => simp [Op.hasTargets, hentries] at htargets
            | cons e entries => rw [roundBody, hentries]; rfl
          · rw [roundBody, recogniseLoops, recogniseLoops_tourBody]
      | shift amount => exact hrest
      | add amount offset => exact hrest
      | input => exact hrest
      | output => exact hrest
      | setZero => exact hrest

/-! ## Merging the text -/

theorem mergeRuns_tourOps (entries : List (Int × Int8)) : ∀ {here : Int},
    (here ≠ 0 ∨ entries ≠ []) → (∀ e ∈ entries, e.1 ≠ here ∧ e.1 ≠ 0 ∧ e.2 ≠ 0) →
    entries.Pairwise (fun a b => a.1 < b.1) →
      (sequence (tourOps here entries) done).mergeRuns = tourBody here entries := by
  induction entries with
  | nil =>
      intro here hne _ _
      exact mergeRuns_moveOps (by simpa using hne) rfl
  | cons e rest ih =>
      intro here _ hentries hascending
      obtain ⟨offset, amount⟩ := e
      obtain ⟨hhere, hoffset, hamount⟩ := hentries _ List.mem_cons_self
      obtain ⟨hfirst, hrest⟩ := List.pairwise_cons.1 hascending
      have htail : (sequence (tourOps offset rest) done).mergeRuns = tourBody offset rest := by
        apply ih (Or.inl hoffset) ?_ hrest
        intro e he
        exact ⟨Int.ne_of_gt (hfirst e he), (hentries e (List.mem_cons_of_mem _ he)).2⟩
      have hamounts :
          (sequence (amountOps amount) (sequence (tourOps offset rest) done)).mergeRuns =
            op (.add amount 0) (tourBody offset rest) := by
        rw [mergeRuns_amountOps hamount, htail]
        rw [htail]
        cases rest <;> rfl
      rw [tourOps, sequence_append, sequence_append, tourBody, ← hamounts]
      apply mergeRuns_moveOps
      · show offset - here ≠ 0
        have : offset ≠ here := hhere
        omega
      · rw [hamounts]
        rfl

theorem mergeRuns_roundOps {factors : Factors} (htargets : (Op.multiply factors).hasTargets = true)
    (hproper : (Op.multiply factors).isProper = true) :
    (sequence (roundOps factors.entries) done).mergeRuns = roundBody factors := by
  have hentries : ∀ e ∈ factors.entries, e.1 ≠ 0 ∧ e.1 ≠ 0 ∧ e.2 ≠ 0 := by
    intro e he
    have hentry := List.all_eq_true.1 hproper e he
    simp only [ne_eq, decide_not, Bool.and_eq_true, Bool.not_eq_eq_eq_not, Bool.not_true,
      decide_eq_false_iff_not] at hentry
    exact ⟨hentry.1, hentry.1, hentry.2⟩
  rw [roundOps, sequence_cons, mergeRuns_op,
    mergeRuns_tourOps _ (Or.inr (by simpa [Op.hasTargets] using htargets)) hentries
      factors.ascending, roundBody, consFused_eq_op_iff]
  refine ⟨rfl, ?_⟩
  cases factors.entries <;> rfl

/-- What cannot be joined with the beginning of a program cannot be joined with it when loops stand
for some of the operations. -/
theorem joins_expand {f : Op → Option Program} {o : Op} {p : Program} (h : p.joins o = false) :
    (p.expand f).joins o = false := by
  cases p with
  | done => rfl
  | loop body rest => rfl
  | op first rest =>
      cases hbody : f first with
      | none => rwa [expand_op_of_none hbody]
      | some body => rw [expand_op_of_some hbody]; rfl

/-- The program that merging makes of the text: loops stand for the operations that have no
character. -/
def opened (p : Program) : Program := (p.expand Op.transferBody?).expand Op.clearBody?

theorem mergeRuns_spelled {p : Program} (hmerged : p.Merged)
    (hadds : p.allOps Op.addsHere = true) (htargets : p.allOps Op.hasTargets = true)
    (hproper : p.allOps Op.isProper = true) : p.spelled.mergeRuns = p.opened := by
  induction p with
  | done => rfl
  | loop body rest ihbody ihrest =>
      rw [allOps_loop] at hadds htargets hproper
      rw [spelled, mergeRuns_loop, ihbody hmerged.1 hadds.1 htargets.1 hproper.1,
        ihrest hmerged.2 hadds.2 htargets.2 hproper.2]
      rfl
  | op o rest ih =>
      rw [allOps_op] at hadds htargets hproper
      obtain ⟨hnoOp, hjoins, hrest⟩ := hmerged
      have hrest := ih hrest hadds.2 htargets.2 hproper.2
      have hopened : rest.opened.joins o = false := joins_expand (joins_expand hjoins)
      rw [← hrest] at hopened
      cases o with
      | shift amount =>
          rw [spelled, Op.spelled, mergeRuns_moveOps (by simpa [Op.isNoOp] using hnoOp) hopened,
            hrest]
          rfl
      | add amount offset =>
          obtain rfl : offset = 0 := by simpa [Op.addsHere] using hadds.1
          have hspelled : moveOps 0 ++ amountOps amount ++ moveOps (-0) = amountOps amount := by
            simp [moveOps]
          rw [spelled, Op.spelled, hspelled,
            mergeRuns_amountOps (by simpa [Op.isNoOp] using hnoOp) hopened, hrest]
          rfl
      | input =>
          rw [spelled, Op.spelled, mergeRuns_op, (consFused_eq_op_iff _ _).2 ⟨rfl, hopened⟩, hrest]
          rfl
      | output =>
          rw [spelled, Op.spelled, mergeRuns_op, (consFused_eq_op_iff _ _).2 ⟨rfl, hopened⟩, hrest]
          rfl
      | setZero =>
          rw [spelled, Op.spelled, mergeRuns_loop, hrest]
          rfl
      | multiply factors =>
          -- the body of the loop for a multiplication holds no operation that is expanded again
          have hbody : (roundBody factors).expand Op.clearBody? = roundBody factors := by
            rw [roundBody, expand_op_of_none rfl, expand_clearBody?_tourBody]
          rw [spelled, Op.spelled, mergeRuns_loop, hrest, mergeRuns_roundOps htargets.1 hproper.1]
          exact congrArg (loop · rest.opened) hbody.symm

/-! ## Optimising the text -/

/-- A program on which merging and the recognition of loops have nothing to do, and that these
passes can make. -/
structure Folded (p : Program) : Prop where
  merged : p.mergeRuns = p
  cleared : p.clearLoops = p
  multiplied : p.multiplyLoops = p
  addsHere : p.allOps Op.addsHere = true
  hasTargets : p.allOps Op.hasTargets = true
  isProper : p.allOps Op.isProper = true

/-- The first three passes make the program of its text again. -/
theorem Folded.refold {p : Program} (h : p.Folded) :
    p.spelled.mergeRuns.clearLoops.multiplyLoops = p := by
  have hcleared : p.Unrecognised clear? := by
    rw [← recogniseLoops_eq_iff, ← clearLoops_eq]
    exact h.cleared
  have hmultiplied : p.Unrecognised transfer? := by
    rw [← recogniseLoops_eq_iff, ← multiplyLoops_eq]
    exact h.multiplied
  have hclear : p.opened.clearLoops = p.expand Op.transferBody? := by
    rw [clearLoops_eq]
    apply recogniseLoops_expand (fun _ => true) ?_ (allOps_of_forall (fun _ => rfl) _)
      (unrecognised_expand h.hasTargets hcleared)
    intro o body _ hbody
    cases o <;> cases hbody
    exact ⟨rfl, rfl⟩
  have hmultiply : (p.expand Op.transferBody?).multiplyLoops = p := by
    rw [multiplyLoops_eq]
    apply recogniseLoops_expand Op.isProper ?_ h.isProper hmultiplied
    intro o body hproper hbody
    cases o <;> cases hbody
    next factors =>
      refine ⟨?_, ?_⟩
      · rw [roundBody, recogniseLoops, recogniseLoops_tourBody]
      · rw [transfer?, factors?_roundBody hproper]
        rfl
  rw [mergeRuns_spelled ((mergeRuns_eq_iff p).1 h.merged) h.addsHere h.hasTargets h.isProper,
    hclear, hmultiply]

end Program

/-- The passes bring in no multiplication that is not proper. -/
theorem admits_isProper : Program.Admits Op.isProper := by
  refine ⟨?_, rfl, ?_⟩
  · intro o o' joined hj _ _
    rcases Op.join?_eq_some hj with ⟨a, b, -, -, rfl⟩ | ⟨a, b, i, -, -, rfl⟩ <;> rfl
  · intro factors h
    apply List.all_eq_true.2
    intro e he
    have hentry := h e.1 e.2 ((Factors.mem_entries_iff factors _ _).1 he)
    simpa using hentry

/-- A source text has no multiplications. -/
theorem isProper_of_parse {source : String} {p : Program} (h : Source.parse source = .ok p) :
    p.allOps Op.isProper = true := by
  apply Source.allOps_parse ?_ h
  intro c o ho
  simp only [Op.ofChar?] at ho
  split at ho <;> cases ho <;> rfl

/-- Every multiplication that the optimiser makes of a source text is proper. -/
theorem isProper_optimize_parse {source : String} {F : PassSet} {p q : Program}
    {log : List Event} (hp : Source.parse source = .ok p) (hq : F.optimize p = .ok (q, log)) :
    q.allOps Op.isProper = true :=
  Program.allOps_optimize admits_isProper hq (isProper_of_parse hp)

/-- One round on the text of a program that every pass leaves as it is makes the program again. -/
theorem round_spelled {q : Program} {bound : Nat} (hbound : (bound : Int) ≤ Word.greatest)
    (hwithin : q.Within bound) (hproper : q.allOps Op.isProper = true)
    (htargets : q.allOps Op.hasTargets = true) (hsettled : PassSet.all.Settled q) :
    ∃ log, PassSet.all.round q.spelled = .ok (q, log) := by
  have hfolded : q.Folded :=
    { merged := hsettled.apply_eq .merge rfl
      cleared := hsettled.apply_eq .clear rfl
      multiplied := hsettled.apply_eq .multiply rfl
      addsHere := hwithin.addsHere
      hasTargets := htargets
      isProper := hproper }
  have hdead : q.removeDeadStores = q := hsettled.apply_eq .dead rfl
  have hzero : q.removeZeroLoops = q := hsettled.apply_eq .zero rfl
  obtain ⟨log, hround⟩ := Program.exists_round_all hbound hwithin.spelled
  rw [hfolded.refold, hdead, hzero] at hround
  exact ⟨log, hround⟩

/-- The optimiser returns a program for every source text whose length fits in a word. If a round
with all passes leaves this program as it is, and each of its multiplications has an offset, then
its text is written and read again, and optimised to the same program. -/
theorem optimize_of_print {source : String} {p : Program}
    (hlength : (source.length : Int) ≤ Word.greatest) (hp : Source.parse source = .ok p) :
    ∃ q log, PassSet.all.optimize p = .ok (q, log) ∧
      ((∃ log', PassSet.all.round q = .ok (q, log')) → q.allOps Op.hasTargets = true →
        ∃ text r log', q.print = .ok text ∧ Source.parse text = .ok r ∧
          PassSet.all.optimize r = .ok (q, log')) := by
  obtain ⟨q, log, hq, hqwithin⟩ :=
    Program.exists_optimize hlength PassSet.all (within_of_length hp)
  refine ⟨q, log, hq, fun hsettled htargets => ?_⟩
  obtain ⟨log₁, hround⟩ := round_spelled hlength hqwithin (isProper_optimize_parse hp hq) htargets
    hsettled
  obtain ⟨log₂, hoptimize⟩ := PassSet.Settled.optimize_of_round hsettled hround
  exact ⟨q.source, q.spelled, log₂, print_of_within hlength hqwithin, Source.parse_source q,
    hoptimize⟩

/-- The loop of the source text visits its cells in another order than the text of the
multiplication that it is optimised to. -/
theorem optimize_of_print_reordered :
    ∃ p q log log' log'' r,
      Source.parse ",[->>-<<<++>]>[-]+." = .ok p ∧
      q = .op .input (.op (.multiply (Factors.ofList [(2, -1), (-1, 2)]))
        (.op (.shift 1) (.op .setZero (.op (.add 1 0) (.op .output .done))))) ∧
      PassSet.all.optimize p = .ok (q, log) ∧ PassSet.all.round q = .ok (q, log') ∧
      q.print = .ok ",[-<++>>>-<<]>[-]+." ∧ Source.parse ",[-<++>>>-<<]>[-]+." = .ok r ∧
      r ≠ p ∧ PassSet.all.optimize r = .ok (q, log'') := by
  have hparse : Source.parse ",[->>-<<<++>]>[-]+." = .ok (.op .input (.loop (.op (.add (-1) 0)
      (.op (.shift 1) (.op (.shift 1) (.op (.add (-1) 0) (.op (.shift (-1)) (.op (.shift (-1))
      (.op (.shift (-1)) (.op (.add 1 0) (.op (.add 1 0) (.op (.shift 1) .done))))))))))
      (.op (.shift 1) (.loop (.op (.add (-1) 0) .done) (.op (.add 1 0) (.op .output .done)))))) :=
    rfl
  obtain ⟨q, log, hoptimize, hback⟩ := optimize_of_print (by decide) hparse
  have hcomputed := hoptimize
  cases hcomputed
  obtain ⟨text, r, log'', hprint, htext, hagain⟩ := hback ⟨_, rfl⟩ (by decide)
  cases hprint
  cases htext
  exact ⟨_, _, _, _, log'', _, hparse, rfl, hoptimize, rfl, rfl, rfl, by decide, hagain⟩

end TapeLang
