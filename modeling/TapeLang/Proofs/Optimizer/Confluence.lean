import TapeLang.Proofs.Optimizer.Merging

/-!
# Merging and the order of joins

Merging is rewriting: an operation without effect is left out, or two neighbours become one
operation, anywhere in a program (`Joining`). The joins may be made in any order. Merging a program
is one such order (`reaches_mergeRuns`), and a single join does not change what merging makes of the
program (`Joining.mergeRuns_eq`). So a merged program that any series of joins leads to is what
merging returns (`eq_mergeRuns_of_reaches`), and a part of a program may be merged before the rest
(`mergeRuns_append`).

The argument is about an operation in front of a merged program. Two operations that can be joined
give the same result whether they are put there one after the other or as one operation
(`consFused_consFused`): joining is associative, and where the inner two cancel, the outer one meets
a neighbour that it cannot be joined with.
-/

set_option autoImplicit false

namespace TapeLang

open Relation (ReflTransGen)

namespace Op

variable {o o' joined : Op}

theorem isNoOp_iff : o.isNoOp = true ↔ o = .shift 0 ∨ ∃ offset, o = .add 0 offset := by
  cases o <;> simp [isNoOp]

theorem join?_assoc {last joined' : Op} (h : o.join? o' = some joined)
    (h' : o'.join? last = some joined') :
    ∃ all, o.join? joined' = some all ∧ joined.join? last = some all := by
  -- the operation in the middle is in both pairs, so all three are of one kind
  obtain ⟨a, b, rfl, rfl, rfl⟩ | ⟨a, b, i, rfl, rfl, rfl⟩ := join?_eq_some h
  · obtain ⟨b', c, hb, rfl, rfl⟩ | ⟨b', c, i, hb, -, -⟩ := join?_eq_some h'
    · cases hb
      exact ⟨.shift (a + b + c), by rw [join?, Int.add_assoc], rfl⟩
    · cases hb
  · obtain ⟨b', c, hb, -, -⟩ | ⟨b', c, j, hb, rfl, rfl⟩ := join?_eq_some h'
    · cases hb
    · cases hb
      refine ⟨.add (a + b + c) i, ?_, ?_⟩
      · rw [join?, if_pos rfl, Int8.add_assoc]
      · rw [join?, if_pos rfl]

/-- An operation without effect adds nothing to what follows it. -/
theorem eq_right_of_join? (h : o.join? o' = some joined) (ho : o.isNoOp = true) : joined = o' := by
  obtain ⟨a, b, rfl, rfl, rfl⟩ | ⟨a, b, i, rfl, rfl, rfl⟩ := join?_eq_some h
  · obtain rfl : a = 0 := by simpa [isNoOp] using ho
    rw [Int.zero_add]
  · obtain rfl : a = 0 := by simpa [isNoOp] using ho
    rw [Int8.zero_add]

theorem eq_left_of_join? (h : o.join? o' = some joined) (ho' : o'.isNoOp = true) : joined = o := by
  obtain ⟨a, b, rfl, rfl, rfl⟩ | ⟨a, b, i, rfl, rfl, rfl⟩ := join?_eq_some h
  · obtain rfl : b = 0 := by simpa [isNoOp] using ho'
    rw [Int.add_zero]
  · obtain rfl : b = 0 := by simpa [isNoOp] using ho'
    rw [Int8.add_zero]

/-- What can be joined with an operation can be joined with all that it has been joined with. -/
theorem isSome_join?_joined (h : o.join? o' = some joined) (first : Op) :
    (first.join? joined).isSome = (first.join? o).isSome := by
  obtain ⟨a, b, rfl, rfl, rfl⟩ | ⟨a, b, i, rfl, rfl, rfl⟩ := join?_eq_some h
  · cases first <;> rfl
  · cases first with
    | add c j => by_cases hj : j = i <;> simp [join?, hj]
    | shift c => rfl
    | input => rfl
    | output => rfl
    | setZero => rfl
    | multiply factors => rfl

end Op

namespace Program

/-- Two operations that can be joined are joined with the same operations. -/
theorem joins_of_join? {o o' joined : Op} (h : o.join? o' = some joined) (p : Program) :
    p.joins o = p.joins joined ∧ p.joins o' = p.joins joined := by
  obtain ⟨a, b, rfl, rfl, rfl⟩ | ⟨a, b, i, rfl, rfl, rfl⟩ := Op.join?_eq_some h
  · exact ⟨joins_shift _ _ p, joins_shift _ _ p⟩
  · exact ⟨joins_add _ _ i p, joins_add _ _ i p⟩

/-! ## An operation in front of a merged program -/

theorem consEffective_of_isNoOp {o : Op} (ho : o.isNoOp = true) (p : Program) :
    consEffective o p = p := by
  rw [consEffective, if_pos ho]

theorem consFused_of_join? {o first joined : Op} (h : o.join? first = some joined)
    (rest : Program) : consFused o (op first rest) = consEffective joined rest := by
  simp only [consFused, h]

theorem consFused_of_joins {o : Op} {p : Program} (h : p.joins o = false) :
    consFused o p = consEffective o p := by
  cases p with
  | done => rfl
  | loop body rest => rfl
  | op first rest =>
      have hnone : o.join? first = none := by simpa [joins] using h
      simp only [consFused, hnone]

/-- An operation can be joined with the first one of a program, or it comes before the program. -/
theorem joins_cases (o : Op) (p : Program) :
    (∃ first rest joined, p = op first rest ∧ o.join? first = some joined) ∨
      p.joins o = false := by
  cases p with
  | done => exact Or.inr rfl
  | loop body rest => exact Or.inr rfl
  | op first rest =>
      cases hj : o.join? first with
      | some joined => exact Or.inl ⟨first, rest, joined, rfl, hj⟩
      | none => exact Or.inr (by rw [joins, hj]; rfl)

variable {p q : Program}

theorem Merged.consEffective {o : Op} (h : p.Merged) (hjoins : p.joins o = false) :
    (consEffective o p).Merged := by
  cases hnoOp : o.isNoOp with
  | true => rwa [consEffective_of_isNoOp hnoOp]
  | false =>
      rw [(consEffective_eq_op_iff o p).2 hnoOp]
      exact ⟨hnoOp, hjoins, h⟩

theorem Merged.consFused (h : p.Merged) (o : Op) : (consFused o p).Merged := by
  obtain ⟨first, rest, joined, rfl, hj⟩ | hjoins := joins_cases o p
  · obtain ⟨-, hjoins, hrest⟩ := h
    rw [consFused_of_join? hj]
    -- the sum stands where the first operation stood, and meets the same neighbour
    apply hrest.consEffective
    rw [← (joins_of_join? hj rest).2]
    exact hjoins
  · rw [consFused_of_joins hjoins]
    exact h.consEffective hjoins

/-- What merging returns is merged. -/
theorem merged_mergeRuns (p : Program) : p.mergeRuns.Merged := by
  induction p with
  | done => exact trivial
  | op o rest ih => exact ih.consFused o
  | loop body rest ihbody ihrest => exact ⟨ihbody, ihrest⟩

theorem consFused_of_isNoOp {o : Op} (h : p.Merged) (ho : o.isNoOp = true) :
    consFused o p = p := by
  obtain ⟨first, rest, joined, rfl, hj⟩ | hjoins := joins_cases o p
  · rw [consFused_of_join? hj, Op.eq_right_of_join? hj ho]
    exact (consEffective_eq_op_iff first rest).2 h.1
  · rw [consFused_of_joins hjoins, consEffective_of_isNoOp ho]

/-- Two operations in front of a merged program, one after the other, are their sum in front of
it. -/
theorem consFused_consFused {o o' joined : Op} (h : p.Merged) (hj : o.join? o' = some joined) :
    consFused o (consFused o' p) = consFused joined p := by
  obtain ⟨first, rest, joined', rfl, hj'⟩ | hjoins := joins_cases o' p
  · obtain ⟨-, hrest, -⟩ := h
    obtain ⟨all, hall, hall'⟩ := Op.join?_assoc hj hj'
    rw [consFused_of_join? hj', consFused_of_join? hall']
    cases hnoOp : joined'.isNoOp with
    | true =>
        -- the inner two cancel, and the outer one cannot be joined with what comes next
        have houter : rest.joins o = false := by
          rw [(joins_of_join? hj rest).1, ← (joins_of_join? hj rest).2,
            (joins_of_join? hj' rest).1, ← (joins_of_join? hj' rest).2]
          exact hrest
        rw [consEffective_of_isNoOp hnoOp, consFused_of_joins houter,
          Op.eq_left_of_join? hall hnoOp]
    | false =>
        rw [(consEffective_eq_op_iff joined' rest).2 hnoOp, consFused_of_join? hall]
  · have hsum : p.joins joined = false := by
      rw [← (joins_of_join? hj p).2]
      exact hjoins
    rw [consFused_of_joins hjoins, consFused_of_joins hsum]
    cases hnoOp : o'.isNoOp with
    | true =>
        obtain rfl := Op.eq_left_of_join? hj hnoOp
        rw [consEffective_of_isNoOp hnoOp, consFused_of_joins hsum]
    | false =>
        rw [(consEffective_eq_op_iff o' p).2 hnoOp, consFused_of_join? hj]

/-! ## Joins anywhere in a program -/

/-- One program becomes another by one join: somewhere in it, a shift or an addition by nothing is
left out, or two adjacent shifts, or two adjacent additions at one offset, become one. -/
inductive Joining : Program → Program → Prop
  | shift_zero (rest : Program) : Joining (op (.shift 0) rest) rest
  | add_zero (offset : Int) (rest : Program) : Joining (op (.add 0 offset) rest) rest
  | shifts (a b : Int) (rest : Program) :
      Joining (op (.shift a) (op (.shift b) rest)) (op (.shift (a + b)) rest)
  | adds (a b : Int8) (offset : Int) (rest : Program) :
      Joining (op (.add a offset) (op (.add b offset) rest)) (op (.add (a + b) offset) rest)
  | op (o : Op) {p q : Program} (h : Joining p q) : Joining (.op o p) (.op o q)
  | body (rest : Program) {p q : Program} (h : Joining p q) : Joining (loop p rest) (loop q rest)
  | rest (body : Program) {p q : Program} (h : Joining p q) : Joining (loop body p) (loop body q)

namespace Joining

theorem of_isNoOp {o : Op} (h : o.isNoOp = true) (rest : Program) : Joining (.op o rest) rest := by
  obtain rfl | ⟨offset, rfl⟩ := Op.isNoOp_iff.1 h
  · exact shift_zero rest
  · exact add_zero offset rest

theorem of_join? {o o' joined : Op} (h : o.join? o' = some joined) (rest : Program) :
    Joining (.op o (.op o' rest)) (.op joined rest) := by
  obtain ⟨a, b, rfl, rfl, rfl⟩ | ⟨a, b, i, rfl, rfl, rfl⟩ := Op.join?_eq_some h
  · exact shifts a b rest
  · exact adds a b i rest

/-- A join does not change what merging returns. -/
theorem mergeRuns_eq (h : Joining p q) : p.mergeRuns = q.mergeRuns := by
  -- what follows the join is merged first, so the join is made in front of a merged program
  induction h with
  | shift_zero rest => exact consFused_of_isNoOp (merged_mergeRuns rest) rfl
  | add_zero offset rest => exact consFused_of_isNoOp (merged_mergeRuns rest) rfl
  | shifts a b rest => exact consFused_consFused (merged_mergeRuns rest) rfl
  | adds a b offset rest =>
      apply consFused_consFused (merged_mergeRuns rest)
      rw [Op.join?, if_pos rfl]
  | op o _ ih => rw [mergeRuns_op, mergeRuns_op, ih]
  | body rest _ ih => rw [mergeRuns_loop, mergeRuns_loop, ih]
  | rest body _ ih => rw [mergeRuns_loop, mergeRuns_loop, ih]

theorem append_right (h : Joining p q) (r : Program) : Joining (p ++ r) (q ++ r) := by
  induction h with
  | shift_zero rest => exact shift_zero (rest ++ r)
  | add_zero offset rest => exact add_zero offset (rest ++ r)
  | shifts a b rest => exact shifts a b (rest ++ r)
  | adds a b offset rest => exact adds a b offset (rest ++ r)
  | op o _ ih => exact op o ih
  | body rest h _ => exact body (rest ++ r) h
  | rest body _ ih => exact rest body ih

theorem append_left (r : Program) (h : Joining p q) : Joining (r ++ p) (r ++ q) := by
  induction r with
  | done => exact h
  | op o r ih => exact op o ih
  | loop body r _ ih => exact rest body ih

end Joining

theorem mergeRuns_eq_of_reaches (h : ReflTransGen Joining p q) : p.mergeRuns = q.mergeRuns := by
  induction h with
  | refl => rfl
  | tail _ hstep ih => exact ih.trans hstep.mergeRuns_eq

theorem reaches_consEffective (o : Op) (p : Program) :
    ReflTransGen Joining (op o p) (consEffective o p) := by
  cases hnoOp : o.isNoOp with
  | true =>
      rw [consEffective_of_isNoOp hnoOp]
      exact .single (.of_isNoOp hnoOp p)
  | false =>
      rw [(consEffective_eq_op_iff o p).2 hnoOp]

theorem reaches_consFused (o : Op) (p : Program) :
    ReflTransGen Joining (op o p) (consFused o p) := by
  obtain ⟨first, rest, joined, rfl, hj⟩ | hjoins := joins_cases o p
  · rw [consFused_of_join? hj]
    exact .head (.of_join? hj rest) (reaches_consEffective joined rest)
  · rw [consFused_of_joins hjoins]
    exact reaches_consEffective o p

/-- Merging is a series of joins. -/
theorem reaches_mergeRuns (p : Program) : ReflTransGen Joining p p.mergeRuns := by
  induction p with
  | done => exact .refl
  | op o rest ih =>
      have hrest := ih.lift (op o) fun _ _ => Joining.op o
      exact hrest.trans (reaches_consFused o rest.mergeRuns)
  | loop body rest ihbody ihrest =>
      -- the joins in the body come first, those after the loop follow
      have hbody := ihbody.lift (loop · rest) fun _ _ => Joining.body rest
      have hrest := ihrest.lift (loop body.mergeRuns) fun _ _ => Joining.rest body.mergeRuns
      exact hbody.trans hrest

/-- Whatever the order of the joins, the merged program they end in is the same. -/
theorem eq_mergeRuns_of_reaches (h : ReflTransGen Joining p q) (hq : q.Merged) :
    q = p.mergeRuns := by
  rw [mergeRuns_eq_of_reaches h]
  exact ((mergeRuns_eq_iff q).2 hq).symm

/-- Two parts of a program may be merged before the whole. -/
theorem mergeRuns_append (p q : Program) :
    (p ++ q).mergeRuns = (p.mergeRuns ++ q.mergeRuns).mergeRuns := by
  have hp := (reaches_mergeRuns p).lift (· ++ q) fun _ _ h => Joining.append_right h q
  have hq := (reaches_mergeRuns q).lift (p.mergeRuns ++ ·) fun _ _ => Joining.append_left p.mergeRuns
  exact mergeRuns_eq_of_reaches (hp.trans hq)

end Program

end TapeLang
