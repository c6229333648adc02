import TapeLang.Proofs.Optimizer.Confluence
import TapeLang.Proofs.Optimizer.Inventory

/-!
# Merging from left to right

The sums of shifts that merging forms are those of a walk from left to right, with the operations
kept so far as a stack, nearest first. The walk makes joins only (`reaches_pushFused`), and the
operations on the stack are a merged program (`merged_pushFused`). So the walk ends in what merging
returns.

The pass fails if one of the sums leaves the word. In a merged program no sum is formed
(`scanFits_of_merged`), and the shifts of what merging returns fit if those of the program do
(`shiftFits_mergeRuns`). Where two merged programs meet, neighbours cancel until one pair does not.
The sum of that pair is an operation of the result, so it fits if those of the result do
(`scanFits_append`).
-/

set_option autoImplicit false

namespace TapeLang

open Relation (ReflTransGen)

/-- A shift by a distance that a word holds, or any other operation. -/
def Op.shiftFits : Op → Bool
  | .shift amount => Word.fits amount
  | _ => true

theorem Op.shiftFits_of_isNoOp {o : Op} (h : o.isNoOp = true) : o.shiftFits = true := by
  obtain rfl | ⟨offset, rfl⟩ := isNoOp_iff.1 h <;> rfl

namespace Program

/-- The operations kept to the left of a program, nearest first, back in front of it. -/
def unstack : List Op → Program → Program
  | [], p => p
  | o :: left, p => unstack left (op o p)

/-- Every sum of shifts that merging forms fits in a word, in the loops of a sequence as well. -/
def scanFits (left : List Op) : Program → Bool
  | done => true
  | op o rest => joinFits left o && scanFits (pushFused left o) rest
  | loop body rest => scanFits [] body && scanFits [] rest

theorem scanFits_eq (p : Program) : ∀ left : List Op, scanFits left p =
    ((visitedBodies fuse p).all (fuseFits []) && fuseFits left (mapBodies fuse p)) := by
  induction p with
  | done => exact fun _ => rfl
  | op o rest ih =>
      intro left
      rw [scanFits, ih, visitedBodies_op, mapBodies_op, fuseFits, Bool.and_left_comm]
  | loop body rest ihbody ihrest =>
      intro left
      rw [scanFits, ihbody, ihrest, visitedBodies_loop, mapBodies_loop, fuseFits, List.all_append,
        List.all_cons, Bool.and_assoc, Bool.and_assoc, Bool.and_assoc]

theorem mergeRunsFits_eq (p : Program) : p.mergeRunsFits = scanFits [] p := by
  rw [mergeRunsFits, visited_eq, List.all_append, scanFits_eq]
  simp

theorem joinFits_iff (left : List Op) (o : Op) :
    joinFits left o = true ↔
      ∀ last ∈ left.head?, ∀ joined, last.join? o = some joined → joined.shiftFits = true := by
  constructor
  · intro h last hlast joined hj
    obtain ⟨a, b, rfl, rfl, rfl⟩ | ⟨a, b, i, rfl, rfl, rfl⟩ := Op.join?_eq_some hj
    · obtain ⟨left', rfl⟩ := List.head?_eq_some_iff.1 hlast
      exact h
    · rfl
  · intro h
    rw [joinFits.eq_def]
    split
    next a left b => exact h (.shift a) rfl (.shift (a + b)) rfl
    next => rfl

/-- An operation on top of those that are kept, unless it has no effect. -/
def keep (o : Op) (left : List Op) : List Op := if o.isNoOp then left else o :: left

theorem forall_mem_keep {P : Op → Prop} {o : Op} {left : List Op} (ho : P o)
    (hleft : ∀ o' ∈ left, P o') : ∀ o' ∈ keep o left, P o' := by
  rw [keep]
  split
  next => exact hleft
  next => exact List.forall_mem_cons.2 ⟨ho, hleft⟩

/-- The next operation is joined with the nearest one, or it comes after it. -/
theorem pushFused_cases (left : List Op) (o : Op) :
    (∃ last left' joined, left = last :: left' ∧ last.join? o = some joined ∧
        pushFused left o = keep joined left') ∨
      (∀ last ∈ left.head?, last.join? o = none) ∧ pushFused left o = keep o left := by
  cases left with
  | nil => exact Or.inr ⟨fun last hlast => absurd hlast (Option.not_mem_none last), rfl⟩
  | cons last left' =>
      cases hj : last.join? o with
      | some joined => exact Or.inl ⟨last, left', joined, rfl, hj, by simp only [pushFused, hj, keep]⟩
      | none =>
          refine Or.inr ⟨?_, by simp only [pushFused, hj, keep]⟩
          intro last' hlast
          obtain rfl := Option.some.inj hlast
          exact hj

section Unstack

variable {left : List Op} {p q : Program}

theorem allOps_unstack {test : Op → Bool} : (unstack left p).allOps test = true ↔
    (∀ o ∈ left, test o = true) ∧ p.allOps test = true := by
  induction left generalizing p with
  | nil => simp [unstack]
  | cons o left ih =>
      rw [unstack, ih, allOps_op, List.forall_mem_cons, ← and_assoc, and_comm (a := test o = true)]

theorem Joining.unstack (h : Joining p q) (left : List Op) :
    Joining (unstack left p) (unstack left q) := by
  induction left generalizing p q with
  | nil => exact h
  | cons o left ih => exact ih (.op o h)

theorem reaches_keep (o : Op) (left : List Op) (p : Program) :
    ReflTransGen Joining (unstack left (op o p)) (unstack (keep o left) p) := by
  rw [keep]
  split
  next h => exact .single ((Joining.of_isNoOp h p).unstack left)
  next => exact .refl

/-- A step to the right makes joins only. -/
theorem reaches_pushFused (left : List Op) (o : Op) (p : Program) :
    ReflTransGen Joining (unstack left (op o p)) (unstack (pushFused left o) p) := by
  obtain ⟨last, left', joined, rfl, hj, heq⟩ | ⟨-, heq⟩ := pushFused_cases left o
  · rw [heq]
    exact .head ((Joining.of_join? hj p).unstack left') (reaches_keep joined left' p)
  · rw [heq]
    exact reaches_keep o left p

theorem mergeRuns_unstack_pushFused (left : List Op) (o : Op) (p : Program) :
    (unstack left (op o p)).mergeRuns = (unstack (pushFused left o) p).mergeRuns :=
  mergeRuns_eq_of_reaches (reaches_pushFused left o p)

theorem merged_of_unstack (h : (unstack left p).Merged) : p.Merged := by
  induction left generalizing p with
  | nil => exact h
  | cons o left ih => exact (ih h).2.2

/-- Another merged program may follow the operations that are kept, if it joins no more than the one
that follows them. -/
theorem merged_unstack (h : (unstack left p).Merged)
    (hjoins : ∀ o, p.joins o = false → q.joins o = false) (hq : q.Merged) :
    (unstack left q).Merged := by
  induction left generalizing p q with
  | nil => exact hq
  | cons o left ih =>
      rw [unstack] at h
      obtain ⟨hnoOp, hfirst, -⟩ := merged_of_unstack h
      -- both programs now start with the same operation
      exact ih h (fun _ => id) ⟨hnoOp, hjoins o hfirst, hq⟩

theorem join?_eq_none_of_merged {o : Op} (h : (unstack left (op o p)).Merged) :
    ∀ last ∈ left.head?, last.join? o = none := by
  intro last hlast
  obtain ⟨left', rfl⟩ := List.head?_eq_some_iff.1 hlast
  rw [unstack] at h
  obtain ⟨-, hjoins, -⟩ := merged_of_unstack h
  simpa [joins] using hjoins

theorem merged_keep {o : Op} (h : (unstack left done).Merged)
    (hlast : ∀ last ∈ left.head?, last.join? o = none) : (unstack (keep o left) done).Merged := by
  rw [keep]
  split
  next => exact h
  next hnoOp =>
    have ho : (op o done).Merged := ⟨by simpa using hnoOp, rfl, trivial⟩
    cases left with
    | nil => exact ho
    | cons last left' =>
        rw [unstack] at h
        obtain ⟨hnoOp', -, -⟩ := merged_of_unstack h
        have hjoins : (op o done).joins last = false := by
          rw [joins, hlast last rfl]
          rfl
        simp only [unstack]
        exact merged_unstack h (fun _ => id) ⟨hnoOp', hjoins, ho⟩

/-- What is kept to the left is merged. -/
theorem merged_pushFused (h : (unstack left done).Merged) (o : Op) :
    (unstack (pushFused left o) done).Merged := by
  obtain ⟨last, left', joined, rfl, hj, heq⟩ | ⟨hlast, heq⟩ := pushFused_cases left o
  · rw [unstack] at h
    rw [heq]
    apply merged_keep
    · exact merged_unstack h (fun _ _ => rfl) trivial
    · -- the sum stands in the place of the last operation
      intro first hfirst
      have hnone := join?_eq_none_of_merged h first hfirst
      have hsome := Op.isSome_join?_joined hj first
      rw [hnone] at hsome
      simpa using hsome
  · rw [heq]
    exact merged_keep h hlast

/-- What is kept to the left of a loop stays there. -/
theorem mergeRuns_unstack_loop (h : (unstack left done).Merged) (body rest : Program) :
    (unstack left (loop body rest)).mergeRuns =
      unstack left (loop body.mergeRuns rest.mergeRuns) := by
  have hloop := reaches_mergeRuns (loop body rest)
  have hreaches := hloop.lift (unstack left) fun _ _ hstep => Joining.unstack hstep left
  have hmerged := merged_mergeRuns (loop body rest)
  exact (eq_mergeRuns_of_reaches hreaches (merged_unstack h (fun _ _ => rfl) hmerged)).symm

end Unstack

/-! ## Sums that fit -/

theorem pushFused_of_merged {left : List Op} {o : Op} {rest : Program}
    (h : (unstack left (op o rest)).Merged) :
    joinFits left o = true ∧ pushFused left o = o :: left := by
  have hnone := join?_eq_none_of_merged h
  constructor
  · rw [joinFits_iff]
    intro last hlast joined hj
    rw [hnone last hlast] at hj
    cases hj
  · obtain ⟨last, left', joined, rfl, hj, -⟩ | ⟨-, heq⟩ := pushFused_cases left o
    · rw [hnone last rfl] at hj
      cases hj
    · rw [heq, keep, (merged_of_unstack h).1]
      rfl

/-- Nothing is joined in a merged program. -/
theorem scanFits_of_merged {p : Program} : ∀ left : List Op, (unstack left p).Merged →
    scanFits left p = true := by
  induction p with
  | done => exact fun _ _ => rfl
  | op o rest ih =>
      intro left h
      obtain ⟨hjoin, hpush⟩ := pushFused_of_merged h
      rw [scanFits, hjoin, hpush]
      exact ih (o :: left) h
  | loop body rest ihbody ihrest =>
      intro left h
      obtain ⟨hbody, hrest⟩ := merged_of_unstack h
      rw [scanFits, Bool.and_eq_true]
      exact ⟨ihbody [] hbody, ihrest [] hrest⟩

theorem shiftFits_pushFused {left : List Op} {o : Op} (hleft : ∀ o ∈ left, o.shiftFits = true)
    (ho : o.shiftFits = true) (hjoin : joinFits left o = true) :
    ∀ o' ∈ pushFused left o, o'.shiftFits = true := by
  obtain ⟨last, left', joined, rfl, hj, heq⟩ | ⟨-, heq⟩ := pushFused_cases left o
  · rw [heq]
    apply forall_mem_keep
    · exact (joinFits_iff _ o).1 hjoin last rfl joined hj
    · exact (List.forall_mem_cons.1 hleft).2
  · rw [heq]
    exact forall_mem_keep ho hleft

/-- Merging a program whose shifts fit in the word leaves it with shifts that fit, if all of its sums
do. -/
theorem shiftFits_mergeRuns {p : Program} : ∀ left : List Op, (unstack left done).Merged →
    (∀ o ∈ left, o.shiftFits = true) → p.allOps Op.shiftFits = true → scanFits left p = true →
      (unstack left p).mergeRuns.allOps Op.shiftFits = true := by
  induction p with
  | done =>
      intro left hleft hfits _ _
      rw [(mergeRuns_eq_iff _).2 hleft, allOps_unstack]
      exact ⟨hfits, rfl⟩
  | op o rest ih =>
      intro left hleft hfits hp hscan
      rw [allOps_op] at hp
      rw [scanFits, Bool.and_eq_true] at hscan
      rw [mergeRuns_unstack_pushFused]
      exact ih _ (merged_pushFused hleft o) (shiftFits_pushFused hfits hp.1 hscan.1) hp.2 hscan.2
  | loop body rest ihbody ihrest =>
      intro left hleft hfits hp hscan
      -- the body and what follows the loop are walked through with nothing kept
      rw [allOps_loop] at hp
      rw [scanFits, Bool.and_eq_true] at hscan
      have hnil : ∀ o ∈ ([] : List Op), o.shiftFits = true := fun o ho => absurd ho List.not_mem_nil
      rw [mergeRuns_unstack_loop hleft, allOps_unstack, allOps_loop]
      exact ⟨hfits, ihbody [] trivial hnil hp.1 hscan.1, ihrest [] trivial hnil hp.2 hscan.2⟩

/-- The sum of the nearest operation and the first one of a merged program cancels, or it is an
operation of the result. -/
theorem shiftFits_of_join? {last o joined : Op} {left : List Op} {rest : Program}
    (hleft : (unstack (last :: left) done).Merged) (hp : (op o rest).Merged)
    (hj : last.join? o = some joined)
    (hfits : (unstack (last :: left) (op o rest)).mergeRuns.allOps Op.shiftFits = true) :
    joined.shiftFits = true := by
  cases hnoOp : joined.isNoOp with
  | true => exact Op.shiftFits_of_isNoOp hnoOp
  | false =>
      obtain ⟨-, hjoins, hrest⟩ := hp
      have hpush := merged_pushFused hleft o
      have heq : pushFused (last :: left) o = joined :: left := by
        simp only [pushFused, hj, hnoOp]
        rfl
      have hnext : rest.joins joined = false := by
        rw [← (joins_of_join? hj rest).2]
        exact hjoins
      rw [heq, unstack] at hpush
      -- neither neighbour of the sum can be joined with it, so merging goes no further
      have hmerged : (unstack left (op joined rest)).Merged :=
        merged_unstack hpush (fun _ => id) ⟨hnoOp, hnext, hrest⟩
      rw [mergeRuns_unstack_pushFused, heq, unstack, (mergeRuns_eq_iff _).2 hmerged, allOps_unstack,
        allOps_op] at hfits
      exact hfits.2.1

/-- A walk into a merged program forms sums that fit if the shifts of the result do. -/
theorem scanFits_of_shiftFits {p : Program} : ∀ {left : List Op}, (unstack left done).Merged →
    p.Merged → (unstack left p).mergeRuns.allOps Op.shiftFits = true → scanFits left p = true := by
  induction p with
  | done => exact fun _ _ _ => rfl
  | loop body rest _ _ => exact fun _ hp _ => scanFits_of_merged [] hp
  | op o rest ih =>
      intro left hleft hp hfits
      rw [scanFits, Bool.and_eq_true]
      constructor
      · rw [joinFits_iff]
        intro last hlast joined hj
        obtain ⟨left', rfl⟩ := List.head?_eq_some_iff.1 hlast
        exact shiftFits_of_join? hleft hp hj hfits
      · rw [mergeRuns_unstack_pushFused] at hfits
        exact ih (merged_pushFused hleft o) hp.2.2 hfits

/-- Two merged programs in a row can be merged if the shifts of the result fit in the word. -/
theorem scanFits_append {p q : Program} (hq : q.Merged) : ∀ left : List Op,
    (unstack left p).Merged → (unstack left (p ++ q)).mergeRuns.allOps Op.shiftFits = true →
      scanFits left (p ++ q) = true := by
  -- nothing is joined up to the end of the first program, and there all of it is kept
  induction p with
  | done => exact fun _ hleft hfits => scanFits_of_shiftFits hleft hq hfits
  | op o rest ih =>
      intro left h hfits
      obtain ⟨hjoin, hpush⟩ := pushFused_of_merged h
      rw [op_append, scanFits, hjoin, hpush]
      exact ih (o :: left) h hfits
  | loop body rest _ ih =>
      intro left h hfits
      obtain ⟨hbody, hrest⟩ := merged_of_unstack h
      -- what is kept to the left of the loop is done with, and the walk goes on with nothing kept
      have hleft : (unstack left done).Merged := merged_unstack h (fun _ _ => rfl) trivial
      rw [loop_append, mergeRuns_unstack_loop hleft, allOps_unstack, allOps_loop] at hfits
      rw [loop_append, scanFits, Bool.and_eq_true]
      exact ⟨scanFits_of_merged [] hbody, ih [] hrest hfits.2.2⟩

theorem scanFits_of_append {p q : Program} : ∀ {left : List Op}, scanFits left (p ++ q) = true →
    scanFits left p = true := by
  induction p with
  | done => exact fun _ => rfl
  | op o rest ih =>
      intro left h
      rw [op_append, scanFits, Bool.and_eq_true] at h
      rw [scanFits, Bool.and_eq_true]
      exact ⟨h.1, ih h.2⟩
  | loop body rest _ ih =>
      intro left h
      rw [loop_append, scanFits, Bool.and_eq_true] at h
      rw [scanFits, Bool.and_eq_true]
      exact ⟨h.1, ih h.2⟩

end Program

end TapeLang
