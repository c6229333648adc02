import TapeLang.Proofs.Source.Recompilation

/-!
# Optimising twice

What the optimiser makes of a source text it leaves as it is the second time, unless it stopped the
first time because no more rounds were allowed (`optimize_twice`).

That it can stop so is shown by a relay: a sequence of links, each of which stores to one of two
cells and reads the other. The last link is removed in two rounds. In the first its store is dead,
for nothing reads it before the cells are cleared; in the second its moves cancel, and its
multiplication runs on a zero cell. Only then is nothing left that reads the store of the link
before it. So a relay takes two rounds for each link (`changes_text`), and no fixed number of rounds
is enough for all of them.
-/

set_option autoImplicit false

namespace TapeLang

namespace Relay

open Program

/-! ## Links -/

/-- The two cells of a relay. -/
def cell : Bool → Int
  | false => 1
  | true => 2

/-- Adds the current cell to one of the two cells. -/
def transfer (b : Bool) : Op := .multiply (Factors.empty.insert (cell b) 1)

/-- A link stores to one of the two cells, and its multiplication reads the other. -/
def link (b : Bool) (rest : Program) : Program :=
  .op (.shift (cell b)) (.op (.add 1 0) (.op (.shift (-cell b)) (.op (transfer !b) rest)))

/-- Clears both cells. -/
def clearing : Program :=
  .op (.shift 1) (.op .setZero (.op (.shift 1) (.op .setZero .done)))

/-- Links that store to the two cells in turn, and what follows them, which depends on the cell that
a further link would store to. -/
def chain (p : Bool → Program) : (b : Bool) → (n : Nat) → Program
  | b, 0 => p b
  | b, n + 1 => link b (chain p (!b) n)

/-- So many links, and both cells are cleared. -/
def relay (b : Bool) (n : Nat) : Program := chain (fun _ => clearing) b n

/-- The last link without its store. -/
def cancelled (b : Bool) : Program :=
  .op (.shift (cell b)) (.op (.shift (-cell b)) (.op (transfer !b) clearing))

/-- What merging leaves of the last link without its store. -/
def idle (b : Bool) : Program := .op (transfer !b) clearing

theorem relay_succ (b : Bool) (n : Nat) :
    relay b (n + 1) = chain (fun b => link b clearing) b n := by
  induction n generalizing b with
  | zero => rfl
  | succ n ih => exact congrArg (link b) (ih !b)

section Chains

variable {p : Bool → Program}

/-- What goes past every link works on what follows the links. -/
theorem map_chain (f : Program → Program) (hf : ∀ b rest, f (link b rest) = link b (f rest))
    (b : Bool) (n : Nat) : f (chain p b n) = chain (fun b => f (p b)) b n := by
  induction n generalizing b with
  | zero => rfl
  | succ n ih => rw [chain, hf, ih, chain]

theorem allOps_chain {test : Op → Bool} (hlink : ∀ b, (link b .done).allOps test = true)
    (hp : ∀ b, (p b).allOps test = true) (b : Bool) (n : Nat) :
    (chain p b n).allOps test = true := by
  induction n generalizing b with
  | zero => exact hp b
  | succ n ih =>
      have hops := hlink b
      simp only [link, allOps_op] at hops
      simp only [chain, link, allOps_op]
      exact ⟨hops.1, hops.2.1, hops.2.2.1, hops.2.2.2.1, ih !b⟩

theorem nodeCount_chain {m : Nat} (hp : ∀ b, (p b).nodeCount = m) (b : Bool) (n : Nat) :
    (chain p b n).nodeCount = 4 * n + m := by
  induction n generalizing b with
  | zero => simp [chain, hp]
  | succ n ih =>
      simp only [chain, link, nodeCount, ih]
      omega

theorem within_chain {m : Nat} (hp : ∀ b, (p b).Within m) (b : Bool) (n : Nat) :
    (chain p b n).Within (6 * n + m) := by
  have hadds : (chain p b n).allOps Op.addsHere = true :=
    allOps_chain (fun b => by cases b <;> rfl) (fun b => (hp b).addsHere) b n
  refine ⟨hadds, ?_⟩
  clear hadds
  induction n generalizing b with
  | zero => simpa [chain] using (hp b).travel_le
  | succ n ih =>
      have hrest := ih !b
      have hlink : (link b .done).travel = 6 := by cases b <;> rfl
      simp only [link, travel] at hlink
      simp only [chain, link, travel]
      omega

end Chains

/-! ## Passes over links -/

theorem mergeRuns_link (b : Bool) (rest : Program) :
    (link b rest).mergeRuns = link b rest.mergeRuns := by
  have htransfer : rest.mergeRuns.joins (transfer !b) = false := by
    cases rest.mergeRuns <;> rfl
  have haway : (Op.shift (cell b)).isNoOp = false := by cases b <;> rfl
  have hback : (Op.shift (-cell b)).isNoOp = false := by cases b <;> rfl
  simp only [link, mergeRuns_op]
  rw [(consFused_eq_op_iff (transfer !b) _).2 ⟨rfl, htransfer⟩,
    (consFused_eq_op_iff (.shift (-cell b)) _).2 ⟨hback, rfl⟩,
    (consFused_eq_op_iff (.add 1 0) _).2 ⟨rfl, rfl⟩,
    (consFused_eq_op_iff (.shift (cell b)) _).2 ⟨haway, rfl⟩]

theorem clearLoops_link (b : Bool) (rest : Program) :
    (link b rest).clearLoops = link b rest.clearLoops := rfl

theorem multiplyLoops_link (b : Bool) (rest : Program) :
    (link b rest).multiplyLoops = link b rest.multiplyLoops := rfl

/-- After a link the current cell is zero. -/
theorem dropZeroLoops_link (k : Known) (b : Bool) (rest : Program) :
    (link b rest).dropZeroLoops k = link b (rest.dropZeroLoops .zeroed) := by
  simp [link, transfer, dropZeroLoops, Op.idleOnZero, Known.after]

/-- The store of a link stays if only the cell that the link reads is dead after it. -/
theorem sweepFrom_link {b : Bool} {rest : Program}
    (h : ∀ x ∈ (rest.sweepFrom 0).zeroed, x = cell !b) :
    (link b rest).sweepFrom 0 =
      ⟨link b (rest.sweepFrom 0).program, [], (rest.sweepFrom 0).dead⟩ := by
  -- the multiplication reads the one cell that was dead
  have hread : ((rest.sweepFrom 0).zeroed.filter fun x =>
      x ≠ 0 && !(Factors.empty.insert (cell !b) 1).offsets.contains (x - 0)) = [] := by
    apply List.filter_eq_nil_iff.2
    intro x hx
    rw [h x hx]
    cases b <;> decide
  have hback : 0 + cell b + -cell b = 0 := by omega
  simp only [link, transfer, sweepFrom, hback, hread]
  rfl

/-- All stores of the links stay if what follows the links leaves only the cell dead that the last
of them reads. -/
theorem sweepFrom_chain {p : Bool → Program}
    (hp : ∀ b, ∀ x ∈ ((p b).sweepFrom 0).zeroed, x = cell b) (b : Bool) (n : Nat) :
    ((chain p b n).sweepFrom 0).program = chain (fun b => (p b).sweep) b n ∧
      ∀ x ∈ ((chain p b n).sweepFrom 0).zeroed, x = cell b := by
  induction n generalizing b with
  | zero => exact ⟨rfl, hp b⟩
  | succ n ih =>
      obtain ⟨hrest, hdead⟩ := ih !b
      rw [chain, sweepFrom_link hdead, hrest]
      exact ⟨rfl, fun x hx => absurd hx List.not_mem_nil⟩

theorem removeDeadStores_chain {p : Bool → Program} (hflat : ∀ b, (p b).mapBodies sweep = p b)
    (hp : ∀ b, ∀ x ∈ ((p b).sweepFrom 0).zeroed, x = cell b) (b : Bool) (n : Nat) :
    (chain p b n).removeDeadStores = chain (fun b => (p b).sweep) b n := by
  rw [removeDeadStores, everywhere, map_chain (mapBodies sweep) fun _ _ => rfl, funext hflat]
  exact (sweepFrom_chain hp b n).1

theorem removeZeroLoops_chain {p : Bool → Program} (b : Bool) (n : Nat) :
    (chain p b (n + 1)).removeZeroLoops =
      chain (fun b => (p b).dropZeroLoops .zeroed) b (n + 1) := by
  rw [removeZeroLoops, chain, dropZeroLoops_link, chain,
    map_chain (dropZeroLoops .zeroed) (dropZeroLoops_link .zeroed)]

/-! ## Rounds -/

theorem folded_relay (b : Bool) (n : Nat) : (relay b n).Folded :=
  { merged := map_chain mergeRuns mergeRuns_link b n
    cleared := map_chain clearLoops clearLoops_link b n
    multiplied := map_chain multiplyLoops multiplyLoops_link b n
    addsHere := allOps_chain (by decide) (by decide) b n
    hasTargets := allOps_chain (by decide) (by decide) b n
    isProper := allOps_chain (by decide) (by decide) b n }

/-- The cells are cleared before anything reads the store of the last link. -/
theorem removeZeroLoops_relay (b : Bool) (n : Nat) :
    (relay b (n + 2)).removeDeadStores.removeZeroLoops = chain cancelled b (n + 1) := by
  have hsweep : (fun b => (link b clearing).sweep) = cancelled := by
    funext b
    cases b <;> rfl
  have hzero : (fun b => (cancelled b).dropZeroLoops .zeroed) = cancelled := by
    funext b
    cases b <;> rfl
  rw [relay_succ, removeDeadStores_chain (fun _ => rfl) (by decide), hsweep, removeZeroLoops_chain,
    hzero]

/-- Without its store the last link does nothing. -/
theorem removeZeroLoops_mergeRuns_cancelled (b : Bool) (n : Nat) :
    (chain cancelled b (n + 1)).mergeRuns.clearLoops.multiplyLoops.removeDeadStores.removeZeroLoops
      = relay b (n + 1) := by
  have hmerge : (fun b => (cancelled b).mergeRuns) = idle := by
    funext b
    cases b <;> rfl
  have hsweep : (fun b => (idle b).sweep) = idle := by
    funext b
    cases b <;> rfl
  rw [map_chain mergeRuns mergeRuns_link, hmerge, map_chain clearLoops clearLoops_link,
    map_chain multiplyLoops multiplyLoops_link]
  -- there is no loop to recognise
  change (chain idle b (n + 1)).removeDeadStores.removeZeroLoops = _
  rw [removeDeadStores_chain (fun _ => rfl) (by decide), hsweep, removeZeroLoops_chain]
  rfl

theorem within_relay (b : Bool) (n : Nat) : (relay b n).Within (6 * n + 2) :=
  within_chain (fun _ => ⟨by decide, by decide⟩) b n

theorem within_cancelled (b : Bool) (n : Nat) : (chain cancelled b n).Within (6 * n + 8) :=
  within_chain (fun b => ⟨by cases b <;> decide, by cases b <;> decide⟩) b n

theorem relay_ne_cancelled (b : Bool) (m n : Nat) : relay b m ≠ chain cancelled b n := by
  have hrelay : (relay b m).nodeCount = 4 * m + 4 := nodeCount_chain (fun _ => rfl) b m
  have hcancelled : (chain cancelled b n).nodeCount = 4 * n + 7 :=
    nodeCount_chain (fun b => show (cancelled b).nodeCount = 7 from rfl) b n
  intro heq
  rw [heq] at hrelay
  omega

section Rounds

open PassSet (Changes)

variable {bound : Nat} (hbound : (bound : Int) ≤ Word.greatest) (b : Bool) {n : Nat}

include hbound

theorem round_relay (hn : 6 * n + 14 ≤ bound) :
    ∃ log, PassSet.all.round (relay b (n + 2)) = .ok (chain cancelled b (n + 1), log) := by
  have hfolded := folded_relay b (n + 2)
  have hwithin : (relay b (n + 2)).Within bound := (within_relay b (n + 2)).mono (by omega)
  obtain ⟨log, hround⟩ := exists_round_all hbound hwithin
  rw [hfolded.merged, hfolded.cleared, hfolded.multiplied, removeZeroLoops_relay] at hround
  exact ⟨log, hround⟩

/-- The first round on the text of a relay puts the multiplications back and goes on as on the
relay. -/
theorem round_text (hn : 6 * n + 14 ≤ bound) :
    ∃ log, PassSet.all.round (relay b (n + 2)).spelled = .ok (chain cancelled b (n + 1), log) := by
  have hwithin : (relay b (n + 2)).Within bound := (within_relay b (n + 2)).mono (by omega)
  obtain ⟨log, hround⟩ := exists_round_all hbound hwithin.spelled
  rw [(folded_relay b (n + 2)).refold, removeZeroLoops_relay] at hround
  exact ⟨log, hround⟩

theorem round_cancelled (hn : 6 * n + 14 ≤ bound) :
    ∃ log, PassSet.all.round (chain cancelled b (n + 1)) = .ok (relay b (n + 1), log) := by
  have hwithin : (chain cancelled b (n + 1)).Within bound :=
    (within_cancelled b (n + 1)).mono (by omega)
  obtain ⟨log, hround⟩ := exists_round_all hbound hwithin
  rw [removeZeroLoops_mergeRuns_cancelled] at hround
  exact ⟨log, hround⟩

/-- Two rounds for each link. -/
theorem changes_cancelled (hn : 6 * n + 14 ≤ bound) :
    Changes .all (2 * n) (chain cancelled b (n + 1)) (chain cancelled b 1) := by
  induction n with
  | zero => exact .refl _
  | succ n ih =>
      obtain ⟨log, hround⟩ := round_cancelled hbound b hn
      obtain ⟨log', hround'⟩ := round_relay hbound b (show 6 * n + 14 ≤ bound by omega)
      apply Changes.head hround (relay_ne_cancelled b (n + 2) (n + 2))
      apply Changes.head hround' (relay_ne_cancelled b (n + 2) (n + 1)).symm
      exact ih (by omega)

/-- The text of a relay takes two rounds for each link. -/
theorem changes_text (hn : 6 * n + 14 ≤ bound) :
    Changes .all (2 * n + 1) (relay b (n + 2)).spelled (chain cancelled b 1) := by
  obtain ⟨log, hround⟩ := round_text hbound b hn
  apply Changes.head hround ?_ (changes_cancelled hbound b hn)
  -- a source text has no multiplication
  intro heq
  have hraw := Source.isRaw_of_parse (Source.parse_source (relay b (n + 2)))
  rw [← heq] at hraw
  simp [chain, link, transfer, Op.isRaw] at hraw

end Rounds

end Relay

/-- A source text can be optimised twice. The second time leaves the program as it is exactly if a
single round does. This is so if the optimiser did not give up the first time, and always for a
source program with no more nodes than there are rounds. -/
theorem optimize_twice {source : String} {p : Program}
    (hlength : (source.length : Int) ≤ Word.greatest) (hp : Source.parse source = .ok p)
    (F : PassSet) :
    ∃ q log r log', F.optimize p = .ok (q, log) ∧ F.optimize q = .ok (r, log') ∧
      (r = q ↔ ∃ log₁, F.round q = .ok (q, log₁)) ∧
      (.gaveUp maxRounds ∉ log → r = q) ∧ (p.nodeCount ≤ maxRounds → r = q) := by
  obtain ⟨q, log, hq, hqwithin⟩ := Program.exists_optimize hlength F (within_of_length hp)
  obtain ⟨r, log', hr, -⟩ := Program.exists_optimize hlength F hqwithin
  have hiff := PassSet.eq_iff_settled_of_optimize hr
  refine ⟨q, log, r, log', hq, hr, hiff, fun hlog => hiff.2 ?_, fun hcount => hiff.2 ?_⟩
  · rcases PassSet.changes_of_optimize hq with hsettled | ⟨hgaveUp, -⟩
    · exact hsettled
    · exact absurd hgaveUp hlog
  · exact PassSet.settled_of_nodeCount_le hq hcount

/-- A loop that is recognised, and a move away and back that is undone by merging. -/
theorem optimize_twice_doubling :
    ∃ p q log log', Source.parse ",[->++<]><." = .ok p ∧ p.nodeCount ≤ maxRounds ∧
      PassSet.all.optimize p = .ok (q, log) ∧ q ≠ p ∧ PassSet.all.optimize q = .ok (q, log') := by
  have hparse : Source.parse ",[->++<]><." = .ok (.op .input (.loop (.op (.add (-1) 0)
      (.op (.shift 1) (.op (.add 1 0) (.op (.add 1 0) (.op (.shift (-1)) .done)))))
      (.op (.shift 1) (.op (.shift (-1)) (.op .output .done))))) := rfl
  obtain ⟨q, log, r, log', hq, hr, -, -, hcount⟩ := optimize_twice (by decide) hparse .all
  have hcomputed := hq
  cases hcomputed
  obtain rfl := hcount (by decide)
  exact ⟨_, _, _, log', hparse, by decide, hq, by decide, hr⟩

/-- The text of a relay of twenty-one links. The optimiser gives up when a relay of one link is
left, and optimises this relay to a single shift. -/
theorem optimize_gives_up_on_relay :
    ∃ p log log',
      Source.parse (String.join (List.replicate 10 ">+<[->>+<<]>>+<<[->+<]") ++
        ">+<[->>+<<]>[-]>[-]") = .ok p ∧
      PassSet.all.optimize p = .ok (Relay.relay false 1, log) ∧
      PassSet.all.optimize (Relay.relay false 1) = .ok (.op (.shift 2) .done, log') ∧
      Relay.relay false 1 ≠ .op (.shift 2) .done := by
  have hbound : ((128 : Nat) : Int) ≤ Word.greatest := by decide
  obtain ⟨log, hlast⟩ := Relay.round_cancelled hbound false (show 6 * 0 + 14 ≤ 128 by omega)
  -- thirty-nine rounds that change something, and the last one
  have hchanges := Relay.changes_text hbound false (show 6 * 19 + 14 ≤ 128 by omega)
  obtain ⟨log', hoptimize⟩ := PassSet.Changes.optimize (by decide) hchanges hlast
  refine ⟨_, log', _, ?_, hoptimize, rfl, by decide⟩
  exact (congrArg Source.parse (by decide +kernel)).trans
    (Source.parse_source (Relay.relay false 21))

end TapeLang
