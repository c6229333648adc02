import TapeLang.Optimizer.DeadStores
import TapeLang.Proofs.Nodes

/-!
# Which stores are removed

The sweep goes through a sequence from its end to its start and carries a set of positions. What it
removes is said here from the front, node by node and without that set: a store is dead if a later
node of the same straight run zeroes its position and no node between the two reads that position or
ends the run (`Dead`). The sweep removes exactly the dead stores and keeps all other nodes in their
order (`removeDeadStores_exact`). The number that it counts is the number of dead stores
(`deadStoreCount_eq_countP`), and the difference of the lengths before and after it
(`deadStoreCount_eq_sub`).

The set that the sweep carries consists of the positions that are zeroed first in what follows
(`Zeroed`); this is proved by induction on the sequence (`mem_sweepFrom_iff`).
-/

set_option autoImplicit false

namespace TapeLang

/-! ## Dead stores -/

namespace Node

/-- The position of the pointer after a node, for the position before it. Inputs and loops start a
new straight run. -/
def after (here : Int) : Node → Int
  | .op (.shift amount) => here + amount
  | .op .input => 0
  | .loop _ => 0
  | _ => here

/-- The position that a node stores to, if it is an addition or a zeroing. -/
def store? (here : Int) : Node → Option Int
  | .op (.add _ offset) => some (here + offset)
  | .op .setZero => some here
  | _ => none

/-- A node keeps earlier stores to the position `x`: it reads that position or ends the straight
run. -/
def blocks (here x : Int) : Node → Bool
  | .op .input => true
  | .loop _ => true
  | .op .output => x = here
  | .op (.multiply factors) => x = here || factors.offsets.any fun k => x = here + k
  | _ => false

end Node

/-- A node and the position of the pointer before it. -/
structure Placed where
  node : Node
  here : Int
  deriving DecidableEq

/-- Nodes with their positions, counted from the start of the straight run. The first node stands at
the position `here`. -/
def placed (here : Int) : List Node → List Placed
  | [] => []
  | n :: ns => ⟨n, here⟩ :: placed (n.after here) ns

/-- The node at index `i` is a store, a later node zeroes the position that it stores to, and no
node between the two blocks that position. -/
def Dead (l : List Placed) (i : Nat) : Prop :=
  ∃ a ∈ l[i]?, ∃ x ∈ a.node.store? a.here, ∃ j < l.length, i < j ∧
    l[j]? = some ⟨.op .setZero, x⟩ ∧ ∀ k < j, i < k → ∀ b ∈ l[k]?, b.node.blocks b.here x = false

instance (l : List Placed) (i : Nat) : Decidable (Dead l i) :=
  inferInstanceAs (Decidable (∃ a ∈ l[i]?, ∃ x ∈ a.node.store? a.here, ∃ j < l.length, i < j ∧
    l[j]? = some ⟨.op .setZero, x⟩ ∧
      ∀ k < j, i < k → ∀ b ∈ l[k]?, b.node.blocks b.here x = false))

/-- The nodes that are not dead stores, in order. -/
def kept (l : List Placed) : List Node :=
  ((List.range l.length).filter fun i => ¬ Dead l i).filterMap fun i => l[i]?.map Placed.node

/-- The position `x` is zeroed before any node blocks it. -/
def Zeroed (l : List Placed) (x : Int) : Prop :=
  ∃ j : Nat, l[j]? = some ⟨.op .setZero, x⟩ ∧
    ∀ k < j, ∀ b ∈ l[k]?, b.node.blocks b.here x = false

section Front

variable {a : Placed} {l : List Placed}

theorem not_zeroed_nil (x : Int) : ¬ Zeroed [] x := by
  rintro ⟨j, hj, -⟩
  simp at hj

/-- The first node zeroes the position, or it lets it pass and what follows zeroes it first. -/
theorem zeroed_cons_iff (x : Int) :
    Zeroed (a :: l) x ↔
      a = ⟨.op .setZero, x⟩ ∨ a.node.blocks a.here x = false ∧ Zeroed l x := by
  constructor
  · rintro ⟨j, hj, hbetween⟩
    cases j with
    | zero => exact Or.inl (Option.some.inj hj)
    | succ j =>
        refine Or.inr ⟨hbetween 0 (Nat.zero_lt_succ j) a rfl, j, hj, ?_⟩
        intro k hk
        exact hbetween (k + 1) (Nat.succ_lt_succ hk)
  · rintro (rfl | ⟨hpass, j, hj, hbetween⟩)
    · exact ⟨0, rfl, fun k hk => absurd hk (Nat.not_lt_zero k)⟩
    · refine ⟨j + 1, hj, ?_⟩
      intro k hk b hb
      cases k with
      | zero =>
          cases hb
          exact hpass
      | succ k => exact hbetween k (Nat.lt_of_succ_lt_succ hk) b hb

/-- The first node is a dead store if what follows zeroes its position first. -/
theorem dead_zero_iff : Dead (a :: l) 0 ↔ ∃ x ∈ a.node.store? a.here, Zeroed l x := by
  constructor
  · rintro ⟨_, ⟨rfl⟩, x, hx, j, -, hpos, hj, hbetween⟩
    obtain ⟨j, rfl⟩ := Nat.exists_eq_succ_of_ne_zero (Nat.ne_of_gt hpos)
    refine ⟨x, hx, j, hj, ?_⟩
    intro k hk
    exact hbetween (k + 1) (Nat.succ_lt_succ hk) (Nat.zero_lt_succ k)
  · rintro ⟨x, hx, j, hj, hbetween⟩
    obtain ⟨hlength, -⟩ := List.getElem?_eq_some_iff.1 hj
    refine ⟨a, rfl, x, hx, j + 1, Nat.succ_lt_succ hlength, Nat.zero_lt_succ j, hj, ?_⟩
    intro k hk hpos
    obtain ⟨k, rfl⟩ := Nat.exists_eq_succ_of_ne_zero (Nat.ne_of_gt hpos)
    exact hbetween k (Nat.lt_of_succ_lt_succ hk)

/-- Whether a store is dead depends only on what follows it. -/
theorem dead_succ_iff (i : Nat) : Dead (a :: l) (i + 1) ↔ Dead l i := by
  constructor
  · rintro ⟨b, hb, x, hx, j, hlength, hij, hj, hbetween⟩
    obtain ⟨j, rfl⟩ := Nat.exists_eq_succ_of_ne_zero (Nat.ne_of_gt (Nat.zero_lt_of_lt hij))
    refine ⟨b, hb, x, hx, j, Nat.lt_of_succ_lt_succ hlength, Nat.lt_of_succ_lt_succ hij, hj, ?_⟩
    intro k hk hik
    exact hbetween (k + 1) (Nat.succ_lt_succ hk) (Nat.succ_lt_succ hik)
  · rintro ⟨b, hb, x, hx, j, hlength, hij, hj, hbetween⟩
    refine ⟨b, hb, x, hx, j + 1, Nat.succ_lt_succ hlength, Nat.succ_lt_succ hij, hj, ?_⟩
    intro k hk hik
    obtain ⟨k, rfl⟩ := Nat.exists_eq_succ_of_ne_zero (Nat.ne_of_gt (Nat.zero_lt_of_lt hik))
    exact hbetween k (Nat.lt_of_succ_lt_succ hk) (Nat.lt_of_succ_lt_succ hik)

theorem kept_cons : kept (a :: l) = if Dead (a :: l) 0 then kept l else a.node :: kept l := by
  have htail : (((List.range l.length).map Nat.succ).filter fun i => ¬ Dead (a :: l) i).filterMap
      (fun i => (a :: l)[i]?.map Placed.node) = kept l := by
    rw [List.filter_map, List.filterMap_map, kept]
    congr 1
    apply List.filter_congr
    intro i _
    simp only [Function.comp_apply, Nat.succ_eq_add_one, dead_succ_iff]
  rw [kept, List.length_cons, List.range_succ_eq_map]
  by_cases hdead : Dead (a :: l) 0
  · rw [if_pos hdead, List.filter_cons_of_neg (by simpa using hdead), htail]
  · rw [if_neg hdead, List.filter_cons_of_pos (by simpa using hdead), List.filterMap_cons, htail]
    rfl

theorem length_placed (l : List Node) : ∀ here : Int, (placed here l).length = l.length := by
  induction l with
  | nil => exact fun _ => rfl
  | cons n ns ih =>
      intro here
      rw [placed, List.length_cons, ih, List.length_cons]

/-- Every node is kept or a dead store. -/
theorem length_kept (l : List Placed) :
    (kept l).length + (List.range l.length).countP (fun i => Dead l i) = l.length := by
  induction l with
  | nil => rfl
  | cons a l ih =>
      have htail : (List.range l.length).countP ((fun i => decide (Dead (a :: l) i)) ∘ Nat.succ) =
          (List.range l.length).countP fun i => Dead l i := by
        apply List.countP_congr
        intro i _
        simp only [Function.comp_apply, Nat.succ_eq_add_one, dead_succ_iff]
      rw [kept_cons, List.length_cons, List.range_succ_eq_map, List.countP_cons, List.countP_map,
        htail]
      by_cases hdead : Dead (a :: l) 0
      · rw [if_pos hdead, if_pos (decide_eq_true hdead)]
        omega
      · rw [if_neg hdead, if_neg (by simpa using hdead), List.length_cons]
        omega

end Front

/-! ## The sweep -/

namespace Program

/-- The positions that the sweep carries are those that are zeroed first. -/
theorem mem_sweepFrom_iff (x : Int) (p : Program) : ∀ here : Int,
    x ∈ (p.sweepFrom here).zeroed ↔ Zeroed (placed here p.nodes) x := by
  induction p with
  | done => simp [sweepFrom, nodes, placed, not_zeroed_nil]
  | loop body rest _ ih => simp [sweepFrom, nodes, placed, zeroed_cons_iff, Node.blocks]
  | op o rest ih =>
      intro here
      rw [nodes, placed, zeroed_cons_iff]
      cases o with
      | input => simp [sweepFrom, Node.blocks]
      | shift amount => simp [sweepFrom, Node.blocks, Node.after, ih]
      | add amount offset =>
          -- the store is kept or not, and the set stays as it is
          simp only [sweepFrom, Node.blocks, Node.after]
          split <;> simp [ih]
      | setZero =>
          simp only [sweepFrom, Node.blocks, Node.after, ← ih, Placed.mk.injEq, true_and]
          split
          next hmem =>
            -- the position is in the set already
            constructor
            · exact Or.inr
            · rintro (rfl | h)
              · exact hmem
              · exact h
          next => rw [List.mem_cons, eq_comm]
      | output =>
          simp only [sweepFrom, Node.blocks, Node.after, ← ih, Placed.mk.injEq, Node.op.injEq,
            reduceCtorEq, false_and, false_or, List.mem_filter, decide_eq_true_eq,
            decide_eq_false_iff_not, ne_eq]
          exact and_comm
      | multiply factors =>
          have hoffset : factors.offsets.contains (x - here) =
              factors.offsets.any fun k => x = here + k := by
            rw [List.contains_eq_any_beq]
            congr 1
            funext k
            rw [Bool.eq_iff_iff, beq_iff_eq, decide_eq_true_eq]
            omega
          simp only [sweepFrom, Node.blocks, Node.after, ← ih, Placed.mk.injEq, Node.op.injEq,
            reduceCtorEq, false_and, false_or, List.mem_filter, hoffset]
          rw [and_comm]
          simp

/-- A store is removed exactly if its position is in the set that the sweep carries. -/
theorem kept_store {n : Node} {here x : Int} (h : n.store? here = some x) (rest : Program) :
    kept (⟨n, here⟩ :: placed (n.after here) rest.nodes) =
      if x ∈ (rest.sweepFrom (n.after here)).zeroed then kept (placed (n.after here) rest.nodes)
      else n :: kept (placed (n.after here) rest.nodes) := by
  have hdead : Dead (⟨n, here⟩ :: placed (n.after here) rest.nodes) 0 ↔
      x ∈ (rest.sweepFrom (n.after here)).zeroed := by
    rw [dead_zero_iff, mem_sweepFrom_iff, h]
    simp
  simp only [kept_cons, hdead]

/-- A node that is no store is kept. -/
theorem kept_other {n : Node} {here : Int} (h : n.store? here = none) (rest : Program) :
    kept (⟨n, here⟩ :: placed (n.after here) rest.nodes) =
      n :: kept (placed (n.after here) rest.nodes) := by
  rw [kept_cons, if_neg]
  rw [dead_zero_iff, h]
  rintro ⟨x, hx, -⟩
  cases hx

/-- A sweep leaves the nodes that are not dead stores. -/
theorem nodes_sweepFrom (p : Program) : ∀ here : Int,
    (p.sweepFrom here).program.nodes = kept (placed here p.nodes) := by
  induction p with
  | done => exact fun _ => rfl
  | loop body rest _ ih =>
      intro here
      rw [nodes, placed, kept_other rfl, ← ih]
      rfl
  | op o rest ih =>
      intro here
      rw [nodes, placed]
      cases o with
      | add amount offset =>
          rw [kept_store rfl, ← ih, sweepFrom]
          split
          next hmem => exact (if_pos hmem).symm
          next hmem => exact (if_neg hmem).symm
      | setZero =>
          rw [kept_store rfl, ← ih, sweepFrom]
          split
          next hmem => exact (if_pos hmem).symm
          next hmem => exact (if_neg hmem).symm
      | input =>
          rw [kept_other rfl, ← ih]
          rfl
      | shift amount =>
          rw [kept_other rfl, ← ih]
          rfl
      | output =>
          rw [kept_other rfl, ← ih]
          rfl
      | multiply factors =>
          rw [kept_other rfl, ← ih]
          rfl

/-- The sweep counts what it leaves out, in any measure that counts an operation as one and adds up
along a sequence. -/
theorem size_sweepFrom (size : Program → Nat) (hop : ∀ o rest, size (op o rest) = 1 + size rest)
    (hloop : ∀ body rest, size (loop body rest) = size (loop body done) + size rest)
    (p : Program) : ∀ here : Int,
    size p = size (p.sweepFrom here).program + (p.sweepFrom here).dead := by
  induction p with
  | done => exact fun _ => rfl
  | loop body rest _ ih =>
      intro here
      simp only [sweepFrom]
      rw [hloop body rest, hloop body (rest.sweepFrom 0).program, ih 0, Nat.add_assoc]
  | op o rest ih =>
      intro here
      rw [hop]
      cases o with
      | add amount offset =>
          -- a store that is left out is counted instead
          rw [ih here, sweepFrom]
          split
          · exact Nat.add_comm 1 _
          · rw [hop, Nat.add_assoc]
      | setZero =>
          rw [ih here, sweepFrom]
          split
          · exact Nat.add_comm 1 _
          · rw [hop, Nat.add_assoc]
      | shift amount => rw [ih (here + amount), sweepFrom, hop, Nat.add_assoc]
      | input => rw [ih 0, sweepFrom, hop, Nat.add_assoc]
      | output => rw [ih here, sweepFrom, hop, Nat.add_assoc]
      | multiply factors => rw [ih here, sweepFrom, hop, Nat.add_assoc]

/-- The number of dead stores is the difference of the lengths before and after a sweep. -/
theorem deadStoreCount_eq_sub (p : Program) : p.deadStoreCount = p.length - p.sweep.length := by
  have hlength := size_sweepFrom length (fun o rest => Nat.add_comm _ 1)
    (fun body rest => Nat.add_comm _ 1) p 0
  rw [deadStoreCount, sweep]
  omega

/-- What is counted are the dead stores. -/
theorem deadStoreCount_eq_countP (p : Program) :
    p.deadStoreCount =
      (List.range p.nodes.length).countP fun i => Dead (placed 0 p.nodes) i := by
  have hnodes := size_sweepFrom (fun q => q.nodes.length) (fun o rest => Nat.add_comm _ 1)
    (fun body rest => Nat.add_comm _ 1) p 0
  have hkept := length_kept (placed 0 p.nodes)
  rw [← nodes_sweepFrom, length_placed] at hkept
  rw [deadStoreCount]
  omega

/-- Removing dead stores removes exactly these. The bodies of the loops of a sequence are treated in
the same way first. Of the nodes that the sequence has then, with their positions in their straight
runs, those at the indices of dead stores are removed: additions and zeroings whose position a later
node zeroes, with no input, no loop, no output at that position and no multiplication with that
position as its origin or as a target between the two. All other nodes are kept, in order. -/
theorem removeDeadStores_exact (p : Program) :
    p.removeDeadStores.nodes =
      kept (placed 0 (p.nodes.map (Node.mapBody removeDeadStores))) := by
  rw [removeDeadStores, everywhere, sweep, nodes_sweepFrom, nodes_mapBodies]
  rfl

/-- Two additions are dead although the pointer wanders off and comes back, and a zeroing because of
the last one. The output keeps the third addition. -/
example : removeDeadStores (op (.add 5 0) (op (.shift 2) (op (.add 1 (-2)) (op .setZero
    (op (.shift (-2)) (op .setZero (op (.add 7 0) (op .output (op .setZero (op (.shift 2)
      (op .setZero done))))))))))) =
    op (.shift 2) (op (.shift (-2)) (op .setZero (op (.add 7 0) (op .output (op .setZero
      (op (.shift 2) (op .setZero done))))))) := by
  decide

end Program

end TapeLang
