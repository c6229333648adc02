import TapeLang.Optimizer.Traversal

/-!
# The nodes of a sequence

A program is a sequence of nodes, each an operation or a loop with its body. `nodes` lists them, so
that a statement about a program can speak of the node at an index and of the nodes between two
others. `bodies` are the sequences inside the loops of a program, at every depth.
-/

set_option autoImplicit false

namespace TapeLang

/-- An operation or a loop. -/
inductive Node where
  | op (o : Op)
  | loop (body : Program)
  deriving DecidableEq

/-- The node with its body changed, if it is a loop. -/
def Node.mapBody (f : Program → Program) : Node → Node
  | .op o => .op o
  | .loop body => .loop (f body)

namespace Program

/-- The nodes of the sequence itself, in order. -/
def nodes : Program → List Node
  | done => []
  | op o rest => .op o :: nodes rest
  | loop body rest => .loop body :: nodes rest

/-- The bodies of the loops of a program, those inside other bodies included. -/
def bodies : Program → List Program
  | done => []
  | op _ rest => bodies rest
  | loop body rest => body :: bodies body ++ bodies rest

theorem mem_bodies_loop {body rest b : Program} :
    b ∈ (loop body rest).bodies ↔ b = body ∨ b ∈ body.bodies ∨ b ∈ rest.bodies := by
  rw [bodies, List.cons_append, List.mem_cons, List.mem_append]

/-- An induction on the depth of loops: a property of programs holds if every program has it whose
loops have bodies with it. -/
theorem bodies_induction {motive : Program → Prop}
    (step : ∀ p, (∀ body, .loop body ∈ p.nodes → motive body) → motive p) (p : Program) :
    motive p := by
  have hbodies : ∀ body, .loop body ∈ p.nodes → motive body := by
    induction p with
    | done => exact fun body hmem => absurd hmem List.not_mem_nil
    | op o rest ih =>
        intro body hmem
        rcases List.mem_cons.1 hmem with heq | hmem
        · cases heq
        · exact ih body hmem
    | loop inner rest ihinner ihrest =>
        intro body hmem
        rcases List.mem_cons.1 hmem with heq | hmem
        · cases heq
          exact step inner ihinner
        · exact ihrest body hmem
  exact step p hbodies

/-- A traversal changes each node of a sequence for itself, before it changes the sequence. -/
theorem nodes_mapBodies (f : Program → Program) (p : Program) :
    (mapBodies f p).nodes = p.nodes.map (Node.mapBody (everywhere f)) := by
  induction p with
  | done => rfl
  | op o rest ih => rw [mapBodies_op, nodes, ih, nodes, List.map_cons, Node.mapBody]
  | loop body rest _ ih =>
      rw [mapBodies_loop, nodes, ih, nodes, List.map_cons, Node.mapBody, everywhere]

/-- A traversal that keeps the loops of each sequence treats every body for itself. -/
theorem bodies_everywhere {f : Program → Program} (hf : ∀ q, (f q).bodies = q.bodies)
    (p : Program) : (everywhere f p).bodies = p.bodies.map (everywhere f) := by
  rw [everywhere, hf]
  induction p with
  | done => rfl
  | op o rest ih => exact ih
  | loop body rest ihbody ihrest =>
      rw [mapBodies_loop, bodies, hf, ihbody, ihrest, bodies, List.map_append, List.map_cons,
        everywhere]

end Program

end TapeLang
