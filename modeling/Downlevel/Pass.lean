import Downlevel.Lowering

/-!
# One pass over a document

A pass visits the nodes below the root in document order, each before its
children, and lowers what it finds. Nodes below an edited one are left for
another pass. The first fault ends the pass.
-/

namespace Downlevel

structure Progress where
  buffer : Buffer
  visited : Nat := 0
  deriving DecidableEq, Repr

/-- What a pass did. The edits stand in the order of their starts. -/
structure PassReport where
  text : String
  edits : List Edit
  visited : Nat
  deriving DecidableEq, Repr

namespace Document

variable (d : Document) (packs : List String)

/-- Visits one node, and says whether its children are to be visited. -/
def visit (n : Node) (p : Progress) : Except Fault (Progress × Descent) := do
  let construct ← d.construct packs n
  let outcome ← d.lower construct
  let next : Progress := { p with visited := p.visited + 1 }
  match outcome with
  | .edited e =>
    match p.buffer.record e with
    | .ok buffer => return ({ next with buffer }, construct.descent outcome)
    | .error f => .error (.edit f)
  | .kept => return (next, construct.descent outcome)
  | .rejected op span =>
    let whole ← d.read span
    .error (.unsupported op span.first whole)

/-- Visits the nodes of a stack, its top first. The children of a node take its
place on the stack. -/
def walk (stack : List Node) (p : Progress) : Except Fault Progress :=
  match stack with
  | [] => .ok p
  | n :: rest =>
    match d.visit packs n p with
    | .error f => .error f
    | .ok (p, .enter) => walk (n.children ++ rest) p
    | .ok (p, .skip) => walk rest p
termination_by Node.sizes stack
decreasing_by
  · have : Node.sizes (n.children ++ rest) = Node.sizes n.children + Node.sizes rest :=
      Node.sizes_append _ _
    cases n
    simp_all only [Node.sizes, Node.size]
    omega
  · simp only [Node.sizes]
    have := n.size_pos
    omega

def run (p : Progress) : Except Fault Progress :=
  d.root.children.foldlM (fun p declaration => d.walk packs [declaration] p) p

end Document

def Document.pass (d : Document) : Except Fault PassReport := do
  let packs ← d.packs
  let p ← d.run packs ⟨⟨d.text, []⟩, 0⟩
  match p.buffer.result? with
  | some text => return ⟨text, p.buffer.sorted, p.visited⟩
  | none => .error .badCut

end Downlevel
