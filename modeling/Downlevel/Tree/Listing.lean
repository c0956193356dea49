import Downlevel.Tree.Node

/-!
# Tree listings

A listing writes a tree as the sequence of its nodes, each before its children
and with their number.
-/

namespace Downlevel

structure ListedNode where
  kind : Kind
  start : Nat
  stop : Nat
  named : Bool
  missing : Bool
  /-- The number of children. -/
  arity : Nat
  deriving DecidableEq, Repr

/-- Puts a node in front of the trees that follow it; the first of them become its children. -/
def ListedNode.gather (l : ListedNode) (trees : List Node) : List Node :=
  ⟨l.kind, l.start, l.stop, l.named, l.missing, trees.take l.arity⟩ :: trees.drop l.arity

def Node.ofListing? (listing : List ListedNode) : Option Node :=
  (listing.foldr ListedNode.gather []).head?

end Downlevel
