import Downlevel.Fault
import Downlevel.Text.Cut
import Downlevel.Tree.Node

/-!
# Documents

A document is a text with its syntax tree. Parts of it are read verbatim
through spans, which name their first and last token by the bytes at which
those tokens start.
-/

namespace Downlevel

/-- A run of tokens, given by the starts of its first and its last token. -/
structure Span where
  first : Nat
  last : Nat
  deriving DecidableEq, Repr

/-- The tokens of a node without trailing comments. -/
def Node.span (n : Node) : Span :=
  ⟨n.start, n.lastTokenStart⟩

structure Document where
  text : String
  root : Node

namespace Document

def cut (d : Document) (start stop : Nat) : Except Fault String :=
  match Text.slice? d.text start stop with
  | some s => .ok s
  | none => .error .badCut

def resolveEnd (d : Document) (pos : Nat) : Except Fault Nat :=
  if d.text.utf8ByteSize ≤ pos then .error (.slice (.outOfBounds pos d.text.utf8ByteSize))
  else
    match d.root.tokenEnd? pos with
    | some stop => .ok stop
    | none => .error (.slice (.noTokenAt pos))

def read (d : Document) (s : Span) : Except Fault String :=
  if s.last < s.first then .error (.slice (.reversed s.first s.last))
  else do
    let stop ← d.resolveEnd s.last
    d.cut s.first stop

def readNode (d : Document) (n : Node) : Except Fault String :=
  d.read n.span

end Document

end Downlevel
