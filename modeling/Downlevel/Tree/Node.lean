import Downlevel.Tree.Kind

/-!
# Syntax trees

A node covers the bytes from `start` up to `stop`. Nothing is assumed of the
ranges: a damaged tree may hold nodes that are reversed, overlap their
siblings, or leave their parent or the text.
-/

namespace Downlevel

structure Node where
  kind : Kind
  start : Nat
  stop : Nat
  /-- Whether the grammar names the node, unlike punctuation and keywords. -/
  named : Bool
  /-- Whether the parser made the node up to recover from an error. -/
  missing : Bool
  children : List Node

instance : Inhabited Node := ⟨⟨default, 0, 0, false, false, []⟩⟩

namespace Node

def isToken (n : Node) : Bool := n.children.isEmpty

def isComment (n : Node) : Bool := n.kind == .comment

def isWide (n : Node) : Bool := n.start < n.stop

def contains (n : Node) (pos : Nat) : Bool := n.start ≤ pos && pos < n.stop

/-- Whether the node itself, not a node below it, marks a syntax error. -/
def isError (n : Node) : Bool := n.kind == .error || n.missing

def isOperand (n : Node) : Bool := n.named && !n.isComment && !n.missing

/-- The children that take part in the construct: no comments, nothing made up. -/
def parts (n : Node) : List Node :=
  n.children.filter fun c => !c.isComment && !c.missing

mutual

def size : Node → Nat
  | .mk _ _ _ _ _ children => 1 + sizes children

def sizes : List Node → Nat
  | [] => 0
  | n :: ns => n.size + sizes ns

end

theorem size_pos (n : Node) : 0 < n.size := by
  cases n
  simp only [size]
  omega

theorem sizes_append (ns ms : List Node) : sizes (ns ++ ms) = sizes ns + sizes ms := by
  induction ns with
  | nil => simp [sizes]
  | cons n ns ih => simp [sizes, ih]; omega

mutual

def preorder : Node → List Node
  | .mk kind start stop named missing children =>
    .mk kind start stop named missing children :: preorders children

def preorders : List Node → List Node
  | [] => []
  | n :: ns => n.preorder ++ preorders ns

end

mutual

def hasErrors : Node → Bool
  | .mk kind _ _ _ missing children => kind == .error || missing || anyHasErrors children

def anyHasErrors : List Node → Bool
  | [] => false
  | n :: ns => n.hasErrors || anyHasErrors ns

end

mutual

def firstError? : Node → Option Node
  | .mk kind start stop named missing children =>
    if kind == .error || missing then some (.mk kind start stop named missing children)
    else firstErrorOf? children

def firstErrorOf? : List Node → Option Node
  | [] => none
  | n :: ns =>
    match n.firstError? with
    | some e => some e
    | none => firstErrorOf? ns

end

mutual

def ofKind (wanted : Kind) : Node → List Node
  | .mk kind start stop named missing children =>
    if kind == wanted then
      .mk kind start stop named missing children :: ofKinds wanted children
    else ofKinds wanted children

def ofKinds (wanted : Kind) : List Node → List Node
  | [] => []
  | n :: ns => ofKind wanted n ++ ofKinds wanted ns

end

mutual

def tokens : Node → List Node
  | .mk kind start stop named missing [] =>
    if start < stop then [.mk kind start stop named missing []] else []
  | .mk _ _ _ _ _ (c :: cs) => tokensOf (c :: cs)

def tokensOf : List Node → List Node
  | [] => []
  | n :: ns => n.tokens ++ tokensOf ns

end

mutual

/-- Where the last token of the node starts. Trailing comments and empty nodes
are passed over on every level. -/
def lastTokenStart : Node → Nat
  | .mk _ start _ _ _ children => (lastTokenStartOf? children).getD start

def lastTokenStartOf? : List Node → Option Nat
  | [] => none
  | n :: ns =>
    match lastTokenStartOf? ns with
    | some s => some s
    | none => if !n.isComment && n.isWide then some n.lastTokenStart else none

end

mutual

/-- The end of the token that starts at `pos`. The search enters the first
wide child that covers `pos`, and never turns back. -/
def tokenEnd? (pos : Nat) : Node → Option Nat
  | .mk _ start stop _ _ [] => if start = pos ∧ pos < stop then some stop else none
  | .mk _ _ _ _ _ (c :: cs) => tokenEndOf? pos (c :: cs)

def tokenEndOf? (pos : Nat) : List Node → Option Nat
  | [] => none
  | n :: ns => if n.isWide && n.contains pos then n.tokenEnd? pos else tokenEndOf? pos ns

end

mutual

/-- Whether the node is one literal, or one in any number of parentheses. -/
def isPlainLiteral : Node → Bool
  | .mk kind _ _ _ _ children =>
    kind.isLiteral || (kind == .parenthesized && isLonePlainLiteral children)

def isLonePlainLiteral : List Node → Bool
  | [] => false
  | n :: ns =>
    if n.isOperand then n.isPlainLiteral && !ns.any isOperand else isLonePlainLiteral ns

end

end Node

end Downlevel
