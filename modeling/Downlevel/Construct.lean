import Downlevel.Pack

/-!
# Constructs

What a node of the tree means here: a fold expression, a static assertion, or
nothing of interest. Folds and assertions are read off a node's children by
their order; comments and nodes that the parser made up are left out first.
-/

namespace Downlevel

/-- The side of a fold on which evaluation starts. -/
inductive Direction where
  | left | right
  deriving DecidableEq, Repr

/-- A fold expression: `pattern` holds the pack, `init` is the other operand of
a binary fold. -/
structure Fold where
  span : Span
  operator : Operator
  direction : Direction
  pattern : Span
  init : Option Span := none
  deriving DecidableEq, Repr

structure Assertion where
  span : Span
  condition : Span
  message : Option Span := none
  deriving DecidableEq, Repr

inductive Construct where
  | fold (f : Fold)
  | assertion (a : Assertion)
  | other
  deriving DecidableEq, Repr

def Node.malformed (n : Node) : Fault :=
  .malformed n.kind n.start

namespace Document

def operatorAt (d : Document) (token : Node) : Except Fault Operator := do
  let spelled ← d.cut token.start token.stop
  match Operator.ofToken? spelled with
  | some op => .ok op
  | none => .error (.unknownOperator spelled token.start)

/-- The direction of a binary fold. The operand that holds a pack is the
pattern; if that does not tell the operands apart, the one that is no literal
is. A fold with its pattern on the left goes right, and the other way round. -/
def direction (d : Document) (packs : List String) (n left right : Node) :
    Except Fault Direction := do
  let inLeft ← d.holdsPack packs left
  let inRight ← d.holdsPack packs right
  match inLeft, inRight, left.isPlainLiteral, right.isPlainLiteral with
  | true, false, _, _ => return .right
  | false, true, _, _ => return .left
  | _, _, false, true => return .right
  | _, _, true, false => return .left
  | _, _, _, _ =>
    let whole ← d.cut n.start n.stop
    .error (.ambiguous n.start whole)

/-- Reads what stands between the parentheses of the fold `n`. -/
def foldOf (d : Document) (packs : List String) (n : Node) (span : Span) :
    List Node → Except Fault Fold
  | [a, op, b] =>
    if a.kind == .ellipsis then do
      let operator ← d.operatorAt op
      return { span, operator, direction := .left, pattern := b.span }
    else if b.kind == .ellipsis then do
      let operator ← d.operatorAt op
      return { span, operator, direction := .right, pattern := a.span }
    else .error n.malformed
  | [left, op, dots, op', right] =>
    if dots.kind == .ellipsis then do
      let operator ← d.operatorAt op
      let operator' ← d.operatorAt op'
      if operator' ≠ operator then .error n.malformed
      else
        match ← d.direction packs n left right with
        | .left => return ⟨span, operator, .left, right.span, some left.span⟩
        | .right => return ⟨span, operator, .right, left.span, some right.span⟩
    else .error n.malformed
  | _ => .error n.malformed

def fold (d : Document) (packs : List String) (n : Node) : Except Fault Fold :=
  match n.parts.head?, n.parts.getLast? with
  | some opening, some closing =>
    if n.parts.length < 5 ∨ opening.kind ≠ .openParen ∨ closing.kind ≠ .closeParen then
      .error n.malformed
    else d.foldOf packs n ⟨opening.start, closing.start⟩ n.parts.tail.dropLast
  | _, _ => .error n.malformed

end Document

/-- What stands between the first opening parenthesis and the last closing
one after it, and that closing parenthesis. -/
def arguments? (parts : List Node) : Option (List Node × Node) :=
  let inside := (parts.dropWhile (·.kind != .openParen)).tail
  match inside.reverse.dropWhile (·.kind != .closeParen) with
  | closing :: before => some (before.reverse, closing)
  | [] => none

/-- Reads a static assertion. Its condition is the first named argument, its
message the first one after a comma. -/
def Node.assertion (n : Node) : Except Fault Assertion :=
  match n.parts.head?, arguments? n.parts with
  | some keyword, some (arguments, closing) =>
    match arguments.find? (·.named) with
    | some condition =>
      let message := (arguments.dropWhile (·.kind != .comma)).tail.find? (·.named)
      .ok ⟨⟨keyword.start, closing.start⟩, condition.span, message.map (·.span)⟩
    | none => .error n.malformed
  | _, _ => .error n.malformed

def Document.construct (d : Document) (packs : List String) (n : Node) :
    Except Fault Construct :=
  match n.kind with
  | .foldExpression => (d.fold packs n).map .fold
  | .staticAssertion => n.assertion.map .assertion
  | _ => .ok .other

end Downlevel
