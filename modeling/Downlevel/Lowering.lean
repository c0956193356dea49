import Downlevel.Construct
import Downlevel.Edit

/-!
# Lowering of constructs

A fold expression becomes a call of a helper named for its operator and its
direction, with the pack's ellipsis kept in the argument. A static assertion
without a message gains an empty one.
-/

namespace Downlevel

def Direction.word : Direction → String
  | .left => "left"
  | .right => "right"

/-- The call that stands for a fold. The other operand of a binary fold comes
first in a left fold and last in a right one. -/
def foldCall (name : String) (direction : Direction) (pattern : String)
    (init : Option String) : String :=
  let arguments :=
    match direction, init with
    | .left, some i => i ++ ", " ++ pattern ++ "..."
    | .right, some i => pattern ++ "..." ++ ", " ++ i
    | _, none => pattern ++ "..."
  "fold_expr_" ++ name ++ "_" ++ direction.word ++ "(" ++ arguments ++ ")"

def assertionCall (condition : String) : String :=
  "static_assert(" ++ condition ++ ", \"\")"

inductive Outcome where
  | edited (e : Edit)
  | kept
  /-- The operator of the fold at `span` reaches members through pointers. -/
  | rejected (op : Operator) (span : Span)
  deriving DecidableEq, Repr

namespace Document

def lowerFold (d : Document) (f : Fold) : Except Fault Outcome := do
  let pattern ← d.read f.pattern
  if f.operator.isMemberPointer then return .rejected f.operator f.span
  else
    match f.operator.foldName? with
    | none => .error (.unnamed f.operator f.span.first)
    | some name =>
      let init ← f.init.mapM d.read
      let stop ← d.resolveEnd f.span.last
      return .edited ⟨f.span.first, stop, foldCall name f.direction pattern init,
        some ("fold over `" ++ f.operator.spelling ++ "`")⟩

def lowerAssertion (d : Document) (a : Assertion) : Except Fault Outcome :=
  match a.message with
  | some _ => .ok .kept
  | none => do
    let condition ← d.read a.condition
    let stop ← d.resolveEnd a.span.last
    return .edited ⟨a.span.first, stop, assertionCall condition, some "static_assert message"⟩

def lower (d : Document) : Construct → Except Fault Outcome
  | .fold f => d.lowerFold f
  | .assertion a => d.lowerAssertion a
  | .other => .ok .kept

end Document

inductive Descent where
  | enter | skip
  deriving DecidableEq, Repr

/-- The text below an edited node is replaced as a whole, so nothing below it
can be edited in the same pass. Folds are never entered. -/
def Construct.descent : Construct → Outcome → Descent
  | .fold _, _ => .skip
  | .assertion _, .edited _ => .skip
  | _, _ => .enter

end Downlevel
