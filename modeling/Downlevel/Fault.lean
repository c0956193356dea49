import Downlevel.Operator
import Downlevel.Tree.Kind

/-!
# Faults

Why work on one text stops. Every cause is a constructor with the data that its
message shows. The texts of the messages stand here and nowhere else.
-/

namespace Downlevel

inductive SliceFault where
  | outOfBounds (pos length : Nat)
  | reversed (first last : Nat)
  | noTokenAt (pos : Nat)
  deriving DecidableEq, Repr

/-- Why an edit is refused. Edits are counted from zero in the order they are recorded. -/
inductive EditFault where
  | overlapping (earlier later : Nat)
  | outOfBounds (index stop length : Nat)
  | notBoundary (index : Nat)
  deriving DecidableEq, Repr

inductive Fault where
  /-- The text would have to be cut outside itself, backwards or inside a character.
  No answer can follow, not even a message. -/
  | badCut
  | slice (f : SliceFault)
  | edit (f : EditFault)
  /-- A fold over an operator that reaches members through pointers. -/
  | unsupported (op : Operator) (offset : Nat) (text : String)
  /-- A fold over an operator that has no word for a helper's name. -/
  | unnamed (op : Operator) (offset : Nat)
  | unknownOperator (token : String) (offset : Nat)
  /-- A node whose children do not have the shape that its kind asks for. -/
  | malformed (kind : Kind) (offset : Nat)
  /-- A binary fold whose pack may be either operand. -/
  | ambiguous (offset : Nat) (text : String)
  | syntaxErrors (offset : Nat)
  /-- Every allowed pass found something to edit. -/
  | unsettled (passes : Nat)
  deriving DecidableEq, Repr

def SliceFault.message : SliceFault → String
  | outOfBounds pos length => s!"position {pos} is out of bounds (source length {length})"
  | reversed first last => s!"range begin {first} lies after its end {last}"
  | noTokenAt pos => s!"no token starts at position {pos}"

def EditFault.message : EditFault → String
  | overlapping earlier later => s!"Overlapping edits at indices {earlier} and {later}"
  | outOfBounds index stop length =>
    s!"Edit {index} out of bounds: end_byte {stop} > source length {length}"
  | notBoundary index => s!"Edit {index} does not start and end on character boundaries"

namespace Fault

def message : Fault → String
  | badCut => "text cut outside its characters"
  | slice f => f.message
  | edit f => f.message
  | unsupported op offset text =>
    "fold expressions over member access operator `" ++ op.spelling ++
      s!"` are not supported (at byte {offset}: `" ++ text ++ "`)"
  | unnamed op offset => "operator `" ++ op.spelling ++ s!"` has no fold name (at byte {offset})"
  | unknownOperator token offset => s!"unknown fold operator `{token}` at byte {offset}"
  | malformed kind offset => "malformed " ++ kind.name ++ s!" at byte {offset}"
  | ambiguous offset text =>
    s!"cannot tell which operand of `{text}` holds the parameter pack (at byte {offset})"
  | syntaxErrors offset => s!"syntax errors in source (first at byte {offset})"
  | unsettled passes => s!"no fixpoint after {passes} passes"

def offset? : Fault → Option Nat
  | slice (.outOfBounds pos _) | slice (.noTokenAt pos) => some pos
  | slice (.reversed first _) => some first
  | unsupported _ offset _ | unnamed _ offset | unknownOperator _ offset
  | malformed _ offset | ambiguous offset _ | syntaxErrors offset => some offset
  | badCut | edit _ | unsettled _ => none

/-- Whether the text is sound but holds something that cannot be lowered. -/
def isUnsupported : Fault → Bool
  | unsupported .. => true
  | _ => false

end Fault

end Downlevel
