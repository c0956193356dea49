import Downlevel.Fault
import Downlevel.Text.Cut

/-!
# Edits

A buffer collects replacements of parts of one text. An edit that leaves the
text, splits a character or overlaps an earlier edit is refused as it is
recorded. The edits are applied together, from the last to the first, so that
the positions of those still to come are not disturbed.
-/

namespace Downlevel

/-- The replacement of the bytes from `start` up to `stop`. -/
structure Edit where
  start : Nat
  stop : Nat
  text : String
  /-- What the edit is for. -/
  note : Option String := none
  deriving DecidableEq, Repr

/-- Whether two edits replace a common byte. An insertion inside the other
edit's range counts, one at either end of it does not. -/
def Edit.overlaps (a b : Edit) : Bool :=
  a.start < b.stop && b.start < a.stop

/-- Edits of one text, in the order they were recorded. -/
structure Buffer where
  source : String
  edits : List Edit := []
  deriving DecidableEq, Repr

namespace Buffer

def misplaced? (source : String) (index : Nat) (e : Edit) : Option EditFault :=
  if source.utf8ByteSize < e.stop ∨ e.stop < e.start then
    some (.outOfBounds index e.stop source.utf8ByteSize)
  else if Text.isBoundary source e.start ∧ Text.isBoundary source e.stop then none
  else some (.notBoundary index)

/-- Records an edit. A refused edit leaves no trace. -/
def record (b : Buffer) (e : Edit) : Except EditFault Buffer :=
  match misplaced? b.source b.edits.length e with
  | some f => .error f
  | none =>
    match b.edits.findIdx? (·.overlaps e) with
    | some i => .error (.overlapping i b.edits.length)
    | none => .ok { b with edits := b.edits ++ [e] }

/-- The edits by start; those with the same start stay in the order of recording. -/
def sorted (b : Buffer) : List Edit :=
  b.edits.mergeSort fun a b => a.start ≤ b.start

/-- Applies edits to a text, the last of the list first. Each edit is made in
the text that the edits after it have left. -/
def applyAll? (source : String) : List Edit → Option String
  | [] => some source
  | e :: es =>
    match applyAll? source es with
    | some text => Text.replace? text e.start e.stop e.text
    | none => none

def result? (b : Buffer) : Option String :=
  applyAll? b.source b.sorted

end Buffer

end Downlevel
