import Downlevel.Pass

/-!
# Passes until nothing is left

Constructs nest, and a pass lowers only the outermost ones. A text is parsed
and passed over again until a pass finds nothing to edit. The parser is given
as a function from texts to trees.
-/

namespace Downlevel

/-- How often a text may be edited, and whether a broken one may be. -/
structure Limits where
  maxPasses : Nat := 16
  allowErrors : Bool := false
  deriving DecidableEq, Repr

structure Settled where
  text : String
  /-- The passes made, with the last one, which edited nothing. -/
  passes : Nat
  /-- The number of edits of every pass but the last. -/
  edits : List Nat
  /-- Whether the text differs from the one given. -/
  changed : Bool
  deriving DecidableEq, Repr

def Settled.totalEdits (s : Settled) : Nat := s.edits.foldr (· + ·) 0

variable (parse : String → Node)

/-- Parses a text and passes over it. Syntax errors are faults unless allowed. -/
def checkedPass (allowErrors : Bool) (text : String) : Except Fault PassReport :=
  let root := parse text
  if allowErrors then (Document.mk text root).pass
  else
    match root.firstError? with
    | some e => .error (.syntaxErrors e.start)
    | none => (Document.mk text root).pass

def passCeiling : Nat := 0xffffffffffffffff

namespace Limits

/-- The number of passes that may be made: one more than may edit, as far as
that can be counted. -/
def passes (l : Limits) : Nat := min (l.maxPasses + 1) passCeiling

/-- Makes up to `fuel` passes. Before them, `done` holds the numbers of edits of
the passes that led from `source` to `text`. -/
def settleFrom (l : Limits) (source : String) :
    Nat → List Nat → String → Except Fault Settled
  | 0, _, _ => .error (.unsettled l.maxPasses)
  | fuel + 1, done, text =>
    match checkedPass parse l.allowErrors text with
    | .error f => .error f
    | .ok report =>
      if report.edits.isEmpty then
        .ok ⟨text, done.length + 1, done, text != source⟩
      else settleFrom l source fuel (done ++ [report.edits.length]) report.text

def settle (l : Limits) (source : String) : Except Fault Settled :=
  l.settleFrom parse source l.passes [] source

end Limits

end Downlevel
